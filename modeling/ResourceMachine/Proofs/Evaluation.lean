/-
# Evaluation of the language

What a function means, told by walking over its syntax. Expressions yield a
value or throw; statements are left in one of the ways of `Exit`, or throw. A
name stands for its innermost binding. A block that declares resources disposes
them when it is left, whichever way: `disposeAll` calls their methods, the last
registered first, and `pass` awaits what has to be awaited.

An evaluation works on what the rest of the world can see of a call: the world,
the globals, the replies that it gets at its suspensions, the trace of its
events, its return slot and the resources that its open scopes have registered.
Every loop may go round `fuel` times; an evaluation that needs more is out of
fuel. The entities that the machine makes for its own use (the boxes around
resources) use up identities, so an evaluation makes them too.

Key definitions: `CallState`, `Eval`, `Exit`, `Eval.pass`, `Expr.eval`,
`Stmt.exec`, `Declaration.run`.
-/
import ResourceMachine.Proofs.Session
import ResourceMachine.Source.Syntax
import ResourceMachine.Value.Disposal

namespace ResourceMachine

/-- Whether a value is the signal that closes a generator. -/
def Value.isClosing : Value → Bool
  | closing => true
  | _ => false

/-! ### What evaluation works on -/

/-- What can be seen of a call from outside of its code. -/
structure CallState (σ : Type) where
  world : World σ
  globals : Globals
  script : List (Reply σ)
  trace : List Event
  rval : Value
  scopes : List Capability

/-- Why an evaluation stops before its end: a value was thrown, the script of
replies has come to its end, or a loop would go round too often. -/
inductive Interrupt where
  | thrown (exception : Value)
  | suspended (p : Suspension)
  | outOfFuel

/-- An evaluation. One that stops keeps what was done before. -/
abbrev Eval (σ : Type) := EStateM Interrupt (CallState σ)

/-- The bindings that a statement sees, the latest first. -/
abbrev Bindings := List (String × Value)

/-- How a statement is left, unless it throws. -/
inductive Exit where
  | normal
  | ret (v : Value)
  | breakTo (label : Option String)
  | continueTo (label : Option String)

namespace Exit

/-- Whether execution goes on behind the statement. -/
def isNormal : Exit → Bool
  | normal => true
  | _ => false

/-- Whether a jump without a label, or with this one, means a loop. -/
def names (jump loop : Option String) : Bool := jump.isNone || loop == jump

/-- Whether a loop goes on to its next round when its body is left so. -/
def continues (loop : Option String) : Exit → Bool
  | normal => true
  | continueTo label => names label loop
  | _ => false

/-- Whether a loop ends when its body is left so. -/
def breaks (loop : Option String) : Exit → Bool
  | breakTo label => names label loop
  | _ => false

/-- How a loop is left that is left by its body. -/
def leaveLoop (loop : Option String) (x : Exit) : Exit :=
  if x.breaks loop then normal else x

end Exit

namespace Eval

variable {σ α : Type}

/-! ### Steps of an evaluation -/

/-- Let an exception go its way. -/
def raise (exception : Value) : Eval σ α := throw (.thrown exception)

/-- Run what may throw, and tell how it ended. -/
def attempt (m : Eval σ α) : Eval σ (Except Value α) := fun s =>
  match m s with
  | .ok a s' => .ok (.ok a) s'
  | .error (.thrown e) s' => .ok (.error e) s'
  | .error i s' => .error i s'

/-- Add an event to the trace. -/
def log (event : Event) : Eval σ Unit := modify fun s => { s with trace := s.trace ++ [event] }

/-- Raise an exception. -/
def signal (exception : Value) : Eval σ α := do
  log (.raise exception)
  raise exception

/-- Work on the heap. -/
def onHeap (m : OnHeap Value α) : Eval σ α := fun s =>
  match World.onHeap m s.world with
  | .ok a world => .ok a { s with world }
  | .error e world => .error (.thrown e) { s with world }

/-- Raise a new error. -/
def raiseNew (kind : ErrorKind) (message : String) : Eval σ α := do
  signal (← onHeap (Heap.newError kind message))

/-- Call a function. -/
def callFunction (host : Host σ) (origin : Origin) (f : Callable) (receiver : Value)
    (args : List Value) : Eval σ Value := fun s =>
  let (result, world) := (f.call host receiver args).settle s.world
  let s := { s with world, trace := s.trace ++ [.call origin f receiver args result] }
  match result with
  | .ok v => .ok v s
  | .error e => signal e s

/-- Call a value. What is no function cannot be called. -/
def callValue (host : Host σ) (origin : Origin) (callee receiver : Value) (args : List Value) :
    Eval σ Value :=
  match callee with
  | .function f => callFunction host origin f receiver args
  | _ => raiseNew .typeError s!"{callee.typeName} is not a function"

/-- Stop until a reply comes. The answer is a value, an exception, or that the
call has to return: then the closing signal is thrown. -/
def suspend (p : Suspension) : Eval σ Value := fun s =>
  let s := { s with trace := s.trace ++ [Event.suspend p] }
  match s.script with
  | [] => .error (.suspended p) s
  | r :: rest =>
    let answer := p.accept r.answer
    let s :=
      { s with
        world := r.world
        globals := r.globals
        script := rest
        trace := s.trace ++ [Event.resume answer] }
    match answer with
    | .next v => .ok v s
    | .throw e => .error (.thrown e) s
    | .ret v => .error (.thrown .closing) { s with rval := v }

/-- Set the return slot. -/
def setRval (v : Value) : Eval σ Unit := modify fun s => { s with rval := v }

/-- Have a value returned. -/
def returnValue (v : Value) : Eval σ Unit := do
  log (.returns v)
  setRval v

/-- Wait for a value, which leaves the call through the return slot. -/
def await (v : Value) : Eval σ Value := do
  setRval v
  suspend (.await v)

/-- Hand out a value, which leaves the call through the return slot. -/
def yield (v : Value) : Eval σ Value := do
  setRval v
  suspend (.yield v)

/-- Let other work have its turn. -/
def tick : Eval σ Unit := do
  let _ ← await .undefined

/-! ### Iterators -/

/-- An iterator over a value. -/
def iterate (v : Value) : Eval σ Nat := do
  match v with
  | .list _ items =>
    let id := (← get).world.heap.iterators.size
    let _ ← onHeap (Heap.newIterator (.ofList items none))
    pure id
  | .iterator id => pure id
  | _ => raiseNew .typeError s!"{v.typeName} is not iterable"

/-- The next item of an iterator. -/
def nextItem (id : Nat) : Eval σ (Option Value) := do
  let item ← onHeap (Heap.nextItem id)
  log (.next id item)
  pure item

/-- Close an iterator, and tell what that throws. -/
def closeIterator (id : Nat) : Eval σ (Option Value) := do
  let error ← onHeap (Heap.closeIterator id)
  log (.close id error)
  pure error

/-- Close the iterator of a loop that is left before its end. -/
def leaveIterator (id : Nat) : Eval σ Unit := do
  match ← closeIterator id with
  | some e => signal e
  | none => pure ()

/-! ### Scopes -/

/-- Open a scope. -/
def openScope : Eval σ Unit := modify fun s => { s with scopes := .empty :: s.scopes }

/-- Close the innermost scope. -/
def closeScope : Eval σ Unit := do
  match (← get).scopes with
  | c :: outer =>
    log (.exitScope c.resources)
    modify fun s => { s with scopes := outer }
  | [] => pure ()

/-- Register a value with the innermost scope. -/
def register (v : Value) (hint : Hint) : Eval σ Unit := do
  match ← attempt (onHeap (createResource v hint)) with
  | .ok (some r) =>
    log (.register r)
    modify fun s =>
      match s.scopes with
      | c :: outer => { s with scopes := c.add r :: outer }
      | [] => s
  | .ok none => pure ()
  | .error e => signal e

/-- Take the resources out of the innermost scope, each in a box, and the boxes
in a list. -/
def takeResources : Eval σ (List Resource) := do
  match (← get).scopes with
  | c :: outer =>
    modify fun s => { s with scopes := .empty :: outer }
    let boxes ← onHeap (Heap.newResources c.resources)
    let _ ← onHeap (Heap.newList boxes)
    pure c.resources
  | [] => pure []

/-! ### Disposal -/

/-- What a pass carries from resource to resource: the exception that is pending
if there is one, whether an await is owed, and whether there was one. -/
structure PassState where
  pending : Option Value
  needsAwait : Bool
  hasAwaited : Bool

/-- The exception that is pending after another one was thrown. The closing signal
is no exception where `unwrapClosing` says so: it gives way. -/
def chain (unwrapClosing : Bool) (pending : Option Value) (e : Value) : Eval σ Value :=
  match pending with
  | none => pure e
  | some .closing => if unwrapClosing then pure e else onHeap (Heap.newSuppressed e .closing)
  | some p => onHeap (Heap.newSuppressed e p)

end Eval

/-- The method of a resource, if it has one. -/
def Record.method? (r : Resource) : Option Value := r.method.filter (!·.isNullish)

namespace Eval

variable {σ α : Type}

/-- Call the method of a resource, and await what it returns if it was declared
async. What is thrown becomes pending. -/
def callMethod (host : Host σ) (unwrapClosing : Bool) (r : Resource) (method : Value)
    (st : PassState) : Eval σ PassState := do
  match ← attempt (callValue host .pass method r.value []) with
  | .error e => return { st with pending := some (← chain unwrapClosing st.pending e) }
  | .ok v =>
    match r.hint with
    | .sync => return st
    | .async =>
      match ← attempt (await v) with
      | .ok _ => return { st with hasAwaited := true }
      | .error e =>
        return { st with pending := some (← chain unwrapClosing st.pending e), hasAwaited := true }

/-- Before a sync resource, make up for an await that is owed. -/
def awaitBefore (r : Resource) (st : PassState) : Eval σ PassState := do
  if r.hint = .sync ∧ st.needsAwait ∧ !st.hasAwaited then
    tick
    return { st with needsAwait := false }
  else return st

/-- Dispose a resource. One without a method only asks for an await. -/
def disposeOne (host : Host σ) (unwrapClosing : Bool) (r : Resource) (st : PassState) :
    Eval σ PassState := do
  let st ← awaitBefore r st
  match r.method? with
  | some method => callMethod host unwrapClosing r method st
  | none => return { st with needsAwait := true }

/-- Dispose resources in order. -/
def disposeAll (host : Host σ) (unwrapClosing : Bool) :
    List Resource → PassState → Eval σ PassState
  | [], st => return st
  | r :: rs, st => do
    let st ← disposeOne host unwrapClosing r st
    disposeAll host unwrapClosing rs st

/-- At the end of a pass, make up for an await that is owed. -/
def awaitAfter (st : PassState) : Eval σ Unit := do
  if st.needsAwait ∧ !st.hasAwaited then tick

/-- Dispose the resources of the innermost scope, the last registered first, with
an exception pending or not, and yield what is pending then. The return slot
keeps its value. -/
def pass (host : Host σ) (kind : FunctionKind) (pending : Option Value) :
    Eval σ (Option Value) := do
  let rval := (← get).rval
  let rs ← takeResources
  let st ← disposeAll host (kind.isGenerator && pending.isSome) rs.reverse ⟨pending, false, false⟩
  awaitAfter st
  setRval rval
  return st.pending

/-- Dispose on a way out that no exception caused. -/
def leave (host : Host σ) (kind : FunctionKind) : Eval σ Unit := do
  match ← pass host kind none with
  | some e => raise e
  | none => return ()

/-- Dispose because of an exception, close the scope, and yield what is to be
thrown then. -/
def leaveByThrow (host : Host σ) (kind : FunctionKind) (e : Value) : Eval σ Value := do
  let pending ← pass host kind (some e)
  closeScope
  return pending.getD .undefined

/-- Run a body in a scope of its own, dispose, and close the scope. -/
def inScope (host : Host σ) (kind : FunctionKind) (body : Eval σ Exit) : Eval σ Exit := do
  openScope
  let left := do
    let x ← body
    leave host kind
    return x
  match ← attempt left with
  | .ok x =>
    -- behind its end, a block makes a second pass, for which nothing is left
    if x.isNormal then
      let _ ← pass host kind (some .undefined)
    closeScope
    return x
  | .error e => raise (← leaveByThrow host kind e)

/-- Run a round of a loop whose value is registered in a scope of its own. -/
def roundInScope (host : Host σ) (kind : FunctionKind) (v : Value) (hint : Hint)
    (body : Eval σ Exit) : Eval σ Exit := do
  openScope
  let left := do
    register v hint
    let x ← body
    leave host kind
    return x
  match ← attempt left with
  | .ok x =>
    closeScope
    return x
  | .error e => raise (← leaveByThrow host kind e)

/-! ### Loops -/

/-- Go round as long as a condition holds, at most `fuel` times. -/
def whileLoop (label : Option String) (cond : Eval σ Value) (body : Eval σ Exit) :
    (fuel : Nat) → Eval σ Exit
  | 0 => throw .outOfFuel
  | fuel + 1 => do
    if (← cond).isTruthy then
      let x ← body
      if x.continues label then whileLoop label cond body fuel
      else return x.leaveLoop label
    else return .normal

/-- Go round once for every item, at most `fuel` times. A loop that is left before
its end closes its iterator. While an exception is pending, what closing throws
is dropped. -/
def forLoop (label : Option String) (id : Nat) (body : Value → Eval σ Exit) :
    (fuel : Nat) → Eval σ Exit
  | 0 => throw .outOfFuel
  | fuel + 1 => do
    match ← nextItem id with
    | none => return .normal
    | some v =>
      match ← attempt (body v) with
      | .ok x =>
        if x.continues label then forLoop label id body fuel
        else
          leaveIterator id
          return x.leaveLoop label
      | .error e =>
        let _ ← closeIterator id
        raise e

end Eval

/-! ### Expressions -/

section

variable {σ : Type} (host : Host σ)

mutual

/-- The value of an expression. -/
@[simp] def Expr.eval : Expr → Bindings → Eval σ Value
  | .undefined, _ => return .undefined
  | .null, _ => return .null
  | .bool b, _ => return .bool b
  | .int n, _ => return .int n
  | .str s, _ => return .str s
  | .binding name, ρ => return (ρ.lookup name).getD .undefined
  | .global name, _ => do
    match (← get).globals.get? name with
    | some v => return v
    | none => Eval.raiseNew .referenceError s!"{name} is not defined"
  | .call callee args, ρ => do
    let f ← callee.eval ρ
    let vs ← Expr.evalAll args ρ
    Eval.callValue host .body f .undefined vs
  | .await e, ρ => do Eval.await (← e.eval ρ)
  | .yield e, ρ => do Eval.yield (← e.eval ρ)

/-- The values of several expressions, in order. -/
@[simp] def Expr.evalAll : List Expr → Bindings → Eval σ (List Value)
  | [], _ => return []
  | e :: es, ρ => do
    let v ← e.eval ρ
    let vs ← Expr.evalAll es ρ
    return v :: vs

end

/-! ### Statements -/

/-- Run a block: in a scope of its own if it declares resources. -/
def Eval.block (kind : FunctionKind) (disposes : Bool) (body : Eval σ Exit) : Eval σ Exit :=
  if disposes then inScope host kind body else body

/-- The bindings behind a catch clause's parameter. -/
def Bindings.caught (ρ : Bindings) (param : Option String) (e : Value) : Bindings :=
  match param with
  | some name => (name, e) :: ρ
  | none => ρ

variable (kind : FunctionKind) (fuel : Nat)

mutual

/-- Execute a statement. The result says how it was left, and which bindings the
statements behind it see. -/
@[simp] def Stmt.exec : Stmt → Bindings → Eval σ (Exit × Bindings)
  | .expr e, ρ => do
    let _ ← e.eval host ρ
    return (.normal, ρ)
  | .letIn name init, ρ => do
    let v ← init.eval host ρ
    return (.normal, (name, v) :: ρ)
  | .usingIn name hint init, ρ => do
    let v ← init.eval host ρ
    Eval.register v hint
    return (.normal, (name, v) :: ρ)
  | .block body, ρ => do
    let x ← Eval.block host kind (body.any Stmt.isUsing) (Stmt.execAll body ρ)
    return (x, ρ)
  | .ifElse cond yes no, ρ => do
    let v ← cond.eval host ρ
    let x ←
      if v.isTruthy then Eval.block host kind (yes.any Stmt.isUsing) (Stmt.execAll yes ρ)
      else Eval.block host kind (no.any Stmt.isUsing) (Stmt.execAll no ρ)
    return (x, ρ)
  | .whileLoop label cond body, ρ => do
    let x ← Eval.whileLoop label (cond.eval host ρ)
      (Eval.block host kind (body.any Stmt.isUsing) (Stmt.execAll body ρ)) fuel
    return (x, ρ)
  | .forOf label binding hint iterable body, ρ => do
    let id ← Eval.iterate (← iterable.eval host ρ)
    let round := fun v =>
      let body := Eval.block host kind (body.any Stmt.isUsing) (Stmt.execAll body ((binding, v) :: ρ))
      match hint with
      | some hint => Eval.roundInScope host kind v hint body
      | none => body
    let x ← Eval.forLoop label id round fuel
    return (x, ρ)
  | .tryCatch body param handler, ρ => do
    match ← Eval.attempt
        (Eval.block host kind (body.any Stmt.isUsing) (Stmt.execAll body ρ)) with
    | .ok x => return (x, ρ)
    | .error e =>
      if kind.isGenerator && e.isClosing then Eval.raise e
      else
        let x ← Eval.block host kind (handler.any Stmt.isUsing)
          (Stmt.execAll handler (ρ.caught param e))
        return (x, ρ)
  | .throw e, ρ => do Eval.signal (← e.eval host ρ)
  | .ret (some e), ρ => do
    let v ← e.eval host ρ
    Eval.returnValue v
    return (.ret v, ρ)
  | .ret none, ρ => do
    Eval.returnValue .undefined
    return (.ret .undefined, ρ)
  | .breakLoop label, ρ => return (.breakTo label, ρ)
  | .continueLoop label, ρ => return (.continueTo label, ρ)

/-- Execute statements in order, until one is left in another way than normally. -/
@[simp] def Stmt.execAll : List Stmt → Bindings → Eval σ Exit
  | [], _ => return .normal
  | s :: ss, ρ => do
    let (x, ρ) ← s.exec ρ
    if x.isNormal then Stmt.execAll ss ρ else return x

end

end

/-! ### Calls -/

namespace CallState

variable {σ : Type}

/-- Before a call. -/
def initial (world : World σ) (globals : Globals) (script : List (Reply σ)) : CallState σ :=
  { world, globals, script
    trace := []
    rval := .undefined
    scopes := [] }

end CallState

namespace Declaration

variable {σ : Type} (host : Host σ) (fuel : Nat) (d : Declaration)

/-- The bindings of the parameters. A missing argument is undefined. -/
def bind (args : List Value) : Bindings :=
  (d.params.zipIdx.map fun (name, k) => (name, args.getD k .undefined)).reverse

/-- The value that a call returns. -/
def call (args : List Value) : Eval σ Value := do
  match ← Eval.block host d.kind (d.body.any Stmt.isUsing)
      (Stmt.execAll host d.kind fuel d.body (d.bind args)) with
  | .ret v => return v
  | _ =>
    Eval.returnValue .undefined
    return .undefined

/-- How a call ends or stops, and what it leaves behind; no outcome if it is out
of fuel. The closing signal, if nothing handles it, completes the call with its
return slot. -/
def run (args : List Value) (s : CallState σ) : Option Outcome × CallState σ :=
  match d.call host fuel args s with
  | .ok v s' => (some (.completed v), s')
  | .error (.thrown .closing) s' => (some (.completed s'.rval), s')
  | .error (.thrown e) s' => (some (.threw e), s')
  | .error (.suspended p) s' => (some p.outcome, s')
  | .error .outOfFuel s' => (none, s')

end Declaration
end ResourceMachine
