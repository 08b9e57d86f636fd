/-
# A scripted host

A host whose functions are described by data: a script says what a function
logs and how it ends; tools are small functions for programs to call, among
them some that make resources. The host keeps an event log, the promises that
it left pending, and the names under which values were defined.

Key definitions: `Script`, `Tool`, `Disposer`, `Console`, `Console.call`.
-/
import ResourceMachine.Value.Host

namespace ResourceMachine

/-! ### Descriptions -/

/-- How a scripted function ends: with the next value of a sequence (undefined
once it is exhausted), by a throw, with a promise left pending, with its
receiver, with an argument, or with a value. -/
inductive Ending where
  | sequence (vs : List Value)
  | throws (v : Value)
  | pending
  | receiver
  | argument (i : Nat)
  | returns (v : Value)
  deriving Inhabited

/-- What a function does when it is called: it logs a text, if there is one,
followed by its arguments, by its receiver and by how the iterator of a name
stands, each on demand; then it ends. -/
structure Script where
  log : Option String
  showArgs : Bool
  showReceiver : Bool
  probe : Option String
  ending : Ending
  deriving Inhabited

/-- How a dispose method ends. -/
inductive Disposal where
  | returns
  | throws
  | resolves
  | rejects
  | pends
  deriving DecidableEq, Repr

/-- A dispose method made by a tool: the event that it logs, how it ends, and
the message of the error, if it ends with one. -/
structure Disposer where
  event : String
  message : String
  disposal : Disposal
  deriving DecidableEq, Repr

/-- The functions that every scripted host offers. -/
inductive Tool where
  | log | fail
  | resource | failing | asyncResource | asyncFailing | asyncThrowing | asyncPlain
  | deferredResource | both
  | pending | resolved | rejected | resolve | reject
  | error | list | iter
  | eq | lt | add | not | str | typeOf | counter
  deriving DecidableEq, Repr

namespace Tool

/-- Every tool. -/
def all : List Tool :=
  [log, fail, resource, failing, asyncResource, asyncFailing, asyncThrowing, asyncPlain,
   deferredResource, both, pending, resolved, rejected, resolve, reject, error, list, iter,
   eq, lt, add, not, str, typeOf, counter]

/-- The name of a tool, and of its global. -/
def name : Tool → String
  | log => "log" | fail => "fail"
  | resource => "resource" | failing => "failing"
  | asyncResource => "async_resource" | asyncFailing => "async_failing"
  | asyncThrowing => "async_throwing" | asyncPlain => "async_plain"
  | deferredResource => "deferred_resource" | both => "both"
  | pending => "pending" | resolved => "resolved" | rejected => "rejected"
  | resolve => "resolve" | reject => "reject"
  | error => "error" | list => "list" | iter => "iter"
  | eq => "eq" | lt => "lt" | add => "add" | not => "not" | str => "str"
  | typeOf => "typeof" | counter => "counter"

end Tool

/-- What a function of the host does. -/
inductive Behaviour where
  | script (s : Script)
  | tool (t : Tool)
  | disposer (d : Disposer)
  deriving Inhabited

/-- The state of the host: its functions by identity, its log, the promises
left pending, how often each text was counted, and the names of values, the
latest first. -/
structure Console where
  functions : Array Behaviour
  log : Array String
  pending : Array Nat
  counts : List (String × Nat)
  names : List (String × Value)

namespace Console

/-- A host without functions. -/
def empty : Console := ⟨#[], #[], #[], [], []⟩

/-- The world before anything happens. -/
def start : World Console := ⟨.empty, .empty⟩

variable {ε : Type}

/-! ### Effects -/

/-- A computation in the world of this host. -/
abbrev M (ε : Type) := EStateM ε (World Console)

/-- Change the state of the host. -/
def change (f : Console → Console) : M ε Unit := modify fun w => { w with host := f w.host }

/-- Append an event to the log. -/
def record (event : String) : M ε Unit := change fun c => { c with log := c.log.push event }

/-- Give a name to a value. -/
def define (name : String) (v : Value) : M ε Unit :=
  change fun c => { c with names := (name, v) :: c.names }

/-- The value that was given a name last. -/
def named? (name : String) : M ε (Option Value) := return (← get).host.names.lookup name

/-- A new function of the host. -/
def newFunction (name : String) (b : Behaviour) : M ε Value := do
  let id := (← get).host.functions.size
  change fun c => { c with functions := c.functions.push b }
  pure (.function (.host ⟨id, name⟩))

/-- A new promise, which the host keeps in order to settle it. -/
def newPending : M ε Value := do
  let p ← World.onHeap (Heap.newPromise .pending)
  match p with
  | .promise id => change fun c => { c with pending := c.pending.push id }
  | _ => pure ()
  pure p

/-- Settle the promise that was left pending as the `n`-th, if there is one. -/
def settlePending (n : Nat) (s : Settlement) : M ε (Option Bool) := do
  match (← get).host.pending[n]? with
  | some id => some <$> World.onHeap (Heap.settle id s)
  | none => pure none

/-! ### Scripts -/

/-- The text of a receiver: that of its property `tag` if it is an object which
has one. -/
def receiverText (h : Heap) (receiver : Value) : String :=
  match receiver with
  | .object id => ((h.property? id (.name "tag")).getD receiver).text
  | _ => receiver.text

/-- How the iterator of a name stands, as a text. -/
def probeText (w : World Console) (name : Option String) : String :=
  match name.bind fun n => w.host.names.lookup n with
  | some (.iterator id) =>
    let c := w.heap.cursor id
    s!" closed={c.closed} pos={c.position}"
  | _ => ""

/-- The event of a call. -/
def eventText (w : World Console) (s : Script) (log : String) (receiver : Value)
    (args : List Value) : String :=
  let shownArgs := if s.showArgs then "(" ++ ", ".intercalate (args.map Value.text) ++ ")" else ""
  let shownReceiver :=
    if s.showReceiver then " this=" ++ receiverText w.heap receiver else ""
  log ++ shownArgs ++ shownReceiver ++ probeText w s.probe

/-- End a call of the function `id`. -/
def finish (id : Nat) (s : Script) (receiver : Value) (args : List Value) : M Value Value := do
  match s.ending with
  | .sequence vs =>
    let rest := Behaviour.script { s with ending := .sequence vs.tail }
    change fun c => { c with functions := c.functions.setIfInBounds id rest }
    pure (vs.headD .undefined)
  | .throws v => throw v
  | .pending => newPending
  | .receiver => pure receiver
  | .argument i => pure (args.getD i .undefined)
  | .returns v => pure v

/-- Call the scripted function `id`. -/
def runScript (id : Nat) (s : Script) (receiver : Value) (args : List Value) : M Value Value := do
  match s.log with
  | some log => record (eventText (← get) s log receiver args)
  | none => pure ()
  finish id s receiver args

/-! ### Tools -/

/-- Throw a new error. -/
def throwNew (message : String) : M Value Value := do
  throw (← World.onHeap (Heap.newError .error message))

/-- A new promise that has settled. -/
def newSettled (s : Settlement) : M ε Value := World.onHeap (Heap.newPromise s)

/-- Call a dispose method. -/
def runDisposer (d : Disposer) : M Value Value := do
  record d.event
  match d.disposal with
  | .returns => pure .undefined
  | .throws => throwNew d.message
  | .resolves => newSettled (.fulfilled .undefined)
  | .rejects => newSettled (.rejected (← World.onHeap (Heap.newError .error d.message)))
  | .pends => newPending

/-- A new property that holds a dispose method. -/
def disposeProperty (shown : String) (hint : Hint) (disposal : Disposal) :
    M ε (PropertyKey × Value) := do
  let (name, verb) := match hint with
    | .sync => ("dispose", "dispose")
    | .async => ("asyncDispose", "async")
  let f ← newFunction name (.disposer ⟨s!"{verb} {shown}", shown, disposal⟩)
  pure (.symbol hint, f)

/-- A new object with one dispose method. -/
def newResource (shown : String) (hint : Hint) (disposal : Disposal) : M ε Value := do
  let p ← disposeProperty shown hint disposal
  World.onHeap (Heap.newObject [p])

/-- A new object with a dispose method of each kind. -/
def newBoth (shown : String) : M ε Value := do
  let p ← disposeProperty shown .sync .returns
  let q ← disposeProperty shown .async .resolves
  World.onHeap (Heap.newObject [p, q])

/-- Settle a promise by its number and tell whether it was still pending. -/
def settleByNumber (number : Int32) (s : Settlement) : M ε Value := do
  let settled ← if number < 0 then pure none else settlePending number.toInt.toNat s
  pure (settled.elim .undefined .bool)

/-- How often a text was counted before. -/
def countText (shown : String) : M ε Value := do
  let n := ((← get).host.counts.lookup shown).getD 0
  change fun c => { c with counts := (shown, n + 1) :: c.counts.filter (·.1 ≠ shown) }
  pure (.int (Int32.ofNat n))

/-- The text of the first argument, empty if there is none. -/
def firstText : List Value → String
  | [] => ""
  | v :: _ => v.text

/-- Call a tool. A missing argument reads as undefined, but its text is empty. -/
def runTool (t : Tool) (args : List Value) : M Value Value := do
  let arg (i : Nat) : Value := args.getD i .undefined
  let num (i : Nat) : Int32 := (arg i).asInt?.getD 0
  let shown := firstText args
  match t with
  | .log => do
    record shown
    pure .undefined
  | .fail => throwNew shown
  | .resource => newResource shown .sync .returns
  | .failing => newResource shown .sync .throws
  | .asyncResource => newResource shown .async .resolves
  | .asyncFailing => newResource shown .async .rejects
  | .asyncThrowing => newResource shown .async .throws
  | .asyncPlain => newResource shown .async .returns
  | .deferredResource => newResource shown .async .pends
  | .both => newBoth shown
  | .pending => newPending
  | .resolved => newSettled (.fulfilled (arg 0))
  | .rejected => newSettled (.rejected (arg 0))
  | .resolve => settleByNumber (num 0) (.fulfilled (arg 1))
  | .reject => settleByNumber (num 0) (.rejected (arg 1))
  | .error => World.onHeap (Heap.newError .error shown)
  | .list => World.onHeap (Heap.newList args)
  | .iter => World.onHeap (Heap.newIterator (.ofList args none))
  | .eq => pure (.bool ((arg 0).strictEquals (arg 1)))
  | .lt => pure (.bool (decide (num 0 < num 1)))
  | .add => pure (.int (num 0 + num 1))
  | .not => pure (.bool !(arg 0).isTruthy)
  | .str => pure (.str shown)
  | .typeOf => pure (.str (arg 0).typeName)
  | .counter => countText shown

/-! ### The host -/

/-- What the functions of this host do. One that it does not know returns
undefined. -/
def call : Host Console := fun f receiver args => do
  match (← get).host.functions[f.id]? with
  | some (.script s) => runScript f.id s receiver args
  | some (.tool t) => runTool t args
  | some (.disposer d) => runDisposer d
  | none => pure .undefined

/-- The tools as globals. -/
def toolGlobals : List Tool → M ε (List (String × Value))
  | [] => pure []
  | t :: ts => do
    let f ← newFunction t.name (.tool t)
    let rest ← toolGlobals ts
    pure ((t.name, f) :: rest)

end Console
end ResourceMachine
