/-
# From syntax to code

Statements are emitted one after the other. Two stacks are kept: the scopes in
which names are bound, and the regions around the statement at hand (disposable
scopes, protected regions, loops, iterations). A `break`, `continue` or
`return` emits the exit of every region that it leaves, the innermost first,
and the code that follows it starts at the depth before the jump.

Key definitions: `Region`, `Lowering`, `Region.exit`, `Expr.lower`, `Stmt.lower`,
`Declaration.compile`, `Module.compile`.
-/
import ResourceMachine.Assembly.DisposalScope
import ResourceMachine.Source.Syntax

namespace ResourceMachine

/-! ### Regions -/

/-- A loop that `break` and `continue` can name. A `for`-`of` loop keeps its
iterator on the stack, above `exitDepth`. -/
structure LoopRegion where
  label : Option String
  isForOf : Bool
  continueTarget : Nat
  breaks : List PendingJump
  exitDepth : Nat
  deriving DecidableEq, Repr

/-- A region around the statement at hand. -/
inductive Region where
  | disposable (scope : DisposalScope)
  | tryCatch
  | loop (l : LoopRegion)
  | iteration (scope : Option DisposalScope)
  deriving DecidableEq, Repr

namespace Region

/-- Emit the code that leaves a region. -/
def exit : Region → Emit Region
  | disposable scope => do
    let scope ← ScopeEmit.on scope DisposalScope.leave
    Emitter.emit .endTry
    Emitter.leaveScope
    pure (disposable scope)
  | tryCatch => do
    Emitter.emit .endTry
    pure tryCatch
  | loop l => do
    if l.isForOf then Emitter.emit (.iterClose 0)
    pure (loop l)
  | iteration none => do
    Emitter.emit .endTry
    pure (iteration none)
  | iteration (some scope) => do
    let scope ← ScopeEmit.on scope DisposalScope.leave
    Emitter.leaveScope
    Emitter.emit .endTry
    pure (iteration (some scope))

/-- Emit the code that leaves several regions, in order. -/
def exitAll : List Region → Emit (List Region)
  | [] => pure []
  | r :: rs => do
    let r ← r.exit
    let rs ← exitAll rs
    pure (r :: rs)

/-- The regions inside the innermost loop that carries a label, or inside the
innermost loop if no label is given; then that loop, and the regions around it. -/
def splitAtLoop (label : Option String) :
    List Region → Option (List Region × LoopRegion × List Region)
  | [] => none
  | r :: rs =>
    let further := (splitAtLoop label rs).map fun (inner, l, outer) => (r :: inner, l, outer)
    match r with
    | loop l => if label.isNone ∨ l.label = label then some ([], l, rs) else further
    | _ => further

end Region

/-! ### State -/

/-- The bindings of a scope and their locals, the latest first. -/
abbrev Scope := List (String × UInt16)

/-- A function being lowered, with the scopes and regions around the statement
at hand, the innermost first. -/
structure Lowering where
  emitter : Emitter
  scopes : List Scope
  regions : List Region
  deriving Repr

/-- A computation that lowers syntax. -/
abbrev Lower := EStateM CompileError Lowering

namespace Lower

/-- Emit code only. -/
def lift (m : Emit α) : Lower α := fun ⟨e, scopes, regions⟩ =>
  match m e with
  | .ok a e' => .ok a ⟨e', scopes, regions⟩
  | .error x e' => .error x ⟨e', scopes, regions⟩

instance : MonadLift Emit Lower := ⟨lift⟩

/-- The local of a binding: that of the innermost scope which has it. -/
def lookup (name : String) : Lower UInt16 := do
  match (← get).scopes.flatten.lookup name with
  | some slot => pure slot
  | none => throw (.undefinedVariable name)

/-- Bind a name to a fresh local in the innermost scope. -/
def declare (name : String) : Lower UInt16 := do
  let slot ← Emitter.allocLocal
  modify fun s =>
    match s.scopes with
    | scope :: rest => { s with scopes := ((name, slot) :: scope) :: rest }
    | [] => { s with scopes := [[(name, slot)]] }
  pure slot

/-- Bind a name to a fresh local and store the value on top there. -/
def declareAndStore (name : String) : Lower Unit := do
  Emitter.emit (.storeLocal (← declare name))

/-- Enter a scope. -/
def pushScope : Lower Unit := modify fun s => { s with scopes := [] :: s.scopes }

/-- Exit the innermost scope. -/
def popScope : Lower Unit := modify fun s => { s with scopes := s.scopes.tail }

/-- Enter a region. -/
def pushRegion (r : Region) : Lower Unit := modify fun s => { s with regions := r :: s.regions }

/-- Exit the innermost region and yield what it has become. -/
def popRegion : Lower (Option Region) := do
  let s ← get
  set { s with regions := s.regions.tail }
  pure s.regions.head?

/-- Register the value on top with the block at hand. -/
def registerUsing (hint : Hint) : Lower Unit := do
  match (← get).regions with
  | .disposable scope :: rest =>
    let scope ← ScopeEmit.on scope (DisposalScope.register hint)
    modify fun s => { s with regions := .disposable scope :: rest }
  | _ => Emitter.defect .usingOutsideScope

/-- Let every `break` of a loop lead to the next instruction. -/
def patchBreaks : List PendingJump → Emit Unit
  | [] => pure ()
  | p :: ps => do
    Emitter.patchHere p
    patchBreaks ps

/-- Exit a loop's region and let its `break`s lead to the next instruction. -/
def closeLoop (r : Option Region) : Lower Unit := do
  match r with
  | some (.loop l) => patchBreaks l.breaks
  | _ => Emitter.defect .unbalancedRegions

/-- The scope of an iteration or block that is exited. -/
def scopeOf (r : Option Region) : Lower (Option DisposalScope) := do
  match r with
  | some (.iteration scope) => pure scope
  | some (.disposable scope) => pure (some scope)
  | _ => Emitter.defect .unbalancedRegions

end Lower

/-! ### Expressions -/

mutual

/-- Emit code that pushes the value of an expression. -/
def Expr.lower : Expr → Lower Unit
  | .undefined => Emitter.emit .constUndefined
  | .null => Emitter.emit .constNull
  | .bool b => Emitter.emit (if b then .constTrue else .constFalse)
  | .int n => Emitter.emit (.constI32 n)
  | .str s => Emitter.constStr s
  | .binding name => do Emitter.emit (.loadLocal (← Lower.lookup name))
  | .global name => Emitter.loadGlobal name
  | .call callee args => do
    if 255 < args.length then throw .tooManyArguments
    else
      callee.lower
      Emitter.emit .constUndefined
      Expr.lowerAll args
      Emitter.emit (.call (UInt8.ofNat args.length))
  | .await e => do
    e.lower
    Emitter.emitAwait
  | .yield e => do
    e.lower
    Emitter.emitYield

/-- Emit code that pushes the values of several expressions, in order. -/
def Expr.lowerAll : List Expr → Lower Unit
  | [] => pure ()
  | e :: es => do
    e.lower
    Expr.lowerAll es

end

/-! ### Jumps -/

namespace Lower

/-- Emit `return`: the value goes to the return slot, where passes keep it. -/
def ret (e : Option Expr) : Lower Unit := do
  match e with
  | some e => e.lower
  | none => Emitter.emit .constUndefined
  Emitter.emit .setRval
  let depth ← Emitter.currentDepth
  let regions ← Region.exitAll (← get).regions
  modify fun s => { s with regions }
  Emitter.emit .retRval
  Emitter.setDepth depth

/-- The regions that a jump leaves, the loop it names and the regions around
that; or the error if there is no such loop. -/
def findLoop (label : Option String) (otherwise : CompileError) :
    Lower (List Region × LoopRegion × List Region) := do
  match Region.splitAtLoop label (← get).regions, label with
  | some found, _ => pure found
  | none, some label => throw (.undefinedLabel label)
  | none, none => throw otherwise

/-- Emit `continue`. -/
def continueLoop (label : Option String) : Lower Unit := do
  let (inner, l, outer) ← findLoop label .invalidContinue
  let depth ← Emitter.currentDepth
  let inner ← Region.exitAll inner
  Emitter.jumpTo .always l.continueTarget
  modify fun s => { s with regions := inner ++ .loop l :: outer }
  Emitter.setDepth depth

/-- Emit `break`, which closes the iterator of a `for`-`of` loop. -/
def breakLoop (label : Option String) : Lower Unit := do
  let (inner, l, outer) ← findLoop label .invalidBreak
  let depth ← Emitter.currentDepth
  let inner ← Region.exitAll inner
  if l.isForOf then Emitter.emit (.iterClose 0)
  if (← Emitter.currentDepth) ≠ l.exitDepth then Emitter.defect .valuesLeftByBreak
  else
    let p ← Emitter.jump .always
    modify fun s =>
      { s with regions := inner ++ .loop { l with breaks := l.breaks ++ [p] } :: outer }
    Emitter.setDepth depth

/-! ### Blocks -/

/-- Emit the statements of a block in a scope of their own. A block that
declares resources disposes them when it is left. -/
def inBlock (disposes : Bool) (stmts : Lower Unit) : Lower Unit := do
  pushScope
  if disposes then
    let scope ← ScopeEmit.on .unopened DisposalScope.openBody
    pushRegion (.disposable scope)
    stmts
    match ← scopeOf (← popRegion) with
    | some scope => let _ ← ScopeEmit.on scope DisposalScope.close
    | none => pure ()
  else stmts
  popScope

/-- Open the scope of one iteration and register its value. -/
def openIteration (slot : UInt16) (hint : Hint) : Lower DisposalScope := do
  Emitter.enterScope
  Emitter.emit (.loadLocal slot)
  let scope ← ScopeEmit.on .unopened (DisposalScope.register hint)
  Emitter.emit .pop
  pure scope

/-- Dispose at the end of an iteration. -/
def leaveIteration (scope : DisposalScope) : Lower DisposalScope := do
  let scope ← ScopeEmit.on scope DisposalScope.leave
  Emitter.leaveScope
  pure scope

/-- Dispose when an iteration throws. -/
def leaveIterationByThrow (scope : DisposalScope) : Lower Unit := do
  let _ ← ScopeEmit.on scope DisposalScope.leaveByThrow
  Emitter.exitScope

end Lower

/-! ### Statements -/

mutual

/-- Emit the code of a statement. -/
def Stmt.lower : Stmt → Lower Unit
  | .expr e => do
    e.lower
    Emitter.emit .pop
  | .letIn name init => do
    init.lower
    Lower.declareAndStore name
  | .usingIn name hint init => do
    init.lower
    Lower.registerUsing hint
    Lower.declareAndStore name
  | .block body => Lower.inBlock (body.any Stmt.isUsing) (Stmt.lowerAll body)
  | .ifElse cond yes no => do
    cond.lower
    let b ← Branch.first .positive
    Lower.inBlock (yes.any Stmt.isUsing) (Stmt.lowerAll yes)
    if no.isEmpty then b.close
    else
      let b ← b.second
      Lower.inBlock (no.any Stmt.isUsing) (Stmt.lowerAll no)
      b.close
  | .whileLoop label cond body => do
    let exitDepth ← Emitter.currentDepth
    let l ← Loop.unstarted.condition
    cond.lower
    let l ← l.body
    Lower.pushRegion (.loop
      { label, exitDepth, isForOf := false, continueTarget := l.head, breaks := [] })
    Lower.inBlock (body.any Stmt.isUsing) (Stmt.lowerAll body)
    let region ← Lower.popRegion
    let _ ← l.close
    Lower.closeLoop region
  | .forOf label binding hint iterable body => do
    let exitDepth ← Emitter.currentDepth
    iterable.lower
    Emitter.emit .getIterator
    let head ← Emitter.offset
    Emitter.emit .iterNext
    let done ← Emitter.jump .ifTrue
    Lower.pushScope
    let slot ← Lower.declare binding
    Emitter.emit (.storeLocal slot)
    Lower.pushRegion (.loop
      { label, exitDepth, isForOf := true, continueTarget := head, breaks := [] })
    let t ← TryRegion.start
    match hint with
    | some hint => do
      let scope ← Lower.openIteration slot hint
      Lower.pushRegion (.iteration (some scope))
    | none => Lower.pushRegion (.iteration none)
    Lower.inBlock (body.any Stmt.isUsing) (Stmt.lowerAll body)
    let scope ← Lower.scopeOf (← Lower.popRegion)
    let scope ← match scope with
      | some scope => some <$> Lower.leaveIteration scope
      | none => pure none
    let t ← t.onCatch
    match scope with
    | some scope => Lower.leaveIterationByThrow scope
    | none => pure ()
    Emitter.emitAll [.swap, .iterClose 1, .throw]
    let _ ← t.close
    Emitter.jumpTo .always head
    let region ← Lower.popRegion
    Lower.popScope
    Emitter.patchHere done
    Emitter.setDepth (exitDepth + 2)
    Emitter.popN 2
    Lower.closeLoop region
  | .tryCatch body param handler => do
    let t ← TryRegion.start
    Lower.pushRegion .tryCatch
    Lower.inBlock (body.any Stmt.isUsing) (Stmt.lowerAll body)
    let _ ← Lower.popRegion
    let t ← t.onCatch
    if (← get).emitter.kind.isGenerator then Emitter.rethrowIfClosing
    Lower.pushScope
    match param with
    | some name => Lower.declareAndStore name
    | none => Emitter.emit .pop
    Lower.inBlock (handler.any Stmt.isUsing) (Stmt.lowerAll handler)
    Lower.popScope
    let _ ← t.close
  | .throw e => do
    e.lower
    Emitter.emit .throw
  | .ret e => Lower.ret e
  | .breakLoop label => Lower.breakLoop label
  | .continueLoop label => Lower.continueLoop label

/-- Emit the code of several statements, in order. -/
def Stmt.lowerAll : List Stmt → Lower Unit
  | [] => pure ()
  | s :: ss => do
    s.lower
    Stmt.lowerAll ss

end

/-! ### Functions and modules -/

namespace Declaration

/-- The parameters of a function as a scope. -/
def paramScope (d : Declaration) : Scope :=
  (d.params.zipIdx.map fun (name, k) => (name, UInt16.ofNat k)).reverse

/-- Emit the body of a function and, behind it, the return of undefined. -/
def lower (d : Declaration) : Lower Unit := do
  Lower.inBlock (d.body.any Stmt.isUsing) (Stmt.lowerAll d.body)
  Emitter.emitAll [.constUndefined, .setRval, .retRval]
  let s ← get
  if s.regions ≠ [] ∨ s.emitter.scopeDepth ≠ 0 then Emitter.defect .unbalancedRegions

/-- Compile a function over a pool. The pool keeps the texts that a function
which cannot be compiled has added. -/
def compile (d : Declaration) (constants : ConstantPool) :
    Except CompileError Function × ConstantPool :=
  match Emitter.start d.name d.kind d.params.length constants with
  | .error x => (.error x, constants)
  | .ok e =>
    match d.lower ⟨e, [d.paramScope], []⟩ with
    | .ok () s => (.ok s.emitter.finish, s.emitter.constants)
    | .error x s => (.error x, s.emitter.constants)

end Declaration

namespace Module

/-- Compile functions into a module, in order, after those that it has. -/
def compileAll (m : Module) : List Declaration → Except CompileError Module
  | [] => .ok m
  | d :: ds =>
    if (m.function? d.name).isSome then .error (.duplicateFunction d.name)
    else
      match d.compile m.constants with
      | (.error x, _) => .error x
      | (.ok f, constants) => compileAll { m with constants, functions := m.functions ++ [f] } ds

/-- Compile functions into a module that is fit to run. -/
def compile (name : String) (ds : List Declaration) : Except CompileError Module := do
  let m ← (Module.named name).compileAll ds
  m.verify.mapError .verification
  .ok m

end Module
end ResourceMachine
