/-
# Disposable scopes

A block that declares resources is wrapped so that every way out of it makes
one pass over the resources that are registered at that time:

      PUSH_DISPOSE_SCOPE
      TRY_START finally=F
      <body>                     an ADD_DISPOSABLE per declaration
      <pass, nothing pending>    [EXC THROWING]
      <throw if exception>
      END_TRY
      CONST_UNDEFINED CONST_FALSE
    F:                           [EXC THROWING]
      SWAP
      <pass, EXC pending>        [THROWING EXC' THROWING']
      POP SWAP                   [EXC' THROWING]
      POP_DISPOSE_SCOPE
      <throw if exception>

A pass takes the records out of the scope and calls their methods from the last
to the first. What a call throws is chained to what is pending. Where the scope
declares an `await using`, the pass also awaits the results, and makes up for
an await that is owed because of a record without a method.

Key definitions: `DisposalScope`, `ScopeEmit`, `DisposalScope.openBody`,
`DisposalScope.register`, `DisposalScope.pass`, `DisposalScope.close`.
-/
import ResourceMachine.Assembly.Regions

namespace ResourceMachine

/-- What is pending when a pass starts: nothing, or the exception on top of the
stack. -/
inductive Seed where
  | normal
  | thrown
  deriving DecidableEq, Repr

/-- The locals in which a pass keeps its state. -/
structure PassSlots where
  throwing : UInt16
  exception : UInt16
  resources : UInt16
  index : UInt16
  resource : UInt16
  needsAwait : UInt16
  hasAwaited : UInt16
  rval : UInt16
  deriving DecidableEq, Repr

namespace PassSlots

/-- Eight fresh locals. -/
def alloc : Emit PassSlots := do
  let throwing ← Emitter.allocLocal
  let exception ← Emitter.allocLocal
  let resources ← Emitter.allocLocal
  let index ← Emitter.allocLocal
  let resource ← Emitter.allocLocal
  let needsAwait ← Emitter.allocLocal
  let hasAwaited ← Emitter.allocLocal
  let rval ← Emitter.allocLocal
  pure { throwing, exception, resources, index, resource, needsAwait, hasAwaited, rval }

end PassSlots

/-! ### One pass -/

namespace Emitter

/-- Push a part of the record at hand. -/
def passField (s : PassSlots) (field : Field) : Emit Unit :=
  emitAll [.loadLocal s.resource, .resourceField field.byte]

/-- Await undefined. -/
def awaitUndefined : Emit Unit := do
  emit .constUndefined
  emitAwait
  emit .pop

/-- Before a sync record, await once if a record without a method asked for it
and nothing was awaited since. -/
def awaitBeforeSync (s : PassSlots) : Emit Unit := do
  passField s .hint
  emitAll [.not, .loadLocal s.needsAwait, .and, .loadLocal s.hasAwaited, .not, .and]
  let b ← Branch.first .positive
  awaitUndefined
  emitAll [.constFalse, .storeLocal s.needsAwait]
  b.close

/-- Await the result of a call if the record at hand is async. -/
def awaitResult (s : PassSlots) : Emit Unit := do
  passField s .hint
  let b ← Branch.first .positive
  emitAll [.constTrue, .storeLocal s.hasAwaited]
  emitAwait
  b.close

/-- Call the method of the record at hand. What it throws becomes pending. -/
def callDispose (s : PassSlots) (awaits unwrapClosing : Bool) : Emit Unit := do
  let t ← TryRegion.start
  passField s .method
  passField s .value
  emit (.call 0)
  if awaits then awaitResult s
  emit .pop
  let t ← t.onCatch
  emitAll
    [.loadLocal s.exception, .loadLocal s.throwing,
     .chainDisposeError (if unwrapClosing then 1 else 0),
     .storeLocal s.exception, .constTrue, .storeLocal s.throwing]
  let _ ← t.close

/-- Dispose the record at hand, if it has a method. -/
def disposeRecord (s : PassSlots) (awaits unwrapClosing : Bool) : Emit Unit := do
  if awaits then awaitBeforeSync s
  passField s .method
  emit .isNullish
  let b ← Branch.first .negative
  callDispose s awaits unwrapClosing
  if awaits then
    let b ← b.second
    emitAll [.constTrue, .storeLocal s.needsAwait]
    b.close
  else b.close

/-- At the end of a pass, await once if that is still owed. -/
def awaitOwed (s : PassSlots) : Emit Unit := do
  emitAll [.loadLocal s.needsAwait, .loadLocal s.hasAwaited, .not, .and]
  let b ← Branch.first .positive
  awaitUndefined
  b.close

/-- Start a pass: set its locals, and take the records out of the scope. -/
def startPass (s : PassSlots) (awaits : Bool) (seed : Seed) : Emit Unit := do
  if awaits then
    emitAll
      [.getRval, .storeLocal s.rval,
       .constFalse, .storeLocal s.needsAwait,
       .constFalse, .storeLocal s.hasAwaited]
  match seed with
  | .thrown => emitAll [.storeLocal s.exception, .constTrue]
  | .normal => emitAll [.constUndefined, .storeLocal s.exception, .constFalse]
  emitAll
    [.storeLocal s.throwing, .takeDisposeCapability, .dec,
     .storeLocal s.index, .storeLocal s.resources]

/-- Dispose the records that a pass took, from the last to the first. -/
def disposeRecords (s : PassSlots) (awaits unwrapClosing : Bool) : Emit Unit := do
  let l ← Loop.unstarted.condition
  emitAll [.loadLocal s.index, .constI32 0, .ige]
  let l ← l.body
  emitAll [.loadLocal s.resources, .loadLocal s.index, .getElem, .storeLocal s.resource]
  disposeRecord s awaits unwrapClosing
  emitAll [.loadLocal s.index, .dec, .storeLocal s.index]
  let _ ← l.close

/-- Finish a pass: drop the records and push what is pending and whether it is
an exception. -/
def finishPass (s : PassSlots) (awaits : Bool) : Emit Unit := do
  if awaits then awaitOwed s
  emitAll
    [.constUndefined, .storeLocal s.resources, .constUndefined, .storeLocal s.resource,
     .loadLocal s.exception, .loadLocal s.throwing]
  if awaits then emitAll [.loadLocal s.rval, .setRval]

/-- One pass over the innermost scope: `[EXC]` or `[]` becomes `[EXC THROWING]`.
In a generator, an exception that is pending from the start may be the signal
that closes it. -/
def disposalPass (s : PassSlots) (awaits : Bool) (seed : Seed) : Emit Unit := do
  let unwrapClosing := (← get).kind.isGenerator && seed == .thrown
  startPass s awaits seed
  disposeRecords s awaits unwrapClosing
  finishPass s awaits

end Emitter

/-! ### Scopes -/

/-- A disposable scope under construction: whether an `await using` was
registered in it, the protected region around its body, and the locals of its
passes, which all share. -/
structure DisposalScope where
  hasAwaitUsing : Bool
  region : Option TryRegion
  slots : Option PassSlots
  deriving DecidableEq, Repr

/-- A computation that emits code and updates the scope it is for. A failed one
keeps both as they are at that point. -/
abbrev ScopeEmit := EStateM CompileError (DisposalScope × Emitter)

namespace ScopeEmit

/-- Emit code only. -/
def lift (m : Emit α) : ScopeEmit α := fun (scope, e) =>
  match m e with
  | .ok a e' => .ok a (scope, e')
  | .error x e' => .error x (scope, e')

instance : MonadLift Emit ScopeEmit := ⟨lift⟩

/-- Update the scope only. -/
def update (f : DisposalScope → DisposalScope) : ScopeEmit Unit :=
  modify fun (scope, e) => (f scope, e)

/-- The scope. -/
def scope : ScopeEmit DisposalScope := return (← get).1

/-- Run on a given scope and yield the scope that it becomes. -/
def on (scope : DisposalScope) (m : ScopeEmit Unit) : Emit DisposalScope := fun e =>
  match m (scope, e) with
  | .ok () (scope', e') => .ok scope' e'
  | .error x (_, e') => .error x e'

end ScopeEmit

namespace DisposalScope

/-- A scope that has not started. -/
def unopened : DisposalScope := ⟨false, none, none⟩

/-- Enter the scope and protect its body. -/
def openBody : ScopeEmit Unit := do
  Emitter.enterScope
  let region ← TryRegion.start
  ScopeEmit.update fun s => { s with region := some region }

/-- Register the value on top, which stays there. -/
def register (hint : Hint) : ScopeEmit Unit := do
  if hint = .async then
    let e := (← get).2
    if e.kind.isAsync then ScopeEmit.update fun s => { s with hasAwaitUsing := true }
    else throw (.awaitUsingOutsideAsync e.name)
  Emitter.emitAll [.dup, .addDisposable hint.byte]

/-- The locals of the scope's passes, given out before the first. -/
def passSlots : ScopeEmit PassSlots := do
  match (← ScopeEmit.scope).slots with
  | some slots => pure slots
  | none =>
    let slots ← PassSlots.alloc
    ScopeEmit.update fun s => { s with slots := some slots }
    pure slots

/-- One pass over the scope. -/
def pass (seed : Seed) : ScopeEmit Unit := do
  let slots ← passSlots
  let awaits := (← ScopeEmit.scope).hasAwaitUsing
  Emitter.disposalPass slots awaits seed

/-- Dispose on a way out that no exception caused, and throw what disposing
throws. -/
def leave : ScopeEmit Unit := do
  pass .normal
  Emitter.throwIfException

/-- Dispose because of the exception on top, which disposing may replace. -/
def leaveByThrow : ScopeEmit Unit := do
  pass .thrown
  Emitter.emit .pop

/-- The protected region of the body, which can be taken once. -/
def takeRegion : ScopeEmit TryRegion := do
  match (← ScopeEmit.scope).region with
  | some region =>
    ScopeEmit.update fun s => { s with region := none }
    pure region
  | none => Emitter.defect .scopeClosedBeforeBody

/-- End the body and emit the code that disposes when the body throws. -/
def close : ScopeEmit Unit := do
  let region ← takeRegion
  leave
  let region ← region.onFinally
  Emitter.emit .swap
  pass .thrown
  Emitter.emitAll [.pop, .swap]
  Emitter.exitScope
  let _ ← region.close

end DisposalScope
end ResourceMachine
