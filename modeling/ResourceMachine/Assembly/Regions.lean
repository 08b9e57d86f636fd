/-
# Branches, loops and protected regions

Each construct is a record of what is still to be patched and of the depth of
the operand stack that its parts have to agree on. Opening it yields the
record; every later part takes it and yields the next one.

Key definitions: `Branch`, `Loop`, `TryRegion`, `Emitter.throwIfException`,
`Emitter.rethrowIfClosing`.
-/
import ResourceMachine.Assembly.Emitter

namespace ResourceMachine

/-! ### Branches -/

/-- Whether the first branch is taken when the condition holds. -/
inductive Polarity where
  | positive
  | negative
  deriving DecidableEq, Repr

/-- A conditional under construction: the jump that skips the branch being
emitted or, in the second branch, the jump at the end of the first. -/
structure Branch where
  pending : PendingJump
  depth : Nat
  deriving DecidableEq, Repr

namespace Branch

/-- Fail unless a branch ends at the depth it started with. -/
def checkDepth (b : Branch) : Emit Unit := do
  let found ← Emitter.currentDepth
  if found ≠ b.depth then Emitter.defect (.unbalancedBranch found b.depth)

/-- Consume the condition on top and start the first branch. -/
def first (polarity : Polarity) : Emit Branch := do
  let pending ← Emitter.jump (if polarity = .positive then .ifFalse else .ifTrue)
  pure ⟨pending, ← Emitter.currentDepth⟩

/-- End the first branch and start the second. -/
def second (b : Branch) : Emit Branch := do
  b.checkDepth
  let toEnd ← Emitter.jump .always
  Emitter.patchHere b.pending
  Emitter.setDepth b.depth
  pure ⟨toEnd, b.depth⟩

/-- End the last branch. -/
def close (b : Branch) : Emit Unit := do
  b.checkDepth
  Emitter.patchHere b.pending

end Branch

/-! ### Loops -/

/-- A loop under construction: where its condition starts, the jump out of it
once that is emitted, and the depth at which an iteration starts and ends. -/
structure Loop where
  head : Nat
  exit : Option PendingJump
  depth : Nat
  deriving DecidableEq, Repr

namespace Loop

/-- A loop that has not started. -/
def unstarted : Loop := ⟨0, none, 0⟩

/-- Start the condition. -/
def condition (l : Loop) : Emit Loop := fun e =>
  .ok { l with head := e.code.size, depth := e.depth } e

/-- Consume the condition on top and start the body. -/
def body (l : Loop) : Emit Loop := do
  let exit ← Emitter.jump .ifFalse
  pure { l with exit := some exit }

/-- End the body and go back to the condition. -/
def close (l : Loop) : Emit Loop := do
  if (← Emitter.currentDepth) ≠ l.depth then Emitter.defect .unbalancedLoop
  else
    Emitter.jumpTo .always l.head
    match l.exit with
    | some exit => Emitter.patchHere exit
    | none => pure ()
    pure { l with exit := none }

end Loop

/-! ### Protected regions -/

namespace Emitter

/-- Of `[EXC THROWING]`, throw `EXC` if `THROWING` holds, else drop both. -/
def throwIfException : Emit Unit := do
  let b ← Branch.first .positive
  let depth ← currentDepth
  emit .throw
  setDepth depth
  b.close
  emit .pop

/-- Throw the exception on top again if it is the signal that closes a generator. -/
def rethrowIfClosing : Emit Unit := do
  emit .dup
  emit .isClosing
  let b ← Branch.first .positive
  let depth ← currentDepth
  emit .throw
  setDepth depth
  b.close

end Emitter

/-- How far a protected region has got. -/
inductive TryStage where
  | unopened
  | body (handlers : PendingHandlers)
  | catching (overCatch : PendingJump)
  | finishing
  | closed
  deriving DecidableEq, Repr

/-- A protected region under construction, and the depth outside it. -/
structure TryRegion where
  stage : TryStage
  depth : Nat
  deriving DecidableEq, Repr

namespace TryRegion

/-- A region that has not started. -/
def unopened : TryRegion := ⟨.unopened, 0⟩

/-- Start the protected code. -/
def start : Emit TryRegion := do
  let depth ← Emitter.currentDepth
  let handlers ← Emitter.tryStart
  pure ⟨.body handlers, depth⟩

/-- Fail unless the protected code ends at the depth it started with. -/
def checkDepth (t : TryRegion) : Emit Unit := do
  let found ← Emitter.currentDepth
  if found ≠ t.depth then Emitter.defect (.unbalancedTry found t.depth)

/-- End the protected code and start the catch code, with the exception on top. -/
def onCatch (t : TryRegion) : Emit TryRegion := do
  t.checkDepth
  Emitter.emit .endTry
  let overCatch ← Emitter.jump .always
  match t.stage with
  | .body handlers =>
    Emitter.patchHere handlers.onCatch
    Emitter.setDepth (t.depth + 1)
    pure { t with stage := .catching overCatch }
  | _ => Emitter.defect .catchWithoutTry

/-- End the protected code and start the finally code. It is entered with
`[EXC true]` after a throw and with `[undefined false]` otherwise. -/
def onFinally (t : TryRegion) : Emit TryRegion := do
  t.checkDepth
  Emitter.emitAll [.endTry, .constUndefined, .constFalse]
  match t.stage with
  | .body handlers =>
    Emitter.patchHere handlers.onFinally
    Emitter.setDepth (t.depth + 2)
    pure { t with stage := .finishing }
  | _ => Emitter.defect .finallyWithoutTry

/-- End the catch code, or end the finally code and throw again what it was
entered with. -/
def close (t : TryRegion) : Emit TryRegion := do
  match t.stage with
  | .catching overCatch =>
    Emitter.patchHere overCatch
    Emitter.setDepth t.depth
    pure { t with stage := .closed }
  | .finishing =>
    if (← Emitter.currentDepth) ≠ t.depth + 2 then Emitter.defect .completionLost
    else
      Emitter.throwIfException
      pure { t with stage := .closed }
  | _ => Emitter.defect .tryOutOfOrder

end TryRegion
end ResourceMachine
