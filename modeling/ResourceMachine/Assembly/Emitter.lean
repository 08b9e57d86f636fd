/-
# Emitting code

An `Emitter` holds a function under construction: its code so far, the pool its
texts go to, the depth of the operand stack after the last instruction and the
greatest depth so far, the locals given out, and how many disposable scopes are
entered. Every emission first accounts for its effect on the stack; one that
would take values that are not there fails and leaves code and depth as they
were. Jumps are emitted before their target is known and patched later.

Key definitions: `Emitter`, `Emit`, `Emitter.emit`, `PendingJump`,
`Emitter.jump`, `Emitter.patchTo`, `Emitter.tryStart`, `Emitter.allocLocal`.
-/
import ResourceMachine.Assembly.CompileError

namespace ResourceMachine

/-- A function under construction. -/
structure Emitter where
  name : String
  kind : FunctionKind
  paramCount : Nat
  code : Bytes
  constants : ConstantPool
  depth : Nat
  maxDepth : Nat
  localCount : UInt16
  scopeDepth : Nat
  deriving DecidableEq, Repr

/-- A computation that emits code. A failed one keeps what it emitted before. -/
abbrev Emit := EStateM CompileError Emitter

/-- A jump or handler operand whose target is not known yet, and the end of its
instruction, from which distances count. -/
structure PendingJump where
  operand : Nat
  next : Nat
  deriving DecidableEq, Repr

/-- The two handler operands of a `TRY_START`. -/
structure PendingHandlers where
  onCatch : PendingJump
  onFinally : PendingJump
  deriving DecidableEq, Repr

/-- When a jump is taken. -/
inductive JumpKind where
  | always
  | ifFalse
  | ifTrue
  deriving DecidableEq, Repr

namespace JumpKind

/-- The jump over a distance. -/
def instr : JumpKind → Int32 → Instr
  | always => .jmp
  | ifFalse => .jmpIfFalse
  | ifTrue => .jmpIfTrue

end JumpKind

namespace Emitter

/-- Start a function. Its parameters are its first locals. -/
def start (name : String) (kind : FunctionKind) (paramCount : Nat) (constants : ConstantPool) :
    Except CompileError Emitter :=
  if 65535 < paramCount then .error .tooManyLocals
  else .ok
    { name, kind, paramCount, constants
      code := #[]
      depth := 0
      maxDepth := 0
      localCount := UInt16.ofNat paramCount
      scopeDepth := 0 }

/-- The finished function. -/
def finish (e : Emitter) : Function :=
  { name := e.name
    kind := e.kind
    paramCount := e.paramCount
    localCount := e.localCount.toNat
    maxStack := e.maxDepth
    code := e.code }

/-- The emitter with a depth of the operand stack. -/
def withDepth (e : Emitter) (depth : Nat) : Emitter :=
  { e with depth, maxDepth := max e.maxDepth depth }

/-- The offset of the next instruction. -/
def offset : Emit Nat := return (← get).code.size

/-- The depth of the operand stack. -/
def currentDepth : Emit Nat := return (← get).depth

/-- Fix the depth of the operand stack where code is entered by a jump. -/
def setDepth (depth : Nat) : Emit Unit := modify (·.withDepth depth)

/-- Fail because of a defect. -/
def defect (d : Defect) : Emit α := throw (.internal d)

/-! ### Instructions -/

/-- Account for an instruction's effect on the operand stack. -/
def track (op : Opcode) (operand : Nat) : Emit Unit := do
  let e ← get
  let effect := op.stackEffect operand
  if e.depth < effect.pops then defect (.stackUnderflow op e.name e.depth)
  else set (e.withDepth (e.depth - effect.pops + effect.pushes))

/-- Append bytes to the code. -/
def append (bytes : Bytes) : Emit Unit :=
  modify fun e => { e with code := e.code ++ bytes }

/-- Emit an opcode with operand bytes, of which `operand` is the number that
its effect depends on. -/
def put (op : Opcode) (operand : Nat) (bytes : Bytes) : Emit Unit := do
  track op operand
  append (#[op.byte] ++ bytes)

/-- Emit an instruction. -/
def emit (i : Instr) : Emit Unit := put i.opcode i.operand i.operandBytes

/-- Emit instructions in order. -/
def emitAll : List Instr → Emit Unit
  | [] => pure ()
  | i :: is => do
    emit i
    emitAll is

/-- The position of a text in the pool, which takes it up if it is new. -/
def intern (s : String) : Emit UInt32 := fun e =>
  let (i, constants) := e.constants.add s
  .ok (UInt32.ofNat i) { e with constants }

/-- Push a text. -/
def constStr (s : String) : Emit Unit := do emit (.constStr (← intern s))

/-- Push a global by name. -/
def loadGlobal (name : String) : Emit Unit := do emit (.loadGlobal (← intern name))

/-! ### Shuffling the stack -/

/-- Move the value at a depth to the top. -/
def pick (n : UInt8) : Emit Unit :=
  if n = 0 then pure () else if n = 1 then emit .swap else emit (.pick n)

/-- Move the top value down to a depth. -/
def unpick (n : UInt8) : Emit Unit :=
  if n = 0 then pure () else if n = 1 then emit .swap else emit (.unpick n)

/-- Copy the value at a depth to the top. -/
def dupAt (n : UInt8) : Emit Unit :=
  if n = 0 then emit .dup else emit (.dupAt n)

/-- Drop values. -/
def popN (n : UInt8) : Emit Unit :=
  if n = 0 then pure () else if n = 1 then emit .pop else emit (.popN n)

/-! ### Jumps -/

/-- Emit a jump whose target is not known yet. -/
def jump (kind : JumpKind) : Emit PendingJump := do
  emit (kind.instr 0)
  let next ← offset
  pure ⟨next - 4, next⟩

/-- Let a pending jump lead to an offset. -/
def patchTo (p : PendingJump) (target : Nat) : Emit Unit := do
  let distance : Int := target - p.next
  if distance < Int32.minValue.toInt ∨ Int32.maxValue.toInt < distance then
    throw .jumpTooLarge
  else
    modify fun e => { e with code := e.code.replaceWord p.operand (Int32.ofInt distance).toUInt32 }

/-- Let a pending jump lead to the next instruction. -/
def patchHere (p : PendingJump) : Emit Unit := do patchTo p (← offset)

/-- Emit a jump to an offset. -/
def jumpTo (kind : JumpKind) (target : Nat) : Emit Unit := do patchTo (← jump kind) target

/-- Open a protected region, for now without handlers. -/
def tryStart : Emit PendingHandlers := do
  emit (.tryStart (-1) (-1))
  let next ← offset
  pure ⟨⟨next - 8, next⟩, ⟨next - 4, next⟩⟩

/-! ### Locals -/

/-- A fresh local. -/
def allocLocal : Emit UInt16 := do
  let e ← get
  if e.localCount = 65535 then throw .tooManyLocals
  else
    set { e with localCount := e.localCount + 1 }
    pure e.localCount

/-! ### Suspension -/

/-- Wait for the value on top, in an async function. -/
def emitAwait : Emit Unit := do
  let e ← get
  if e.kind.isAsync then emit .await else throw (.awaitOutsideAsync e.name)

/-- Hand out the value on top, in a generator. -/
def emitYield : Emit Unit := do
  let e ← get
  if e.kind.isGenerator then emit .yield else throw (.yieldOutsideGenerator e.name)

/-! ### Disposable scopes -/

/-- Enter a disposable scope. -/
def enterScope : Emit Unit := do
  emit .pushDisposeScope
  modify fun e => { e with scopeDepth := e.scopeDepth + 1 }

/-- Exit the innermost disposable scope. -/
def exitScope : Emit Unit := do
  if (← get).scopeDepth = 0 then defect .exitOfUnenteredScope
  else
    emit .popDisposeScope
    modify fun e => { e with scopeDepth := e.scopeDepth - 1 }

/-- Leave a disposable scope on one path, while code that follows is still in it. -/
def leaveScope : Emit Unit := do
  if (← get).scopeDepth = 0 then defect .jumpOutOfUnenteredScope
  else emit .popDisposeScope

end Emitter
end ResourceMachine
