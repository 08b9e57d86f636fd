/-
# One instruction

What each instruction does to the frame and the world, and where execution goes
from there: to an offset, to the handlers with a value that is thrown, to the
outside with a value that is awaited or handed out, or back to the caller.

An instruction takes its operands from the stack one by one, so one that faults
for want of an operand has taken those above it.

Key definitions: `Activation`, `Exec`, `Globals`, `Env`, `Next`, `Exec.instr`.
-/
import ResourceMachine.Code.Instruction
import ResourceMachine.Machine.Frame
import ResourceMachine.Value.Host

namespace ResourceMachine

/-! ### State and surroundings -/

/-- A frame that is running, and the world. -/
structure Activation (σ : Type) where
  frame : Frame
  world : World σ

/-- A computation of the machine. A fault keeps what was done before it. -/
abbrev Exec (σ : Type) := EStateM Fault (Activation σ)

/-- The values of the host that programs reach by name. -/
abbrev Globals := List (String × Value)

namespace Globals

/-- Define a global, or replace it. -/
def put (gs : Globals) (name : String) (v : Value) : Globals :=
  (name, v) :: gs.filter (·.1 ≠ name)

/-- The global of a name. -/
def get? (gs : Globals) (name : String) : Option Value := gs.lookup name

end Globals

/-- What surrounds a run: what host functions do, and the globals. -/
structure Env (σ : Type) where
  host : Host σ
  globals : Globals

/-- Where execution goes after an instruction. -/
inductive Next where
  | goto (pc : Nat)
  | throw (exception : Value)
  | await (v : Value)
  | yield (v : Value)
  | ret (v : Value)
  deriving Inhabited

namespace Exec

variable {σ α : Type}

/-! ### Access to the state -/

/-- Change the operand stack. -/
def onStack (f : OperandStack Value → Except Fault (OperandStack Value)) : Exec σ Unit :=
  fun a =>
    match f a.frame.stack with
    | .ok stack => .ok () { a with frame := { a.frame with stack } }
    | .error e => .error e a

/-- Push a value. -/
def push (v : Value) : Exec σ Unit := onStack (·.push v)

/-- Pop a value. -/
def pop : Exec σ Value := fun a =>
  match a.frame.stack.pop with
  | .ok (v, stack) => .ok v { a with frame := { a.frame with stack } }
  | .error e => .error e a

/-- Look at the value at a depth. -/
def peekAt (n : Nat) : Exec σ Value := fun a =>
  match a.frame.stack.peekAt n with
  | .ok v => .ok v a
  | .error e => .error e a

/-- Pop `n` values; the last popped comes first. -/
def popAll (n : Nat) : Exec σ (List Value) := go n []
where
  /-- Pop `n` values in front of others. -/
  go : Nat → List Value → Exec σ (List Value)
    | 0, vs => pure vs
    | n + 1, vs => do go n ((← pop) :: vs)

/-- The frame. -/
def frame : Exec σ Frame := return (← get).frame

/-- Change the frame. -/
def onFrame (f : Frame → Frame) : Exec σ Unit := modify fun a => { a with frame := f a.frame }

/-- Work on the heap. -/
def onHeap (m : OnHeap Fault α) : Exec σ α := fun ⟨frame, world⟩ =>
  match World.onHeap m world with
  | .ok v world' => .ok v ⟨frame, world'⟩
  | .error e world' => .error e ⟨frame, world'⟩

/-- Run what may throw, and tell how it ended. -/
def settle (m : Guest σ α) : Exec σ (Except Value α) := fun ⟨frame, world⟩ =>
  let (result, world') := m.settle world
  .ok result ⟨frame, world'⟩

/-! ### Operands -/

/-- The offset at a distance from the end of an instruction. The end of the
code is within bounds. -/
def target (codeSize next : Nat) (distance : Int32) : Except Fault Nat :=
  let t : Int := next + distance.toInt
  if t < 0 ∨ codeSize < t then .error (.jumpOutOfBounds t next) else .ok t.toNat

/-- The offset of a handler, absent if its distance is negative. -/
def handlerTarget? (codeSize next : Nat) (distance : Int32) : Except Fault (Option Nat) :=
  if distance < 0 then .ok none else some <$> target codeSize next distance

/-- Take a checked operand, or fault. -/
def check : Except Fault α → Exec σ α
  | .ok a => pure a
  | .error e => throw e

/-- A constant of the module. -/
def constant (index : UInt32) : Exec σ String := do
  match (← frame).unit.constants.get? index.toNat with
  | some s => pure s
  | none => throw (.noSuchConstant index.toNat)

/-! ### Families of instructions -/

/-- Push a value and go on. -/
def pushThen (next : Nat) (v : Value) : Exec σ Next := do
  push v
  pure (.goto next)

/-- Throw a new error. -/
def throwNew (kind : ErrorKind) (message : String) : Exec σ Next := do
  pure (.throw (← onHeap (Heap.newError kind message)))

/-- Pop `n` values and drop them. -/
def dropAll : Nat → Exec σ Unit
  | 0 => pure ()
  | n + 1 => do
    let _ ← pop
    dropAll n

/-- Replace the counter on top by a successor or predecessor. -/
def count (next : Nat) (op : Opcode) (f : Int32 → Int32) : Exec σ Next := do
  match ← pop with
  | .int n => pushThen next (.int (f n))
  | _ => throw (.counterNotInteger op)

/-- Whether the second value is at least the top one. -/
def atLeast (next : Nat) : Exec σ Next := do
  let b ← pop
  let a ← pop
  match a, b with
  | .int a, .int b => pushThen next (.bool (decide (b ≤ a)))
  | _, _ => throw (.orderOfNonIntegers a.typeName b.typeName)

/-- Jump if the condition on top is `wanted`. -/
def jumpIf (codeSize next : Nat) (wanted : Bool) (distance : Int32) : Exec σ Next := do
  let cond ← pop
  if cond.isTruthy = wanted then .goto <$> check (target codeSize next distance)
  else pure (.goto next)

/-- Load a local. -/
def loadLocal (next : Nat) (slot : UInt16) : Exec σ Next := do
  match (← frame).locals[slot.toNat]? with
  | some v => pushThen next v
  | none => throw (.noSuchLocal slot.toNat)

/-- Store into a local. -/
def storeLocal (next : Nat) (slot : UInt16) : Exec σ Next := do
  let v ← pop
  if slot.toNat < (← frame).locals.size then
    onFrame fun f => { f with locals := f.locals.setIfInBounds slot.toNat v }
    pure (.goto next)
  else throw (.noSuchLocal slot.toNat)

/-- Load a global. One that is not defined throws. -/
def loadGlobal (env : Env σ) (next : Nat) (index : UInt32) : Exec σ Next := do
  let name ← constant index
  match env.globals.get? name with
  | some v => pushThen next v
  | none => throwNew .referenceError s!"{name} is not defined"

/-- Call: `[CALLEE RECEIVER ARGS]` becomes the result. -/
def call (env : Env σ) (next : Nat) (argc : Nat) : Exec σ Next := do
  let args ← popAll argc
  let receiver ← pop
  let callee ← pop
  match callee with
  | .function f =>
    match ← settle (f.call env.host receiver args) with
    | .ok v => pushThen next v
    | .error e => pure (.throw e)
  | _ => throwNew .typeError s!"{callee.typeName} is not a function"

/-- The item of a list at an index, undefined if there is none. -/
def element (next : Nat) : Exec σ Next := do
  let index ← pop
  let items ← pop
  match items, index with
  | .list _ vs, .int n =>
    let v := if n < 0 then none else vs[n.toInt.toNat]?
    pushThen next (v.getD .undefined)
  | _, _ => throw (.elementOfNonList items.typeName index.typeName)

/-- Replace a list by a new iterator over it. An iterator stays what it is. -/
def iterator (next : Nat) : Exec σ Next := do
  let iterable ← pop
  match iterable with
  | .list _ items => pushThen next (← onHeap (Heap.newIterator (.ofList items none)))
  | .iterator _ => pushThen next iterable
  | _ => throwNew .typeError s!"{iterable.typeName} is not iterable"

/-- Push the next item of the iterator on top and whether it is at its end. -/
def iterNext (next : Nat) : Exec σ Next := do
  match ← peekAt 0 with
  | .iterator id =>
    match ← onHeap (Heap.nextItem id) with
    | some v =>
      push v
      pushThen next (.bool false)
    | none =>
      push .undefined
      pushThen next (.bool true)
  | _ => throw .nextOfNonIterator

/-- Close the iterator on top. While an exception is pending, what closing
throws is dropped. -/
def iterClose (next : Nat) (onThrow : Bool) : Exec σ Next := do
  match ← pop with
  | .iterator id =>
    match ← onHeap (Heap.closeIterator id), onThrow with
    | some e, false => pure (.throw e)
    | _, _ => pure (.goto next)
  | _ => throw .closeOfNonIterator

/-! ### Scopes -/

/-- Change the innermost scope, and take a result from it. -/
def onScope (missing : Fault) (f : Capability → α × Capability) : Exec σ α := do
  match (← frame).scopes with
  | c :: outer =>
    let (a, c) := f c
    onFrame fun fr => { fr with scopes := c :: outer }
    pure a
  | [] => throw missing

/-- Exit the innermost scope. -/
def popScope (next : Nat) : Exec σ Next := do
  match (← frame).scopes with
  | _ :: outer =>
    onFrame fun f => { f with scopes := outer }
    pure (.goto next)
  | [] => throw .noScopeToPop

/-- Register the value on top, if there is anything to register. -/
def addDisposable (next : Nat) (byte : UInt8) : Exec σ Next := do
  match Hint.ofByte? byte with
  | none => throw (.invalidHint byte)
  | some hint =>
    let v ← pop
    match ← settle (World.onHeap (createResource v hint)) with
    | .error e => pure (.throw e)
    | .ok r =>
      onScope .noScopeToRegister fun c =>
        ((), match r with
          | some r => c.add r
          | none => c)
      pure (.goto next)

/-- Take the records out of the innermost scope: push them as a list, and their
number. -/
def takeCapability (next : Nat) : Exec σ Next := do
  let rs ← onScope .noScopeToDrain fun c => (c.resources, .empty)
  let records ← onHeap (Heap.newResources rs)
  if 2147483647 < rs.length then throw .tooManyResources
  else
    push (← onHeap (Heap.newList records))
    pushThen next (.int (Int32.ofNat rs.length))

/-- Replace a record by one of its parts. The hint reads as one for async. -/
def resourceField (next : Nat) (byte : UInt8) : Exec σ Next := do
  match Field.ofByte? byte with
  | none => throw (.invalidField byte)
  | some field =>
    match ← pop with
    | .resource _ r =>
      pushThen next <|
        match field with
        | .value => r.value
        | .hint => .int (Int32.ofNat r.hint.byte.toNat)
        | .method => r.method.getD .undefined
    | _ => throw .fieldOfNonResource

/-- Chain an exception to what is pending: `[ERROR PENDING THROWING]` becomes
what is pending then. -/
def chainError (next : Nat) (unwrapClosing : Bool) : Exec σ Next := do
  let throwing ← pop
  let pending ← pop
  let error ← pop
  let completion := Completion.ofPending throwing.isTruthy pending unwrapClosing
  pushThen next (← onHeap (completion.chain error))

/-! ### Handlers -/

/-- Install a handler. -/
def tryStart (codeSize next : Nat) (catchDistance finallyDistance : Int32) : Exec σ Next := do
  let onCatch ← check (handlerTarget? codeSize next catchDistance)
  let onFinally ← check (handlerTarget? codeSize next finallyDistance)
  onFrame fun f => { f with handlers := ⟨onCatch, onFinally, f.stack.depth⟩ :: f.handlers }
  pure (.goto next)

/-- Remove the innermost handler. -/
def endTry (next : Nat) : Exec σ Next := do
  match (← frame).handlers with
  | _ :: outer =>
    onFrame fun f => { f with handlers := outer }
    pure (.goto next)
  | [] => throw .noHandler

/-- Pop a value into the return slot. -/
def popToRval : Exec σ Value := do
  let v ← pop
  onFrame fun f => { f with rval := v }
  pure v

/-- Change the operand stack and go on. -/
def shuffle (next : Nat) (f : OperandStack Value → Except Fault (OperandStack Value)) :
    Exec σ Next := do
  onStack f
  pure (.goto next)

/-! ### Instructions -/

/-- Execute an instruction of a code of `codeSize` bytes that ends at `next`. -/
def instr (env : Env σ) (codeSize next : Nat) : Instr → Exec σ Next
  | .nop => pure (.goto next)
  | .pop => do
    dropAll 1
    pure (.goto next)
  | .popN n => do
    dropAll n.toNat
    pure (.goto next)
  | .dup => do pushThen next (← peekAt 0)
  | .dup2 => do
    let a ← peekAt 1
    let b ← peekAt 0
    push a
    pushThen next b
  | .dupAt n => do pushThen next (← peekAt n.toNat)
  | .swap => shuffle next (·.swap)
  | .pick n => shuffle next (·.pick n.toNat)
  | .unpick n => shuffle next (·.unpick n.toNat)
  | .constUndefined => pushThen next .undefined
  | .constNull => pushThen next .null
  | .constTrue => pushThen next (.bool true)
  | .constFalse => pushThen next (.bool false)
  | .constI32 n => pushThen next (.int n)
  | .constStr index => do pushThen next (.str (← constant index))
  | .loadLocal slot => loadLocal next slot
  | .storeLocal slot => storeLocal next slot
  | .loadGlobal index => loadGlobal env next index
  | .getRval => do pushThen next (← frame).rval
  | .setRval => do
    let _ ← popToRval
    pure (.goto next)
  | .not => do pushThen next (.bool !(← pop).isTruthy)
  | .and => do
    let b ← pop
    let a ← pop
    pushThen next (.bool (a.isTruthy && b.isTruthy))
  | .inc => count next .inc (· + 1)
  | .dec => count next .dec (· - 1)
  | .ige => atLeast next
  | .isNullish => do pushThen next (.bool (← pop).isNullish)
  | .isClosing => do
    match ← pop with
    | .closing => pushThen next (.bool true)
    | _ => pushThen next (.bool false)
  | .jmp d => do .goto <$> check (target codeSize next d)
  | .jmpIfFalse d => jumpIf codeSize next false d
  | .jmpIfTrue d => jumpIf codeSize next true d
  | .retRval => do pure (.ret (← frame).rval)
  | .call argc => call env next argc.toNat
  | .getElem => element next
  | .getIterator => iterator next
  | .iterNext => iterNext next
  | .iterClose onThrow => iterClose next (onThrow == 1)
  | .pushDisposeScope => do
    onFrame fun f => { f with scopes := .empty :: f.scopes }
    pure (.goto next)
  | .popDisposeScope => popScope next
  | .addDisposable byte => addDisposable next byte
  | .takeDisposeCapability => takeCapability next
  | .resourceField byte => resourceField next byte
  | .chainDisposeError unwrapClosing => chainError next (unwrapClosing == 1)
  | .await => .await <$> popToRval
  | .yield => .yield <$> popToRval
  | .throw => .throw <$> pop
  | .tryStart c f => tryStart codeSize next c f
  | .endTry => endTry next

end Exec
end ResourceMachine
