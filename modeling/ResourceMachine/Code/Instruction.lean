/-
# Instructions

An instruction is an opcode with its operands. `Instr.encode` gives its bytes;
`Instr.readAt` reads the instruction at an offset, and `Located.ofCode` splits
a whole code into instructions with their offsets. Distances in operands count
from the end of the instruction, so an instruction knows its targets once its
offset is known.

Key definitions: `Instr`, `Instr.opcode`, `Instr.encode`, `Instr.readAt`,
`Located`, `Located.ofCode`, `Located.jumpTarget?`, `Located.handlerTargets`.
Key theorem: `Instr.size_encode`.
-/
import ResourceMachine.Code.Opcode
import ResourceMachine.Code.Bytes

namespace ResourceMachine

/-- An opcode with its operands. Operand bytes that stand for an enumeration
are kept as they are written, valid or not. -/
inductive Instr where
  | nop
  | pop
  | popN (count : UInt8)
  | dup
  | dup2
  | dupAt (depth : UInt8)
  | swap
  | pick (depth : UInt8)
  | unpick (depth : UInt8)
  | constUndefined
  | constNull
  | constTrue
  | constFalse
  | constI32 (value : Int32)
  | constStr (index : UInt32)
  | loadLocal (slot : UInt16)
  | storeLocal (slot : UInt16)
  | loadGlobal (index : UInt32)
  | getRval
  | setRval
  | not
  | and
  | inc
  | dec
  | ige
  | isNullish
  | isClosing
  | jmp (distance : Int32)
  | jmpIfFalse (distance : Int32)
  | jmpIfTrue (distance : Int32)
  | retRval
  | call (argc : UInt8)
  | getElem
  | getIterator
  | iterNext
  | iterClose (onThrow : UInt8)
  | pushDisposeScope
  | popDisposeScope
  | addDisposable (hint : UInt8)
  | takeDisposeCapability
  | resourceField (field : UInt8)
  | chainDisposeError (unwrapClosing : UInt8)
  | await
  | yield
  | throw
  | tryStart (catchDistance finallyDistance : Int32)
  | endTry
  deriving DecidableEq, Repr

namespace Instr

/-- The opcode of an instruction. -/
def opcode : Instr → Opcode
  | nop => .nop
  | pop => .pop
  | popN _ => .popN
  | dup => .dup
  | dup2 => .dup2
  | dupAt _ => .dupAt
  | swap => .swap
  | pick _ => .pick
  | unpick _ => .unpick
  | constUndefined => .constUndefined
  | constNull => .constNull
  | constTrue => .constTrue
  | constFalse => .constFalse
  | constI32 _ => .constI32
  | constStr _ => .constStr
  | loadLocal _ => .loadLocal
  | storeLocal _ => .storeLocal
  | loadGlobal _ => .loadGlobal
  | getRval => .getRval
  | setRval => .setRval
  | not => .not
  | and => .and
  | inc => .inc
  | dec => .dec
  | ige => .ige
  | isNullish => .isNullish
  | isClosing => .isClosing
  | jmp _ => .jmp
  | jmpIfFalse _ => .jmpIfFalse
  | jmpIfTrue _ => .jmpIfTrue
  | retRval => .retRval
  | call _ => .call
  | getElem => .getElem
  | getIterator => .getIterator
  | iterNext => .iterNext
  | iterClose _ => .iterClose
  | pushDisposeScope => .pushDisposeScope
  | popDisposeScope => .popDisposeScope
  | addDisposable _ => .addDisposable
  | takeDisposeCapability => .takeDisposeCapability
  | resourceField _ => .resourceField
  | chainDisposeError _ => .chainDisposeError
  | await => .await
  | yield => .yield
  | throw => .throw
  | tryStart _ _ => .tryStart
  | endTry => .endTry

/-- The number of bytes of an instruction. -/
def size (i : Instr) : Nat := 1 + i.opcode.operandSize

/-! ### Operands -/

/-- The operand bytes. -/
def operandBytes : Instr → Bytes
  | popN n | dupAt n | pick n | unpick n | call n | iterClose n | addDisposable n
  | resourceField n | chainDisposeError n => #[n]
  | loadLocal slot | storeLocal slot => halfWord slot
  | constStr index | loadGlobal index => word index
  | constI32 d | jmp d | jmpIfFalse d | jmpIfTrue d => signedWord d
  | tryStart c f => signedWord c ++ signedWord f
  | _ => #[]

/-- The operands as numbers. -/
def operands : Instr → List Int
  | popN n | dupAt n | pick n | unpick n | call n | iterClose n | addDisposable n
  | resourceField n | chainDisposeError n => [n.toNat]
  | loadLocal slot | storeLocal slot => [slot.toNat]
  | constStr index | loadGlobal index => [index.toNat]
  | constI32 d | jmp d | jmpIfFalse d | jmpIfTrue d => [d.toInt]
  | tryStart c f => [c.toInt, f.toInt]
  | _ => []

/-- The first operand as an unsigned word, zero if there is none. -/
def operand (i : Instr) : Nat :=
  ((i.operands.headD 0) % 4294967296).toNat

/-- The effect on the operand stack. -/
def stackEffect (i : Instr) : Opcode.Effect :=
  i.opcode.stackEffect i.operand

/-! ### Bytes -/

/-- The bytes of an instruction: its opcode, then its operands. -/
def encode (i : Instr) : Bytes :=
  #[i.opcode.byte] ++ i.operandBytes

/-- The opcode at an offset. -/
def opcodeAt (code : Bytes) (pos : Nat) : Except DecodeError Opcode := do
  let b ← code.byteAt pos
  match Opcode.ofByte? b with
  | some op => .ok op
  | none => .error (.invalidOpcode b pos)

/-- The instruction made of an opcode and the operands at an offset. -/
def ofOperandsAt (code : Bytes) (pos : Nat) : Opcode → Except DecodeError Instr
  | .nop => .ok nop
  | .pop => .ok pop
  | .popN => popN <$> code.byteAt pos
  | .dup => .ok dup
  | .dup2 => .ok dup2
  | .dupAt => dupAt <$> code.byteAt pos
  | .swap => .ok swap
  | .pick => pick <$> code.byteAt pos
  | .unpick => unpick <$> code.byteAt pos
  | .constUndefined => .ok constUndefined
  | .constNull => .ok constNull
  | .constTrue => .ok constTrue
  | .constFalse => .ok constFalse
  | .constI32 => constI32 <$> code.signedWordAt pos
  | .constStr => constStr <$> code.wordAt pos
  | .loadLocal => loadLocal <$> code.halfWordAt pos
  | .storeLocal => storeLocal <$> code.halfWordAt pos
  | .loadGlobal => loadGlobal <$> code.wordAt pos
  | .getRval => .ok getRval
  | .setRval => .ok setRval
  | .not => .ok not
  | .and => .ok and
  | .inc => .ok inc
  | .dec => .ok dec
  | .ige => .ok ige
  | .isNullish => .ok isNullish
  | .isClosing => .ok isClosing
  | .jmp => jmp <$> code.signedWordAt pos
  | .jmpIfFalse => jmpIfFalse <$> code.signedWordAt pos
  | .jmpIfTrue => jmpIfTrue <$> code.signedWordAt pos
  | .retRval => .ok retRval
  | .call => call <$> code.byteAt pos
  | .getElem => .ok getElem
  | .getIterator => .ok getIterator
  | .iterNext => .ok iterNext
  | .iterClose => iterClose <$> code.byteAt pos
  | .pushDisposeScope => .ok pushDisposeScope
  | .popDisposeScope => .ok popDisposeScope
  | .addDisposable => addDisposable <$> code.byteAt pos
  | .takeDisposeCapability => .ok takeDisposeCapability
  | .resourceField => resourceField <$> code.byteAt pos
  | .chainDisposeError => chainDisposeError <$> code.byteAt pos
  | .await => .ok await
  | .yield => .ok yield
  | .throw => .ok throw
  | .tryStart => do
    let c ← code.signedWordAt pos
    let f ← code.signedWordAt (pos + 4)
    .ok (tryStart c f)
  | .endTry => .ok endTry

/-- The instruction at an offset. -/
def readAt (code : Bytes) (pos : Nat) : Except DecodeError Instr := do
  ofOperandsAt code (pos + 1) (← opcodeAt code pos)

theorem size_encode (i : Instr) : i.encode.size = i.size := by
  cases i <;>
    simp [encode, size, operandBytes, opcode, Opcode.operandSize, signedWord, word, halfWord,
      length_littleEndian]

end Instr

/-- Read an opcode. Its byte counts as read even if it encodes none. -/
def Reader.opcode : Read Opcode := do
  let pos := (← get).pos
  let b ← Reader.byte
  match Opcode.ofByte? b with
  | some op => pure op
  | none => throw (.invalidOpcode b pos)

/-! ### Instructions in a code -/

/-- An instruction and where it starts. -/
structure Located where
  offset : Nat
  instr : Instr
  deriving DecidableEq, Repr

namespace Located

/-- The offset after the instruction. -/
def next (i : Located) : Nat := i.offset + i.instr.size

/-- The offset at a distance from the end of the instruction, never below zero. -/
def target (i : Located) (distance : Int32) : Nat := (i.next + distance.toInt).toNat

/-- Where a jump leads. -/
def jumpTarget? (i : Located) : Option Nat :=
  match i.instr with
  | .jmp d | .jmpIfFalse d | .jmpIfTrue d => some (i.target d)
  | _ => none

/-- The offset of a handler, absent if its distance is negative. -/
def handlerTarget? (i : Located) (distance : Int32) : Option Nat :=
  if 0 ≤ distance.toInt then some (i.target distance) else none

/-- Where the catch and the finally code of a protected region start. -/
def handlerTargets (i : Located) : Option Nat × Option Nat :=
  match i.instr with
  | .tryStart c f => (i.handlerTarget? c, i.handlerTarget? f)
  | _ => (none, none)

/-- The instructions from an offset to the end of the code. -/
def ofCodeFrom (code : Bytes) (pos : Nat) : Except DecodeError (List Located) :=
  if pos < code.size then do
    let i ← Instr.readAt code pos
    let rest ← ofCodeFrom code (pos + i.size)
    .ok (⟨pos, i⟩ :: rest)
  else .ok []
termination_by code.size - pos
decreasing_by
  have : 0 < i.size := by simp only [Instr.size]; omega
  omega

/-- The instructions of a code. -/
def ofCode (code : Bytes) : Except DecodeError (List Located) :=
  ofCodeFrom code 0

end Located
end ResourceMachine
