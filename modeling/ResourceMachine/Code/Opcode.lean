/-
# The instruction set

Every instruction is one opcode byte followed by a fixed number of operand
bytes. This module holds the opcodes and the two enumerations that appear as
operands (`Hint`, `Field`), the byte and the name of each opcode, the size of
its operands, and its effect on the operand stack. A byte is read by a search
of the table that writes it, so the two directions cannot disagree as long as
no byte is written for two opcodes, which is what `Opcode.ofByte?_byte` says.

Key definitions: `Hint`, `Field`, `Opcode`, `Opcode.byte`, `Opcode.ofByte?`,
`Opcode.operandSize`, `Opcode.stackEffect`.
Key theorems: `Opcode.ofByte?_byte`, `Opcode.byte_of_ofByte?`.
-/
namespace ResourceMachine

/-! ### Operand enumerations -/

/-- How a resource is declared: `using` or `await using`. -/
inductive Hint where
  | sync
  | async
  deriving DecidableEq, Repr

namespace Hint

/-- The operand byte of a declaration. -/
def byte : Hint → UInt8
  | sync => 0
  | async => 1

/-- The declaration an operand byte stands for. -/
def ofByte? (b : UInt8) : Option Hint :=
  [sync, async].find? (·.byte == b)

theorem ofByte?_byte (h : Hint) : ofByte? h.byte = some h := by
  cases h <;> rfl

end Hint

/-- The parts of a resource record that code can read. -/
inductive Field where
  | value
  | hint
  | method
  deriving DecidableEq, Repr

namespace Field

/-- The operand byte of a record part. -/
def byte : Field → UInt8
  | value => 0
  | hint => 1
  | method => 2

/-- The record part an operand byte stands for. -/
def ofByte? (b : UInt8) : Option Field :=
  [value, hint, method].find? (·.byte == b)

theorem ofByte?_byte (f : Field) : ofByte? f.byte = some f := by
  cases f <;> rfl

end Field

/-! ### Opcodes -/

/-- What an instruction does, without its operands. -/
inductive Opcode where
  | nop | pop | popN | dup | dup2 | dupAt | swap | pick | unpick
  | constUndefined | constNull | constTrue | constFalse | constI32 | constStr
  | loadLocal | storeLocal | loadGlobal | getRval | setRval
  | not | and | inc | dec | ige | isNullish | isClosing
  | jmp | jmpIfFalse | jmpIfTrue | retRval
  | call
  | getElem | getIterator | iterNext | iterClose
  | pushDisposeScope | popDisposeScope | addDisposable | takeDisposeCapability
  | resourceField | chainDisposeError
  | await | yield
  | throw | tryStart | endTry
  deriving DecidableEq, Repr

namespace Opcode

/-- Every opcode, by ascending byte. -/
def all : List Opcode :=
  [nop, pop, popN, dup, dup2, dupAt, swap, pick, unpick,
   constUndefined, constNull, constTrue, constFalse, constI32, constStr,
   loadLocal, storeLocal, loadGlobal, getRval, setRval,
   not, and, inc, dec, ige, isNullish, isClosing,
   jmp, jmpIfFalse, jmpIfTrue, retRval,
   call,
   getElem, getIterator, iterNext, iterClose,
   pushDisposeScope, popDisposeScope, addDisposable, takeDisposeCapability,
   resourceField, chainDisposeError,
   await, yield,
   throw, tryStart, endTry]

/-- The byte that encodes the opcode. The high half is the family. -/
def byte : Opcode → UInt8
  | nop => 0x00 | pop => 0x01 | popN => 0x02 | dup => 0x03 | dup2 => 0x04
  | dupAt => 0x05 | swap => 0x06 | pick => 0x07 | unpick => 0x08
  | constUndefined => 0x10 | constNull => 0x11 | constTrue => 0x12
  | constFalse => 0x13 | constI32 => 0x14 | constStr => 0x15
  | loadLocal => 0x20 | storeLocal => 0x21 | loadGlobal => 0x22
  | getRval => 0x23 | setRval => 0x24
  | not => 0x30 | and => 0x31 | inc => 0x32 | dec => 0x33 | ige => 0x34
  | isNullish => 0x35 | isClosing => 0x36
  | jmp => 0x40 | jmpIfFalse => 0x41 | jmpIfTrue => 0x42 | retRval => 0x43
  | call => 0x50
  | getElem => 0x60 | getIterator => 0x61 | iterNext => 0x62 | iterClose => 0x63
  | pushDisposeScope => 0x70 | popDisposeScope => 0x71 | addDisposable => 0x72
  | takeDisposeCapability => 0x73 | resourceField => 0x74 | chainDisposeError => 0x75
  | await => 0x80 | yield => 0x81
  | throw => 0x90 | tryStart => 0x91 | endTry => 0x92

/-- The opcode a byte encodes. -/
def ofByte? (b : UInt8) : Option Opcode :=
  all.find? (·.byte == b)

/-- The name used in listings and error texts. -/
def name : Opcode → String
  | nop => "NOP" | pop => "POP" | popN => "POP_N" | dup => "DUP" | dup2 => "DUP2"
  | dupAt => "DUP_AT" | swap => "SWAP" | pick => "PICK" | unpick => "UNPICK"
  | constUndefined => "CONST_UNDEFINED" | constNull => "CONST_NULL"
  | constTrue => "CONST_TRUE" | constFalse => "CONST_FALSE"
  | constI32 => "CONST_I32" | constStr => "CONST_STR"
  | loadLocal => "LOAD_LOCAL" | storeLocal => "STORE_LOCAL"
  | loadGlobal => "LOAD_GLOBAL" | getRval => "GET_RVAL" | setRval => "SET_RVAL"
  | not => "NOT" | and => "AND" | inc => "INC" | dec => "DEC" | ige => "IGE"
  | isNullish => "IS_NULLISH" | isClosing => "IS_CLOSING"
  | jmp => "JMP" | jmpIfFalse => "JMP_IF_FALSE" | jmpIfTrue => "JMP_IF_TRUE"
  | retRval => "RET_RVAL"
  | call => "CALL"
  | getElem => "GET_ELEM" | getIterator => "GET_ITERATOR"
  | iterNext => "ITER_NEXT" | iterClose => "ITER_CLOSE"
  | pushDisposeScope => "PUSH_DISPOSE_SCOPE" | popDisposeScope => "POP_DISPOSE_SCOPE"
  | addDisposable => "ADD_DISPOSABLE" | takeDisposeCapability => "TAKE_DISPOSE_CAPABILITY"
  | resourceField => "RESOURCE_FIELD" | chainDisposeError => "CHAIN_DISPOSE_ERROR"
  | await => "AWAIT" | yield => "YIELD"
  | throw => "THROW" | tryStart => "TRY_START" | endTry => "END_TRY"

/-- The opcode with a given name. -/
def ofName? (s : String) : Option Opcode :=
  all.find? (·.name == s)

/-- The number of operand bytes that follow the opcode byte. -/
def operandSize : Opcode → Nat
  | popN | dupAt | pick | unpick | call | iterClose | addDisposable
  | resourceField | chainDisposeError => 1
  | loadLocal | storeLocal => 2
  | constI32 | constStr | loadGlobal | jmp | jmpIfFalse | jmpIfTrue => 4
  | tryStart => 8
  | _ => 0

/-- How many values an instruction takes from the operand stack and how many it
leaves in their place. -/
structure Effect where
  pops : Nat
  pushes : Nat
  deriving DecidableEq, Repr

/-- The effect on the operand stack, for a first operand `n`, when execution
continues after the instruction. -/
def stackEffect (n : Nat) : Opcode → Effect
  | nop => ⟨0, 0⟩
  | pop => ⟨1, 0⟩
  | popN => ⟨n, 0⟩
  | dup => ⟨1, 2⟩
  | dup2 => ⟨2, 4⟩
  | dupAt => ⟨n + 1, n + 2⟩
  | swap => ⟨2, 2⟩
  | pick | unpick => ⟨n + 1, n + 1⟩
  | constUndefined | constNull | constTrue | constFalse | constI32 | constStr => ⟨0, 1⟩
  | loadLocal | loadGlobal | getRval => ⟨0, 1⟩
  | storeLocal | setRval => ⟨1, 0⟩
  | not | inc | dec | isNullish | isClosing => ⟨1, 1⟩
  | and | ige => ⟨2, 1⟩
  | jmp | retRval => ⟨0, 0⟩
  | jmpIfFalse | jmpIfTrue => ⟨1, 0⟩
  | call => ⟨n + 2, 1⟩
  | getElem => ⟨2, 1⟩
  | getIterator => ⟨1, 1⟩
  | iterNext => ⟨1, 3⟩
  | iterClose => ⟨1, 0⟩
  | pushDisposeScope | popDisposeScope => ⟨0, 0⟩
  | addDisposable => ⟨1, 0⟩
  | takeDisposeCapability => ⟨0, 2⟩
  | resourceField => ⟨1, 1⟩
  | chainDisposeError => ⟨3, 1⟩
  | await | yield => ⟨1, 1⟩
  | throw => ⟨1, 0⟩
  | tryStart | endTry => ⟨0, 0⟩

/-- Whether the operand is a jump distance. -/
def isJump : Opcode → Bool
  | jmp | jmpIfFalse | jmpIfTrue => true
  | _ => false

/-- Whether execution stops here until the task is resumed. -/
def isSuspension : Opcode → Bool
  | await | yield => true
  | _ => false

/-- Whether execution never continues with the next instruction. -/
def isTerminator : Opcode → Bool
  | jmp | retRval | throw => true
  | _ => false

theorem ofByte?_byte (op : Opcode) : ofByte? op.byte = some op := by
  cases op <;> rfl

theorem byte_of_ofByte? {b : UInt8} {op : Opcode} (h : ofByte? b = some op) : op.byte = b := by
  simpa using List.find?_some h

end Opcode
end ResourceMachine
