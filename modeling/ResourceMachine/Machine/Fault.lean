/-
# Faults

What stops the machine itself. A fault is never seen by a program: what a
program throws is a value.

Key definition: `Fault`.
-/
import ResourceMachine.Code.Bytes
import ResourceMachine.Code.Opcode

namespace ResourceMachine

/-- What stops the machine. Types are given by the names that messages use. -/
inductive Fault where
  | stackOverflow
  | stackUnderflow
  | invalidOpcode (byte : UInt8)
  | unexpectedEnd (offset : Nat)
  | counterNotInteger (opcode : Opcode)
  | orderOfNonIntegers (left right : String)
  | elementOfNonList (list index : String)
  | nextOfNonIterator
  | closeOfNonIterator
  | fieldOfNonResource
  | noSuchConstant (index : Nat)
  | noSuchLocal (slot : Nat)
  | invalidHint (byte : UInt8)
  | invalidField (byte : UInt8)
  | noScopeToPop
  | noScopeToRegister
  | noScopeToDrain
  | tooManyResources
  | noHandler
  | jumpOutOfBounds (target : Int) (offset : Nat)
  | noSuchFunction (index : Nat)
  | budgetExceeded (budget : Nat)
  deriving DecidableEq, Repr

namespace Fault

/-- The fault of code that cannot be decoded where it is to be run. -/
def ofDecodeError : DecodeError → Fault
  | .invalidOpcode byte _ => invalidOpcode byte
  | .unexpectedEnd offset => unexpectedEnd offset
  | .invalidUtf8 offset => unexpectedEnd offset
  | .invalidFunctionKind tag => invalidOpcode tag

/-- The text shown for the fault. -/
def message : Fault → String
  | stackOverflow => "Stack overflow"
  | stackUnderflow => "Stack underflow"
  | invalidOpcode byte => s!"Invalid opcode: {byte.toNat}"
  | unexpectedEnd offset => s!"Unexpected end of bytecode at offset {offset}"
  | counterNotInteger opcode => s!"Type error: {opcode.name} expects an integer"
  | orderOfNonIntegers left right => s!"Type error: IGE expects integers, got {left} and {right}"
  | elementOfNonList list index =>
    s!"Type error: GET_ELEM expects a list and an integer, got {list} and {index}"
  | nextOfNonIterator => "Type error: ITER_NEXT expects an iterator"
  | closeOfNonIterator => "Type error: ITER_CLOSE expects an iterator"
  | fieldOfNonResource => "Type error: RESOURCE_FIELD expects a resource record"
  | noSuchConstant index => s!"Runtime error: Invalid string constant {index}"
  | noSuchLocal slot => s!"Runtime error: Invalid local {slot}"
  | invalidHint byte => s!"Runtime error: Invalid using hint {byte.toNat}"
  | invalidField byte => s!"Runtime error: Invalid resource field {byte.toNat}"
  | noScopeToPop => "Runtime error: No dispose scope to pop"
  | noScopeToRegister => "Runtime error: No dispose scope to register with"
  | noScopeToDrain => "Runtime error: No dispose scope to drain"
  | tooManyResources => "Runtime error: Too many resources in one scope"
  | noHandler => "Runtime error: END_TRY without a handler"
  | jumpOutOfBounds target offset =>
    s!"Runtime error: Jump target {target} out of bounds at offset {offset}"
  | noSuchFunction index => s!"Function not found: #{index}"
  | budgetExceeded budget => s!"Step budget of {budget} instructions exceeded"

end Fault
end ResourceMachine
