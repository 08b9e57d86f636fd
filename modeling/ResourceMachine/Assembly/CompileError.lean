/-
# Why a function cannot be compiled

A compile error is the fault of the source, except for `internal`, which says
that the assembler was used out of order, and `verification`, which says that
finished code is not fit to run.

Key definitions: `Defect`, `CompileError`.
-/
import ResourceMachine.Code.StackDepth

namespace ResourceMachine

/-- How the assembler can be used out of order. -/
inductive Defect where
  | stackUnderflow (opcode : Opcode) (function : String) (depth : Nat)
  | unbalancedBranch (found expected : Nat)
  | unbalancedLoop
  | unbalancedTry (found expected : Nat)
  | catchWithoutTry
  | finallyWithoutTry
  | completionLost
  | tryOutOfOrder
  | exitOfUnenteredScope
  | jumpOutOfUnenteredScope
  | scopeClosedBeforeBody
  | usingOutsideScope
  | valuesLeftByBreak
  | unbalancedRegions
  deriving DecidableEq, Repr

namespace Defect

/-- The text shown for the defect. -/
def message : Defect → String
  | stackUnderflow opcode function depth =>
    s!"stack underflow emitting {opcode.name} in {function} (depth {depth})"
  | unbalancedBranch found expected => s!"unbalanced if branch: depth {found} != {expected}"
  | unbalancedLoop => "unbalanced loop body"
  | unbalancedTry found expected => s!"unbalanced try block: depth {found} != {expected}"
  | catchWithoutTry => "catch without try"
  | finallyWithoutTry => "finally without try"
  | completionLost => "finally block lost its completion"
  | tryOutOfOrder => "try statement closed out of order"
  | exitOfUnenteredScope => "exit of a disposable scope that was never entered"
  | jumpOutOfUnenteredScope => "jump out of a disposable scope that was never entered"
  | scopeClosedBeforeBody => "disposable scope closed before its body"
  | usingOutsideScope => "using declaration outside its disposable scope"
  | valuesLeftByBreak => "break leaves values on the stack"
  | unbalancedRegions => "unbalanced control regions"

end Defect

/-- Why a function cannot be compiled. -/
inductive CompileError where
  | undefinedVariable (name : String)
  | awaitUsingOutsideAsync (function : String)
  | awaitOutsideAsync (function : String)
  | yieldOutsideGenerator (function : String)
  | tooManyLocals
  | tooManyArguments
  | jumpTooLarge
  | invalidBreak
  | invalidContinue
  | undefinedLabel (label : String)
  | duplicateFunction (name : String)
  | internal (defect : Defect)
  | verification (error : VerifyError)
  deriving DecidableEq, Repr

namespace CompileError

/-- The text shown for the error. -/
def message : CompileError → String
  | undefinedVariable name => s!"Undefined variable: {name}"
  | awaitUsingOutsideAsync function =>
    s!"'await using' is only valid in async functions (in {function})"
  | awaitOutsideAsync function => s!"'await' is only valid in async functions (in {function})"
  | yieldOutsideGenerator function => s!"'yield' is only valid in generators (in {function})"
  | tooManyLocals => "Too many local variables (max 65535)"
  | tooManyArguments => "Too many arguments (max 255)"
  | jumpTooLarge => "Jump offset too large"
  | invalidBreak => "Invalid break statement (not in loop)"
  | invalidContinue => "Invalid continue statement (not in loop)"
  | undefinedLabel label => s!"Undefined label: {label}"
  | duplicateFunction name => s!"Duplicate function: {name}"
  | internal defect => s!"Internal compiler error: {defect.message}"
  | verification error => s!"Bytecode verification failed: {error.message}"

end CompileError
end ResourceMachine
