/-
# The language

Functions are given as syntax trees. Names are either bindings of the function
(parameters, `let`, `using`, loop and catch bindings) or globals of the host.
A `using` declaration registers its value to be disposed when its block is left.

Key definitions: `Expr`, `Stmt`, `Declaration`, `Declaration.nodes`.
-/
import ResourceMachine.Code.Opcode
import ResourceMachine.Code.Module

namespace ResourceMachine

/-- An expression. -/
inductive Expr where
  | undefined
  | null
  | bool (b : Bool)
  | int (n : Int32)
  | str (s : String)
  | binding (name : String)
  | global (name : String)
  | call (callee : Expr) (args : List Expr)
  | await (e : Expr)
  | yield (e : Expr)
  deriving Repr, BEq, Inhabited

/-- A statement. A `for`-`of` loop whose binding has a hint registers each
value it iterates over. -/
inductive Stmt where
  | expr (e : Expr)
  | letIn (name : String) (init : Expr)
  | usingIn (name : String) (hint : Hint) (init : Expr)
  | block (body : List Stmt)
  | ifElse (cond : Expr) (yes no : List Stmt)
  | whileLoop (label : Option String) (cond : Expr) (body : List Stmt)
  | forOf (label : Option String) (binding : String) (hint : Option Hint) (iterable : Expr)
      (body : List Stmt)
  | tryCatch (body : List Stmt) (param : Option String) (handler : List Stmt)
  | throw (e : Expr)
  | ret (e : Option Expr)
  | breakLoop (label : Option String)
  | continueLoop (label : Option String)
  deriving Repr, BEq, Inhabited

namespace Stmt

/-- Whether a statement declares a resource of the block it stands in. -/
def isUsing : Stmt → Bool
  | usingIn .. => true
  | _ => false

end Stmt

/-- A function to compile. -/
structure Declaration where
  name : String
  kind : FunctionKind
  params : List String
  body : List Stmt
  deriving Repr, BEq

/-! ### Size -/

mutual

/-- The number of expressions in an expression. -/
def Expr.nodes : Expr → Nat
  | call callee args => callee.nodes + Expr.nodesAll args + 1
  | await e | yield e => e.nodes + 1
  | _ => 1

/-- The number of expressions in several expressions. -/
def Expr.nodesAll : List Expr → Nat
  | [] => 0
  | e :: es => e.nodes + Expr.nodesAll es

end

mutual

/-- The number of statements and expressions in a statement. -/
def Stmt.nodes : Stmt → Nat
  | expr e | letIn _ e | usingIn _ _ e | throw e | ret (some e) => e.nodes + 1
  | block body => Stmt.nodesAll body + 1
  | ifElse cond yes no => cond.nodes + Stmt.nodesAll yes + Stmt.nodesAll no + 1
  | whileLoop _ cond body => cond.nodes + Stmt.nodesAll body + 1
  | forOf _ _ _ iterable body => iterable.nodes + Stmt.nodesAll body + 1
  | tryCatch body _ handler => Stmt.nodesAll body + Stmt.nodesAll handler + 1
  | ret none | breakLoop _ | continueLoop _ => 1

/-- The number of statements and expressions in several statements. -/
def Stmt.nodesAll : List Stmt → Nat
  | [] => 0
  | s :: ss => s.nodes + Stmt.nodesAll ss

end

namespace Declaration

/-- The number of nodes in the syntax of a function. -/
def nodes (d : Declaration) : Nat := Stmt.nodesAll d.body + d.params.length + 1

/-- The number of nodes in the syntax of several functions. -/
def nodesAll : List Declaration → Nat
  | [] => 0
  | d :: ds => d.nodes + nodesAll ds

end Declaration
end ResourceMachine
