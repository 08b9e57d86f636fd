/-
# Values

A value is a primitive or an entity with an identity. Objects, promises and
iterators change over time and live on a heap, so a value only names them;
errors, lists and records of resources never change and carry their contents.
A function belongs to the host, except for the wrapper that turns a sync
dispose method into an async one.

Key definitions: `Callable`, `Record`, `Value`, `Value.isTruthy`,
`Value.strictEquals`, `Value.text`.
-/
import ResourceMachine.Code.Opcode

namespace ResourceMachine

/-! ### Functions -/

/-- A function of the host, known by its identity. -/
structure HostFunction where
  id : Nat
  name : String
  deriving DecidableEq, Repr

/-- What can be called: a function of the host, or a wrapper which calls another
function without arguments and answers with a settled promise. -/
inductive Callable where
  | host (f : HostFunction)
  | settling (id : Nat) (inner : Callable)
  deriving DecidableEq, Repr

namespace Callable

/-- The name of a function. A wrapper has the name of what it wraps. -/
def name : Callable → String
  | host f => f.name
  | settling _ inner => inner.name

/-- Whether two functions are one. -/
def same : Callable → Callable → Bool
  | host f, host g => f.id == g.id
  | settling i _, settling j _ => i == j
  | _, _ => false

end Callable

/-! ### Values -/

/-- The constructor an error was made by. -/
inductive ErrorKind where
  | error
  | typeError
  | referenceError
  deriving DecidableEq, Repr

namespace ErrorKind

/-- The name of the constructor. -/
def name : ErrorKind → String
  | error => "Error"
  | typeError => "TypeError"
  | referenceError => "ReferenceError"

end ErrorKind

/-- What is registered for disposal: the receiver, how it was declared, and the
method to call. `await using` of a nullish value registers no method. -/
structure Record (α : Type) where
  value : α
  hint : Hint
  method : Option α
  deriving DecidableEq, Repr

/-- A value. The signal that closes a generator travels like an exception and
is never seen by a program. -/
inductive Value where
  | undefined
  | null
  | bool (b : Bool)
  | int (n : Int32)
  | str (s : String)
  | object (id : Nat)
  | function (f : Callable)
  | error (id : Nat) (kind : ErrorKind) (message : String)
  | suppressed (id : Nat) (error suppressed : Value)
  | promise (id : Nat)
  | iterator (id : Nat)
  | list (id : Nat) (items : List Value)
  | resource (id : Nat) (record : Record Value)
  | closing
  deriving Inhabited

/-- A resource that is registered for disposal. -/
abbrev Resource := Record Value

namespace Value

/-- Whether a value is null or undefined. -/
def isNullish : Value → Bool
  | undefined | null => true
  | _ => false

/-- Whether a condition takes a value for true. -/
def isTruthy : Value → Bool
  | undefined | null => false
  | bool b => b
  | int n => n != 0
  | str s => s != ""
  | _ => true

/-- Whether a value can be called. -/
def isCallable : Value → Bool
  | function _ => true
  | _ => false

/-- The number a value is. -/
def asInt? : Value → Option Int32
  | int n => some n
  | _ => none

/-- The text a value is. -/
def asStr? : Value → Option String
  | str s => some s
  | _ => none

/-- The name of the constructor of an error. -/
def errorName? : Value → Option String
  | error _ kind _ => some kind.name
  | suppressed .. => some "SuppressedError"
  | _ => none

/-- The text of an error without its constructor. -/
def errorMessage? : Value → Option String
  | error _ _ message => some message
  | suppressed .. => some "An error was suppressed during disposal"
  | _ => none

/-- The type of a value as messages name it. -/
def typeName : Value → String
  | undefined => "undefined"
  | null => "null"
  | bool _ => "boolean"
  | int _ => "number"
  | str _ => "string"
  | function _ => "function"
  | object _ | error .. | suppressed .. | promise _ | iterator _ | list .. => "object"
  | resource .. | closing => "internal"

/-- Whether two values are the same: primitives by value, entities by identity. -/
def strictEquals : Value → Value → Bool
  | undefined, undefined | null, null | closing, closing => true
  | bool a, bool b => a == b
  | int a, int b => a == b
  | str a, str b => a == b
  | object a, object b => a == b
  | function f, function g => f.same g
  | error a _ _, error b _ _ => a == b
  | suppressed a _ _, suppressed b _ _ => a == b
  | promise a, promise b => a == b
  | iterator a, iterator b => a == b
  | list a _, list b _ => a == b
  | resource a _, resource b _ => a == b
  | _, _ => false

mutual

/-- The text of a value. -/
def text : Value → String
  | undefined => "undefined"
  | null => "null"
  | bool b => if b then "true" else "false"
  | int n => toString n.toInt
  | str s => s
  | object _ => "[object Object]"
  | function f => s!"[Function: {f.name}]"
  | error _ kind message => if message = "" then kind.name else s!"{kind.name}: {message}"
  | suppressed .. => "SuppressedError: An error was suppressed during disposal"
  | promise _ => "[object Promise]"
  | iterator _ => "[object Iterator]"
  | list _ items => "[" ++ ", ".intercalate (texts items) ++ "]"
  | resource .. => "[resource]"
  | closing => "[generator closing]"

/-- The texts of several values. -/
def texts : List Value → List String
  | [] => []
  | v :: vs => text v :: texts vs

end

end Value
end ResourceMachine
