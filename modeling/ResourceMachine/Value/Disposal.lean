/-
# Disposable resources

A declaration registers its value with the innermost scope. The dispose method
is found then, so that one that is missing or cannot be called is a fault of
the declaration. A pass over a scope carries a completion; what disposing
throws is chained to it, so that no exception is lost.

Key definitions: `disposeMethod`, `createResource`, `Capability`, `Completion`.
-/
import ResourceMachine.Value.Heap

namespace ResourceMachine

/-! ### Registration -/

/-- Throw a type error. -/
def throwTypeError (message : String) : OnHeap Value α := do
  throw (← Heap.newError .typeError message)

/-- The function that a property holds, or the error that it cannot be called. -/
def callable (method : Value) (hint : Hint) : OnHeap Value Callable := do
  match method with
  | .function f => pure f
  | _ => throwTypeError s!"[{hint.symbolName}] is not a function"

/-- The dispose method that an object keeps under a symbol, if that is not
nullish. -/
def ownMethod (object : Nat) (hint : Hint) : OnHeap Value (Option Callable) := do
  let method ← Heap.getProperty object (.symbol hint)
  if method.isNullish then pure none else some <$> callable method hint

/-- The dispose method of a value. An async declaration prefers the async
method and falls back to the sync one, wrapped. -/
def disposeMethod (v : Value) (hint : Hint) : OnHeap Value (Option Value) := do
  match v with
  | .object id =>
    match hint, ← ownMethod id hint with
    | _, some f => pure (some (.function f))
    | .sync, none => pure none
    | .async, none =>
      match ← ownMethod id .sync with
      | some f => some <$> Heap.newSettling f
      | none => pure none
  | _ => pure none

/-- The record that a declaration registers. A nullish value registers nothing
or, if async, a record without a method. -/
def createResource (v : Value) (hint : Hint) : OnHeap Value (Option Resource) := do
  match v with
  | .undefined | .null =>
    match hint with
    | .sync => pure none
    | .async => pure (some ⟨.undefined, .async, none⟩)
  | .object _ =>
    match ← disposeMethod v hint with
    | some method => pure (some ⟨v, hint, some method⟩)
    | none => throwTypeError s!"Object is not disposable (missing [{hint.symbolName}])"
  | _ => throwTypeError s!"using declarations require an object, got {v.typeName}"

/-! ### Scopes -/

/-- The resources that a scope has registered, in order. -/
structure Capability where
  resources : List Resource
  deriving Inhabited

namespace Capability

/-- No resources. -/
def empty : Capability := ⟨[]⟩

/-- Register a resource behind the others. -/
def add (c : Capability) (r : Resource) : Capability := ⟨c.resources ++ [r]⟩

/-- The number of resources. -/
def size (c : Capability) : Nat := c.resources.length

/-- Whether there are no resources. -/
def isEmpty (c : Capability) : Bool := c.resources.isEmpty

end Capability

/-! ### Completions -/

/-- What a pass carries: nothing, an exception, or the signal that closes a
generator. -/
inductive Completion where
  | normal
  | throw (exception : Value)
  | unwind
  deriving Inhabited

namespace Completion

/-- The completion that a pass has kept in its locals. The signal that closes
a generator is told apart from an exception only where `unwrapClosing` says so. -/
def ofPending (throwing : Bool) (exception : Value) (unwrapClosing : Bool) : Completion :=
  match throwing, unwrapClosing, exception with
  | false, _, _ => normal
  | true, true, .closing => unwind
  | true, _, e => throw e

/-- Whether the completion is more than normal. -/
def isAbrupt : Completion → Bool
  | normal => false
  | _ => true

/-- The exception that is pending after `error` is thrown: over an exception,
an error that keeps both; over the closing signal, `error` alone. -/
def chain (c : Completion) (error : Value) : OnHeap ε Value :=
  match c with
  | throw prior => Heap.newSuppressed error prior
  | normal | unwind => pure error

end Completion
end ResourceMachine
