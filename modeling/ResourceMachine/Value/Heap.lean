/-
# The heap

Objects are sets of properties; a promise settles once; an iterator hands out
the items of a list and remembers whether it was closed before its end. Each
is named by its position on the heap. Entities that never change carry their
contents, so of them the heap only knows how many identities it gave away.

Key definitions: `PropertyKey`, `Settlement`, `Cursor`, `Heap`, `OnHeap`.
-/
import ResourceMachine.Value.Basic

namespace ResourceMachine

/-! ### What lives on the heap -/

/-- The key of a property: a name, or the symbol under which an object keeps
the dispose method for a kind of declaration. -/
inductive PropertyKey where
  | name (s : String)
  | symbol (hint : Hint)
  deriving DecidableEq, Repr

/-- The symbol under which an object keeps its dispose method. -/
def Hint.symbolName : Hint → String
  | .sync => "Symbol.dispose"
  | .async => "Symbol.asyncDispose"

/-- The properties of an object, each key once. -/
abbrev Properties := List (PropertyKey × Value)

namespace Properties

/-- Write a property. -/
def put (ps : Properties) (key : PropertyKey) (v : Value) : Properties :=
  (key, v) :: ps.filter (·.1 ≠ key)

/-- Read a property. -/
def get? (ps : Properties) (key : PropertyKey) : Option Value :=
  ps.lookup key

end Properties

/-- How a promise stands. -/
inductive Settlement where
  | pending
  | fulfilled (v : Value)
  | rejected (reason : Value)
  deriving Inhabited

namespace Settlement

/-- Whether a promise has settled. -/
def isSettled : Settlement → Bool
  | pending => false
  | _ => true

end Settlement

/-- How an iterator stands: the items still to come, the number handed out,
whether it was closed, and the error that closing it is going to throw. -/
structure Cursor where
  rest : List Value
  position : Nat
  closed : Bool
  closeError : Option Value
  deriving Inhabited

namespace Cursor

/-- An iterator at the start of a list. -/
def ofList (items : List Value) (closeError : Option Value) : Cursor :=
  ⟨items, 0, false, closeError⟩

/-- Hand out the next item. A closed iterator has none. -/
def next (c : Cursor) : Option Value × Cursor :=
  match c.closed, c.rest with
  | false, v :: rest => (some v, { c with rest, position := c.position + 1 })
  | _, _ => (none, c)

/-- Close the iterator. The error that this throws is thrown once. -/
def close (c : Cursor) : Option Value × Cursor :=
  (c.closeError, { c with closed := true, closeError := none })

end Cursor

/-- Objects, promises and iterators by position, and the number of identities
given to entities that never change. -/
structure Heap where
  objects : Array Properties
  promises : Array Settlement
  iterators : Array Cursor
  identities : Nat
  deriving Inhabited

/-- A computation on the heap that may fail. -/
abbrev OnHeap (ε : Type) := EStateM ε Heap

namespace Heap

/-- The heap on which nothing lives. -/
def empty : Heap := ⟨#[], #[], #[], 0⟩

/-! ### Identities -/

/-- An identity that no entity has yet. -/
def freshId : OnHeap ε Nat := fun h =>
  .ok h.identities { h with identities := h.identities + 1 }

/-- A new error. -/
def newError (kind : ErrorKind) (message : String) : OnHeap ε Value :=
  return .error (← freshId) kind message

/-- A new error that a newer error superseded an older one during disposal. -/
def newSuppressed (error suppressed : Value) : OnHeap ε Value :=
  return .suppressed (← freshId) error suppressed

/-- A new list. -/
def newList (items : List Value) : OnHeap ε Value :=
  return .list (← freshId) items

/-- A new record of a resource. -/
def newResource (r : Resource) : OnHeap ε Value :=
  return .resource (← freshId) r

/-- New records of several resources, in order. -/
def newResources : List Resource → OnHeap ε (List Value)
  | [] => pure []
  | r :: rs => do
    let v ← newResource r
    let vs ← newResources rs
    pure (v :: vs)

/-- A new wrapper of a function. -/
def newSettling (inner : Callable) : OnHeap ε Value :=
  return .function (.settling (← freshId) inner)

/-! ### Objects -/

/-- A new object. -/
def newObject (ps : Properties) : OnHeap ε Value := fun h =>
  .ok (.object h.objects.size) { h with objects := h.objects.push ps }

/-- A property of an object. -/
def property? (h : Heap) (id : Nat) (key : PropertyKey) : Option Value :=
  (h.objects[id]?).bind (·.get? key)

/-- Read a property; one that is not there reads as undefined. -/
def getProperty (id : Nat) (key : PropertyKey) : OnHeap ε Value := fun h =>
  .ok ((h.property? id key).getD .undefined) h

/-- Write a property. -/
def setProperty (id : Nat) (key : PropertyKey) (v : Value) : OnHeap ε Unit := fun h =>
  .ok () { h with objects := h.objects.modify id (·.put key v) }

/-! ### Promises -/

/-- A new promise. -/
def newPromise (s : Settlement) : OnHeap ε Value := fun h =>
  .ok (.promise h.promises.size) { h with promises := h.promises.push s }

/-- How a promise stands. -/
def settlement (h : Heap) (id : Nat) : Settlement :=
  (h.promises[id]?).getD .pending

/-- Settle a promise; the result says whether it was still pending. -/
def settle (id : Nat) (s : Settlement) : OnHeap ε Bool := fun h =>
  if (h.settlement id).isSettled then .ok false h
  else .ok true { h with promises := h.promises.setIfInBounds id s }

/-! ### Iterators -/

/-- A new iterator. -/
def newIterator (c : Cursor) : OnHeap ε Value := fun h =>
  .ok (.iterator h.iterators.size) { h with iterators := h.iterators.push c }

/-- How an iterator stands. -/
def cursor (h : Heap) (id : Nat) : Cursor :=
  (h.iterators[id]?).getD default

/-- Take the next item of an iterator. -/
def nextItem (id : Nat) : OnHeap ε (Option Value) := fun h =>
  let (item, c) := (h.cursor id).next
  .ok item { h with iterators := h.iterators.setIfInBounds id c }

/-- Close an iterator; the result is what closing it throws. -/
def closeIterator (id : Nat) : OnHeap ε (Option Value) := fun h =>
  let (thrown, c) := (h.cursor id).close
  .ok thrown { h with iterators := h.iterators.setIfInBounds id c }

end Heap
end ResourceMachine
