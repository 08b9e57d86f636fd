/-
# The host

What a program can reach outside of itself: a host function is any
transformation of the world (the heap and a state of the host's own) that ends
with a value or throws one.

Key definitions: `World`, `Guest`, `Host`, `Callable.call`.
-/
import ResourceMachine.Value.Heap

namespace ResourceMachine

/-- The heap, and the state of the host. -/
structure World (σ : Type) where
  heap : Heap
  host : σ

/-- A computation in the world that may throw a value. -/
abbrev Guest (σ : Type) := EStateM Value (World σ)

/-- The functions of a host: what a function does when it is called on a
receiver with arguments. -/
abbrev Host (σ : Type) := HostFunction → Value → List Value → Guest σ Value

namespace World

variable {σ ε α : Type}

/-- Work on the heap. -/
def onHeap (m : OnHeap ε α) : EStateM ε (World σ) α := fun ⟨heap, host⟩ =>
  match m heap with
  | .ok a heap' => .ok a ⟨heap', host⟩
  | .error e heap' => .error e ⟨heap', host⟩

instance : MonadLift (OnHeap ε) (EStateM ε (World σ)) := ⟨onHeap⟩

end World

/-- How a computation ended, and the world it left. -/
def Guest.settle {σ α : Type} (m : Guest σ α) (w : World σ) : Except Value α × World σ :=
  match m w with
  | .ok a w' => (.ok a, w')
  | .error v w' => (.error v, w')

/-- Call a function. A wrapper never throws: its promise is fulfilled with
undefined when the wrapped function returns, and rejected with what it throws. -/
def Callable.call {σ : Type} (host : Host σ) : Callable → Value → List Value → Guest σ Value
  | .host f, receiver, args => host f receiver args
  | .settling _ inner, receiver, _ => fun w =>
    match (inner.call host receiver []).settle w with
    | (.ok _, w') => World.onHeap (Heap.newPromise (.fulfilled .undefined)) w'
    | (.error e, w') => World.onHeap (Heap.newPromise (.rejected e)) w'

end ResourceMachine
