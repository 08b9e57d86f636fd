/-
# Values without the closing signal

A value is clean if the signal that closes a generator occurs nowhere in it, and a heap if
all that can be read off it is.

A host is clean if its functions, called on what is clean, leave and yield what is clean.

Key definitions: `Value.Clean`, `Heap.Clean`, `Event.Clean`, `Host.Clean`,
`Surroundings.Clean`.
Key theorems: `Callable.call_clean`, `Heap.Clean.newIterator`, `Heap.Clean.setIterator`.
-/
import ResourceMachine.Proofs.Moment
import ResourceMachine.Proofs.Phases

namespace ResourceMachine

/-! ### Values -/

namespace Value

/-- Whether a value holds no other values. -/
def isAtom : Value → Bool
  | suppressed .. | list .. | resource .. | closing => false
  | _ => true

/-- The closing signal does not occur in a value. -/
inductive Clean : Value → Prop
  | atom {v : Value} (h : v.isAtom = true) : Clean v
  | suppressed {id : Nat} {error older : Value} (herror : Clean error) (holder : Clean older) :
      Clean (.suppressed id error older)
  | list {id : Nat} {items : List Value} (hitems : ∀ v ∈ items, Clean v) : Clean (.list id items)
  | resource {id : Nat} {value : Value} {hint : Hint} {method : Option Value} (hvalue : Clean value)
      (hmethod : ∀ m, method = some m → Clean m) : Clean (.resource id ⟨value, hint, method⟩)

end Value

/-- The closing signal does not occur in a record. -/
structure Record.Clean (r : Resource) : Prop where
  value : r.value.Clean
  method : ∀ m, r.method = some m → m.Clean

namespace Value.Clean

variable {v : Value} {id : Nat}

theorem of_isPlain (h : v.isPlain = true) : v.Clean := by
  cases v <;> first | exact .atom rfl | cases h

theorem undefined : Value.undefined.Clean := .atom rfl

theorem bool (b : Bool) : (Value.bool b).Clean := .atom rfl

theorem int (n : Int32) : (Value.int n).Clean := .atom rfl

theorem function (f : Callable) : (Value.function f).Clean := .atom rfl

theorem items {items : List Value} (h : (Value.list id items).Clean) : ∀ v ∈ items, v.Clean := by
  cases h with
  | atom h => cases h
  | list h => exact h

theorem record {r : Resource} (h : (Value.resource id r).Clean) : r.Clean := by
  cases h with
  | atom h => cases h
  | resource value method => exact ⟨value, method⟩

theorem of_record {r : Resource} (h : r.Clean) : (Value.resource id r).Clean :=
  .resource h.value h.method

/-- The closing signal itself is not clean. -/
theorem ne_closing (h : v.Clean) : v ≠ .closing := by
  rintro rfl
  cases h with
  | atom h => cases h

end Value.Clean

/-- The result of a computation that may throw is clean. -/
def Value.CleanResult (result : Except Value Value) : Prop :=
  ∀ v, result = .ok v ∨ result = .error v → v.Clean

theorem Value.CleanResult.ok {v : Value} (h : v.Clean) : Value.CleanResult (.ok v) := by
  intro w hw
  rcases hw with hw | hw
  · rwa [← Except.ok.inj hw]
  · cases hw

/-! ### Heaps -/

/-- What a promise has settled with is clean. -/
def Settlement.Clean : Settlement → Prop
  | pending => True
  | fulfilled v | rejected v => v.Clean

/-- The items of an iterator are clean, and so is what closing it throws. -/
structure Cursor.Clean (c : Cursor) : Prop where
  rest : ∀ v ∈ c.rest, v.Clean
  closeError : ∀ e, c.closeError = some e → e.Clean

/-- What can be read off a heap is clean. -/
structure Heap.Clean (h : Heap) : Prop where
  property : ∀ id key v, h.property? id key = some v → v.Clean
  settlement : ∀ id, (h.settlement id).Clean
  cursor : ∀ id, (h.cursor id).Clean

namespace Cursor.Clean

variable {c : Cursor}

theorem ofList {items : List Value} (h : ∀ v ∈ items, v.Clean) : (Cursor.ofList items none).Clean :=
  ⟨h, nofun⟩

theorem next {item : Option Value} {c' : Cursor} (h : c.Clean) (hnext : c.next = (item, c')) :
    (∀ v, item = some v → v.Clean) ∧ c'.Clean := by
  unfold Cursor.next at hnext
  split at hnext
  · rename_i v rest _ hrest
    have hitems := List.forall_mem_cons.mp (hrest ▸ h.rest)
    cases hnext
    refine ⟨?_, hitems.2, h.closeError⟩
    rintro _ ⟨⟩
    exact hitems.1
  · cases hnext
    exact ⟨nofun, h⟩

theorem close {error : Option Value} {c' : Cursor} (h : c.Clean) (hclose : c.close = (error, c')) :
    (∀ e, error = some e → e.Clean) ∧ c'.Clean := by
  cases hclose
  exact ⟨h.closeError, h.rest, nofun⟩

end Cursor.Clean

namespace Heap.Clean

variable {h : Heap}

/-- Nothing can be read off an empty heap. -/
theorem empty : Heap.empty.Clean where
  property := nofun
  settlement _ := trivial
  cursor _ := ⟨nofun, nofun⟩

/-- Identities hold no values. -/
theorem fresh (hh : h.Clean) (n : Nat) : ({ h with identities := n } : Heap).Clean :=
  ⟨hh.property, hh.settlement, hh.cursor⟩

theorem newIterator {c : Cursor} (hh : h.Clean) (hc : c.Clean) :
    ({ h with iterators := h.iterators.push c } : Heap).Clean where
  property := hh.property
  settlement := hh.settlement
  cursor id := by
    have hcursor := hh.cursor id
    unfold Heap.cursor at hcursor ⊢
    rw [Array.getElem?_push]
    split
    · exact hc
    · exact hcursor

theorem setIterator {c : Cursor} (hh : h.Clean) (id : Nat) (hc : c.Clean) :
    ({ h with iterators := h.iterators.setIfInBounds id c } : Heap).Clean where
  property := hh.property
  settlement := hh.settlement
  cursor id' := by
    have hcursor := hh.cursor id'
    unfold Heap.cursor at hcursor ⊢
    rw [Array.getElem?_setIfInBounds]
    split
    · split
      · exact hc
      · exact ⟨nofun, nofun⟩
    · exact hcursor

theorem newObject {ps : Properties} (hh : h.Clean) (hps : ∀ p ∈ ps, p.2.Clean) :
    ({ h with objects := h.objects.push ps } : Heap).Clean where
  property id key v hv := by
    obtain ⟨ps', hps', hv'⟩ := Option.bind_eq_some_iff.mp hv
    rw [Array.getElem?_push] at hps'
    split at hps'
    · obtain rfl := Option.some.inj hps'
      obtain ⟨xs, ys, heq, -⟩ := List.lookup_eq_some_iff.mp hv'
      exact hps (key, v) (by rw [heq]; exact List.mem_append_right _ List.mem_cons_self)
    · exact hh.property id key v (Option.bind_eq_some_iff.mpr ⟨ps', hps', hv'⟩)
  settlement := hh.settlement
  cursor := hh.cursor

theorem newPromise {s : Settlement} (hh : h.Clean) (hs : s.Clean) :
    ({ h with promises := h.promises.push s } : Heap).Clean where
  property := hh.property
  settlement id := by
    have hsettlement := hh.settlement id
    unfold Heap.settlement at hsettlement ⊢
    rw [Array.getElem?_push]
    split
    · exact hs
    · exact hsettlement
  cursor := hh.cursor

end Heap.Clean

/-! ### Hosts -/

/-- What can be read off the heap of a world is clean. What a host keeps for itself cannot
be read. -/
abbrev World.Clean {σ : Type} (w : World σ) : Prop := w.heap.Clean

/-- All globals are clean. -/
def Globals.Clean (gs : Globals) : Prop := ∀ g ∈ gs, g.2.Clean

theorem Globals.Clean.get? {gs : Globals} {name : String} {v : Value} (h : gs.Clean)
    (hv : gs.get? name = some v) : v.Clean := by
  obtain ⟨xs, ys, heq, -⟩ := List.lookup_eq_some_iff.mp hv
  exact h (name, v) (by rw [heq]; exact List.mem_append_right _ List.mem_cons_self)

/-- Functions that are called on what is clean leave and yield what is clean. -/
def Host.Clean {σ : Type} (host : Host σ) : Prop :=
  ∀ f receiver args w, receiver.Clean → (∀ v ∈ args, v.Clean) → World.Clean w →
    Value.CleanResult ((host f receiver args).settle w).1 ∧ World.Clean ((host f receiver args).settle w).2

/-- What a host does and passes in is clean. -/
structure Surroundings.Clean {σ : Type} (Ω : Surroundings σ) : Prop where
  host : Host.Clean Ω.host
  supplied : ∀ v, Ω.supplies v → v.Clean
  allowed : ∀ world globals, Ω.allows world globals → World.Clean world ∧ globals.Clean

/-- A wrapper of a clean function is clean. -/
theorem Callable.call_clean {σ : Type} {host : Host σ} (hhost : Host.Clean host) :
    ∀ (f : Callable) {receiver : Value} {args : List Value} {w w' : World σ} {result : Except Value Value},
      receiver.Clean → (∀ v ∈ args, v.Clean) → World.Clean w →
      (f.call host receiver args).settle w = (result, w') →
      Value.CleanResult result ∧ World.Clean w'
  | .host f, receiver, args, w, w', result, hreceiver, hargs, hw, hcall => by
    have hclean := hhost f receiver args w hreceiver hargs hw
    rw [Callable.call] at hcall
    rwa [hcall] at hclean
  | .settling id inner, receiver, args, w, w', result, hreceiver, _, hw, hcall => by
    have hinner : ∀ {result : Except Value Value} {w' : World σ},
        (inner.call host receiver []).settle w = (result, w') →
          Value.CleanResult result ∧ World.Clean w' := fun hx =>
      inner.call_clean hhost hreceiver (fun _ h => absurd h List.not_mem_nil) hw hx
    have hsettle : ∀ r, inner.call host receiver [] w = r → Guest.settle (fun _ => r) w =
        (inner.call host receiver []).settle w := by
      rintro _ rfl
      rfl
    cases hx : inner.call host receiver [] w with
    | ok v w'' =>
      obtain ⟨-, hw''⟩ := hinner (hsettle _ hx).symm
      simp only [Callable.call, Guest.settle, hx] at hcall
      cases hcall
      exact ⟨.ok (.atom rfl), hw''.newPromise .undefined⟩
    | error e w'' =>
      obtain ⟨hresult, hw''⟩ := hinner (hsettle _ hx).symm
      simp only [Callable.call, Guest.settle, hx] at hcall
      cases hcall
      exact ⟨.ok (.atom rfl), hw''.newPromise (hresult e (.inr rfl))⟩

/-! ### Events -/

/-- The value of an answer. -/
def Answer.value : Answer → Value
  | next v | throw v | ret v => v

theorem Answer.value?_mode (a : Answer) : a.mode.value? = some a.value := by cases a <;> rfl

/-- An answer is accepted as it is, or a value is its own answer. -/
theorem Suspension.accept_clean {p : Suspension} {a : Answer} (hp : p.value.Clean) (ha : a.value.Clean) :
    (p.accept a).value.Clean := by
  cases p with
  | yield v => exact ha
  | await v => cases v <;> cases a <;> first | exact ha | exact hp

/-- The closing signal does not occur in an event. -/
def Event.Clean : Event → Prop
  | call _ _ receiver args result =>
    receiver.Clean ∧ (∀ v ∈ args, v.Clean) ∧ Value.CleanResult result
  | next _ item => ∀ v, item = some v → v.Clean
  | close _ error => ∀ e, error = some e → e.Clean
  | register r => r.Clean
  | exitScope left => ∀ r ∈ left, r.Clean
  | suspend p => p.value.Clean
  | resume a => a.value.Clean
  | raise e => e.Clean
  | returns v => v.Clean

/-- A call is started or resumed with, and where, what is clean. -/
structure Resume.Clean {σ : Type} (mode : Resume) (world : World σ) (globals : Globals) :
    Prop where
  value : ∀ v, mode.value? = some v → v.Clean
  world : World.Clean world
  globals : globals.Clean

end ResourceMachine
