/-
# What a declaration registers

To register a value, a declaration looks at the heap for a dispose method. That changes
the heap only by new identities, and ends with a resource that can be disposed, with
none, or with an error (`Looks.createResource`).

Key definitions: `OnlyFresh`, `Looks`.
Key theorems: `Looks.bind`, `Looks.createResource`.
-/
import ResourceMachine.Proofs.Phases

namespace ResourceMachine

/-- Looking for a method changes nothing but the number of identities. -/
def OnlyFresh (h h' : Heap) : Prop := ∃ n, h' = { h with identities := n }

theorem OnlyFresh.stable : Stable OnlyFresh where
  refl h := ⟨h.identities, rfl⟩
  trans := by
    rintro _ _ _ ⟨n, rfl⟩ ⟨n', rfl⟩
    exact ⟨n', rfl⟩

/-- A look at the heap that yields what `Q` says, or throws an error. -/
def Looks {α : Type} (Q : α → Prop) (m : OnHeap Value α) : Prop := ∀ h,
  match m h with
  | .ok a h' => OnlyFresh h h' ∧ Q a
  | .error e h' => OnlyFresh h h' ∧ e.isPlain = true

namespace Looks

variable {α β : Type} {Q Q' : α → Prop} {P : β → Prop} {m : OnHeap Value α} {f : α → OnHeap Value β}

theorem pure {a : α} (h : Q a) : Looks Q (Pure.pure a) := fun _ => ⟨OnlyFresh.stable.refl _, h⟩

theorem bind (h : Looks Q m) (hf : ∀ a, Q a → Looks P (f a)) : Looks P (m >>= f) := by
  intro s
  have hm := h s
  show match EStateM.bind m f s with
    | .ok a h' => OnlyFresh s h' ∧ P a
    | .error e h' => OnlyFresh s h' ∧ e.isPlain = true
  unfold EStateM.bind
  match hx : m s, hm with
  | .ok a s', ⟨hfresh, hQ⟩ =>
    have hfa := hf a hQ s'
    match hy : f a s', hfa with
    | .ok b s'', ⟨hfresh', hP⟩ =>
      simp only [hy]
      exact ⟨OnlyFresh.stable.trans hfresh hfresh', hP⟩
    | .error e s'', ⟨hfresh', hplain⟩ =>
      simp only [hy]
      exact ⟨OnlyFresh.stable.trans hfresh hfresh', hplain⟩
  | .error e s', hm => exact hm

theorem typeError (message : String) : Looks Q (throwTypeError message) :=
  fun h => ⟨⟨h.identities + 1, rfl⟩, rfl⟩

theorem getProperty (object : Nat) (key : PropertyKey) :
    Looks (fun _ => True) (Heap.getProperty object key) := fun h => ⟨OnlyFresh.stable.refl h, trivial⟩

theorem ownMethod (object : Nat) (hint : Hint) :
    Looks (fun _ => True) (ResourceMachine.ownMethod object hint) := by
  refine .bind (getProperty _ _) fun method _ => ?_
  split
  · exact .pure trivial
  · refine .bind (Q := fun _ => True) ?_ fun _ _ => .pure trivial
    unfold callable
    split
    · exact .pure trivial
    · exact typeError _

/-- A dispose method can be called. -/
theorem disposeMethod (v : Value) (hint : Hint) :
    Looks (fun method => ∀ m, method = some m → ∃ f, m = .function f)
      (ResourceMachine.disposeMethod v hint) := by
  have hnone : ∀ m : Value, none = some m → ∃ f, m = .function f := nofun
  have hfunction : ∀ f m, some (Value.function f) = some m → ∃ f, m = .function f := by
    rintro f _ ⟨⟩
    exact ⟨f, rfl⟩
  unfold ResourceMachine.disposeMethod
  split
  · refine .bind (ownMethod _ _) fun method _ => ?_
    split
    · exact .pure (hfunction _)
    · exact .pure hnone
    · refine .bind (ownMethod _ _) fun method' _ => ?_
      cases method' with
      | some f => exact fun h => ⟨⟨h.identities + 1, rfl⟩, hfunction _⟩
      | none => exact .pure hnone
  · exact .pure hnone

/-- What a declaration registers can be disposed, or awaited if it is async. -/
theorem createResource (v : Value) (hint : Hint) :
    Looks (fun record => ∀ r, record = some r → (r.value = v ∨ r.value = .undefined) ∧ r.hint = hint ∧
      ((∃ f, r.method = some (.function f)) ∨ r.method = none ∧ r.hint = .async))
      (ResourceMachine.createResource v hint) := by
  unfold ResourceMachine.createResource
  split
  · cases hint with
    | sync => exact .pure nofun
    | async =>
      refine .pure ?_
      rintro _ ⟨⟩
      exact ⟨.inr rfl, rfl, .inr ⟨rfl, rfl⟩⟩
  · cases hint with
    | sync => exact .pure nofun
    | async =>
      refine .pure ?_
      rintro _ ⟨⟩
      exact ⟨.inr rfl, rfl, .inr ⟨rfl, rfl⟩⟩
  · refine .bind (disposeMethod _ _) fun method hmethod => ?_
    cases method with
    | some m =>
      obtain ⟨f, rfl⟩ := hmethod m rfl
      refine .pure ?_
      rintro _ ⟨⟩
      exact ⟨.inl rfl, rfl, .inl ⟨f, rfl⟩⟩
    | none => exact typeError _
  · exact typeError _

end Looks

end ResourceMachine
