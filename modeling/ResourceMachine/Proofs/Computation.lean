/-
# Computations with a state

A computation ends with a value or an error, and leaves a state either way. What
it leaves of the state is put together from what its parts leave: within a
relation that is reflexive and transitive (`Stable`), the whole stays if every
part does.

Key definitions: `stateOf`, `Within`, `Stable`.
Key theorems: `bind_eq_ok`, `bind_if_eq_ok`, `Within.bind`.
-/
namespace ResourceMachine

variable {ε σ α β : Type}

/-- The state that a computation leaves. -/
def stateOf : EStateM.Result ε σ α → σ
  | .ok _ S => S
  | .error _ S => S

/-- Whether a computation ends with a value, in a state like this. -/
def endsIn (p : σ → Bool) : EStateM.Result ε σ α → Bool
  | .ok _ S => p S
  | .error _ _ => false

theorem exists_of_endsIn {p : σ → Bool} {r : EStateM.Result ε σ α} (h : endsIn p r = true) :
    ∃ a S, r = .ok a S ∧ p S = true := by
  cases r with
  | ok a S => exact ⟨a, S, rfl, h⟩
  | error e S => cases h

/-- Reading the state, and changing it. -/
theorem get_apply (S : σ) : (get : EStateM ε σ σ) S = .ok S S := rfl

theorem modify_apply (f : σ → σ) (S : σ) : (modify f : EStateM ε σ PUnit) S = .ok ⟨⟩ (f S) := rfl

/-- A result that is made from another one is a value if both are. -/
theorem except_bind_eq_ok {m : Except ε α} {f : α → Except ε β} {b : β} :
    m >>= f = .ok b ↔ ∃ a, m = .ok a ∧ f a = .ok b := by
  cases m with
  | ok a => simp [bind, Except.bind]
  | error e => simp [bind, Except.bind]

/-- A result that has a value is that value. -/
theorem ok_of_toOption {m : Except ε α} {a : α} (h : m.toOption = some a) : m = .ok a := by
  cases m with
  | ok b => exact congrArg Except.ok (Option.some.inj h)
  | error e => cases h

/-- A computation that goes on with the value of another one ends with a value if
both do. -/
theorem bind_eq_ok {m : EStateM ε σ α} {f : α → EStateM ε σ β} {b : β} {S T : σ} :
    (m >>= f) S = .ok b T ↔ ∃ a S', m S = .ok a S' ∧ f a S' = .ok b T := by
  show EStateM.bind m f S = _ ↔ _
  unfold EStateM.bind
  cases m S with
  | ok a S' => exact ⟨fun h => ⟨a, S', rfl, h⟩, fun ⟨_, _, h, h'⟩ => by cases h; exact h'⟩
  | error i S' => exact ⟨nofun, nofun⟩

theorem bind_of_ok {m : EStateM ε σ α} {f : α → EStateM ε σ β} {a : α} {S T : σ} (h : m S = .ok a T) :
    (m >>= f) S = f a T := by
  show EStateM.bind m f S = _
  unfold EStateM.bind
  rw [h]

theorem bind_of_error {m : EStateM ε σ α} {f : α → EStateM ε σ β} {e : ε} {S T : σ}
    (h : m S = .error e T) : (m >>= f) S = .error e T := by
  show EStateM.bind m f S = _
  unfold EStateM.bind
  rw [h]

/-- A computation with a part that may be left out ends with a value if that part,
if there is any, and the rest do. -/
theorem bind_if_eq_ok {c : Bool} {m : EStateM ε σ Unit} {f : Unit → EStateM ε σ β} {b : β}
    {S T : σ} (h : (if c = true then m >>= f else f ()) S = .ok b T) :
    ∃ S', (if c = true then m else pure ()) S = .ok () S' ∧ f () S' = .ok b T := by
  cases c with
  | false => exact ⟨S, rfl, h⟩
  | true =>
    obtain ⟨_, S', hm, hf⟩ := bind_eq_ok.mp h
    exact ⟨S', hm, hf⟩

/-- A computation changes its state only within a relation. -/
def Within (r : σ → σ → Prop) (m : EStateM ε σ α) : Prop := ∀ S, r S (stateOf (m S))

/-- A relation within which computations can be put together. -/
structure Stable (r : σ → σ → Prop) : Prop where
  refl : ∀ S, r S S
  trans : ∀ {S T U}, r S T → r T U → r S U

namespace Within

variable {r r' : σ → σ → Prop} {m : EStateM ε σ α} {f : α → EStateM ε σ β}

theorem pure (hr : Stable r) (a : α) : Within r (Pure.pure a : EStateM ε σ α) :=
  fun S => hr.refl S

theorem throw (hr : Stable r) (e : ε) : Within r (MonadExcept.throw e : EStateM ε σ α) :=
  fun S => hr.refl S

theorem bind (hr : Stable r) (h : Within r m) (hf : ∀ a, Within r (f a)) : Within r (m >>= f) := by
  intro S
  have hm := h S
  show r S (stateOf (EStateM.bind m f S))
  unfold EStateM.bind
  cases hx : m S with
  | ok a S' =>
    rw [hx] at hm
    exact hr.trans hm (hf a S')
  | error i S' =>
    rw [hx] at hm
    exact hm

theorem mono (h : Within r m) (hr : ∀ {S T}, r S T → r' S T) : Within r' m := fun S => hr (h S)

/-- What is read from the state changes nothing. -/
theorem get (hr : Stable r) : Within r (MonadState.get : EStateM ε σ σ) := fun S => hr.refl S

theorem modify {g : σ → σ} (h : ∀ S, r S (g S)) : Within r (modify g : EStateM ε σ PUnit) := h

/-- The state that a computation ends with is in the relation. -/
theorem of_ok {a : α} {S T : σ} (h : Within r m) (hm : m S = .ok a T) : r S T := by
  have := h S
  rwa [hm] at this

end Within
end ResourceMachine
