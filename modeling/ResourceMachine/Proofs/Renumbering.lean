/-
# Renumbered worlds

Entities that never change carry their contents, and a number that nobody can read: all
that can be told is whether two of them are one. Two worlds are the same up to renumbering
if they differ in these numbers alone. Whatever lives on the heap stands at the same place
in both, and the host's states stand for one another as the host says. A host is blind if
its functions, called alike in such worlds, do the same: then no program can tell them
apart either.

Unlike `Heap.Alike`, this relates heaps as wholes, and leaves it to the host what its
functions write.

Key definitions: `Heap.Renumbered`, `World.Renumbered`, `Tandem`, `Host.Blind`.
Key theorems: `Heap.Renumbered.fresh`, `Heap.Renumbered.use`, `createResource_tandem`,
`Callable.call_tandem`.
-/
import ResourceMachine.Proofs.Likeness

namespace ResourceMachine

variable {σ ε κ S α β γ δ : Type} {ρ ρ' : Pairing}

/-! ### Heaps -/

/-- The same keys, in the same order, hold what is alike. -/
abbrev Value.EntriesAlike (ρ : Pairing) : List (κ × Value) → List (κ × Value) → Prop :=
  List.Forall₂ fun p q => p.1 = q.1 ∧ p.2.Alike ρ q.2

/-- Heaps are the same but for the numbers of entities that never change. -/
structure Heap.Renumbered (ρ : Pairing) (h h' : Heap) : Prop where
  still : ∀ {realm}, realm ≠ .constant → ∀ {a b}, ρ realm a b ↔ a = b
  known : ∀ {a b}, ρ .constant a b → a < h.identities ∧ b < h'.identities
  oneToOne : ρ.OneToOne
  objects : List.Forall₂ (Value.EntriesAlike ρ) h.objects.toList h'.objects.toList
  promises : List.Forall₂ (Settlement.Alike ρ) h.promises.toList h'.promises.toList
  iterators : List.Forall₂ (Cursor.Alike ρ) h.iterators.toList h'.iterators.toList

theorem Value.EntriesAlike.mono (h : ρ ≤ ρ') {ps qs : List (κ × Value)}
    (hps : Value.EntriesAlike ρ ps qs) : Value.EntriesAlike ρ' ps qs :=
  hps.imp fun _ _ hp => ⟨hp.1, hp.2.mono h⟩

/-- What stands under a key is alike. -/
theorem Value.EntriesAlike.lookup [BEq κ] {ps qs : List (κ × Value)} (h : Value.EntriesAlike ρ ps qs)
    (key : κ) : Option.Rel (Value.Alike ρ) (ps.lookup key) (qs.lookup key) := by
  induction h with
  | nil => exact .none
  | @cons p q ps qs hp _ ih =>
    obtain ⟨key', v⟩ := p
    obtain ⟨key'', w⟩ := q
    obtain ⟨rfl, hvw⟩ := hp
    rw [List.lookup_cons, List.lookup_cons]
    cases key == key' with
    | true => exact .some hvw
    | false => exact ih

/-- Where lists are alike one by one, so are their elements at a place. -/
theorem getElem?_rel {R : α → β → Prop} {as : List α} {bs : List β} (h : List.Forall₂ R as bs) (k : Nat) :
    Option.Rel R as[k]? bs[k]? := by
  induction h generalizing k with
  | nil => exact .none
  | cons hab _ ih =>
    cases k with
    | zero => exact .some hab
    | succ k => exact ih k

theorem forall₂_set {R : α → β → Prop} {as : List α} {bs : List β} (h : List.Forall₂ R as bs) (k : Nat)
    {a : α} {b : β} (hab : R a b) : List.Forall₂ R (as.set k a) (bs.set k b) := by
  induction h generalizing k with
  | nil => exact .nil
  | cons hcd hrest ih =>
    cases k with
    | zero => exact .cons hab hrest
    | succ k => exact .cons hcd (ih k)

namespace Heap.Renumbered

variable {h h' : Heap} {a b : Nat}

theorem object_iff (hr : Renumbered ρ h h') : ρ .object a b ↔ a = b := hr.still (by simp)

theorem promise_iff (hr : Renumbered ρ h h') : ρ .promise a b ↔ a = b := hr.still (by simp)

theorem iterator_iff (hr : Renumbered ρ h h') : ρ .iterator a b ↔ a = b := hr.still (by simp)

theorem property? (hr : Renumbered ρ h h') (a : Nat) (key : PropertyKey) :
    Option.Rel (Value.Alike ρ) (h.property? a key) (h'.property? a key) := by
  have hobject := getElem?_rel hr.objects a
  simp only [Array.getElem?_toList] at hobject
  unfold Heap.property?
  generalize h.objects[a]? = ps at hobject
  generalize h'.objects[a]? = qs at hobject
  cases hobject with
  | none => exact .none
  | some hps => exact Value.EntriesAlike.lookup hps key

theorem settlement (hr : Renumbered ρ h h') (a : Nat) : (h.settlement a).Alike ρ (h'.settlement a) := by
  have hpromise := getElem?_rel hr.promises a
  simp only [Array.getElem?_toList] at hpromise
  unfold Heap.settlement
  generalize h.promises[a]? = s at hpromise
  generalize h'.promises[a]? = t at hpromise
  cases hpromise with
  | none => exact .pending
  | some hst => exact hst

theorem cursor (hr : Renumbered ρ h h') (a : Nat) : (h.cursor a).Alike ρ (h'.cursor a) := by
  have hiterator := getElem?_rel hr.iterators a
  simp only [Array.getElem?_toList] at hiterator
  unfold Heap.cursor
  generalize h.iterators[a]? = c at hiterator
  generalize h'.iterators[a]? = d at hiterator
  cases hiterator with
  | none => exact ⟨.nil, rfl, rfl, .none⟩
  | some hcd => exact hcd

/-- Numbers are used up on both sides, each time as many as it takes. -/
theorem use (hr : Renumbered ρ h h') (m n : Nat) :
    Renumbered ρ { h with identities := h.identities + m } { h' with identities := h'.identities + n } :=
  { hr with
    known := fun hab => ⟨Nat.lt_add_right m (hr.known hab).1, Nat.lt_add_right n (hr.known hab).2⟩ }

/-- Each side makes an entity that never changes, and the two stand for one another. -/
theorem fresh (hr : Renumbered ρ h h') :
    Renumbered (ρ.add .constant h.identities h'.identities) { h with identities := h.identities + 1 }
      { h' with identities := h'.identities + 1 } where
  still hne := by
    intro a b
    refine ⟨fun hab => (hr.still hne).mp ?_, fun hab => .inl ((hr.still hne).mpr hab)⟩
    rcases hab with hab | ⟨rfl, -⟩
    · exact hab
    · exact absurd rfl hne
  known := by
    rintro a b (hab | ⟨-, rfl, rfl⟩)
    · exact ((hr.use 1 1).known hab :)
    · exact ⟨Nat.lt_succ_self _, Nat.lt_succ_self _⟩
  oneToOne := by
    rintro realm a b a' b' (hab | ⟨rfl, rfl, rfl⟩) (hab' | ⟨hrealm, rfl, rfl⟩)
    · exact hr.oneToOne realm a b a' b' hab hab'
    · subst hrealm
      have := hr.known hab
      omega
    · have := hr.known hab'
      omega
    · exact ⟨fun _ => rfl, fun _ => rfl⟩
  objects := hr.objects.imp fun _ _ h => h.mono (ρ.le_add _ _ _)
  promises := hr.promises.imp fun _ _ h => h.mono (ρ.le_add _ _ _)
  iterators := hr.iterators.imp fun _ _ h => h.mono (ρ.le_add _ _ _)

theorem pushPromise (hr : Renumbered ρ h h') {s t : Settlement} (hst : s.Alike ρ t) :
    Renumbered ρ { h with promises := h.promises.push s } { h' with promises := h'.promises.push t } :=
  { hr with
    promises := by
      simp only [Array.toList_push]
      exact List.rel_append hr.promises (.cons hst .nil) }

theorem pushIterator (hr : Renumbered ρ h h') {c d : Cursor} (hcd : c.Alike ρ d) :
    Renumbered ρ { h with iterators := h.iterators.push c } { h' with iterators := h'.iterators.push d } :=
  { hr with
    iterators := by
      simp only [Array.toList_push]
      exact List.rel_append hr.iterators (.cons hcd .nil) }

theorem setIterator (hr : Renumbered ρ h h') (a : Nat) {c d : Cursor} (hcd : c.Alike ρ d) :
    Renumbered ρ { h with iterators := h.iterators.setIfInBounds a c }
      { h' with iterators := h'.iterators.setIfInBounds a d } :=
  { hr with
    iterators := by
      simp only [Array.toList_setIfInBounds]
      exact forall₂_set hr.iterators a hcd }

theorem iterators_size (hr : Renumbered ρ h h') : h.iterators.size = h'.iterators.size := by
  simpa using hr.iterators.length_eq

theorem promises_size (hr : Renumbered ρ h h') : h.promises.size = h'.promises.size := by
  simpa using hr.promises.length_eq

end Heap.Renumbered

/-! ### Computations in tandem -/

/-- Where two computations have ended that started alike: both with values as `Q` says, or
both with errors as `E` says, and more entities stand for one another than before. -/
inductive Matched (L : Pairing → S → S → Prop) (ρ : Pairing) (E : Pairing → ε → ε → Prop)
    (Q : Pairing → α → β → Prop) : EStateM.Result ε S α → EStateM.Result ε S β → Prop
  | ok {ρ' : Pairing} {x : α} {y : β} {t₁ t₂ : S} (le : ρ ≤ ρ') (like : L ρ' t₁ t₂) (same : Q ρ' x y) :
      Matched L ρ E Q (.ok x t₁) (.ok y t₂)
  | error {ρ' : Pairing} {x y : ε} {t₁ t₂ : S} (le : ρ ≤ ρ') (like : L ρ' t₁ t₂) (same : E ρ' x y) :
      Matched L ρ E Q (.error x t₁) (.error y t₂)

/-- Computations that go on where others ended alike. -/
theorem Matched.tail {L : Pairing → S → S → Prop} {E : Pairing → ε → ε → Prop} {Q : Pairing → α → β → Prop}
    {r₁ : EStateM.Result ε S α} {r₂ : EStateM.Result ε S β} (h : Matched L ρ' E Q r₁ r₂) (hle : ρ ≤ ρ') :
    Matched L ρ E Q r₁ r₂ := by
  cases h with
  | ok le like same => exact .ok (hle.trans le) like same
  | error le like same => exact .error (hle.trans le) like same

/-- Two computations do the same in states that are alike. -/
def Tandem (L : Pairing → S → S → Prop) (ρ : Pairing) (E : Pairing → ε → ε → Prop)
    (Q : Pairing → α → β → Prop) (m₁ : EStateM ε S α) (m₂ : EStateM ε S β) : Prop :=
  ∀ s₁ s₂, L ρ s₁ s₂ → Matched L ρ E Q (m₁ s₁) (m₂ s₂)

namespace Tandem

variable {L : Pairing → S → S → Prop} {E : Pairing → ε → ε → Prop} {P : Pairing → α → β → Prop}
  {Q : Pairing → γ → δ → Prop} {m₁ : EStateM ε S α} {m₂ : EStateM ε S β}
  {k₁ : α → EStateM ε S γ} {k₂ : β → EStateM ε S δ}

theorem pure {x : α} {y : β} (h : P ρ x y) :
    Tandem L ρ E P (Pure.pure x : EStateM ε S α) (Pure.pure y) := fun _ _ hL => .ok (le_refl _) hL h

theorem throw {x y : ε} (h : E ρ x y) :
    Tandem L ρ E P (MonadExcept.throw x : EStateM ε S α) (MonadExcept.throw y) :=
  fun _ _ hL => .error (le_refl _) hL h

theorem bind (hm : Tandem L ρ E P m₁ m₂)
    (hk : ∀ ρ' x y, ρ ≤ ρ' → P ρ' x y → Tandem L ρ' E Q (k₁ x) (k₂ y)) :
    Tandem L ρ E Q (m₁ >>= k₁) (m₂ >>= k₂) := by
  intro s₁ s₂ hL
  have hmatched := hm s₁ s₂ hL
  show Matched L ρ E Q (EStateM.bind m₁ k₁ s₁) (EStateM.bind m₂ k₂ s₂)
  unfold EStateM.bind
  match m₁ s₁, m₂ s₂, hmatched with
  | _, _, .error le like same => exact .error le like same
  | .ok x t₁, .ok y t₂, .ok le like same =>
    exact (hk _ x y le same t₁ t₂ like).tail le

theorem map {f₁ : α → γ} {f₂ : β → δ} (hm : Tandem L ρ E P m₁ m₂)
    (hf : ∀ ρ' x y, ρ ≤ ρ' → P ρ' x y → Q ρ' (f₁ x) (f₂ y)) :
    Tandem L ρ E Q (f₁ <$> m₁) (f₂ <$> m₂) :=
  hm.bind fun ρ' x y hle h => pure (hf ρ' x y hle h)

end Tandem

/-! ### Operations on heaps -/

namespace Heap

variable {E : Pairing → ε → ε → Prop}

theorem freshId_tandem :
    Tandem Renumbered ρ E (fun ρ' a b => ρ' .constant a b) (freshId : OnHeap ε Nat) freshId :=
  fun _ _ hr => .ok (ρ.le_add _ _ _) hr.fresh (.inr ⟨rfl, rfl, rfl⟩)

theorem newError_tandem (kind : ErrorKind) (message : String) :
    Tandem Renumbered ρ E Value.Alike (newError kind message : OnHeap ε Value) (newError kind message) :=
  freshId_tandem.bind fun _ _ _ _ hid => .pure (.error hid)

theorem newSuppressed_tandem {v v' w w' : Value} (hv : v.Alike ρ v') (hw : w.Alike ρ w') :
    Tandem Renumbered ρ E Value.Alike (newSuppressed v w : OnHeap ε Value) (newSuppressed v' w') :=
  freshId_tandem.bind fun _ _ _ hle hid => .pure (.suppressed hid (hv.mono hle) (hw.mono hle))

theorem newSettling_tandem {f g : Callable} (hf : f.Alike ρ g) :
    Tandem Renumbered ρ E Value.Alike (newSettling f : OnHeap ε Value) (newSettling g) :=
  freshId_tandem.bind fun _ _ _ hle hid => .pure (.function (.settling hid (hf.mono hle)))

theorem getProperty_tandem {a b : Nat} (hab : ρ .object a b) (key : PropertyKey) :
    Tandem Renumbered ρ E Value.Alike (getProperty a key : OnHeap ε Value) (getProperty b key) := by
  intro h h' hr
  obtain rfl := hr.object_iff.mp hab
  exact .ok (le_refl _) hr (Value.optAlike_getD (hr.property? a key))

theorem newPromise_tandem {s t : Settlement} (hst : s.Alike ρ t) :
    Tandem Renumbered ρ E Value.Alike (newPromise s : OnHeap ε Value) (newPromise t) :=
  fun _ _ hr => .ok (le_refl _) (hr.pushPromise hst) (.promise (hr.promise_iff.mpr hr.promises_size))

end Heap

/-! ### Registration -/

section

variable {v w : Value}

theorem throwTypeError_tandem {Q : Pairing → α → β → Prop} (message : String) :
    Tandem Heap.Renumbered ρ Value.Alike Q (throwTypeError message : OnHeap Value α)
      (throwTypeError message : OnHeap Value β) :=
  (Heap.newError_tandem .typeError message).bind fun _ _ _ _ h => .throw h

theorem callable_tandem (h : v.Alike ρ w) (hint : Hint) :
    Tandem Heap.Renumbered ρ Value.Alike Callable.Alike (callable v hint) (callable w hint) := by
  cases h with
  | function hf => exact .pure hf
  | @primitive v hv =>
    cases v
    case function => cases hv
    all_goals exact throwTypeError_tandem _
  | _ => exact throwTypeError_tandem _

theorem ownMethod_tandem {a b : Nat} (hab : ρ .object a b) (hint : Hint) :
    Tandem Heap.Renumbered ρ Value.Alike (fun ρ' => Option.Rel (Callable.Alike ρ')) (ownMethod a hint)
      (ownMethod b hint) := by
  refine (Heap.getProperty_tandem hab _).bind fun ρ' v w _ h => ?_
  rw [h.isNullish_eq]
  split
  · exact .pure .none
  · exact (callable_tandem h hint).map fun _ _ _ _ hf => .some hf

theorem disposeMethod_tandem (h : v.Alike ρ w) (hint : Hint) :
    Tandem Heap.Renumbered ρ Value.Alike (fun ρ' => Option.Rel (Value.Alike ρ')) (disposeMethod v hint)
      (disposeMethod w hint) := by
  cases h with
  | @object a b hab =>
    refine (ownMethod_tandem hab hint).bind fun ρ' f g hle hfg => ?_
    cases hfg with
    | some hfg =>
      cases hint <;> exact .pure (.some (.function hfg))
    | none =>
      cases hint with
      | sync => exact .pure .none
      | async =>
        refine (ownMethod_tandem (hle _ _ _ hab) .sync).bind fun ρ'' f g _ hfg => ?_
        cases hfg with
        | some hfg => exact (Heap.newSettling_tandem hfg).map fun _ _ _ _ hv => .some hv
        | none => exact .pure .none
  | @primitive v hv =>
    cases v
    case object => cases hv
    all_goals exact .pure .none
  | _ => exact .pure .none

theorem createResource_tandem (h : v.Alike ρ w) (hint : Hint) :
    Tandem Heap.Renumbered ρ Value.Alike (fun ρ' => Option.Rel (Record.Alike ρ')) (createResource v hint)
      (createResource w hint) := by
  cases h with
  | @object a b hab =>
    refine (disposeMethod_tandem (.object hab) hint).bind fun ρ' m n hle hm => ?_
    cases hm with
    | some hm => exact .pure (.some ⟨.object (hle _ _ _ hab), rfl, .some hm⟩)
    | none => exact throwTypeError_tandem _
  | @primitive v hv =>
    cases v
    case undefined | null =>
      cases hint with
      | sync => exact .pure .none
      | async => exact .pure (.some ⟨.undefined, rfl, .none⟩)
    case object => cases hv
    all_goals exact throwTypeError_tandem _
  | _ => exact throwTypeError_tandem _

end

/-! ### Hosts -/

/-- Worlds are the same but for the numbers of entities that never change; the states of
the host stand for one another as `same` says. -/
structure World.Renumbered (same : Pairing → σ → σ → Prop) (ρ : Pairing) (w w' : World σ) : Prop where
  heap : Heap.Renumbered ρ w.heap w'.heap
  host : same ρ w.host w'.host

/-- A host whose functions do not read the numbers of entities that never change: called
alike in worlds that differ in these alone, they do the same. They may do anything else. -/
structure Host.Blind (host : Host σ) (same : Pairing → σ → σ → Prop) : Prop where
  mono : ∀ {ρ ρ' : Pairing} {s s' : σ}, ρ ≤ ρ' → same ρ s s' → same ρ' s s'
  call : ∀ (f : HostFunction) {ρ : Pairing} {r r' : Value} {args args' : List Value}, r.Alike ρ r' →
    Value.AllAlike ρ args args' →
    Tandem (World.Renumbered same) ρ Value.Alike Value.Alike (host f r args) (host f r' args')

section

variable {same : Pairing → σ → σ → Prop} {host : Host σ} {E : Pairing → ε → ε → Prop}
  {Q : Pairing → α → β → Prop}

theorem Host.Blind.onHeap (hhost : host.Blind same) {m₁ : OnHeap ε α} {m₂ : OnHeap ε β}
    (h : Tandem Heap.Renumbered ρ E Q m₁ m₂) :
    Tandem (World.Renumbered same) ρ E Q (World.onHeap m₁ : EStateM ε (World σ) α) (World.onHeap m₂) := by
  rintro ⟨h₁, s₁⟩ ⟨h₂, s₂⟩ hr
  have hmatched := h h₁ h₂ hr.heap
  simp only [World.onHeap]
  generalize m₁ h₁ = r₁ at hmatched ⊢
  generalize m₂ h₂ = r₂ at hmatched ⊢
  cases hmatched with
  | ok le like same => exact .ok le ⟨like, hhost.mono le hr.host⟩ same
  | error le like same => exact .error le ⟨like, hhost.mono le hr.host⟩ same

/-- Functions that are alike, called alike by a blind host, do the same. -/
theorem Callable.call_tandem (hhost : host.Blind same) {f g : Callable} (hf : f.Alike ρ g) {r r' : Value}
    {args args' : List Value} (hr : r.Alike ρ r') (hargs : Value.AllAlike ρ args args') :
    Tandem (World.Renumbered same) ρ Value.Alike Value.Alike (f.call host r args) (g.call host r' args') := by
  induction hf generalizing args args' with
  | host f => exact hhost.call f hr hargs
  | @settling i j f g _ _ ih =>
    intro w w' hw
    have hmatched := @ih [] [] .nil w w' hw
    have hsettles {ρ' : Pairing} {s t : Settlement} (hst : s.Alike ρ' t) :=
      hhost.onHeap (E := Value.Alike) (Heap.newPromise_tandem hst)
    simp only [Callable.call, Guest.settle]
    generalize f.call host r [] w = r₁ at hmatched ⊢
    generalize g.call host r' [] w' = r₂ at hmatched ⊢
    cases hmatched with
    | ok le like same => exact (hsettles (.fulfilled .undefined) _ _ like).tail le
    | error le like same => exact (hsettles (.rejected same) _ _ like).tail le

end

end ResourceMachine
