/-
# Heaps that are alike

What a program can tell of an entity is what it is, what it holds, and whether it is the
same as another; its number it cannot see. So two heaps may stand for one another although
their entities are numbered differently: a pairing says which entity of one stands for
which entity of the other. It grows as both sides make new entities. What is alike under a
pairing stays alike when it grows, and whatever else happens to the entities that are not
paired.

A host is pure if its functions, called on what is alike, do what is alike.

Key definitions: `Pairing`, `Value.Alike`, `Heap.Alike`, `Heap.Outgrows`, `Pairing.Grows`,
`Corresponds`, `Host.Pure`.
Key theorems: `Value.Alike.mono`, `Heap.Alike.outgrow`, `Callable.call_corresponds`,
`createResource_corresponds`, `Host.pure_of_answer`.
-/
import Mathlib.Data.List.Forall2
import Mathlib.Order.Basic
import ResourceMachine.Value.Disposal
import ResourceMachine.Value.Host

namespace ResourceMachine

variable {σ ε S α β : Type}

/-! ### Pairings -/

/-- What has an identity: an entity that never changes, or one of those that live on the
heap. -/
inductive Realm where
  | constant
  | object
  | promise
  | iterator

/-- The number of entities of a realm. -/
def Heap.extent (h : Heap) : Realm → Nat
  | .constant => h.identities
  | .object => h.objects.size
  | .promise => h.promises.size
  | .iterator => h.iterators.size

/-- Which entity stands for which. -/
abbrev Pairing := Realm → Nat → Nat → Prop

namespace Pairing

/-- Different entities stand for different ones. -/
def OneToOne (ρ : Pairing) : Prop :=
  ∀ realm a b a' b', ρ realm a b → ρ realm a' b' → (a = a' ↔ b = b')

/-- One more pair. -/
def add (ρ : Pairing) (realm : Realm) (a b : Nat) : Pairing :=
  fun realm' a' b' => ρ realm' a' b' ∨ realm' = realm ∧ a' = a ∧ b' = b

theorem le_add (ρ : Pairing) (realm : Realm) (a b : Nat) : ρ ≤ ρ.add realm a b :=
  fun _ _ _ => Or.inl

/-- The entities that stand for the same ones. -/
def join (ρ τ : Pairing) : Pairing := fun realm a b => ∃ c, ρ realm a c ∧ τ realm b c

theorem OneToOne.join {ρ τ : Pairing} (hρ : ρ.OneToOne) (hτ : τ.OneToOne) : (ρ.join τ).OneToOne := by
  rintro realm a b a' b' ⟨c, ha, hb⟩ ⟨c', ha', hb'⟩
  exact (hρ realm a c a' c' ha ha').trans (hτ realm b c b' c' hb hb').symm

end Pairing

/-! ### Values -/

/-- Functions of the host are the same, wrappers wrap what is alike. -/
inductive Callable.Alike (ρ : Pairing) : Callable → Callable → Prop
  | host (f : HostFunction) : Alike ρ (.host f) (.host f)
  | settling {i j : Nat} {f g : Callable} (h : ρ .constant i j) (inner : Alike ρ f g) :
      Alike ρ (.settling i f) (.settling j g)

/-- Whether a value is no entity. -/
def Value.isPrimitive : Value → Bool
  | undefined | null | bool _ | int _ | str _ | closing => true
  | _ => false

/-- Values are the same but for the numbers of entities, which stand for one another. -/
inductive Value.Alike (ρ : Pairing) : Value → Value → Prop
  | primitive {v : Value} (h : v.isPrimitive = true) : Alike ρ v v
  | object {a b : Nat} (h : ρ .object a b) : Alike ρ (.object a) (.object b)
  | function {f g : Callable} (h : f.Alike ρ g) : Alike ρ (.function f) (.function g)
  | error {a b : Nat} {kind : ErrorKind} {message : String} (h : ρ .constant a b) :
      Alike ρ (.error a kind message) (.error b kind message)
  | suppressed {a b : Nat} {error error' older older' : Value} (h : ρ .constant a b)
      (herror : Alike ρ error error') (holder : Alike ρ older older') :
      Alike ρ (.suppressed a error older) (.suppressed b error' older')
  | promise {a b : Nat} (h : ρ .promise a b) : Alike ρ (.promise a) (.promise b)
  | iterator {a b : Nat} (h : ρ .iterator a b) : Alike ρ (.iterator a) (.iterator b)
  | list {a b : Nat} {items items' : List Value} (h : ρ .constant a b)
      (hlength : items.length = items'.length)
      (hitems : ∀ {v w : Value}, (v, w) ∈ items.zip items' → Alike ρ v w) :
      Alike ρ (.list a items) (.list b items')
  | resource {a b : Nat} {value value' method method' : Value} {hint : Hint} (h : ρ .constant a b)
      (hvalue : Alike ρ value value') (hmethod : Alike ρ method method') :
      Alike ρ (.resource a ⟨value, hint, some method⟩) (.resource b ⟨value', hint, some method'⟩)
  | bare {a b : Nat} {value value' : Value} {hint : Hint} (h : ρ .constant a b)
      (hvalue : Alike ρ value value') :
      Alike ρ (.resource a ⟨value, hint, none⟩) (.resource b ⟨value', hint, none⟩)

/-- Several values are alike, one by one. -/
abbrev Value.AllAlike (ρ : Pairing) : List Value → List Value → Prop := List.Forall₂ (Value.Alike ρ)

/-- Records are the same but for the numbers of entities. -/
structure Record.Alike (ρ : Pairing) (r s : Resource) : Prop where
  value : r.value.Alike ρ s.value
  hint : r.hint = s.hint
  method : Option.Rel (Value.Alike ρ) r.method s.method

section

variable {ρ τ : Pairing}

theorem Callable.Alike.mono (h : ρ ≤ τ) {f g : Callable} (hfg : f.Alike ρ g) : f.Alike τ g := by
  induction hfg with
  | host f => exact .host f
  | settling hid _ ih => exact .settling (h _ _ _ hid) ih

theorem Callable.Alike.join {f g k : Callable} (h : f.Alike ρ k) (h' : g.Alike τ k) :
    f.Alike (ρ.join τ) g := by
  induction h generalizing g with
  | host f => cases h'; exact .host f
  | settling hid _ ih =>
    cases h' with
    | settling hid' inner => exact .settling ⟨_, hid, hid'⟩ (ih inner)

namespace Value.Alike

variable {v w : Value}

/-- What is alike stays so when more entities are paired. -/
theorem mono (h : ρ ≤ τ) (hvw : v.Alike ρ w) : v.Alike τ w := by
  induction hvw with
  | primitive hv => exact .primitive hv
  | object hid => exact .object (h _ _ _ hid)
  | function hf => exact .function (hf.mono h)
  | error hid => exact .error (h _ _ _ hid)
  | suppressed hid _ _ ihe iho => exact .suppressed (h _ _ _ hid) ihe iho
  | promise hid => exact .promise (h _ _ _ hid)
  | iterator hid => exact .iterator (h _ _ _ hid)
  | list hid hlength _ ih => exact .list (h _ _ _ hid) hlength ih
  | resource hid _ _ ihv ihm => exact .resource (h _ _ _ hid) ihv ihm
  | bare hid _ ih => exact .bare (h _ _ _ hid) ih

/-- What is alike to the same is alike. -/
theorem join {u : Value} (h : v.Alike ρ u) (h' : w.Alike τ u) : v.Alike (ρ.join τ) w := by
  induction h generalizing w with
  | primitive hv =>
    cases h' with
    | primitive => exact .primitive hv
    | _ => cases hv
  | object hid =>
    cases h' with
    | primitive hv => cases hv
    | object hid' => exact .object ⟨_, hid, hid'⟩
  | function hf =>
    cases h' with
    | primitive hv => cases hv
    | function hg => exact .function (hf.join hg)
  | error hid =>
    cases h' with
    | primitive hv => cases hv
    | error hid' => exact .error ⟨_, hid, hid'⟩
  | suppressed hid _ _ ihe iho =>
    cases h' with
    | primitive hv => cases hv
    | suppressed hid' error older => exact .suppressed ⟨_, hid, hid'⟩ (ihe error) (iho older)
  | promise hid =>
    cases h' with
    | primitive hv => cases hv
    | promise hid' => exact .promise ⟨_, hid, hid'⟩
  | iterator hid =>
    cases h' with
    | primitive hv => cases hv
    | iterator hid' => exact .iterator ⟨_, hid, hid'⟩
  | @list a b items middle hid hlength _ ih =>
    cases h' with
    | primitive hv => cases hv
    | @list _ _ items' _ hid' hlength' hitems' =>
      refine .list ⟨_, hid, hid'⟩ (hlength.trans hlength'.symm) fun {v w} hmem => ?_
      obtain ⟨i, hi, heq⟩ := List.getElem_of_mem hmem
      rw [List.getElem_zip] at heq
      obtain ⟨rfl, rfl⟩ := Prod.mk.inj heq
      have hi₁ : i < items.length := (List.lt_length_left_of_zip hi)
      have hi₂ : i < items'.length := (List.lt_length_right_of_zip hi)
      have hm : i < middle.length := hlength ▸ hi₁
      refine ih (w := middle[i]) ?_ (hitems' ?_)
      · exact List.mem_iff_getElem.mpr ⟨i, by rw [List.length_zip]; exact Nat.lt_min.mpr ⟨hi₁, hm⟩, List.getElem_zip⟩
      · exact List.mem_iff_getElem.mpr ⟨i, by rw [List.length_zip]; exact Nat.lt_min.mpr ⟨hi₂, hm⟩, List.getElem_zip⟩
  | resource hid _ _ ihv ihm =>
    cases h' with
    | primitive hv => cases hv
    | resource hid' value method => exact .resource ⟨_, hid, hid'⟩ (ihv value) (ihm method)
  | bare hid _ ih =>
    cases h' with
    | primitive hv => cases hv
    | bare hid' value => exact .bare ⟨_, hid, hid'⟩ (ih value)

/-! What can be told of a value -/

theorem isTruthy_eq (h : v.Alike ρ w) : v.isTruthy = w.isTruthy := by cases h <;> rfl

theorem isNullish_eq (h : v.Alike ρ w) : v.isNullish = w.isNullish := by cases h <;> rfl

theorem undefined : Value.undefined.Alike ρ .undefined := .primitive rfl

theorem bool (b : Bool) : (Value.bool b).Alike ρ (.bool b) := .primitive rfl

theorem int (n : Int32) : (Value.int n).Alike ρ (.int n) := .primitive rfl

theorem closing : Value.closing.Alike ρ .closing := .primitive rfl

theorem of_list {a : Nat} {items : List Value} (h : (Value.list a items).Alike ρ w) :
    ∃ b items', w = .list b items' ∧ Value.AllAlike ρ items items' := by
  cases h with
  | primitive hv => cases hv
  | list _ hlength hitems => exact ⟨_, _, rfl, List.forall₂_iff_zip.mpr ⟨hlength, hitems⟩⟩

theorem of_resource {a : Nat} {r : Resource} (h : (Value.resource a r).Alike ρ w) :
    ∃ b s, w = .resource b s ∧ r.Alike ρ s := by
  cases h with
  | primitive hv => cases hv
  | resource _ value method => exact ⟨_, _, rfl, value, rfl, .some method⟩
  | bare _ value => exact ⟨_, _, rfl, value, rfl, .none⟩

theorem of_items {a b : Nat} {items items' : List Value} (h : ρ .constant a b)
    (hitems : Value.AllAlike ρ items items') : (Value.list a items).Alike ρ (.list b items') :=
  .list h hitems.length_eq fun hmem => List.forall₂_zip hitems hmem

theorem of_record {a b : Nat} {r s : Resource} (h : ρ .constant a b) (hrs : r.Alike ρ s) :
    (Value.resource a r).Alike ρ (.resource b s) := by
  obtain ⟨value, hint, method⟩ := r
  obtain ⟨value', hint', method'⟩ := s
  obtain ⟨hvalue, rfl, hmethod⟩ := hrs
  cases hmethod with
  | some hm => exact .resource h hvalue hm
  | none => exact .bare h hvalue

end Value.Alike

theorem Value.AllAlike.mono (h : ρ ≤ τ) {vs ws : List Value} (hvs : Value.AllAlike ρ vs ws) :
    Value.AllAlike τ vs ws := hvs.imp fun _ _ hvw => hvw.mono h

theorem Value.optAlike_mono (h : ρ ≤ τ) {v w : Option Value} (hvw : Option.Rel (Value.Alike ρ) v w) :
    Option.Rel (Value.Alike τ) v w := by
  cases hvw with
  | some hvw => exact .some (hvw.mono h)
  | none => exact .none

theorem Value.optAlike_getD {v w : Option Value} (h : Option.Rel (Value.Alike ρ) v w) :
    (v.getD .undefined).Alike ρ (w.getD .undefined) := by
  cases h with
  | some hvw => exact hvw
  | none => exact .undefined

theorem Record.Alike.mono (h : ρ ≤ τ) {r s : Resource} (hrs : r.Alike ρ s) : r.Alike τ s :=
  ⟨hrs.value.mono h, hrs.hint, Value.optAlike_mono h hrs.method⟩

/-! What is alike to the same -/

/-- Lists that relate to the same list relate to one another. -/
theorem forall₂_join {R S T : α → α → Prop} (hjoin : ∀ a b c, R a c → S b c → T a b) :
    ∀ {as bs cs : List α}, List.Forall₂ R as cs → List.Forall₂ S bs cs → List.Forall₂ T as bs
  | _, _, _, .nil, .nil => .nil
  | _, _, _, .cons h hs, .cons h' hs' => .cons (hjoin _ _ _ h h') (forall₂_join hjoin hs hs')

theorem Value.AllAlike.join {us vs ws : List Value} (h : Value.AllAlike ρ us ws)
    (h' : Value.AllAlike τ vs ws) : Value.AllAlike (ρ.join τ) us vs :=
  forall₂_join (fun _ _ _ h h' => h.join h') h h'

theorem Value.optAlike_join {u v w : Option Value} (h : Option.Rel (Value.Alike ρ) u w)
    (h' : Option.Rel (Value.Alike τ) v w) : Option.Rel (Value.Alike (ρ.join τ)) u v := by
  cases h with
  | some h =>
    cases h' with
    | some h' => exact .some (h.join h')
  | none =>
    cases h' with
    | none => exact .none

theorem Record.Alike.join {r s q : Resource} (h : r.Alike ρ q) (h' : s.Alike τ q) :
    r.Alike (ρ.join τ) s :=
  ⟨h.value.join h'.value, h.hint.trans h'.hint.symm, Value.optAlike_join h.method h'.method⟩

end

/-! ### Heaps -/

/-- Promises stand alike. -/
inductive Settlement.Alike (ρ : Pairing) : Settlement → Settlement → Prop
  | pending : Alike ρ .pending .pending
  | fulfilled {v w : Value} (h : v.Alike ρ w) : Alike ρ (.fulfilled v) (.fulfilled w)
  | rejected {v w : Value} (h : v.Alike ρ w) : Alike ρ (.rejected v) (.rejected w)

/-- Iterators stand alike. -/
structure Cursor.Alike (ρ : Pairing) (c d : Cursor) : Prop where
  rest : Value.AllAlike ρ c.rest d.rest
  position : c.position = d.position
  closed : c.closed = d.closed
  closeError : Option.Rel (Value.Alike ρ) c.closeError d.closeError

/-- What is paired exists, and is alike. -/
structure Heap.Alike (ρ : Pairing) (h h' : Heap) : Prop where
  known : ∀ {realm a b}, ρ realm a b → a < h.extent realm ∧ b < h'.extent realm
  oneToOne : ρ.OneToOne
  properties : ∀ {a b}, ρ .object a b → ∀ key,
    Option.Rel (Value.Alike ρ) (h.property? a key) (h'.property? b key)
  settlements : ∀ {a b}, ρ .promise a b → (h.settlement a).Alike ρ (h'.settlement b)
  cursors : ∀ {a b}, ρ .iterator a b → (h.cursor a).Alike ρ (h'.cursor b)

/-- A heap has got more entities; of those that it had, only some iterators have changed. -/
structure Heap.Outgrows (own : Nat → Prop) (h h' : Heap) : Prop where
  extent : ∀ realm, h.extent realm ≤ h'.extent realm
  properties : ∀ {a}, a < h.extent .object → ∀ key, h'.property? a key = h.property? a key
  settlements : ∀ {a}, a < h.extent .promise → h'.settlement a = h.settlement a
  cursors : ∀ {a}, a < h.extent .iterator → ¬ own a → h'.cursor a = h.cursor a

/-- Two heaps have got more entities, and some of the new ones are paired. Of the others,
only iterators that were paired have changed. -/
structure Pairing.Grows (ρ : Pairing) (h₁ h₂ : Heap) (ρ' : Pairing) (h₁' h₂' : Heap) : Prop where
  le : ρ ≤ ρ'
  fresh : ∀ {realm a b}, ρ' realm a b → ρ realm a b ∨ h₁.extent realm ≤ a ∧ h₂.extent realm ≤ b
  left : Heap.Outgrows (fun a => ∃ b, ρ .iterator a b) h₁ h₁'
  right : ∀ realm, h₂.extent realm ≤ h₂'.extent realm

section

variable {ρ ρ' ρ'' : Pairing} {own own' : Nat → Prop} {h h' h'' h₁ h₂ h₁' h₂' h₁'' h₂'' : Heap}

theorem Settlement.Alike.mono (h : ρ ≤ ρ') {s t : Settlement} (hst : s.Alike ρ t) : s.Alike ρ' t := by
  cases hst with
  | pending => exact .pending
  | fulfilled hvw => exact .fulfilled (hvw.mono h)
  | rejected hvw => exact .rejected (hvw.mono h)

theorem Cursor.Alike.mono (h : ρ ≤ ρ') {c d : Cursor} (hcd : c.Alike ρ d) : c.Alike ρ' d :=
  ⟨hcd.rest.mono h, hcd.position, hcd.closed, Value.optAlike_mono h hcd.closeError⟩

namespace Heap.Outgrows

theorem refl (own : Nat → Prop) (h : Heap) : Heap.Outgrows own h h :=
  ⟨fun _ => Nat.le_refl _, fun _ _ => rfl, fun _ => rfl, fun _ _ => rfl⟩

theorem trans (hgo : Heap.Outgrows own h h') (hgo' : Heap.Outgrows own' h' h'')
    (hown : ∀ a, own' a → own a ∨ h.extent .iterator ≤ a) : Heap.Outgrows own h h'' where
  extent realm := Nat.le_trans (hgo.extent realm) (hgo'.extent realm)
  properties ha key :=
    (hgo'.properties (Nat.lt_of_lt_of_le ha (hgo.extent _)) key).trans (hgo.properties ha key)
  settlements ha := (hgo'.settlements (Nat.lt_of_lt_of_le ha (hgo.extent _))).trans (hgo.settlements ha)
  cursors ha hnot := by
    refine (hgo'.cursors (Nat.lt_of_lt_of_le ha (hgo.extent _)) fun hown' => ?_).trans (hgo.cursors ha hnot)
    rcases hown _ hown' with hmem | hle
    · exact hnot hmem
    · exact absurd ha (Nat.not_lt.mpr hle)

end Heap.Outgrows

/-- Heaps stay alike while one of them changes in nothing that is paired. -/
theorem Heap.Alike.outgrow (ha : Heap.Alike ρ h h'') (hgo : Heap.Outgrows own h h')
    (hown : ∀ a b, ρ .iterator a b → ¬ own a) : Heap.Alike ρ h' h'' where
  known hab := ⟨Nat.lt_of_lt_of_le (ha.known hab).1 (hgo.extent _), (ha.known hab).2⟩
  oneToOne := ha.oneToOne
  properties hab key := by
    rw [hgo.properties (ha.known hab).1]
    exact ha.properties hab key
  settlements hab := by
    rw [hgo.settlements (ha.known hab).1]
    exact ha.settlements hab
  cursors hab := by
    rw [hgo.cursors (ha.known hab).1 (hown _ _ hab)]
    exact ha.cursors hab

namespace Pairing.Grows

theorem refl (ρ : Pairing) (h₁ h₂ : Heap) : ρ.Grows h₁ h₂ ρ h₁ h₂ :=
  ⟨le_refl _, .inl, .refl _ _, fun _ => Nat.le_refl _⟩

theorem trans (hg : ρ.Grows h₁ h₂ ρ' h₁' h₂') (hg' : ρ'.Grows h₁' h₂' ρ'' h₁'' h₂'') :
    ρ.Grows h₁ h₂ ρ'' h₁'' h₂'' where
  le := hg.le.trans hg'.le
  fresh hab := by
    rcases hg'.fresh hab with hab | ⟨ha, hb⟩
    · exact hg.fresh hab
    · exact .inr ⟨Nat.le_trans (hg.left.extent _) ha, Nat.le_trans (hg.right _) hb⟩
  left := hg.left.trans hg'.left fun a ⟨b, hab⟩ => by
    rcases hg.fresh hab with hab | ⟨ha, -⟩
    · exact .inl ⟨b, hab⟩
    · exact .inr ha
  right realm := Nat.le_trans (hg.right realm) (hg'.right realm)

/-- One of the heaps changes in what others hold. -/
theorem outgrow (hg : ρ.Grows h₁ h₂ ρ' h₁' h₂') (hgo : Heap.Outgrows own h₁' h')
    (hown : ∀ a, own a → h₁.extent .iterator ≤ a) : ρ.Grows h₁ h₂ ρ' h' h₂' :=
  ⟨hg.le, hg.fresh, hg.left.trans hgo fun a ha => .inr (hown a ha), hg.right⟩

end Pairing.Grows

end

/-! ### Computations on heaps -/

/-- Where two computations have ended that did the same to heaps that are alike: their
values are as `Q` says, or their errors as `E` says. -/
inductive Agree (heap : S → Heap) (ρ : Pairing) (s₁ s₂ : S) (E : Pairing → ε → ε → Prop)
    (Q : Pairing → α → α → Prop) : EStateM.Result ε S α → EStateM.Result ε S α → Prop
  | ok {ρ' : Pairing} {x y : α} {t₁ t₂ : S} (grows : ρ.Grows (heap s₁) (heap s₂) ρ' (heap t₁) (heap t₂))
      (alike : Heap.Alike ρ' (heap t₁) (heap t₂)) (same : Q ρ' x y) :
      Agree heap ρ s₁ s₂ E Q (.ok x t₁) (.ok y t₂)
  | error {ρ' : Pairing} {x y : ε} {t₁ t₂ : S}
      (grows : ρ.Grows (heap s₁) (heap s₂) ρ' (heap t₁) (heap t₂))
      (alike : Heap.Alike ρ' (heap t₁) (heap t₂)) (same : E ρ' x y) :
      Agree heap ρ s₁ s₂ E Q (.error x t₁) (.error y t₂)

/-- A computation that goes on where another one ended that did the same. -/
theorem Agree.tail {heap : S → Heap} {ρ ρ' : Pairing} {s₁ s₂ t₁ t₂ : S} {E : Pairing → ε → ε → Prop}
    {Q : Pairing → α → α → Prop} {r₁ r₂ : EStateM.Result ε S α}
    (grows : ρ.Grows (heap s₁) (heap s₂) ρ' (heap t₁) (heap t₂)) (h : Agree heap ρ' t₁ t₂ E Q r₁ r₂) :
    Agree heap ρ s₁ s₂ E Q r₁ r₂ := by
  cases h with
  | ok grows' alike same => exact .ok (grows.trans grows') alike same
  | error grows' alike same => exact .error (grows.trans grows') alike same

/-- Two computations do the same on heaps that are alike. -/
def Corresponds (heap : S → Heap) (ρ : Pairing) (E : Pairing → ε → ε → Prop)
    (Q : Pairing → α → α → Prop) (m₁ m₂ : EStateM ε S α) : Prop :=
  ∀ s₁ s₂, Heap.Alike ρ (heap s₁) (heap s₂) → Agree heap ρ s₁ s₂ E Q (m₁ s₁) (m₂ s₂)

namespace Corresponds

variable {heap : S → Heap} {ρ : Pairing} {E : Pairing → ε → ε → Prop} {P : Pairing → α → α → Prop}
  {Q : Pairing → β → β → Prop} {m₁ m₂ : EStateM ε S α} {k₁ k₂ : α → EStateM ε S β}

theorem pure {x y : α} (h : P ρ x y) :
    Corresponds heap ρ E P (Pure.pure x : EStateM ε S α) (Pure.pure y) :=
  fun _ _ ha => .ok (.refl _ _ _) ha h

theorem throw {x y : ε} (h : E ρ x y) :
    Corresponds heap ρ E P (MonadExcept.throw x : EStateM ε S α) (MonadExcept.throw y) :=
  fun _ _ ha => .error (.refl _ _ _) ha h

theorem bind (hm : Corresponds heap ρ E P m₁ m₂)
    (hk : ∀ ρ' x y, ρ ≤ ρ' → P ρ' x y → Corresponds heap ρ' E Q (k₁ x) (k₂ y)) :
    Corresponds heap ρ E Q (m₁ >>= k₁) (m₂ >>= k₂) := by
  intro s₁ s₂ ha
  have hagree := hm s₁ s₂ ha
  show Agree heap ρ s₁ s₂ E Q (EStateM.bind m₁ k₁ s₁) (EStateM.bind m₂ k₂ s₂)
  unfold EStateM.bind
  match m₁ s₁, m₂ s₂, hagree with
  | _, _, .error grows alike same => exact .error grows alike same
  | .ok x t₁, .ok y t₂, .ok grows alike same =>
    exact .tail grows (hk _ x y grows.le same t₁ t₂ alike)

theorem map {g₁ g₂ : α → β} (hm : Corresponds heap ρ E P m₁ m₂)
    (hg : ∀ ρ' x y, ρ ≤ ρ' → P ρ' x y → Q ρ' (g₁ x) (g₂ y)) :
    Corresponds heap ρ E Q (g₁ <$> m₁) (g₂ <$> m₂) :=
  hm.bind fun ρ' x y hle h => pure (hg ρ' x y hle h)

end Corresponds

/-! ### Operations on heaps -/

namespace Heap

variable {ρ : Pairing} {E : Pairing → ε → ε → Prop} {h h' g g' : Heap}

/-- Both heaps get one more entity of a realm, and these are paired. -/
theorem Alike.pair (ha : Alike ρ h h') (realm : Realm) (hg : Outgrows (fun _ => False) h g)
    (hg' : Outgrows (fun _ => False) h' g') (hlt : h.extent realm < g.extent realm)
    (hlt' : h'.extent realm < g'.extent realm)
    (hproperties : realm = .object → ∀ key, Option.Rel (Value.Alike ρ)
      (g.property? (h.extent .object) key) (g'.property? (h'.extent .object) key))
    (hsettlement : realm = .promise →
      (g.settlement (h.extent .promise)).Alike ρ (g'.settlement (h'.extent .promise)))
    (hcursor : realm = .iterator →
      (g.cursor (h.extent .iterator)).Alike ρ (g'.cursor (h'.extent .iterator))) :
    Alike (ρ.add realm (h.extent realm) (h'.extent realm)) g g' ∧
      ρ.Grows h h' (ρ.add realm (h.extent realm) (h'.extent realm)) g g' := by
  have hle := ρ.le_add realm (h.extent realm) (h'.extent realm)
  refine ⟨⟨?_, ?_, ?_, ?_, ?_⟩, hle, ?_, ?_, hg'.extent⟩
  · rintro r a b (hab | ⟨rfl, rfl, rfl⟩)
    · exact ⟨Nat.lt_of_lt_of_le (ha.known hab).1 (hg.extent r), Nat.lt_of_lt_of_le (ha.known hab).2 (hg'.extent r)⟩
    · exact ⟨hlt, hlt'⟩
  · rintro r a b a' b' (hab | ⟨rfl, rfl, rfl⟩) (hab' | ⟨hr, rfl, rfl⟩)
    · exact ha.oneToOne r a b a' b' hab hab'
    · subst hr
      have := ha.known hab
      omega
    · have := ha.known hab'
      omega
    · exact ⟨fun _ => rfl, fun _ => rfl⟩
  · rintro a b (hab | ⟨hr, rfl, rfl⟩) key
    · rw [hg.properties (ha.known hab).1, hg'.properties (ha.known hab).2]
      exact Value.optAlike_mono hle (ha.properties hab key)
    · subst hr
      exact Value.optAlike_mono hle (hproperties rfl key)
  · rintro a b (hab | ⟨hr, rfl, rfl⟩)
    · rw [hg.settlements (ha.known hab).1, hg'.settlements (ha.known hab).2]
      exact (ha.settlements hab).mono hle
    · subst hr
      exact (hsettlement rfl).mono hle
  · rintro a b (hab | ⟨hr, rfl, rfl⟩)
    · rw [hg.cursors (ha.known hab).1 id, hg'.cursors (ha.known hab).2 id]
      exact (ha.cursors hab).mono hle
    · subst hr
      exact (hcursor rfl).mono hle
  · rintro r a b (hab | ⟨rfl, rfl, rfl⟩)
    · exact .inl hab
    · exact .inr ⟨Nat.le_refl _, Nat.le_refl _⟩
  · exact ⟨hg.extent, hg.properties, hg.settlements, fun hlt _ => hg.cursors hlt id⟩

theorem outgrows_fresh (own : Nat → Prop) (h : Heap) :
    Outgrows own h { h with identities := h.identities + 1 } where
  extent realm := by cases realm <;> simp [extent]
  properties _ _ := rfl
  settlements _ := rfl
  cursors _ _ := rfl

theorem outgrows_promise (own : Nat → Prop) (h : Heap) (s : Settlement) :
    Outgrows own h { h with promises := h.promises.push s } where
  extent realm := by cases realm <;> simp [extent]
  properties _ _ := rfl
  settlements hlt := by
    have hne : _ ≠ h.promises.size := Nat.ne_of_lt hlt
    simp [settlement, Array.getElem?_push, hne]
  cursors _ _ := rfl

theorem outgrows_iterator (own : Nat → Prop) (h : Heap) (c : Cursor) :
    Outgrows own h { h with iterators := h.iterators.push c } where
  extent realm := by cases realm <;> simp [extent]
  properties _ _ := rfl
  settlements _ := rfl
  cursors hlt _ := by
    have hne : _ ≠ h.iterators.size := Nat.ne_of_lt hlt
    simp [cursor, Array.getElem?_push, hne]

theorem freshId_corresponds :
    Corresponds id ρ E (fun ρ' a b => ρ' .constant a b) (freshId : OnHeap ε Nat) freshId := by
  intro h h' ha
  obtain ⟨halike, hgrows⟩ := ha.pair .constant (outgrows_fresh _ h) (outgrows_fresh _ h')
    (Nat.lt_succ_self _) (Nat.lt_succ_self _) nofun nofun nofun
  exact .ok hgrows halike (.inr ⟨rfl, rfl, rfl⟩)

theorem newError_corresponds (kind : ErrorKind) (message : String) :
    Corresponds id ρ E Value.Alike (newError kind message : OnHeap ε Value) (newError kind message) :=
  freshId_corresponds.bind fun _ _ _ _ hid => .pure (.error hid)

theorem newList_corresponds {items items' : List Value} (hitems : Value.AllAlike ρ items items') :
    Corresponds id ρ E Value.Alike (newList items : OnHeap ε Value) (newList items') :=
  freshId_corresponds.bind fun _ _ _ hle hid => .pure (.of_items hid (hitems.mono hle))

theorem newResources_corresponds : ∀ {ρ : Pairing} {rs ss : List Resource},
    List.Forall₂ (Record.Alike ρ) rs ss →
    Corresponds id ρ E Value.AllAlike (newResources rs : OnHeap ε (List Value)) (newResources ss)
  | _, _, _, .nil => .pure .nil
  | ρ, r :: rs, s :: ss, .cons hr hrs => by
    have hbox : Corresponds id ρ E Value.Alike (newResource r : OnHeap ε Value) (newResource s) :=
      freshId_corresponds.bind fun _ _ _ hle hid => .pure (.of_record hid (hr.mono hle))
    refine hbox.bind fun ρ' v w hle hvw => ?_
    refine (newResources_corresponds (hrs.imp fun _ _ h => h.mono hle)).bind fun ρ'' vs ws hle' hvs => ?_
    exact .pure (.cons (hvw.mono hle') hvs)

theorem newSettling_corresponds {f g : Callable} (hf : f.Alike ρ g) :
    Corresponds id ρ E Value.Alike (newSettling f : OnHeap ε Value) (newSettling g) :=
  freshId_corresponds.bind fun _ _ _ hle hid => .pure (.function (.settling hid (hf.mono hle)))

/-- What is pending once an exception is thrown. -/
theorem chain_corresponds {v w prior prior' : Value} (throwing unwrapClosing : Bool)
    (hprior : prior.Alike ρ prior') (hvw : v.Alike ρ w) :
    Corresponds id ρ E Value.Alike ((Completion.ofPending throwing prior unwrapClosing).chain v : OnHeap ε Value)
      ((Completion.ofPending throwing prior' unwrapClosing).chain w) := by
  have hchain : Corresponds id ρ E Value.Alike (newSuppressed v prior : OnHeap ε Value)
      (newSuppressed w prior') :=
    freshId_corresponds.bind fun _ _ _ hle hid => .pure (.suppressed hid (hvw.mono hle) (hprior.mono hle))
  cases throwing with
  | false => exact .pure hvw
  | true =>
    cases unwrapClosing with
    | false => exact hchain
    | true =>
      cases hprior with
      | @primitive prior hv =>
        cases prior
        case closing => exact .pure hvw
        all_goals exact hchain
      | _ => exact hchain

theorem getProperty_corresponds {a b : Nat} (hab : ρ .object a b) (key : PropertyKey) :
    Corresponds id ρ E Value.Alike (getProperty a key : OnHeap ε Value) (getProperty b key) :=
  fun _ _ ha => .ok (.refl _ _ _) ha (Value.optAlike_getD (ha.properties hab key))

theorem newPromise_corresponds {s t : Settlement} (hst : s.Alike ρ t) :
    Corresponds id ρ E Value.Alike (newPromise s : OnHeap ε Value) (newPromise t) := by
  intro h h' ha
  obtain ⟨halike, hgrows⟩ := ha.pair .promise (outgrows_promise _ h s) (outgrows_promise _ h' t)
    (by simp [extent]) (by simp [extent]) nofun (fun _ => by simpa [settlement, extent] using hst) nofun
  exact .ok hgrows halike (.promise (.inr ⟨rfl, rfl, rfl⟩))

theorem newIterator_corresponds {c d : Cursor} (hcd : c.Alike ρ d) :
    Corresponds id ρ E Value.Alike (newIterator c : OnHeap ε Value) (newIterator d) := by
  intro h h' ha
  obtain ⟨halike, hgrows⟩ := ha.pair .iterator (outgrows_iterator _ h c) (outgrows_iterator _ h' d)
    (by simp [extent]) (by simp [extent]) nofun nofun fun _ => by simpa [cursor, extent] using hcd
  exact .ok hgrows halike (.iterator (.inr ⟨rfl, rfl, rfl⟩))

theorem cursor_set (h : Heap) (a : Nat) (c : Cursor) (x : Nat) :
    ({ h with iterators := h.iterators.setIfInBounds a c } : Heap).cursor x =
      if x = a ∧ a < h.extent .iterator then c else h.cursor x := by
  unfold cursor
  rw [Array.getElem?_setIfInBounds]
  by_cases hx : a = x
  · subst hx
    by_cases ha : a < h.iterators.size <;> simp [ha, extent]
  · simp [hx, Ne.symm hx]

/-- Iterators that are paired move alike. -/
theorem Alike.move (ha : Alike ρ h h') {a b : Nat} (hab : ρ .iterator a b) {c d : Cursor}
    (hcd : c.Alike ρ d) :
    Alike ρ { h with iterators := h.iterators.setIfInBounds a c }
      { h' with iterators := h'.iterators.setIfInBounds b d } ∧
    ρ.Grows h h' ρ { h with iterators := h.iterators.setIfInBounds a c }
      { h' with iterators := h'.iterators.setIfInBounds b d } := by
  have hextent (h : Heap) (a : Nat) (c : Cursor) (realm : Realm) :
      ({ h with iterators := h.iterators.setIfInBounds a c } : Heap).extent realm = h.extent realm := by
    cases realm <;> simp [extent]
  refine ⟨⟨fun hxy => ?_, ha.oneToOne, ha.properties, ha.settlements, fun {x y} hxy => ?_⟩,
    le_refl _, .inl, ⟨fun realm => ?_, fun _ _ => rfl, fun _ => rfl, fun {x} _ hnot => ?_⟩, fun realm => ?_⟩
  · rw [hextent, hextent]
    exact ha.known hxy
  · have hsame := ha.oneToOne _ x y a b hxy hab
    rw [cursor_set, cursor_set]
    by_cases hx : x = a
    · rw [if_pos ⟨hx, (ha.known hab).1⟩, if_pos ⟨hsame.mp hx, (ha.known hab).2⟩]
      exact hcd
    · rw [if_neg fun h => hx h.1, if_neg fun h => hx (hsame.mpr h.1)]
      exact ha.cursors hxy
  · exact Nat.le_of_eq (hextent h a c realm).symm
  · rw [cursor_set, if_neg]
    rintro ⟨rfl, -⟩
    exact hnot ⟨b, hab⟩
  · exact Nat.le_of_eq (hextent h' b d realm).symm

end Heap

/-- Iterators that stand alike hand out alike items. -/
theorem Cursor.Alike.next {ρ : Pairing} {c d : Cursor} (h : c.Alike ρ d) :
    Option.Rel (Value.Alike ρ) c.next.1 d.next.1 ∧ c.next.2.Alike ρ d.next.2 := by
  obtain ⟨rest, position, closed, closeError⟩ := c
  obtain ⟨rest', position', closed', closeError'⟩ := d
  obtain ⟨hrest, rfl, rfl, herror⟩ := h
  cases closed with
  | true => exact ⟨.none, hrest, rfl, rfl, herror⟩
  | false =>
    cases hrest with
    | nil => exact ⟨.none, .nil, rfl, rfl, herror⟩
    | cons hv hrest => exact ⟨.some hv, hrest, rfl, rfl, herror⟩

theorem Cursor.Alike.close {ρ : Pairing} {c d : Cursor} (h : c.Alike ρ d) :
    Option.Rel (Value.Alike ρ) c.close.1 d.close.1 ∧ c.close.2.Alike ρ d.close.2 :=
  ⟨h.closeError, h.rest, h.position, rfl, .none⟩

namespace Heap

variable {ρ : Pairing} {E : Pairing → ε → ε → Prop} {a b : Nat}

theorem nextItem_corresponds (hab : ρ .iterator a b) :
    Corresponds id ρ E (fun ρ' => Option.Rel (Value.Alike ρ')) (nextItem a : OnHeap ε (Option Value))
      (nextItem b) := by
  intro h h' ha
  obtain ⟨hitem, hcursor⟩ := (ha.cursors hab).next
  obtain ⟨halike, hgrows⟩ := ha.move hab hcursor
  exact .ok hgrows halike hitem

theorem closeIterator_corresponds (hab : ρ .iterator a b) :
    Corresponds id ρ E (fun ρ' => Option.Rel (Value.Alike ρ')) (closeIterator a : OnHeap ε (Option Value))
      (closeIterator b) := by
  intro h h' ha
  obtain ⟨herror, hcursor⟩ := (ha.cursors hab).close
  obtain ⟨halike, hgrows⟩ := ha.move hab hcursor
  exact .ok hgrows halike herror

end Heap

/-! ### Registration -/

section

variable {ρ : Pairing} {v w : Value}

theorem throwTypeError_corresponds {Q : Pairing → α → α → Prop} (message : String) :
    Corresponds id ρ Value.Alike Q (throwTypeError message : OnHeap Value α) (throwTypeError message) :=
  (Heap.newError_corresponds .typeError message).bind fun _ _ _ _ h => .throw h

theorem callable_corresponds (h : v.Alike ρ w) (hint : Hint) :
    Corresponds id ρ Value.Alike Callable.Alike (callable v hint) (callable w hint) := by
  cases h with
  | function hf => exact .pure hf
  | @primitive v hv =>
    cases v
    case function => cases hv
    all_goals exact throwTypeError_corresponds _
  | _ => exact throwTypeError_corresponds _

theorem ownMethod_corresponds {a b : Nat} (hab : ρ .object a b) (hint : Hint) :
    Corresponds id ρ Value.Alike (fun ρ' => Option.Rel (Callable.Alike ρ')) (ownMethod a hint)
      (ownMethod b hint) := by
  refine (Heap.getProperty_corresponds hab _).bind fun ρ' v w _ h => ?_
  rw [h.isNullish_eq]
  split
  · exact .pure .none
  · exact (callable_corresponds h hint).map fun _ _ _ _ hf => .some hf

theorem disposeMethod_corresponds (h : v.Alike ρ w) (hint : Hint) :
    Corresponds id ρ Value.Alike (fun ρ' => Option.Rel (Value.Alike ρ')) (disposeMethod v hint)
      (disposeMethod w hint) := by
  cases h with
  | @object a b hab =>
    refine (ownMethod_corresponds hab hint).bind fun ρ' f g hle hfg => ?_
    cases hfg with
    | some hfg =>
      cases hint <;> exact .pure (.some (.function hfg))
    | none =>
      cases hint with
      | sync => exact .pure .none
      | async =>
        refine (ownMethod_corresponds (hle _ _ _ hab) .sync).bind fun ρ'' f g _ hfg => ?_
        cases hfg with
        | some hfg => exact (Heap.newSettling_corresponds hfg).map fun _ _ _ _ hv => .some hv
        | none => exact .pure .none
  | @primitive v hv =>
    cases v
    case object => cases hv
    all_goals exact .pure .none
  | _ => exact .pure .none

theorem createResource_corresponds (h : v.Alike ρ w) (hint : Hint) :
    Corresponds id ρ Value.Alike (fun ρ' => Option.Rel (Record.Alike ρ')) (createResource v hint)
      (createResource w hint) := by
  have hother (v : Value) : Corresponds id ρ Value.Alike (fun ρ' => Option.Rel (Record.Alike ρ'))
      (throwTypeError s!"using declarations require an object, got {v.typeName}")
      (throwTypeError s!"using declarations require an object, got {v.typeName}") :=
    throwTypeError_corresponds _
  cases h with
  | @object a b hab =>
    refine (disposeMethod_corresponds (.object hab) hint).bind fun ρ' m n hle hm => ?_
    cases hm with
    | some hm => exact .pure (.some ⟨.object (hle _ _ _ hab), rfl, .some hm⟩)
    | none => exact throwTypeError_corresponds _
  | @primitive v hv =>
    cases v
    case undefined | null =>
      cases hint with
      | sync => exact .pure .none
      | async => exact .pure (.some ⟨.undefined, rfl, .none⟩)
    case object => cases hv
    all_goals exact throwTypeError_corresponds _
  | _ => exact throwTypeError_corresponds _

end

/-! ### Hosts -/

/-- The functions of a host are pure as far as a task can tell: what they do depends on
their receiver and arguments alone, up to the numbers of entities, and not on what else
lives on the heap or on what the host keeps for itself. They write nothing that was there
before, unless they are handed an iterator. The entities of `base` are known to them. -/
def Host.Pure (host : Host σ) (base : Pairing) : Prop :=
  ∀ (f : HostFunction) {ρ : Pairing} {r r' : Value} {args args' : List Value}, base ≤ ρ →
    r.Alike ρ r' → Value.AllAlike ρ args args' →
    Corresponds World.heap ρ Value.Alike Value.Alike (host f r args) (host f r' args')

/-- Results are alike: values as `Q` says, or exceptions. -/
inductive Value.ResultAlike (Q : Pairing → α → α → Prop) (ρ : Pairing) :
    Except Value α → Except Value α → Prop
  | ok {x y : α} (h : Q ρ x y) : ResultAlike Q ρ (.ok x) (.ok y)
  | error {v w : Value} (h : v.Alike ρ w) : ResultAlike Q ρ (.error v) (.error w)

/-- The host whose functions only compute an answer. -/
def Host.ofAnswer (answer : HostFunction → Value → List Value → Except Value Value) : Host σ :=
  fun f receiver args w =>
    match answer f receiver args with
    | .ok v => .ok v w
    | .error e => .error e w

/-- A host whose functions only compute answers is pure, if they do not look at numbers of
entities. -/
theorem Host.pure_of_answer {base : Pairing} {answer : HostFunction → Value → List Value → Except Value Value}
    (h : ∀ (f : HostFunction) {ρ : Pairing} {r r' : Value} {args args' : List Value}, base ≤ ρ →
      ρ.OneToOne → r.Alike ρ r' → Value.AllAlike ρ args args' →
      Value.ResultAlike Value.Alike ρ (answer f r args) (answer f r' args')) :
    Host.Pure (Host.ofAnswer answer : Host σ) base := by
  intro f ρ r r' args args' hbase hr hargs w w' ha
  have hanswer := h f hbase ha.oneToOne hr hargs
  unfold Host.ofAnswer
  match answer f r args, answer f r' args', hanswer with
  | _, _, .ok hv => exact .ok (.refl _ _ _) ha hv
  | _, _, .error hv => exact .error (.refl _ _ _) ha hv

section

variable {ρ : Pairing} {E : Pairing → ε → ε → Prop} {Q : Pairing → α → α → Prop}

theorem World.onHeap_corresponds {m₁ m₂ : OnHeap ε α} (h : Corresponds id ρ E Q m₁ m₂) :
    Corresponds World.heap ρ E Q (World.onHeap m₁ : EStateM ε (World σ) α) (World.onHeap m₂) := by
  rintro ⟨h₁, s₁⟩ ⟨h₂, s₂⟩ ha
  have hagree := h h₁ h₂ ha
  simp only [World.onHeap]
  match m₁ h₁, m₂ h₂, hagree with
  | _, _, .ok grows alike same => exact .ok grows alike same
  | _, _, .error grows alike same => exact .error grows alike same

/-- Calls of functions that are alike, by hosts that are pure, do the same. -/
theorem Callable.call_corresponds {host : Host σ} {base : Pairing} (hhost : host.Pure base)
    (hbase : base ≤ ρ) {f g : Callable} (hf : f.Alike ρ g) {r r' : Value} {args args' : List Value}
    (hr : r.Alike ρ r') (hargs : Value.AllAlike ρ args args') :
    Corresponds World.heap ρ Value.Alike Value.Alike (f.call host r args) (g.call host r' args') := by
  induction hf generalizing args args' with
  | host f => exact hhost f hbase hr hargs
  | @settling i j f g _ _ ih =>
    intro w w' ha
    have hagree := @ih [] [] .nil w w' ha
    simp only [Callable.call, Guest.settle]
    match f.call host r [] w, g.call host r' [] w', hagree with
    | _, _, .ok grows alike _ =>
      exact .tail grows (World.onHeap_corresponds (Heap.newPromise_corresponds (.fulfilled .undefined)) _ _
        alike)
    | _, _, .error grows alike same =>
      exact .tail grows (World.onHeap_corresponds (Heap.newPromise_corresponds (.rejected same)) _ _ alike)

end

end ResourceMachine
