/-
# Being closed and returning

A generator that is suspended at a `yield` may be closed: the closing signal passes through all that
encloses the `yield`. If it had `return yield` there, and were handed the value instead, it would
return. The two do alike on the way out, as long as no iterator that is closed then throws: an error
from closing is dropped while the signal passes, but overtakes a return.

Three evaluations are watched at a time: the one that may be closed, the one that may return, and a
marked one that does as the first one does, but gives up where the first one waits at the `yield`.
So it is told where the two stand.

Key definitions: `Reply.Parts`, `Eval.Kin`, `Eval.Ends`, `Eval.Kins`.
Key theorems: `Eval.Kin.attempt_bind`, `Eval.Kins.attempt_bind`, `Eval.Twins.kins`.
-/
import ResourceMachine.Proofs.SyncDisposal
import ResourceMachine.Proofs.TrailTrace

namespace ResourceMachine

variable {σ α β : Type} {same : Pairing → σ → σ → Prop} {ρ ρ' : Pairing}

/-- A reply that does not throw the signal that closes generators. -/
def Reply.Unclosing (r : Reply σ) : Prop := r.answer ≠ .throw .closing

/-- Replies of which the one closes a generator with a value, and the other one hands it that value. -/
structure Reply.Parts (same : Pairing → σ → σ → Prop) (ρ : Pairing) (r r' : Reply σ) : Prop where
  answer : ∃ v v', r.answer = .ret v ∧ r'.answer = .next v' ∧ v.Alike ρ v'
  world : World.Renumbered same ρ r.world r'.world
  globals : Value.EntriesAlike ρ r.globals r'.globals

/-- Events that happened since there were `n` of them, the last of which is that closing an iterator
threw. -/
inductive Event.Breaks (n : Nat) : List Event → Prop
  | intro {before : List Event} (id : Nat) (e : Value) (le : n ≤ before.length) :
    Event.Breaks n (before ++ [.close id (some e)])

namespace Eval

/-! ### Three evaluations -/

/-- Three evaluations of calls that were started, and have got some replies: they have come to their
ends as `Q` says, or are out of fuel, or wait and go on so whatever replies they get. Where only the
marked one gives up, the left one is closed, and the right one gets the value, and that is
remembered by how much had happened. Since then, an iterator may fail to close. -/
inductive Kin (same : Pairing → σ → σ → Prop) (m m' marked : Eval σ α)
    (Q : Option Nat → Pairing → Except Value α → CallState σ → Except Value α → CallState σ → Prop) :
    Option Nat → Pairing → CallState σ → CallState σ → Prop
  | ends {since : Option Nat} {ρ ρ' : Pairing} {S S' T T' : CallState σ} {r r' : Except Value α} (le : ρ ≤ ρ')
      (left : ∀ s, m (S.more s) = give r (T.more s)) (mark : ∀ s, marked (S.more s) = give r (T.more s))
      (right : ∀ s, m' (S'.more s) = give r' (T'.more s)) (alike : Q since ρ' r T r' T') :
      Kin same m m' marked Q since ρ S S'
  | spent {since : Option Nat} {ρ ρ' : Pairing} {S S' T T' : CallState σ} (le : ρ ≤ ρ')
      (left : ∀ s, m (S.more s) = .error .outOfFuel (T.more s))
      (right : ∀ s, m' (S'.more s) = .error .outOfFuel (T'.more s)) (seen : T.Beside same ρ' T') :
      Kin same m m' marked Q since ρ S S'
  | waits {since : Option Nat} {ρ ρ' : Pairing} {S S' T T' : CallState σ} {p p' : Suspension} (le : ρ ≤ ρ')
      (left : m S = .error (.suspended p) T) (mark : marked S = .error (.suspended p) T)
      (right : m' S' = .error (.suspended p') T') (asks : Event.Alike ρ' (.suspend p) (.suspend p'))
      (seen : T.Beside same ρ' T')
      (next : ∀ {τ : Pairing} {r r' : Reply σ}, ρ' ≤ τ → r.Unclosing → r.Alike same τ r' →
        Kin same m m' marked Q since τ (S.more [r]) (S'.more [r'])) :
      Kin same m m' marked Q since ρ S S'
  | stands {since : Option Nat} {ρ ρ' : Pairing} {S S' T T' U : CallState σ} {v v' : Value} (le : ρ ≤ ρ')
      (left : m S = .error (.suspended (.yield v)) T) (mark : marked S = .error .outOfFuel U)
      (right : m' S' = .error (.suspended (.yield v')) T') (asks : v.Alike ρ' v') (seen : T.Beside same ρ' T')
      (next : ∀ {τ : Pairing} {r r' : Reply σ}, ρ' ≤ τ → r.Parts same τ r' →
        Kin same m m' marked Q (some T.trace.length) τ (S.more [r]) (S'.more [r'])) :
      Kin same m m' marked Q since ρ S S'
  | fails {n : Nat} {ρ ρ' : Pairing} {S S' : CallState σ} {es es' : List Event} (le : ρ ≤ ρ')
      (left : ∀ s, es <+: (stateOf (m (S.more s))).trace) (right : ∀ s, es' <+: (stateOf (m' (S'.more s))).trace)
      (seen : Event.SeenAlike ρ' es es') (breaks : Event.Breaks n es) :
      Kin same m m' marked Q (some n) ρ S S'

section

variable {m m' marked : Eval σ α} {S S' T T' : CallState σ} {since : Option Nat}
  {Q Q₁ : Option Nat → Pairing → Except Value α → CallState σ → Except Value α → CallState σ → Prop}
  {P : Option Nat → Pairing → Except Value β → CallState σ → Except Value β → CallState σ → Prop}

/-- Evaluations that end at once. -/
theorem Kin.at_once (r r' : Except Value α) (T T' : CallState σ) (le : ρ ≤ ρ')
    (left : ∀ s, m (S.more s) = give r (T.more s))
    (mark : ∀ s, marked (S.more s) = give r (T.more s)) (right : ∀ s, m' (S'.more s) = give r' (T'.more s))
    (alike : Q since ρ' r T r' T') : Kin same m m' marked Q since ρ S S' := .ends le left mark right alike

/-- Evaluations that go on as others do. -/
theorem Kin.behind {o o' watched : Eval σ α} (h : Kin same o o' watched Q since ρ' T T') (hle : ρ ≤ ρ')
    (hm : ∀ s, m (S.more s) = o (T.more s)) (hmark : ∀ s, marked (S.more s) = watched (T.more s))
    (hm' : ∀ s, m' (S'.more s) = o' (T'.more s)) : Kin same m m' marked Q since ρ S S' := by
  have hnow {m o : Eval σ α} {S T : CallState σ} (h : ∀ s, m (S.more s) = o (T.more s)) : m S = o T := by
    have h := h []
    rwa [CallState.more_nil, CallState.more_nil] at h
  have hlater {m o : Eval σ α} {S T : CallState σ} (h : ∀ s, m (S.more s) = o (T.more s)) (r : Reply σ)
      (s : List (Reply σ)) : m ((S.more [r]).more s) = o ((T.more [r]).more s) := by
    rw [CallState.more_more, CallState.more_more]
    exact h _
  induction h generalizing ρ S S' with
  | ends le left mark right alike =>
    exact .ends (hle.trans le) (fun s => (hm s).trans (left s)) (fun s => (hmark s).trans (mark s))
      (fun s => (hm' s).trans (right s)) alike
  | spent le left right seen =>
    exact .spent (hle.trans le) (fun s => (hm s).trans (left s)) (fun s => (hm' s).trans (right s)) seen
  | waits le left mark right asks seen _ ih =>
    exact .waits (hle.trans le) ((hnow hm).trans left) ((hnow hmark).trans mark) ((hnow hm').trans right) asks seen
      fun hτ hclosing hr => ih hτ hclosing hr (le_refl _) (hlater hm _) (hlater hmark _) (hlater hm' _)
  | stands le left mark right asks seen _ ih =>
    exact .stands (hle.trans le) ((hnow hm).trans left) ((hnow hmark).trans mark) ((hnow hm').trans right) asks seen
      fun hτ hr => ih hτ hr (le_refl _) (hlater hm _) (hlater hmark _) (hlater hm' _)
  | fails le left right seen breaks =>
    refine .fails (hle.trans le) (fun s => ?_) (fun s => ?_) seen breaks
    · rw [hm s]
      exact left s
    · rw [hm' s]
      exact right s

theorem Kin.imp (h : Kin same m m' marked Q since ρ S S')
    (hQ : ∀ since ρ' r T r' T', ρ ≤ ρ' → Q since ρ' r T r' T' → Q₁ since ρ' r T r' T') :
    Kin same m m' marked Q₁ since ρ S S' := by
  induction h with
  | ends le left mark right alike => exact .ends le left mark right (hQ _ _ _ _ _ _ le alike)
  | spent le left right seen => exact .spent le left right seen
  | waits le left mark right asks seen _ ih =>
    exact .waits le left mark right asks seen fun hτ hclosing hr =>
      ih hτ hclosing hr fun _ _ _ _ _ _ hle hq => hQ _ _ _ _ _ _ ((le.trans hτ).trans hle) hq
  | stands le left mark right asks seen _ ih =>
    exact .stands le left mark right asks seen fun hτ hr =>
      ih hτ hr fun _ _ _ _ _ _ hle hq => hQ _ _ _ _ _ _ ((le.trans hτ).trans hle) hq
  | fails le left right seen breaks => exact .fails le left right seen breaks

/-- What is known of the left evaluation where it ends. -/
theorem Kin.and_left (h : Kin same m m' marked Q since ρ S S') {I : Except Value α → CallState σ → Prop}
    (hI : ∀ s r T, m (S.more s) = give r T → I r T) :
    Kin same m m' marked (fun since ρ r T r' T' => Q since ρ r T r' T' ∧ I r T) since ρ S S' := by
  induction h with
  | @ends _ _ _ _ _ T _ _ _ le left mark right alike =>
    have hend := hI [] _ _ (left [])
    rw [CallState.more_nil] at hend
    exact .ends le left mark right ⟨alike, hend⟩
  | spent le left right seen => exact .spent le left right seen
  | waits le left mark right asks seen _ ih =>
    refine .waits le left mark right asks seen fun hτ hclosing hr => ih hτ hclosing hr fun s r T h => ?_
    rw [CallState.more_more] at h
    exact hI _ _ _ h
  | stands le left mark right asks seen _ ih =>
    refine .stands le left mark right asks seen fun hτ hr => ih hτ hr fun s r T h => ?_
    rw [CallState.more_more] at h
    exact hI _ _ _ h
  | fails le left right seen breaks => exact .fails le left right seen breaks

/-- What was done before something is done with it. -/
theorem grows_attempt_bind {g : Except Value α → Eval σ β} (hg : ∀ r, Within Grows (g r)) (S : CallState σ) :
    Grows (stateOf (m S)) (stateOf ((attempt m >>= g) S)) := by
  have hsame : stateOf (attempt m S) = stateOf (m S) := by
    unfold attempt
    cases m S with
    | ok a T => rfl
    | error i T => cases i <;> rfl
  rw [← hsame]
  exact grows_bind S hg

/-- What is done with what evaluations come to. -/
theorem Kin.attempt_bind {g g' watched : Except Value α → Eval σ β} (h : Kin same m m' marked Q since ρ S S')
    (hg : ∀ since ρ' r T r' T', ρ ≤ ρ' → Q since ρ' r T r' T' → Kin same (g r) (g' r') (watched r) P since ρ' T T')
    (hgrows : ∀ r, Within Grows (g r)) (hgrows' : ∀ r, Within Grows (g' r)) :
    Kin same (attempt m >>= g) (attempt m' >>= g') (attempt marked >>= watched) P since ρ S S' := by
  induction h with
  | ends le left mark right alike =>
    exact (hg _ _ _ _ _ _ le alike).behind le (fun s => attempt_bind_of_give (left s))
      (fun s => attempt_bind_of_give (mark s)) fun s => attempt_bind_of_give (right s)
  | spent le left right seen =>
    exact .spent le (fun s => attempt_bind_of_error (by simp) (left s))
      (fun s => attempt_bind_of_error (by simp) (right s)) seen
  | waits le left mark right asks seen _ ih =>
    exact .waits le (attempt_bind_of_error (by simp) left) (attempt_bind_of_error (by simp) mark)
      (attempt_bind_of_error (by simp) right) asks seen fun hτ hclosing hr =>
        ih hτ hclosing hr fun _ ρ' r T r' T' hle => hg _ ρ' r T r' T' ((le.trans hτ).trans hle)
  | stands le left mark right asks seen _ ih =>
    exact .stands le (attempt_bind_of_error (by simp) left) (attempt_bind_of_error (by simp) mark)
      (attempt_bind_of_error (by simp) right) asks seen fun hτ hr =>
        ih hτ hr fun _ ρ' r T r' T' hle => hg _ ρ' r T r' T' ((le.trans hτ).trans hle)
  | fails le left right seen breaks =>
    exact .fails le (fun s => (left s).trans (grows_attempt_bind hgrows _))
      (fun s => (right s).trans (grows_attempt_bind hgrows' _)) seen breaks

/-- Twins of which none is closed. -/
theorem Twin.kin {R : Pairing → Except Value α → CallState σ → Except Value α → CallState σ → Prop}
    (h : Twin same m m' R ρ S S') (since : Option Nat) :
    Kin same m m' m (fun now ρ r T r' T' => now = since ∧ R ρ r T r' T') since ρ S S' := by
  induction h with
  | ends le left right alike => exact .ends le left left right ⟨rfl, alike⟩
  | spent le left right seen => exact .spent le left right seen
  | waits le left right asks seen _ ih => exact .waits le left left right asks seen fun hτ _ hr => ih hτ hr

/-- What is done with what twins come to. -/
theorem Twin.attempt_bind_kin {R : Pairing → Except Value α → CallState σ → Except Value α → CallState σ → Prop}
    {g g' watched : Except Value α → Eval σ β} (h : Twin same m m' R ρ S S')
    (hg : ∀ ρ' r T r' T', ρ ≤ ρ' → R ρ' r T r' T' → Kin same (g r) (g' r') (watched r) P since ρ' T T') :
    Kin same (attempt m >>= g) (attempt m' >>= g') (attempt m >>= watched) P since ρ S S' := by
  induction h with
  | ends le left right alike =>
    exact (hg _ _ _ _ _ le alike).behind le (fun s => attempt_bind_of_give (left s))
      (fun s => attempt_bind_of_give (left s)) fun s => attempt_bind_of_give (right s)
  | spent le left right seen =>
    exact .spent le (fun s => attempt_bind_of_error (by simp) (left s))
      (fun s => attempt_bind_of_error (by simp) (right s)) seen
  | waits le left right asks seen _ ih =>
    exact .waits le (attempt_bind_of_error (by simp) left) (attempt_bind_of_error (by simp) left)
      (attempt_bind_of_error (by simp) right) asks seen fun hτ _ hr =>
        ih hτ hr fun ρ' r T r' T' hle => hg ρ' r T r' T' ((le.trans hτ).trans hle)

end

/-! ### Rules -/

/-- Both have come to their ends alike; or the left evaluation, which was closed when `n` events had
happened, lets the closing signal pass, where the right one returns what is in the return slot, as
`R` says. -/
inductive Ends (same : Pairing → σ → σ → Prop) (K : Alignment) (P : Pairing → α → α → Prop)
    (R : Pairing → Value → α → Prop) : Option Nat → Pairing → Except Value α → CallState σ → Except Value α →
      CallState σ → Prop
  | lands {since : Option Nat} {ρ : Pairing} {r r' : Except Value α} {T T' : CallState σ}
      (h : Lands same K K P ρ r T r' T') : Ends same K P R since ρ r T r' T'
  | parted {n : Nat} {ρ : Pairing} {a' : α} {T T' : CallState σ} (returns : R ρ T.rval a')
      (calls : T.Alike same K ρ T') (grown : n ≤ T.trace.length) :
      Ends same K P R (some n) ρ (.error .closing) T (.ok a') T'

/-- Three evaluations, of which the left one may be closed where the right one may return, from scopes
aligned as `K` says to scopes aligned as `K'` says. -/
def Kins (same : Pairing → σ → σ → Prop) (K K' : Alignment) (P : Pairing → α → α → Prop)
    (R : Pairing → Value → α → Prop) (ρ : Pairing) (m m' marked : Eval σ α) : Prop :=
  ∀ (since : Option Nat) (τ : Pairing) (S S' : CallState σ), ρ ≤ τ → S.Alike same K τ S' →
    Kin same m m' marked (Ends same K' P R) since τ S S'

/-- What the left evaluation does when it was closed, and the right one when it returns something. -/
def Departs (same : Pairing → σ → σ → Prop) (K K' : Alignment) (R : Pairing → Value → α → Prop)
    (P : Pairing → β → β → Prop) (R' : Pairing → Value → β → Prop) (m : Eval σ β) (m' : α → Eval σ β) : Prop :=
  ∀ (n : Nat) (τ : Pairing) (T T' : CallState σ) (a' : α), R τ T.rval a' → T.Alike same K τ T' →
    n ≤ T.trace.length → Kin same m (m' a') m (Ends same K' P R') (some n) τ T T'

section

variable {K K₁ K₂ : Alignment} {P : Pairing → α → α → Prop} {R : Pairing → Value → α → Prop}
  {P' : Pairing → β → β → Prop} {R' : Pairing → Value → β → Prop} {m m' marked : Eval σ α}
  {f f' watch : α → Eval σ β} {g g' watched : Except Value α → Eval σ β}

theorem orRaise_grows (hf : ∀ a, Within Grows (f a)) : ∀ r, Within Grows (orRaise f r)
  | .ok a => hf a
  | .error e => raise_grows e

theorem Kins.mono (h : Kins same K K₁ P R ρ m m' marked) (hle : ρ ≤ ρ') : Kins same K K₁ P R ρ' m m' marked :=
  fun since τ S S' hτ hS => h since τ S S' (hle.trans hτ) hS

namespace Twins

/-- Twins of which none is closed. -/
theorem kins (h : Twins same K K₁ K₁ P ρ m m') : Kins same K K₁ P R ρ m m' m := fun since τ S S' hτ hS =>
  ((h τ S S' hτ hS).kin since).imp fun _ _ _ _ _ _ _ hl => .lands hl.2

theorem attempt_bind_kins {E : Alignment} (h : Twins same K K₁ E P ρ m m')
    (hok : ∀ τ a a', ρ ≤ τ → P τ a a' → Kins same K₁ K₂ P' R' τ (g (.ok a)) (g' (.ok a')) (watched (.ok a)))
    (herror : ∀ τ e e', ρ ≤ τ → e.Alike τ e' →
      Kins same E K₂ P' R' τ (g (.error e)) (g' (.error e')) (watched (.error e))) :
    Kins same K K₂ P' R' ρ (attempt m >>= g) (attempt m' >>= g') (attempt m >>= watched) := fun since τ S S' hτ hS => by
  refine (h τ S S' hτ hS).attempt_bind_kin fun ρ' r T r' T' hle hl => ?_
  cases hl with
  | ok alike calls => exact hok _ _ _ (hτ.trans hle) alike since _ _ _ (le_refl _) calls
  | error alike calls => exact herror _ _ _ (hτ.trans hle) alike since _ _ _ (le_refl _) calls

/-- Behind twins of which none is closed. -/
theorem bind_kins (h : Twins same K K₁ K₂ P ρ m m')
    (hf : ∀ τ a a', ρ ≤ τ → P τ a a' → Kins same K₁ K₂ P' R' τ (f a) (f' a') (watch a)) :
    Kins same K K₂ P' R' ρ (m >>= f) (m' >>= f') (m >>= watch) := by
  rw [bind_eq_attempt m f, bind_eq_attempt m' f', bind_eq_attempt m watch]
  exact h.attempt_bind_kins hf fun _ _ _ _ he => (Twins.raise he).kins

end Twins

namespace Kins

/-- All three take the same branch. -/
theorem branch {b b' : Bool} (hb : b = b') {l l' watch : Eval σ α} (hthen : Kins same K K₁ P R ρ m m' marked)
    (helse : Kins same K K₁ P R ρ l l' watch) : Kins same K K₁ P R ρ (if b then m else l) (if b' then m' else l')
      (if b then marked else watch) := by
  subst hb
  split
  · exact hthen
  · exact helse

theorem attempt_bind (h : Kins same K K₁ P R ρ m m' marked)
    (hok : ∀ τ a a', ρ ≤ τ → P τ a a' → Kins same K₁ K₂ P' R' τ (g (.ok a)) (g' (.ok a')) (watched (.ok a)))
    (herror : ∀ τ e e', ρ ≤ τ → e.Alike τ e' →
      Kins same K₁ K₂ P' R' τ (g (.error e)) (g' (.error e')) (watched (.error e)))
    (hmark : watched (.error .closing) = g (.error .closing))
    (hparts : Departs same K₁ K₂ R P' R' (g (.error .closing)) fun a' => g' (.ok a'))
    (hgrows : ∀ r, Within Grows (g r)) (hgrows' : ∀ r, Within Grows (g' r)) :
    Kins same K K₂ P' R' ρ (attempt m >>= g) (attempt m' >>= g') (attempt marked >>= watched) :=
  fun since τ S S' hτ hS => by
    refine (h since τ S S' hτ hS).attempt_bind (fun now ρ' r T r' T' hle hends => ?_) hgrows hgrows'
    cases hends with
    | lands hl =>
      cases hl with
      | ok alike calls => exact hok _ _ _ (hτ.trans hle) alike now _ _ _ (le_refl _) calls
      | error alike calls => exact herror _ _ _ (hτ.trans hle) alike now _ _ _ (le_refl _) calls
    | parted returns calls grown =>
      rw [hmark]
      exact hparts _ _ _ _ _ returns calls grown

/-- Behind an evaluation that may be closed. -/
theorem bind (h : Kins same K K₁ P R ρ m m' marked)
    (hf : ∀ τ a a', ρ ≤ τ → P τ a a' → Kins same K₁ K₁ P' R' τ (f a) (f' a') (watch a))
    (hparts : Departs same K₁ K₁ R P' R' (raise .closing) f')
    (hgrows : ∀ a, Within Grows (f a)) (hgrows' : ∀ a, Within Grows (f' a)) :
    Kins same K K₁ P' R' ρ (m >>= f) (m' >>= f') (marked >>= watch) := by
  rw [bind_eq_attempt m f, bind_eq_attempt m' f', bind_eq_attempt marked watch]
  exact h.attempt_bind hf (fun _ _ _ _ he => (Twins.raise he).kins) rfl hparts (orRaise_grows hgrows)
    (orRaise_grows hgrows')

end Kins

/-! ### Side by side -/

/-- Evaluations that do alike, of which none is closed, whatever replies they get that do not throw
the closing signal. -/
def Abreast (same : Pairing → σ → σ → Prop) (K K' E : Alignment) (P : Pairing → α → α → Prop) (ρ : Pairing)
    (m m' : Eval σ α) : Prop :=
  ∀ (since : Option Nat) (τ : Pairing) (S S' : CallState σ), ρ ≤ τ → S.Alike same K τ S' →
    Kin same m m' m (fun now ρ r T r' T' => now = since ∧ Lands same K' E P ρ r T r' T') since τ S S'

/-- An evaluation that does not throw the closing signal unless a reply does. -/
def Open (m : Eval σ α) : Prop :=
  ∀ {S T : CallState σ} {e : Value}, (∀ r ∈ S.script, r.Unclosing) → m S = .error (.thrown e) T → e ≠ .closing

variable {E E' : Alignment}

namespace Twins

theorem abreast (h : Twins same K K₁ E P ρ m m') : Abreast same K K₁ E P ρ m m' := fun since τ S S' hτ hS =>
  (h τ S S' hτ hS).kin since

theorem attempt_bind_open (h : Twins same K K₁ E P ρ m m') (hm : Open m)
    (hok : ∀ τ a a', ρ ≤ τ → P τ a a' → Abreast same K₁ K₂ E' P' τ (g (.ok a)) (g' (.ok a')))
    (herror : ∀ τ e e', ρ ≤ τ → e.Alike τ e' → e ≠ .closing →
      Abreast same E K₂ E' P' τ (g (.error e)) (g' (.error e'))) :
    Abreast same K K₂ E' P' ρ (attempt m >>= g) (attempt m' >>= g') := fun since τ S S' hτ hS => by
  have hscript : ∀ r ∈ S.script, r.Unclosing := by
    rw [hS.script]
    exact fun r hr => absurd hr List.not_mem_nil
  have htwin := h τ S S' hτ hS
  clear hS
  -- the replies so far do not throw the closing signal, so the attempt does not either
  induction htwin with
  | @ends τ ρ' S S' T T' r r' le left right alike =>
    have hleft := left []
    rw [CallState.more_nil, CallState.more_nil] at hleft
    have hkin : Kin same (g r) (g' r') (g r) (fun now ρ r T r' T' => now = since ∧ Lands same K₂ E' P' ρ r T r' T')
        since ρ' T T' := by
      cases alike with
      | ok ha calls => exact hok _ _ _ (hτ.trans le) ha _ _ _ _ (le_refl _) calls
      | error he calls => exact herror _ _ _ (hτ.trans le) he (hm hscript hleft) _ _ _ _ (le_refl _) calls
    exact hkin.behind le (fun s => attempt_bind_of_give (left s)) (fun s => attempt_bind_of_give (left s))
      fun s => attempt_bind_of_give (right s)
  | spent le left right seen =>
    exact .spent le (fun s => attempt_bind_of_error (by simp) (left s))
      (fun s => attempt_bind_of_error (by simp) (right s)) seen
  | @waits τ ρ' S S' T T' p p' le left right asks seen next ih =>
    refine .waits le (attempt_bind_of_error (by simp) left) (attempt_bind_of_error (by simp) left)
      (attempt_bind_of_error (by simp) right) asks seen fun {χ r r'} hχ hclosing hr =>
        ih hχ hr ((hτ.trans le).trans hχ) fun q hq => ?_
    rcases List.mem_append.mp hq with hq | hq
    · exact hscript q hq
    · obtain rfl := List.mem_singleton.mp hq
      exact hclosing

theorem bind_abreast (h : Twins same K K₁ E P ρ m m')
    (hf : ∀ τ a a', ρ ≤ τ → P τ a a' → Abreast same K₁ K₂ E P' τ (f a) (f' a')) :
    Abreast same K K₂ E P' ρ (m >>= f) (m' >>= f') := fun since τ S S' hτ hS => by
  rw [bind_eq_attempt m f, bind_eq_attempt m' f']
  refine (h τ S S' hτ hS).attempt_bind_kin fun ρ' r T r' T' hle hl => ?_
  cases hl with
  | ok alike calls => exact hf _ _ _ (hτ.trans hle) alike _ _ _ _ (le_refl _) calls
  | error alike calls => exact (Twins.raise alike).abreast since _ _ _ (le_refl _) calls

end Twins

namespace Abreast

theorem pure {a a' : α} (h : ∀ τ, ρ ≤ τ → P τ a a') : Abreast same K K E P ρ (Pure.pure a) (Pure.pure a') :=
  (Twins.pure h).abreast

theorem bind (h : Abreast same K K₁ E P ρ m m')
    (hf : ∀ τ a a', ρ ≤ τ → P τ a a' → Abreast same K₁ K₂ E P' τ (f a) (f' a'))
    (hgrows : ∀ a, Within Grows (f a)) (hgrows' : ∀ a, Within Grows (f' a)) :
    Abreast same K K₂ E P' ρ (m >>= f) (m' >>= f') := fun since τ S S' hτ hS => by
  rw [bind_eq_attempt m f, bind_eq_attempt m' f']
  refine (h since τ S S' hτ hS).attempt_bind (fun now ρ' r T r' T' hle ⟨hnow, hl⟩ => ?_) (orRaise_grows hgrows)
    (orRaise_grows hgrows')
  rw [hnow]
  cases hl with
  | ok alike calls => exact hf _ _ _ (hτ.trans hle) alike _ _ _ _ (le_refl _) calls
  | error alike calls => exact (Twins.raise alike).abreast since _ _ _ (le_refl _) calls

/-- What is done depends on the calls as they are, but not on the replies to come. -/
theorem of_get {f f' : CallState σ → Eval σ α} (hmore : ∀ S s, f (S.more s) = f S)
    (hmore' : ∀ S s, f' (S.more s) = f' S)
    (hf : ∀ τ S S', ρ ≤ τ → S.Alike same K τ S' → Abreast same K K₁ E P τ (f S) (f' S')) :
    Abreast same K K₁ E P ρ (get >>= f) (get >>= f') := fun since τ S S' hτ hS =>
  (hf τ S S' hτ hS since τ S S' (le_refl _) hS).behind (le_refl _) (fun s => congrFun (hmore S s) _)
    (fun s => congrFun (hmore S s) _) fun s => congrFun (hmore' S' s) _

end Abreast

end

end Eval
end ResourceMachine
