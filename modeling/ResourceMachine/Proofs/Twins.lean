/-
# Evaluations that are twins

Two evaluations are twins if nobody around them can tell them apart: started alike, they do
what can be seen alike, and come to their ends alike; and if they stop to wait, they go on
alike whatever replies they get, as long as these are alike. Numbers of entities that never
change do not count, nor does what happens in the scopes of a call.

Twins may keep their scopes differently. An `Alignment` says how the scopes of one stand to those
of the other, and each rule says which alignment it starts from and which it leaves.

Key definitions: `Event.isVisible`, `Alignment`, `CallState.Alike`, `Eval.Twin`, `Eval.Twins`.
Key theorems: `Eval.Twin.attempt_bind`, `Eval.Twins.bind`, `Eval.suspend_twins`,
`Eval.callValue_twins`.
-/
import ResourceMachine.Proofs.Computation
import ResourceMachine.Proofs.EvaluationLaws
import ResourceMachine.Proofs.Mirroring
import ResourceMachine.Proofs.Renumbering

namespace ResourceMachine

variable {σ α β : Type} {same : Pairing → σ → σ → Prop} {ρ ρ' τ : Pairing}

/-! ### What can be seen -/

/-- Whether an event involves others than the call itself: the host and its functions, and
iterators. -/
def Event.isVisible : Event → Bool
  | call .. | next .. | close .. | suspend _ => true
  | register _ | exitScope _ | resume _ | raise _ | returns _ => false

theorem Event.Alike.isVisible_eq {e e' : Event} (h : e.Alike ρ e') : e.isVisible = e'.isVisible := by
  cases h <;> rfl

/-- What can be seen of several events is alike. -/
abbrev Event.SeenAlike (ρ : Pairing) (es es' : List Event) : Prop :=
  Event.AllAlike ρ (es.filter Event.isVisible) (es'.filter Event.isVisible)

theorem Event.SeenAlike.mono (h : ρ ≤ ρ') {es es' : List Event} (hes : Event.SeenAlike ρ es es') :
    Event.SeenAlike ρ' es es' := hes.imp fun _ _ he => he.mono h

theorem Event.SeenAlike.append {es es' fs fs' : List Event} (hes : Event.SeenAlike ρ es es')
    (hfs : Event.SeenAlike ρ fs fs') : Event.SeenAlike ρ (es ++ fs) (es' ++ fs') := by
  unfold Event.SeenAlike
  rw [List.filter_append, List.filter_append]
  exact List.rel_append hes hfs

theorem Event.Alike.seen {e e' : Event} (h : e.Alike ρ e') : Event.SeenAlike ρ [e] [e'] := by
  unfold Event.SeenAlike
  rw [List.filter_singleton, List.filter_singleton, h.isVisible_eq]
  cases e'.isVisible with
  | true => exact .cons h .nil
  | false => exact .nil

theorem Value.Alike.isClosing_eq {v w : Value} (h : v.Alike ρ w) : v.isClosing = w.isClosing := by
  cases h <;> rfl

/-- Replies are alike. -/
structure Reply.Alike (same : Pairing → σ → σ → Prop) (ρ : Pairing) (r r' : Reply σ) : Prop where
  answer : r.answer.mode.Alike ρ r'.answer.mode
  world : World.Renumbered same ρ r.world r'.world
  globals : Value.EntriesAlike ρ r.globals r'.globals

/-- What is seen of calls is alike. -/
structure CallState.Beside (same : Pairing → σ → σ → Prop) (ρ : Pairing) (S S' : CallState σ) : Prop where
  world : World.Renumbered same ρ S.world S'.world
  globals : Value.EntriesAlike ρ S.globals S'.globals
  trace : Event.SeenAlike ρ S.trace S'.trace
  rval : S.rval.Alike ρ S'.rval

/-! ### Scopes -/

/-- How the scopes of a call may stand to those of another one. -/
structure Alignment where
  fits : Pairing → List Capability → List Capability → Prop
  mono : ∀ {ρ ρ' : Pairing} {cs ds : List Capability}, ρ ≤ ρ' → fits ρ cs ds → fits ρ' cs ds

theorem Capability.Alike.mono {c d : Capability} (h : ρ ≤ ρ') (hcd : c.Alike ρ d) : c.Alike ρ' d :=
  hcd.imp fun _ _ hr => hr.mono h

namespace Alignment

/-- Both calls have one scope more, and these have registered alike. -/
def inner (K : Alignment) : Alignment where
  fits ρ cs ds := ∃ c cs' d ds', cs = c :: cs' ∧ ds = d :: ds' ∧ c.Alike ρ d ∧ K.fits ρ cs' ds'
  mono := by
    rintro ρ ρ' cs ds hle ⟨c, cs', d, ds', rfl, rfl, hcd, hfits⟩
    exact ⟨c, cs', d, ds', rfl, rfl, hcd.mono hle, K.mono hle hfits⟩

/-- Both calls can register with their innermost scopes what is alike and was declared so. -/
def Registers (K : Alignment) (hint : Hint) : Prop :=
  ∀ {ρ cs ds r s}, K.fits ρ cs ds → Record.Alike ρ r s → r.hint = hint → (hint = .sync → r.method?.isSome) →
    ∃ c cs' d ds', cs = c :: cs' ∧ ds = d :: ds' ∧ K.fits ρ (c.add r :: cs') (d.add s :: ds')

theorem inner_registers (K : Alignment) (hint : Hint) : K.inner.Registers hint := by
  rintro ρ _ _ r s ⟨c, cs', d, ds', rfl, rfl, hcd, hfits⟩ hrs - -
  exact ⟨c, cs', d, ds', rfl, rfl, c.add r, cs', d.add s, ds', rfl, rfl, List.rel_append hcd (.cons hrs .nil), hfits⟩

end Alignment

/-! ### Calls -/

namespace CallState

/-- The call with more replies to come. -/
def more (S : CallState σ) (script : List (Reply σ)) : CallState σ := { S with script := S.script ++ script }

theorem more_nil (S : CallState σ) : S.more [] = S := by simp [more]

theorem more_more (S : CallState σ) (s t : List (Reply σ)) : (S.more s).more t = S.more (s ++ t) := by
  simp [more]

/-- Calls that have used up their replies are alike. -/
structure Alike (same : Pairing → σ → σ → Prop) (K : Alignment) (ρ : Pairing) (S S' : CallState σ) : Prop
    extends S.Beside same ρ S' where
  script : S.script = []
  script' : S'.script = []
  scopes : K.fits ρ S.scopes S'.scopes

variable {K E : Alignment} {S S' : CallState σ}

theorem Alike.realign (h : S.Alike same K ρ S') (hfits : E.fits ρ S.scopes S'.scopes) : S.Alike same E ρ S' :=
  { h with scopes := hfits }

theorem Alike.withScopes (h : S.Alike same K ρ S') {cs ds : List Capability} (hfits : E.fits ρ cs ds) :
    ({ S with scopes := cs } : CallState σ).Alike same E ρ { S' with scopes := ds } :=
  ⟨⟨h.world, h.globals, h.trace, h.rval⟩, h.script, h.script', hfits⟩

theorem Alike.withRval (h : S.Alike same K ρ S') {v w : Value} (hvw : v.Alike ρ w) :
    ({ S with rval := v } : CallState σ).Alike same K ρ { S' with rval := w } :=
  ⟨⟨h.world, h.globals, h.trace, hvw⟩, h.script, h.script', h.scopes⟩

theorem Alike.withTrace (h : S.Alike same K ρ S') {es es' : List Event} (hes : Event.SeenAlike ρ es es') :
    ({ S with trace := S.trace ++ es } : CallState σ).Alike same K ρ { S' with trace := S'.trace ++ es' } :=
  ⟨⟨h.world, h.globals, h.trace.append hes, h.rval⟩, h.script, h.script', h.scopes⟩

/-- Calls work on their worlds, and more entities stand for one another then. -/
theorem Alike.withWorld (h : S.Alike same K ρ S') (hle : ρ ≤ ρ') {w w' : World σ}
    (hw : World.Renumbered same ρ' w w') :
    ({ S with world := w } : CallState σ).Alike same K ρ' { S' with world := w' } :=
  ⟨⟨hw, h.globals.mono hle, h.trace.mono hle, h.rval.mono hle⟩, h.script, h.script', K.mono hle h.scopes⟩

end CallState

namespace Eval

/-! ### Twins -/

/-- A value, or an exception on its way. -/
def give : Except Value α → CallState σ → EStateM.Result Interrupt (CallState σ) α
  | .ok a, S => .ok a S
  | .error e, S => .error (.thrown e) S

/-- Two evaluations of calls that were started, and have got some replies: they have come to
their ends as `Q` says, or both are out of fuel, and what they did so far is alike, or both
wait, and whatever replies they get then, they are twins. Replies that they do not need, they
leave alone. -/
inductive Twin (same : Pairing → σ → σ → Prop) (m m' : Eval σ α)
    (Q : Pairing → Except Value α → CallState σ → Except Value α → CallState σ → Prop) :
    Pairing → CallState σ → CallState σ → Prop
  | ends {ρ ρ' : Pairing} {S S' T T' : CallState σ} {r r' : Except Value α} (le : ρ ≤ ρ')
      (left : ∀ s, m (S.more s) = give r (T.more s)) (right : ∀ s, m' (S'.more s) = give r' (T'.more s))
      (alike : Q ρ' r T r' T') : Twin same m m' Q ρ S S'
  | spent {ρ ρ' : Pairing} {S S' T T' : CallState σ} (le : ρ ≤ ρ')
      (left : ∀ s, m (S.more s) = .error .outOfFuel (T.more s))
      (right : ∀ s, m' (S'.more s) = .error .outOfFuel (T'.more s)) (seen : T.Beside same ρ' T') :
      Twin same m m' Q ρ S S'
  | waits {ρ ρ' : Pairing} {S S' T T' : CallState σ} {p p' : Suspension} (le : ρ ≤ ρ')
      (left : m S = .error (.suspended p) T) (right : m' S' = .error (.suspended p') T')
      (asks : Event.Alike ρ' (.suspend p) (.suspend p')) (seen : T.Beside same ρ' T')
      (next : ∀ {τ : Pairing} {r r' : Reply σ}, ρ' ≤ τ → r.Alike same τ r' →
        Twin same m m' Q τ (S.more [r]) (S'.more [r'])) :
      Twin same m m' Q ρ S S'

section

variable {m m' : Eval σ α} {S S' T T' : CallState σ}
  {Q Q₁ : Pairing → Except Value α → CallState σ → Except Value α → CallState σ → Prop}
  {P : Pairing → Except Value β → CallState σ → Except Value β → CallState σ → Prop}

/-- Evaluations that go on as twins do. -/
theorem Twin.behind {n n' : Eval σ α} (h : Twin same n n' Q ρ' T T') (hle : ρ ≤ ρ')
    (hm : ∀ s, m (S.more s) = n (T.more s)) (hm' : ∀ s, m' (S'.more s) = n' (T'.more s)) :
    Twin same m m' Q ρ S S' := by
  induction h generalizing ρ S S' with
  | ends le left right alike =>
    exact .ends (hle.trans le) (fun s => (hm s).trans (left s)) (fun s => (hm' s).trans (right s)) alike
  | spent le left right seen =>
    exact .spent (hle.trans le) (fun s => (hm s).trans (left s)) (fun s => (hm' s).trans (right s)) seen
  | @waits ρ₁ ρ₂ U U' T T' p p' le left right asks seen _ ih =>
    have hleft := hm []
    have hright := hm' []
    rw [CallState.more_nil, CallState.more_nil] at hleft hright
    refine .waits (hle.trans le) (hleft.trans left) (hright.trans right) asks seen fun hτ hr => ?_
    refine ih hτ hr (le_refl _) (fun s => ?_) fun s => ?_
    · rw [CallState.more_more, CallState.more_more]
      exact hm _
    · rw [CallState.more_more, CallState.more_more]
      exact hm' _

theorem Twin.imp (h : Twin same m m' Q ρ S S')
    (hQ : ∀ ρ' r T r' T', ρ ≤ ρ' → Q ρ' r T r' T' → Q₁ ρ' r T r' T') : Twin same m m' Q₁ ρ S S' := by
  induction h with
  | ends le left right alike => exact .ends le left right (hQ _ _ _ _ _ le alike)
  | spent le left right seen => exact .spent le left right seen
  | waits le left right asks seen _ ih =>
    exact .waits le left right asks seen fun hτ hr =>
      ih hτ hr fun _ _ _ _ _ hle hq => hQ _ _ _ _ _ ((le.trans hτ).trans hle) hq

/-- What is known of the left evaluation where it ends. -/
theorem Twin.and_left (h : Twin same m m' Q ρ S S') {I : Except Value α → CallState σ → Prop}
    (hI : ∀ s r T, m (S.more s) = give r T → I r T) :
    Twin same m m' (fun ρ r T r' T' => Q ρ r T r' T' ∧ I r T) ρ S S' := by
  induction h with
  | @ends _ _ _ _ T _ _ _ le left right alike =>
    have hend := hI [] _ _ (left [])
    rw [CallState.more_nil] at hend
    exact .ends le left right ⟨alike, hend⟩
  | spent le left right seen => exact .spent le left right seen
  | waits le left right asks seen _ ih =>
    refine .waits le left right asks seen fun hτ hr => ih hτ hr fun s r T h => ?_
    rw [CallState.more_more] at h
    exact hI _ _ _ h

theorem attempt_bind_of_give {g : Except Value α → Eval σ β} {r : Except Value α} (h : m S = give r T) :
    (attempt m >>= g) S = g r T := by
  refine bind_of_ok ?_
  unfold attempt
  rw [h]
  cases r <;> rfl

theorem attempt_bind_of_error {g : Except Value α → Eval σ β} {i : Interrupt} (hi : ∀ e, i ≠ .thrown e)
    (h : m S = .error i T) : (attempt m >>= g) S = .error i T := by
  refine bind_of_error ?_
  unfold attempt
  rw [h]
  cases i with
  | thrown e => exact absurd rfl (hi e)
  | _ => rfl

/-- What is done with what twins come to. -/
theorem Twin.attempt_bind (h : Twin same m m' Q ρ S S') {g g' : Except Value α → Eval σ β}
    (hg : ∀ ρ' r T r' T', ρ ≤ ρ' → Q ρ' r T r' T' → Twin same (g r) (g' r') P ρ' T T') :
    Twin same (attempt m >>= g) (attempt m' >>= g') P ρ S S' := by
  induction h with
  | ends le left right alike =>
    exact (hg _ _ _ _ _ le alike).behind le (fun s => attempt_bind_of_give (left s))
      fun s => attempt_bind_of_give (right s)
  | spent le left right seen =>
    exact .spent le (fun s => attempt_bind_of_error (by simp) (left s))
      (fun s => attempt_bind_of_error (by simp) (right s)) seen
  | waits le left right asks seen _ ih =>
    refine .waits le (attempt_bind_of_error (by simp) left) (attempt_bind_of_error (by simp) right) asks seen
      fun hτ hr => ih hτ hr fun ρ' r T r' T' hle => hg ρ' r T r' T' ((le.trans hτ).trans hle)

/-- To go on with a value, or to let an exception pass. -/
def orRaise (f : α → Eval σ β) : Except Value α → Eval σ β
  | .ok a => f a
  | .error e => raise e

theorem bind_eq_attempt (m : Eval σ α) (f : α → Eval σ β) : m >>= f = attempt m >>= orRaise f := by
  funext S
  cases hm : m S with
  | ok a T =>
    have hgive : m S = give (.ok a) T := hm
    rw [bind_of_ok hm, attempt_bind_of_give hgive, orRaise]
  | error i T =>
    rw [bind_of_error hm]
    cases i with
    | thrown e =>
      have hgive : m S = give (.error e) T := hm
      rw [attempt_bind_of_give hgive]
      rfl
    | suspended p => exact (attempt_bind_of_error (by simp) hm).symm
    | outOfFuel => exact (attempt_bind_of_error (by simp) hm).symm

/-- To do something with what an evaluation comes to, if it comes to a value. -/
def settled {γ : Type} (f : α → Eval σ β) (g : Except Value β → Eval σ γ) : Except Value α → Eval σ γ
  | .ok a => attempt (f a) >>= g
  | .error e => g (.error e)

theorem attempt_bind_assoc {γ : Type} (m : Eval σ α) (f : α → Eval σ β) (g : Except Value β → Eval σ γ) :
    attempt (m >>= f) >>= g = attempt m >>= settled f g := by
  funext S
  cases hm : m S with
  | ok a T =>
    have hgive : m S = give (.ok a) T := hm
    have hsame : attempt (m >>= f) S = attempt (f a) T := by
      unfold attempt
      rw [bind_of_ok hm]
    rw [attempt_bind_of_give hgive]
    show EStateM.bind _ _ _ = EStateM.bind _ _ _
    unfold EStateM.bind
    rw [hsame]
  | error i T =>
    have hbind : (m >>= f) S = .error i T := bind_of_error hm
    cases i with
    | thrown e =>
      have hgive : m S = give (.error e) T := hm
      have hgive' : (m >>= f) S = give (.error e) T := hbind
      rw [attempt_bind_of_give hgive, attempt_bind_of_give hgive']
      rfl
    | suspended p =>
      rw [attempt_bind_of_error (by simp) hm, attempt_bind_of_error (by simp) hbind]
    | outOfFuel =>
      rw [attempt_bind_of_error (by simp) hm, attempt_bind_of_error (by simp) hbind]

theorem eq_attempt (m : Eval σ α) : m = attempt m >>= orRaise pure :=
  (bind_pure m).symm.trans (bind_eq_attempt m pure)

end

/-! ### Rules for twins -/

/-- Both have ended with values as `P` says and scopes aligned as `K` says, or have thrown what
is alike with scopes aligned as `E` says. -/
inductive Lands (same : Pairing → σ → σ → Prop) (K E : Alignment) (P : Pairing → α → α → Prop) :
    Pairing → Except Value α → CallState σ → Except Value α → CallState σ → Prop
  | ok {ρ : Pairing} {a a' : α} {T T' : CallState σ} (alike : P ρ a a') (calls : T.Alike same K ρ T') :
      Lands same K E P ρ (.ok a) T (.ok a') T'
  | error {ρ : Pairing} {e e' : Value} {T T' : CallState σ} (alike : e.Alike ρ e')
      (calls : T.Alike same E ρ T') : Lands same K E P ρ (.error e) T (.error e') T'

/-- Two evaluations are twins, from scopes aligned as `K` says to scopes aligned as `K'`
says, or `E` if they throw. -/
def Twins (same : Pairing → σ → σ → Prop) (K K' E : Alignment) (P : Pairing → α → α → Prop) (ρ : Pairing)
    (m m' : Eval σ α) : Prop :=
  ∀ (τ : Pairing) (S S' : CallState σ), ρ ≤ τ → S.Alike same K τ S' →
    Twin same m m' (Lands same K' E P) τ S S'

namespace Twins

variable {K K₁ K₂ E E' : Alignment} {P P' : Pairing → α → α → Prop} {R : Pairing → β → β → Prop} {m m' : Eval σ α}
  {f f' : α → Eval σ β} {g g' : Except Value α → Eval σ β}

theorem mono (h : Twins same K K₁ E P ρ m m') (hle : ρ ≤ ρ') : Twins same K K₁ E P ρ' m m' :=
  fun τ S S' hτ hS => h τ S S' (hle.trans hτ) hS

/-- Evaluations that end at once. -/
theorem of_give (h : ∀ {τ : Pairing} {S S' : CallState σ}, ρ ≤ τ → S.Alike same K τ S' →
    ∃ ρ' r T r' T', τ ≤ ρ' ∧ (∀ s, m (S.more s) = give r (T.more s)) ∧
      (∀ s, m' (S'.more s) = give r' (T'.more s)) ∧ Lands same K₁ E P ρ' r T r' T') :
    Twins same K K₁ E P ρ m m' := fun _ _ _ hτ hS => by
  obtain ⟨ρ', r, T, r', T', hle, hleft, hright, hlands⟩ := h hτ hS
  exact .ends hle hleft hright hlands

theorem pure {a a' : α} (h : ∀ τ, ρ ≤ τ → P τ a a') : Twins same K K E P ρ (Pure.pure a) (Pure.pure a') :=
  .of_give fun hτ hS => ⟨_, .ok a, _, .ok a', _, le_refl _, fun _ => rfl, fun _ => rfl, .ok (h _ hτ) hS⟩

theorem raise {e e' : Value} (h : e.Alike ρ e') :
    Twins same K K₁ K P ρ (Eval.raise e : Eval σ α) (Eval.raise e') :=
  .of_give fun hτ hS => ⟨_, .error e, _, .error e', _, le_refl _, fun _ => rfl, fun _ => rfl,
    .error (h.mono hτ) hS⟩

theorem spent : Twins same K K₁ E P ρ (throw .outOfFuel : Eval σ α) (throw .outOfFuel) :=
  fun _ _ _ _ hS => .spent (le_refl _) (fun _ => rfl) (fun _ => rfl) hS.toBeside

theorem attempt_bind (h : Twins same K K₁ E P ρ m m')
    (hok : ∀ τ a a', ρ ≤ τ → P τ a a' → Twins same K₁ K₂ E' R τ (g (.ok a)) (g' (.ok a')))
    (herror : ∀ τ e e', ρ ≤ τ → e.Alike τ e' → Twins same E K₂ E' R τ (g (.error e)) (g' (.error e'))) :
    Twins same K K₂ E' R ρ (attempt m >>= g) (attempt m' >>= g') := fun _ _ _ hτ hS => by
  refine (h _ _ _ hτ hS).attempt_bind fun ρ' r T r' T' hle hl => ?_
  cases hl with
  | ok alike calls => exact hok _ _ _ (hτ.trans hle) alike _ _ _ (le_refl _) calls
  | error alike calls => exact herror _ _ _ (hτ.trans hle) alike _ _ _ (le_refl _) calls

theorem bind (h : Twins same K K₁ E P ρ m m')
    (hf : ∀ τ a a', ρ ≤ τ → P τ a a' → Twins same K₁ K₂ E R τ (f a) (f' a')) :
    Twins same K K₂ E R ρ (m >>= f) (m' >>= f') := by
  rw [bind_eq_attempt m f, bind_eq_attempt m' f']
  have herror (τ : Pairing) (e e' : Value) (_ : ρ ≤ τ) (he : e.Alike τ e') :
      Twins same E K₂ E R τ (orRaise f (.error e)) (orRaise f' (.error e')) := .raise he
  exact h.attempt_bind (fun τ a a' hτ ha => hf τ a a' hτ ha) herror

/-- What is known of the values that the left evaluation comes to. -/
theorem and_left (h : Twins same K K₁ E P ρ m m') {I : α → Prop} (hI : ∀ S a T, m S = .ok a T → I a) :
    Twins same K K₁ E (fun ρ a a' => P ρ a a' ∧ I a) ρ m m' := fun τ S S' hτ hS => by
  have hleft := (h τ S S' hτ hS).and_left (I := fun r _ => ∀ a, r = .ok a → I a) fun s r T hm a ha => by
    rw [ha] at hm
    exact hI _ _ _ hm
  refine hleft.imp fun _ r T r' T' _ ⟨hlands, ha⟩ => ?_
  cases hlands with
  | ok alike calls => exact .ok ⟨alike, ha _ rfl⟩ calls
  | error alike calls => exact .error alike calls

end Twins

/-! ### Steps -/

section

variable {host : Host σ} {K K₁ E : Alignment} {P : Pairing → α → α → Prop}

theorem log_twins {e e' : Event} (h : Event.SeenAlike ρ [e] [e']) :
    Twins same K K E (fun _ _ _ => True) ρ (log e : Eval σ Unit) (log e') :=
  .of_give fun hτ hS => ⟨_, .ok (), _, .ok (), _, le_refl _, fun _ => rfl, fun _ => rfl,
    .ok trivial (hS.withTrace (h.mono hτ))⟩

theorem signal_twins {e e' : Value} (h : e.Alike ρ e') :
    Twins same K K₁ K P ρ (signal e : Eval σ α) (signal e') :=
  (log_twins (Event.Alike.raise h).seen).bind fun _ _ _ hτ _ => .raise (h.mono hτ)

theorem setRval_twins {v v' : Value} (h : v.Alike ρ v') :
    Twins same K K E (fun _ _ _ => True) ρ (setRval v : Eval σ Unit) (setRval v') :=
  .of_give fun hτ hS => ⟨_, .ok (), _, .ok (), _, le_refl _, fun _ => rfl, fun _ => rfl,
    .ok trivial (hS.withRval (h.mono hτ))⟩

theorem returnValue_twins {v v' : Value} (h : v.Alike ρ v') :
    Twins same K K E (fun _ _ _ => True) ρ (returnValue v : Eval σ Unit) (returnValue v') :=
  (log_twins (Event.Alike.returns h).seen).bind fun _ _ _ hτ _ => setRval_twins (h.mono hτ)

theorem onHeap_apply (m : OnHeap Value α) (S : CallState σ) :
    onHeap m S = match m S.world.heap with
      | .ok a heap => .ok a { S with world := ⟨heap, S.world.host⟩ }
      | .error e heap => .error (.thrown e) { S with world := ⟨heap, S.world.host⟩ } := by
  simp only [onHeap, World.onHeap]
  cases m S.world.heap <;> rfl

theorem onHeap_lands (hhost : host.Blind same) {D : Pairing → Value → Value → Prop} {m m' : OnHeap Value α}
    (h : ∀ τ, ρ ≤ τ → Tandem Heap.Renumbered τ D P m m')
    (hD : ∀ {τ e e' T T'}, D τ e e' → T.Alike same K τ T' →
      Lands same K E P τ (.error e) T (.error e') T') :
    Twins same K K E P ρ (onHeap m : Eval σ α) (onHeap m') := .of_give fun {τ S S'} hτ hS => by
  have hmatched := h τ hτ _ _ hS.world.heap
  have hleft (s : List (Reply σ)) := onHeap_apply m (S.more s)
  have hright (s : List (Reply σ)) := onHeap_apply m' (S'.more s)
  have hworld (s : List (Reply σ)) : (S.more s).world.heap = S.world.heap := rfl
  have hworld' (s : List (Reply σ)) : (S'.more s).world.heap = S'.world.heap := rfl
  simp only [hworld] at hleft
  simp only [hworld'] at hright
  generalize m S.world.heap = x at hmatched hleft
  generalize m' S'.world.heap = y at hmatched hright
  cases hmatched with
  | @ok ρ' a a' h h' le like alike =>
    have hworlds : World.Renumbered same ρ' ⟨h, S.world.host⟩ ⟨h', S'.world.host⟩ :=
      ⟨like, hhost.mono le hS.world.host⟩
    exact ⟨ρ', .ok a, { S with world := ⟨h, S.world.host⟩ }, .ok a', { S' with world := ⟨h', S'.world.host⟩ },
      le, hleft, hright, .ok alike (hS.withWorld le hworlds)⟩
  | @error ρ' e e' h h' le like alike =>
    have hworlds : World.Renumbered same ρ' ⟨h, S.world.host⟩ ⟨h', S'.world.host⟩ :=
      ⟨like, hhost.mono le hS.world.host⟩
    exact ⟨ρ', .error e, { S with world := ⟨h, S.world.host⟩ }, .error e',
      { S' with world := ⟨h', S'.world.host⟩ }, le, hleft, hright, hD alike (hS.withWorld le hworlds)⟩

theorem onHeap_twins (hhost : host.Blind same) {m m' : OnHeap Value α}
    (h : ∀ τ, ρ ≤ τ → Tandem Heap.Renumbered τ Value.Alike P m m') :
    Twins same K K K P ρ (onHeap m : Eval σ α) (onHeap m') := onHeap_lands hhost h .error

/-- Work on the heap that cannot fail. -/
theorem onHeap_twins_ok (hhost : host.Blind same) {m m' : OnHeap Value α}
    (h : ∀ τ, ρ ≤ τ → Tandem Heap.Renumbered τ (fun _ _ _ => False) P m m') :
    Twins same K K E P ρ (onHeap m : Eval σ α) (onHeap m') := onHeap_lands hhost h False.elim

theorem raiseNew_twins (hhost : host.Blind same) (kind : ErrorKind) (message : String) :
    Twins same K K₁ K P ρ (raiseNew kind message : Eval σ α) (raiseNew kind message) :=
  (onHeap_twins hhost fun _ _ => Heap.newError_tandem kind message).bind fun _ _ _ _ he => signal_twins he

theorem callFunction_apply (host : Host σ) (origin : Origin) (f : Callable) (receiver : Value) (args : List Value)
    (S : CallState σ) : callFunction host origin f receiver args S =
      match f.call host receiver args S.world with
      | .ok v w => .ok v { S with world := w, trace := S.trace ++ [.call origin f receiver args (.ok v)] }
      | .error e w => .error (.thrown e)
          { S with world := w, trace := S.trace ++ [.call origin f receiver args (.error e)] ++ [.raise e] } := by
  unfold callFunction Guest.settle
  cases f.call host receiver args S.world <;> rfl

theorem callFunction_twins (hhost : host.Blind same) (origin : Origin) {f f' : Callable} (hf : f.Alike ρ f')
    {receiver receiver' : Value} (hreceiver : receiver.Alike ρ receiver') {args args' : List Value}
    (hargs : Value.AllAlike ρ args args') :
    Twins same K K K Value.Alike ρ (callFunction host origin f receiver args)
      (callFunction host origin f' receiver' args') := .of_give fun {τ S S'} hτ hS => by
  have hmatched := Callable.call_tandem hhost (hf.mono hτ) (hreceiver.mono hτ) (hargs.mono hτ) _ _ hS.world
  have hleft (s : List (Reply σ)) := callFunction_apply host origin f receiver args (S.more s)
  have hright (s : List (Reply σ)) := callFunction_apply host origin f' receiver' args' (S'.more s)
  have hworld (s : List (Reply σ)) : (S.more s).world = S.world := rfl
  have hworld' (s : List (Reply σ)) : (S'.more s).world = S'.world := rfl
  simp only [hworld] at hleft
  simp only [hworld'] at hright
  generalize f.call host receiver args S.world = x at hmatched hleft
  generalize f'.call host receiver' args' S'.world = y at hmatched hright
  have htrace {ρ' : Pairing} (hle : τ ≤ ρ') {result result' : Except Value Value}
      (hresult : Value.ResultAlike Value.Alike ρ' result result') :
      Event.SeenAlike ρ' [.call origin f receiver args result] [.call origin f' receiver' args' result'] :=
    (Event.Alike.call (hf.mono (hτ.trans hle)) (hreceiver.mono (hτ.trans hle)) (hargs.mono (hτ.trans hle))
      hresult).seen
  cases hmatched with
  | @ok ρ' v v' w w' le like alike =>
    have hcalls := (hS.withWorld le like).withTrace (htrace le (.ok alike))
    refine ⟨ρ', .ok v, _, .ok v', _, le, ?_, ?_, .ok alike hcalls⟩
    · exact hleft
    · exact hright
  | @error ρ' e e' w w' le like alike =>
    have hcalls := ((hS.withWorld le like).withTrace (htrace le (.error alike))).withTrace
      (Event.Alike.raise alike).seen
    refine ⟨ρ', .error e, _, .error e', _, le, ?_, ?_, .error alike hcalls⟩
    · exact hleft
    · exact hright

/-- Functions that are alike are called alike, and what is no function cannot be called. -/
theorem callValue_twins (hhost : host.Blind same) (origin : Origin) {callee callee' : Value}
    (hcallee : callee.Alike ρ callee') {receiver receiver' : Value} (hreceiver : receiver.Alike ρ receiver')
    {args args' : List Value} (hargs : Value.AllAlike ρ args args') :
    Twins same K K K Value.Alike ρ (callValue host origin callee receiver args)
      (callValue host origin callee' receiver' args') := by
  cases hcallee with
  | function hf => exact callFunction_twins hhost origin hf hreceiver hargs
  | primitive hv =>
    cases callee
    case function => cases hv
    all_goals exact raiseNew_twins hhost _ _
  | _ => exact raiseNew_twins hhost _ _

end

end Eval

/-! ### Suspensions -/

namespace Answer

/-- What a suspended call goes on with. -/
def result : Answer → Except Value Value
  | next v => .ok v
  | throw e => .error e
  | ret _ => .error .closing

/-- What the return slot holds then. -/
def slot (rval : Value) : Answer → Value
  | ret v => v
  | _ => rval

end Answer

/-- Those who wait for what is alike make alike answers of alike ones. -/
theorem Suspension.accept_alike {p p' : Suspension} {a a' : Answer}
    (hp : Event.Alike ρ (.suspend p) (.suspend p')) (ha : a.mode.Alike ρ a'.mode) :
    (p.accept a).mode.Alike ρ (p'.accept a').mode := by
  cases hp with
  | yield => exact ha
  | @await v v' hv =>
    cases hv with
    | promise hab =>
      cases a <;> cases a' <;> cases ha
      · rename_i hv
        exact .next hv
      · rename_i he
        exact .throw he
      · rename_i hv
        exact .next hv
    | primitive hv =>
      cases v
      case promise => cases hv
      all_goals exact .next (.primitive hv)
    | object h => exact .next (.object h)
    | function h => exact .next (.function h)
    | error h => exact .next (.error h)
    | suppressed h herror holder => exact .next (.suppressed h herror holder)
    | iterator h => exact .next (.iterator h)
    | list h hlength hitems => exact .next (.list h hlength hitems)
    | resource h hvalue hmethod => exact .next (.resource h hvalue hmethod)
    | bare h hvalue => exact .next (.bare h hvalue)

namespace Eval

section

variable {host : Host σ} {K K₁ E : Alignment} {P : Pairing → α → α → Prop}

/-- The call where it goes on behind a suspension. -/
def resumed (S : CallState σ) (p : Suspension) (r : Reply σ) : CallState σ where
  world := r.world
  globals := r.globals
  script := []
  trace := S.trace ++ [.suspend p] ++ [.resume (p.accept r.answer)]
  rval := (p.accept r.answer).slot S.rval
  scopes := S.scopes

theorem suspend_apply {p : Suspension} {S : CallState σ} {r : Reply σ} {rest : List (Reply σ)}
    (h : S.script = r :: rest) :
    suspend p S = give (p.accept r.answer).result ((resumed S p r).more rest) := by
  simp only [suspend, h, resumed]
  cases p.accept r.answer <;> rfl

theorem suspend_lands {p p' : Suspension} {P : Pairing → Value → Value → Prop}
    (hp : Event.Alike ρ (.suspend p) (.suspend p'))
    (hland : ∀ {τ : Pairing} {a a' : Answer} {T T' : CallState σ}, (p.accept a).mode.Alike τ (p'.accept a').mode →
      T.Alike same K τ T' → Lands same K E P τ (p.accept a).result T (p'.accept a').result T') :
    Twins same K K E P ρ (suspend p : Eval σ Value) (suspend p') := by
  intro τ S S' hτ hS
  have hstop {S : CallState σ} {p : Suspension} (h : S.script = []) :
      suspend p S = .error (.suspended p) { S with trace := S.trace ++ [.suspend p] } := by
    unfold suspend
    rw [h]
  have hp' : Event.Alike τ (.suspend p) (.suspend p') := hp.mono hτ
  refine .waits (le_refl τ) (hstop hS.script) (hstop hS.script') hp' (hS.withTrace hp'.seen).toBeside ?_
  intro χ r r' hχ hr
  have hanswer := Suspension.accept_alike (hp'.mono hχ) hr.answer
  have hscript (s : List (Reply σ)) : ((S.more [r]).more s).script = r :: s := by
    simp [CallState.more, hS.script]
  have hscript' (s : List (Reply σ)) : ((S'.more [r']).more s).script = r' :: s := by
    simp [CallState.more, hS.script']
  have hresumed : (resumed S p r).Alike same K χ (resumed S' p' r') := by
    refine ⟨⟨hr.world, hr.globals, ?_, ?_⟩, rfl, rfl, K.mono hχ hS.scopes⟩
    · exact ((hS.trace.mono hχ).append (hp'.mono hχ).seen).append (Event.Alike.resume hanswer).seen
    · have hrval := hS.rval.mono hχ
      unfold resumed
      generalize p.accept r.answer = a at hanswer
      generalize p'.accept r'.answer = a' at hanswer
      cases a <;> cases a' <;> cases hanswer
      · exact hrval
      · exact hrval
      · assumption
  exact .ends (le_refl χ) (fun s => suspend_apply (hscript s)) (fun s => suspend_apply (hscript' s))
    (hland hanswer hresumed)

theorem suspend_twins {p p' : Suspension} (hp : Event.Alike ρ (.suspend p) (.suspend p')) :
    Twins same K K K Value.Alike ρ (suspend p : Eval σ Value) (suspend p') := by
  refine suspend_lands hp fun {τ a a' T T'} ha hT => ?_
  generalize p.accept a = b at ha
  generalize p'.accept a' = b' at ha
  cases b <;> cases b' <;> cases ha
  · exact .ok ‹_› hT
  · exact .error ‹_› hT
  · exact .error .closing hT

theorem await_twins {v v' : Value} (h : v.Alike ρ v') :
    Twins same K K K Value.Alike ρ (await v : Eval σ Value) (await v') :=
  (setRval_twins h).bind fun _ _ _ hτ _ => suspend_twins (.await (h.mono hτ))

theorem yield_twins {v v' : Value} (h : v.Alike ρ v') :
    Twins same K K K Value.Alike ρ (yield v : Eval σ Value) (yield v') :=
  (setRval_twins h).bind fun _ _ _ hτ _ => suspend_twins (.yield (h.mono hτ))

/-- To wait for nothing does not fail. -/
theorem tick_twins : Twins same K K E (fun _ _ _ => True) ρ (tick : Eval σ Unit) tick := by
  have hawait : Twins same K K E Value.Alike ρ (await .undefined : Eval σ Value) (await .undefined) :=
    (setRval_twins .undefined).bind fun _ _ _ _ _ => suspend_lands (.await .undefined) fun _ hT =>
      .ok .undefined hT
  exact hawait.bind fun _ _ _ _ _ => .pure fun _ _ => trivial

/-! ### Iterators -/

theorem iterate_twins (hhost : host.Blind same) {v v' : Value} (h : v.Alike ρ v') :
    Twins same K K K (fun _ a b => a = b) ρ (iterate v : Eval σ Nat) (iterate v') := by
  cases h with
  | iterator hab =>
    refine .of_give fun {τ S S'} hτ hS => ⟨τ, .ok _, S, .ok _, S', le_refl _, fun _ => rfl, fun _ => rfl, ?_⟩
    exact .ok (hS.world.heap.iterator_iff.mp (hτ _ _ _ hab)) hS
  | @list a b items items' hab hlength hitems =>
    refine .of_give fun {τ S S'} hτ hS => ?_
    have hcursor : (Cursor.ofList items none).Alike τ (Cursor.ofList items' none) :=
      ⟨(List.forall₂_iff_zip.mpr ⟨hlength, fun h => (hitems h).mono hτ⟩), rfl, rfl, .none⟩
    have hheap := hS.world.heap.pushIterator hcursor
    have hworlds : World.Renumbered same τ ⟨_, S.world.host⟩ ⟨_, S'.world.host⟩ := ⟨hheap, hS.world.host⟩
    exact ⟨τ, .ok _, _, .ok _, _, le_refl _, fun _ => rfl, fun _ => rfl,
      .ok hS.world.heap.iterators_size (hS.withWorld (le_refl _) hworlds)⟩
  | primitive hv =>
    cases v
    case list | iterator => cases hv
    all_goals exact raiseNew_twins hhost _ _
  | _ => exact raiseNew_twins hhost _ _

theorem nextItem_twins (id : Nat) :
    Twins same K K E (fun ρ => Option.Rel (Value.Alike ρ)) ρ (nextItem id : Eval σ (Option Value))
      (nextItem id) := by
  refine .of_give fun {τ S S'} _ hS => ?_
  have hnext := (hS.world.heap.cursor id).next
  have hheap := hS.world.heap.setIterator id hnext.2
  have hworlds : World.Renumbered same τ ⟨_, S.world.host⟩ ⟨_, S'.world.host⟩ := ⟨hheap, hS.world.host⟩
  have hseen := (Event.Alike.next (hS.world.heap.iterator_iff.mpr (Eq.refl id)) hnext.1).seen
  exact ⟨τ, .ok _, _, .ok _, _, le_refl _, fun _ => rfl, fun _ => rfl,
    .ok hnext.1 ((hS.withWorld (le_refl _) hworlds).withTrace hseen)⟩

theorem closeIterator_twins (id : Nat) :
    Twins same K K E (fun ρ => Option.Rel (Value.Alike ρ)) ρ (closeIterator id : Eval σ (Option Value))
      (closeIterator id) := by
  refine .of_give fun {τ S S'} _ hS => ?_
  have hclose := (hS.world.heap.cursor id).close
  have hheap := hS.world.heap.setIterator id hclose.2
  have hworlds : World.Renumbered same τ ⟨_, S.world.host⟩ ⟨_, S'.world.host⟩ := ⟨hheap, hS.world.host⟩
  have hseen := (Event.Alike.close (hS.world.heap.iterator_iff.mpr (Eq.refl id)) hclose.1).seen
  exact ⟨τ, .ok _, _, .ok _, _, le_refl _, fun _ => rfl, fun _ => rfl,
    .ok hclose.1 ((hS.withWorld (le_refl _) hworlds).withTrace hseen)⟩

theorem leaveIterator_twins (id : Nat) :
    Twins same K K K (fun _ _ _ => True) ρ (leaveIterator id : Eval σ Unit) (leaveIterator id) := by
  refine (closeIterator_twins id).bind fun τ error error' _ h => ?_
  cases h with
  | none => exact .pure fun _ _ => trivial
  | some he => exact signal_twins he

end

end Eval
end ResourceMachine
