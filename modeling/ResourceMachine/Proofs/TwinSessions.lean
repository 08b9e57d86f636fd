/-
# Calls that run side by side

The code of twins runs side by side: either both calls go on for ever, or both come to an
end or stop alike; and if they have stopped, they run on side by side, whatever replies they
get. That is proved for as many instructions as one likes (`Entry.alongside_of_twin`). What
it takes for entities to stand for one another does not depend on how many these are: there
are only finitely many ways to pair the entities that there are, so one of them serves for
all numbers of instructions (`Entry.Alongside.settle`).

Key definitions: `Entry`, `Entry.Comes`, `Entry.Alongside`.
Key theorems: `Pairing.exists_forall`, `Entry.alongside_of_twin`, `Entry.Alongside.settle`.
-/
import ResourceMachine.Proofs.TaskEvaluation
import ResourceMachine.Proofs.Twins
import Mathlib.Data.Finite.Prod
import Mathlib.Data.Fintype.Pigeonhole
import Mathlib.Order.Interval.Finset.Nat

namespace ResourceMachine

variable {σ : Type}

/-! ### One pairing for all numbers -/

/-- Pairings of what has at most `a` and `b` entities that never change. -/
structure Pairing.Within (a b : Nat) (ρ : Pairing) : Prop where
  still : ∀ {realm}, realm ≠ .constant → ∀ {i j}, ρ realm i j ↔ i = j
  known : ∀ {i j}, ρ .constant i j → i < a ∧ j < b

theorem Heap.Renumbered.within {ρ : Pairing} {h h' : Heap} (hr : Heap.Renumbered ρ h h') :
    ρ.Within h.identities h'.identities := ⟨hr.still, hr.known⟩

theorem Pairing.Within.eq {a b : Nat} {ρ τ : Pairing} (h : ρ.Within a b) (h' : τ.Within a b)
    (heq : ∀ (i : Fin a) (j : Fin b), ρ .constant i j ↔ τ .constant i j) : ρ = τ := by
  funext realm i j
  refine propext ?_
  by_cases hrealm : realm = .constant
  · subst hrealm
    refine ⟨fun hij => ?_, fun hij => ?_⟩
    · exact (heq ⟨i, (h.known hij).1⟩ ⟨j, (h.known hij).2⟩).mp hij
    · exact (heq ⟨i, (h'.known hij).1⟩ ⟨j, (h'.known hij).2⟩).mpr hij
  · exact (h.still hrealm).trans (h'.still hrealm).symm

/-- What holds of some pairing for every number, and of smaller numbers if it does of larger
ones, holds of one pairing for all numbers: only finitely many come into question. -/
theorem Pairing.exists_forall {P : Nat → Pairing → Prop} (a b : Nat) (h : ∀ n, ∃ ρ : Pairing, ρ.Within a b ∧ P n ρ)
    (hanti : ∀ {m n : Nat} {ρ : Pairing}, m ≤ n → P n ρ → P m ρ) : ∃ ρ, ∀ n, P n ρ := by
  choose ρ hwithin hP using h
  obtain ⟨r, hr⟩ := Finite.exists_infinite_fiber fun n => fun (i : Fin a) (j : Fin b) => ρ n .constant i j
  obtain ⟨m, hm⟩ := hr.nonempty
  refine ⟨ρ m, fun n => ?_⟩
  obtain ⟨k, hk, hnk⟩ := (Set.infinite_coe_iff.mp hr).exists_gt n
  have hsame : ρ k = ρ m := (hwithin k).eq (hwithin m) fun i j => by
    have := congrFun (congrFun (Eq.trans hk hm.symm) i) j
    exact Eq.to_iff this
  exact hanti (Nat.le_of_lt hnk) (hsame ▸ hP k)

/-! ### Calls where they are entered -/

/-- A call where it is entered, with room for so many operands. -/
structure Entry (σ : Type) where
  call : Call
  room : Nat
  world : World σ
  globals : Globals

namespace Entry

/-- The session of the call that gets these replies. -/
def session (e : Entry σ) (script : List (Reply σ)) : Session σ :=
  .start (e.call.first e.room) e.world e.globals script

/-- The call gets so far in a number of instructions. -/
abbrev Gets (e : Entry σ) (host : Host σ) (script : List (Reply σ)) (k : Nat) (s : Session σ) : Prop :=
  Steps host e.call.function.code k (e.session script) s

/-- After `n` instructions, or more, the call is still under way. -/
structure Lasts (e : Entry σ) (host : Host σ) (n : Nat) (script : List (Reply σ)) (s : Session σ) : Prop where
  gets : ∃ k, n ≤ k ∧ e.Gets host script k s
  running : ∃ pc, s.control = .running pc

/-- The call comes to an end or stops. -/
def Comes (e : Entry σ) (host : Host σ) (script : List (Reply σ)) (s : Session σ) (o : Outcome) : Prop :=
  s.control = .ended o ∧ ∃ k, e.Gets host script k s

variable {host : Host σ} {e e' : Entry σ} {script script' : List (Reply σ)} {s s' : Session σ} {o o' : Outcome}

theorem Comes.unique (h : e.Comes host script s o) (h' : e.Comes host script s' o') : s = s' ∧ o = o' := by
  obtain ⟨hs, k, hk⟩ := h
  obtain ⟨hs', k', hk'⟩ := h'
  have hsame : s = s' := by
    rcases Nat.le_total k k' with hle | hle
    · exact ((hk.split hk' hle).of_ended hs).2.symm
    · exact ((hk'.split hk hle).of_ended hs').2
  subst hsame
  exact ⟨rfl, Control.ended.inj (hs.symm.trans hs')⟩

theorem Lasts.mono {m n : Nat} (h : e.Lasts host n script s) (hle : m ≤ n) : e.Lasts host m script s := by
  obtain ⟨⟨k, hk, hgets⟩, hrunning⟩ := h
  exact ⟨⟨k, hle.trans hk, hgets⟩, hrunning⟩

/-- A call that is still under way did not come to an end before. -/
theorem Lasts.lt_of_comes {k n : Nat} (h : e.Lasts host n script s) (hk : e.Gets host script k s')
    (hs : s'.control = .ended o) : n < k := by
  obtain ⟨⟨j, hj, hgets⟩, pc, hpc⟩ := h
  by_contra hle
  obtain ⟨-, rfl⟩ := (hk.split hgets ((Nat.le_of_not_lt hle).trans hj)).of_ended hs
  rw [hs] at hpc
  cases hpc

end Entry

/-- What is seen of sessions is alike. -/
structure Session.Beside (same : Pairing → σ → σ → Prop) (ρ : Pairing) (s s' : Session σ) : Prop where
  world : World.Renumbered same ρ s.world s'.world
  globals : Value.EntriesAlike ρ s.globals s'.globals
  trace : Event.SeenAlike ρ s.trace s'.trace

namespace Entry

/-- Two calls run side by side for `n` instructions at least: both go on for so long, and what they
do is alike, or both come to an end or stop alike; and where they have stopped, they run on side by
side whatever replies they get. -/
inductive Alongside (host : Host σ) (same : Pairing → σ → σ → Prop) (e e' : Entry σ) (n : Nat) :
    Pairing → List (Reply σ) → List (Reply σ) → Prop
  | lasts {ρ ρ' : Pairing} {script script' : List (Reply σ)} {s s' : Session σ} (le : ρ ≤ ρ')
      (left : e.Lasts host n script s) (right : e'.Lasts host n script' s') (beside : s.Beside same ρ' s') :
      Alongside host same e e' n ρ script script'
  | comes {ρ ρ' : Pairing} {script script' : List (Reply σ)} {s s' : Session σ} {o o' : Outcome} (le : ρ ≤ ρ')
      (left : e.Comes host script s o) (right : e'.Comes host script' s' o') (alike : o.Alike ρ' o')
      (beside : s.Beside same ρ' s')
      (next : ∀ {τ : Pairing} {r r' : Reply σ}, o.suspension?.isSome → ρ' ≤ τ → r.Alike same τ r' →
        Alongside host same e e' n τ (script ++ [r]) (script' ++ [r'])) :
      Alongside host same e e' n ρ script script'

variable {host : Host σ} {same : Pairing → σ → σ → Prop} {e e' : Entry σ} {script script' : List (Reply σ)}
  {s s' : Session σ} {o o' : Outcome} {ρ : Pairing} {m n : Nat}

theorem Alongside.mono (h : e.Alongside host same e' n ρ script script') (hle : m ≤ n) :
    e.Alongside host same e' m ρ script script' := by
  induction h with
  | lasts le left right beside => exact .lasts le (left.mono hle) (right.mono hle) beside
  | comes le left right alike beside _ ih => exact .comes le left right alike beside ih

/-- Calls that go on for ever, and do alike. -/
def Endless (host : Host σ) (same : Pairing → σ → σ → Prop) (e e' : Entry σ) (ρ : Pairing)
    (script script' : List (Reply σ)) : Prop :=
  ∀ n, ∃ s s' ρ', ρ ≤ ρ' ∧ e.Lasts host n script s ∧ e'.Lasts host n script' s' ∧ s.Beside same ρ' s'

/-- What calls come to, if they run side by side for ever. -/
structure Settled (host : Host σ) (same : Pairing → σ → σ → Prop) (e e' : Entry σ) (ρ : Pairing)
    (script script' : List (Reply σ)) (s s' : Session σ) (o o' : Outcome) (ρ' : Pairing) : Prop where
  le : ρ ≤ ρ'
  left : e.Comes host script s o
  right : e'.Comes host script' s' o'
  alike : o.Alike ρ' o'
  beside : s.Beside same ρ' s'
  next : o.suspension?.isSome → ∀ n {τ : Pairing} {r r' : Reply σ}, ρ' ≤ τ → r.Alike same τ r' →
    e.Alongside host same e' n τ (script ++ [r]) (script' ++ [r'])

/-- **Calls that run side by side for any number of instructions do so for ever.** -/
theorem Alongside.settle (h : ∀ n, e.Alongside host same e' n ρ script script') :
    e.Endless host same e' ρ script script' ∨
      ∃ s s' o o' ρ', e.Settled host same e' ρ script script' s s' o o' ρ' := by
  by_cases hcomes : ∃ s o, e.Comes host script s o
  · right
    obtain ⟨s, o, hleft⟩ := hcomes
    obtain ⟨hs, k, hk⟩ := hleft
    have hcome (n : Nat) : ∃ s' o' ρ', ρ ≤ ρ' ∧ e'.Comes host script' s' o' ∧ o.Alike ρ' o' ∧ s.Beside same ρ' s' ∧
        ∀ {τ : Pairing} {r r' : Reply σ}, o.suspension?.isSome → ρ' ≤ τ → r.Alike same τ r' →
          e.Alongside host same e' n τ (script ++ [r]) (script' ++ [r']) := by
      cases h (n + k) with
      | lasts _ left => exact absurd (left.lt_of_comes hk hs) (Nat.not_lt.mpr (Nat.le_add_left k n))
      | @comes _ ρ' _ _ _ s' _ o' le left right alike beside next =>
        obtain ⟨rfl, rfl⟩ := left.unique ⟨hs, k, hk⟩
        exact ⟨s', o', ρ', le, right, alike, beside, fun ho hτ hr => (next ho hτ hr).mono (Nat.le_add_right n k)⟩
    obtain ⟨s', o', -, -, hright, -⟩ := hcome 0
    obtain ⟨ρ', hρ'⟩ := Pairing.exists_forall (P := fun n ρ' => ρ ≤ ρ' ∧ o.Alike ρ' o' ∧ s.Beside same ρ' s' ∧
        ∀ {τ : Pairing} {r r' : Reply σ}, o.suspension?.isSome → ρ' ≤ τ → r.Alike same τ r' →
          e.Alongside host same e' n τ (script ++ [r]) (script' ++ [r']))
      s.world.heap.identities s'.world.heap.identities (fun n => by
        obtain ⟨t', p', ρ', hle, hright', halike, hbeside, hnext⟩ := hcome n
        obtain ⟨rfl, rfl⟩ := hright.unique hright'
        exact ⟨ρ', hbeside.world.heap.within, hle, halike, hbeside, hnext⟩)
      (by
        rintro m n τ hmn ⟨hle, halike, hbeside, hnext⟩
        exact ⟨hle, halike, hbeside, fun ho hτ hr => (hnext ho hτ hr).mono hmn⟩)
    obtain ⟨hle, halike, hbeside, -⟩ := hρ' 0
    exact ⟨s, s', o, o', ρ', hle, ⟨hs, k, hk⟩, hright, halike, hbeside,
      fun ho n _ _ _ hτ hr => (hρ' n).2.2.2 ho hτ hr⟩
  · left
    intro n
    cases h n with
    | lasts le left right beside => exact ⟨_, _, _, le, left, right, beside⟩
    | comes _ left => exact absurd ⟨_, _, left⟩ hcomes

end Entry

/-! ### Twins run side by side -/

/-- How a call ends that comes to a value or an exception. -/
def Outcome.ofResult (rval : Value) : Except Value Value → Outcome
  | .ok v => .completed v
  | .error e => if e.isClosing then .completed rval else .threw e

theorem Outcome.ofResult_suspension? (rval : Value) (r : Except Value Value) :
    (Outcome.ofResult rval r).suspension? = none := by
  cases r with
  | ok v => rfl
  | error e =>
    show (if e.isClosing = true then completed rval else threw e).suspension? = none
    split <;> rfl

theorem Declaration.run_of_give {d : Declaration} {host : Host σ} {n : Nat} {args : List Value} {S T : CallState σ}
    {r : Except Value Value} (h : d.call host n args S = Eval.give r T) :
    d.run host n args S = (some (.ofResult T.rval r), T) := by
  rw [run, h]
  cases r with
  | ok v => rfl
  | error e => cases e <;> rfl

theorem Eval.Lands.outcome {same : Pairing → σ → σ → Prop} {ρ : Pairing} {K E : Alignment}
    {r r' : Except Value Value} {T T' : CallState σ} (h : Eval.Lands same K E Value.Alike ρ r T r' T') :
    (Outcome.ofResult T.rval r).Alike ρ (Outcome.ofResult T'.rval r') ∧ T.Beside same ρ T' := by
  cases h with
  | ok alike calls => exact ⟨.completed alike, calls.toBeside⟩
  | @error e e' _ _ alike calls =>
    refine ⟨?_, calls.toBeside⟩
    show (if e.isClosing = true then _ else _ : Outcome).Alike ρ (if e'.isClosing = true then _ else _)
    rw [alike.isClosing_eq]
    split
    · exact .completed calls.rval
    · exact .threw alike

namespace Entry

variable {host : Host σ} {same : Pairing → σ → σ → Prop} {e e' : Entry σ} {d d' : Declaration} {ρ : Pairing} {n : Nat}

/-- The call with a script of replies before it. -/
def initial (e : Entry σ) (script : List (Reply σ)) : CallState σ := .initial e.world e.globals script

theorem more_initial (e : Entry σ) (script : List (Reply σ)) (r : Reply σ) :
    (e.initial script).more [r] = e.initial (script ++ [r]) := rfl

/-- The session of a compiled function follows its call. -/
theorem follows (hd : e.call.Calls d) (hroom : e.call.function.maxStack ≤ e.room) (host : Host σ) (n : Nat)
    (script : List (Reply σ)) : ∃ k s, e.Gets host script k s ∧
      ((d.run host n e.call.args (e.initial script)).1 = none ∧ n ≤ k ∧ (∃ pc, s.control = .running pc) ∨
        ∃ o, (d.run host n e.call.args (e.initial script)).1 = some o ∧ s.control = .ended o) ∧
      s.world = (d.run host n e.call.args (e.initial script)).2.world ∧
      s.globals = (d.run host n e.call.args (e.initial script)).2.globals ∧
      s.trace = (d.run host n e.call.args (e.initial script)).2.trace := by
  have hentered := hd.entered host hroom e.world e.globals script
  obtain ⟨k, s, hrun, hends⟩ := hentered.follows n
  refine ⟨k, s, hrun, ?_⟩
  have hsame : d.run (hd.setting host e.room hroom).host n e.call.args (.initial e.world e.globals script) =
      d.run host n e.call.args (e.initial script) := rfl
  rw [hsame] at hends
  match d.run host n e.call.args (e.initial script), hends with
  | (none, S), hends =>
    obtain ⟨hle, spot, rfl⟩ := hends
    exact ⟨.inl ⟨rfl, hle, _, rfl⟩, rfl, rfl, rfl⟩
  | (some o, S), hends =>
    obtain ⟨spot, rfl, -⟩ := hends
    exact ⟨.inr ⟨o, rfl, rfl⟩, rfl, rfl, rfl⟩

/-- A session stands where a call does. -/
structure Meets (s : Session σ) (S : CallState σ) : Prop where
  world : s.world = S.world
  globals : s.globals = S.globals
  trace : s.trace = S.trace

theorem Meets.beside {s s' : Session σ} {S S' : CallState σ} (h : Meets s S) (h' : Meets s' S')
    (hS : S.Beside same ρ S') : s.Beside same ρ s' := by
  obtain ⟨hworld, hglobals, htrace⟩ := h
  obtain ⟨hworld', hglobals', htrace'⟩ := h'
  refine ⟨?_, ?_, ?_⟩
  · rw [hworld, hworld']
    exact hS.world
  · rw [hglobals, hglobals']
    exact hS.globals
  · rw [htrace, htrace']
    exact hS.trace

theorem lasts_of_spent (hd : e.call.Calls d) (hroom : e.call.function.maxStack ≤ e.room) {script : List (Reply σ)}
    {S : CallState σ} (h : d.run host n e.call.args (e.initial script) = (none, S)) :
    ∃ s, e.Lasts host n script s ∧ Meets s S := by
  obtain ⟨k, s, hgets, hends, hmeets⟩ := follows hd hroom host n script
  rw [h] at hends hmeets
  obtain ⟨-, hle, hrunning⟩ | ⟨_, habsurd, -⟩ := hends
  · exact ⟨s, ⟨⟨k, hle, hgets⟩, hrunning⟩, hmeets.1, hmeets.2.1, hmeets.2.2⟩
  · cases habsurd

theorem comes_of_run (hd : e.call.Calls d) (hroom : e.call.function.maxStack ≤ e.room) {script : List (Reply σ)}
    {o : Outcome} {S : CallState σ} (h : d.run host n e.call.args (e.initial script) = (some o, S)) :
    ∃ s, e.Comes host script s o ∧ Meets s S := by
  obtain ⟨k, s, hgets, hends, hmeets⟩ := follows hd hroom host n script
  rw [h] at hends hmeets
  obtain ⟨habsurd, -⟩ | ⟨o', ho', hs⟩ := hends
  · cases habsurd
  · cases ho'
    exact ⟨s, ⟨hs, k, hgets⟩, hmeets.1, hmeets.2.1, hmeets.2.2⟩

/-- **The code of twins runs side by side.** -/
theorem alongside_of_twin (hd : e.call.Calls d) (hroom : e.call.function.maxStack ≤ e.room)
    (hd' : e'.call.Calls d') (hroom' : e'.call.function.maxStack ≤ e'.room) {K E : Alignment}
    {S S' : CallState σ} (h : Eval.Twin same (d.call host n e.call.args) (d'.call host n e'.call.args)
      (Eval.Lands same K E Value.Alike) ρ S S') :
    ∀ {script script' : List (Reply σ)}, S = e.initial script → S' = e'.initial script' →
      e.Alongside host same e' n ρ script script' := by
  induction h with
  | @ends ρ ρ' S S' T T' r r' le left right alike =>
    rintro script script' rfl rfl
    have hleft := left []
    have hright := right []
    rw [CallState.more_nil, CallState.more_nil] at hleft hright
    obtain ⟨halike, hbeside⟩ := alike.outcome
    obtain ⟨s, hcomes, hmeets⟩ := comes_of_run hd hroom (Declaration.run_of_give hleft)
    obtain ⟨s', hcomes', hmeets'⟩ := comes_of_run hd' hroom' (Declaration.run_of_give hright)
    refine .comes le hcomes hcomes' halike (hmeets.beside hmeets' hbeside) fun ho => ?_
    rw [Outcome.ofResult_suspension?] at ho
    cases ho
  | spent le left right seen =>
    rintro script script' rfl rfl
    have hspent {d : Declaration} {args : List Value} {S T : CallState σ}
        (h : d.call host n args S = .error .outOfFuel T) : d.run host n args S = (none, T) := by
      rw [Declaration.run, h]
    have hleft := left []
    have hright := right []
    rw [CallState.more_nil, CallState.more_nil] at hleft hright
    obtain ⟨s, hlasts, hmeets⟩ := lasts_of_spent hd hroom (hspent hleft)
    obtain ⟨s', hlasts', hmeets'⟩ := lasts_of_spent hd' hroom' (hspent hright)
    exact .lasts le hlasts hlasts' (hmeets.beside hmeets' seen)
  | @waits ρ ρ' S S' T T' p p' le left right asks seen _ ih =>
    rintro script script' rfl rfl
    have hstops {d : Declaration} {args : List Value} {S T : CallState σ} {p : Suspension}
        (h : d.call host n args S = .error (.suspended p) T) : d.run host n args S = (some p.outcome, T) := by
      rw [Declaration.run, h]
    obtain ⟨s, hcomes, hmeets⟩ := comes_of_run hd hroom (hstops left)
    obtain ⟨s', hcomes', hmeets'⟩ := comes_of_run hd' hroom' (hstops right)
    refine .comes le hcomes hcomes' ?_ (hmeets.beside hmeets' seen) fun _ hτ hr =>
      ih hτ hr (more_initial e script _) (more_initial e' script' _)
    cases asks with
    | await hv => exact .awaits hv
    | yield hv => exact .yields hv

end Entry
end ResourceMachine
