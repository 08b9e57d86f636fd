/-
# How often a pass awaits

A pass awaits what an async method returns. A record without a method only asks for an
await: it is made up for before the next sync record or at the end of the pass, unless
something has been awaited meanwhile. So a pass that keeps these books suspends if it
has called an async method with success or has met a record without one, and at most
once for each of them; and before it calls a sync method, nothing is owed
(`DisposalScope.pass_awaits`).

Key definitions: `suspensions`, `Eval.Visit`, `Eval.visits`, `Eval.Spends`,
`Eval.Accounts`.
Key theorems: `Eval.disposeOne_meets`, `Eval.disposeAll_meets`,
`Eval.visits_suspended`, `Eval.pass_accounts`, `DisposalScope.pass_awaits`.
-/
import ResourceMachine.Proofs.DisposalPass
import ResourceMachine.Proofs.TrailTrace

namespace ResourceMachine

/-! ### Suspensions in a trace -/

/-- Whether an event is a suspension. -/
def Event.isSuspend : Event → Bool
  | suspend _ => true
  | _ => false

/-- How often events suspend. -/
def suspensions (es : List Event) : Nat := es.countP Event.isSuspend

@[simp] theorem suspensions_nil : suspensions [] = 0 := rfl

@[simp] theorem suspensions_append (es es' : List Event) :
    suspensions (es ++ es') = suspensions es + suspensions es' := List.countP_append

/-- From one state to another, the trace goes on with so many suspensions. -/
def Suspends {σ : Type} (n : Nat) (S T : CallState σ) : Prop :=
  ∃ es, T.trace = S.trace ++ es ∧ suspensions es = n

namespace Suspends

variable {σ α β : Type} {n k : Nat} {S T U : CallState σ}

theorem refl (S : CallState σ) : Suspends 0 S S := ⟨[], (List.append_nil _).symm, rfl⟩

theorem trans (h : Suspends n S T) (h' : Suspends k T U) : Suspends (n + k) S U := by
  obtain ⟨es, hes, rfl⟩ := h
  obtain ⟨es', hes', rfl⟩ := h'
  exact ⟨es ++ es', by rw [hes', hes, List.append_assoc], suspensions_append es es'⟩

end Suspends

namespace Eval

variable {σ α : Type}

/-! ### What the parts of a pass suspend -/

theorem onHeap_suspends (m : OnHeap Value α) : Within (Suspends 0) (onHeap m : Eval σ α) := by
  intro S
  unfold onHeap
  cases World.onHeap m S.world <;> exact .refl _

theorem Suspends.stable : Stable (Suspends (σ := σ) 0) where
  refl := .refl
  trans h h' := h.trans h'

theorem callValue_suspends (host : Host σ) (origin : Origin) (callee receiver : Value)
    (args : List Value) : Within (Suspends 0) (callValue host origin callee receiver args) := by
  cases callee
  case function f =>
    intro S
    show Suspends 0 S (stateOf (callFunction host origin f receiver args S))
    unfold callFunction
    cases (f.call host receiver args).settle S.world with
    | mk result world =>
      cases result with
      | ok v => exact ⟨[_], rfl, rfl⟩
      | error e =>
        exact ⟨[.call origin f receiver args (.error e), .raise e],
          List.append_assoc S.trace [_] [_], rfl⟩
  all_goals exact .bind Suspends.stable (onHeap_suspends _) fun _ _ => ⟨[_], rfl, rfl⟩

theorem chain_suspends (u : Bool) (pending : Option Value) (e : Value) :
    Within (Suspends 0) (chain u pending e : Eval σ Value) := by
  rw [chain_eq]
  exact onHeap_suspends _

/-- Awaiting suspends once, also where no reply comes. -/
theorem await_suspends (v : Value) : Within (Suspends 1) (await v : Eval σ Value) := by
  intro S
  show Suspends 1 S (stateOf (suspend (.await v) { S with rval := v }))
  unfold suspend
  cases S.script with
  | nil => exact ⟨[_], rfl, rfl⟩
  | cons r rest =>
    simp only
    cases (Suspension.await v).accept r.answer <;>
      exact ⟨[_, _], List.append_assoc _ _ _, rfl⟩

theorem await_meets {v : Value} {S : CallState σ} :
    Meets (await v) S (fun _ T => Suspends 1 S T) (fun _ T => Suspends 1 S T)
      (fun _ T => Suspends 1 S T) := by
  have hsuspends := await_suspends (σ := σ) v S
  unfold Meets
  cases hx : (await v : Eval σ Value) S with
  | ok w T =>
    rw [hx] at hsuspends
    exact hsuspends
  | error i T =>
    rw [hx] at hsuspends
    cases i <;> exact hsuspends

theorem tick_meets {S : CallState σ} {R : Value → CallState σ → Prop} :
    Meets tick S (fun _ T => Suspends 1 S T) R (fun _ T => Suspends 1 S T) := by
  have hmeets : Meets (tick : Eval σ Unit) S (fun _ T => Suspends 1 S T) (fun _ T => Suspends 1 S T)
      (fun _ T => Suspends 1 S T) := await_meets.bind fun _ _ h => .pure h
  unfold Meets at hmeets ⊢
  match hx : (tick : Eval σ Unit) S, hmeets with
  | .ok _ _, h => exact h
  | .error (.thrown e) T, _ => exact (tick_ne_thrown e T hx).elim
  | .error (.suspended _) _, h => exact h
  | .error .outOfFuel _, h => exact h

end Eval

/-! ### Visits -/

/-- Whether a record only asks for an await. -/
def Record.asks (r : Resource) : Bool := r.hint == .async && r.method?.isNone

namespace Eval

variable {σ : Type}

/-- How many awaits are owed. -/
def PassState.owed (st : PassState) : Nat := if st.needsAwait ∧ !st.hasAwaited then 1 else 0

/-- A record that a pass has got to, what the pass carries there, and the state of the call. -/
structure Visit (σ : Type) where
  record : Resource
  carried : PassState
  state : CallState σ

/-- Whether an async method is called with success. -/
def Visit.awaits (host : Host σ) (v : Visit σ) : Bool :=
  v.record.hint == .async &&
    match v.record.method? with
    | none => false
    | some method =>
      match callValue host .pass method v.record.value [] v.state with
      | .ok _ _ => true
      | .error _ _ => false

/-- The method of a record is called in this state. -/
def Visit.Calls (v : Visit σ) (method : Value) (T : CallState σ) : Prop :=
  v.record.method? = some method ∧ ∃ st, awaitBefore v.record v.carried v.state = .ok st T

/-- The records that a pass gets to. -/
def visits (host : Host σ) (u : Bool) : List Resource → PassState → CallState σ → List (Visit σ)
  | [], _, _ => []
  | r :: rs, st, S =>
    ⟨r, st, S⟩ ::
      match disposeOne host u r st S with
      | .ok st' T => visits host u rs st' T
      | .error _ _ => []

/-- What a record does to the books, and how often it suspends. -/
inductive Spends (host : Host σ) (v : Visit σ) : PassState → Nat → Prop
  | ask (asks : v.record.asks) {st : PassState} (needs : st.needsAwait = true)
      (has : st.hasAwaited = v.carried.hasAwaited) : Spends host v st 0
  | await (awaits : v.awaits host) {st : PassState} (needs : st.needsAwait = v.carried.needsAwait)
      (has : st.hasAwaited = true) : Spends host v st 1
  | fail (hint : v.record.hint = .async) (asks : v.record.asks = false)
      (awaits : v.awaits host = false) {st : PassState}
      (needs : st.needsAwait = v.carried.needsAwait)
      (has : st.hasAwaited = v.carried.hasAwaited) : Spends host v st 0
  | sync (hint : v.record.hint = .sync) {st : PassState}
      (needs : st.needsAwait = (v.carried.needsAwait && v.carried.hasAwaited))
      (has : st.hasAwaited = v.carried.hasAwaited) : Spends host v st v.carried.owed

section

variable {host : Host σ} {u : Bool} {r : Resource} {method : Value} {st : PassState}
  {S : CallState σ} {R : Value → CallState σ → Prop} {W : Option Suspension → CallState σ → Prop}

/-- Calling a sync method awaits nothing. -/
theorem callMethod_sync_meets (hr : r.hint = .sync) :
    Meets (callMethod host u r method st) S
      (fun st' T => Suspends 0 S T ∧ st'.needsAwait = st.needsAwait ∧ st'.hasAwaited = st.hasAwaited)
      R W := by
  refine (callValue_ends.within (callValue_suspends host _ _ _ _)).attempt.bind (R := R)
    fun result T h => ?_
  cases result with
  | ok v =>
    simp only [hr]
    exact ⟨h.2, rfl, rfl⟩
  | error e =>
    exact (chain_ends (chain_suspends u _ e)).bind fun p U hU => ⟨h.2.trans hU, rfl, rfl⟩

/-- What an async method returns is awaited. -/
theorem callMethod_async_meets (hr : r.hint = .async) (hmethod : r.method? = some method) :
    Meets (callMethod host u r method st) S
      (fun st' T => ∃ n, Suspends n S T ∧ Spends host ⟨r, st, S⟩ st' n) R
      (fun _ T => Suspends 1 S T ∧ Visit.awaits host ⟨r, st, S⟩) := by
  refine (callValue_ends.within (callValue_suspends host _ _ _ _)).attempt.bind (R := R)
    fun result T h => ?_
  cases result with
  | error e =>
    obtain ⟨heq, hcall⟩ := h
    have hasks : r.asks = false := by simp [Record.asks, hmethod]
    have hawaits : Visit.awaits host ⟨r, st, S⟩ = false := by simp [Visit.awaits, hmethod, heq]
    exact (chain_ends (chain_suspends u _ e)).bind fun p U hU =>
      ⟨0, hcall.trans hU, .fail hr hasks hawaits rfl rfl⟩
  | ok v =>
    obtain ⟨heq, hcall⟩ := h
    have hawaits : Visit.awaits host ⟨r, st, S⟩ := by simp [Visit.awaits, hr, hmethod, heq]
    simp only [hr]
    refine (await_meets.attempt.mono fun _ U hU => ⟨hcall.trans hU, hawaits⟩).bind (R := R)
      fun result U hU => ?_
    cases result with
    | ok w => exact ⟨1, hcall.trans hU, .await hawaits rfl rfl⟩
    | error e =>
      exact (chain_ends (chain_suspends u _ e)).bind fun p V hV =>
        ⟨1, (hcall.trans hU).trans hV, .await hawaits rfl rfl⟩

/-- What is owed is made up for before a sync record, and only there. -/
theorem awaitBefore_meets :
    Meets (awaitBefore r st) S
      (fun st' T => (r.hint = .async → st' = st ∧ T = S) ∧ (r.hint = .sync → Suspends st.owed S T ∧
        st'.hasAwaited = st.hasAwaited ∧ st'.needsAwait = (st.needsAwait && st.hasAwaited)))
      R (fun _ T => Suspends 1 S T ∧ r.hint = .sync ∧ st.owed = 1) := by
  unfold awaitBefore
  by_cases howed : r.hint = .sync ∧ st.needsAwait ∧ !st.hasAwaited
  · obtain ⟨hr, hneeds, hhas⟩ := howed
    have hone : st.owed = 1 := if_pos ⟨hneeds, hhas⟩
    rw [if_pos ⟨hr, hneeds, hhas⟩]
    refine (tick_meets.mono fun _ T hT => ⟨hT, hr, hone⟩).bind fun _ T hT => ?_
    exact ⟨by simp [hr], fun _ => ⟨hone ▸ hT, rfl, by simp_all⟩⟩
  · rw [if_neg howed]
    refine ⟨fun _ => ⟨rfl, rfl⟩, fun hr => ?_⟩
    have hnone : ¬ (st.needsAwait ∧ !st.hasAwaited) := fun h => howed ⟨hr, h⟩
    have hzero : st.owed = 0 := if_neg hnone
    refine ⟨hzero ▸ .refl S, rfl, ?_⟩
    cases hneeds : st.needsAwait <;> cases hhas : st.hasAwaited <;> simp_all

/-- A record that stops a pass has a method that was called with success, or comes when an
await is owed. -/
theorem disposeOne_meets (hr : r.method? = none → r.hint = .async) :
    Meets (disposeOne host u r st) S
      (fun st' T => ∃ n, Suspends n S T ∧ Spends host ⟨r, st, S⟩ st' n) R
      (fun _ T => Suspends 1 S T ∧
        (Visit.awaits host ⟨r, st, S⟩ ∨ r.hint = .sync ∧ st.owed = 1)) := by
  refine (awaitBefore_meets.mono fun _ T h => ⟨h.1, .inr h.2⟩).bind fun st₁ T hbefore => ?_
  cases hmethod : r.method? with
  | none =>
    have hhint := hr hmethod
    obtain ⟨rfl, rfl⟩ := hbefore.1 hhint
    exact ⟨0, .refl T, .ask (by simp [Record.asks, hhint, hmethod]) rfl rfl⟩
  | some method =>
    cases hhint : r.hint with
    | sync =>
      obtain ⟨hsuspends, hhas, hneeds⟩ := hbefore.2 hhint
      refine (callMethod_sync_meets (R := R) hhint).imp (fun st₂ U h => ?_) fun _ _ => id
      obtain ⟨hU, hneeds', hhas'⟩ := h
      exact ⟨st.owed, hsuspends.trans hU, .sync hhint (hneeds'.trans hneeds) (hhas'.trans hhas)⟩
    | async =>
      obtain ⟨rfl, rfl⟩ := hbefore.1 hhint
      exact (callMethod_async_meets hhint hmethod).mono fun _ U h => ⟨h.1, .inl h.2⟩

end

/-! ### The books -/

namespace PassState

variable {st : PassState}

theorem owed_le : st.owed ≤ 1 := by
  unfold owed
  split <;> omega

theorem owed_of_hasAwaited (h : st.hasAwaited = true) : st.owed = 0 := if_neg (by simp [h])

theorem owed_of_needsAwait (h : st.hasAwaited = false) (hneeds : st.needsAwait = true) : st.owed = 1 :=
  if_pos ⟨hneeds, by simp [h]⟩

theorem owed_of_not (h : st.needsAwait = false) : st.owed = 0 := if_neg (by simp [h])

end PassState

/-- Between two states of a pass there are `n` suspensions, for so many async methods that were
called with success, and so many records that asked for an await. -/
structure Balanced (awaited asked : Nat) (synchronous : Prop) (st st' : PassState) (n : Nat) :
    Prop where
  le : n + st'.owed ≤ awaited + asked + st.owed
  pos : st.hasAwaited = false → 0 < awaited + asked + st.owed → 0 < n + st'.owed
  exact : ¬ synchronous → n = awaited ∧
    (st'.hasAwaited = true ↔ st.hasAwaited = true ∨ 0 < awaited) ∧
    (st'.needsAwait = true ↔ st.needsAwait = true ∨ 0 < asked)

namespace Balanced

variable {a m n : Nat} {sync : Prop} {w st st' : PassState}

theorem refl : Balanced 0 0 sync st st 0 := by
  constructor <;> simp

theorem ask (h : Balanced a m sync st st' n) (needs : st.needsAwait = true)
    (has : st.hasAwaited = w.hasAwaited) : Balanced a (m + 1) sync w st' n := by
  obtain ⟨hle, hpos, hexact⟩ := h
  constructor
  · have := st.owed_le
    omega
  · intro hw _
    have hst : st.hasAwaited = false := has.trans hw
    have := PassState.owed_of_needsAwait hst needs
    exact hpos hst (by omega)
  · simpa [needs, has] using hexact

theorem await (h : Balanced a m sync st st' n) (needs : st.needsAwait = w.needsAwait)
    (has : st.hasAwaited = true) : Balanced (a + 1) m sync w st' (1 + n) := by
  obtain ⟨hle, -, hexact⟩ := h
  rw [PassState.owed_of_hasAwaited has] at hle
  refine ⟨by omega, fun _ _ => by omega, fun hsync => ?_⟩
  obtain ⟨hn, hhas, hneeds⟩ := hexact hsync
  simp only [has, true_or, iff_true] at hhas
  rw [needs] at hneeds
  exact ⟨by omega, by simp [hhas], hneeds⟩

theorem mono {sync' : Prop} (h : Balanced a m sync st st' n) (hsync : sync → sync') :
    Balanced a m sync' st st' n :=
  ⟨h.le, h.pos, fun hnot => h.exact fun h => hnot (hsync h)⟩

theorem fail (h : Balanced a m sync st st' n) (needs : st.needsAwait = w.needsAwait)
    (has : st.hasAwaited = w.hasAwaited) : Balanced a m sync w st' (0 + n) := by
  have howed : st.owed = w.owed := by rw [PassState.owed, PassState.owed, needs, has]
  obtain ⟨hle, hpos, hexact⟩ := h
  rw [howed] at hle hpos
  rw [has, needs] at hexact
  rw [has] at hpos
  rw [Nat.zero_add]
  exact ⟨hle, hpos, hexact⟩

theorem makeUp (h : Balanced a m sync st st' n) (hsync : sync)
    (needs : st.needsAwait = (w.needsAwait && w.hasAwaited))
    (has : st.hasAwaited = w.hasAwaited) : Balanced a m sync w st' (w.owed + n) := by
  have howed : st.owed = 0 := by
    cases hw : w.hasAwaited with
    | true => exact PassState.owed_of_hasAwaited (has.trans hw)
    | false => exact PassState.owed_of_not (by rw [needs, hw, Bool.and_false])
  obtain ⟨hle, hpos, -⟩ := h
  rw [howed] at hle hpos
  rw [has] at hpos
  refine ⟨by omega, fun hw hsome => ?_, fun h => (h hsync).elim⟩
  have := hpos hw
  omega

end Balanced

section

variable {host : Host σ} {u : Bool} {v : Visit σ}

theorem Visit.not_asks (h : v.awaits host) : v.record.asks = false := by
  unfold Visit.awaits at h
  unfold Record.asks
  cases hmethod : v.record.method? with
  | none => simp [hmethod] at h
  | some method => simp

theorem Visit.not_awaits (h : v.record.asks) : v.awaits host = false := by
  cases hawaits : v.awaits host with
  | false => rfl
  | true => simp [Visit.not_asks hawaits] at h

theorem Visit.of_sync (host : Host σ) (h : v.record.hint = .sync) :
    v.awaits host = false ∧ v.record.asks = false := by
  simp [Visit.awaits, Record.asks, h]

/-- How many visits call an async method with success. -/
def awaited (host : Host σ) (vs : List (Visit σ)) : Nat := vs.countP (Visit.awaits host)

/-- How many records only ask for an await. -/
def asked (rs : List Resource) : Nat := rs.countP (Record.asks ·)

variable {vs : List (Visit σ)} {r : Resource} {rs : List Resource} {sync : Prop}
  {st st' : PassState} {n k : Nat}

theorem awaited_cons : awaited host (v :: vs) = awaited host [v] + awaited host vs := by
  rw [← List.singleton_append]
  exact List.countP_append

theorem asked_cons : asked (r :: rs) = asked [r] + asked rs := by
  rw [← List.singleton_append]
  exact List.countP_append

/-- The books go on behind a record. -/
theorem Spends.balanced (h : Spends host v st n)
    (hrest : Balanced (awaited host vs) (asked rs) sync st st' k)
    (hsync : v.record.hint = .sync → sync) :
    Balanced (awaited host (v :: vs)) (asked (v.record :: rs)) sync v.carried st' (n + k) := by
  have hawaited : awaited host (v :: vs) = awaited host vs + if v.awaits host then 1 else 0 :=
    List.countP_cons
  have hasked : asked (v.record :: rs) = asked rs + if v.record.asks then 1 else 0 :=
    List.countP_cons
  rw [hawaited, hasked]
  cases h with
  | ask asks needs has =>
    rw [Visit.not_awaits asks, asks, Nat.zero_add]
    exact hrest.ask needs has
  | await awaits needs has =>
    rw [Visit.not_asks awaits, awaits]
    exact hrest.await needs has
  | fail _ asks awaits needs has =>
    rw [asks, awaits]
    exact hrest.fail needs has
  | sync hint needs has =>
    obtain ⟨hawaits, hasks⟩ := Visit.of_sync host hint
    rw [hawaits, hasks]
    exact hrest.makeUp (hsync hint) needs has

theorem visits_cons {r : Resource} {rs : List Resource} {st st' : PassState} {S T : CallState σ}
    (h : disposeOne host u r st S = .ok st' T) :
    visits host u (r :: rs) st S = ⟨r, st, S⟩ :: visits host u rs st' T := by
  rw [visits, h]

theorem visits_stopped {r : Resource} {rs : List Resource} {st : PassState} {i : Interrupt}
    {S T : CallState σ} (h : disposeOne host u r st S = .error i T) :
    visits host u (r :: rs) st S = [⟨r, st, S⟩] := by
  rw [visits, h]

/-- Disposing keeps the books. -/
theorem disposeAll_meets {R : Value → CallState σ → Prop} : ∀ {rs : List Resource} {st : PassState}
    {S : CallState σ}, (∀ r ∈ rs, r.method? = none → r.hint = .async) →
    Meets (disposeAll host u rs st) S
      (fun st' T => (visits host u rs st S).map Visit.record = rs ∧ ∃ n, Suspends n S T ∧
        Balanced (awaited host (visits host u rs st S)) (asked rs) (∃ r ∈ rs, r.hint = .sync) st st' n)
      R
      (fun _ T => ∃ n, Suspends n S T ∧ 0 < n ∧
        n ≤ awaited host (visits host u rs st S) + asked rs + st.owed)
  | [], _, S, _ => ⟨rfl, 0, .refl S, .refl⟩
  | r :: rs, st, S, hrs => by
    rw [disposeAll]
    have hone : Meets (disposeOne host u r st) S _ (fun _ _ => False) _ :=
      disposeOne_meets (hrs r List.mem_cons_self)
    refine ((hone.and .self).mono ?_).imp (fun _ _ => id) (fun _ _ h => h.1.elim) |>.bind ?_
    · rintro - T ⟨⟨hT, hwhy⟩, i, hstop⟩
      rw [visits_stopped hstop]
      refine ⟨1, hT, Nat.one_pos, ?_⟩
      rcases hwhy with hawaits | ⟨-, howed⟩
      · have : awaited host [⟨r, st, S⟩] = 1 := by simp [awaited, hawaits]
        omega
      · omega
    · rintro st₁ T ⟨⟨n, hT, hspends⟩, hgo⟩
      rw [visits_cons hgo]
      refine ((disposeAll_meets fun r hr => hrs r (List.mem_cons_of_mem _ hr)).imp ?_
        fun _ _ => id).mono ?_
      · rintro st' U ⟨hmap, k, hU, hbalanced⟩
        refine ⟨by rw [List.map_cons, hmap], n + k, hT.trans hU, ?_⟩
        refine hspends.balanced (hbalanced.mono ?_) fun hr => ⟨r, List.mem_cons_self, hr⟩
        rintro ⟨q, hq, hsync⟩
        exact ⟨q, List.mem_cons_of_mem _ hq, hsync⟩
      · rintro - U ⟨k, hU, hpos, hle⟩
        have hnothing : Balanced (awaited host []) (asked []) True st₁ st₁ 0 := .refl
        have hfirst : n + 0 + st₁.owed ≤ awaited host [⟨r, st, S⟩] + asked [r] + st.owed :=
          (hspends.balanced hnothing fun _ => trivial).le
        rw [awaited_cons, asked_cons]
        exact ⟨n + k, hT.trans hU, by omega, by omega⟩

/-! ### Sync methods -/

theorem visits_prefix : ∀ {rs : List Resource} {st : PassState} {S : CallState σ},
    (visits host u rs st S).map Visit.record <+: rs
  | [], _, _ => List.prefix_refl _
  | r :: rs, st, S => by
    rw [visits, List.map_cons]
    refine (List.prefix_cons_inj r).mpr ?_
    cases disposeOne host u r st S with
    | ok st' T => exact visits_prefix
    | error i T => exact List.nil_prefix

/-- What is owed when a pass gets to a sync method has been made up for when it is called. -/
theorem visits_suspended : ∀ {vs vs' : List (Visit σ)} {rs : List Resource} {st : PassState}
    {S T : CallState σ} {method : Value}, (∀ r ∈ rs, r.method? = none → r.hint = .async) →
    visits host u rs st S = vs ++ v :: vs' → v.record.hint = .sync → v.Calls method T →
    ∃ n, Suspends n S T ∧
      (st.needsAwait = true ∨ 0 < asked (vs.map Visit.record) → st.hasAwaited = true ∨ 0 < n)
  | vs, vs', [], st, S, T, method, hrs, hvisits, hsync, hcalls => by
    cases vs <;> cases hvisits
  | [], vs', r :: rs, st, S, T, method, hrs, hvisits, hsync, hcalls => by
    obtain ⟨rfl, -⟩ := List.cons.inj hvisits
    obtain ⟨-, st', hbefore⟩ := hcalls
    have hmeets : Meets (awaitBefore r st) S _ (fun _ _ => False) _ := awaitBefore_meets
    rw [Meets, hbefore] at hmeets
    obtain ⟨hsuspends, -⟩ := hmeets.2 hsync
    refine ⟨st.owed, hsuspends, fun hneeds => ?_⟩
    cases hhas : st.hasAwaited with
    | true => exact .inl rfl
    | false =>
      have hneeds : st.needsAwait = true := hneeds.resolve_right (by simp [asked])
      exact .inr (by rw [PassState.owed_of_needsAwait hhas hneeds]; exact Nat.one_pos)
  | w :: vs, vs', r :: rs, st, S, T, method, hrs, hvisits, hsync, hcalls => by
    have hone : Meets (disposeOne host u r st) S _ (fun _ _ => True) _ :=
      disposeOne_meets (hrs r List.mem_cons_self)
    unfold Meets at hone
    cases hgo : disposeOne host u r st S with
    | error i U =>
      rw [visits_stopped hgo] at hvisits
      cases vs <;> cases hvisits
    | ok st₁ U =>
      rw [hgo] at hone
      obtain ⟨n, hU, hspends⟩ := hone
      rw [visits_cons hgo, List.cons_append] at hvisits
      obtain ⟨rfl, htail⟩ := List.cons.inj hvisits
      obtain ⟨k, hT, hpaid⟩ :=
        visits_suspended (fun r hr => hrs r (List.mem_cons_of_mem _ hr)) htail hsync hcalls
      refine ⟨n + k, hU.trans hT, fun hneeds => ?_⟩
      rw [List.map_cons, asked_cons] at hneeds
      cases hspends with
      | ask asks needs has =>
        have := hpaid (.inl needs)
        rw [has] at this
        exact this.imp id (by omega)
      | await => exact .inr (by omega)
      | fail _ asks awaits needs has =>
        have hnone : asked [r] = 0 := by simpa [asked] using asks
        rw [hnone, Nat.zero_add, ← needs] at hneeds
        have := hpaid hneeds
        rw [has] at this
        exact this.imp id (by omega)
      | sync hint needs has =>
        have hnone : asked [r] = 0 := by
          simpa [asked] using (Visit.of_sync (v := ⟨r, st, S⟩) host hint).2
        rw [hnone, Nat.zero_add] at hneeds
        cases hhas : st.hasAwaited with
        | true => exact .inl rfl
        | false =>
          right
          rcases hneeds with hneeds | hneeds
          · have := PassState.owed_of_needsAwait hhas hneeds
            show 0 < st.owed + k
            omega
          · have := hpaid (.inr hneeds)
            rw [has, hhas] at this
            have := this.resolve_left (by simp)
            omega

/-- Where a method is called, the trace goes on with its call. -/
theorem callMethod_called (host : Host σ) (u : Bool) (r : Resource) (f : Callable) (st : PassState)
    (T : CallState σ) :
    ∃ result, T.trace ++ [.call .pass f r.value [] result] <+:
      (stateOf (callMethod host u r (.function f) st T)).trace := by
  have hbehind := callMethod_grows_behind host u r (.function f) st T
  have hattempt : stateOf (attempt (callValue host .pass (.function f) r.value []) T) =
      stateOf (callFunction host .pass f r.value [] T) := by
    show stateOf (attempt (callFunction host .pass f r.value []) T) = _
    unfold attempt
    cases callFunction host .pass f r.value [] T with
    | ok v U => rfl
    | error i U => cases i <;> rfl
  rw [hattempt] at hbehind
  unfold callFunction at hbehind
  cases hresult : (f.call host r.value []).settle T.world with
  | mk result world =>
    rw [hresult] at hbehind
    refine ⟨result, ?_⟩
    cases result with
    | ok v => exact hbehind
    | error e =>
      have hcall : T.trace ++ [.call .pass f r.value [] (.error e)] <+:
          T.trace ++ [.call .pass f r.value [] (.error e)] ++ [.raise e] := List.prefix_append _ _
      exact hcall.trans hbehind

/-- A visit's method is called where the trace is at that moment. -/
theorem visits_called : ∀ {vs vs' : List (Visit σ)} {rs : List Resource} {st : PassState}
    {S T : CallState σ} {method : Value}, visits host u rs st S = vs ++ v :: vs' →
    v.Calls method T → T.trace <+: (stateOf (disposeAll host u rs st S)).trace ∧
      ∀ f, method = .function f → ∃ result, T.trace ++ [.call .pass f v.record.value [] result] <+:
        (stateOf (disposeAll host u rs st S)).trace
  | vs, vs', [], st, S, T, method, hvisits, hcalls => by
    cases vs <;> cases hvisits
  | [], vs', r :: rs, st, S, T, method, hvisits, hcalls => by
    obtain ⟨rfl, -⟩ := List.cons.inj hvisits
    obtain ⟨hmethod, st', hbefore⟩ := hcalls
    have hone : disposeOne host u r st S = callMethod host u r method st' T := by
      show EStateM.bind (awaitBefore r st) _ S = _
      unfold EStateM.bind
      rw [hbefore]
      simp only [show r.method? = some method from hmethod]
    have hall : Grows (stateOf (callMethod host u r method st' T))
        (stateOf (disposeAll host u (r :: rs) st S)) :=
      hone ▸ grows_bind S fun st => disposeAll_grows host u rs st
    refine ⟨(callMethod_grows host u r method st' T).trans hall, ?_⟩
    rintro f rfl
    obtain ⟨result, hcalled⟩ := callMethod_called host u r f st' T
    exact ⟨result, hcalled.trans hall⟩
  | w :: vs, vs', r :: rs, st, S, T, method, hvisits, hcalls => by
    cases hgo : disposeOne host u r st S with
    | error i U =>
      rw [visits_stopped hgo] at hvisits
      cases vs <;> cases hvisits
    | ok st₁ U =>
      rw [visits_cons hgo, List.cons_append] at hvisits
      have hall : disposeAll host u (r :: rs) st S = disposeAll host u rs st₁ U := by
        show EStateM.bind (disposeOne host u r st) _ S = _
        unfold EStateM.bind
        rw [hgo]
      rw [hall]
      exact visits_called (List.cons.inj hvisits).2 hcalls

/-! ### Passes -/

variable {kind : FunctionKind} {pending : Option Value} {S : CallState σ} {c : Capability}
  {cs : List Capability}

/-- The visits of a pass. -/
def passVisits (host : Host σ) (kind : FunctionKind) (pending : Option Value) (S : CallState σ) :
    List (Visit σ) :=
  match takeResources S with
  | .ok rs T => visits host (kind.isGenerator && pending.isSome) rs.reverse ⟨pending, false, false⟩ T
  | .error _ _ => []

/-- The books of a pass over records: what it has visited, and what its events show. -/
structure Accounts (host : Host σ) (S : CallState σ) (rs : List Resource) (vs : List (Visit σ))
    (es : List Event) : Prop where
  visited : vs.map Visit.record <+: rs
  suspends_iff : 0 < suspensions es ↔ 0 < awaited host vs + asked rs
  suspensions_le : suspensions es ≤ awaited host vs + asked rs
  /-- What is owed is made up for before the call of a sync method. -/
  paid : ∀ {vs₁ vs₂ : List (Visit σ)} {v : Visit σ} {method : Value} {T : CallState σ},
    vs = vs₁ ++ v :: vs₂ → v.record.hint = .sync → v.Calls method T →
    ∃ es₁ es₂, es = es₁ ++ es₂ ∧ T.trace = S.trace ++ es₁ ∧
      (0 < asked (vs₁.map Visit.record) → 0 < suspensions es₁) ∧
      ∀ f, method = .function f →
        ∃ result es₃, es₂ = .call .pass f v.record.value [] result :: es₃

/-- The books of a pass that has come to its end. -/
structure Closes (host : Host σ) (rs : List Resource) (vs : List (Visit σ)) (es : List Event) :
    Prop where
  visited : vs.map Visit.record = rs
  exact : (∀ r ∈ rs, r.hint = .async) →
    suspensions es = if 0 < awaited host vs then awaited host vs else min (asked rs) 1

theorem awaitAfter_meets {st : PassState} {R : Value → CallState σ → Prop} :
    Meets (awaitAfter st) S (fun _ T => Suspends st.owed S T) R
      (fun _ T => Suspends 1 S T ∧ st.owed = 1) := by
  unfold awaitAfter
  by_cases howed : st.needsAwait ∧ !st.hasAwaited
  · have hone : st.owed = 1 := if_pos howed
    rw [if_pos howed, hone]
    exact tick_meets.mono fun _ T hT => ⟨hT, rfl⟩
  · have hzero : st.owed = 0 := if_neg howed
    rw [if_neg howed, hzero]
    exact .refl S

/-- The books of a disposal are those of the events behind it, too. -/
theorem accounts_of {rs : List Resource} {st : PassState} {S₁ T : CallState σ} {n : Nat}
    (hrs : ∀ r ∈ rs, r.method? = none → r.hint = .async) (hS : S₁.trace = S.trace)
    (hhas : st.hasAwaited = false) (hgrows : Grows (stateOf (disposeAll host u rs st S₁)) T)
    (hn : Suspends n S₁ T) (hiff : 0 < n ↔ 0 < awaited host (visits host u rs st S₁) + asked rs)
    (hle : n ≤ awaited host (visits host u rs st S₁) + asked rs) :
    ∃ es, T.trace = S.trace ++ es ∧ suspensions es = n ∧
      Accounts host S rs (visits host u rs st S₁) es := by
  obtain ⟨es, hes, rfl⟩ := hn
  refine ⟨es, hS ▸ hes, rfl, visits_prefix, hiff, hle, ?_⟩
  intro vs₁ vs₂ v method U hvs hsync hcalls
  obtain ⟨n, ⟨es₁, hes₁, hn⟩, hpaid⟩ := visits_suspended hrs hvs hsync hcalls
  obtain ⟨hU, hcalled⟩ := visits_called hvs hcalls
  obtain ⟨es₂, hes₂⟩ := hU.trans hgrows
  have hsplit : es = es₁ ++ es₂ := by
    rw [hes, hes₁, List.append_assoc] at hes₂
    exact (List.append_cancel_left hes₂).symm
  refine ⟨es₁, es₂, hsplit, hS ▸ hes₁, fun hasked => ?_, ?_⟩
  · rw [hn]
    exact (hpaid (.inr hasked)).resolve_left (by simp [hhas])
  · rintro f rfl
    obtain ⟨result, hcall⟩ := hcalled f rfl
    obtain ⟨es₃, hes₃⟩ := hcall.trans hgrows
    rw [← hes₂, List.append_assoc] at hes₃
    exact ⟨result, es₃, (List.append_cancel_left hes₃).symm⟩

/-- A pass over resources that have been taken out of their scope. -/
def disposal (host : Host σ) (u : Bool) (rs : List Resource) (pending : Option Value) (rval : Value) :
    Eval σ (Option Value) := do
  let st ← disposeAll host u rs ⟨pending, false, false⟩
  awaitAfter st
  setRval rval
  return st.pending

theorem disposal_grows (host : Host σ) (u : Bool) (rs : List Resource) (pending : Option Value)
    (rval : Value) (S : CallState σ) :
    Grows (stateOf (disposeAll host u rs ⟨pending, false, false⟩ S))
      (stateOf (disposal host u rs pending rval S)) := by
  refine grows_bind S fun st => .bind Grows.stable ?_ fun _ =>
    .bind Grows.stable (fun _ => List.prefix_refl _) fun _ => .pure Grows.stable _
  unfold awaitAfter
  split
  · exact tick_quiet.mono Quiet.grows
  · exact .pure Grows.stable _

/-- Disposing and making up for what is owed closes the books. -/
theorem disposal_meets {u : Bool} {rs : List Resource} {rval : Value}
    {R : Value → CallState σ → Prop} (hrs : ∀ r ∈ rs, r.method? = none → r.hint = .async) :
    Meets (disposal host u rs pending rval) S
      (fun _ T => ∃ n, Suspends n S T ∧
        (0 < n ↔ 0 < awaited host (visits host u rs ⟨pending, false, false⟩ S) + asked rs) ∧
        n ≤ awaited host (visits host u rs ⟨pending, false, false⟩ S) + asked rs ∧
        (visits host u rs ⟨pending, false, false⟩ S).map Visit.record = rs ∧
        ((∀ r ∈ rs, r.hint = .async) → n =
          if 0 < awaited host (visits host u rs ⟨pending, false, false⟩ S) then
            awaited host (visits host u rs ⟨pending, false, false⟩ S)
          else min (asked rs) 1)) R
      (fun _ T => ∃ n, Suspends n S T ∧
        (0 < n ↔ 0 < awaited host (visits host u rs ⟨pending, false, false⟩ S) + asked rs) ∧
        n ≤ awaited host (visits host u rs ⟨pending, false, false⟩ S) + asked rs) := by
  have howed : (⟨pending, false, false⟩ : PassState).owed = 0 := rfl
  refine ((disposeAll_meets hrs).mono ?_).bind ?_
  · rintro - T ⟨n, hn, hpos, hle⟩
    exact ⟨n, hn, by omega, by omega⟩
  · rintro st T ⟨hvisited, n, hn, hle, hpos, hexact⟩
    rw [howed] at hle hpos
    have hpos := hpos rfl
    refine (awaitAfter_meets.mono ?_).bind fun _ U hU => ?_
    · rintro - U ⟨hU, hone⟩
      exact ⟨n + 1, hn.trans hU, by omega, by omega⟩
    · refine ⟨n + st.owed, hn.trans hU, by omega, by omega, hvisited, fun hall => ?_⟩
      have hnone : ¬ ∃ r ∈ rs, r.hint = .sync := fun ⟨r, hr, hsync⟩ => by simp [hall r hr] at hsync
      obtain ⟨rfl, hhas, hneeds⟩ := hexact hnone
      by_cases hsome : 0 < awaited host (visits host u rs ⟨pending, false, false⟩ S)
      · rw [if_pos hsome, PassState.owed_of_hasAwaited (hhas.mpr (.inr hsome)), Nat.add_zero]
      · have hhas : st.hasAwaited = false := by simpa [hsome] using hhas
        rw [if_neg hsome]
        cases hneeded : st.needsAwait with
        | false =>
          have : asked rs = 0 := by simpa [hneeded] using hneeds
          rw [PassState.owed_of_not hneeded]
          omega
        | true =>
          have : 0 < asked rs := by simpa [hneeded] using hneeds
          rw [PassState.owed_of_needsAwait hhas hneeded]
          omega

/-- A pass keeps its books. -/
theorem pass_accounts {R : Value → CallState σ → Prop} (hscopes : S.scopes = c :: cs)
    (hrs : ∀ r ∈ c.resources, r.method? = none → r.hint = .async) :
    Meets (pass host kind pending) S
      (fun _ T => ∃ es, T.trace = S.trace ++ es ∧
        Accounts host S c.resources.reverse (passVisits host kind pending S) es ∧
        Closes host c.resources.reverse (passVisits host kind pending S) es) R
      (fun _ T => ∃ es, T.trace = S.trace ++ es ∧
        Accounts host S c.resources.reverse (passVisits host kind pending S) es) := by
  have htake := takeResources_apply hscopes
  generalize hS₁ : ({ S with
    scopes := .empty :: cs
    world.heap.identities := S.world.heap.identities + c.resources.length + 1 } : CallState σ) = S₁
    at htake
  have htrace : S₁.trace = S.trace := by rw [← hS₁]
  have hrs : ∀ r ∈ c.resources.reverse, r.method? = none → r.hint = .async :=
    fun r hr => hrs r (List.mem_reverse.mp hr)
  have hpass : pass host kind pending S =
      disposal host (kind.isGenerator && pending.isSome) c.resources.reverse pending S.rval S₁ := by
    show EStateM.bind takeResources _ S = _
    unfold EStateM.bind
    rw [htake]
    rfl
  have hvisits : passVisits host kind pending S =
      visits host (kind.isGenerator && pending.isSome) c.resources.reverse ⟨pending, false, false⟩ S₁ := by
    rw [passVisits, htake]
  rw [hvisits]
  refine Meets.of_eq hpass <| (((disposal_meets hrs).and .self).imp ?_ fun _ _ h => h.1).mono ?_
  · rintro a T ⟨⟨n, hn, hiff, hle, hvisited, hexact⟩, hT⟩
    have hgrows := disposal_grows host (kind.isGenerator && pending.isSome) c.resources.reverse pending
      S.rval S₁
    rw [hT] at hgrows
    obtain ⟨es, hes, rfl, haccounts⟩ := accounts_of hrs htrace rfl hgrows hn hiff hle
    exact ⟨es, hes, haccounts, hvisited, hexact⟩
  · rintro _ T ⟨⟨n, hn, hiff, hle⟩, i, hT⟩
    have hgrows := disposal_grows host (kind.isGenerator && pending.isSome) c.resources.reverse pending
      S.rval S₁
    rw [hT] at hgrows
    obtain ⟨es, hes, rfl, haccounts⟩ := accounts_of hrs htrace rfl hgrows hn hiff hle
    exact ⟨es, hes, haccounts⟩

end

end Eval

/-! ### Emitted passes -/

namespace DisposalScope

variable {σ : Type} {κ : Setting σ} {O : List PendingJump} {scope scope' : DisposalScope}
  {e e' : Emitter} {u : Unit} {pending : Option Value} {stk : List Value} {L : Array Value}
  {S : CallState σ} {c : Capability} {cs : List Capability}

/-- **A pass awaits what it has to.** Let a scope with an `await using` emit a pass that starts
with nothing or with an exception pending. In every finished function that continues the code
emitted so far, a frame that gets to the pass with resources in its innermost scope goes on to
the end of the pass, or until no reply comes. Its events suspend if an async method was called
with success or a resource has none, and at most once for each of these; if the pass ends and
all resources are async, exactly once for each async method that was called with success, or
else once if a resource has none. A sync method is called when nothing is owed. -/
theorem pass_awaits (hpass : pass (.ofPending pending) (scope, e) = .ok u (scope', e'))
    (hawaits : scope.hasAwaitUsing = true) (hdepth : e.depth = (pending.toList ++ stk).length)
    (htidy : Tidy O e) (hslots : scope.Apart [] e.localCount.toNat) (hfits : Fits O e' κ.target)
    (hlocals : κ.target.localCount ≤ L.size) (hscopes : S.scopes = c :: cs)
    (hmethods : ∀ r ∈ c.resources, r.method? = none → r.hint = .async)
    (ip : Nat) (H : List Handler) :
    let s := κ.session ⟨e.code.size, ip, pending.toList ++ stk, L, H⟩ S
    let rs := c.resources.reverse
    let vs := Eval.passVisits κ.host κ.target.kind pending S
    if c.resources.length ≤ 2147483647 then
      (∃ k ip' L' T es marks, ∃ pending' : Option Value, κ.Runs k s (κ.session
          ⟨e'.code.size, ip', .bool pending'.isSome :: pending'.getD .undefined :: stk, L', H⟩ T) ∧
        T.trace = S.trace ++ es ++ marks ∧ (marks = [] ∨ marks = [.returns S.rval]) ∧
        Eval.Accounts κ.host S rs vs es ∧ Eval.Closes κ.host rs vs es) ∨
      ∃ k spot p T es, κ.Runs k s (κ.ended spot (Suspension.outcome p) T) ∧
        T.trace = S.trace ++ es ∧ Eval.Accounts κ.host S rs vs es
    else ∃ k s', κ.Runs k s s' ∧ s'.control = .ended (.failed .tooManyResources) ∧
      s'.trace = S.trace := by
  have hheight : e.depth = stk.length + (Seed.ofPending pending).values := by
    rw [hdepth]
    cases pending <;> simp [Seed.ofPending, Seed.values]
  obtain ⟨-, -, -, hlays⟩ := pass_lays (O := O) hpass hheight hslots (by simp [Scope.Bound])
  obtain ⟨-, slots, ⟨base, hs, hbase, -⟩, hlaid⟩ := hlays.fits htidy hfits
  have hsize : base + 8 ≤ L.size := Nat.le_trans hbase hlocals
  intro s rs vs
  by_cases hfew : c.resources.length ≤ 2147483647
  · rw [if_pos hfew]
    have hcovered : Covered scope.hasAwaitUsing c.resources := fun hnone => by
      rw [hawaits] at hnone
      cases hnone
    have hpasses : κ.Passes s pending S cs e'.code.size stk H :=
      Setting.pass_passes hs hsize hlaid rfl hscopes hfew hcovered
    have haccounts : Eval.Meets (Eval.pass κ.host κ.target.kind pending) S _ (fun _ _ => True) _ :=
      Eval.pass_accounts hscopes hmethods
    unfold Setting.Passes at hpasses
    unfold Eval.Meets at haccounts
    cases hx : Eval.pass κ.host κ.target.kind pending S with
    | ok pending' T =>
      rw [hx] at hpasses haccounts
      obtain ⟨-, -, k, ip', L', marks, hmarks, hruns⟩ := hpasses
      obtain ⟨es, hes, haccounts, hcloses⟩ := haccounts
      exact .inl ⟨k, ip', L', _, es, marks, pending', hruns, by rw [← hes], hmarks, haccounts, hcloses⟩
    | error i T =>
      rw [hx] at hpasses haccounts
      cases i with
      | thrown e => exact hpasses.elim
      | suspended p =>
        obtain ⟨k, spot, hruns⟩ := hpasses
        obtain ⟨es, hes, haccounts⟩ := haccounts
        exact .inr ⟨k, spot, p, T, es, hruns, hes, haccounts⟩
      | outOfFuel => exact hpasses.elim
  · rw [if_neg hfew]
    exact Setting.pass_refused hs hsize hlaid rfl hscopes (by omega)

/-- A generator is closed in a scope with an async method, a sync one and, behind them, an
`await using` of `null`. -/
theorem pass_awaits_emitting : ∃ scope' e', ∃ κ : Setting Unit, ∃ S c f,
    pass .thrown (⟨true, none, none⟩, emitting) = .ok () (scope', e') ∧ Tidy [] emitting ∧
    Fits [] e' κ.target ∧ κ.target.localCount ≤ 8 ∧ S.scopes = [c] ∧
    c.resources = [⟨.undefined, .async, some (.function f)⟩, ⟨.undefined, .sync, some (.function f)⟩,
      ⟨.undefined, .async, none⟩] ∧
    let s := κ.session ⟨0, 0, [.closing], Array.replicate 8 .undefined, []⟩ S
    let rs := c.resources.reverse
    let vs := Eval.passVisits κ.host κ.target.kind (some .closing) S
    (∃ k ip' L' T es marks, ∃ pending' : Option Value, κ.Runs k s (κ.session
        ⟨e'.code.size, ip', [.bool pending'.isSome, pending'.getD .undefined], L', []⟩ T) ∧
      T.trace = S.trace ++ es ++ marks ∧ (marks = [] ∨ marks = [.returns S.rval]) ∧
      Eval.Accounts κ.host S rs vs es ∧ Eval.Closes κ.host rs vs es) ∨
    ∃ k spot p T es, κ.Runs k s (κ.ended spot (Suspension.outcome p) T) ∧
      T.trace = S.trace ++ es ∧ Eval.Accounts κ.host S rs vs es := by
  have hemits : endsIn (fun s => s.2.localCount.toNat == 8 && s.2.constants.size == 0)
      (pass .thrown (⟨true, none, none⟩, emitting)) = true := by
    decide +kernel
  obtain ⟨u, ⟨scope', e'⟩, hpass, hcount⟩ := exists_of_endsIn hemits
  obtain ⟨hcount, hsize⟩ : e'.localCount.toNat = 8 ∧ e'.constants.size = 0 := by simpa using hcount
  let κ : Setting Unit :=
    { host := fun _ _ _ => pure .undefined
      index := 0, capacity := e'.maxDepth
      unit := { Module.named "m" with constants := e'.constants }
      target := ⟨e'.code, e'.constants, e'.kind, e'.maxDepth, e'.localCount.toNat, by omega⟩
      constants_eq := rfl, maxStack_le := Nat.le_refl _ }
  let f : Callable := .host ⟨0, "dispose"⟩
  let c : Capability := ⟨[⟨.undefined, .async, some (.function f)⟩,
    ⟨.undefined, .sync, some (.function f)⟩, ⟨.undefined, .async, none⟩]⟩
  let S : CallState Unit := { CallState.initial ⟨.empty, ()⟩ [] [] with scopes := [c] }
  have htidy : Tidy [] emitting := ⟨by simp, .nil, by rintro s i ⟨⟩⟩
  have hfits : Fits [] e' κ.target :=
    ⟨Nat.le_refl _, fun _ _ _ => rfl, rfl, Nat.le_refl _, Nat.le_refl _, fun _ _ h => h⟩
  have hmethods : ∀ r ∈ c.resources, r.method? = none → r.hint = .async := by
    simp [c, Record.method?, Value.isNullish]
  have hpass' : pass (.ofPending (some .closing)) (⟨true, none, none⟩, emitting) = .ok u (scope', e') :=
    hpass
  have hdepth : emitting.depth = ((some Value.closing).toList ++ ([] : List Value)).length := rfl
  have hlocals : κ.target.localCount ≤ (Array.replicate 8 Value.undefined).size := by simp [κ, hcount]
  have hscopes : S.scopes = c :: [] := rfl
  have hawaits := pass_awaits hpass' rfl hdepth htidy (by rintro _ ⟨⟩) hfits hlocals hscopes hmethods 0 []
  refine ⟨scope', e', κ, S, c, f, hpass, htidy, hfits, by simp [κ, hcount], rfl, rfl, ?_⟩
  simp only at hawaits
  rwa [if_pos (by decide)] at hawaits

end DisposalScope
end ResourceMachine
