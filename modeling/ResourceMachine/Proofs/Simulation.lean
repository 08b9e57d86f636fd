/-
# Simulation

A session follows an evaluation: what an evaluation makes of the state of a
call, the session makes of it in some number of instructions, and with the same
events. `Sim` says so of one evaluation from one state, with what is known of
the frame when the evaluation ends with a value (`Q`) or throws (`R`). An
evaluation that is out of fuel is followed for at least as many instructions as
it had fuel, so one that never ends is followed by a session that never ends.

The rules for `pure`, `bind` and `attempt` take a simulation apart along an
evaluation; the rules for steps, along the code.

Key definitions: `Setting`, `Spot`, `Setting.session`, `Setting.raise`, `Sim`.
Key theorems: `Sim.bind`, `Sim.attempt`, `Sim.attempt_bind`.
-/
import ResourceMachine.Proofs.EvaluationLaws
import ResourceMachine.Proofs.Layout

namespace ResourceMachine

/-! ### Sessions that follow an evaluation -/

/-- A finished function in a module, with a host and room for its operands. -/
structure Setting (σ : Type) where
  host : Host σ
  unit : Module
  index : Nat
  capacity : Nat
  target : Target
  constants_eq : unit.constants = target.constants
  maxStack_le : target.maxStack ≤ capacity

/-- What a frame knows that an evaluation does not: where it stands, where it was
last suspended, its operands, its locals and its handlers. -/
structure Spot where
  pc : Nat
  ip : Nat
  stack : List Value
  locals : Array Value
  handlers : List Handler

namespace Setting

variable {σ : Type} (κ : Setting σ)

/-- The frame of a call. -/
def frame (spot : Spot) (S : CallState σ) : Frame :=
  { unit := κ.unit
    functionIndex := κ.index
    ip := spot.ip
    stack := ⟨spot.stack, κ.capacity⟩
    locals := spot.locals
    rval := S.rval
    handlers := spot.handlers
    scopes := S.scopes }

/-- The session of a call that is running. -/
def session (spot : Spot) (S : CallState σ) : Session σ :=
  { control := .running spot.pc
    frame := κ.frame spot S
    world := S.world
    globals := S.globals
    script := S.script
    trace := S.trace }

/-- The session of a call in which an exception is thrown. -/
def raise (spot : Spot) (e : Value) (S : CallState σ) : Session σ :=
  (κ.session spot S).route ((κ.frame spot S).unwind e)

/-- The session of a call that has ended or stopped. -/
def ended (spot : Spot) (outcome : Outcome) (S : CallState σ) : Session σ :=
  { κ.session spot S with control := .ended outcome }

/-- A session gets to another in `k` instructions. -/
abbrev Runs (k : Nat) (s s' : Session σ) : Prop := Steps κ.host κ.target.code k s s'

variable {α : Type}

/-- A session after `k` instructions stands where an evaluation has ended. -/
def Lands (n : Nat) (Q : α → Spot → CallState σ → Prop) (R : Spot → CallState σ → Prop) :
    EStateM.Result Interrupt (CallState σ) α → Nat → Session σ → Prop
  | .ok a S, _, s => ∃ spot, s = κ.session spot S ∧ Q a spot S
  | .error (.thrown e) S, _, s => ∃ spot, s = κ.raise spot e S ∧ R spot S
  | .error (.suspended p) S, _, s => ∃ spot, s = κ.ended spot p.outcome S
  | .error .outOfFuel S, k, s => n ≤ k ∧ ∃ spot, s = κ.session spot S

end Setting

/-- A session follows an evaluation with result `x`. -/
def Sim {σ α : Type} (κ : Setting σ) (n : Nat) (s : Session σ)
    (x : EStateM.Result Interrupt (CallState σ) α)
    (Q : α → Spot → CallState σ → Prop) (R : Spot → CallState σ → Prop) : Prop :=
  ∃ k s', κ.Runs k s s' ∧ κ.Lands n Q R x k s'

namespace Sim

variable {σ α β : Type} {κ : Setting σ} {n k : Nat} {s s' : Session σ} {S : CallState σ}
  {m : Eval σ α} {f : α → Eval σ β} {x : EStateM.Result Interrupt (CallState σ) α}
  {Q Q' : α → Spot → CallState σ → Prop} {P : β → Spot → CallState σ → Prop}
  {R R' : Spot → CallState σ → Prop}

theorem pure {a : α} {spot : Spot} (h : Q a spot S) :
    Sim κ n (κ.session spot S) ((Pure.pure a : Eval σ α) S) Q R :=
  ⟨0, _, .refl _, spot, rfl, h⟩

theorem raise {e : Value} {spot : Spot} (h : R spot S) :
    Sim κ n (κ.raise spot e S) ((Eval.raise e : Eval σ α) S) Q R :=
  ⟨0, _, .refl _, spot, rfl, h⟩

/-- Instructions before an evaluation make it no shorter. -/
theorem after (hrun : κ.Runs k s s') (h : Sim κ n s' x Q R) : Sim κ (n + k) s x Q R := by
  obtain ⟨j, s'', hrun', hlands⟩ := h
  refine ⟨k + j, s'', hrun.trans hrun', ?_⟩
  match x, hlands with
  | .ok _ _, h => exact h
  | .error (.thrown _) _, h => exact h
  | .error (.suspended _) _, h => exact h
  | .error .outOfFuel _, ⟨hle, h⟩ => exact ⟨by omega, h⟩

theorem fuel {n' : Nat} (h : Sim κ n s x Q R) (hn : n' ≤ n) : Sim κ n' s x Q R := by
  obtain ⟨j, s'', hrun, hlands⟩ := h
  refine ⟨j, s'', hrun, ?_⟩
  match x, hlands with
  | .ok _ _, h => exact h
  | .error (.thrown _) _, h => exact h
  | .error (.suspended _) _, h => exact h
  | .error .outOfFuel _, ⟨hle, h⟩ => exact ⟨by omega, h⟩

theorem steps (hrun : κ.Runs k s s') (h : Sim κ n s' x Q R) : Sim κ n s x Q R :=
  (h.after hrun).fuel (by omega)

theorem imp (h : Sim κ n s x Q R) (hQ : ∀ a spot S, Q a spot S → Q' a spot S)
    (hR : ∀ spot S, R spot S → R' spot S) : Sim κ n s x Q' R' := by
  obtain ⟨j, s'', hrun, hlands⟩ := h
  refine ⟨j, s'', hrun, ?_⟩
  match x, hlands with
  | .ok _ _, ⟨spot, hs, h⟩ => exact ⟨spot, hs, hQ _ _ _ h⟩
  | .error (.thrown _) _, ⟨spot, hs, h⟩ => exact ⟨spot, hs, hR _ _ h⟩
  | .error (.suspended _) _, h => exact h
  | .error .outOfFuel _, h => exact h

/-- What is known of an evaluation is known of the sessions that follow it. -/
theorem remember (h : Sim κ n s x Q R) :
    Sim κ n s x (fun a spot S => Q a spot S ∧ x = .ok a S) (fun spot S => R spot S ∧ stateOf x = S) := by
  obtain ⟨j, s'', hrun, hlands⟩ := h
  refine ⟨j, s'', hrun, ?_⟩
  match x, hlands with
  | .ok _ _, ⟨spot, hs, h⟩ => exact ⟨spot, hs, h, rfl⟩
  | .error (.thrown _) _, ⟨spot, hs, h⟩ => exact ⟨spot, hs, h, rfl⟩
  | .error (.suspended _) _, h => exact h
  | .error .outOfFuel _, h => exact h

/-- What an evaluation changes, the sessions that follow it have changed. -/
theorem within {r : CallState σ → CallState σ → Prop} (h : Sim κ n s (m S) Q R) (hm : Within r m) :
    Sim κ n s (m S) (fun a spot S' => Q a spot S' ∧ r S S') (fun spot S' => R spot S' ∧ r S S') := by
  have hr := hm S
  refine h.remember.imp ?_ ?_
  · rintro a spot S' ⟨hQ, heq⟩
    rw [heq] at hr
    exact ⟨hQ, hr⟩
  · rintro spot S' ⟨hR, heq⟩
    rw [heq] at hr
    exact ⟨hR, hr⟩

/-- Quiet evaluations leave the scopes as they are. -/
theorem quiet (h : Sim κ n s (m S) Q R) (hm : Within Quiet m) :
    Sim κ n s (m S) (fun a spot S' => Q a spot S' ∧ S'.scopes = S.scopes)
      (fun spot S' => R spot S' ∧ S'.scopes = S.scopes) := h.within (hm.mono Quiet.same)

/-- An evaluation that does not throw needs no handler. -/
theorem never (h : Sim κ n s x Q R) (hx : ∀ e S, x ≠ .error (.thrown e) S) : Sim κ n s x Q R' := by
  obtain ⟨j, s'', hrun, hlands⟩ := h
  refine ⟨j, s'', hrun, ?_⟩
  match x, hlands, hx with
  | .ok _ _, h, _ => exact h
  | .error (.thrown e) S, _, hx => exact absurd rfl (hx e S)
  | .error (.suspended _) _, h, _ => exact h
  | .error .outOfFuel _, h, _ => exact h

/-- Instructions behind an evaluation that an evaluation knows nothing of. -/
theorem onward (h : Sim κ n s x Q R)
    (hQ : ∀ a spot S, Q a spot S →
      ∃ k spot', κ.Runs k (κ.session spot S) (κ.session spot' S) ∧ Q' a spot' S) :
    Sim κ n s x Q' R := by
  obtain ⟨j, s'', hrun, hlands⟩ := h
  match x, hlands with
  | .ok a S, ⟨spot, hs, h⟩ =>
    obtain ⟨k, spot', hrun', hQ'⟩ := hQ a spot S h
    subst hs
    exact ⟨j + k, _, hrun.trans hrun', spot', rfl, hQ'⟩
  | .error (.thrown _) _, h => exact ⟨j, s'', hrun, h⟩
  | .error (.suspended _) _, h => exact ⟨j, s'', hrun, h⟩
  | .error .outOfFuel _, h => exact ⟨j, s'', hrun, h⟩

/-- An evaluation that goes on with the value of another one is followed if both are. -/
theorem bind (h : Sim κ n s (m S) Q R)
    (hf : ∀ a spot S', Q a spot S' → Sim κ n (κ.session spot S') (f a S') P R) :
    Sim κ n s ((m >>= f) S) P R := by
  obtain ⟨j, s', hrun, hlands⟩ := h
  show Sim κ n s (EStateM.bind m f S) P R
  unfold EStateM.bind
  cases hm : m S with
  | ok a S' =>
    rw [hm] at hlands
    obtain ⟨spot, rfl, hQ⟩ := hlands
    exact (hf a spot S' hQ).steps hrun
  | error i S' =>
    rw [hm] at hlands
    refine ⟨j, s', hrun, ?_⟩
    match i, hlands with
    | .thrown _, h => exact h
    | .suspended _, h => exact h
    | .outOfFuel, h => exact h

/-- Where what is thrown is handled, an attempt goes on at the handler. -/
theorem attempt {land : Spot → Value → Spot} (h : Sim κ n s (m S) Q R)
    (hland : ∀ spot e S, R spot S → κ.raise spot e S = κ.session (land spot e) S) :
    Sim κ n s (Eval.attempt m S)
      (fun r spot S' => match r with
        | .ok a => Q a spot S'
        | .error e => ∃ spot', R spot' S' ∧ spot = land spot' e) R' := by
  obtain ⟨j, s', hrun, hlands⟩ := h
  refine ⟨j, s', hrun, ?_⟩
  unfold Eval.attempt
  match m S, hlands with
  | .ok a S', ⟨spot, hs, hQ⟩ => exact ⟨spot, hs, hQ⟩
  | .error (.thrown e) S', ⟨spot, hs, hR⟩ =>
    exact ⟨land spot e, by rw [hs, hland spot e S' hR], spot, hR, rfl⟩
  | .error (.suspended _) _, h => exact h
  | .error .outOfFuel _, h => exact h

/-- An attempt goes on behind what does not throw. -/
theorem attempt_bind {P : Except Value β → Spot → CallState σ → Prop}
    (h : Sim κ n s (m S) Q fun _ _ => False)
    (hf : ∀ a spot S', Q a spot S' → Sim κ n (κ.session spot S') (Eval.attempt (f a) S') P R) :
    Sim κ n s (Eval.attempt (m >>= f) S) P R := by
  obtain ⟨j, s', hrun, hlands⟩ := h
  have hbind : (m >>= f) S = EStateM.bind m f S := rfl
  unfold Eval.attempt
  rw [hbind]
  unfold EStateM.bind
  cases hm : m S with
  | ok a S' =>
    rw [hm] at hlands
    obtain ⟨spot, rfl, hQ⟩ := hlands
    exact (hf a spot S' hQ).steps hrun
  | error i S' =>
    rw [hm] at hlands
    match i, hlands with
    | .suspended _, h => exact ⟨j, s', hrun, h⟩
    | .outOfFuel, h => exact ⟨j, s', hrun, h⟩

end Sim
end ResourceMachine
