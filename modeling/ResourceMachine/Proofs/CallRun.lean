/-
# A whole call

The code of a function follows a call of it from its entry to its end: the session
ends as the call does, with the same trace, or goes on at least as long as the call
has fuel. As a session has one future, what is reached in a session, whenever it is
looked at, is a part of what the call does with enough fuel (`Setting.Entered.trace_le`).

Key definitions: `Setting.Ends`, `Setting.Entered`.
Key theorems: `Setting.Entered.follows`, `Setting.Entered.trace_le`,
`Setting.Entered.ended_eq`.
-/
import ResourceMachine.Proofs.FunctionEmission
import ResourceMachine.Proofs.StatementRun

namespace ResourceMachine

/-! ### The locals at the entry -/

/-- At the entry of a function, its parameters hold the arguments. -/
theorem Declaration.holds_initial {d : Declaration} {t : Target} (hcount : d.params.length ≤ t.localCount)
    (hlt : d.params.length ≤ 65535) (args : List Value) :
    Holds t d.paramScope (d.bind args)
      (Frame.initialLocals d.params.length t.localCount args) := by
  refine ⟨?_, ?_⟩
  · simp only [Frame.initialLocals, List.size_toArray, List.length_append, List.length_take,
      List.length_replicate]
    omega
  · unfold paramScope bind
    rw [List.forall₂_reverse_iff, List.forall₂_map_left_iff, List.forall₂_map_right_iff,
      List.forall₂_same]
    rintro ⟨name, k⟩ hk
    have hk := (List.mem_zipIdx hk).2.1
    refine ⟨rfl, ?_⟩
    rw [UInt16.toNat_ofNat_of_lt' (by show k < 65536; omega)]
    simp only [Frame.initialLocals, List.getElem?_toArray, List.getD_eq_getElem?_getD]
    rw [List.getElem?_append]
    split
    · rename_i hlt'
      rw [List.length_take] at hlt'
      rw [List.getElem?_take_of_lt (by omega), List.getElem?_eq_getElem (by omega)]
      rfl
    · rename_i hge
      rw [List.length_take] at hge
      rw [List.getElem?_replicate, if_pos (by rw [List.length_take]; omega),
        List.getElem?_eq_none (by omega)]
      rfl

/-! ### The end of a call -/

namespace Setting

variable {σ : Type} (κ : Setting σ)

/-- A session after `k` instructions stands where a call with `n` rounds of fuel has
ended, stopped or run out of fuel. One that is over has left all its regions. -/
def Ends (n : Nat) : Option Outcome × CallState σ → Nat → Session σ → Prop
  | (some o, S), _, s => ∃ spot, s = κ.ended spot o S ∧
      (o.suspension? = none → spot.handlers = [] ∧ S.scopes = [])
  | (none, S), k, s => n ≤ k ∧ ∃ spot, s = κ.session spot S

/-- A function is about to be run. -/
structure Entered (d : Declaration) (args : List Value) (S : CallState σ) (s : Session σ) :
    Prop where
  laid : d.Laid κ.target
  nodes : d.nodes ≤ 2147483647
  scopes : S.scopes = []
  session : s = κ.session
    ⟨0, 0, [], Frame.initialLocals d.params.length κ.target.localCount args, []⟩ S

variable {κ} {d : Declaration} {args : List Value} {S : CallState σ} {s s' : Session σ} {n k : Nat}

/-- Where nothing handles an exception, it ends the session. -/
theorem raise_uncaught {stk : List Value} {L : Array Value} {spot : Spot} (e : Value)
    (h : spot.Over stk L []) : κ.raise spot e S = κ.ended spot ((κ.frame spot S).escape e) S := by
  obtain ⟨pc, ip, stack, locals, handlers⟩ := spot
  obtain ⟨-, -, rfl⟩ := h
  rfl

/-- The code of a function ends with a value in the return slot, or as its body does. -/
theorem Entered.call_sim (h : κ.Entered d args S s) (n : Nat) :
    Sim κ n s (d.call κ.host n args S)
      (fun v spot S' => κ.target.code.Has spot.pc .retRval ∧ S'.rval = v ∧ spot.handlers = [] ∧
        S'.scopes = [])
      (fun spot S' => spot.Over [] spot.locals [] ∧ S'.scopes = []) := by
  obtain ⟨⟨hkind, hcount, hlt, m, hblock, hline⟩, hnodes, hscopes, rfl⟩ := h
  have hstands : κ.Stands d.paramScope (d.bind args) [] [] [] 0
      ⟨0, 0, [], Frame.initialLocals d.params.length κ.target.localCount args, []⟩ S := by
    refine ⟨_, Spot.stands, d.holds_initial hcount hlt args, ?_⟩
    rw [hscopes]
    exact .nil
  have hbody : Stmt.nodesAll d.body ≤ 2147483647 := by
    unfold Declaration.nodes at hnodes
    omega
  have hsim := block_sim (Stmt.followsAll (κ := κ) (n := n) d.body hbody) (Stmt.few_of_nodes hbody)
    hblock hstands
  rw [hkind] at hsim
  refine Sim.bind (hsim.imp (fun _ _ _ h => h) ?_) ?_
  · rintro spot S' ⟨L, ⟨hstk, hL, hH⟩, -, hfit⟩
    exact ⟨⟨hstk, rfl, hH⟩, List.forall₂_nil_left_iff.mp hfit⟩
  · intro x spot S' hleft
    unfold Left at hleft
    cases x with
    | normal =>
      rw [if_pos (show Exit.normal.isNormal = true from rfl)] at hleft
      obtain ⟨L, ⟨ip, rfl⟩, -, hfit⟩ := hleft
      have hscopes' : S'.scopes = [] := List.forall₂_nil_left_iff.mp hfit
      obtain ⟨m₁, hpush, hline⟩ := hline.cut [.constUndefined]
      obtain ⟨m₂, hset, hret⟩ := hline.cut [.setRval]
      have hcalc : Registers.calcAll [.constUndefined] ⟨[], L, S'.rval⟩ =
          some ⟨[.undefined], L, S'.rval⟩ := rfl
      have hreturns : restoresRval κ.target.code m₁ = false := by
        obtain ⟨-, -, -, -, rfl⟩ := hset.single
        exact restoresRval_of_startsExit hret.1 rfl
      let T : CallState σ := { S' with trace := S'.trace ++ [.returns .undefined], rval := .undefined }
      have hrun : κ.Runs 1 (κ.session ⟨m₁, ip, [.undefined], L, []⟩ S')
          (κ.session ⟨m₂, ip, [], L, []⟩ T) :=
        set_rval_line hset (by rw [hreturns]; rfl) rfl
      refine Sim.line hpush rfl hcalc (Sim.steps hrun (Sim.pure ?_))
      exact ⟨hret.1, rfl, rfl, hscopes'⟩
    | ret v =>
      rw [if_neg (by simp [Exit.isNormal])] at hleft
      obtain ⟨p, ⟨q', -, hret⟩, ⟨L, ⟨ip, rfl⟩, -, hfit⟩, hrval⟩ := hleft
      exact Sim.pure ⟨hret.1, hrval v rfl, rfl, List.forall₂_nil_left_iff.mp hfit⟩
    | breakTo label =>
      rw [if_neg (by simp [Exit.isNormal])] at hleft
      obtain ⟨p, ⟨q', habsurd, -⟩, -⟩ := hleft
      cases habsurd
    | continueTo label =>
      rw [if_neg (by simp [Exit.isNormal])] at hleft
      obtain ⟨p, ⟨q', habsurd, -⟩, -⟩ := hleft
      cases habsurd

/-- The code of a function follows a call of it. -/
theorem Entered.follows (h : κ.Entered d args S s) (n : Nat) :
    ∃ k s', κ.Runs k s s' ∧ κ.Ends n (d.run κ.host n args S) k s' := by
  obtain ⟨k, s', hrun, hlands⟩ := h.call_sim n
  unfold Declaration.run
  match d.call κ.host n args S, hlands with
  | .ok v S', ⟨spot, hs, hret, hrval, hhandlers, hscopes⟩ =>
    obtain ⟨pc, ip, stk, L, H⟩ := spot
    obtain ⟨spot', hret, hspot'⟩ : ∃ spot', κ.Runs 1 (κ.session ⟨pc, ip, stk, L, H⟩ S')
        (κ.ended spot' (.completed S'.rval) S') ∧ spot'.handlers = H := ret_step hret
    subst hs hrval
    exact ⟨k + 1, _, hrun.trans hret, spot', rfl, fun _ => ⟨hspot'.trans hhandlers, hscopes⟩⟩
  | .error (.thrown e) S', ⟨spot, hs, hover, hscopes⟩ =>
    rw [raise_uncaught e hover] at hs
    refine ⟨k, s', hrun, ?_⟩
    cases e <;> exact ⟨spot, hs, fun _ => ⟨hover.2.2, hscopes⟩⟩
  | .error (.suspended p) S', ⟨spot, hs⟩ =>
    refine ⟨k, s', hrun, spot, hs, fun hp => ?_⟩
    cases p <;> cases hp
  | .error .outOfFuel S', ⟨hle, spot, hs⟩ => exact ⟨k, s', hrun, hle, spot, hs⟩

/-! ### What is reached -/

/-- What is reached in a session is a part of what a call does that has more fuel than
the session made steps. -/
theorem Entered.trace_le (h : κ.Entered d args S s) (hrun : κ.Runs k s s') :
    s'.trace <+: (d.run κ.host (k + 1) args S).2.trace := by
  obtain ⟨j, s'', hrun', hends⟩ := h.follows (k + 1)
  have hlast : s''.trace = (d.run κ.host (k + 1) args S).2.trace := by
    generalize d.run κ.host (k + 1) args S = r at hends
    match r, hends with
    | (some o, S'), ⟨spot, hs, _⟩ => rw [hs]; rfl
    | (none, S'), ⟨_, spot, hs⟩ => rw [hs]; rfl
  rw [← hlast]
  rcases Nat.le_total k j with hkj | hjk
  · exact Steps.trace (hrun.split hrun' hkj)
  · have hrest := hrun'.split hrun hjk
    generalize d.run κ.host (k + 1) args S = r at hends
    match r, hends with
    | (some o, S'), ⟨spot, hs, _⟩ =>
      rw [hs] at hrest ⊢
      exact (hrest.of_ended rfl).2 ▸ List.prefix_refl _
    | (none, S'), ⟨hle, _⟩ => omega

/-- A session that has ended did so as a call that has more fuel than the session made
steps. -/
theorem Entered.ended_eq {o : Outcome} (h : κ.Entered d args S s) (hrun : κ.Runs k s s')
    (hs' : s'.control = .ended o) :
    ∃ S' spot, d.run κ.host (k + 1) args S = (some o, S') ∧ s' = κ.ended spot o S' ∧
      (o.suspension? = none → spot.handlers = [] ∧ S'.scopes = []) := by
  obtain ⟨j, s'', hrun', hends⟩ := h.follows (k + 1)
  have hjk : j ≤ k := by
    by_contra hlt
    have hrest := hrun.split hrun' (by omega)
    generalize hi : j - k = i at hrest
    cases hrest with
    | refl => omega
    | step head => simp [Session.step, hs'] at head
  have hrest := hrun'.split hrun hjk
  generalize d.run κ.host (k + 1) args S = r at hends
  obtain ⟨_ | o', S'⟩ := r
  · obtain ⟨hle, -⟩ := hends
    omega
  · obtain ⟨spot, hs, hover⟩ := hends
    rw [hs] at hrest
    obtain ⟨-, rfl⟩ := hrest.of_ended rfl
    cases hs'
    exact ⟨S', spot, rfl, rfl, hover⟩

end Setting
end ResourceMachine
