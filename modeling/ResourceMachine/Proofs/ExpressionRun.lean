/-
# Running an expression

The code of an expression follows its evaluation and leaves the value on the
operand stack, above what was there. Nothing else changes that a frame knows of:
neither the locals nor the handlers.

Key theorems: `Expr.eval_sim`, `Setting.eval_stands`.
-/
import ResourceMachine.Proofs.Standing

namespace ResourceMachine

variable {σ : Type} {κ : Setting σ} {n : Nat} {scope : Scope} {ρ : Bindings} {H : List Handler}
  {L : Array Value}

/-- A call in the code of an expression is one of the body, whatever its arguments. -/
theorem Target.origin_call {t : Target} {args : List Expr} {d m₁ m₂ m₃ : Nat}
    (hpush : t.Line (d + 1) m₁ [.constUndefined] (d + 2) m₂)
    (hargs : Expr.LaidAll t scope args (d + 2) m₂ m₃) (hfew : args.length ≤ 255) :
    Origin.at t.code m₃ (UInt8.ofNat args.length) = .body := by
  obtain ⟨hhas, -, -, -, rfl⟩ := hpush.single
  cases args with
  | nil =>
    obtain rfl : m₃ = m₁ + 1 := hargs
    exact Setting.origin_body hhas
  | cons e es =>
    have hne : (UInt8.ofNat (e :: es).length == 0) = false := by
      rw [beq_eq_false_iff_ne]
      intro h
      have := congrArg UInt8.toNat h
      rw [UInt8.toNat_ofNat_of_lt' (Nat.lt_succ_of_le hfew)] at this
      cases this
    unfold Origin.at
    rw [hne]

mutual

/-- The code of an expression follows its evaluation. -/
theorem Expr.eval_sim : ∀ (e : Expr) {p q ip : Nat} {stk : List Value} {S : CallState σ},
    e.Laid κ.target scope stk.length p q → Holds κ.target scope ρ L →
    Sim κ n (κ.session ⟨p, ip, stk, L, H⟩ S) (e.eval κ.host ρ S)
      (fun v spot _ => spot.Stands q (v :: stk) L H) (fun spot _ => spot.Over stk L H)
  | .undefined, _, _, _, _, _, h, _ | .null, _, _, _, _, _, h, _ | .bool true, _, _, _, _, _, h, _
  | .bool false, _, _, _, _, _, h, _ | .int _, _, _, _, _, _, h, _ => by
    rw [Expr.eval]
    exact Sim.line h rfl rfl (Sim.pure Spot.stands)
  | .str _, _, _, _, _, _, ⟨_, htext, hline⟩, _ => by
    rw [Expr.eval]
    exact (Sim.pure Spot.stands).steps (Setting.text_step htext hline rfl)
  | .binding name, _, _, _, stk, S, ⟨slot, hslot, hline⟩, hL => by
    rw [Expr.eval]
    have hcalc : Registers.calcAll [.loadLocal slot] ⟨stk, L, S.rval⟩ =
        some ⟨(ρ.lookup name).getD .undefined :: stk, L, S.rval⟩ := by
      simp [hL.lookup hslot]
    exact Sim.line hline rfl hcalc (Sim.pure Spot.stands)
  | .global _, _, _, _, _, _, ⟨_, htext, hline⟩, _ => Setting.global_sim htext hline rfl
  | .call callee args, _, _, _, stk, _, ⟨m₁, m₂, m₃, hcallee, hpush, hargs, hfew, hcall⟩, hL => by
    rw [Expr.eval]
    refine Sim.bind (callee.eval_sim hcallee hL) ?_
    rintro f spot S₁ ⟨ip₁, rfl⟩
    have hcalc : Registers.calcAll [.constUndefined] ⟨f :: stk, L, S₁.rval⟩ =
        some ⟨.undefined :: f :: stk, L, S₁.rval⟩ := rfl
    have hargs' : Expr.LaidAll κ.target scope args (.undefined :: f :: stk : List Value).length m₂ m₃ :=
      hargs
    have hargc : (UInt8.ofNat args.length).toNat = args.length :=
      UInt8.toNat_ofNat_of_lt' (Nat.lt_succ_of_le hfew)
    refine Sim.line hpush rfl hcalc (Sim.bind ((Expr.evalAll_sim args hargs' hL).imp
      (fun _ _ _ h => h) fun _ _ h => h.below ⟨[.undefined, f], rfl⟩) ?_)
    rintro vs spot S₂ ⟨hlen, ip₂, rfl⟩
    exact Setting.call_sim vs hcall (by rw [hlen]) (hargc.trans hlen.symm)
      (Target.origin_call hpush hargs hfew)
  | .await e, _, _, _, _, _, ⟨_, m, he, hline⟩, hL => by
    rw [Expr.eval]
    refine Sim.bind (e.eval_sim he hL) ?_
    rintro v spot S' ⟨ip', rfl⟩
    exact Setting.await_sim hline rfl
  | .yield e, _, _, _, _, _, ⟨_, m, he, hline⟩, hL => by
    rw [Expr.eval]
    refine Sim.bind (e.eval_sim he hL) ?_
    rintro v spot S' ⟨ip', rfl⟩
    exact Setting.yield_sim hline rfl

/-- The code of several expressions follows their evaluation. The last value stands
on top. -/
theorem Expr.evalAll_sim : ∀ (es : List Expr) {p q ip : Nat} {stk : List Value} {S : CallState σ},
    Expr.LaidAll κ.target scope es stk.length p q → Holds κ.target scope ρ L →
    Sim κ n (κ.session ⟨p, ip, stk, L, H⟩ S) (Expr.evalAll κ.host es ρ S)
      (fun vs spot _ => vs.length = es.length ∧ spot.Stands q (vs.reverse ++ stk) L H)
      (fun spot _ => spot.Over stk L H)
  | [], p, q, _, _, _, h, _ => by
    obtain rfl : q = p := h
    rw [Expr.evalAll]
    exact Sim.pure ⟨rfl, Spot.stands⟩
  | e :: es, _, _, _, stk, _, ⟨m, he, hes⟩, hL => by
    rw [Expr.evalAll]
    refine Sim.bind (e.eval_sim he hL) ?_
    rintro v spot S₁ ⟨ip₁, rfl⟩
    have hes' : Expr.LaidAll κ.target scope es (v :: stk).length m _ := hes
    refine Sim.bind ((Expr.evalAll_sim es hes' hL).imp (fun _ _ _ h => h)
      fun _ _ h => h.below (List.suffix_cons _ _)) ?_
    rintro vs spot S₂ ⟨hlen, ip₂, rfl⟩
    refine Sim.pure ⟨congrArg Nat.succ hlen, ip₂, ?_⟩
    simp

end

namespace Setting

variable {rs : List Shape} {stk : List Value} {p q : Nat} {spot : Spot} {S : CallState σ} {e : Expr}

/-- The value of an expression stands on top of what was there. -/
theorem eval_stands (hlaid : e.Laid κ.target scope stk.length p q)
    (h : κ.Stands scope ρ rs stk H p spot S) :
    Sim κ n (κ.session spot S) (e.eval κ.host ρ S)
      (fun v spot S' => κ.Stands scope ρ rs (v :: stk) H q spot S')
      (κ.Throws scope ρ rs stk H) := by
  obtain ⟨L, ⟨ip, rfl⟩, hL, hfit⟩ := h
  refine ((Expr.eval_sim e hlaid hL).quiet (e.eval_quiet κ.host ρ)).imp ?_ ?_
  · rintro v spot S' ⟨hstands, hscopes⟩
    exact ⟨L, hstands, hL, by rwa [hscopes]⟩
  · rintro spot S' ⟨hover, hscopes⟩
    exact ⟨L, hover, hL, by rwa [hscopes]⟩

end Setting
end ResourceMachine
