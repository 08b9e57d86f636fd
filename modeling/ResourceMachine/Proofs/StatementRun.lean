/-
# Running a statement

The code of a statement follows its execution, form by form. A loop goes round
along its fuel: a round takes at least one instruction, so a loop that is out of
fuel has been followed for as many instructions as it had fuel.

Key theorems: `Stmt.follows_whileLoop`, `Stmt.follows_forOf`,
`Stmt.follows_tryCatch`, `Stmt.follows`, `Stmt.followsAll`.
-/
import ResourceMachine.Proofs.ExpressionRun
import ResourceMachine.Proofs.ScopeRun

namespace ResourceMachine

/-! ### What statements bring into scope -/

/-- The names that the statements behind a statement see are those before it and
perhaps one more. -/
theorem Stmt.Laid.suffix {t : Target} {s : Stmt} {rs : List Shape} {scope scope' : Scope}
    {d p q : Nat} (h : s.Laid t rs scope d p scope' q) : scope <:+ scope' := by
  cases s with
  | letIn _ _ =>
    obtain ⟨_, _, -, -, -, rfl⟩ := h
    exact List.suffix_cons _ _
  | usingIn _ _ _ =>
    obtain ⟨_, _, _, -, -, -, -, -, -, rfl⟩ := h
    exact List.suffix_cons _ _
  | expr _ | throw _ =>
    obtain ⟨_, -, -, rfl⟩ := h
    exact List.suffix_refl _
  | block _ | breakLoop _ | continueLoop _ =>
    obtain ⟨-, rfl⟩ := h
    exact List.suffix_refl _
  | ifElse _ _ _ =>
    obtain ⟨_, _, -, -, -, rfl⟩ := h
    exact List.suffix_refl _
  | whileLoop _ _ _ =>
    obtain ⟨_, _, -, -, -, -, -, rfl⟩ := h
    exact List.suffix_refl _
  | forOf _ _ _ _ _ =>
    obtain ⟨_, _, _, _, _, _, _, _, _, -, -, -, -, -, -, -, -, -, -, -, -, -, -, -, -, rfl⟩ := h
    exact List.suffix_refl _
  | tryCatch _ _ _ =>
    obtain ⟨_, _, _, _, _, -, -, -, -, -, -, -, -, rfl⟩ := h
    exact List.suffix_refl _
  | ret _ =>
    obtain ⟨_, _, -, -, -, rfl⟩ := h
    exact List.suffix_refl _

theorem Stmt.nodes_pos : ∀ s : Stmt, 1 ≤ s.nodes
  | .ret none | .breakLoop _ | .continueLoop _ => Nat.le_refl 1
  | .expr _ | .letIn _ _ | .usingIn _ _ _ | .block _ | .ifElse _ _ _ | .whileLoop _ _ _
  | .forOf _ _ _ _ _ | .tryCatch _ _ _ | .throw _ | .ret (some _) => Nat.le_add_left 1 _

/-- There are no more declarations than nodes. -/
theorem Stmt.countP_le_nodes (ss : List Stmt) : ss.countP isUsing ≤ nodesAll ss := by
  induction ss with
  | nil => exact Nat.le_refl _
  | cons s ss ih =>
    have hpos := s.nodes_pos
    rw [List.countP_cons, nodesAll]
    split <;> omega

namespace Stmt

variable {σ : Type} {κ : Setting σ} {n : Nat} {name : String} {hint : Hint} {e cond : Expr}
  {label : Option String} {body : List Stmt}

/-! ### Statements that go straight on -/

theorem follows_expr : (expr e).Follows κ n := by
  intro rs scope scope' ρ stk H p q spot S hlaid hstands
  obtain ⟨m, he, hpop, rfl⟩ := hlaid
  rw [exec]
  refine Sim.bind (Setting.eval_stands he hstands) ?_
  rintro v spot S' ⟨L, ⟨ip, rfl⟩, hL, hfit⟩
  have hcalc : Registers.calcAll [.pop] ⟨v :: stk, L, S'.rval⟩ = some ⟨stk, L, S'.rval⟩ := rfl
  exact Sim.line hpop rfl hcalc
    (Sim.pure (.of_normal (List.suffix_refl _) ⟨L, Spot.stands, hL, hfit⟩))

theorem follows_letIn : (letIn name e).Follows κ n := by
  intro rs scope scope' ρ stk H p q spot S hlaid hstands
  obtain ⟨m, slot, he, hslot, hstore, rfl⟩ := hlaid
  rw [exec]
  refine Sim.bind (Setting.eval_stands he hstands) ?_
  rintro v spot S' ⟨L, ⟨ip, rfl⟩, hL, hfit⟩
  have hcalc : Registers.calcAll [.storeLocal slot] ⟨v :: stk, L, S'.rval⟩ =
      some ⟨stk, L.setIfInBounds slot.toNat v, S'.rval⟩ := by
    simp [hL.size, hslot.1]
  exact Sim.line hstore rfl hcalc
    (Sim.pure (.of_normal (List.suffix_cons _ _) ⟨_, Spot.stands, hL.bind hslot name v, hfit⟩))

theorem follows_throw : (throw e).Follows κ n := by
  intro rs scope scope' ρ stk H p q spot S hlaid hstands
  obtain ⟨m, he, hthrow, rfl⟩ := hlaid
  rw [exec]
  refine Sim.bind (Setting.eval_stands he hstands) ?_
  rintro v spot S' ⟨L, ⟨ip, rfl⟩, hL, hfit⟩
  let S'' : CallState σ := { S' with trace := S'.trace ++ [.raise v] }
  have hrun : ∃ ip', κ.Runs 1 (κ.session ⟨m, ip, v :: stk, L, H⟩ S')
      (κ.raise ⟨q, ip', stk, L, H⟩ v S'') :=
    Setting.throw_line hthrow (by rw [he.throws_first]; rfl) rfl
  obtain ⟨ip', hrun⟩ := hrun
  exact ⟨1, _, hrun, _, rfl, L, Spot.over_of_suffix (List.suffix_refl _), hL, hfit⟩

theorem follows_usingIn : (usingIn name hint e).Follows κ n := by
  intro rs scope scope' ρ stk H p q spot S hlaid hstands
  obtain ⟨m₁, m₂, slot, ⟨awaits, room, outer, rfl⟩, -, he, hregister, hslot, hstore, rfl⟩ := hlaid
  obtain ⟨m, hdup, hregister⟩ := hregister.cut [.dup]
  rw [exec]
  refine Sim.bind (Setting.eval_stands he hstands) ?_
  rintro v spot S' ⟨L, ⟨ip, rfl⟩, hL, hfit⟩
  obtain ⟨c, cs, hscopes, hc, hfit⟩ := hfit.of_disposable
  have hcalc : Registers.calcAll [.dup] ⟨v :: stk, L, S'.rval⟩ = some ⟨v :: v :: stk, L, S'.rval⟩ := rfl
  refine Sim.line hdup rfl hcalc (Sim.bind ((Setting.register_sim hregister hscopes).imp
    (fun _ _ _ h => h) ?_) ?_)
  · rintro spot S'' ⟨hover, hscopes'⟩
    refine ⟨L, hover.below (List.suffix_cons _ _), hL, ?_⟩
    rw [hscopes']
    exact hfit.cons_disposable hc
  · rintro - spot S'' ⟨⟨ip', rfl⟩, hregistered⟩
    have hcalc' : Registers.calcAll [.storeLocal slot] ⟨v :: stk, L, S''.rval⟩ =
        some ⟨stk, L.setIfInBounds slot.toNat v, S''.rval⟩ := by
      simp [hL.size, hslot.1]
    exact Sim.line hstore rfl hcalc' (Sim.pure (.of_normal (List.suffix_cons _ _)
      ⟨_, Spot.stands, hL.bind hslot name v, hfit.register hc hregistered⟩))

/-! ### Ways out -/

/-- The value to be returned is set, and the code that leaves the regions follows. -/
theorem return_sim {rs : List Shape} {scope scope' : Scope} {ρ : Bindings} {stk : List Value}
    {H : List Handler} {m m' q : Nat} {v : Value} {spot : Spot} {S : CallState σ} {rs' : List Shape}
    {R : Spot → CallState σ → Prop}
    (hset : κ.target.Line (stk.length + 1) m [.setRval] stk.length m')
    (hleaving : κ.target.LeavesFrom scope rs (.ret .undefined) stk.length m')
    (hstands : κ.Stands scope ρ rs (v :: stk) H m spot S) :
    Sim κ n (κ.session spot S)
      ((do
        Eval.returnValue v
        return (.ret v, ρ) : Eval σ (Exit × Bindings)) S)
      (κ.Passed scope ρ rs stk H scope' rs' q) R := by
  obtain ⟨L, ⟨ip, rfl⟩, hL, hfit⟩ := hstands
  have hreturns : restoresRval κ.target.code m = false := by
    obtain ⟨-, -, -, -, rfl⟩ := hset.single
    exact hleaving.returns
  let S' : CallState σ := { S with trace := S.trace ++ [.returns v], rval := v }
  have hrun : κ.Runs 1 (κ.session ⟨m, ip, v :: stk, L, H⟩ S) (κ.session ⟨m', ip, stk, L, H⟩ S') :=
    Setting.set_rval_line hset (by rw [hreturns]; rfl) rfl
  refine Sim.steps hrun (Sim.pure (.of_abrupt ⟨m', hleaving.ret_congr _ v, ?_, ?_⟩ rfl))
  · exact ⟨L, Spot.stands, hL, hfit⟩
  · intro w hw
    exact Exit.ret.inj hw

theorem follows_ret : ∀ {e : Option Expr}, (ret e).Follows κ n := by
  rintro (_ | e) rs scope scope' ρ stk H p q spot S hlaid hstands
  · obtain ⟨m₁, m₂, hpush, hset, hleaving, rfl⟩ := hlaid
    obtain ⟨L, ⟨ip, rfl⟩, hL, hfit⟩ := hstands
    have hcalc : Registers.calcAll [.constUndefined] ⟨stk, L, S.rval⟩ =
        some ⟨.undefined :: stk, L, S.rval⟩ := rfl
    rw [exec]
    exact Sim.line hpush rfl hcalc (return_sim hset ⟨q, hleaving⟩ ⟨L, Spot.stands, hL, hfit⟩)
  · obtain ⟨m₁, m₂, he, hset, hleaving, rfl⟩ := hlaid
    rw [exec]
    refine Sim.bind (Setting.eval_stands he hstands) ?_
    intro v spot S' hstands'
    exact return_sim hset ⟨q, hleaving⟩ hstands'

theorem follows_breakLoop : (breakLoop label).Follows κ n := by
  intro rs scope scope' ρ stk H p q spot S hlaid hstands
  obtain ⟨hleaving, rfl⟩ := hlaid
  rw [exec]
  exact Sim.pure (.of_abrupt ⟨p, ⟨q, hleaving⟩, hstands, nofun⟩ rfl)

theorem follows_continueLoop : (continueLoop label).Follows κ n := by
  intro rs scope scope' ρ stk H p q spot S hlaid hstands
  obtain ⟨hleaving, rfl⟩ := hlaid
  rw [exec]
  exact Sim.pure (.of_abrupt ⟨p, ⟨q, hleaving⟩, hstands, nofun⟩ rfl)

/-! ### Blocks and branches -/

theorem few_of_nodes (h : nodesAll body ≤ 2147483647) : body.countP isUsing ≤ 2147483647 :=
  Nat.le_trans (countP_le_nodes body) h

theorem follows_block (hbody : FollowsAll κ n body) (hfew : body.countP isUsing ≤ 2147483647) :
    (block body).Follows κ n := by
  intro rs scope scope' ρ stk H p q spot S hlaid hstands
  obtain ⟨hblock, rfl⟩ := hlaid
  rw [exec]
  refine Sim.bind (Setting.block_sim hbody hfew hblock hstands) ?_
  intro x spot S' hleft
  exact Sim.pure hleft.passed

theorem follows_ifElse {yes no : List Stmt} (hyes : FollowsAll κ n yes) (hno : FollowsAll κ n no)
    (hyesFew : yes.countP isUsing ≤ 2147483647) (hnoFew : no.countP isUsing ≤ 2147483647) :
    (ifElse cond yes no).Follows κ n := by
  intro rs scope scope' ρ stk H p q spot S hlaid hstands
  obtain ⟨m₁, m₂, hcond, hblock, hrest, rfl⟩ := hlaid
  rw [exec]
  refine Sim.bind (Setting.eval_stands hcond hstands) ?_
  rintro v spot S' ⟨L, ⟨ip, rfl⟩, hL, hfit⟩
  have hpassed : ∀ x spot S', κ.Left scope' ρ rs stk H q x spot S' →
      Sim κ n (κ.session spot S') ((pure (x, ρ) : Eval σ (Exit × Bindings)) S')
        (κ.Passed scope' ρ rs stk H scope' rs q) (κ.Throws scope' ρ rs stk H) :=
    fun _ _ _ hleft => Sim.pure hleft.passed
  by_cases hv : v.isTruthy = true
  · rw [if_pos hv]
    have hyesRun := Setting.block_sim hyes hyesFew hblock
      (⟨L, Spot.stands, hL, hfit⟩ : κ.Stands scope' ρ rs stk H (m₁ + 5) ⟨m₁ + 5, ip, stk, L, H⟩ S')
    by_cases hempty : no.isEmpty = true
    · rw [if_pos hempty] at hrest
      obtain ⟨hjump, rfl⟩ := hrest
      refine Sim.steps (Setting.jump_if false rfl hjump) ?_
      rw [if_neg (by simp [hv])]
      exact Sim.bind hyesRun hpassed
    · rw [if_neg hempty] at hrest
      obtain ⟨hjump, hover, -⟩ := hrest
      refine Sim.steps (Setting.jump_if false rfl hjump) ?_
      rw [if_neg (by simp [hv])]
      -- only the normal end of the first branch jumps over the second
      refine Sim.bind (hyesRun.onward ?_) hpassed
      intro x spot S' hleft
      cases hx : x.isNormal with
      | true =>
        unfold Setting.Left at hleft
        rw [if_pos hx] at hleft
        obtain ⟨L', ⟨ip', rfl⟩, hL', hfit'⟩ := hleft
        exact ⟨1, _, Setting.jump_always hover, .of_normal ⟨L', Spot.stands, hL', hfit'⟩ hx⟩
      | false =>
        unfold Setting.Left at hleft
        rw [if_neg (by simp [hx])] at hleft
        exact ⟨0, spot, .refl _, .of_abrupt hleft hx⟩
  · rw [if_neg hv]
    by_cases hempty : no.isEmpty = true
    · rw [if_pos hempty] at hrest
      obtain ⟨hjump, rfl⟩ := hrest
      obtain rfl : no = [] := List.isEmpty_iff.mp hempty
      refine Sim.steps (Setting.jump_if false rfl hjump) ?_
      rw [if_pos (by simpa using hv)]
      refine Sim.bind ?_ hpassed
      unfold Eval.block
      rw [if_neg (by simp), execAll]
      exact Sim.pure (.of_normal ⟨L, Spot.stands, hL, hfit⟩ rfl)
    · rw [if_neg hempty] at hrest
      obtain ⟨hjump, -, hblock'⟩ := hrest
      refine Sim.steps (Setting.jump_if false rfl hjump) ?_
      rw [if_pos (by simpa using hv)]
      exact Sim.bind (Setting.block_sim hno hnoFew hblock' ⟨L, Spot.stands, hL, hfit⟩) hpassed

/-! ### While loops -/

/-- What is left of a loop with its body: it goes on with the next round, ends, or is left
further. -/
theorem left_of_body {isForOf : Bool} {rs : List Shape} {scope : Scope} {ρ : Bindings}
    {stk : List Value} {H : List Handler} {head q m : Nat} {x : Exit} {spot : Spot}
    {S : CallState σ}
    (h : κ.Left scope ρ (.loop label isForOf head q :: rs) stk H m x spot S) :
    (x = .normal ∧ κ.Stands scope ρ rs stk H m spot S) ∨
    (x ≠ .normal ∧ x.continues label = true ∧
      ∃ p, κ.target.Jump .always p head ∧ κ.Stands scope ρ rs stk H p spot S) ∨
    (x ≠ .normal ∧ x.continues label = false ∧ ∃ p d' p',
      κ.target.ExitOf scope (.loop label isForOf head q) stk.length p d' p' ∧
      (if x.breaks label then κ.target.Jump .always p' q
        else κ.target.LeavesFrom scope rs x d' p') ∧
      κ.Stands scope ρ rs stk H p spot S ∧ ∀ v, x = .ret v → S.rval = v) := by
  unfold Setting.Left at h
  cases hx : x.isNormal with
  | true =>
    rw [if_pos hx] at h
    cases x <;> first | exact .inl ⟨rfl, h⟩ | cases hx
  | false =>
    have hne : x ≠ .normal := by
      rintro rfl
      cases hx
    rw [if_neg (by simp [hx])] at h
    obtain ⟨p, hleaving, hstands, hret⟩ := h
    have hleaving := hleaving.cons
    by_cases hcontinues : x.continues label = true
    · rw [if_pos (show Shape.isContinuedBy x (.loop label isForOf head q) = true from hcontinues)]
        at hleaving
      exact .inr (.inl ⟨hne, hcontinues, p, hleaving, hstands⟩)
    · rw [if_neg (show ¬ Shape.isContinuedBy x (.loop label isForOf head q) = true from hcontinues)]
        at hleaving
      obtain ⟨d', p', hexit, hrest⟩ := hleaving
      exact .inr (.inr ⟨hne, by simpa using hcontinues, p, d', p', hexit, hrest, hstands, hret⟩)

/-- Every round of a loop is followed, by at least one instruction. -/
theorem whileLoop_sim (hbody : FollowsAll κ n body) (hfew : body.countP isUsing ≤ 2147483647)
    {rs : List Shape} {scope : Scope} {ρ : Bindings} {stk : List Value} {H : List Handler}
    {p q m₁ m₂ : Nat} (hcond : cond.Laid κ.target scope stk.length p m₁)
    (hout : κ.target.Jump .ifFalse m₁ q)
    (hblock : κ.target.Block scope body (.loop label false p q :: rs)
      (fun rs d p q => LaidAll κ.target body rs scope d p q) stk.length (m₁ + 5) m₂)
    (hback : κ.target.Jump .always m₂ p) :
    ∀ k ≤ n, ∀ {spot : Spot} {S : CallState σ}, κ.Stands scope ρ rs stk H p spot S →
      Sim κ k (κ.session spot S)
        (Eval.whileLoop label (cond.eval κ.host ρ)
          (Eval.block κ.host κ.target.kind (body.any isUsing)
            (execAll κ.host κ.target.kind n body ρ)) k S)
        (κ.Left scope ρ rs stk H q) (κ.Throws scope ρ rs stk H) := by
  intro k
  induction k with
  | zero =>
    intro _ spot S _
    exact ⟨0, _, .refl _, Nat.le_refl 0, spot, rfl⟩
  | succ k ih =>
    intro hk spot S hstands
    rw [Eval.whileLoop]
    refine Sim.bind (Setting.eval_stands hcond hstands) ?_
    rintro v spot S₁ ⟨L, ⟨ip, rfl⟩, hL, hfit⟩
    refine Sim.after (Setting.jump_if false rfl hout) ?_
    by_cases hv : v.isTruthy = true
    · rw [if_pos hv, if_neg (by simp [hv])]
      have hround := Setting.block_sim hbody hfew hblock
        (⟨L, Spot.stands, hL, hfit⟩ : κ.Stands scope ρ (.loop label false p q :: rs) stk H (m₁ + 5)
          ⟨m₁ + 5, ip, stk, L, H⟩ S₁)
      refine Sim.bind (hround.fuel (by omega : k ≤ n)) ?_
      intro x spot S₂ hleft
      rcases left_of_body hleft with ⟨rfl, L', ⟨ip', rfl⟩, hL', hfit'⟩ |
        ⟨-, hcontinues, r, hjump, L', ⟨ip', rfl⟩, hL', hfit'⟩ |
        ⟨hne, hcontinues, r, d', r', hexit, hrest, ⟨L', ⟨ip', rfl⟩, hL', hfit'⟩, hret⟩
      · exact Sim.steps (Setting.jump_always hback) (ih (by omega) ⟨L', Spot.stands, hL', hfit'⟩)
      · rw [if_pos hcontinues]
        exact Sim.steps (Setting.jump_always hjump) (ih (by omega) ⟨L', Spot.stands, hL', hfit'⟩)
      · rw [if_neg (by simp [hcontinues]), Exit.leaveLoop]
        obtain ⟨rfl, rfl⟩ : d' = stk.length ∧ r' = r := hexit
        by_cases hbreaks : x.breaks label = true
        · rw [if_pos hbreaks] at hrest ⊢
          exact Sim.steps (Setting.jump_always hrest)
            (Sim.pure (.of_normal ⟨L', Spot.stands, hL', hfit'⟩ rfl))
        · rw [if_neg hbreaks] at hrest ⊢
          have habrupt : x.isNormal = false := by
            cases x <;> first | rfl | exact absurd rfl hne
          exact Sim.pure (.of_abrupt ⟨_, hrest, ⟨L', Spot.stands, hL', hfit'⟩, hret⟩ habrupt)
    · rw [if_neg hv, if_pos (by simpa using hv)]
      exact Sim.pure (.of_normal ⟨L, Spot.stands, hL, hfit⟩ rfl)

theorem follows_whileLoop (hbody : FollowsAll κ n body) (hfew : body.countP isUsing ≤ 2147483647) :
    (whileLoop label cond body).Follows κ n := by
  intro rs scope scope' ρ stk H p q spot S hlaid hstands
  obtain ⟨m₁, m₂, hcond, hout, hblock, hback, -, rfl⟩ := hlaid
  rw [exec]
  refine Sim.bind (whileLoop_sim hbody hfew hcond hout hblock hback n (Nat.le_refl n) hstands) ?_
  intro x spot S' hleft
  exact Sim.pure hleft.passed

/-! ### Rounds of a loop over items -/

section

variable {rs : List Shape} {scope : Scope} {ρ : Bindings} {stk : List Value} {H : List Handler}
  {m₁ m₂ p q : Nat} {spot : Spot} {S : CallState σ}

/-- A round was left, under a handler that is to be removed. Code goes on at `m` behind the
normal end; otherwise, the code follows that leaves the regions around the round. -/
def RoundLeft (κ : Setting σ) (scope : Scope) (ρ : Bindings) (rs : List Shape) (stk : List Value)
    (H : List Handler) (m : Nat) (x : Exit) (spot : Spot) (S : CallState σ) : Prop :=
  ∃ p r, κ.target.Line stk.length p [.endTry] stk.length r ∧
    (if x.isNormal then r = m else κ.target.LeavesFrom scope rs x stk.length r) ∧
    κ.Stands scope ρ rs stk H p spot S ∧ ∀ v, x = .ret v → S.rval = v

/-- The body of a round that registers nothing. -/
theorem plainRound_sim {h : Handler} {c : Nat} (hbody : FollowsAll κ n body)
    (hfew : body.countP isUsing ≤ 2147483647)
    (hblock : κ.target.Block scope body (.iteration none :: rs)
      (fun rs d p q => LaidAll κ.target body rs scope d p q) stk.length p m₁)
    (hend : κ.target.Line stk.length m₁ [.endTry] stk.length m₂)
    (hh : h = ⟨some c, none, stk.length⟩) (hroom : stk.length < κ.capacity)
    (hstands : κ.Stands scope ρ rs stk (h :: H) p spot S) :
    Sim κ n (κ.session spot S)
      (Eval.attempt (Eval.block κ.host κ.target.kind (body.any isUsing)
        (execAll κ.host κ.target.kind n body ρ)) S)
      (fun r spot S' => match r with
        | .ok x => RoundLeft κ scope ρ rs stk (h :: H) m₂ x spot S'
        | .error e => κ.Stands scope ρ rs (e :: stk) H c spot S')
      fun _ _ => False := by
  have hland : ∀ spot e S', κ.Throws scope ρ (.iteration none :: rs) stk (h :: H) spot S' →
      κ.raise spot e S' = κ.session ⟨c, spot.ip, e :: stk, spot.locals, H⟩ S' := by
    rintro spot e S' ⟨L', ⟨⟨xs, hxs⟩, rfl, hH⟩, -, -⟩
    subst hh
    exact Setting.raise_catch hH hxs rfl hroom
  have hstands' : κ.Stands scope ρ (.iteration none :: rs) stk (h :: H) p spot S := hstands
  refine ((Setting.block_sim hbody hfew hblock hstands').attempt hland).imp ?_ fun _ _ h => h
  rintro (e | x) spot S' hspot
  · obtain ⟨spot', ⟨L', ⟨-, hlocals, -⟩, hL', hfit'⟩, rfl⟩ := hspot
    exact ⟨spot'.locals, Spot.stands, by rwa [hlocals], hfit'⟩
  · have hleft : κ.Left scope ρ (.iteration none :: rs) stk (h :: H) m₁ x spot S' := hspot
    unfold Setting.Left at hleft
    cases hx : x.isNormal with
    | true =>
      rw [if_pos hx] at hleft
      refine ⟨m₁, m₂, hend, by rw [if_pos hx], hleft, ?_⟩
      rintro v rfl
      cases hx
    | false =>
      rw [if_neg (by simp [hx])] at hleft
      obtain ⟨r, hleaving, hstands', hret⟩ := hleft
      obtain ⟨d', r', hexit, hrest⟩ := hleaving.cons
      obtain rfl : d' = stk.length := hexit.2.2.2.1
      exact ⟨r, r', hexit, by rw [if_neg (by simp [hx])]; exact hrest, hstands', hret⟩

/-- The body of a round whose value is registered, and the disposal behind it. -/
theorem roundBody_sim {slot : UInt16} {v : Value} {cs : List Capability} {m m' : Nat} {L : Array Value} {ip : Nat}
    (hbody : FollowsAll κ n body) (hfew : body.countP isUsing ≤ 2147483647)
    (hopen : κ.target.Line stk.length p [.loadLocal slot, .dup, .addDisposable hint.byte, .pop]
      stk.length q)
    (hblock : κ.target.Block scope body (.iteration (some (hint == .async)) :: rs)
      (fun rs d p q => LaidAll κ.target body rs scope d p q) stk.length q m)
    (hleave : κ.target.Leave scope (hint == .async) stk.length m m')
    (hL : Holds κ.target scope ρ L) (hv : L[slot.toNat]? = some v)
    (hscopes : S.scopes = .empty :: cs) (hfit : Fit rs cs) :
    Sim κ n (κ.session ⟨p, ip, stk, L, H⟩ S)
      ((do
        Eval.register v hint
        let x ← Eval.block κ.host κ.target.kind (body.any isUsing)
          (execAll κ.host κ.target.kind n body ρ)
        Eval.leave κ.host κ.target.kind
        return x : Eval σ Exit) S)
      (κ.Disposed scope ρ rs stk H [.popDisposeScope, .endTry] m')
      (κ.Throws scope ρ (.disposable (hint == .async) 0 :: rs) stk H) := by
  obtain ⟨r₁, hload, hopen⟩ := hopen.cut [.loadLocal slot, .dup]
  obtain ⟨r₂, hregister, hpop⟩ := hopen.cut [.addDisposable hint.byte]
  have hcalc : Registers.calcAll [.loadLocal slot, .dup] ⟨stk, L, S.rval⟩ =
      some ⟨v :: v :: stk, L, S.rval⟩ := by
    simp [hv]
  refine Sim.line hload rfl hcalc (Sim.bind ((Setting.register_sim hregister hscopes).imp
    (fun _ _ _ h => h) ?_) ?_)
  · rintro spot S' ⟨hover, hscopes'⟩
    refine ⟨L, hover.below (List.suffix_cons _ _), hL, ?_⟩
    rw [hscopes']
    exact hfit.cons_disposable (Keeps.empty (Nat.zero_le _))
  · rintro - spot S' ⟨⟨ip', rfl⟩, hregistered⟩
    have hfit' : Fit (.disposable (false || hint == .async) 0 :: rs) S'.scopes :=
      hfit.register (Keeps.empty (by simp)) hregistered
    have hcalc' : Registers.calcAll [.pop] ⟨v :: stk, L, S'.rval⟩ = some ⟨stk, L, S'.rval⟩ := rfl
    have hround : Sim κ n (κ.session ⟨q, ip', stk, L, H⟩ S')
        (Eval.block κ.host κ.target.kind (body.any isUsing)
          (execAll κ.host κ.target.kind n body ρ) S')
        (κ.Left scope ρ (.iteration (some (hint == .async)) :: rs) stk H m)
        (κ.Throws scope ρ (.iteration (some (hint == .async)) :: rs) stk H) :=
      Setting.block_sim hbody hfew hblock ⟨L, Spot.stands, hL, hfit'⟩
    refine Sim.line hpop rfl hcalc' (Sim.bind hround ?_)
    intro x spot S'' hleft
    unfold Setting.Left at hleft
    cases hx : x.isNormal with
    | true =>
      rw [if_pos hx] at hleft
      have hstands : κ.Stands scope ρ (.disposable (hint == .async) 0 :: rs) stk H m spot S'' := hleft
      refine Setting.dispose_sim hleave (by rw [if_pos hx]) hstands ?_ _
      rintro w rfl
      cases hx
    | false =>
      rw [if_neg (by simp [hx])] at hleft
      obtain ⟨p', hleaving, hstands', hret⟩ := hleft
      obtain ⟨d', q', ⟨r, hleave', hexit⟩, hrest⟩ := hleaving.cons
      obtain rfl : d' = stk.length := hexit.2.2.2.2.2.2.1
      have hstands : κ.Stands scope ρ (.disposable (hint == .async) 0 :: rs) stk H p' spot S'' :=
        hstands'
      exact Setting.dispose_sim hleave'
        (by rw [if_neg (by simp [hx])]; exact ⟨q', hexit, hrest⟩) hstands hret _

/-- A round whose value is registered in a scope of its own. -/
theorem scopedRound_sim {name : String} {slot : UInt16} {v : Value} {h : Handler} {c m m' m₃ : Nat}
    (hbody : FollowsAll κ n body) (hfew : body.countP isUsing ≤ 2147483647)
    (hopen : κ.target.OpenRound slot (some hint) stk.length p q)
    (hblock : κ.target.Block ((name, slot) :: scope) body (.iteration (some (hint == .async)) :: rs)
      (fun rs d p q => LaidAll κ.target body rs ((name, slot) :: scope) d p q) stk.length q m)
    (hleave : κ.target.LeaveRound ((name, slot) :: scope) (some hint) stk.length m m')
    (hend : κ.target.Line stk.length m' [.endTry] stk.length m₃)
    (hcatch : κ.target.LeaveRoundByThrow ((name, slot) :: scope) (some hint) stk.length c m₁)
    (hh : h = ⟨some c, none, stk.length⟩) (hroom : stk.length < κ.capacity)
    (hstands : κ.Stands ((name, slot) :: scope) ((name, v) :: ρ) rs stk (h :: H) p spot S) :
    Sim κ n (κ.session spot S)
      (Eval.attempt (Eval.roundInScope κ.host κ.target.kind v hint
        (Eval.block κ.host κ.target.kind (body.any isUsing)
          (execAll κ.host κ.target.kind n body ((name, v) :: ρ)))) S)
      (fun r spot S' => match r with
        | .ok x => RoundLeft κ ((name, slot) :: scope) ((name, v) :: ρ) rs stk (h :: H) m₃ x spot S'
        | .error e => κ.Stands ((name, slot) :: scope) ((name, v) :: ρ) rs (e :: stk) H m₁ spot S')
      fun _ _ => False := by
  obtain ⟨L, ⟨ip, rfl⟩, hL, hfit⟩ := hstands
  obtain ⟨r, hpush, hopen⟩ := Target.Line.cut [.pushDisposeScope] hopen.2
  obtain ⟨r', hleave, hclose⟩ := hleave
  obtain ⟨r'', ⟨s, hfresh, hpass⟩, hdrop⟩ := hcatch
  have hv : L[slot.toNat]? = some v := by
    cases hL.agree with
    | cons hhead _ => exact hhead.2
  have hland : ∀ spot e S', κ.Throws ((name, slot) :: scope) ((name, v) :: ρ)
      (.disposable (hint == .async) 0 :: rs) stk (h :: H) spot S' →
      κ.raise spot e S' = κ.session ⟨c, spot.ip, e :: stk, spot.locals, H⟩ S' := by
    rintro spot e S' ⟨L', ⟨⟨xs, hxs⟩, rfl, hH⟩, -, -⟩
    subst hh
    exact Setting.raise_catch hH hxs rfl hroom
  unfold Eval.roundInScope
  refine Sim.attempt_bind (Setting.openScope_sim hpush) ?_
  rintro - spot S₁ ⟨⟨ip₁, rfl⟩, hscopes₁⟩
  have hleft : Sim κ n (κ.session ⟨r, ip₁, stk, L, h :: H⟩ S₁) _
      (κ.Disposed _ _ rs stk (h :: H) [.popDisposeScope, .endTry] r') (κ.Throws _ _ _ stk (h :: H)) :=
    roundBody_sim hbody hfew hopen hblock hleave hL hv hscopes₁ hfit
  refine Sim.attempt_bind (hleft.attempt hland) ?_
  rintro (e | x) spot S₂ hspot
  · -- disposing does not throw, so the attempt ends behind the scope
    obtain ⟨spot', ⟨L', ⟨-, hlocals, -⟩, hL', hfit'⟩, rfl⟩ := hspot
    obtain ⟨cap, cs, hscopes, hc, hfit'⟩ := hfit'.of_disposable
    rw [← hlocals] at hL'
    have hnext : ∀ k, r'' = k + 1 → restoresRval κ.target.code k = true := by
      rintro k rfl
      exact restoresRval_of_pop hdrop.1
    obtain ⟨k, hpop, hclose'⟩ := hdrop.cut [.pop]
    have hpass' : κ.target.Pass s (hint == .async) (.ofPending (some e)) stk.length c r'' := hpass
    have hleft' : Sim κ n (κ.session ⟨c, spot'.ip, e :: stk, spot'.locals, H⟩ S₂)
        (Eval.leaveByThrow κ.host κ.target.kind e S₂)
        (fun e' spot S' => κ.Stands ((name, slot) :: scope) ((name, v) :: ρ) rs (e' :: stk) H m₁
          spot S') fun _ _ => False := by
      refine Sim.bind (Setting.pass_stands hfresh hpass' hL' hscopes hc hnext) ?_
      rintro pending spot S₃ ⟨hscopes₃, -, L'', ⟨ip₃, rfl⟩, hL''⟩
      have hcalc : Registers.calcAll [.pop]
          ⟨.bool pending.isSome :: pending.getD .undefined :: stk, L'', S₃.rval⟩ =
          some ⟨pending.getD .undefined :: stk, L'', S₃.rval⟩ := rfl
      refine Sim.line hpop rfl hcalc (Sim.bind (Setting.closeScope_sim hclose' hscopes₃) ?_)
      rintro - spot S₄ ⟨⟨ip₄, rfl⟩, hscopes₄, -⟩
      exact Sim.pure ⟨L'', Spot.stands, hL'', by rwa [hscopes₄]⟩
    refine Sim.attempt_bind hleft' ?_
    intro e' spot S₃ hstands
    exact ⟨0, _, .refl _, spot, rfl, hstands⟩
  · obtain ⟨p', hgoes, hret, L', cs, ⟨ip', rfl⟩, hL', hscopes, hfit'⟩ := hspot
    have hends : ∃ k k', κ.target.Line stk.length p' [.popDisposeScope] stk.length k ∧
        κ.target.Line stk.length k [.endTry] stk.length k' ∧
        (if x.isNormal then k' = m₃ else κ.target.LeavesFrom ((name, slot) :: scope) rs x stk.length k') := by
      cases hx : x.isNormal with
      | true =>
        rw [if_pos hx] at hgoes
        subst hgoes
        exact ⟨m', m₃, hclose, hend, by rw [if_pos rfl]⟩
      | false =>
        rw [if_neg (by simp [hx])] at hgoes
        obtain ⟨k', hexit, hleaving⟩ := hgoes
        obtain ⟨k, hclose', hend'⟩ := hexit.cut [.popDisposeScope]
        exact ⟨k, k', hclose', hend', by rwa [if_neg (by simp)]⟩
    obtain ⟨k, k', hclose', hend', hgoes'⟩ := hends
    refine Sim.attempt_bind (Setting.closeScope_sim hclose' hscopes) ?_
    rintro - spot S₃ ⟨hstands, hscopes₃, hrval⟩
    refine ⟨0, _, .refl _, spot, rfl, k, k', hend', hgoes', ⟨L', hstands, hL', by rwa [hscopes₃]⟩, ?_⟩
    intro w hw
    rw [hrval, hret w hw]

end

/-! ### Loops over items -/

section

variable {rs : List Shape} {scope : Scope} {ρ : Bindings} {stk : List Value} {H : List Handler}
  {head q past m₃ : Nat} {name : String} {slot : UInt16} {id : Nat}
  {round : Value → Eval σ Exit}

/-- What is thrown in a round is thrown again when the iterator is closed: the code that
does so stands behind a jump over it, or behind the end of a scope. -/
theorem throwsAgain_catch {t : Target} {rounds : Option Hint} {d m₄ : Nat}
    (hjump : t.Jump .always m₃ past)
    (hcatch : t.LeaveRoundByThrow scope rounds d (m₃ + 5) m₄)
    (hthrow : t.Line (d + 1) m₄ [.swap, .iterClose 1, .throw] (d - 1) past) :
    throwsAgain t.code (m₄ + 3) = true := by
  have hlines := hthrow
  obtain ⟨hswap, -, -, hclose, -, -, -, -, -, -, hover⟩ := hlines
  cases rounds with
  | none =>
    obtain rfl : m₄ = m₃ + 5 := hcatch
    obtain ⟨distance, hhas, htarget⟩ := hjump
    have hdistance : distance = 4 := by
      simp only [Exec.target] at htarget
      split at htarget
      · cases htarget
      · have htarget' := Except.ok.inj htarget
        have hover' : past = m₃ + 9 := hover
        apply Int32.toInt.inj
        rw [show (4 : Int32).toInt = 4 from rfl]
        omega
    subst hdistance
    have hnop : t.code.Has (m₃ + 3) .nop := by
      intro j hj
      obtain rfl : j = 0 := by
        simp [Instr.size_encode, Instr.size, Instr.opcode, Opcode.operandSize] at hj
        omega
      exact hhas.operand (k := 2) (by decide)
    exact throwsAgain_of_close hswap hclose hnop (by decide)
  | some hint =>
    obtain ⟨m, -, hpop⟩ := hcatch
    obtain ⟨hpop, -, -, -, -, -, -, hm₄⟩ := hpop
    have hm : m = m₄ - 2 := by
      have : m₄ = m + 2 := hm₄
      omega
    rw [hm] at hpop
    exact throwsAgain_of_close hswap hclose hpop (by decide)

/-- What holds where the item of a round is bound holds outside of the loop. -/
theorem stands_of_round {v : Value} {stk' : List Value} {H' : List Handler} {m : Nat} {L : Array Value}
    {spot : Spot} {S : CallState σ} (hL : Holds κ.target scope ρ L)
    (h : κ.Stands ((name, slot) :: scope) ((name, v) :: ρ) rs stk' H' m spot S) :
    κ.Stands scope ρ rs stk' H' m spot S := by
  obtain ⟨L', hspot, hL', hfit⟩ := h
  exact ⟨L', hspot, hL'.of_suffix (List.suffix_cons _ _) (List.suffix_cons _ _) hL, hfit⟩

/-- A round is left behind the end of its region. -/
theorem RoundLeft.end_try {h : Handler} {m : Nat} {x : Exit} {spot : Spot} {S : CallState σ}
    (hleft : RoundLeft κ scope ρ rs stk (h :: H) m x spot S) :
    ∃ spot', κ.Runs 1 (κ.session spot S) (κ.session spot' S) ∧ κ.Left scope ρ rs stk H m x spot' S := by
  obtain ⟨p, r, hend, hgoes, ⟨L, ⟨ip, rfl⟩, hL, hfit⟩, hret⟩ := hleft
  refine ⟨_, Setting.end_try hend, ?_⟩
  unfold Setting.Left
  cases hx : x.isNormal with
  | true =>
    rw [if_pos hx] at hgoes
    rw [if_pos rfl, ← hgoes]
    exact ⟨L, Spot.stands, hL, hfit⟩
  | false =>
    rw [if_neg (by simp [hx])] at hgoes
    rw [if_neg (by simp)]
    exact ⟨r, hgoes, ⟨L, Spot.stands, hL, hfit⟩, hret⟩

/-- What is thrown in a round closes the iterator, and is thrown again outside of the loop. -/
theorem closeThrown_sim {k m₄ : Nat} {e : Value} {spot : Spot} {S : CallState σ}
    {Q : Exit → Spot → CallState σ → Prop}
    (hthrow : κ.target.Line (stk.length + 2) m₄ [.swap, .iterClose 1, .throw] stk.length past)
    (hagain : throwsAgain κ.target.code (m₄ + 3) = true)
    (hstands : κ.Stands scope ρ rs (e :: .iterator id :: stk) H m₄ spot S) :
    Sim κ k (κ.session spot S) ((do let _ ← Eval.closeIterator id; Eval.raise e : Eval σ Exit) S) Q
      (κ.Throws scope ρ rs stk H) := by
  obtain ⟨L, ⟨ip, rfl⟩, hL, hfit⟩ := hstands
  obtain ⟨r₁, hswap, hthrow⟩ := hthrow.cut [.swap]
  obtain ⟨r₂, hclose, hthrow⟩ := hthrow.cut [.iterClose 1]
  obtain rfl : r₂ = m₄ + 3 := by
    obtain ⟨-, -, -, -, rfl⟩ := hswap.single
    obtain ⟨-, -, -, -, rfl⟩ := hclose.single
    rfl
  have hcalc : Registers.calcAll [.swap] ⟨e :: .iterator id :: stk, L, S.rval⟩ =
      some ⟨.iterator id :: e :: stk, L, S.rval⟩ := rfl
  refine Sim.line hswap rfl hcalc (Sim.bind ((Setting.closeIterator_sim
    (R := κ.Throws scope ρ rs stk H) hclose).quiet (Eval.closeIterator_quiet id) |>.imp
    (fun _ _ _ h => h) fun _ _ h => h.1) ?_)
  rintro - spot S₁ ⟨⟨ip₁, rfl⟩, hscopes₁⟩
  have hfit₁ : Fit rs S₁.scopes := by
    rw [hscopes₁]
    exact hfit
  have hrun : ∃ ip', κ.Runs 1 (κ.session ⟨m₄ + 3, ip₁, e :: stk, L, H⟩ S₁)
      (κ.raise ⟨past, ip', stk, L, H⟩ e S₁) := Setting.rethrow_line hthrow hagain
  obtain ⟨ip', hrun⟩ := hrun
  exact Sim.steps hrun (Sim.raise ⟨L, Spot.over_of_suffix (List.suffix_refl _), hL, hfit₁⟩)

/-- A loop that is left from a round closes the iterator. A `break` of the loop goes on
behind it; every other exit goes on leaving what is around the loop. -/
theorem leaveLoop_sim {k j j' : Nat} {x : Exit} {spot : Spot} {S : CallState σ}
    (hexit : κ.target.Line (stk.length + 1) j [.iterClose 0] stk.length j')
    (hrest : if x.breaks label then κ.target.Jump .always j' q
      else κ.target.LeavesFrom scope rs x stk.length j')
    (habrupt : x.isNormal = false) (hret : ∀ v, x = .ret v → S.rval = v)
    (hstands : κ.Stands scope ρ rs (.iterator id :: stk) H j spot S) :
    Sim κ k (κ.session spot S)
      ((do Eval.leaveIterator id; return x.leaveLoop label : Eval σ Exit) S)
      (κ.Left scope ρ rs stk H q) (κ.Throws scope ρ rs stk H) := by
  obtain ⟨L, ⟨ip, rfl⟩, hL, hfit⟩ := hstands
  refine Sim.bind (((Setting.leaveIterator_sim hexit).within
    (r := fun S T => SameScopes S T ∧ SameRval S T) ?_).imp (fun _ _ _ h => h) ?_) ?_
  · intro T
    exact ⟨(Eval.leaveIterator_quiet id T).same, Eval.leaveIterator_rval id T⟩
  · rintro spot S₁ ⟨hover, hscopes₁, -⟩
    refine ⟨L, hover, hL, ?_⟩
    rw [show S₁.scopes = S.scopes from hscopes₁]
    exact hfit
  · rintro - spot S₁ ⟨⟨ip₁, rfl⟩, hscopes₁, hrval₁⟩
    have hfit₁ : Fit rs S₁.scopes := by
      rw [show S₁.scopes = S.scopes from hscopes₁]
      exact hfit
    unfold Exit.leaveLoop
    by_cases hbreaks : x.breaks label = true
    · rw [if_pos hbreaks] at hrest ⊢
      exact Sim.steps (Setting.jump_always hrest)
        (Sim.pure (.of_normal ⟨L, Spot.stands, hL, hfit₁⟩ rfl))
    · rw [if_neg hbreaks] at hrest ⊢
      refine Sim.pure (.of_abrupt ⟨_, hrest, ⟨L, Spot.stands, hL, hfit₁⟩, fun w hw => ?_⟩ habrupt)
      rw [show S₁.rval = S.rval from hrval₁]
      exact hret w hw

/-- Behind a round, the next one starts, or the loop is left. -/
theorem afterRound_sim {k : Nat} {v : Value} {x : Exit} {L : Array Value} {spot : Spot} {S : CallState σ}
    (hL : Holds κ.target scope ρ L) (hskip : κ.target.Jump .always m₃ past)
    (hback : κ.target.Jump .always past head)
    (hnext : ∀ {spot : Spot} {S : CallState σ}, κ.Stands scope ρ rs (.iterator id :: stk) H head spot S →
      Sim κ k (κ.session spot S) (Eval.forLoop label id round k S)
        (κ.Left scope ρ rs stk H q) (κ.Throws scope ρ rs stk H))
    (hleft : κ.Left ((name, slot) :: scope) ((name, v) :: ρ) (.loop label true head q :: rs)
      (.iterator id :: stk) H m₃ x spot S) :
    Sim κ k (κ.session spot S)
      ((if x.continues label then Eval.forLoop label id round k
        else do Eval.leaveIterator id; return x.leaveLoop label : Eval σ Exit) S)
      (κ.Left scope ρ rs stk H q) (κ.Throws scope ρ rs stk H) := by
  rcases left_of_body hleft with ⟨rfl, hstands⟩ | ⟨-, hcontinues, j, hjump, hstands⟩ |
    ⟨hne, hcontinues, j, d', j', hexit, hrest, hstands, hret⟩
  · obtain ⟨L', ⟨ip', rfl⟩, hL', hfit'⟩ := stands_of_round hL hstands
    exact Sim.steps (Setting.jump_always hskip) (Sim.steps (Setting.jump_always hback)
      (hnext ⟨L', Spot.stands, hL', hfit'⟩))
  · obtain ⟨L', ⟨ip', rfl⟩, hL', hfit'⟩ := stands_of_round hL hstands
    rw [if_pos hcontinues]
    exact Sim.steps (Setting.jump_always hjump) (hnext ⟨L', Spot.stands, hL', hfit'⟩)
  · have habrupt : x.isNormal = false := by
      cases x <;> first | rfl | exact absurd rfl hne
    have hexit' : κ.target.Line (stk.length + 1) j [.iterClose 0] d' j' := hexit
    obtain rfl : d' = stk.length := hexit'.single.2.2.2.1
    rw [if_neg (by simp [hcontinues])]
    refine leaveLoop_sim hexit' ?_ habrupt hret (stands_of_round hL hstands)
    split
    · rwa [if_pos ‹_›] at hrest
    · rw [if_neg ‹_›] at hrest
      exact hrest.of_suffix (List.suffix_cons _ _)

variable (name) in
/-- Every round of a loop over items is followed, by at least one instruction. -/
theorem forLoop_sim {c m₄ : Nat} {h : Handler}
    (hnext : κ.target.Line (stk.length + 1) head [.iterNext] (stk.length + 3) (head + 1))
    (hdone : κ.target.Jump .ifTrue (head + 1) (past + 5))
    (hslot : κ.target.Fresh scope slot)
    (hstore : κ.target.Line (stk.length + 2) (head + 6) [.storeLocal slot] (stk.length + 1) (head + 9))
    (hprotect : κ.target.Protect (head + 9) (some c) none)
    (hh : h = ⟨some c, none, stk.length + 1⟩)
    (hskip : κ.target.Jump .always m₃ past) (hback : κ.target.Jump .always past head)
    (hthrow : κ.target.Line (stk.length + 2) m₄ [.swap, .iterClose 1, .throw] stk.length past)
    (hagain : throwsAgain κ.target.code (m₄ + 3) = true)
    (hdrop : κ.target.Line (stk.length + 2) (past + 5) [.popN 2] stk.length q)
    (hround : ∀ v spot S,
      κ.Stands ((name, slot) :: scope) ((name, v) :: ρ) (.loop label true head q :: rs)
        (.iterator id :: stk) (h :: H) (head + 18) spot S →
      Sim κ n (κ.session spot S) (Eval.attempt (round v) S)
        (fun r spot S' => match r with
          | .ok x => RoundLeft κ ((name, slot) :: scope) ((name, v) :: ρ)
              (.loop label true head q :: rs) (.iterator id :: stk) (h :: H) m₃ x spot S'
          | .error e => κ.Stands ((name, slot) :: scope) ((name, v) :: ρ)
              (.loop label true head q :: rs) (e :: .iterator id :: stk) H m₄ spot S')
        fun _ _ => False) :
    ∀ k ≤ n, ∀ {spot : Spot} {S : CallState σ},
      κ.Stands scope ρ rs (.iterator id :: stk) H head spot S →
      Sim κ k (κ.session spot S) (Eval.forLoop label id round k S)
        (κ.Left scope ρ rs stk H q) (κ.Throws scope ρ rs stk H) := by
  intro k
  induction k with
  | zero =>
    intro _ spot S _
    exact ⟨0, _, .refl _, Nat.le_refl 0, spot, rfl⟩
  | succ k ih =>
    rintro hk spot S ⟨L, ⟨ip, rfl⟩, hL, hfit⟩
    rw [Eval.forLoop]
    refine Sim.bind ((Setting.nextItem_sim (R := κ.Throws scope ρ rs stk H) hnext rfl).quiet
      (Eval.nextItem_quiet id) |>.imp (fun _ _ _ h => h) fun _ _ h => h.1) ?_
    rintro item spot S₁ ⟨⟨ip₁, rfl⟩, hscopes₁⟩
    rw [← hscopes₁] at hfit
    refine Sim.after (Setting.jump_if true rfl hdone) ?_
    cases item with
    | none =>
      have hcalc : Registers.calcAll [.popN 2] ⟨.undefined :: .iterator id :: stk, L, S₁.rval⟩ =
          some ⟨stk, L, S₁.rval⟩ := rfl
      exact Sim.line hdrop rfl hcalc (Sim.pure (.of_normal ⟨L, Spot.stands, hL, hfit⟩ rfl))
    | some v =>
      have hcalc : Registers.calcAll [.storeLocal slot] ⟨v :: .iterator id :: stk, L, S₁.rval⟩ =
          some ⟨.iterator id :: stk, L.setIfInBounds slot.toNat v, S₁.rval⟩ := by
        simp [hL.size, hslot.1]
      refine Sim.line hstore rfl hcalc (Sim.steps (Setting.try_start hprotect) ?_)
      have hstands : κ.Stands ((name, slot) :: scope) ((name, v) :: ρ) (.loop label true head q :: rs)
          (.iterator id :: stk) (h :: H) (head + 18)
          ⟨head + 18, ip₁, .iterator id :: stk, L.setIfInBounds slot.toNat v, h :: H⟩ S₁ :=
        ⟨_, Spot.stands, hL.bind hslot name v, hfit⟩
      rw [hh] at hstands hround
      refine Sim.bind (((hround v _ S₁ hstands).fuel (by omega : k ≤ n)).imp (fun _ _ _ h => h)
        fun _ _ h => h.elim) ?_
      rintro (e | x) spot S₂ hspot
      · exact closeThrown_sim hthrow hagain (stands_of_round hL hspot)
      · obtain ⟨spot', hrun, hleft⟩ := hspot.end_try
        exact Sim.steps hrun (afterRound_sim hL hskip hback (ih (by omega)) hleft)

theorem follows_forOf {rounds : Option Hint} (hbody : FollowsAll κ n body)
    (hfew : body.countP isUsing ≤ 2147483647) : (forOf label name rounds e body).Follows κ n := by
  intro rs scope scope' ρ stk H p q spot S hlaid hstands
  obtain ⟨m₀, head, slot, r, m₁, m₂, m₃, m₄, past, he, hiter, hnext, hdone, hslot, hstore, hprotect,
    hopen, hblock, hleave, hend, hskip, hcatch, hthrow, hback, hdrop, rfl⟩ := hlaid
  have hroom : stk.length + 1 < κ.capacity := by
    have hmax : stk.length + 3 ≤ κ.target.maxStack := hnext.single.2.2.1
    have := κ.maxStack_le
    omega
  rw [exec]
  refine Sim.bind (Setting.eval_stands he hstands) ?_
  rintro v spot S₁ ⟨L, ⟨ip, rfl⟩, hL, hfit⟩
  refine Sim.bind ((Setting.iterate_sim hiter rfl).quiet (Eval.iterate_quiet v) |>.imp
    (fun _ _ _ h => h) ?_) ?_
  · rintro spot S₂ ⟨hover, hscopes⟩
    exact ⟨L, hover, hL, by rwa [hscopes]⟩
  · rintro id spot S₂ ⟨⟨ip₂, rfl⟩, hscopes⟩
    have hstands₂ : κ.Stands scope' ρ rs (.iterator id :: stk) H head
        ⟨head, ip₂, .iterator id :: stk, L, H⟩ S₂ := ⟨L, Spot.stands, hL, by rwa [hscopes]⟩
    refine Sim.bind (forLoop_sim name hnext hdone hslot hstore hprotect rfl hskip hback
      hthrow (throwsAgain_catch hskip hcatch hthrow) hdrop ?_ n (Nat.le_refl n) hstands₂) ?_
    · intro v spot S hstands
      cases rounds with
      | none =>
        obtain rfl : r = head + 18 := hopen
        obtain rfl : m₂ = m₁ := hleave
        obtain rfl : m₄ = m₃ + 5 := hcatch
        exact plainRound_sim hbody hfew hblock hend rfl hroom hstands
      | some hint => exact scopedRound_sim hbody hfew hopen hblock hleave hend hcatch rfl hroom hstands
    · intro x spot S' hleft
      exact Sim.pure hleft.passed

end

/-! ### Handlers -/

/-- What a handler handles is bound to its parameter, or dropped. -/
theorem bindParam_sim {α : Type} {scope scope' : Scope} {ρ : Bindings} {rs : List Shape}
    {stk : List Value} {H : List Handler} {L : Array Value} {m m' ip : Nat} {v : Value}
    {S : CallState σ} {param : Option String} {x : EStateM.Result Interrupt (CallState σ) α}
    {Q : α → Spot → CallState σ → Prop} {R : Spot → CallState σ → Prop}
    (hbind : κ.target.BindParam scope param stk.length m scope' m') (hL : Holds κ.target scope ρ L)
    (hfit : Fit rs S.scopes)
    (hrest : ∀ spot, κ.Stands scope' (ρ.caught param v) rs stk H m' spot S →
      Sim κ n (κ.session spot S) x Q R) :
    Sim κ n (κ.session ⟨m, ip, v :: stk, L, H⟩ S) x Q R := by
  cases param with
  | none =>
    obtain ⟨hpop, rfl⟩ := hbind
    have hcalc : Registers.calcAll [.pop] ⟨v :: stk, L, S.rval⟩ = some ⟨stk, L, S.rval⟩ := rfl
    exact Sim.line hpop rfl hcalc (hrest _ ⟨L, Spot.stands, hL, hfit⟩)
  | some name =>
    obtain ⟨slot, hslot, hstore, rfl⟩ := hbind
    have hcalc : Registers.calcAll [.storeLocal slot] ⟨v :: stk, L, S.rval⟩ =
        some ⟨stk, L.setIfInBounds slot.toNat v, S.rval⟩ := by
      simp [hL.size, hslot.1]
    exact Sim.line hstore rfl hcalc (hrest _ ⟨_, Spot.stands, hL.bind hslot name v, hfit⟩)

theorem suffix_of_bindParam {t : Target} {scope scope' : Scope} {param : Option String}
    {d m m' : Nat} (h : t.BindParam scope param d m scope' m') : scope <:+ scope' := by
  cases param with
  | none => exact h.2 ▸ List.suffix_refl _
  | some name =>
    obtain ⟨slot, -, -, rfl⟩ := h
    exact List.suffix_cons _ _

theorem suffix_caught (ρ : Bindings) (param : Option String) (v : Value) : ρ <:+ ρ.caught param v := by
  cases param with
  | none => exact List.suffix_refl _
  | some name => exact List.suffix_cons _ _

theorem follows_tryCatch {param : Option String} {handler : List Stmt} (hbody : FollowsAll κ n body)
    (hhandler : FollowsAll κ n handler) (hbodyFew : body.countP isUsing ≤ 2147483647)
    (hhandlerFew : handler.countP isUsing ≤ 2147483647) :
    (tryCatch body param handler).Follows κ n := by
  intro rs scope scope' ρ stk H p q spot S hlaid hstands
  obtain ⟨m₁, m₂, m₃, m₄, scope₁, hprotect, hblock, hend, hskip, hmax, hrethrow, hbind,
    hblock', rfl⟩ := hlaid
  obtain ⟨L, ⟨ip, rfl⟩, hL, hfit⟩ := hstands
  let h : Handler := ⟨some (m₂ + 5), none, stk.length⟩
  have hroom : stk.length < κ.capacity := by
    have := κ.maxStack_le
    omega
  have hland : ∀ spot e S', κ.Throws scope' ρ (.tryCatch :: rs) stk (h :: H) spot S' →
      κ.raise spot e S' = κ.session ⟨m₂ + 5, spot.ip, e :: stk, spot.locals, H⟩ S' := by
    rintro spot e S' ⟨L', ⟨⟨xs, hxs⟩, rfl, hH⟩, -, -⟩
    exact Setting.raise_catch hH hxs rfl hroom
  have htry : κ.Stands scope' ρ (.tryCatch :: rs) stk (h :: H) (p + 9) ⟨p + 9, ip, stk, L, h :: H⟩ S :=
    ⟨L, Spot.stands, hL, hfit⟩
  rw [exec]
  refine Sim.steps (Setting.try_start hprotect)
    (Sim.bind ((Setting.block_sim hbody hbodyFew hblock htry).attempt hland) ?_)
  rintro (e | x) spot S₁ hspot
  · obtain ⟨spot', ⟨L', ⟨-, hlocals, -⟩, hL', hfit'⟩, rfl⟩ := hspot
    rw [← hlocals] at hL'
    let handle : Eval σ (Exit × Bindings) := do
      let x ← Eval.block κ.host κ.target.kind (handler.any isUsing)
        (execAll κ.host κ.target.kind n handler (ρ.caught param e))
      return (x, ρ)
    have hhandle : ∀ spot, κ.Stands scope₁ (ρ.caught param e) rs stk H m₄ spot S₁ →
        Sim κ n (κ.session spot S₁) (handle S₁)
          (κ.Passed scope' ρ rs stk H scope' rs q) (κ.Throws scope' ρ rs stk H) := by
      intro spot hstands
      have hsuffix := suffix_of_bindParam hbind
      refine Sim.bind ((Setting.block_sim hhandler hhandlerFew hblock' hstands).imp
        (fun _ _ _ h => h) ?_) ?_
      · intro spot S' hthrows
        exact hthrows.of_suffix hsuffix (suffix_caught ρ param e) hL
      · intro x spot S' hleft
        exact Sim.pure (hleft.of_suffix hsuffix (suffix_caught ρ param e) hL).passed
    show Sim κ n _ ((if (κ.target.kind.isGenerator && e.isClosing) = true then Eval.raise e
      else handle) S₁) _ _
    cases hkind : κ.target.kind.isGenerator with
    | false =>
      rw [if_neg (by simp [hkind])] at hrethrow
      subst hrethrow
      rw [if_neg (by simp)]
      exact bindParam_sim hbind hL' hfit' hhandle
    | true =>
      rw [if_pos hkind] at hrethrow
      obtain ⟨k, hdup, hjump, hthrow⟩ := hrethrow
      have hcalc : Registers.calcAll [.dup, .isClosing] ⟨e :: stk, spot'.locals, S₁.rval⟩ =
          some ⟨.bool e.isClosing :: e :: stk, spot'.locals, S₁.rval⟩ := by
        cases e <;> rfl
      refine Sim.line hdup rfl hcalc (Sim.steps (Setting.jump_if false rfl hjump) ?_)
      cases hclosing : e.isClosing with
      | false =>
        simp only [Bool.and_false, Bool.false_eq_true, ↓reduceIte]
        exact bindParam_sim hbind hL' hfit' hhandle
      | true =>
        simp only [Bool.and_true, ↓reduceIte]
        have hagain : throwsAgain κ.target.code (k + 5) = true := by
          obtain ⟨-, -, -, -, rfl⟩ := hthrow.single
          exact throwsAgain_of_jump hjump.over_one
        have hrun : ∃ ip', κ.Runs 1 (κ.session ⟨k + 5, spot'.ip, e :: stk, spot'.locals, H⟩ S₁)
            (κ.raise ⟨m₃, ip', stk, spot'.locals, H⟩ e S₁) := Setting.rethrow_line hthrow hagain
        obtain ⟨ip', hrun⟩ := hrun
        exact Sim.steps hrun (Sim.raise ⟨_, Spot.over_of_suffix (List.suffix_refl _), hL', hfit'⟩)
  · have hleft : κ.Left scope' ρ (.tryCatch :: rs) stk (h :: H) m₁ x spot S₁ := hspot
    unfold Setting.Left at hleft
    cases hx : x.isNormal with
    | true =>
      rw [if_pos hx] at hleft
      obtain ⟨L', ⟨ip', rfl⟩, hL', hfit'⟩ := hleft
      exact Sim.steps (Setting.end_try hend) (Sim.steps (Setting.jump_always hskip)
        (Sim.pure (Setting.Left.passed (.of_normal ⟨L', Spot.stands, hL', hfit'⟩ hx))))
    | false =>
      rw [if_neg (by simp [hx])] at hleft
      obtain ⟨r, hleaving, ⟨L', ⟨ip', rfl⟩, hL', hfit'⟩, hret⟩ := hleft
      obtain ⟨d', r', hexit, hrest⟩ := hleaving.cons
      have hexit' : κ.target.Line stk.length r [.endTry] d' r' := hexit
      obtain rfl : d' = stk.length := hexit'.single.2.2.2.1
      exact Sim.steps (Setting.end_try hexit') (Sim.pure (Setting.Left.passed
        (.of_abrupt ⟨r', hrest, ⟨L', Spot.stands, hL', hfit'⟩, hret⟩ hx)))

/-! ### All statements -/

/-- Behind a statement that is left, nothing is executed. -/
theorem followsAll_nil : FollowsAll κ n [] := by
  intro rs scope ρ stk H p q spot S hlaid hstands
  obtain rfl : q = p := hlaid
  rw [execAll]
  exact Sim.pure ⟨[], List.prefix_refl _, fun _ => rfl, .of_normal hstands rfl⟩

theorem followsAll_cons {s : Stmt} {ss : List Stmt} (hs : s.Follows κ n) (hss : FollowsAll κ n ss) :
    FollowsAll κ n (s :: ss) := by
  intro rs scope ρ stk H p q spot S hlaid hstands
  obtain ⟨scope', m, hlaid, hlaid'⟩ := hlaid
  have hL : ∃ L, Holds κ.target scope ρ L := hstands.imp fun _ h => h.2.1
  obtain ⟨L, hL⟩ := hL
  rw [execAll]
  refine Sim.bind ((hs hlaid hstands).imp (fun _ _ _ h => h) ?_) ?_
  · rintro spot S' ⟨L', hover, hL', hfit'⟩
    exact ⟨L', hover, hL', hfit'.afterAll (s :: ss)⟩
  · rintro ⟨x, ρ'⟩ spot S' hpassed
    unfold Setting.Passed at hpassed
    cases hx : x.isNormal with
    | false =>
      rw [if_neg (by simp [hx])] at hpassed
      simp only [hx, Bool.false_eq_true, ↓reduceIte]
      refine Sim.pure ⟨[], List.nil_prefix, fun h => ?_, .of_abrupt hpassed hx⟩
      rw [hx] at h
      cases h
    | true =>
      rw [if_pos hx] at hpassed
      obtain ⟨hρ, hstands'⟩ := hpassed
      simp only [hx, ↓reduceIte]
      refine (hss hlaid' hstands').imp ?_ ?_
      · rintro y spot S'' ⟨done, hdone, hnormal, hleft⟩
        refine ⟨s :: done, List.cons_prefix_cons.mpr ⟨rfl, hdone⟩, fun hy => ?_, ?_⟩
        · rw [hnormal hy]
        · exact hleft.of_suffix hlaid.suffix hρ hL
      · intro spot S'' hthrows
        exact hthrows.of_suffix hlaid.suffix hρ hL

mutual

/-- The code of a statement follows its execution, if it has no more nodes than can be
counted. -/
theorem follows : ∀ s : Stmt, s.nodes ≤ 2147483647 → s.Follows κ n
  | .expr _, _ => follows_expr
  | .letIn _ _, _ => follows_letIn
  | .usingIn _ _ _, _ => follows_usingIn
  | .block body, h => by
    rw [nodes] at h
    have hbody : nodesAll body ≤ 2147483647 := by omega
    exact follows_block (followsAll body hbody) (few_of_nodes hbody)
  | .ifElse _ yes no, h => by
    rw [nodes] at h
    have hyes : nodesAll yes ≤ 2147483647 := by omega
    have hno : nodesAll no ≤ 2147483647 := by omega
    exact follows_ifElse (followsAll yes hyes) (followsAll no hno) (few_of_nodes hyes)
      (few_of_nodes hno)
  | .whileLoop _ _ body, h => by
    rw [nodes] at h
    have hbody : nodesAll body ≤ 2147483647 := by omega
    exact follows_whileLoop (followsAll body hbody) (few_of_nodes hbody)
  | .forOf _ _ _ _ body, h => by
    rw [nodes] at h
    have hbody : nodesAll body ≤ 2147483647 := by omega
    exact follows_forOf (followsAll body hbody) (few_of_nodes hbody)
  | .tryCatch body _ handler, h => by
    rw [nodes] at h
    have hbody : nodesAll body ≤ 2147483647 := by omega
    have hhandler : nodesAll handler ≤ 2147483647 := by omega
    exact follows_tryCatch (followsAll body hbody) (followsAll handler hhandler)
      (few_of_nodes hbody) (few_of_nodes hhandler)
  | .throw _, _ => follows_throw
  | .ret _, _ => follows_ret
  | .breakLoop _, _ => follows_breakLoop
  | .continueLoop _, _ => follows_continueLoop

/-- The code of statements follows their execution. -/
theorem followsAll : ∀ ss : List Stmt, nodesAll ss ≤ 2147483647 → FollowsAll κ n ss
  | [], _ => followsAll_nil
  | s :: ss, h => by
    rw [nodesAll] at h
    exact followsAll_cons (follows s (by omega)) (followsAll ss (by omega))

end

end Stmt
end ResourceMachine
