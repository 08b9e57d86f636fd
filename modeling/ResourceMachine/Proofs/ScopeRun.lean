/-
# Running a scope

A block that declares resources runs its body under a handler. Whichever way the
body is left, a pass disposes: in the straight way behind the body, where
execution goes on with a second pass over what is empty by then; on the way that
leaves the regions around the block; or in the handler, where what was thrown is
thrown again or what became of it.

Key theorems: `Setting.leave_sim`, `Setting.handler_sim`, `Setting.block_sim`.
-/
import ResourceMachine.Proofs.Standing

namespace ResourceMachine
namespace Setting

variable {σ : Type} {κ : Setting σ} {n p q d ip : Nat} {scope : Scope} {ρ : Bindings}
  {rs : List Shape} {stk : List Value} {H : List Handler} {L : Array Value} {S : CallState σ}
  {c : Capability} {cs : List Capability} {awaits : Bool} {room : Nat} {spot : Spot}
  {R : Spot → CallState σ → Prop}

/-! ### Passes -/

/-- A pass leaves what is pending above the operands. -/
theorem pass_stands {pending : Option Value} {s : PassSlots} (hfresh : κ.target.FreshSlots scope s)
    (hlaid : κ.target.Pass s awaits (.ofPending pending) stk.length p q)
    (hL : Holds κ.target scope ρ L) (hscopes : S.scopes = c :: cs) (hc : Keeps (awaits, room) c)
    (hnext : ∀ r, q = r + 1 → restoresRval κ.target.code r = true) :
    Sim κ n (κ.session ⟨p, ip, pending.toList ++ stk, L, H⟩ S)
      (Eval.pass κ.host κ.target.kind pending S)
      (fun pending' spot S' => S'.scopes = .empty :: cs ∧ S'.rval = S.rval ∧
        ∃ L', spot.Stands q (.bool pending'.isSome :: pending'.getD .undefined :: stk) L' H ∧
          Holds κ.target scope ρ L') R := by
  obtain ⟨base, hs, hbase, hfree⟩ := hfresh
  have hsize : base + 8 ≤ L.size := by rw [hL.size]; exact hbase
  refine (pass_sim (R := R) hs hsize hlaid rfl hscopes hc.few' hc.covered hnext).remember.imp ?_
    (fun _ _ h => h.1)
  rintro pending' spot S' ⟨⟨hscopes', vs, hvs, hstands⟩, heq⟩
  exact ⟨hscopes', Eval.pass_rval heq, _, hstands, hL.overwrite hbase hvs hfree⟩

/-- What is pending is thrown. -/
theorem throw_pending_sim {α : Type} {v : Value} {Q : α → Spot → CallState σ → Prop}
    (hlaid : κ.target.ThrowIfException stk.length p q) :
    Sim κ n (κ.session ⟨p, ip, .bool true :: v :: stk, L, H⟩ S) ((Eval.raise v : Eval σ α) S) Q
      (fun spot S' => spot.Over stk L H ∧ S' = S) := by
  have hagain := hlaid.throwsAgain
  obtain ⟨hjump, hthrow, -⟩ := hlaid
  refine Sim.steps (jump_if false rfl hjump) ?_
  obtain ⟨ip', hrun⟩ := rethrow_line (S := S) (H := H) (L := L) (e := v) hthrow hagain
  exact Sim.steps hrun (Sim.raise ⟨Spot.over_of_suffix (List.suffix_refl _), rfl⟩)

/-- Where nothing is pending, code goes on. -/
theorem skip_pending_sim {α : Type} {v : Value} {x : EStateM.Result Interrupt (CallState σ) α}
    {Q : α → Spot → CallState σ → Prop} (hlaid : κ.target.ThrowIfException stk.length p q)
    (h : Sim κ n (κ.session ⟨q, ip, stk, L, H⟩ S) x Q R) :
    Sim κ n (κ.session ⟨p, ip, .bool false :: v :: stk, L, H⟩ S) x Q R := by
  obtain ⟨hjump, -, hpop⟩ := hlaid
  have hcalc : Registers.calcAll [.pop] ⟨v :: stk, L, S.rval⟩ = some ⟨stk, L, S.rval⟩ := rfl
  exact Sim.steps (jump_if false rfl hjump) (Sim.line hpop rfl hcalc h)

/-- Disposing on a way out that no exception caused. -/
theorem leave_sim (hlaid : κ.target.Leave scope awaits stk.length p q)
    (hL : Holds κ.target scope ρ L) (hscopes : S.scopes = c :: cs) (hc : Keeps (awaits, room) c) :
    Sim κ n (κ.session ⟨p, ip, stk, L, H⟩ S) (Eval.leave κ.host κ.target.kind S)
      (fun _ spot S' => S'.scopes = .empty :: cs ∧ S'.rval = S.rval ∧
        ∃ L', spot.Stands q stk L' H ∧ Holds κ.target scope ρ L')
      (fun spot S' => S'.scopes = .empty :: cs ∧
        ∃ L', spot.Over stk L' H ∧ Holds κ.target scope ρ L') := by
  obtain ⟨s, m, hfresh, hpass, hthrow⟩ := hlaid
  have hpass' : κ.target.Pass s awaits (.ofPending none) stk.length p m := hpass
  have hnext : ∀ r, m = r + 1 → restoresRval κ.target.code r = true := by
    rintro r rfl
    exact restoresRval_of_jump hthrow.1.over_one
  refine Sim.bind (pass_stands hfresh hpass' hL hscopes hc hnext) ?_
  rintro pending spot S' ⟨hscopes', hrval, L', ⟨ip', rfl⟩, hL'⟩
  cases pending with
  | none => exact skip_pending_sim hthrow (Sim.pure ⟨hscopes', hrval, L', Spot.stands, hL'⟩)
  | some e =>
    refine (throw_pending_sim hthrow).imp (fun _ _ _ h => h) ?_
    rintro spot S'' ⟨hover, rfl⟩
    exact ⟨hscopes', L', hover, hL'⟩

/-- The handler of a block disposes with what it was given pending, above a flag
that says whether that was thrown, and closes the scope. -/
theorem handler_sim {b : Bool} {v : Value} {d' m : Nat} {s : PassSlots}
    (hswap : κ.target.Line (stk.length + 2) p [.swap] (stk.length + 2) (p + 1))
    (hfresh : κ.target.FreshSlots scope s)
    (hpass : κ.target.Pass s awaits .thrown (stk.length + 1) (p + 1) m)
    (hpop : κ.target.Line (stk.length + 3) m [.pop, .swap, .popDisposeScope] d' q)
    (hL : Holds κ.target scope ρ L) (hscopes : S.scopes = c :: cs) (hc : Keeps (awaits, room) c) :
    Sim κ n (κ.session ⟨p, ip, .bool b :: v :: stk, L, H⟩ S)
      ((do
        let pending ← Eval.pass κ.host κ.target.kind (some v)
        Eval.closeScope
        return pending.getD .undefined : Eval σ Value) S)
      (fun e spot S' => S'.scopes = cs ∧ S'.rval = S.rval ∧
        ∃ L', spot.Stands q (.bool b :: e :: stk) L' H ∧ Holds κ.target scope ρ L') R := by
  have hpass' : κ.target.Pass s awaits (.ofPending (some v)) (Value.bool b :: stk).length (p + 1) m :=
    hpass
  have hnext : ∀ r, m = r + 1 → restoresRval κ.target.code r = true := by
    rintro r rfl
    exact restoresRval_of_pop hpop.1
  obtain ⟨m', hpop, hclose⟩ := hpop.cut [.pop, .swap]
  have hcalc : Registers.calcAll [.swap] ⟨.bool b :: v :: stk, L, S.rval⟩ =
      some ⟨v :: .bool b :: stk, L, S.rval⟩ := rfl
  refine Sim.line hswap rfl hcalc (Sim.bind (pass_stands hfresh hpass' hL hscopes hc hnext) ?_)
  rintro pending spot S₁ ⟨hscopes₁, hrval, L', ⟨ip', rfl⟩, hL'⟩
  have hcalc' : Registers.calcAll [.pop, .swap]
      ⟨.bool pending.isSome :: pending.getD .undefined :: .bool b :: stk, L', S₁.rval⟩ =
      some ⟨.bool b :: pending.getD .undefined :: stk, L', S₁.rval⟩ := rfl
  refine Sim.line hpop rfl hcalc' (Sim.bind (closeScope_sim hclose hscopes₁) ?_)
  rintro - spot S₂ ⟨⟨ip₂, rfl⟩, hscopes₂, hrval₂⟩
  exact Sim.pure ⟨hscopes₂, hrval₂.trans hrval, L', Spot.stands, hL'⟩

/-! ### Blocks -/

/-- The innermost scope was disposed. Code goes on at `m` behind the normal end of the
body; otherwise the instructions follow that take it off, and then the code that leaves the
regions around it. -/
def Disposed (κ : Setting σ) (scope : Scope) (ρ : Bindings) (rs : List Shape) (stk : List Value)
    (H : List Handler) (exits : List Instr) (m : Nat) (x : Exit) (spot : Spot) (S : CallState σ) :
    Prop :=
  ∃ p, (if x.isNormal then p = m
      else ∃ q, κ.target.Line stk.length p exits stk.length q ∧
        κ.target.LeavesFrom scope rs x stk.length q) ∧
    (∀ v, x = .ret v → S.rval = v) ∧
    ∃ L cs, spot.Stands p stk L H ∧ Holds κ.target scope ρ L ∧ S.scopes = .empty :: cs ∧ Fit rs cs

/-- The innermost scope is disposed behind its body. -/
theorem dispose_sim {exits : List Instr} {m m' : Nat} {x : Exit}
    (hlaid : κ.target.Leave scope awaits stk.length p m')
    (hrest : if x.isNormal then m' = m
      else ∃ q, κ.target.Line stk.length m' exits stk.length q ∧
        κ.target.LeavesFrom scope rs x stk.length q)
    (h : κ.Stands scope ρ (.disposable awaits room :: rs) stk H p spot S)
    (hret : ∀ v, x = .ret v → S.rval = v) (awaits' : Bool) :
    Sim κ n (κ.session spot S)
      ((do
        Eval.leave κ.host κ.target.kind
        return x : Eval σ Exit) S)
      (κ.Disposed scope ρ rs stk H exits m) (κ.Throws scope ρ (.disposable awaits' 0 :: rs) stk H) := by
  obtain ⟨L, ⟨ip, rfl⟩, hL, hfit⟩ := h
  obtain ⟨c, cs, hscopes, hc, hfit⟩ := hfit.of_disposable
  refine Sim.bind ((leave_sim hlaid hL hscopes hc).imp (fun _ _ _ h => h) ?_) ?_
  · rintro spot S' ⟨hscopes', L', hover, hL'⟩
    refine ⟨L', hover, hL', ?_⟩
    rw [hscopes']
    exact hfit.cons_disposable (Keeps.empty (Nat.zero_le _))
  · rintro - spot S' ⟨hscopes', hrval, L', hstands, hL'⟩
    exact Sim.pure ⟨m', hrest, fun v hv => hrval.trans (hret v hv), L', cs, hstands, hL', hscopes',
      hfit⟩

/-- The body of a block and the disposal behind it. -/
theorem body_sim {ss : List Stmt} {h : Handler} {m m' : Nat} (hss : Stmt.FollowsAll κ n ss)
    (hlaid : Stmt.LaidAll κ.target ss (.disposable false (ss.countP Stmt.isUsing) :: rs) scope
      stk.length p m)
    (hleave : κ.target.Leave scope (ss.any Stmt.isAwaitUsing) stk.length m m')
    (hstands : κ.Stands scope ρ (.disposable false (ss.countP Stmt.isUsing) :: rs) stk (h :: H) p
      spot S) :
    Sim κ n (κ.session spot S)
      ((do
        let x ← Stmt.execAll κ.host κ.target.kind n ss ρ
        Eval.leave κ.host κ.target.kind
        return x : Eval σ Exit) S)
      (κ.Disposed scope ρ rs stk (h :: H) [.endTry, .popDisposeScope] m')
      (κ.Throws scope ρ (.disposable (ss.any Stmt.isAwaitUsing) 0 :: rs) stk (h :: H)) := by
  refine Sim.bind ((hss hlaid hstands).imp (fun _ _ _ h => h) ?_) ?_
  · rintro spot S' ⟨L, hover, hL, hfit⟩
    rw [Stmt.afterAll_disposable, Bool.false_or] at hfit
    obtain ⟨c, cs, hscopes, hc, hfit⟩ := hfit.of_disposable
    refine ⟨L, hover, hL, ?_⟩
    rw [hscopes]
    exact hfit.cons_disposable hc.crowded
  · rintro x spot S' ⟨done, -, hnormal, hleft⟩
    rw [Stmt.afterAll_disposable, Bool.false_or] at hleft
    unfold Left at hleft
    cases hx : x.isNormal with
    | true =>
      obtain rfl := hnormal hx
      rw [if_pos hx] at hleft
      refine dispose_sim hleave (by rw [if_pos hx]) hleft (fun v hv => ?_) _
      rw [hv] at hx
      cases hx
    | false =>
      rw [if_neg (by simp [hx])] at hleft
      obtain ⟨p', hleaving, hstands', hret⟩ := hleft
      obtain ⟨d', q', ⟨m₁, hleave', hexit⟩, hrest⟩ := hleaving.cons
      obtain rfl : d' = stk.length := hexit.2.2.2.2.2.2.1
      exact dispose_sim hleave' (by rw [if_neg (by simp [hx])]; exact ⟨q', hexit, hrest⟩) hstands'
        hret _

/-- The code of a block follows the block. -/
theorem block_sim {ss : List Stmt} (hss : Stmt.FollowsAll κ n ss)
    (hfew : ss.countP Stmt.isUsing ≤ 2147483647)
    (hlaid : κ.target.Block scope ss rs
      (fun rs d p q => Stmt.LaidAll κ.target ss rs scope d p q) stk.length p q)
    (hstands : κ.Stands scope ρ rs stk H p spot S) :
    Sim κ n (κ.session spot S)
      (Eval.block κ.host κ.target.kind (ss.any Stmt.isUsing)
        (Stmt.execAll κ.host κ.target.kind n ss ρ) S)
      (κ.Left scope ρ rs stk H q) (κ.Throws scope ρ rs stk H) := by
  unfold Target.Block at hlaid
  unfold Eval.block
  cases hany : ss.any Stmt.isUsing with
  | false =>
    rw [if_neg (by simp [hany])] at hlaid
    refine (hss hlaid hstands).imp ?_ ?_
    · rintro x spot S' ⟨done, hdone, -, hleft⟩
      have hdone' : done.any Stmt.isUsing = false := by
        rw [List.any_eq_false] at hany ⊢
        exact fun s hs => hany s (hdone.subset hs)
      rwa [Stmt.afterAll_of_not_using hdone'] at hleft
    · rintro spot S' h
      rwa [Stmt.afterAll_of_not_using hany] at h
  | true =>
    rw [if_pos hany] at hlaid
    obtain ⟨m₁, m₂, f, m₃, m₄, hpush, hprotect, hbody, hleave, hend, hswap, ⟨s, hfresh, hpass⟩, hpop,
      hraise⟩ := hlaid
    obtain ⟨L, ⟨ip, rfl⟩, hL, hfit⟩ := hstands
    have hroom : stk.length + 1 < κ.capacity := by
      have hmax : stk.length + 2 ≤ κ.target.maxStack := hend.2.2.2.2.2.2.2.2.1
      have := κ.maxStack_le
      omega
    simp only [↓reduceIte, Eval.inScope]
    refine Sim.bind (openScope_sim hpush) ?_
    rintro - spot S₁ ⟨⟨ip₁, rfl⟩, hscopes₁⟩
    refine Sim.steps (try_start hprotect) ?_
    let h : Handler := ⟨none, some f, stk.length⟩
    have hstands₁ : κ.Stands scope ρ (.disposable false (ss.countP Stmt.isUsing) :: rs) stk (h :: H)
        (p + 10) ⟨p + 10, ip₁, stk, L, h :: H⟩ S₁ := by
      refine ⟨L, Spot.stands, hL, ?_⟩
      rw [hscopes₁]
      exact hfit.cons_disposable (Keeps.empty hfew)
    have hland : ∀ spot e S',
        κ.Throws scope ρ (.disposable (ss.any Stmt.isAwaitUsing) 0 :: rs) stk (h :: H) spot S' →
        κ.raise spot e S' = κ.session ⟨f, spot.ip, .bool true :: e :: stk, spot.locals, H⟩ S' := by
      rintro spot e S' ⟨L', ⟨⟨xs, hxs⟩, rfl, hH⟩, -, -⟩
      exact raise_finally hH hxs rfl hroom
    refine Sim.bind ((body_sim hss hbody hleave hstands₁).attempt hland) ?_
    rintro (e | x) spot S₂ hspot
    · obtain ⟨spot', ⟨L', ⟨-, hlocals, -⟩, hL', hfit'⟩, rfl⟩ := hspot
      obtain ⟨c, cs, hscopes, hc, hfit'⟩ := hfit'.of_disposable
      rw [← hlocals] at hL'
      refine Sim.bind (handler_sim hswap hfresh hpass hpop hL' hscopes hc) ?_
      rintro e' spot S₃ ⟨hscopes', -, L'', ⟨ip', rfl⟩, hL''⟩
      refine (throw_pending_sim hraise).imp (fun _ _ _ h => h) ?_
      rintro spot S' ⟨hover, rfl⟩
      exact ⟨L'', hover, hL'', by rwa [hscopes']⟩
    · obtain ⟨p', hgoes, hret, L', cs, ⟨ip', rfl⟩, hL', hscopes, hfit'⟩ := hspot
      cases hx : x.isNormal with
      | true =>
        rw [if_pos hx] at hgoes
        subst hgoes
        obtain ⟨m, hendTry, hpush'⟩ := hend.cut [.endTry]
        have hcalc : Registers.calcAll [.constUndefined, .constFalse] ⟨stk, L', S₂.rval⟩ =
            some ⟨.bool false :: .undefined :: stk, L', S₂.rval⟩ := rfl
        -- the code disposes once more, as it does in the handler
        have hagain : (do
            let _ ← Eval.pass κ.host κ.target.kind (some .undefined)
            Eval.closeScope
            return x : Eval σ Exit) =
            (do
              let pending ← Eval.pass κ.host κ.target.kind (some .undefined)
              Eval.closeScope
              return pending.getD .undefined) >>= fun _ => pure x := by
          simp only [bind_assoc, pure_bind]
        simp only [hx, ↓reduceIte, hagain]
        refine Sim.steps (end_try hendTry) (Sim.line hpush' rfl hcalc (Sim.bind
          (handler_sim hswap hfresh hpass hpop hL' hscopes (Keeps.empty (Nat.zero_le _))) ?_))
        rintro e spot S₃ ⟨hscopes', -, L'', ⟨ip'', rfl⟩, hL''⟩
        refine skip_pending_sim hraise (Sim.pure (.of_normal ⟨L'', Spot.stands, hL'', ?_⟩ hx))
        rwa [hscopes']
      | false =>
        rw [if_neg (by simp [hx])] at hgoes
        obtain ⟨q', hexit, hleaving⟩ := hgoes
        obtain ⟨m, hendTry, hclose⟩ := hexit.cut [.endTry]
        simp only [hx]
        refine Sim.steps (end_try hendTry) (Sim.bind (closeScope_sim hclose hscopes) ?_)
        rintro - spot S₃ ⟨hstands, hscopes', hrval⟩
        refine Sim.pure (.of_abrupt ⟨q', hleaving, ⟨L', hstands, hL', ?_⟩, fun v hv => ?_⟩ hx)
        · rwa [hscopes']
        · rw [hrval, hret v hv]

end Setting
end ResourceMachine
