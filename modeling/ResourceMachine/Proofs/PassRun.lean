/-
# Running a disposal pass

The code of a pass follows the evaluation of one (`Eval.pass`). A pass keeps its
state in eight locals of its own; everything else that the frame holds stays as
it is. Where the scope declares no `await using`, the pass keeps no track of
awaits, which is right because then every resource is sync and has a method
(`Covered`).

Key definitions: `PassFrame`, `Covered`, `Target.marks`.
Key theorems: `Setting.callMethod_sim`, `Setting.disposeAll_sim`, `Setting.markedPass_sim`,
`Setting.pass_sim`.
-/
import ResourceMachine.Proofs.EvaluationSteps
import ResourceMachine.Proofs.Overwrite
import ResourceMachine.Proofs.Recognition

namespace ResourceMachine

/-! ### Indices -/

theorem toNat_index {k : Nat} (hk : k < 2147483647) :
    ¬ Int32.ofNat k < 0 ∧ (Int32.ofNat k).toNatClampNeg = k := by
  have hint : (Int32.ofNat k).toInt = k := Int32.toInt_ofNat_of_lt (by omega : k < 2 ^ 31)
  refine ⟨?_, by rw [Int32.toNatClampNeg, hint]; rfl⟩
  rw [Int32.lt_iff_toInt_lt, hint]
  simp

theorem ofNat_succ_sub_one (k : Nat) : Int32.ofNat (k + 1) - 1 = Int32.ofNat k := by
  rw [Int32.ofNat_add]
  exact Int32.add_sub_cancel _ _

theorem zero_le_index {k : Nat} (hk : k ≤ 2147483647) :
    decide ((0 : Int32) ≤ Int32.ofNat k - 1) = decide (0 < k) := by
  cases k with
  | zero => decide
  | succ k =>
    rw [ofNat_succ_sub_one]
    simp [Int32.le_iff_toInt_le, Int32.toInt_ofNat_of_lt (by omega : k < 2 ^ 31)]

@[simp] theorem isTruthy_bool (b : Bool) : (Value.bool b).isTruthy = b := rfl

/-- A hint reads as a condition that holds for async. -/
@[simp] theorem isTruthy_hint (h : Hint) :
    (Value.int (Int32.ofNat h.byte.toNat)).isTruthy = (h == .async) := by
  cases h <;> decide

/-! ### The locals of a pass -/

theorem slots_lt {b n : Nat} (h : b + 8 ≤ n) :
    b < n ∧ b + 1 < n ∧ b + 2 < n ∧ b + 3 < n ∧ b + 4 < n ∧ b + 5 < n ∧ b + 6 < n ∧ b + 7 < n := by
  omega

/-- The seed of a pass with an exception pending or not. -/
def Seed.ofPending (pending : Option Value) : Seed := if pending.isSome then .thrown else .normal

/-- What a pass keeps in its locals: its state, the records that it took, the index
and the record at hand. The last three of its locals are used only if it awaits. -/
def PassFrame (awaits : Bool) (b : Nat) (L₀ : Array Value) (records index record rval : Value)
    (st : Eval.PassState) (L : Array Value) : Prop :=
  ∃ needsAwait hasAwaited saved,
    L = overwrite L₀ b
      [.bool st.pending.isSome, st.pending.getD .undefined, records, index, record, needsAwait,
       hasAwaited, saved] ∧
    (awaits = true →
      needsAwait = .bool st.needsAwait ∧ hasAwaited = .bool st.hasAwaited ∧ saved = rval) ∧
    (awaits = false → st.needsAwait = false)

/-- Where a scope declares no `await using`, every resource is sync and has a
method. -/
def Covered (awaits : Bool) (rs : List Resource) : Prop :=
  awaits = false → ∀ r ∈ rs, r.hint = .sync ∧ r.method?.isSome

/-! ### The mark of a pass -/

/-- More events. -/
def Eval.logAll {σ : Type} (es : List Event) : Eval σ Unit :=
  modify fun s => { s with trace := s.trace ++ es }

theorem Eval.logAll_nil {σ α : Type} (m : Eval σ α) (S : CallState σ) :
    (do
      let a ← m
      logAll []
      return a : Eval σ α) S = m S := by
  show EStateM.bind m _ S = m S
  unfold EStateM.bind
  cases m S with
  | error i S' => rfl
  | ok a S' =>
    show EStateM.Result.ok a { S' with trace := S'.trace ++ [] } = .ok a S'
    rw [List.append_nil]

/-- At the end of a pass that awaits, the return slot gets its value back. Where the
instruction behind the pass does not tell, this looks like a `return`. -/
def Target.marks (t : Target) (awaits : Bool) (q : Nat) (rval : Value) : List Event :=
  if awaits && !restoresRval t.code (q - 1) then [.returns rval] else []

/-- The end of a pass that awaits is behind an instruction. -/
theorem Target.FinishPass.succ {t : Target} {s : PassSlots} {d p q : Nat}
    (h : t.FinishPass s true d p q) : ∃ r, q = r + 1 := by
  obtain ⟨m₁, m₂, -, -, hback⟩ := h
  obtain ⟨m₃, -, hset⟩ := Target.Line.cut [.loadLocal s.rval] hback
  obtain ⟨-, -, -, -, rfl⟩ := hset.single
  exact ⟨m₃, rfl⟩

/-! ### The parts of a pass -/

namespace Setting

section

variable {σ : Type} {κ : Setting σ} {n p q d ip b : Nat} {stk : List Value} {L L₀ : Array Value}
  {H : List Handler} {S : CallState σ} {e record records index rval : Value} {s : PassSlots}
  {awaits u : Bool} {st : Eval.PassState} {R : Spot → CallState σ → Prop}

/-- The code behind a call that throws chains the exception. -/
theorem caught_sim (st : Eval.PassState) (hs : s.From b) (hsize : b + 8 ≤ L₀.size)
    (hline : κ.target.Line (d + 1) p
      [.loadLocal s.exception, .loadLocal s.throwing, .chainDisposeError (if u then 1 else 0),
       .storeLocal s.exception, .constTrue, .storeLocal s.throwing] d q)
    (hd : stk.length = d) (hL : PassFrame awaits b L₀ records index record rval st L) :
    Sim κ n (κ.session ⟨p, ip, e :: stk, L, H⟩ S) (Eval.chain u st.pending e S)
      (fun v spot _ => ∃ L', spot.Stands q stk L' H ∧
        PassFrame awaits b L₀ records index record rval { st with pending := some v } L') R := by
  obtain ⟨na, ha, saved, hL, hawaits⟩ := hL
  obtain ⟨m₁, hload, hrest⟩ := hline.cut [.loadLocal s.exception, .loadLocal s.throwing]
  obtain ⟨m₂, hchain, hstore⟩ := hrest.cut [.chainDisposeError (if u then 1 else 0)]
  have hcalc : Registers.calcAll [.loadLocal s.exception, .loadLocal s.throwing]
      ⟨e :: stk, L, S.rval⟩ =
      some ⟨.bool st.pending.isSome :: st.pending.getD .undefined :: e :: stk, L, S.rval⟩ := by
    simp [hs.exception, hs.throwing, hL, hsize]
  refine Sim.line hload (by rw [← hd]; rfl) hcalc ?_
  refine (chain_sim hchain (by rw [← hd]; rfl)).onward ?_
  rintro v spot S' ⟨ip', rfl⟩
  have hcalc' : Registers.calcAll [.storeLocal s.exception, .constTrue, .storeLocal s.throwing]
      ⟨v :: stk, L, S'.rval⟩ =
      some ⟨stk, overwrite L₀ b [.bool true, v, records, index, record, na, ha, saved], S'.rval⟩ := by
    simp [hs.exception, hs.throwing, hL, hsize, slots_lt hsize]
  exact ⟨_, _, hstore.run (by rw [← hd]; rfl) hcalc', _, Spot.stands, na, ha, saved, rfl, hawaits⟩

/-- Behind a call that returns, the result is dropped and the protection ends. -/
theorem callEnd_run {h : Handler} {m : Nat} {v : Value}
    (hend : κ.target.Line (d + 1) p [.pop, .endTry] d m) (hjump : κ.target.Jump .always m q)
    (hd : stk.length = d) (ip : Nat) (L : Array Value) (S : CallState σ) :
    ∃ k, κ.Runs k (κ.session ⟨p, ip, v :: stk, L, h :: H⟩ S) (κ.session ⟨q, ip, stk, L, H⟩ S) := by
  obtain ⟨m', hpop, hendTry⟩ := hend.cut [.pop]
  have hcalc : Registers.calcAll [.pop] ⟨v :: stk, L, S.rval⟩ = some ⟨stk, L, S.rval⟩ := rfl
  exact ⟨_, ((hpop.run (by rw [← hd]; rfl) hcalc).trans (end_try hendTry)).trans (jump_always hjump)⟩

/-- Calling the method of the record at hand. -/
theorem callMethod_sim {box : Nat} {r : Resource} {method : Value} (hs : s.From b)
    (hsize : b + 8 ≤ L₀.size) (hlaid : κ.target.CallDispose s awaits u d p q) (hd : stk.length = d)
    (hL : PassFrame awaits b L₀ records index (.resource box r) rval st L)
    (hmethod : r.method? = some method) (hcovered : awaits = false → r.hint = .sync) :
    Sim κ n (κ.session ⟨p, ip, stk, L, H⟩ S) (Eval.callMethod κ.host u r method st S)
      (fun st' spot _ => ∃ L', spot.Stands q stk L' H ∧
        PassFrame awaits b L₀ records index (.resource box r) rval st' L') R := by
  obtain ⟨m₁, m₂, m₃, hprotect, hcode, hresult, hend, hjump, hcaught⟩ := hlaid
  obtain ⟨n₁, hload, hcode⟩ := hcode.cut [.loadLocal s.resource, .resourceField Field.method.byte,
    .loadLocal s.resource]
  obtain ⟨n₂, hvalue, hcall⟩ := hcode.cut [.resourceField Field.value.byte]
  have hgetD : r.method.getD .undefined = method := by
    rw [Option.eq_some_of_filter_eq_some hmethod]
    rfl
  obtain ⟨na, ha, saved, hlocals, hawaits, hnone⟩ := id hL
  let h : Handler := ⟨some (m₃ + 5), none, stk.length⟩
  have hcalled : Sim κ n (κ.session ⟨p + 9, ip, stk, L, h :: H⟩ S)
      (Eval.callValue κ.host .pass method r.value [] S)
      (fun v spot _ => spot.Stands m₁ (v :: stk) L (h :: H))
      (fun spot _ => spot.Over stk L (h :: H)) := by
    have hcalc : Registers.calcAll [.loadLocal s.resource, .resourceField Field.method.byte,
        .loadLocal s.resource] ⟨stk, L, S.rval⟩ =
        some ⟨.resource box r :: method :: stk, L, S.rval⟩ := by
      simp [hs.resource, hlocals, hsize, Field.ofByte?_byte, hgetD]
    have hcalc' : Registers.calcAll [.resourceField Field.value.byte]
        ⟨.resource box r :: method :: stk, L, S.rval⟩ =
        some ⟨r.value :: method :: stk, L, S.rval⟩ := by
      simp [Field.ofByte?_byte]
    refine Sim.line hload hd hcalc (Sim.line hvalue (by rw [← hd]; rfl) hcalc' ?_)
    obtain ⟨hhas, -, -, -, rfl⟩ := hvalue.single
    exact call_sim [] hcall (by rw [← hd]; rfl) rfl (origin_pass hhas)
  have hland : ∀ L spot e S, spot.Over stk L (h :: H) →
      κ.raise spot e S = κ.session ⟨m₃ + 5, spot.ip, e :: stk, L, H⟩ S := by
    rintro L spot e S ⟨⟨xs, hxs⟩, rfl, hH⟩
    have hmax : d + 1 + 1 ≤ κ.target.maxStack := hcaught.2.2.1
    have hcap := κ.maxStack_le
    exact raise_catch hH hxs rfl (by omega)
  refine Sim.steps (try_start hprotect) ?_
  show Sim κ n _ ((Eval.attempt (Eval.callValue κ.host .pass method r.value []) >>= _) S) _ _
  refine Sim.bind (hcalled.attempt (hland L)) ?_
  rintro (e | v) spot S' hspot
  · obtain ⟨spot', -, rfl⟩ := hspot
    refine Sim.bind (caught_sim st hs hsize hcaught hd hL) ?_
    rintro v spot S'' ⟨L', hstands, hL'⟩
    exact Sim.pure ⟨L', hstands, hL'⟩
  · obtain ⟨ip', rfl⟩ := hspot
    cases hhint : r.hint with
    | sync =>
      have hskip : ∃ k, κ.Runs k (κ.session ⟨m₁, ip', v :: stk, L, h :: H⟩ S')
          (κ.session ⟨m₂, ip', v :: stk, L, h :: H⟩ S') := by
        cases awaits with
        | false =>
          obtain rfl : m₂ = m₁ := hresult
          exact ⟨0, .refl _⟩
        | true =>
          obtain ⟨m, hhint', hskip, -⟩ := hresult
          have hcalc : Registers.calcAll [.loadLocal s.resource, .resourceField Field.hint.byte]
              ⟨v :: stk, L, S'.rval⟩ = some ⟨.int 0 :: v :: stk, L, S'.rval⟩ := by
            simp [hs.resource, hlocals, hsize, Field.ofByte?_byte, hhint]
            rfl
          exact ⟨_, (hhint'.run (by rw [← hd]; rfl) hcalc).trans (jump_if false rfl hskip)⟩
      obtain ⟨k, hskip⟩ := hskip
      obtain ⟨k', hdrop⟩ := callEnd_run hend hjump hd ip' L S'
      exact Sim.steps (hskip.trans hdrop) (Sim.pure ⟨L, Spot.stands, hL⟩)
    | async =>
      obtain rfl : awaits = true := by
        cases awaits with
        | true => rfl
        | false => simp [hcovered rfl] at hhint
      obtain ⟨m, hhint', hjump', hawait⟩ := hresult
      obtain ⟨m', hset, hawait⟩ := hawait.cut [.constTrue, .storeLocal s.hasAwaited]
      obtain ⟨rfl, -, rfl⟩ := hawaits rfl
      let L' := overwrite L₀ b
        [.bool st.pending.isSome, st.pending.getD .undefined, records, index, .resource box r,
         .bool st.needsAwait, .bool true, saved]
      have hL' : PassFrame true b L₀ records index (.resource box r) saved
          { st with hasAwaited := true } L' := ⟨_, _, _, rfl, fun _ => ⟨rfl, rfl, rfl⟩, by simp⟩
      have hcalc : Registers.calcAll [.loadLocal s.resource, .resourceField Field.hint.byte]
          ⟨v :: stk, L, S'.rval⟩ = some ⟨.int 1 :: v :: stk, L, S'.rval⟩ := by
        simp [hs.resource, hlocals, hsize, Field.ofByte?_byte, hhint]
        rfl
      have hcalc' : Registers.calcAll [.constTrue, .storeLocal s.hasAwaited]
          ⟨v :: stk, L, S'.rval⟩ = some ⟨v :: stk, L', S'.rval⟩ := by
        simp [hs.hasAwaited, hlocals, hsize, slots_lt hsize, L']
      refine Sim.line hhint' (by rw [← hd]; rfl) hcalc ?_
      refine Sim.steps (jump_if false rfl hjump') ?_
      refine Sim.line hset (by rw [← hd]; rfl) hcalc' ?_
      show Sim κ n _ ((Eval.attempt (Eval.await v) >>= _) S') _ _
      refine Sim.bind ((await_sim hawait (by rw [← hd]; rfl)).attempt (hland L')) ?_
      rintro (e | v') spot S'' hspot
      · obtain ⟨spot', -, rfl⟩ := hspot
        refine Sim.bind (caught_sim { st with hasAwaited := true } hs hsize hcaught hd hL') ?_
        rintro w spot T ⟨L'', hstands, hL''⟩
        exact Sim.pure ⟨L'', hstands, hL''⟩
      · obtain ⟨ip'', rfl⟩ := hspot
        obtain ⟨k, hdrop⟩ := callEnd_run hend hjump hd ip'' L' S''
        exact Sim.steps hdrop (Sim.pure ⟨L', Spot.stands, hL'⟩)

/-- Awaiting undefined. What is no promise is not rejected. -/
theorem tick_sim (hline : κ.target.Line d p [.constUndefined, .await, .pop] d q)
    (hd : stk.length = d) :
    Sim κ n (κ.session ⟨p, ip, stk, L, H⟩ S) (Eval.tick S)
      (fun _ spot _ => spot.Stands q stk L H) R := by
  refine Sim.never ?_ (R := fun spot _ => spot.Over stk L H) Eval.tick_ne_thrown
  obtain ⟨m₁, hpush, hline⟩ := hline.cut [.constUndefined]
  obtain ⟨m₂, hawait, hpop⟩ := hline.cut [.await]
  have hcalc : Registers.calcAll [.constUndefined] ⟨stk, L, S.rval⟩ =
      some ⟨.undefined :: stk, L, S.rval⟩ := rfl
  refine Sim.line hpush hd hcalc ?_
  refine Sim.bind (await_sim hawait (by rw [← hd]; rfl)) ?_
  rintro v spot S' ⟨ip', rfl⟩
  have hcalc' : Registers.calcAll [.pop] ⟨v :: stk, L, S'.rval⟩ = some ⟨stk, L, S'.rval⟩ := rfl
  exact Sim.line hpop (by rw [← hd]; rfl) hcalc' (Sim.pure Spot.stands)

/-- Making up for an await before a sync record. -/
theorem awaitBefore_sim {box : Nat} {r : Resource} (hs : s.From b) (hsize : b + 8 ≤ L₀.size)
    (hlaid : κ.target.AwaitBefore s d p q) (hd : stk.length = d)
    (hL : PassFrame true b L₀ records index (.resource box r) rval st L) :
    Sim κ n (κ.session ⟨p, ip, stk, L, H⟩ S) (Eval.awaitBefore r st S)
      (fun st' spot _ => ∃ L', spot.Stands q stk L' H ∧
        PassFrame true b L₀ records index (.resource box r) rval st' L')
      R := by
  obtain ⟨m, hcond, hjump, hwait⟩ := hlaid
  obtain ⟨m', hwait, hset⟩ := hwait.cut [.constUndefined, .await, .pop]
  obtain ⟨na, ha, saved, hlocals, hawaits, -⟩ := id hL
  obtain ⟨rfl, rfl, rfl⟩ := hawaits rfl
  let owed := !(r.hint == .async) && st.needsAwait && !st.hasAwaited
  have hcalc : Registers.calcAll
      [.loadLocal s.resource, .resourceField Field.hint.byte, .not, .loadLocal s.needsAwait, .and,
       .loadLocal s.hasAwaited, .not, .and] ⟨stk, L, S.rval⟩ = some ⟨.bool owed :: stk, L, S.rval⟩ := by
    simp [hs.resource, hs.needsAwait, hs.hasAwaited, hlocals, hsize, Field.ofByte?_byte, owed]
  refine Sim.line hcond hd hcalc (Sim.steps (jump_if false rfl hjump) ?_)
  have howed : (r.hint = .sync ∧ st.needsAwait ∧ !st.hasAwaited) ↔ owed = true := by
    cases hhint : r.hint <;> simp [owed, hhint]
  unfold Eval.awaitBefore
  by_cases hcase : owed = true
  · rw [if_pos (howed.mpr hcase), if_neg (by simp [hcase])]
    let L' := overwrite L₀ b
      [.bool st.pending.isSome, st.pending.getD .undefined, records, index, .resource box r,
       .bool false, .bool st.hasAwaited, saved]
    refine Sim.bind (tick_sim hwait hd) ?_
    rintro - spot S' ⟨ip', rfl⟩
    have hcalc' : Registers.calcAll [.constFalse, .storeLocal s.needsAwait] ⟨stk, L, S'.rval⟩ =
        some ⟨stk, L', S'.rval⟩ := by
      simp [hs.needsAwait, hlocals, hsize, slots_lt hsize, L']
    refine Sim.line hset (by rw [← hd]; rfl) hcalc' (Sim.pure ⟨L', Spot.stands, ?_⟩)
    exact ⟨_, _, _, rfl, fun _ => ⟨rfl, rfl, rfl⟩, by simp⟩
  · rw [if_neg (fun h => hcase (howed.mp h)), if_pos (by simp [hcase])]
    exact Sim.pure ⟨L, Spot.stands, hL⟩

/-- Whether there is a method can be seen from what code reads as the method. -/
theorem isNullish_method (r : Resource) :
    (r.method.getD .undefined).isNullish = r.method?.isNone := by
  cases hm : r.method with
  | none => simp [Record.method?, hm, Value.isNullish]
  | some v => cases hv : v.isNullish <;> simp [Record.method?, hm, hv, Option.filter]

/-- Disposing the record at hand. -/
theorem disposeOne_sim {box : Nat} {r : Resource} (hs : s.From b) (hsize : b + 8 ≤ L₀.size)
    (hlaid : κ.target.DisposeRecord s awaits u d p q) (hd : stk.length = d)
    (hL : PassFrame awaits b L₀ records index (.resource box r) rval st L)
    (hcovered : awaits = false → r.hint = .sync ∧ r.method?.isSome) :
    Sim κ n (κ.session ⟨p, ip, stk, L, H⟩ S) (Eval.disposeOne κ.host u r st S)
      (fun st' spot _ => ∃ L', spot.Stands q stk L' H ∧
        PassFrame awaits b L₀ records index (.resource box r) rval st' L')
      R := by
  obtain ⟨m₀, m₁, m₂, hbefore, hcond, hcall, hafter⟩ := hlaid
  have hfirst : Sim κ n (κ.session ⟨p, ip, stk, L, H⟩ S) (Eval.awaitBefore r st S)
      (fun st' spot _ => ∃ L', spot.Stands m₀ stk L' H ∧
        PassFrame awaits b L₀ records index (.resource box r) rval st' L')
      R := by
    cases awaits with
    | true => exact awaitBefore_sim hs hsize hbefore hd hL
    | false =>
      obtain rfl : m₀ = p := hbefore
      obtain ⟨-, -, -, -, -, hnone⟩ := id hL
      unfold Eval.awaitBefore
      rw [if_neg (by simp [hnone rfl])]
      exact Sim.pure ⟨L, Spot.stands, hL⟩
  refine Sim.bind hfirst ?_
  rintro st' spot S' ⟨L', ⟨ip', rfl⟩, hL'⟩
  obtain ⟨na, ha, saved, hlocals, hawaits, hnone⟩ := id hL'
  have hcalc : Registers.calcAll
      [.loadLocal s.resource, .resourceField Field.method.byte, .isNullish] ⟨stk, L', S'.rval⟩ =
      some ⟨.bool r.method?.isNone :: stk, L', S'.rval⟩ := by
    simp [hs.resource, hlocals, hsize, Field.ofByte?_byte, isNullish_method]
  refine Sim.line hcond hd hcalc ?_
  cases hmethod : r.method? with
  | some method =>
    cases awaits with
    | true =>
      obtain ⟨hjump, hskip, -⟩ := hafter
      refine Sim.steps (jump_if true rfl hjump) ?_
      refine (callMethod_sim hs hsize hcall hd hL' hmethod (by simp)).onward ?_
      rintro st'' spot T ⟨L'', ⟨ip'', rfl⟩, hL''⟩
      exact ⟨_, _, jump_always hskip, L'', Spot.stands, hL''⟩
    | false =>
      obtain ⟨hjump, rfl⟩ := hafter
      refine Sim.steps (jump_if true rfl hjump) ?_
      exact callMethod_sim hs hsize hcall hd hL' hmethod fun h => (hcovered h).1
  | none =>
    cases awaits with
    | true =>
      obtain ⟨hjump, -, hset⟩ := hafter
      obtain ⟨-, rfl, rfl⟩ := hawaits rfl
      let L'' := overwrite L₀ b
        [.bool st'.pending.isSome, st'.pending.getD .undefined, records, index, .resource box r,
         .bool true, .bool st'.hasAwaited, saved]
      have hcalc' : Registers.calcAll [.constTrue, .storeLocal s.needsAwait] ⟨stk, L', S'.rval⟩ =
          some ⟨stk, L'', S'.rval⟩ := by
        simp [hs.needsAwait, hlocals, hsize, slots_lt hsize, L'']
      refine Sim.steps (jump_if true rfl hjump) ?_
      refine Sim.line hset hd hcalc' (Sim.pure ⟨L'', Spot.stands, ?_⟩)
      exact ⟨_, _, _, rfl, fun _ => ⟨rfl, rfl, rfl⟩, by simp⟩
    | false =>
      have := (hcovered rfl).2
      rw [hmethod] at this
      cases this

/-- Disposing the records that a pass took, from the last to the first. -/
theorem disposeAll_sim {box : Nat} {vs : List Value} (hs : s.From b) (hsize : b + 8 ≤ L₀.size)
    (hlaid : κ.target.DisposeRecords s awaits u d p q) (hd : stk.length = d) :
    ∀ (todo done : List Resource) (st : Eval.PassState) (ip : Nat) (record : Value)
      (L : Array Value) (S : CallState σ),
    Boxes vs (todo.reverse ++ done) → todo.length ≤ 2147483647 → Covered awaits todo →
    PassFrame awaits b L₀ (.list box vs) (.int (Int32.ofNat todo.length - 1)) record rval st L →
    Sim κ n (κ.session ⟨p, ip, stk, L, H⟩ S) (Eval.disposeAll κ.host u todo st S)
      (fun st' spot _ => ∃ index record L', spot.Stands q stk L' H ∧
        PassFrame awaits b L₀ (.list box vs) index record rval st' L')
      R
  | [], _, st, ip, record, L, S, hboxes, hfew, hcovered, hL => by
    obtain ⟨m₁, m₂, m₃, m₄, hcond, hjump, -⟩ := hlaid
    obtain ⟨na, ha, saved, hlocals, -⟩ := id hL
    have hcalc : Registers.calcAll [.loadLocal s.index, .constI32 0, .ige] ⟨stk, L, S.rval⟩ =
        some ⟨.bool false :: stk, L, S.rval⟩ := by
      simp [hs.index, hlocals, hsize]
    refine Sim.line hcond hd hcalc (Sim.steps (jump_if false rfl hjump) (Sim.pure ?_))
    exact ⟨_, _, L, Spot.stands, hL⟩
  | r :: todo, done, st, ip, record, L, S, hboxes, hfew, hcovered, hL => by
    obtain ⟨m₁, m₂, m₃, m₄, hcond, hjump, hfetch, hone, hdec, hback, -⟩ := id hlaid
    rw [List.length_cons] at hfew
    rw [List.length_cons, ofNat_succ_sub_one] at hL
    obtain ⟨na, ha, saved, hlocals, hawaits⟩ := id hL
    obtain ⟨hnonneg, hindex⟩ := toNat_index (show todo.length < 2147483647 by omega)
    obtain ⟨box', hbox⟩ := hboxes.getElem? (k := todo.length) (r := r) (by
      rw [List.reverse_cons, List.append_assoc, List.getElem?_append_right (by simp)]
      simp)
    have hcond' : (0 : Int32) ≤ Int32.ofNat todo.length := by
      have := zero_le_index (k := todo.length + 1) (by omega)
      rw [ofNat_succ_sub_one] at this
      simpa using this
    have hcalc : Registers.calcAll [.loadLocal s.index, .constI32 0, .ige] ⟨stk, L, S.rval⟩ =
        some ⟨.bool true :: stk, L, S.rval⟩ := by
      simp [hs.index, hlocals, hsize, hcond']
    let L' := overwrite L₀ b
      [.bool st.pending.isSome, st.pending.getD .undefined, .list box vs,
       .int (Int32.ofNat todo.length), .resource box' r, na, ha, saved]
    obtain ⟨m, hfetch, hstore⟩ := hfetch.cut [.loadLocal s.resources, .loadLocal s.index, .getElem]
    have hfetched : Registers.calcAll [.loadLocal s.resources, .loadLocal s.index, .getElem]
        ⟨stk, L, S.rval⟩ = some ⟨.resource box' r :: stk, L, S.rval⟩ := by
      simp [hs.resources, hs.index, hlocals, hsize, hnonneg, hindex, hbox]
    have hstored : Registers.calcAll [.storeLocal s.resource]
        ⟨.resource box' r :: stk, L, S.rval⟩ = some ⟨stk, L', S.rval⟩ := by
      simp [hs.resource, hlocals, hsize, slots_lt hsize, L']
    refine Sim.line hcond hd hcalc (Sim.steps (jump_if false rfl hjump) ?_)
    refine Sim.line hfetch hd hfetched (Sim.line hstore (by rw [← hd]; rfl) hstored ?_)
    have hL' : PassFrame awaits b L₀ (.list box vs) (.int (Int32.ofNat todo.length))
        (.resource box' r) rval st L' := ⟨na, ha, saved, rfl, hawaits⟩
    refine Sim.bind (disposeOne_sim hs hsize hone hd hL' fun h => hcovered h r List.mem_cons_self) ?_
    rintro st' spot T ⟨L'', ⟨ip', rfl⟩, hL''⟩
    obtain ⟨na', ha', saved', hlocals', hawaits'⟩ := hL''
    let M := overwrite L₀ b
      [.bool st'.pending.isSome, st'.pending.getD .undefined, .list box vs,
       .int (Int32.ofNat todo.length - 1), .resource box' r, na', ha', saved']
    obtain ⟨m', hdec, hstore'⟩ := hdec.cut [.loadLocal s.index, .dec]
    have hless : Registers.calcAll [.loadLocal s.index, .dec] ⟨stk, L'', T.rval⟩ =
        some ⟨.int (Int32.ofNat todo.length - 1) :: stk, L'', T.rval⟩ := by
      simp [hs.index, hlocals', hsize]
    have hstored' : Registers.calcAll [.storeLocal s.index]
        ⟨.int (Int32.ofNat todo.length - 1) :: stk, L'', T.rval⟩ = some ⟨stk, M, T.rval⟩ := by
      simp [hs.index, hlocals', hsize, slots_lt hsize, M]
    refine Sim.line hdec hd hless (Sim.line hstore' (by rw [← hd]; rfl) hstored' ?_)
    refine Sim.steps (jump_always hback) ?_
    refine disposeAll_sim hs hsize hlaid hd todo (r :: done) st' ip' (.resource box' r) M T
      ?_ (by omega) (fun h r' hr' => hcovered h r' (List.mem_cons_of_mem _ hr')) ?_
    · rwa [List.reverse_cons, List.append_assoc] at hboxes
    · exact ⟨na', ha', saved', rfl, hawaits'⟩

/-- Making up for an await at the end of a pass. -/
theorem awaitAfter_sim (hs : s.From b) (hsize : b + 8 ≤ L₀.size)
    (hlaid : κ.target.AwaitOwed s d p q) (hd : stk.length = d)
    (hL : PassFrame true b L₀ records index record rval st L) :
    Sim κ n (κ.session ⟨p, ip, stk, L, H⟩ S) (Eval.awaitAfter st S)
      (fun _ spot _ => spot.Stands q stk L H) R := by
  obtain ⟨m, hcond, hjump, hwait⟩ := hlaid
  obtain ⟨na, ha, saved, hlocals, hawaits, -⟩ := id hL
  obtain ⟨rfl, rfl, rfl⟩ := hawaits rfl
  have hcalc : Registers.calcAll
      [.loadLocal s.needsAwait, .loadLocal s.hasAwaited, .not, .and] ⟨stk, L, S.rval⟩ =
      some ⟨.bool (st.needsAwait && !st.hasAwaited) :: stk, L, S.rval⟩ := by
    simp [hs.needsAwait, hs.hasAwaited, hlocals, hsize]
  refine Sim.line hcond hd hcalc (Sim.steps (jump_if false rfl hjump) ?_)
  unfold Eval.awaitAfter
  by_cases howed : st.needsAwait ∧ !st.hasAwaited
  · rw [if_pos howed, if_neg (by simpa using howed)]
    exact tick_sim hwait hd
  · rw [if_neg howed, if_pos (by simpa using howed)]
    exact Sim.pure Spot.stands

end

section

variable {σ : Type} {κ : Setting σ} {n p q d ip b : Nat} {stk : List Value} {L L₀ : Array Value}
  {H : List Handler} {S : CallState σ} {records index record rval : Value} {s : PassSlots}
  {awaits : Bool} {st : Eval.PassState} {R : Spot → CallState σ → Prop}

variable (ip H S) in
/-- Before a pass takes the resources, it sets its state. -/
theorem seedPass_run {pending : Option Value} (hs : s.From b) (hsize : b + 8 ≤ L₀.size)
    (hlaid : κ.target.StartPass s awaits (.ofPending pending) d p q) (hd : stk.length = d) :
    ∃ m k v₂ v₃ v₄ w₅ w₆ w₇,
      κ.target.Line d m [.takeDisposeCapability, .dec, .storeLocal s.index, .storeLocal s.resources]
        d q ∧
      κ.Runs k (κ.session ⟨p, ip, pending.toList ++ stk, L₀, H⟩ S)
        (κ.session ⟨m, ip, stk,
          overwrite L₀ b
            [.bool pending.isSome, pending.getD .undefined, v₂, v₃, v₄, w₅, w₆, w₇], H⟩ S) ∧
      (awaits = true → w₅ = .bool false ∧ w₆ = .bool false ∧ w₇ = S.rval) := by
  obtain ⟨m₁, m₂, hflags, hseed, htake⟩ := hlaid
  obtain ⟨vs₀, hlen, hL₀⟩ := exists_overwrite L₀ b 8 hsize
  match vs₀, hlen, hL₀ with
  | [v₀, v₁, v₂, v₃, v₄, v₅, v₆, v₇], _, hL₀ =>
  have hheight : (pending.toList ++ stk).length = d + (Seed.ofPending pending).values := by
    rw [← hd]
    cases pending <;> simp [Seed.ofPending, Seed.values]
  have hflagged : ∃ w₅ w₆ w₇ k,
      κ.Runs k (κ.session ⟨p, ip, pending.toList ++ stk, L₀, H⟩ S)
        (κ.session ⟨m₁, ip, pending.toList ++ stk,
          overwrite L₀ b [v₀, v₁, v₂, v₃, v₄, w₅, w₆, w₇], H⟩ S) ∧
      (awaits = true → w₅ = .bool false ∧ w₆ = .bool false ∧ w₇ = S.rval) := by
    cases awaits with
    | false =>
      obtain ⟨-, rfl⟩ := hflags
      exact ⟨v₅, v₆, v₇, 0, by rw [hL₀]; exact .refl _, by simp⟩
    | true =>
      have hcalc : Registers.calcAll
          [.getRval, .storeLocal s.rval, .constFalse, .storeLocal s.needsAwait, .constFalse,
           .storeLocal s.hasAwaited] ⟨pending.toList ++ stk, L₀, S.rval⟩ =
          some ⟨pending.toList ++ stk,
            overwrite L₀ b [v₀, v₁, v₂, v₃, v₄, .bool false, .bool false, S.rval], S.rval⟩ := by
        rw [← hL₀]
        simp [hs.rval, hs.needsAwait, hs.hasAwaited, hsize, slots_lt hsize, overwrite_overwrite]
      exact ⟨_, _, _, _, hflags.run hheight hcalc, fun _ => ⟨rfl, rfl, rfl⟩⟩
  obtain ⟨w₅, w₆, w₇, k, hflagged, hw⟩ := hflagged
  let L₁ := overwrite L₀ b [v₀, pending.getD .undefined, v₂, v₃, v₄, w₅, w₆, w₇]
  have hseeded : ∃ k,
      κ.Runs k
        (κ.session ⟨m₁, ip, pending.toList ++ stk,
          overwrite L₀ b [v₀, v₁, v₂, v₃, v₄, w₅, w₆, w₇], H⟩ S)
        (κ.session ⟨m₂, ip, .bool pending.isSome :: stk, L₁, H⟩ S) := by
    cases pending with
    | none =>
      have hcalc : Registers.calcAll [.constUndefined, .storeLocal s.exception, .constFalse]
          ⟨stk, overwrite L₀ b [v₀, v₁, v₂, v₃, v₄, w₅, w₆, w₇], S.rval⟩ =
          some ⟨.bool false :: stk, L₁, S.rval⟩ := by
        simp [hs.exception, hsize, slots_lt hsize, L₁]
      exact ⟨_, hseed.run hheight hcalc⟩
    | some e =>
      have hcalc : Registers.calcAll [.storeLocal s.exception, .constTrue]
          ⟨e :: stk, overwrite L₀ b [v₀, v₁, v₂, v₃, v₄, w₅, w₆, w₇], S.rval⟩ =
          some ⟨.bool true :: stk, L₁, S.rval⟩ := by
        simp [hs.exception, hsize, slots_lt hsize, L₁]
      exact ⟨_, hseed.run hheight hcalc⟩
  obtain ⟨k', hseeded⟩ := hseeded
  obtain ⟨m, hthrowing, htake⟩ := htake.cut [.storeLocal s.throwing]
  have hcalc : Registers.calcAll [.storeLocal s.throwing]
      ⟨.bool pending.isSome :: stk, L₁, S.rval⟩ =
      some ⟨stk, overwrite L₀ b
        [.bool pending.isSome, pending.getD .undefined, v₂, v₃, v₄, w₅, w₆, w₇], S.rval⟩ := by
    simp [hs.throwing, hsize, slots_lt hsize, L₁]
  have hheight : (Value.bool pending.isSome :: stk).length = d + 1 := by rw [← hd]; rfl
  have hthrown : κ.Runs _ (κ.session ⟨_, ip, _, L₁, H⟩ S) (κ.session ⟨_, ip, stk, _, H⟩ S) :=
    hthrowing.run hheight hcalc
  exact ⟨m, _, v₂, v₃, v₄, w₅, w₆, w₇, htake, (hflagged.trans hseeded).trans hthrown, hw⟩

/-- The start of a pass takes the resources. -/
theorem startPass_sim {pending : Option Value} {c : Capability} {cs : List Capability}
    (hs : s.From b) (hsize : b + 8 ≤ L₀.size)
    (hlaid : κ.target.StartPass s awaits (.ofPending pending) d p q) (hd : stk.length = d)
    (hscopes : S.scopes = c :: cs) (hfew : c.resources.length ≤ 2147483647) :
    Sim κ n (κ.session ⟨p, ip, pending.toList ++ stk, L₀, H⟩ S) (Eval.takeResources S)
      (fun rs spot S' => rs = c.resources ∧ S'.rval = S.rval ∧
        ∃ id vs record L, Boxes vs rs ∧ spot.Stands q stk L H ∧
          PassFrame awaits b L₀ (.list id vs) (.int (Int32.ofNat rs.length - 1)) record S.rval
            ⟨pending, false, false⟩ L) R := by
  obtain ⟨m, k, v₂, v₃, v₄, w₅, w₆, w₇, htake, hseeded, hw⟩ := seedPass_run ip H S hs hsize hlaid hd
  obtain ⟨m', htake, hstore⟩ := htake.cut [.takeDisposeCapability]
  refine Sim.steps hseeded ((takeResources_sim (R := R) htake hd hscopes hfew).onward ?_)
  rintro rs spot S' ⟨hrs, -, hrval, id, vs, hboxes, ip', rfl⟩
  let L₃ := overwrite L₀ b
    [.bool pending.isSome, pending.getD .undefined, .list id vs, .int (Int32.ofNat rs.length - 1),
     v₄, w₅, w₆, w₇]
  have hcalc' : Registers.calcAll [.dec, .storeLocal s.index, .storeLocal s.resources]
      ⟨.int (Int32.ofNat rs.length) :: .list id vs :: stk,
        overwrite L₀ b
          [.bool pending.isSome, pending.getD .undefined, v₂, v₃, v₄, w₅, w₆, w₇], S'.rval⟩ =
      some ⟨stk, L₃, S'.rval⟩ := by
    simp [hs.index, hs.resources, hsize, slots_lt hsize, L₃]
  exact ⟨_, _, hstore.run (by rw [← hd]; rfl) hcalc', hrs, hrval, id, vs, v₄, L₃, hboxes,
    Spot.stands, w₅, w₆, w₇, rfl, hw, fun _ => rfl⟩

/-- The end of a pass leaves what is pending on the operand stack, and the return
slot as it was. -/
theorem finishPass_sim (hs : s.From b) (hsize : b + 8 ≤ L₀.size)
    (hlaid : κ.target.FinishPass s awaits d p q) (hd : stk.length = d)
    (hL : PassFrame awaits b L₀ records index record rval st L)
    (hrval : awaits = false → S.rval = rval) :
    Sim κ n (κ.session ⟨p, ip, stk, L, H⟩ S)
      ((do
        Eval.awaitAfter st
        Eval.setRval rval
        Eval.logAll (κ.target.marks awaits q rval)
        return st.pending : Eval σ (Option Value)) S)
      (fun pending spot _ => ∃ vs : List Value, vs.length = 8 ∧
        spot.Stands q (.bool pending.isSome :: pending.getD .undefined :: stk)
          (overwrite L₀ b vs) H)
      R := by
  obtain ⟨m₁, m₂, hawait, hpush, hback⟩ := hlaid
  obtain ⟨na, ha, saved, hlocals, hawaits, hnone⟩ := id hL
  let M := overwrite L₀ b
    [.bool st.pending.isSome, st.pending.getD .undefined, .undefined, index, .undefined, na, ha,
     saved]
  have hpushed : ∀ rv, Registers.calcAll
      [.constUndefined, .storeLocal s.resources, .constUndefined, .storeLocal s.resource,
       .loadLocal s.exception, .loadLocal s.throwing] ⟨stk, L, rv⟩ =
      some ⟨.bool st.pending.isSome :: st.pending.getD .undefined :: stk, M, rv⟩ := fun rv => by
    simp [hs.resources, hs.resource, hs.exception, hs.throwing, hlocals, hsize, slots_lt hsize, M]
  cases awaits with
  | false =>
    obtain rfl : m₁ = p := hawait
    obtain ⟨-, rfl⟩ := hback
    have heval : (do
        Eval.awaitAfter st
        Eval.setRval rval
        Eval.logAll (κ.target.marks false q rval)
        return st.pending : Eval σ (Option Value)) S = .ok st.pending S := by
      have htrace : S.trace ++ [] = S.trace := List.append_nil _
      unfold Eval.awaitAfter
      rw [if_neg (by simp [hnone rfl]), ← hrval rfl]
      show EStateM.Result.ok st.pending { S with trace := S.trace ++ [] } = _
      rw [htrace]
    rw [heval]
    exact Sim.line hpush hd (hpushed _) (Sim.pure ⟨_, rfl, Spot.stands⟩)
  | true =>
    obtain ⟨-, -, rfl⟩ := hawaits rfl
    refine Sim.bind (awaitAfter_sim hs hsize hawait hd hL) ?_
    rintro - spot S' ⟨ip', rfl⟩
    obtain ⟨m₃, hload, hset⟩ := hback.cut [.loadLocal s.rval]
    obtain ⟨-, -, -, -, rfl⟩ := hset.single
    have hcalc : Registers.calcAll [.loadLocal s.rval]
        ⟨.bool st.pending.isSome :: st.pending.getD .undefined :: stk, M, S'.rval⟩ =
        some ⟨saved :: .bool st.pending.isSome :: st.pending.getD .undefined :: stk, M, S'.rval⟩ := by
      simp [hs.rval, hsize, M]
    have hmarks : κ.target.marks true (m₃ + 1) saved =
        if restoresRval κ.target.code m₃ then [] else [.returns saved] := by
      rw [Target.marks, Nat.add_sub_cancel, Bool.true_and]
      cases restoresRval κ.target.code m₃ <;> rfl
    refine Sim.line hpush hd (hpushed _) (Sim.line hload (by rw [← hd]; rfl) hcalc ?_)
    let S'' : CallState σ :=
      { S' with trace := S'.trace ++ κ.target.marks true (m₃ + 1) saved, rval := saved }
    let pending := [.bool st.pending.isSome, st.pending.getD .undefined] ++ stk
    have hrestore : κ.Runs 1 (κ.session ⟨m₃, ip', saved :: pending, M, H⟩ S')
        (κ.session ⟨_, ip', pending, M, H⟩ S'') :=
      set_rval_line hset (congrArg (S'.trace ++ ·) hmarks.symm) rfl
    refine Sim.steps hrestore ?_
    exact Sim.pure ⟨_, rfl, Spot.stands⟩

/-- The code of a pass follows the evaluation of one, whatever is pending. -/
theorem markedPass_sim {pending : Option Value} {c : Capability} {cs : List Capability}
    (hs : s.From b) (hsize : b + 8 ≤ L₀.size)
    (hlaid : κ.target.Pass s awaits (.ofPending pending) d p q) (hd : stk.length = d)
    (hscopes : S.scopes = c :: cs) (hfew : c.resources.length ≤ 2147483647)
    (hcovered : Covered awaits c.resources) :
    Sim κ n (κ.session ⟨p, ip, pending.toList ++ stk, L₀, H⟩ S)
      ((do
        let pending ← Eval.pass κ.host κ.target.kind pending
        Eval.logAll (κ.target.marks awaits q S.rval)
        return pending : Eval σ (Option Value)) S)
      (fun pending' spot _ => ∃ vs : List Value, vs.length = 8 ∧
        spot.Stands q (.bool pending'.isSome :: pending'.getD .undefined :: stk)
          (overwrite L₀ b vs) H)
      R := by
  obtain ⟨m₁, m₂, hstart, hdispose, hfinish⟩ := hlaid
  have hseed : (κ.target.kind.isGenerator && Seed.ofPending pending == .thrown) =
      (κ.target.kind.isGenerator && pending.isSome) := by
    cases pending <;> rfl
  rw [hseed] at hdispose
  have heval : (do
        let pending ← Eval.pass κ.host κ.target.kind pending
        Eval.logAll (κ.target.marks awaits q S.rval)
        return pending : Eval σ (Option Value)) S =
      (do
        let rs ← Eval.takeResources
        let st ← Eval.disposeAll κ.host (κ.target.kind.isGenerator && pending.isSome) rs.reverse
          ⟨pending, false, false⟩
        Eval.awaitAfter st
        Eval.setRval S.rval
        Eval.logAll (κ.target.marks awaits q S.rval)
        return st.pending : Eval σ (Option Value)) S := by
    simp only [Eval.pass, bind_assoc, pure_bind]
    rfl
  rw [heval]
  refine Sim.bind (startPass_sim hs hsize hstart hd hscopes hfew) ?_
  rintro rs spot S' ⟨rfl, hrval, id, vs, record, L, hboxes, ⟨ip', rfl⟩, hL⟩
  have hboxes' : Boxes vs (c.resources.reverse.reverse ++ []) := by simpa using hboxes
  have hcovered' : Covered awaits c.resources.reverse := fun h r hr =>
    hcovered h r (List.mem_reverse.mp hr)
  have hdisposed := (disposeAll_sim (n := n) (H := H) (R := R) hs hsize hdispose hd c.resources.reverse [] _
    ip' record L S' hboxes' (by simpa using hfew) hcovered' (by simpa using hL)).remember
  refine Sim.bind (hdisposed.imp (fun _ _ _ h => h) fun _ _ h => h.1) ?_
  rintro st spot T ⟨⟨index, record', L', ⟨ip'', rfl⟩, hL'⟩, hall⟩
  refine finishPass_sim hs hsize hfinish hd hL' fun h => ?_
  rw [(Eval.disposeAll_sync (hcovered' h) rfl hall).1, hrval]

/-- Where the instruction behind it can tell that it gives the return slot its value
back, a pass leaves no mark in the trace. -/
theorem pass_sim {pending : Option Value} {c : Capability} {cs : List Capability}
    (hs : s.From b) (hsize : b + 8 ≤ L₀.size)
    (hlaid : κ.target.Pass s awaits (.ofPending pending) d p q) (hd : stk.length = d)
    (hscopes : S.scopes = c :: cs) (hfew : c.resources.length ≤ 2147483647)
    (hcovered : Covered awaits c.resources)
    (hnext : ∀ r, q = r + 1 → restoresRval κ.target.code r = true) :
    Sim κ n (κ.session ⟨p, ip, pending.toList ++ stk, L₀, H⟩ S)
      (Eval.pass κ.host κ.target.kind pending S)
      (fun pending' spot S' => S'.scopes = .empty :: cs ∧ ∃ vs : List Value, vs.length = 8 ∧
        spot.Stands q (.bool pending'.isSome :: pending'.getD .undefined :: stk)
          (overwrite L₀ b vs) H)
      R := by
  have hmarks : κ.target.marks awaits q S.rval = [] := by
    obtain ⟨m₁, m₂, -, -, hfinish⟩ := hlaid
    cases awaits with
    | false => rfl
    | true =>
      obtain ⟨r, rfl⟩ := hfinish.succ
      simp [Target.marks, hnext r rfl]
  have hpass : Sim κ n (κ.session ⟨p, ip, pending.toList ++ stk, L₀, H⟩ S) _ _ R :=
    markedPass_sim hs hsize hlaid hd hscopes hfew hcovered
  have hsim := hpass
  rw [hmarks, Eval.logAll_nil] at hsim
  have hscopes' : (stateOf (Eval.pass κ.host κ.target.kind pending S)).scopes = .empty :: cs :=
    Eval.pass_scopes κ.target.kind pending hscopes
  refine hsim.remember.imp ?_ fun _ _ h => h.1
  rintro pending' spot S' ⟨h, hx⟩
  rw [hx] at hscopes'
  exact ⟨hscopes', h⟩

end

end Setting
end ResourceMachine
