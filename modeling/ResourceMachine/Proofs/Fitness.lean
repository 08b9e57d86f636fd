/-
# Fit code

What verification of a function decides, said without a search. A function is fit to run
if its code splits into instructions whose operands are in range and whose last one never
falls through, and if depths can be assigned to the instructions so that each one that
control can get to stays within the stack and hands on what its successors are assigned
(`Function.Fit`).

The search finds these depths if there are any, for it never assigns a depth that it is
not forced to; and where it ends, what it found is such an assignment. So its verdict does
not depend on the order in which pending instructions are taken up (`Function.verify_iff`).

Key definitions: `Instr.InRange`, `Located.Flow`, `Located.Reached`, `Located.Sound`,
`Function.Fit`.
Key theorems: `Function.Splits.fit_iff`, `Function.verify_iff`.
-/
import ResourceMachine.Proofs.VerifiedDepths

namespace ResourceMachine

/-! ### What fit code is -/

/-- The operands of an instruction are in range. -/
def Instr.InRange (localCount : Nat) (constants : ConstantPool) : Instr → Prop
  | .loadLocal slot | .storeLocal slot => slot.toNat < localCount
  | .constStr index | .loadGlobal index => index.toNat < constants.size
  | .addDisposable b | .iterClose b | .chainDisposeError b => b.toNat ≤ 1
  | .resourceField b => b.toNat ≤ 2
  | .popN n | .pick n | .unpick n => n ≠ 0
  | _ => True

namespace Located

/-- The depth behind an instruction that is entered at depth `before`. -/
def depthBehind (i : Located) (before : Nat) : Nat :=
  before - i.instr.stackEffect.pops + i.instr.stackEffect.pushes

/-- Where control can go from an instruction that is entered at depth `before`: to which
offset, and with which depth. -/
inductive Flow (i : Located) (before : Nat) : (offset depth : Nat) → Prop
  | fallThrough (falls : i.instr.FallsThrough) : Flow i before i.next (i.depthBehind before)
  | jump {t : Nat} (leads : i.jumpTarget? = some t) : Flow i before t (i.depthBehind before)
  | onCatch {t : Nat} (leads : i.handlerTargets.1 = some t) : Flow i before t (before + 1)
  | onFinally {t : Nat} (leads : i.handlerTargets.2 = some t) : Flow i before t (before + 2)

theorem Flow.from {i : Located} {before t d : Nat} (h : i.Flow before t d) (before' : Nat) :
    ∃ d', i.Flow before' t d' := by
  cases h with
  | fallThrough falls => exact ⟨_, .fallThrough falls⟩
  | jump leads => exact ⟨_, .jump leads⟩
  | onCatch leads => exact ⟨_, .onCatch leads⟩
  | onFinally leads => exact ⟨_, .onFinally leads⟩

/-- Where control can get to from the first instruction. -/
inductive Reached (lines : List Located) : (offset : Nat) → Prop
  | entry : Reached lines 0
  | flow {i : Located} {before offset depth : Nat} (earlier : Reached lines i.offset) (mem : i ∈ lines)
      (flow : i.Flow before offset depth) : Reached lines offset

/-- An instruction that is entered at its depth stays within the stack, leads to instructions
that are entered at the depth which it hands on, and has a handler if it installs one. -/
structure Sound (lines : List Located) (maxStack : Nat) (depth : Nat → Nat) (i : Located) : Prop where
  pops_le : i.instr.stackEffect.pops ≤ depth i.offset
  depth_le : depth i.offset ≤ maxStack
  behind_le : i.depthBehind (depth i.offset) ≤ maxStack
  flows : ∀ offset d, i.Flow (depth i.offset) offset d →
    (∃ j ∈ lines, j.offset = offset) ∧ depth offset = d
  handled : ∀ c f, i.instr = .tryStart c f → i.handlerTargets ≠ (none, none)

end Located

/-- A code splits into instructions with operands in range, the last of which never falls
through. -/
structure Function.Splits (f : Function) (constants : ConstantPool) (lines : List Located) : Prop where
  decoded : Located.ofCode f.code = .ok lines
  ends : ∃ last, lines.getLast? = some last ∧ last.instr.opcode.isTerminator = true
  inRange : ∀ i ∈ lines, i.instr.InRange f.localCount constants

/-- A function is fit to run: its code splits, and depths can be assigned to its instructions
so that the first is entered with an empty stack and each that control can get to is sound. -/
def Function.Fit (f : Function) (constants : ConstantPool) : Prop :=
  ∃ lines, f.Splits constants lines ∧ ∃ depth : Nat → Nat, depth 0 = 0 ∧
    ∀ i ∈ lines, Located.Reached lines i.offset → i.Sound lines f.maxStack depth

/-- What is given in one way at most can be assigned. -/
theorem exists_assignment {β : Type} [Nonempty β] {R : Nat → β → Prop}
    (h : ∀ p b b', R p b → R p b' → b = b') : ∃ f : Nat → β, ∀ p b, R p b → f p = b :=
  ⟨fun p => Classical.epsilon (R p), fun p b hb => h p _ b (Classical.epsilon_spec ⟨b, hb⟩) hb⟩

/-! ### Operands -/

namespace Located

variable {code : Bytes} {pos : Nat} {lines : List Located} {i j : Located}

theorem checkOperands_eq_ok {localCount : Nat} {constants : ConstantPool} :
    i.checkOperands localCount constants = .ok () ↔ i.instr.InRange localCount constants := by
  have hpool (index : Nat) : ¬ (constants.get? index).isNone = true ↔ index < constants.size := by
    simp [ConstantPool.get?, ConstantPool.size]
  have hfield (b : UInt8) : ¬ (Field.ofByte? b).isNone = true ↔ b.toNat ≤ 2 := by
    simp only [Field.ofByte?, Option.isNone_iff_eq_none, List.find?_eq_none, List.forall_mem_cons,
      beq_iff_eq, Field.byte, ← UInt8.toNat_inj]
    simp
    omega
  have hcheck {p : Prop} [Decidable p] {e : VerifyError} :
      (if p then .error e else .ok () : Except VerifyError Unit) = .ok () ↔ ¬ p := by
    split <;> simp_all
  obtain ⟨offset, instr⟩ := i
  cases instr <;>
    simp only [checkOperands, Instr.InRange, invalidOperand, hcheck, hpool, hfield, Nat.not_le, Nat.not_lt,
      ne_eq]

end Located

theorem Function.checkOperands_eq_ok {f : Function} {constants : ConstantPool} :
    ∀ {lines : List Located}, f.checkOperands constants lines = .ok () ↔
      ∀ i ∈ lines, i.instr.InRange f.localCount constants
  | [] => by simp [checkOperands]
  | i :: lines => by
    rw [checkOperands, except_bind_eq_ok, List.forall_mem_cons, ← Located.checkOperands_eq_ok]
    exact ⟨fun ⟨_, hi, hrest⟩ => ⟨hi, checkOperands_eq_ok.mp hrest⟩,
      fun ⟨hi, hrest⟩ => ⟨(), hi, checkOperands_eq_ok.mpr hrest⟩⟩

/-! ### Offsets -/

namespace Located

variable {code : Bytes} {lines : List Located} {i j : Located} {k l : Nat}

theorem offset_lt_next (i : Located) : i.offset < i.next := by
  simp only [next, Instr.size]
  omega

theorem le_offset_of_mem : ∀ {lines : List Located} {pos : Nat}, ofCodeFrom code pos = .ok lines →
    i ∈ lines → pos ≤ i.offset
  | first :: rest, pos, h, hi => by
    obtain ⟨hoffset, -, hrest⟩ := ofCodeFrom_cons h
    rcases List.mem_cons.mp hi with rfl | hi
    · exact Nat.le_of_eq hoffset.symm
    · have hle := le_offset_of_mem hrest hi
      have hlt := first.offset_lt_next
      omega

/-- Where an instruction stands tells its position. -/
theorem eq_of_offset : ∀ {lines : List Located} {pos k l : Nat}, ofCodeFrom code pos = .ok lines →
    lines[k]? = some i → lines[l]? = some j → i.offset = j.offset → k = l
  | first :: rest, pos, 0, 0, h, hi, hj, heq => rfl
  | first :: rest, pos, k + 1, l + 1, h, hi, hj, heq =>
    congrArg (· + 1) (eq_of_offset (ofCodeFrom_cons h).2.2 hi hj heq)
  | first :: rest, pos, 0, l + 1, h, hi, hj, heq => by
    obtain rfl := Option.some.inj hi
    have hle := le_offset_of_mem (ofCodeFrom_cons h).2.2 (List.mem_of_getElem? hj)
    have hlt := first.offset_lt_next
    omega
  | first :: rest, pos, k + 1, 0, h, hi, hj, heq => by
    obtain rfl := Option.some.inj hj
    have hle := le_offset_of_mem (ofCodeFrom_cons h).2.2 (List.mem_of_getElem? hi)
    have hlt := first.offset_lt_next
    omega

/-- The instruction that stands right behind another one is the next. -/
theorem behind_of_offset : ∀ {lines : List Located} {pos k : Nat}, ofCodeFrom code pos = .ok lines →
    lines[k]? = some i → j ∈ lines → j.offset = i.next → lines[k + 1]? = some j
  | first :: rest, pos, k, h, hi, hj, heq => by
    obtain ⟨-, -, hrest⟩ := ofCodeFrom_cons h
    obtain ⟨l, hl⟩ := List.mem_iff_getElem?.mp hj
    have hfirst : (first :: rest)[0]? = some first := rfl
    have hle : i.offset < j.offset := heq ▸ i.offset_lt_next
    have hne : l ≠ 0 := by
      rintro rfl
      obtain rfl := Option.some.inj hl
      have hfirst := le_offset_of_mem h (List.mem_of_getElem? hi)
      have hoffset := (ofCodeFrom_cons h).1
      omega
    obtain ⟨l, rfl⟩ := Nat.exists_eq_succ_of_ne_zero hne
    cases k with
    | succ k =>
      have hi : rest[k]? = some i := hi
      have hl : rest[l]? = some j := hl
      have hnext := behind_of_offset hrest hi (List.mem_of_getElem? hl) heq
      exact hnext
    | zero =>
      obtain rfl := Option.some.inj hi
      cases rest with
      | nil => cases hl
      | cons second rest =>
        have hsame : 0 = l := eq_of_offset hrest (rfl : (second :: rest)[0]? = some second) hl
          ((ofCodeFrom_cons hrest).1.trans heq.symm)
        rw [← hsame] at hl
        exact hl

end Located

/-! ### Successors -/

theorem Located.jumpTarget_eq (i : Located) : i.jumpTarget? = i.instr.jumpDistance?.map i.target := by
  obtain ⟨offset, instr⟩ := i
  cases instr <;> rfl

namespace Depths

section

variable {bytes : Bytes} {lines : List Located} {i : Located} {before maxStack k p t d : Nat}
  {next : List Arrival}

/-- A way into an instruction is one that control can go from `i`. -/
def Arrives (lines : List Located) (i : Located) (before : Nat) (a : Arrival) : Prop :=
  ∃ j, lines[a.position]? = some j ∧ i.Flow before j.offset a.depth

theorem arrives_resolve (h : resolve lines.toArray i t = .ok p) (hflow : i.Flow before t d) :
    Arrives lines i before ⟨p, d⟩ := by
  obtain ⟨j, hj, rfl⟩ := resolve_eq_ok h
  rw [List.getElem?_toArray] at hj
  exact ⟨j, hj, hflow⟩

theorem arrives_fallThrough (hlines : Located.ofCode bytes = .ok lines) (hi : lines[k]? = some i)
    (h : fallThrough lines.toArray k i = .ok p) (hfalls : i.instr.FallsThrough) :
    Arrives lines i before ⟨p, i.depthBehind before⟩ := by
  obtain ⟨rfl, hlt⟩ := fallThrough_eq_ok h
  have hj : lines[k + 1]? = some lines[k + 1] := List.getElem?_eq_getElem (by simpa using hlt)
  refine ⟨_, hj, ?_⟩
  rw [Located.offset_succ hlines hi hj]
  exact .fallThrough hfalls

theorem arrives_handler {extra : Nat} {target? : Option Nat}
    (h : handlerSuccessor lines.toArray i before extra target? = .ok next)
    (hflow : ∀ t, target? = some t → i.Flow before t (before + extra)) :
    ∀ a ∈ next, Arrives lines i before a := by
  cases target? with
  | none =>
    cases h
    exact nofun
  | some t =>
    obtain ⟨p, hp, h⟩ := except_bind_eq_ok.mp h
    cases h
    exact List.forall_mem_singleton.mpr (arrives_resolve hp (hflow t rfl))

/-- The successors of an instruction are where control can go from it. -/
theorem arrives_of_successors (hlines : Located.ofCode bytes = .ok lines) (hi : lines[k]? = some i)
    (h : successors lines.toArray k i before (i.depthBehind before) = .ok next) :
    ∀ a ∈ next, Arrives lines i before a := by
  have hjump {distance : Int32} (hdistance : i.instr.jumpDistance? = some distance) :
      i.Flow before (i.target distance) (i.depthBehind before) :=
    .jump (by rw [Located.jumpTarget_eq, hdistance, Option.map_some])
  unfold successors at h
  split at h
  · cases h
    exact nofun
  · cases h
    exact nofun
  · rename_i hinstr
    obtain ⟨p, hp, h⟩ := except_bind_eq_ok.mp h
    cases h
    exact List.forall_mem_singleton.mpr
      (arrives_resolve hp (hjump (by rw [hinstr]; rfl)))
  · rename_i hinstr
    obtain ⟨p, hp, h⟩ := except_bind_eq_ok.mp h
    obtain ⟨q, hq, h⟩ := except_bind_eq_ok.mp h
    cases h
    refine List.forall_mem_cons.mpr ⟨arrives_fallThrough hlines hi hp (by rw [hinstr]; trivial), ?_⟩
    exact List.forall_mem_singleton.mpr
      (arrives_resolve hq (hjump (by rw [hinstr]; rfl)))
  · rename_i hinstr
    obtain ⟨p, hp, h⟩ := except_bind_eq_ok.mp h
    obtain ⟨q, hq, h⟩ := except_bind_eq_ok.mp h
    cases h
    refine List.forall_mem_cons.mpr ⟨arrives_fallThrough hlines hi hp (by rw [hinstr]; trivial), ?_⟩
    exact List.forall_mem_singleton.mpr
      (arrives_resolve hq (hjump (by rw [hinstr]; rfl)))
  · rename_i c f hinstr
    have htargets : i.handlerTargets = (i.handlerTarget? c, i.handlerTarget? f) := by
      simp only [Located.handlerTargets, hinstr]
    obtain ⟨p, hp, h⟩ := except_bind_eq_ok.mp h
    split at h
    · cases h
    · obtain ⟨cs, hc, h⟩ := except_bind_eq_ok.mp h
      obtain ⟨fs, hf, h⟩ := except_bind_eq_ok.mp h
      cases h
      refine List.forall_mem_cons.mpr ⟨arrives_fallThrough hlines hi hp (by rw [hinstr]; trivial), ?_⟩
      refine List.forall_mem_append.mpr ⟨arrives_handler hc fun t ht => ?_,
        arrives_handler hf fun t ht => ?_⟩
      · exact .onCatch (by rw [htargets, ht])
      · exact .onFinally (by rw [htargets, ht])
  · rename_i hthrow hret hjmp hfalse htrue htry
    obtain ⟨p, hp, h⟩ := except_bind_eq_ok.mp h
    cases h
    exact List.forall_mem_singleton.mpr
      (arrives_fallThrough hlines hi hp (Instr.fallsThrough_of_ne hjmp hthrow hret))

/-- Wherever control can go from an instruction, one of its successors starts. -/
theorem starts_of_flow (hlines : Located.ofCode bytes = .ok lines) (hi : lines[k]? = some i)
    (h : successors lines.toArray k i before (i.depthBehind before) = .ok next)
    (hflow : i.Flow before t d) : Starts lines.toArray next t d := by
  have hi' : lines.toArray[k]? = some i := by rwa [List.getElem?_toArray]
  cases hflow with
  | fallThrough falls => exact starts_of_fallsThrough hlines hi' h falls
  | jump leads =>
    rw [Located.jumpTarget_eq] at leads
    obtain ⟨distance, hdistance, rfl⟩ := Option.map_eq_some_iff.mp leads
    exact starts_of_jump hdistance h
  | onCatch leads =>
    unfold Located.handlerTargets at leads
    split at leads
    · rename_i hinstr
      exact (starts_handlers hinstr h).1 t leads
    · cases leads
  | onFinally leads =>
    unfold Located.handlerTargets at leads
    split at leads
    · rename_i hinstr
      exact (starts_handlers hinstr h).2.1 t leads
    · cases leads

theorem resolve_of_mem {j : Located} (hj : j ∈ lines) : ∃ p, resolve lines.toArray i j.offset = .ok p := by
  have hsome : (lines.toArray.findIdx? (·.offset == j.offset)).isSome := by
    rw [Array.findIdx?_isSome, Array.any_eq_true']
    exact ⟨j, by simpa using hj, by simp⟩
  obtain ⟨p, hp⟩ := Option.isSome_iff_exists.mp hsome
  exact ⟨p, by rw [resolve, hp]⟩

/-- An instruction from which control can only go to instructions has all its successors. -/
theorem successors_of_flows (hlines : Located.ofCode bytes = .ok lines) (hi : lines[k]? = some i)
    (hflows : ∀ t d, i.Flow before t d → ∃ j ∈ lines, j.offset = t)
    (hhandled : ∀ c f, i.instr = .tryStart c f → i.handlerTargets ≠ (none, none)) :
    ∃ next, successors lines.toArray k i before (i.depthBehind before) = .ok next := by
  have hresolve {t d : Nat} (hflow : i.Flow before t d) : ∃ p, resolve lines.toArray i t = .ok p := by
    obtain ⟨j, hj, rfl⟩ := hflows t d hflow
    exact resolve_of_mem hj
  have hfall (hfalls : i.instr.FallsThrough) : fallThrough lines.toArray k i = .ok (k + 1) := by
    obtain ⟨j, hj, hoffset⟩ := hflows _ _ (.fallThrough hfalls)
    have hnext := Located.behind_of_offset hlines hi hj hoffset
    have hlt := (List.getElem?_eq_some_iff.mp hnext).1
    rw [fallThrough, if_pos (by simpa using hlt)]
  have hjump {distance : Int32} (hdistance : i.instr.jumpDistance? = some distance) :
      ∃ p, resolve lines.toArray i (i.target distance) = .ok p :=
    hresolve (.jump (by rw [Located.jumpTarget_eq, hdistance, Option.map_some]))
  have hhandler {extra : Nat} {target? : Option Nat}
      (hflow : ∀ t, target? = some t → i.Flow before t (before + extra)) :
      ∃ next, handlerSuccessor lines.toArray i before extra target? = .ok next := by
    cases target? with
    | none => exact ⟨[], rfl⟩
    | some t =>
      obtain ⟨p, hp⟩ := hresolve (hflow t rfl)
      exact ⟨_, except_bind_eq_ok.mpr ⟨p, hp, rfl⟩⟩
  unfold successors
  split
  · exact ⟨[], rfl⟩
  · exact ⟨[], rfl⟩
  · rename_i hinstr
    obtain ⟨p, hp⟩ := hjump (by rw [hinstr]; rfl)
    exact ⟨_, except_bind_eq_ok.mpr ⟨p, hp, rfl⟩⟩
  · rename_i hinstr
    obtain ⟨p, hp⟩ := hjump (by rw [hinstr]; rfl)
    exact ⟨_, except_bind_eq_ok.mpr ⟨_, hfall (by rw [hinstr]; trivial),
      except_bind_eq_ok.mpr ⟨p, hp, rfl⟩⟩⟩
  · rename_i hinstr
    obtain ⟨p, hp⟩ := hjump (by rw [hinstr]; rfl)
    exact ⟨_, except_bind_eq_ok.mpr ⟨_, hfall (by rw [hinstr]; trivial),
      except_bind_eq_ok.mpr ⟨p, hp, rfl⟩⟩⟩
  · rename_i c f hinstr
    have htargets : i.handlerTargets = (i.handlerTarget? c, i.handlerTarget? f) := by
      simp only [Located.handlerTargets, hinstr]
    obtain ⟨cs, hcs⟩ : ∃ next, handlerSuccessor lines.toArray i before 1 (i.handlerTarget? c) = .ok next :=
      hhandler fun t ht => .onCatch (by rw [htargets, ht])
    obtain ⟨fs, hfs⟩ : ∃ next, handlerSuccessor lines.toArray i before 2 (i.handlerTarget? f) = .ok next :=
      hhandler fun t ht => .onFinally (by rw [htargets, ht])
    refine ⟨⟨k + 1, i.depthBehind before⟩ :: cs ++ fs,
      except_bind_eq_ok.mpr ⟨_, hfall (by rw [hinstr]; trivial), ?_⟩⟩
    split
    · rename_i hc hf
      exact absurd (htargets.trans (by rw [hc, hf])) (hhandled c f hinstr)
    · exact except_bind_eq_ok.mpr ⟨cs, hcs, except_bind_eq_ok.mpr ⟨fs, hfs, rfl⟩⟩
  · rename_i hthrow hret hjmp hfalse htrue htry
    exact ⟨_, except_bind_eq_ok.mpr ⟨_, hfall (Instr.fallsThrough_of_ne hjmp hthrow hret), rfl⟩⟩

end

/-! ### What the search finds -/

section

variable {bytes : Bytes} {lines : List Located} {i : Located} {maxStack k d : Nat} {D s s' : Depths}
  {a : Arrival} {depth : Nat → Nat} {r : Except VerifyError Depths}

theorem At.line (hlines : Located.ofCode bytes = .ok lines) (hi : i ∈ lines) (h : D.At lines i.offset d) :
    ∃ k, lines[k]? = some i ∧ D.Reaches k d := by
  obtain ⟨k, j, hj, hoffset, hreaches⟩ := h
  obtain ⟨l, hl⟩ := List.mem_iff_getElem?.mp hi
  obtain rfl := Located.eq_of_offset hlines hj hl hoffset
  exact ⟨k, hl, hreaches⟩

theorem At.depth_eq (hlines : Located.ofCode bytes = .ok lines) {p d d' : Nat} (h : D.At lines p d)
    (h' : D.At lines p d') : d = d' := by
  obtain ⟨k, i, hi, rfl, hreaches⟩ := h
  obtain ⟨l, hl, hreaches'⟩ := h'.line hlines (List.mem_of_getElem? hi)
  obtain rfl := Located.eq_of_offset hlines hi hl rfl
  exact Option.some.inj (Option.some.inj (hreaches.symm.trans hreaches'))

/-- Wherever control can go from an instruction that is settled, an instruction is known to
be reached. -/
theorem Settled.flow (hlines : Located.ofCode bytes = .ok lines) (hi : lines[k]? = some i)
    (h : Settled lines.toArray maxStack D k d) {t d' : Nat} (hflow : i.Flow d t d') : D.At lines t d' := by
  obtain ⟨j, after, next, hj, hafter, hnext, hreaches⟩ := h
  rw [List.getElem?_toArray, hi] at hj
  obtain rfl := Option.some.inj hj
  obtain ⟨-, rfl, -⟩ := depthAfter_eq_ok hafter
  exact at_of_starts (starts_of_flow hlines hi hnext hflow) hreaches

/-- Where everything is settled, control can only get to what is known to be reached. -/
theorem at_of_reached (hlines : Located.ofCode bytes = .ok lines) (hentry : D.At lines 0 0)
    (hsettled : ∀ {k d}, D.Reaches k d → Settled lines.toArray maxStack D k d) {t : Nat}
    (h : Located.Reached lines t) : ∃ d, D.At lines t d := by
  induction h with
  | entry => exact ⟨0, hentry⟩
  | flow _ hmem hflow ih =>
    obtain ⟨d, hat⟩ := ih
    obtain ⟨k, hk, hreaches⟩ := hat.line hlines hmem
    obtain ⟨d', hflow⟩ := hflow.from d
    exact ⟨d', (hsettled hreaches).flow hlines hk hflow⟩

/-- What the search finds is sound. -/
theorem sound_of_settled (hlines : Located.ofCode bytes = .ok lines)
    (hsettled : ∀ {k d}, D.Reaches k d → Settled lines.toArray maxStack D k d)
    (hdepth : ∀ p d, D.At lines p d → depth p = d) (hi : i ∈ lines) (h : D.At lines i.offset d) :
    i.Sound lines maxStack depth := by
  obtain ⟨k, hk, hreaches⟩ := h.line hlines hi
  obtain rfl := hdepth _ _ h
  obtain ⟨j, after, next, hj, hafter, hnext, -⟩ := hsettled hreaches
  rw [List.getElem?_toArray, hk] at hj
  obtain rfl := Option.some.inj hj
  obtain ⟨hpops, rfl, hbehind, hle⟩ := depthAfter_eq_ok hafter
  refine ⟨hpops, hle, hbehind, fun t d hflow => ?_, fun c f hinstr htargets => ?_⟩
  · have hat := (hsettled hreaches).flow hlines hk hflow
    have ⟨l, j, hj, hoffset, _⟩ := hat
    exact ⟨⟨j, List.mem_of_getElem? hj, hoffset⟩, hdepth _ _ hat⟩
  · simp only [Located.handlerTargets, hinstr, Prod.mk.injEq] at htargets
    exact (starts_handlers hinstr hnext).2.2 htargets

/-! ### What the search cannot miss -/

/-- An instruction that control can get to, with the depth that is assigned to it. -/
def Permits (lines : List Located) (depth : Nat → Nat) (k d : Nat) : Prop :=
  ∃ i, lines[k]? = some i ∧ Located.Reached lines i.offset ∧ depth i.offset = d

/-- The search knows nothing but what is assigned. -/
def Keeps (lines : List Located) (depth : Nat → Nat) (s : Depths) : Prop :=
  ∀ {k d}, s.Reaches k d → Permits lines depth k d

theorem Permits.depth_eq {d' : Nat} (h : Permits lines depth k d) (h' : Permits lines depth k d') :
    d = d' := by
  obtain ⟨i, hi, -, rfl⟩ := h
  obtain ⟨j, hj, -, rfl⟩ := h'
  rw [Option.some.inj (hi.symm.trans hj)]

theorem Keeps.visit (code : Array Located) (hs : Keeps lines depth s)
    (ha : Permits lines depth a.position a.depth) :
    ∃ s', visit code s a = .ok s' ∧ Keeps lines depth s' := by
  unfold Depths.visit
  split
  · rename_i known hknown
    rw [if_neg fun hne => hne ((hs hknown).depth_eq ha)]
    exact ⟨s, rfl, hs⟩
  · refine ⟨_, rfl, fun {k d} hk => ?_⟩
    rw [Reaches, Array.getElem?_setIfInBounds] at hk
    split at hk
    · rename_i heq
      subst heq
      split at hk
      · cases hk
        exact ha
      · cases hk
    · exact hs hk
  · exact ⟨s, rfl, hs⟩

theorem Keeps.visitAll (code : Array Located) : ∀ {as : List Arrival} {s : Depths}, Keeps lines depth s →
    (∀ a ∈ as, Permits lines depth a.position a.depth) →
    ∃ s', visitAll code s as = .ok s' ∧ Keeps lines depth s'
  | [], s, hs, _ => ⟨s, rfl, hs⟩
  | a :: as, s, hs, has => by
    obtain ⟨s', hvisit, hs'⟩ := hs.visit code (has a List.mem_cons_self)
    obtain ⟨s'', hvisitAll, hs''⟩ := hs'.visitAll code fun b hb => has b (List.mem_cons_of_mem _ hb)
    exact ⟨s'', by rw [Depths.visitAll, hvisit]; exact hvisitAll, hs''⟩

theorem depthAfter_of_sound (h : i.Sound lines maxStack depth) :
    depthAfter i (depth i.offset) maxStack = .ok (i.depthBehind (depth i.offset)) := by
  have hpops := h.pops_le
  have hle := h.depth_le
  have hbehind := h.behind_le
  unfold Located.depthBehind at hbehind
  unfold depthAfter
  simp only
  rw [if_neg (by omega), if_neg (by omega)]
  rfl

/-- Where every instruction that control can get to is sound, the successors of one that is
taken up can be visited. -/
theorem Keeps.advance (hlines : Located.ofCode bytes = .ok lines)
    (hsound : ∀ i ∈ lines, Located.Reached lines i.offset → i.Sound lines maxStack depth)
    (hs : Keeps lines depth s) (hk : s.Reaches k d) (pending : List Nat) :
    ∃ s', advance lines.toArray maxStack ⟨s.depth, pending⟩ k = .ok s' ∧ Keeps lines depth s' := by
  obtain ⟨i, hi, hreached, rfl⟩ := hs hk
  have hmem := List.mem_of_getElem? hi
  have hi' := hsound i hmem hreached
  obtain ⟨next, hnext⟩ := successors_of_flows hlines hi (fun t d hflow => (hi'.flows t d hflow).1)
    hi'.handled
  have hs' : Keeps lines depth ⟨s.depth, pending⟩ := hs
  have hpermits : ∀ a ∈ next, Permits lines depth a.position a.depth := fun a ha => by
    obtain ⟨j, hj, hflow⟩ := arrives_of_successors hlines hi hnext a ha
    exact ⟨j, hj, .flow hreached hmem hflow, (hi'.flows _ _ hflow).2⟩
  obtain ⟨s', hvisit, hs''⟩ := hs'.visitAll lines.toArray hpermits
  refine ⟨s', ?_, hs''⟩
  unfold Depths.advance
  rw [List.getElem?_toArray, hi]
  simp only [show s.depth[k]? = some (some (depth i.offset)) from hk, Option.getD_some]
  exact except_bind_eq_ok.mpr ⟨_, depthAfter_of_sound hi', except_bind_eq_ok.mpr ⟨next, hnext, hvisit⟩⟩

/-- No order of taking up pending instructions makes the search fail. -/
theorem Ends.ok_of_sound (h : Ends lines.toArray maxStack s r) (hlines : Located.ofCode bytes = .ok lines)
    (hsound : ∀ i ∈ lines, Located.Reached lines i.offset → i.Sound lines maxStack depth)
    (hs : Keeps lines depth s) (hunderway : Underway lines.toArray maxStack s) : ∃ D, r = .ok D := by
  have htaken {s : Depths} {r : Except VerifyError Depths} (hs : Keeps lines depth s)
      (hunderway : Underway lines.toArray maxStack s) (h : Takes lines.toArray maxStack s r) :
      ∃ s', r = .ok s' ∧ Keeps lines depth s' := by
    obtain ⟨l, k, rest, hp, rfl⟩ := h
    obtain ⟨d, hk⟩ := hunderway.reached k (by rw [hp]; simp)
    exact hs.advance hlines hsound hk _
  induction h with
  | done => exact ⟨_, rfl⟩
  | fails htakes =>
    obtain ⟨s', hr, -⟩ := htaken hs hunderway htakes
    cases hr
  | goesOn htakes _ ih =>
    obtain ⟨s', hr, hs'⟩ := htaken hs hunderway htakes
    obtain rfl := Except.ok.inj hr
    exact ih hs' (hunderway.takes htakes).1

end

end Depths

/-! ### Verification -/

namespace Function

variable {f : Function} {constants : ConstantPool} {lines : List Located} {r : Except VerifyError Depths}

theorem Splits.entry (h : f.Splits constants lines) :
    ∃ first rest, lines = first :: rest ∧ first.offset = 0 := by
  obtain ⟨last, hlast, -⟩ := h.ends
  cases lines with
  | nil => cases hlast
  | cons first rest => exact ⟨first, rest, rfl, (Located.ofCodeFrom_cons h.decoded).1⟩

theorem Splits.underway (h : f.Splits constants lines) :
    Depths.Underway lines.toArray f.maxStack (.initial lines.length) := by
  obtain ⟨first, rest, rfl, -⟩ := h.entry
  have hinitial : Depths.Underway (first :: rest).toArray f.maxStack
      (.initial (first :: rest).toArray.size) := .initial (Nat.succ_pos _)
  exact hinitial

theorem Splits.keeps (h : f.Splits constants lines) {depth : Nat → Nat} (hentry : depth 0 = 0) :
    Depths.Keeps lines depth (.initial lines.length) := by
  obtain ⟨first, rest, rfl, hoffset⟩ := h.entry
  intro k d hk
  rw [Depths.Reaches, Depths.initial, Array.getElem?_setIfInBounds] at hk
  split at hk
  · rename_i hzero
    subst hzero
    simp only [List.length_cons, Array.size_replicate, Nat.succ_pos, ↓reduceIte, Option.some.injEq] at hk
    exact ⟨first, rfl, by rw [hoffset]; exact .entry, by rw [hoffset, hentry, hk]⟩
  · rw [Array.getElem?_replicate] at hk
    split at hk <;> cases hk

/-- However the search for depths goes, it ends well just if the function is fit to run. -/
theorem Splits.fit_iff (h : f.Splits constants lines)
    (hends : Depths.Ends lines.toArray f.maxStack (.initial lines.length) r) :
    (∃ D, r = .ok D) ↔ f.Fit constants := by
  constructor
  · rintro ⟨D, rfl⟩
    obtain ⟨hsettled, hmore⟩ := hends.settled h.underway
    obtain ⟨first, rest, hfirst, hoffset⟩ := h.entry
    have hentry : D.At lines 0 0 := by
      refine ⟨0, first, by rw [hfirst]; rfl, hoffset, hmore ?_⟩
      simp [Depths.Reaches, Depths.initial, hfirst]
    obtain ⟨depth, hdepth⟩ := exists_assignment fun p d d' (hd : D.At lines p d) hd' =>
      hd.depth_eq h.decoded hd'
    refine ⟨lines, h, depth, hdepth _ _ hentry, fun i hi hreached => ?_⟩
    obtain ⟨d, hat⟩ := Depths.at_of_reached h.decoded hentry hsettled hreached
    exact Depths.sound_of_settled h.decoded hsettled hdepth hi hat
  · rintro ⟨lines', h', depth, hentry, hsound⟩
    obtain rfl := Except.ok.inj (h'.decoded.symm.trans h.decoded)
    exact hends.ok_of_sound h.decoded hsound (h.keeps hentry) h.underway

theorem checkEnd_eq_ok : checkEnd lines = .ok () ↔
    ∃ last, lines.getLast? = some last ∧ last.instr.opcode.isTerminator = true := by
  unfold checkEnd
  split
  · rename_i hlast
    simp [hlast]
  · rename_i last hlast
    simp only [hlast, Option.some.injEq, exists_eq_left']
    split <;> simp_all

theorem readable_eq_ok : f.readable = .ok lines ↔ Located.ofCode f.code = .ok lines := by
  unfold readable
  cases Located.ofCode f.code with
  | ok lines' => exact ⟨fun h => by cases h; rfl, fun h => by cases h; rfl⟩
  | error e => exact ⟨fun h => (by cases h), fun h => (by cases h)⟩

/-- Verification is to split the code and search for its depths. -/
theorem verify_eq_ok : f.verify constants = .ok () ↔ ∃ lines, f.Splits constants lines ∧
    ∃ D, Depths.explore lines.toArray f.maxStack (.initial lines.length) = .ok D := by
  constructor
  · intro h
    obtain ⟨D, hD, -⟩ := except_bind_eq_ok.mp h
    obtain ⟨lines, hlines, h⟩ := except_bind_eq_ok.mp hD
    obtain ⟨_, hend, h⟩ := except_bind_eq_ok.mp h
    obtain ⟨_, hoperands, h⟩ := except_bind_eq_ok.mp h
    exact ⟨lines, ⟨readable_eq_ok.mp hlines, checkEnd_eq_ok.mp hend, checkOperands_eq_ok.mp hoperands⟩,
      D, h⟩
  · rintro ⟨lines, h, D, hD⟩
    refine except_bind_eq_ok.mpr ⟨D, ?_, rfl⟩
    exact except_bind_eq_ok.mpr ⟨lines, readable_eq_ok.mpr h.decoded, except_bind_eq_ok.mpr
      ⟨(), checkEnd_eq_ok.mpr h.ends, except_bind_eq_ok.mpr ⟨(), checkOperands_eq_ok.mpr h.inRange, hD⟩⟩⟩

theorem verify_eq_ok_iff_fit : f.verify constants = .ok () ↔ f.Fit constants := by
  rw [verify_eq_ok]
  constructor
  · rintro ⟨lines, h, hD⟩
    exact (h.fit_iff Depths.explore_ends).mp hD
  · intro hfit
    have ⟨lines, h, _⟩ := hfit
    exact ⟨lines, h, (h.fit_iff Depths.explore_ends).mpr hfit⟩

/-- Verification accepts a function just if it is fit to run. In whichever order the search
takes up pending instructions, it comes to an end, and to the same verdict. -/
theorem verify_iff (f : Function) (constants : ConstantPool) :
    (f.verify constants = .ok () ↔ f.Fit constants) ∧
    (∀ code maxStack, WellFounded fun s' s => Depths.Takes code maxStack s (.ok s')) ∧
    ∀ lines, f.Splits constants lines → ∀ r,
      Depths.Ends lines.toArray f.maxStack (.initial lines.length) r →
        ((∃ D, r = .ok D) ↔ f.Fit constants) :=
  ⟨verify_eq_ok_iff_fit, Depths.takes_wellFounded, fun _ h _ hends => h.fit_iff hends⟩

end Function
end ResourceMachine
