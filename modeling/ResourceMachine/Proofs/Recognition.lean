/-
# Telling what an instruction is for

Exceptions are raised by a `THROW` that is compiled from a statement, and pass a
`THROW` that belongs to the way out of a region; a value is to be returned by the
`SET_RVAL` of a statement, and the one at the end of a pass only gives the return
slot its value back. The instructions around them tell which is which, in code that
was compiled.

Key theorems: `throwsAgain_of_jump`, `throwsAgain_of_close`, `Expr.Laid.throws_first`,
`restoresRval_of_jump`, `Target.LeavesFrom.returns`.
-/
import ResourceMachine.Proofs.Layout

namespace ResourceMachine

variable {code : Bytes} {p q : Nat} {i : Instr}

/-! ### Instructions and bytes -/

theorem Instr.standsBefore_iff :
    standsBefore code p i = true ↔ i.size ≤ p ∧ code.Has (p - i.size) i := by
  unfold standsBefore
  rw [Bool.and_eq_true, decide_eq_true_iff]
  refine and_congr_right fun _ => ⟨fun h => ?_, fun h => ?_⟩
  · split at h
    next j hj =>
      obtain rfl := eq_of_beq h
      exact Bytes.Has.of_readAt hj
    · cases h
  · rw [h.readAt]
    exact beq_self_eq_true i

/-- An instruction starts with its opcode. -/
theorem Bytes.Has.first (h : code.Has p i) : code[p]? = some i.opcode.byte := by
  have := Bytes.Holds.left h 0 (Nat.one_pos)
  rwa [Nat.add_zero] at this

theorem Bytes.Has.operand {k : Nat} (h : code.Has p i) (hk : k < i.operandBytes.size) :
    code[p + 1 + k]? = i.operandBytes[k]? := h.operands k hk

/-- One instruction stands at an offset. -/
theorem Bytes.Has.unique {j : Instr} (h : code.Has p i) (h' : code.Has p j) : i = j :=
  Except.ok.inj (h.readAt.symm.trans h'.readAt)

/-! ### What is thrown again -/

theorem throwsAgain_of_jump (h : code.Has p (.jmpIfFalse 1)) : throwsAgain code (p + 5) = true := by
  unfold throwsAgain
  rw [Bool.or_eq_true]
  exact .inl (Instr.standsBefore_iff.mpr ⟨Nat.le_add_left 5 p, h⟩)

/-- What closing an iterator throws gives way to what is pending. -/
theorem throwsAgain_of_close (hswap : code.Has p .swap) (hclose : code.Has (p + 1) (.iterClose 1))
    (hi : code.Has (p - 2) i) (hsize : i.opcode.operandSize ≠ 4) : throwsAgain code (p + 3) = true := by
  have hswap' : Instr.standsBefore code (p + 1) .swap = true :=
    Instr.standsBefore_iff.mpr ⟨Nat.le_add_left 1 p, hswap⟩
  have hclose' : Instr.standsBefore code (p + 3) (.iterClose 1) = true :=
    Instr.standsBefore_iff.mpr ⟨Nat.le_add_left 2 (p + 1), hclose⟩
  unfold throwsAgain
  rw [show p + 3 - 5 = p - 2 by omega, hi.readAt, show p + 3 - 2 = p + 1 by omega, hswap', hclose']
  cases i <;> first | exact absurd rfl hsize | simp

theorem throwsAgain_cases (h : throwsAgain code p = true) :
    (5 ≤ p ∧ code.Has (p - 5) (.jmpIfFalse 1)) ∨
      (3 ≤ p ∧ code.Has (p - 3) .swap ∧ code.Has (p - 2) (.iterClose 1) ∧
        ∀ i, code.Has (p - 5) i →
          i.opcode ≠ .constI32 ∧ i.opcode ≠ .constStr ∧ i.opcode ≠ .loadGlobal) := by
  unfold throwsAgain at h
  rcases Bool.or_eq_true_iff.mp h with h | h
  · exact .inl (Instr.standsBefore_iff.mp h)
  · refine .inr ?_
    have hnot : ∀ i, code.Has (p - 5) i →
        i.opcode ≠ .constI32 ∧ i.opcode ≠ .constStr ∧ i.opcode ≠ .loadGlobal := by
      intro i hi
      rw [hi.readAt] at h
      cases i <;> first | cases h | exact ⟨nofun, nofun, nofun⟩
    have hboth : (Instr.standsBefore code (p - 2) .swap &&
        Instr.standsBefore code p (.iterClose 1)) = true := by
      split at h <;> first | cases h | exact h
    obtain ⟨hswap, hclose⟩ := Bool.and_eq_true_iff.mp hboth
    obtain ⟨hle, hswap⟩ := Instr.standsBefore_iff.mp hswap
    have hle' : 1 ≤ p - 2 := hle
    refine ⟨by omega, ?_, (Instr.standsBefore_iff.mp hclose).2, hnot⟩
    rwa [show p - 3 = p - 2 - 1 by omega]

/-! ### What is thrown first -/

/-- Whether an instruction can be the last of an expression. -/
def Instr.endsExpr : Instr → Bool
  | constUndefined | constNull | constTrue | constFalse | constI32 _ | constStr _ | loadLocal _
  | loadGlobal _ | call _ | await | yield => true
  | _ => false

section

variable {t : Target} {scope : Scope} {d d' : Nat}

/-- What stands at the end of straight code. -/
theorem Target.Line.ends (h : t.Line d p [i] d' q) (hi : i.endsExpr = true) :
    ∃ m j, Instr.endsExpr j = true ∧ t.code.Has m j ∧ q = m + j.size := by
  obtain ⟨hhas, -, -, -, rfl⟩ := h
  exact ⟨p, i, hi, hhas, rfl⟩

theorem Expr.Laid.last : ∀ {e : Expr}, e.Laid t scope d p q →
    ∃ m i, Instr.endsExpr i = true ∧ t.code.Has m i ∧ q = m + i.size
  | .undefined, h | .null, h | .bool true, h | .bool false, h | .int _, h => Target.Line.ends h rfl
  | .str _, ⟨_, _, hline⟩ | .binding _, ⟨_, _, hline⟩ | .global _, ⟨_, _, hline⟩ => hline.ends rfl
  | .call _ _, ⟨_, _, _, _, _, _, _, hline⟩ => hline.ends rfl
  | .await _, ⟨_, _, _, hline⟩ | .yield _, ⟨_, _, _, hline⟩ => hline.ends rfl

theorem Instr.size_of_endsExpr (h : i.endsExpr = true) :
    i.size = 1 ∨ i.size = 2 ∨ i.size = 3 ∨
      i.opcode = .constI32 ∨ i.opcode = .constStr ∨ i.opcode = .loadGlobal := by
  cases i <;>
    first
    | exact absurd h Bool.false_ne_true
    | simp [size, opcode, Opcode.operandSize]

theorem Instr.byte_of_endsExpr (h : i.endsExpr = true) :
    i.opcode.byte ≠ 0 ∧ i.opcode.byte ≠ 1 := by
  cases i <;>
    first
    | exact absurd h Bool.false_ne_true
    | exact ⟨by simp [opcode, Opcode.byte], by simp [opcode, Opcode.byte]⟩

/-- What stands behind an expression is not thrown again, but raised. -/
theorem Expr.Laid.throws_first {e : Expr} (h : e.Laid t scope d p q) :
    throwsAgain t.code q = false := by
  obtain ⟨m, i, hends, hi, rfl⟩ := h.last
  obtain ⟨hzero, hone⟩ := Instr.byte_of_endsExpr hends
  rw [Bool.eq_false_iff]
  intro hagain
  rcases throwsAgain_cases hagain with ⟨hle, hjump⟩ | ⟨hle, hswap, hclose, hnot⟩
  · have hbytes : ∀ k, k = 1 ∨ k = 2 ∨ k = 3 → m = m + i.size - 5 + 1 + k → False := by
      intro k hk hm
      have hbyte : t.code[m + i.size - 5 + 1 + k]? = some 0 := by
        rcases hk with rfl | rfl | rfl <;> exact hjump.operand (by decide)
      rw [← hm, hi.first] at hbyte
      exact hzero (Option.some.inj hbyte)
    rcases Instr.size_of_endsExpr hends with hsize | hsize | hsize | hop | hop | hop
    · exact hbytes 3 (by simp) (by omega)
    · exact hbytes 2 (by simp) (by omega)
    · exact hbytes 1 (by simp) (by omega)
    all_goals
      have hsize : i.size = 5 := by rw [Instr.size, hop]; rfl
      rw [hsize, Nat.add_sub_cancel] at hjump
      rw [hi.unique hjump] at hop
      cases hop
  · rcases Instr.size_of_endsExpr hends with hsize | hsize | hsize | hop | hop | hop
    · have hbyte : t.code[m + i.size - 2 + 1 + 0]? = some 1 := hclose.operand (by decide)
      rw [show m + i.size - 2 + 1 + 0 = m by omega, hi.first] at hbyte
      exact hone (Option.some.inj hbyte)
    · rw [hsize, Nat.add_sub_cancel] at hclose
      rw [hi.unique hclose] at hends
      cases hends
    · rw [hsize, Nat.add_sub_cancel] at hswap
      rw [hi.unique hswap] at hends
      cases hends
    all_goals
      have hsize : i.size = 5 := by rw [Instr.size, hop]; rfl
      rw [hsize, Nat.add_sub_cancel] at hnot
      have := hnot i hi
      simp [hop] at this

/-! ### What is thrown again, in compiled code -/

/-- A jump over one instruction of one byte. -/
theorem Target.Jump.over_one (h : t.Jump .ifFalse p (p + 6)) : t.code.Has p (.jmpIfFalse 1) := by
  obtain ⟨distance, hhas, htarget⟩ := h
  simp only [Exec.target] at htarget
  split at htarget
  · cases htarget
  · have hone : distance = 1 := by
      have := Except.ok.inj htarget
      apply Int32.toInt.inj
      rw [show (1 : Int32).toInt = 1 from rfl]
      omega
    rwa [hone] at hhas

theorem Target.ThrowIfException.throwsAgain (h : t.ThrowIfException d p q) :
    throwsAgain t.code (p + 5) = true := throwsAgain_of_jump h.1.over_one

/-! ### What is returned -/

theorem restoresRval_of_jump {distance : Int32} (h : code.Has (p + 1) (.jmpIfFalse distance)) :
    restoresRval code p = true := by
  rw [restoresRval, h.readAt]

theorem restoresRval_of_pop (h : code.Has (p + 1) .pop) : restoresRval code p = true := by
  rw [restoresRval, h.readAt]

/-- Whether an instruction can be the first on a way out of the function. -/
def Instr.startsExit : Instr → Bool
  | getRval | constUndefined | endTry | iterClose _ | retRval => true
  | _ => false

theorem restoresRval_of_startsExit (h : code.Has (p + 1) i) (hi : i.startsExit = true) :
    restoresRval code p = false := by
  rw [restoresRval, h.readAt]
  cases i <;> first | exact absurd hi Bool.false_ne_true | rfl

/-- The first instruction of a pass that nothing caused. -/
theorem Target.Leave.first {awaits : Bool} (h : t.Leave scope awaits d p q) :
    ∃ i, Instr.startsExit i = true ∧ t.code.Has p i := by
  obtain ⟨s, m, -, ⟨m₁, m₂, ⟨m₃, m₄, hflags, hseed, -⟩, -⟩, -⟩ := h
  cases awaits with
  | true => exact ⟨_, rfl, hflags.1⟩
  | false =>
    obtain ⟨-, rfl⟩ := hflags
    exact ⟨_, rfl, hseed.1⟩

/-- A value that is set to be returned is returned by the code behind it. -/
theorem Target.Leaving.first {v : Value} : ∀ {rs : List Shape} {d p q : Nat},
    t.Leaving scope rs (.ret v) d p q → ∃ i, Instr.startsExit i = true ∧ t.code.Has p i
  | [], _, _, _, ⟨_, hline⟩ => ⟨_, rfl, hline.1⟩
  | .disposable _ _ :: _, _, _, _, ⟨_, _, ⟨_, hleave, _⟩, _⟩ => hleave.first
  | .iteration (some _) :: _, _, _, _, ⟨_, _, ⟨_, hleave, _⟩, _⟩ => hleave.first
  | .tryCatch :: _, _, _, _, ⟨_, _, hline, _⟩ => ⟨_, rfl, hline.1⟩
  | .iteration none :: _, _, _, _, ⟨_, _, hline, _⟩ => ⟨_, rfl, hline.1⟩
  | .loop _ true _ _ :: _, _, _, _, ⟨_, _, hline, _⟩ => ⟨_, rfl, hline.1⟩
  | .loop _ false _ _ :: rs, _, _, _, ⟨_, _, ⟨_, rfl⟩, hrest⟩ =>
    (Leaving.first : t.Leaving scope rs (.ret v) _ _ _ → _) hrest

theorem Target.LeavesFrom.returns {rs : List Shape} {v : Value}
    (h : t.LeavesFrom scope rs (.ret v) d (p + 1)) : restoresRval t.code p = false := by
  obtain ⟨q, h⟩ := h
  obtain ⟨i, hstarts, hi⟩ := h.first
  exact restoresRval_of_startsExit hi hstarts

end

end ResourceMachine
