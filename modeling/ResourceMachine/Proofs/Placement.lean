/-
# Where code holds instructions

A code holds bytes at an offset if they stand there one after the other. Where
it holds the bytes of an instruction, that instruction is read and executed.

Key definitions: `Bytes.Holds`, `Bytes.Has`.
Key theorems: `Bytes.Has.readAt`, `Activation.step_of_has`.
-/
import ResourceMachine.Machine.Run
import ResourceMachine.Proofs.Computation

namespace ResourceMachine
namespace Bytes

/-- What is made of a result, was made of one. -/
theorem map_eq_ok {ε α β : Type} {f : α → β} {x : Except ε α} {b : β} :
    f <$> x = .ok b ↔ ∃ a, x = .ok a ∧ f a = b := by
  cases x <;> simp [Functor.map, Except.map]

/-- The bytes `bs` stand from `pos` on. -/
def Holds (code : Bytes) (pos : Nat) (bs : Bytes) : Prop :=
  ∀ j, j < bs.size → code[pos + j]? = bs[j]?

/-- The instruction `i` stands at `pos`. -/
def Has (code : Bytes) (pos : Nat) (i : Instr) : Prop := code.Holds pos i.encode

namespace Holds

variable {code bs bs' : Bytes} {pos : Nat}

theorem left (h : code.Holds pos (bs ++ bs')) : code.Holds pos bs := fun j hj => by
  rw [h j (by rw [Array.size_append]; omega), Array.getElem?_append_left hj]

theorem right (h : code.Holds pos (bs ++ bs')) : code.Holds (pos + bs.size) bs' := fun j hj => by
  rw [Nat.add_assoc, h (bs.size + j) (by rw [Array.size_append]; omega),
    Array.getElem?_append_right (by omega), Nat.add_sub_cancel_left]

theorem append (h : code.Holds pos bs) (h' : code.Holds (pos + bs.size) bs') :
    code.Holds pos (bs ++ bs') := fun j hj => by
  rw [Array.size_append] at hj
  by_cases hlt : j < bs.size
  · rw [h j hlt, Array.getElem?_append_left hlt]
  · have := h' (j - bs.size) (by omega)
    rw [Nat.add_assoc, Nat.add_sub_cancel' (by omega)] at this
    rw [this, Array.getElem?_append_right (by omega)]

theorem le_size (h : code.Holds pos bs) (hbs : 0 < bs.size) : pos + bs.size ≤ code.size := by
  have hlast := h (bs.size - 1) (by omega)
  have hsome : bs[bs.size - 1]? = some bs[bs.size - 1] := Array.getElem?_eq_getElem (by omega)
  have := (Array.getElem?_eq_some_iff.mp (hlast.trans hsome)).1
  omega

theorem sliceAt (h : code.Holds pos bs) (hbs : 0 < bs.size) :
    code.sliceAt bs.size pos = .ok bs := by
  have hsize := h.le_size hbs
  rw [Bytes.sliceAt, if_neg (by omega)]
  congr 1
  apply Array.ext_getElem?
  intro j
  by_cases hj : j < bs.size
  · rw [Array.getElem?_extract_of_lt (by omega), ← h j hj, Array.getElem?_eq_getElem]
  · rw [Array.getElem?_eq_none (by rw [Array.size_extract]; omega), Array.getElem?_eq_none (by omega)]

theorem byteAt {b : UInt8} (h : code.Holds pos #[b]) : code.byteAt pos = .ok b := by
  have := h.sliceAt (by simp)
  simp [Bytes.byteAt, numberAt, show code.sliceAt 1 pos = .ok #[b] from this, ofLittleEndian,
    Functor.map, Except.map]

theorem halfWordAt {n : UInt16} (h : code.Holds pos (halfWord n)) :
    code.halfWordAt pos = .ok n := by
  have hsize : (halfWord n).size = 2 := by simp [halfWord, length_littleEndian]
  have := h.sliceAt (by omega)
  rw [hsize] at this
  simp [Bytes.halfWordAt, numberAt, this, halfWord, ofLittleEndian_littleEndian,
    Nat.mod_eq_of_lt n.toNat_lt, Functor.map, Except.map]

theorem wordAt {n : UInt32} (h : code.Holds pos (word n)) : code.wordAt pos = .ok n := by
  have hsize : (word n).size = 4 := by simp [word, length_littleEndian]
  have := h.sliceAt (by omega)
  rw [hsize] at this
  simp [Bytes.wordAt, numberAt, this, word, ofLittleEndian_littleEndian,
    Nat.mod_eq_of_lt n.toNat_lt, Functor.map, Except.map]

theorem signedWordAt {n : Int32} (h : code.Holds pos (signedWord n)) :
    code.signedWordAt pos = .ok n := by
  simp [Bytes.signedWordAt, h.wordAt, Functor.map, Except.map]

end Holds

namespace Has

variable {code : Bytes} {pos : Nat} {i : Instr}

/-- The operand bytes stand behind the opcode byte. -/
theorem operands (h : code.Has pos i) : code.Holds (pos + 1) i.operandBytes :=
  Holds.right h

theorem opcodeAt (h : code.Has pos i) : Instr.opcodeAt code pos = .ok i.opcode := by
  have hbyte := (Holds.left h).byteAt
  simp [Instr.opcodeAt, hbyte, bind, Except.bind, Opcode.ofByte?_byte]

theorem ofOperandsAt (h : code.Has pos i) :
    Instr.ofOperandsAt code (pos + 1) i.opcode = .ok i := by
  have hops := h.operands
  cases i
  case tryStart c f =>
    have hsize : (signedWord c).size = 4 := by simp [signedWord, word, length_littleEndian]
    have hf := hops.right.signedWordAt
    rw [hsize] at hf
    exact except_bind_eq_ok.mpr ⟨c, hops.left.signedWordAt, except_bind_eq_ok.mpr ⟨f, hf, rfl⟩⟩
  case constI32 | jmp | jmpIfFalse | jmpIfTrue =>
    exact map_eq_ok.mpr ⟨_, hops.signedWordAt, rfl⟩
  case constStr | loadGlobal => exact map_eq_ok.mpr ⟨_, hops.wordAt, rfl⟩
  case loadLocal | storeLocal => exact map_eq_ok.mpr ⟨_, hops.halfWordAt, rfl⟩
  case popN | dupAt | pick | unpick | call | iterClose | addDisposable | resourceField
      | chainDisposeError =>
    exact map_eq_ok.mpr ⟨_, hops.byteAt, rfl⟩
  all_goals rfl

/-- An instruction is read where it stands. -/
theorem readAt (h : code.Has pos i) : Instr.readAt code pos = .ok i := by
  simp [Instr.readAt, h.opcodeAt, h.ofOperandsAt, bind, Except.bind]

theorem next_le_size (h : code.Has pos i) : pos + i.size ≤ code.size := by
  have hsize := Instr.size_encode i
  have := Holds.le_size h (by rw [hsize, Instr.size]; omega)
  omega

end Has
end Bytes

namespace Instr

/-- Operands are read for the opcode of the instruction that they make. -/
theorem opcode_ofOperandsAt {code : Bytes} {pos : Nat} {op : Opcode} {i : Instr}
    (h : ofOperandsAt code pos op = .ok i) : i.opcode = op := by
  cases op
  case tryStart =>
    obtain ⟨c, -, h⟩ := except_bind_eq_ok.mp h
    obtain ⟨f, -, h⟩ := except_bind_eq_ok.mp h
    cases h
    rfl
  case constI32 | jmp | jmpIfFalse | jmpIfTrue | constStr | loadGlobal | loadLocal | storeLocal
      | popN | dupAt | pick | unpick | call | iterClose | addDisposable | resourceField
      | chainDisposeError =>
    obtain ⟨_, -, rfl⟩ := Bytes.map_eq_ok.mp h
    rfl
  all_goals
    cases h
    rfl

theorem byteAt_of_readAt_resourceField {code : Bytes} {pos : Nat} {b : UInt8}
    (h : readAt code pos = .ok (.resourceField b)) : code.byteAt (pos + 1) = .ok b := by
  obtain ⟨op, -, hread⟩ := except_bind_eq_ok.mp h
  obtain rfl : Opcode.resourceField = op := opcode_ofOperandsAt hread
  obtain ⟨b', hb, hfield⟩ := Bytes.map_eq_ok.mp hread
  cases hfield
  exact hb

/-- A byte is a number of 32 bits. -/
theorem operand_byte (n : UInt8) : ((n.toNat : Int) % 4294967296).toNat = n.toNat := by
  have := n.toNat_lt
  omega

theorem stackEffect_call (argc : UInt8) : (call argc).stackEffect = ⟨argc.toNat + 2, 1⟩ := by
  simp only [stackEffect, opcode, Opcode.stackEffect, operand, operands, List.headD_cons,
    operand_byte]

end Instr

/-! ### What is read stands where it is read -/

namespace Bytes

namespace Holds

variable {code bs : Bytes} {pos n : Nat}

theorem of_sliceAt (h : code.sliceAt n pos = .ok bs) : bs.size = n ∧ code.Holds pos bs := by
  unfold Bytes.sliceAt at h
  split at h
  · cases h
  · cases h
    rw [Array.size_extract]
    refine ⟨by omega, fun j hj => ?_⟩
    rw [Array.size_extract] at hj
    rw [Array.getElem?_extract_of_lt (by omega)]
    exact Array.getElem?_eq_getElem (by omega)

/-- The bytes of a number that is read stand where it is read. -/
theorem of_numberAt {k : Nat} (h : code.numberAt n pos = .ok k) :
    k < Nat.pow 256 n ∧ code.Holds pos (littleEndian n k).toArray := by
  obtain ⟨bs, hslice, rfl⟩ := map_eq_ok.mp h
  obtain ⟨rfl, hholds⟩ := of_sliceAt hslice
  refine ⟨ofLittleEndian_lt bs.toList, ?_⟩
  have := littleEndian_ofLittleEndian bs.toList
  rw [Array.length_toList] at this
  rwa [this]

theorem of_byteAt {b : UInt8} (h : code.byteAt pos = .ok b) : code.Holds pos #[b] := by
  obtain ⟨k, hnumber, rfl⟩ := map_eq_ok.mp h
  exact (of_numberAt hnumber).2

theorem of_halfWordAt {w : UInt16} (h : code.halfWordAt pos = .ok w) :
    code.Holds pos (halfWord w) := by
  obtain ⟨k, hnumber, rfl⟩ := map_eq_ok.mp h
  obtain ⟨hlt, hholds⟩ := of_numberAt hnumber
  rwa [halfWord, UInt16.toNat_ofNat_of_lt' hlt]

theorem of_wordAt {w : UInt32} (h : code.wordAt pos = .ok w) : code.Holds pos (word w) := by
  obtain ⟨k, hnumber, rfl⟩ := map_eq_ok.mp h
  obtain ⟨hlt, hholds⟩ := of_numberAt hnumber
  rwa [word, UInt32.toNat_ofNat_of_lt' hlt]

theorem of_signedWordAt {w : Int32} (h : code.signedWordAt pos = .ok w) :
    code.Holds pos (signedWord w) := by
  obtain ⟨k, hword, rfl⟩ := map_eq_ok.mp h
  exact of_wordAt hword

theorem of_opcodeAt {op : Opcode} (h : Instr.opcodeAt code pos = .ok op) :
    code.Holds pos #[op.byte] := by
  unfold Instr.opcodeAt at h
  cases hbyte : code.byteAt pos with
  | error e =>
    rw [hbyte] at h
    cases h
  | ok b =>
    simp only [hbyte, bind, Except.bind] at h
    split at h
    next op' hop =>
      cases h
      rw [Opcode.byte_of_ofByte? hop]
      exact of_byteAt hbyte
    · cases h

theorem of_ofOperandsAt {op : Opcode} {i : Instr} (h : Instr.ofOperandsAt code pos op = .ok i) :
    code.Holds pos i.operandBytes := by
  cases op
  case tryStart =>
    obtain ⟨c, hc, h⟩ := except_bind_eq_ok.mp h
    obtain ⟨f, hf, h⟩ := except_bind_eq_ok.mp h
    cases h
    have hsize : (signedWord c).size = 4 := by simp [signedWord, word, length_littleEndian]
    exact (of_signedWordAt hc).append (by rw [hsize]; exact of_signedWordAt hf)
  case constI32 | jmp | jmpIfFalse | jmpIfTrue =>
    obtain ⟨w, hw, rfl⟩ := map_eq_ok.mp h
    exact of_signedWordAt hw
  case constStr | loadGlobal =>
    obtain ⟨w, hw, rfl⟩ := map_eq_ok.mp h
    exact of_wordAt hw
  case loadLocal | storeLocal =>
    obtain ⟨w, hw, rfl⟩ := map_eq_ok.mp h
    exact of_halfWordAt hw
  case popN | dupAt | pick | unpick | call | iterClose | addDisposable | resourceField
      | chainDisposeError =>
    obtain ⟨b, hb, rfl⟩ := map_eq_ok.mp h
    exact of_byteAt hb
  all_goals
    cases h
    exact fun j hj => absurd hj (Nat.not_lt_zero j)

end Holds
end Bytes

namespace Bytes.Has

/-- An instruction that is read stands where it is read. -/
theorem of_readAt {code : Bytes} {pos : Nat} {i : Instr} (h : Instr.readAt code pos = .ok i) :
    code.Has pos i := by
  obtain ⟨op, hop, hread⟩ := except_bind_eq_ok.mp h
  obtain rfl := Instr.opcode_ofOperandsAt hread
  exact (Holds.of_opcodeAt hop).append (Holds.of_ofOperandsAt hread)

end Bytes.Has

/-- An instruction is executed where it stands. -/
theorem Activation.step_of_has {σ : Type} {env : Env σ} {code : Bytes} {pos : Nat} {i : Instr}
    {a : Activation σ} (h : code.Has pos i) :
    a.step env code pos = a.perform env code.size pos i := by
  rw [Activation.step, h.opcodeAt]
  simp only [h.ofOperandsAt]

end ResourceMachine
