/-
# Reading code undoes writing it

Instructions are read from a code just where they were written into it. Code that is put
together from the bytes of instructions is split into these again, each at its place; and
code that is split is put together from what it is split into. In any other code there is a
first place where no instruction can be read: the byte there is that of no opcode, or the
code ends within the operands. The error names that byte and its place, or where in the
operands the code falls short: they are read four bytes at a time, where they have as many.

Key definitions: `Instr.encodeAll`, `Located.layFrom`, `Located.Follow`, `Bytes.Blocks`.
Key theorems: `Instr.readAt_eq_error`, `Located.ofCodeFrom_of_holds`,
`Located.ofCode_inverts_encodeAll`.
-/
import ResourceMachine.Proofs.VerifiedDepths

namespace ResourceMachine

/-! ### Instructions in a row -/

namespace Instr

/-- The bytes of instructions, one after the other. -/
def encodeAll : List Instr → Bytes
  | [] => #[]
  | i :: is => i.encode ++ encodeAll is

@[simp] theorem encodeAll_append : ∀ is js : List Instr,
    encodeAll (is ++ js) = encodeAll is ++ encodeAll js
  | [], js => (Array.empty_append).symm
  | i :: is, js => by
    rw [List.cons_append, encodeAll, encodeAll, encodeAll_append is js, Array.append_assoc]

theorem size_encodeAll_cons (i : Instr) (is : List Instr) :
    (encodeAll (i :: is)).size = i.size + (encodeAll is).size := by
  rw [encodeAll, Array.size_append, size_encode]

end Instr

namespace Located

/-- Instructions laid one after the other, from an offset on. -/
def layFrom : Nat → List Instr → List Located
  | _, [] => []
  | pos, i :: is => ⟨pos, i⟩ :: layFrom (pos + i.size) is

/-- The first instruction starts at `pos`, each other one where the one before it ends, and
the last one ends at `stop`. -/
def Follow : Nat → Nat → List Located → Prop
  | pos, stop, [] => pos = stop
  | pos, stop, i :: rest => i.offset = pos ∧ Follow i.next stop rest

/-- Instructions that follow each other are laid. -/
theorem follow_iff {stop : Nat} : ∀ {lines : List Located} {pos : Nat},
    Follow pos stop lines ↔ lines = layFrom pos (lines.map instr) ∧
      pos + (Instr.encodeAll (lines.map instr)).size = stop
  | [], pos => by simp [Follow, layFrom, Instr.encodeAll]
  | ⟨offset, i⟩ :: rest, pos => by
    rw [Follow, List.map_cons, layFrom, Instr.size_encodeAll_cons, follow_iff]
    constructor
    · rintro ⟨rfl, hrest, hstop⟩
      exact ⟨congrArg _ hrest, by rw [← hstop, next, Nat.add_assoc]⟩
    · rintro ⟨hlines, hstop⟩
      obtain ⟨hfirst, hrest⟩ := List.cons.inj hlines
      obtain rfl : offset = pos := congrArg Located.offset hfirst
      exact ⟨rfl, hrest, by rw [← hstop, next, Nat.add_assoc]⟩

theorem Follow.le : ∀ {lines : List Located} {pos stop : Nat}, Follow pos stop lines → pos ≤ stop
  | [], _, _, h => Nat.le_of_eq h
  | i :: _, _, _, ⟨hoffset, hrest⟩ => by
    have := hrest.le
    rw [next, hoffset] at this
    omega

/-- What follows can be cut anywhere. -/
theorem follow_append : ∀ {lines more : List Located} {pos stop : Nat},
    Follow pos stop (lines ++ more) ↔ ∃ mid, Follow pos mid lines ∧ Follow mid stop more
  | [], _, pos, _ => ⟨fun h => ⟨pos, rfl, h⟩, fun ⟨_, hpos, h⟩ => hpos ▸ h⟩
  | i :: lines, more, pos, stop => by
    rw [List.cons_append, Follow, follow_append]
    exact ⟨fun ⟨h, mid, h₁, h₂⟩ => ⟨mid, ⟨h, h₁⟩, h₂⟩, fun ⟨mid, ⟨h, h₁⟩, h₂⟩ => ⟨h, mid, h₁, h₂⟩⟩

theorem map_layFrom : ∀ (is : List Instr) (pos : Nat), (layFrom pos is).map instr = is
  | [], _ => rfl
  | i :: is, pos => by rw [layFrom, List.map_cons, map_layFrom is]

end Located

/-! ### Where no instruction can be read -/

namespace Bytes

/-- No instruction can be read at `pos`: there is no opcode, or the code ends within its
operands. The error tells which byte is none, or where the operand starts that is cut off. -/
inductive Blocks (code : Bytes) (pos : Nat) : DecodeError → Prop
  | opcode {b : UInt8} : code[pos]? = some b → Opcode.ofByte? b = none →
      Blocks code pos (.invalidOpcode b pos)
  | operands {op : Opcode} {given : Nat} : code[pos]? = some op.byte →
      given < op.operandSize → code.size = pos + 1 + given →
      Blocks code pos (.unexpectedEnd (pos + 1 + given / 4 * 4))

namespace Holds

variable {code bs : Bytes}

theorem refl (bs : Bytes) : bs.Holds 0 bs := fun j _ => by rw [Nat.zero_add]

theorem eq_of_size (h : code.Holds 0 bs) (hsize : bs.size = code.size) : bs = code := by
  refine Array.ext_getElem? fun j => ?_
  by_cases hj : j < bs.size
  · rw [← h j hj, Nat.zero_add]
  · rw [Array.getElem?_eq_none (Nat.le_of_not_lt hj), Array.getElem?_eq_none (by omega)]

end Holds

variable {code : Bytes} {pos n : Nat} {e : DecodeError}

theorem map_eq_error {ε α β : Type} {f : α → β} {x : Except ε α} {e : ε} :
    f <$> x = .error e ↔ x = .error e := by
  cases x <;> simp [Functor.map, Except.map]

theorem bind_eq_error {ε α β : Type} {m : Except ε α} {f : α → Except ε β} {e : ε} :
    m >>= f = .error e ↔ m = .error e ∨ ∃ a, m = .ok a ∧ f a = .error e := by
  cases m <;> simp [bind, Except.bind]

theorem numberAt_eq_error :
    code.numberAt n pos = .error e ↔ code.size < pos + n ∧ e = .unexpectedEnd pos := by
  rw [numberAt, map_eq_error, sliceAt]
  split
  next hlt => exact ⟨fun h => by cases h; exact ⟨hlt, rfl⟩, fun h => by rw [h.2]⟩
  next hle => exact ⟨fun h => (by cases h), fun h => absurd h.1 hle⟩

theorem byteAt_eq_error :
    code.byteAt pos = .error e ↔ code.size < pos + 1 ∧ e = .unexpectedEnd pos := by
  rw [byteAt, map_eq_error, numberAt_eq_error]

theorem halfWordAt_eq_error :
    code.halfWordAt pos = .error e ↔ code.size < pos + 2 ∧ e = .unexpectedEnd pos := by
  rw [halfWordAt, map_eq_error, numberAt_eq_error]

theorem wordAt_eq_error :
    code.wordAt pos = .error e ↔ code.size < pos + 4 ∧ e = .unexpectedEnd pos := by
  rw [wordAt, map_eq_error, numberAt_eq_error]

theorem signedWordAt_eq_error :
    code.signedWordAt pos = .error e ↔ code.size < pos + 4 ∧ e = .unexpectedEnd pos := by
  rw [signedWordAt, map_eq_error, wordAt_eq_error]

theorem exists_signedWordAt (h : pos + 4 ≤ code.size) : ∃ d, code.signedWordAt pos = .ok d := by
  cases hd : code.signedWordAt pos with
  | ok d => exact ⟨d, rfl⟩
  | error e => exact absurd (signedWordAt_eq_error.mp hd).1 (Nat.not_lt_of_le h)

end Bytes

namespace Instr

variable {code : Bytes} {pos : Nat} {op : Opcode} {e : DecodeError}

/-- Operands cannot be read where the code ends before they do. -/
theorem ofOperandsAt_eq_error (hpos : pos ≤ code.size) :
    ofOperandsAt code pos op = .error e ↔ code.size - pos < op.operandSize ∧
      e = .unexpectedEnd (pos + (code.size - pos) / 4 * 4) := by
  -- A single operand has at most four bytes, so it is cut off where it starts.
  have hone {k : Nat} (hk : k ≤ 4) : (code.size < pos + k ∧ e = .unexpectedEnd pos) ↔
      code.size - pos < k ∧ e = .unexpectedEnd (pos + (code.size - pos) / 4 * 4) := by
    have hlt : code.size < pos + k ↔ code.size - pos < k := by omega
    rw [hlt]
    refine and_congr_right fun h => ?_
    rw [Nat.div_eq_of_lt (by omega), Nat.zero_mul, Nat.add_zero]
  cases op
  case tryStart =>
    show _ ↔ code.size - pos < 8 ∧ _
    by_cases hfirst : code.size < pos + 4
    · refine Iff.trans ⟨fun h => ?_, fun h => Bytes.bind_eq_error.mpr (.inl ?_)⟩
        ((hone (Nat.le_refl 4)).trans (and_congr_left fun _ => by omega))
      · rcases Bytes.bind_eq_error.mp h with h | ⟨c, hc, -⟩
        · exact Bytes.signedWordAt_eq_error.mp h
        · have := Bytes.signedWordAt_eq_error.mpr ⟨hfirst, rfl⟩
          rw [hc] at this
          cases this
      · exact Bytes.signedWordAt_eq_error.mpr h
    · have hsecond : code.size < pos + 4 + 4 ↔ code.size - pos < 8 := by omega
      obtain ⟨c, hc⟩ := Bytes.exists_signedWordAt (Nat.le_of_not_lt hfirst)
      have hread : ofOperandsAt code pos .tryStart = .error e ↔
          code.signedWordAt (pos + 4) = .error e := by
        rw [ofOperandsAt, hc]
        show (tryStart c <$> code.signedWordAt (pos + 4)) = _ ↔ _
        exact Bytes.map_eq_error
      rw [hread, Bytes.signedWordAt_eq_error, hsecond]
      refine and_congr_right fun h => ?_
      rw [show (code.size - pos) / 4 = 1 by omega]
  case constI32 | jmp | jmpIfFalse | jmpIfTrue =>
    exact Bytes.map_eq_error.trans (Bytes.signedWordAt_eq_error.trans (hone (by decide)))
  case constStr | loadGlobal =>
    exact Bytes.map_eq_error.trans (Bytes.wordAt_eq_error.trans (hone (by decide)))
  case loadLocal | storeLocal =>
    exact Bytes.map_eq_error.trans (Bytes.halfWordAt_eq_error.trans (hone (by decide)))
  case popN | dupAt | pick | unpick | call | iterClose | addDisposable | resourceField
      | chainDisposeError =>
    exact Bytes.map_eq_error.trans (Bytes.byteAt_eq_error.trans (hone (by decide)))
  all_goals exact ⟨nofun, fun h => absurd h.1 (Nat.not_lt_zero _)⟩

theorem opcodeAt_eq {b : UInt8} (h : code[pos]? = some b) :
    opcodeAt code pos = (Opcode.ofByte? b).elim (.error (.invalidOpcode b pos)) .ok := by
  have hbyte : code.Holds pos #[b] := fun j hj => by
    obtain rfl : j = 0 := by simpa using hj
    exact h
  rw [opcodeAt, hbyte.byteAt]
  simp only [bind, Except.bind]
  cases Opcode.ofByte? b <;> rfl

/-- Where code is left, an instruction is read, or what blocks it is told. -/
theorem readAt_eq_error (hpos : pos < code.size) :
    readAt code pos = .error e ↔ code.Blocks pos e := by
  obtain ⟨b, hb⟩ : ∃ b, code[pos]? = some b := ⟨_, Array.getElem?_eq_getElem hpos⟩
  unfold readAt
  rw [opcodeAt_eq hb]
  cases hop : Opcode.ofByte? b with
  | none =>
    constructor
    · rintro ⟨⟩
      exact .opcode hb hop
    · rintro (⟨hb'⟩ | ⟨hb'⟩)
      · obtain rfl := Option.some.inj (hb.symm.trans hb')
        rfl
      · rw [Option.some.inj (hb.symm.trans hb'), Opcode.ofByte?_byte] at hop
        cases hop
  | some op =>
    refine (ofOperandsAt_eq_error hpos).trans ?_
    constructor
    · rintro ⟨hgiven, rfl⟩
      exact .operands (by rw [hb, Opcode.byte_of_ofByte? hop]) hgiven (by omega)
    · rintro (⟨hb', hnone⟩ | ⟨hb', hgiven, hsize⟩)
      · rw [← Option.some.inj (hb.symm.trans hb'), hop] at hnone
        cases hnone
      · rw [Option.some.inj (hb.symm.trans hb'), Opcode.ofByte?_byte] at hop
        obtain rfl := Option.some.inj hop
        rw [show code.size - (pos + 1) = _ from Nat.sub_eq_of_eq_add' hsize]
        exact ⟨hgiven, rfl⟩

/-- Code is read as instructions as far as these go: to its end, or to where it is blocked. -/
theorem exists_read (code : Bytes) (pos : Nat) (hpos : pos ≤ code.size) :
    ∃ is, code.Holds pos (encodeAll is) ∧ (pos + (encodeAll is).size = code.size ∨
      pos + (encodeAll is).size < code.size ∧ ∃ e, code.Blocks (pos + (encodeAll is).size) e) := by
  rcases Nat.lt_or_eq_of_le hpos with hlt | heq
  · cases hread : readAt code pos with
    | error e =>
      exact ⟨[], nofun, .inr ⟨hlt, e, (readAt_eq_error hlt).mp hread⟩⟩
    | ok i =>
      have hi := Bytes.Has.of_readAt hread
      obtain ⟨is, his, hend⟩ := exists_read code (pos + i.size) hi.next_le_size
      rw [Nat.add_assoc, ← size_encodeAll_cons] at hend
      exact ⟨i :: is, hi.append (by rwa [size_encode]), hend⟩
  · exact ⟨[], nofun, .inl heq⟩
termination_by code.size - pos
decreasing_by
  simp only [size]
  omega

end Instr

/-! ### The whole code -/

namespace Located

variable {code : Bytes} {is : List Instr} {lines : List Located} {pos : Nat} {e : DecodeError}

/-- Where the bytes of instructions stand, these are read first. -/
theorem ofCodeFrom_of_holds : ∀ {is : List Instr} {pos : Nat},
    code.Holds pos (Instr.encodeAll is) → ofCodeFrom code pos =
      (layFrom pos is ++ ·) <$> ofCodeFrom code (pos + (Instr.encodeAll is).size)
  | [], pos, _ => by
    show _ = (fun lines => lines) <$> _
    exact (id_map _).symm
  | i :: is, pos, h => by
    have hi : code.Has pos i := h.left
    have his := h.right
    rw [Instr.size_encode] at his
    have hlt : pos < code.size := by
      have := hi.next_le_size
      have : 0 < i.size := by simp only [Instr.size]; omega
      omega
    rw [ofCodeFrom, if_pos hlt, hi.readAt]
    simp only [bind, Except.bind]
    rw [ofCodeFrom_of_holds his, Instr.size_encodeAll_cons, Nat.add_assoc]
    cases ofCodeFrom code (pos + (i.size + (Instr.encodeAll is).size)) <;> rfl

theorem ofCodeFrom_end (h : code.size ≤ pos) : ofCodeFrom code pos = .ok [] := by
  rw [ofCodeFrom, if_neg (Nat.not_lt.mpr h)]

theorem ofCodeFrom_blocked (hpos : pos < code.size) (h : code.Blocks pos e) :
    ofCodeFrom code pos = .error e := by
  rw [ofCodeFrom, if_pos hpos, (Instr.readAt_eq_error hpos).mpr h]
  rfl

/-- A code that is read to its end. -/
theorem ofCode_of_holds (h : code.Holds 0 (Instr.encodeAll is))
    (hsize : (Instr.encodeAll is).size = code.size) : ofCode code = .ok (layFrom 0 is) := by
  rw [ofCode, ofCodeFrom_of_holds h, ofCodeFrom_end (by omega)]
  show Except.ok (layFrom 0 is ++ []) = _
  rw [List.append_nil]

/-- Code that is put together from instructions that follow each other is read as these. -/
theorem ofCode_of_follow (hcode : Instr.encodeAll (lines.map instr) = code)
    (h : Follow 0 code.size lines) : ofCode code = .ok lines := by
  rw [ofCode_of_holds (hcode ▸ .refl _) (congrArg Array.size hcode), ← (follow_iff.mp h).1]

/-- A code that is read to where it is blocked. -/
theorem ofCode_of_blocked (h : code.Holds 0 (Instr.encodeAll is))
    (hlt : (Instr.encodeAll is).size < code.size) (hblocked : code.Blocks (Instr.encodeAll is).size e) :
    ofCode code = .error e := by
  rw [ofCode, ofCodeFrom_of_holds h, Nat.zero_add, ofCodeFrom_blocked hlt hblocked]
  rfl

/-- Reading code as instructions undoes putting it together from their bytes. What is put
together is read back, with the offsets; only that is read, and the instructions then follow
each other from the first byte to the last. Any other code is read up to the first place
where no instruction stands, and the error tells what is wrong there. -/
theorem ofCode_inverts_encodeAll :
    (∀ is : List Instr, ofCode (Instr.encodeAll is) = .ok (layFrom 0 is)) ∧
    (∀ (code : Bytes) (lines : List Located), ofCode code = .ok lines ↔
      Instr.encodeAll (lines.map instr) = code ∧ Follow 0 code.size lines) ∧
    ∀ (code : Bytes) (e : DecodeError), ofCode code = .error e ↔
      ∃ is : List Instr, code.Holds 0 (Instr.encodeAll is) ∧
        (Instr.encodeAll is).size < code.size ∧ (∀ i, ¬ code.Has (Instr.encodeAll is).size i) ∧
        code.Blocks (Instr.encodeAll is).size e := by
  refine ⟨fun is => ofCode_of_holds (.refl _) rfl,
    fun code lines => ⟨fun h => ?_, fun ⟨hcode, hfollow⟩ => ofCode_of_follow hcode hfollow⟩,
    fun code e => ⟨fun h => ?_, fun ⟨is, his, hlt, _, hblocked⟩ => ofCode_of_blocked his hlt hblocked⟩⟩
  · obtain ⟨is, his, hend⟩ := Instr.exists_read code 0 (Nat.zero_le _)
    rw [Nat.zero_add] at hend
    obtain hsize | ⟨hlt, e, hblocked⟩ := hend
    · obtain rfl : layFrom 0 is = lines :=
        Except.ok.inj ((ofCode_of_holds his hsize).symm.trans h)
      rw [follow_iff, map_layFrom]
      exact ⟨his.eq_of_size hsize, rfl, by omega⟩
    · rw [ofCode_of_blocked his hlt hblocked] at h
      cases h
  · obtain ⟨is, his, hend⟩ := Instr.exists_read code 0 (Nat.zero_le _)
    rw [Nat.zero_add] at hend
    obtain hsize | ⟨hlt, e', hblocked⟩ := hend
    · rw [ofCode_of_holds his hsize] at h
      cases h
    · obtain rfl : e' = e := Except.error.inj ((ofCode_of_blocked his hlt hblocked).symm.trans h)
      refine ⟨is, his, hlt, fun i hi => ?_, hblocked⟩
      have hread := (Instr.readAt_eq_error hlt).mpr hblocked
      rw [hi.readAt] at hread
      cases hread

end Located
end ResourceMachine
