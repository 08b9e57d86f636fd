/-
# Corrupted modules

The checksum tells texts apart that differ in one byte. Dividing the register by a bit
loses nothing, since the polynomial has its highest bit set: the highest bit of the result
says what the lowest bit was that fell out. So different bytes lead to different registers,
and different registers stay different whatever bytes follow (`crc32_set`).

The header is compared byte by byte, so that no byte of an encoded module can be changed
without its being rejected (`Module.decode_corrupted`).

Key theorems: `Crc32.step_injective`, `crc32_set`, `Module.decode_corrupted`.
-/
import ResourceMachine.Proofs.ModuleEncoding

namespace ResourceMachine

/-! ### The checksum -/

namespace Crc32

/-- The highest bit of a register that was divided by a bit is the bit that fell out. -/
theorem testBit_shift (c : UInt32) : (shift c).toNat.testBit 31 = decide (c % 2 = 1) := by
  have hhalf : (c >>> 1).toNat.testBit 31 = false := by
    refine Nat.testBit_lt_two_pow ?_
    have := c.toNat_lt
    simp [Nat.shiftRight_eq_div_pow]
    omega
  unfold shift
  by_cases hodd : c % 2 = 1
  · simp only [hodd, if_true, decide_true, UInt32.toNat_xor, Nat.testBit_xor, hhalf]
    decide
  · simp only [hodd, if_false, decide_false, hhalf]

/-- Two registers are the same that agree in the lowest bit and in all others. -/
theorem eq_of_halves {c c' : UInt32} (hodd : c % 2 = 1 ↔ c' % 2 = 1) (hhalf : c >>> 1 = c' >>> 1) :
    c = c' := by
  have hhalf := congrArg UInt32.toNat hhalf
  have hbit : ∀ d : UInt32, d % 2 = 1 ↔ d.toNat % 2 = 1 := fun d => by
    rw [← UInt32.toNat_inj]
    simp
  rw [hbit, hbit] at hodd
  refine UInt32.toNat_inj.mp ?_
  simp [Nat.shiftRight_eq_div_pow] at hhalf
  omega

/-- Dividing by a bit loses nothing. -/
theorem shift_injective : Function.Injective shift := by
  intro c c' h
  have hodd : c % 2 = 1 ↔ c' % 2 = 1 := by
    have htop := testBit_shift c
    rw [h, testBit_shift c'] at htop
    exact (decide_eq_decide.mp htop).symm
  refine eq_of_halves hodd ?_
  unfold shift at h
  by_cases hc : c % 2 = 1
  · rw [if_pos hc, if_pos (hodd.mp hc)] at h
    exact (UInt32.xor_left_inj _).mp h
  · rw [if_neg hc, if_neg (hodd.not.mp hc)] at h
    exact h

theorem shifts_injective : ∀ n : Nat, Function.Injective (shifts n)
  | 0 => Function.injective_id
  | n + 1 => (shifts_injective n).comp shift_injective

/-- Different bytes lead to different registers. -/
theorem step_injective_byte (c : UInt32) : Function.Injective (step c) := by
  intro b b' h
  have hbytes : b.toUInt32 = b'.toUInt32 := (UInt32.xor_right_inj c).mp (shifts_injective 8 h)
  simpa using congrArg UInt32.toUInt8 hbytes

/-- Different registers stay different. -/
theorem step_injective (b : UInt8) : Function.Injective fun c => step c b := fun _ _ h =>
  (UInt32.xor_left_inj _).mp (shifts_injective 8 h)

theorem foldl_step_injective (bs : List UInt8) : Function.Injective fun c => bs.foldl step c := by
  induction bs with
  | nil => exact Function.injective_id
  | cons b bs ih => exact ih.comp (step_injective b)

theorem foldl_step_set {b : UInt8} : ∀ {bs : List UInt8} {i : Nat} (hi : i < bs.length) (c : UInt32),
    b ≠ bs[i] → (bs.set i b).foldl step c ≠ bs.foldl step c
  | _ :: bs, 0, _, c, hb => fun h => hb (step_injective_byte c (foldl_step_injective bs h))
  | a :: _, _ + 1, hi, c, hb => foldl_step_set (Nat.lt_of_succ_lt_succ hi) (step c a) hb

end Crc32

/-- **One byte makes a difference.** Texts that differ in one byte have different checksums. -/
theorem crc32_set {bs : Bytes} {i : Nat} (hi : i < bs.size) {b : UInt8} (hb : b ≠ bs[i]) :
    crc32 (bs.set i b) ≠ crc32 bs := by
  intro h
  have hregister := (UInt32.xor_left_inj _).mp h
  rw [Array.toList_set] at hregister
  exact Crc32.foldl_step_set (by simpa using hi) _ (by simpa using hb) hregister

/-! ### Modules -/

theorem Bytes.set_ne {bs : Bytes} {i : Nat} (hi : i < bs.size) {b : UInt8} (hb : b ≠ bs[i]) :
    bs.set i b ≠ bs := by
  intro h
  have hget : (bs.set i b)[i]? = some b := Array.getElem?_set_self hi
  rw [h, Array.getElem?_eq_getElem hi] at hget
  exact hb (Option.some.inj hget).symm

/-- A word of which a byte is changed is another word. -/
theorem exists_word_set {n : UInt32} {i : Nat} (hi : i < (word n).size) {b : UInt8}
    (hb : b ≠ (word n)[i]) : ∃ n', (word n).set i b = word n' ∧ n' ≠ n := by
  have hsize : ((word n).set i b).size = 4 := by simp [size_word]
  obtain ⟨n', hn'⟩ := exists_word hsize
  refine ⟨n', hn', ?_⟩
  rintro rfl
  exact Bytes.set_ne hi hb hn'

namespace Module

variable {m : Module} {i : Nat} {b : UInt8}

/-- **No byte can be changed.** Where one byte of an encoded module is another, the bytes
are rejected: for the magic bytes, the version or the checksum, whichever stands there, and
for the checksum if it is a byte of the payload. -/
theorem decode_corrupted (hmagic : m.magic = currentMagic) (hversion : m.version = currentVersion)
    (hi : i < m.encode.size) (hb : b ≠ m.encode[i]) :
    (i < 4 → ∃ found, decode (m.encode.set i b) = .error (.invalidMagic found)) ∧
    (4 ≤ i → i < 8 → ∃ found, decode (m.encode.set i b) = .error (.unsupportedVersion found)) ∧
    (8 ≤ i → ∃ stored computed,
      decode (m.encode.set i b) = .error (.checksumMismatch stored computed)) := by
  have hsize : m.magic.size = 4 := by rw [hmagic]; rfl
  have hencode : m.encode = m.magic ++ (word m.version ++ (word (crc32 m.payload) ++ m.payload)) := by
    simp [encode]
  simp only [hencode, Array.getElem_append, Array.set_append, Array.size_append, size_word, hsize]
    at hb hi ⊢
  refine ⟨fun h => ?_, fun h h' => ?_, fun h => ?_⟩
  · -- the magic bytes
    simp only [h, dite_true] at hb ⊢
    have hne := Bytes.set_ne (by rwa [hsize]) hb
    have hsize' : (m.magic.set i b (by rwa [hsize])).size = 4 := by rw [Array.size_set, hsize]
    have hdecode := decode_framed hsize' m.version (crc32 m.payload) m.payload
    simp only [header, Array.append_assoc] at hdecode
    rw [hdecode, if_pos (hmagic ▸ hne)]
    exact ⟨_, rfl⟩
  · -- the version
    simp only [Nat.not_lt.mpr h, dite_false, show i - 4 < 4 by omega, dite_true] at hb ⊢
    obtain ⟨version, hset, hne⟩ := exists_word_set (by rw [size_word]; omega) hb
    have hdecode := decode_framed hsize version (crc32 m.payload) m.payload
    simp only [header, Array.append_assoc] at hdecode
    rw [hset, hdecode, if_neg (not_not.mpr hmagic), if_pos (hversion ▸ hne)]
    exact ⟨_, rfl⟩
  · simp only [show ¬ i < 4 by omega, show ¬ i - 4 < 4 by omega, dite_false] at hb ⊢
    by_cases h' : i - 4 - 4 < 4
    · -- the checksum
      simp only [h', dite_true] at hb ⊢
      obtain ⟨checksum, hset, hne⟩ := exists_word_set (by rw [size_word]; omega) hb
      have hdecode := decode_framed hsize m.version checksum m.payload
      simp only [header, Array.append_assoc] at hdecode
      rw [hset, hdecode, if_neg (not_not.mpr hmagic), if_neg (not_not.mpr hversion), if_pos hne]
      exact ⟨_, _, rfl⟩
    · -- the payload
      simp only [h', dite_false] at hb ⊢
      have hne := crc32_set (by omega) hb
      have hdecode := decode_framed hsize m.version (crc32 m.payload)
        (m.payload.set (i - 4 - 4 - 4) b (by omega))
      simp only [header, Array.append_assoc] at hdecode
      rw [hdecode, if_neg (not_not.mpr hmagic), if_neg (not_not.mpr hversion), if_pos hne.symm]
      exact ⟨_, _, rfl⟩

theorem decode_corrupted_doubled : ∃ hi : 20 < doubled.encode.size,
    (7 : UInt8) ≠ doubled.encode[20] ∧ ∃ stored computed,
      decode (doubled.encode.set 20 7) = .error (.checksumMismatch stored computed) := by
  have hi : 20 < doubled.encode.size := by decide +kernel
  have hb : ∀ hi : 20 < doubled.encode.size, (7 : UInt8) ≠ doubled.encode[20] := by decide +kernel
  exact ⟨hi, hb hi, (decode_corrupted rfl rfl hi (hb hi)).2.2 (by decide)⟩

end Module
end ResourceMachine
