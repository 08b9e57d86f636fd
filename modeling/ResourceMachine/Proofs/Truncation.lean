/-
# Truncated modules

What is written for a module says at its front how much follows. So where bytes of it are
cut off, a reading follows the one of all the bytes, read by read, up to the read that
crosses the cut, and stops there for want of bytes (`Reading.Follows`), wherever the cut
is: within a count, a text, the pool, a function or its code.

This does not rest on the checksum: what is left is rejected as well where the header has
the checksum of what is left.

Key definitions: `Reading.AtCut`, `Reading.Follows`.
Key theorems: `Reading.Follows.bind`, `Module.Sound.readPayload_runsOut`,
`Module.decode_truncated`.
-/
import ResourceMachine.Proofs.ModuleEncoding

namespace ResourceMachine

/-! ### Readings of bytes that were cut -/

theorem Bytes.size_cut {b : Bytes} {n : Nat} (h : n < b.size) : (b.extract 0 n).size = n := by
  simp [Nat.min_eq_left (Nat.le_of_lt h)]

theorem Bytes.cut_append {b : Bytes} {n : Nat} (h : n < b.size) :
    b = b.extract 0 n ++ b.extract n b.size := by
  simp [Array.extract_append_extract, Nat.le_of_lt h]

theorem Bytes.sliceAt_cut {b : Bytes} {n pos : Nat} (more : Bytes) (h : pos + n ≤ b.size) :
    (b ++ more).sliceAt n pos = b.sliceAt n pos := by
  have hmore : b.size ≤ (b ++ more).size := by simp
  unfold sliceAt
  rw [if_neg (by omega), if_neg (by omega), Array.extract_append]
  simp [Nat.sub_eq_zero_of_le h]

theorem Bytes.wordAt_cut {b : Bytes} {pos : Nat} (more : Bytes) (h : pos + 4 ≤ b.size) :
    (b ++ more).wordAt pos = b.wordAt pos := by
  rw [wordAt, wordAt, numberAt, numberAt, sliceAt_cut more h]

namespace Reading

/-- How reading `b` from `pos` on goes, compared with reading it with `more` behind it. -/
inductive AtCut {α : Type} (m : Read α) (b more : Bytes) (pos : Nat) : Prop where
  /-- It needs bytes from `p` on that are not there. -/
  | runsOut {p : Nat} (hge : pos ≤ p) (hle : p ≤ b.size)
      (here : m ⟨b, pos⟩ = .error (.unexpectedEnd p) ⟨b, p⟩)
  /-- Both end with the same value, at the same place. -/
  | same {a : α} {p : Nat} (hge : pos ≤ p) (hle : p ≤ b.size) (here : m ⟨b, pos⟩ = .ok a ⟨b, p⟩)
      (there : m ⟨b ++ more, pos⟩ = .ok a ⟨b ++ more, p⟩)
  /-- Both end with the same error, at the same place. -/
  | fails {e : DecodeError} {p : Nat} (here : m ⟨b, pos⟩ = .error e ⟨b, p⟩)
      (there : m ⟨b ++ more, pos⟩ = .error e ⟨b ++ more, p⟩)

/-- Wherever bytes are cut, the reading follows the one of all of them, up to the cut. -/
def Follows {α : Type} (m : Read α) : Prop :=
  ∀ b more pos, pos ≤ b.size → AtCut m b more pos

namespace Follows

variable {α β : Type} {m : Read α} {f : α → Read β}

theorem pure (a : α) : Follows (Pure.pure a : Read α) :=
  fun _ _ _ h => .same (Nat.le_refl _) h rfl rfl

theorem throw (e : DecodeError) : Follows (MonadExcept.throw e : Read α) :=
  fun _ _ _ _ => .fails rfl rfl

theorem bind (hm : Follows m) (hf : ∀ a, Follows (f a)) : Follows (m >>= f) := by
  intro b more pos h
  have happly : ∀ r, (m >>= f) r = EStateM.bind m f r := fun _ => rfl
  cases hm b more pos h with
  | runsOut hge hle here => exact .runsOut hge hle (by rw [happly, EStateM.bind, here])
  | fails here there =>
    exact .fails (by rw [happly, EStateM.bind, here]) (by rw [happly, EStateM.bind, there])
  | @same a p hge hle here there =>
    have hhere : (m >>= f) ⟨b, pos⟩ = f a ⟨b, p⟩ := by rw [happly, EStateM.bind, here]
    have hthere : (m >>= f) ⟨b ++ more, pos⟩ = f a ⟨b ++ more, p⟩ := by
      rw [happly, EStateM.bind, there]
    cases hf a b more p hle with
    | runsOut hge' hle' here' => exact .runsOut (Nat.le_trans hge hge') hle' (hhere.trans here')
    | same hge' hle' here' there' =>
      exact .same (Nat.le_trans hge hge') hle' (hhere.trans here') (hthere.trans there')
    | fails here' there' => exact .fails (hhere.trans here') (hthere.trans there')

theorem map {g : α → β} (hm : Follows m) : Follows (g <$> m) :=
  hm.bind fun a => .pure (g a)

/-- Asking for the place only, not for the bytes. -/
theorem place {f : Reader → Read α} (hplace : ∀ b b' pos, f ⟨b, pos⟩ = f ⟨b', pos⟩)
    (hf : ∀ r, Follows (f r)) : Follows (MonadState.get >>= f) :=
  fun b more pos h => by
    have hsame : f ⟨b ++ more, pos⟩ = f ⟨b, pos⟩ := hplace _ _ _
    cases hf ⟨b, pos⟩ b more pos h with
    | runsOut hge hle here => exact .runsOut hge hle here
    | same hge hle here there => exact .same hge hle here ((congrFun hsame _).trans there)
    | fails here there => exact .fails here ((congrFun hsame _).trans there)

/-- The one read that needs bytes. -/
theorem take (n : Nat) : Follows (Reader.take n) := by
  intro b more pos h
  by_cases hshort : b.size < pos + n
  · refine .runsOut (Nat.le_refl pos) h ?_
    simp [Reader.take, Bytes.sliceAt, hshort]
  · have hle : pos + n ≤ b.size := Nat.le_of_not_lt hshort
    have hslice : b.sliceAt n pos = .ok (b.extract pos (pos + n)) := if_neg hshort
    refine .same (Nat.le_add_right pos n) hle (a := b.extract pos (pos + n)) ?_ ?_
    · simp [Reader.take, hslice]
    · simp [Reader.take, Bytes.sliceAt_cut more hle, hslice]

theorem counted : Follows Reader.counted := by
  refine (take 4).map.bind fun n => place (fun _ _ _ => rfl) fun start => (take n).bind fun slice => ?_
  cases String.fromUTF8? ⟨slice⟩ with
  | some s => exact .pure s
  | none => exact .throw _

theorem times (hm : Follows m) : ∀ n, Follows (Reader.times m n)
  | 0 => .pure []
  | n + 1 => hm.bind fun x => (times hm n).bind fun xs => .pure (x :: xs)

theorem readKind : Follows Function.readKind := by
  refine (take 1).map.map.bind fun tag => ?_
  cases FunctionKind.ofByte? tag with
  | some kind => exact .pure kind
  | none => exact .throw _

theorem readFunction : Follows Function.read :=
  counted.bind fun _ => readKind.bind fun _ => (take 4).map.bind fun _ => (take 4).map.bind fun _ =>
    (take 4).map.bind fun _ => (take 4).map.bind fun size => (take size).bind fun _ => .pure _

theorem readPool : Follows ConstantPool.read :=
  (take 4).map.bind fun n => (counted.times n).bind fun _ => .pure _

theorem readPayload (magic : Bytes) (version : UInt32) :
    Follows (Module.readPayload magic version) :=
  counted.bind fun _ => readPool.bind fun _ => (take 4).map.bind fun n =>
    (readFunction.times n).bind fun _ => .pure _

end Follows
end Reading

/-! ### Modules that were cut -/

namespace Module

variable {m : Module} {b p missing : Bytes} {n : Nat}

/-- A pool is written without its index. -/
theorem exists_sound (hmagic : m.magic = currentMagic) (hversion : m.version = currentVersion)
    (hfits : m.Fits) : ∃ m' : Module, m'.Sound ∧ m'.payload = m.payload ∧ m'.encode = m.encode := by
  have hstrings := ConstantPool.strings_holding m.constants.strings.toList
  have hpool : (ConstantPool.holding m.constants.strings.toList).encode = m.constants.encode := by
    simp [ConstantPool.encode, ConstantPool.size, hstrings]
  have hpayload : { m with constants := .holding m.constants.strings.toList }.payload = m.payload := by
    simp [payload, hpool]
  refine ⟨{ m with constants := .holding m.constants.strings.toList }, ⟨hmagic, hversion, ?_, ?_⟩,
    hpayload, by simp only [encode, hpayload]⟩
  · simp [hstrings]
  · exact ⟨hfits.name, by simpa [ConstantPool.size, hstrings] using hfits.constants,
      by simpa [hstrings] using hfits.texts, hfits.functions, hfits.each⟩

/-- Reading a part only of a payload stops for want of bytes. -/
theorem Sound.readPayload_runsOut (h : m.Sound) (hn : n < m.payload.size) (before : Bytes) :
    ∃ pos, before.size ≤ pos ∧ pos ≤ before.size + n ∧
      readPayload currentMagic currentVersion (.between before (m.payload.extract 0 n)) =
        .error (.unexpectedEnd pos) ⟨before ++ m.payload.extract 0 n, pos⟩ := by
  have hall := (readPayload_undoes before (m.payload ++ #[]) m _).mpr
    ⟨m.payload, #[], ⟨h, rfl⟩, rfl, rfl⟩
  have hcut : before ++ m.payload.extract 0 n ++ m.payload.extract n m.payload.size =
      before ++ m.payload := by rw [Array.append_assoc, ← Bytes.cut_append hn]
  have hsize : (before ++ m.payload.extract 0 n).size = before.size + n := by
    rw [Array.size_append, Bytes.size_cut hn]
  rw [Array.append_empty, Reader.between, ← hcut] at hall
  cases Reading.Follows.readPayload currentMagic currentVersion (before ++ m.payload.extract 0 n)
    (m.payload.extract n m.payload.size) before.size (by omega) with
  | runsOut hge hle here => exact ⟨_, hge, by omega, here⟩
  | fails here there => cases hall.symm.trans there
  | same hge hle here there =>
    cases hall.symm.trans there
    rw [hcut, hsize, Array.size_append] at hle
    omega

/-- Bytes that are no whole header stop before the payload. -/
theorem decode_part_of_header {checksum : UInt32}
    (hcut : header currentMagic currentVersion checksum ++ p = b ++ missing)
    (hshort : b.size < headerSize) :
    ∃ pos, pos ≤ b.size ∧ decode b = .error (.decode (.unexpectedEnd pos)) := by
  have hlt : b.size < 12 := hshort
  have hword : ∀ {pos}, b.size < pos + 4 → b.wordAt pos = .error (.unexpectedEnd pos) := by
    intro pos h
    simp [Bytes.wordAt, Bytes.numberAt, Bytes.sliceAt, h, Functor.map, Except.map]
  have hsize : currentMagic.size = 4 := rfl
  unfold decode
  by_cases h₄ : b.size < 4
  · have hmagic : b.sliceAt 4 0 = .error (.unexpectedEnd 0) := if_pos h₄
    rw [hmagic]
    exact ⟨0, Nat.zero_le _, rfl⟩
  · have hmagic : b.sliceAt 4 0 = .ok currentMagic := by
      have hfirst := Bytes.sliceAt_append #[] currentMagic (word currentVersion ++ word checksum ++ p)
      rw [← Bytes.sliceAt_cut missing (by omega), ← hcut, header]
      simpa [Array.append_assoc, hsize] using hfirst
    rw [hmagic]
    by_cases h₈ : b.size < 8
    · rw [hword (by omega)]
      exact ⟨4, by omega, rfl⟩
    · have hversion : b.wordAt 4 = .ok currentVersion := by
        have hsecond := Bytes.wordAt_append currentMagic currentVersion (word checksum ++ p)
        rw [← Bytes.wordAt_cut missing (by omega), ← hcut, header]
        simpa [Array.append_assoc, hsize] using hsecond
      rw [hversion, hword (by omega)]
      exact ⟨8, by omega, rfl⟩

/-- A payload that was cut is rejected whatever checksum the header has: for want of bytes,
if it is that of what is left. -/
theorem Sound.decode_part_of_payload (h : m.Sound) (hn : n < m.payload.size) (checksum : UInt32) :
    ∃ pos, headerSize ≤ pos ∧ pos ≤ headerSize + n ∧
      decode (header currentMagic currentVersion checksum ++ m.payload.extract 0 n) =
        if checksum = crc32 (m.payload.extract 0 n) then .error (.decode (.unexpectedEnd pos))
        else .error (.checksumMismatch checksum (crc32 (m.payload.extract 0 n))) := by
  obtain ⟨pos, hge, hle, hread⟩ := h.readPayload_runsOut hn
    (header currentMagic currentVersion checksum)
  rw [size_header rfl] at hge hle
  refine ⟨pos, hge, hle, ?_⟩
  rw [decode_framed rfl, hread]
  by_cases hchecksum : checksum = crc32 (m.payload.extract 0 n) <;> simp [hchecksum]

/-- The bytes of a module that were cut, within the header or behind it. -/
theorem Sound.decode_part (h : m.Sound) (hn : n < m.encode.size) :
    ∃ pos, pos ≤ n ∧ (decode (m.encode.extract 0 n) = .error (.decode (.unexpectedEnd pos)) ∨
      decode (m.encode.extract 0 n) = .error (.checksumMismatch (crc32 m.payload)
        (crc32 (m.payload.extract 0 (n - headerSize))))) := by
  have hencode : m.encode = header currentMagic currentVersion (crc32 m.payload) ++ m.payload := by
    rw [encode, header, h.magic, h.version]
  have hheader : (header currentMagic currentVersion (crc32 m.payload)).size = headerSize :=
    size_header rfl _ _
  by_cases hshort : n < headerSize
  · obtain ⟨pos, hpos, hdecode⟩ := decode_part_of_header
      (hencode.symm.trans (Bytes.cut_append hn)) (by rwa [Bytes.size_cut hn])
    rw [Bytes.size_cut hn] at hpos
    exact ⟨pos, hpos, .inl hdecode⟩
  · have hle : headerSize ≤ n := Nat.le_of_not_lt hshort
    have hpart : m.encode.extract 0 n = header currentMagic currentVersion (crc32 m.payload) ++
        m.payload.extract 0 (n - headerSize) := by
      rw [hencode, Array.extract_append, Array.extract_eq_self_of_le (by rwa [hheader]), hheader,
        Nat.zero_sub]
    have hlt : n - headerSize < m.payload.size := by
      rw [hencode, Array.size_append, hheader] at hn
      omega
    obtain ⟨pos, -, hpos, hdecode⟩ := h.decode_part_of_payload hlt (crc32 m.payload)
    refine ⟨pos, by omega, ?_⟩
    rw [hpart, hdecode]
    split
    · exact .inl rfl
    · exact .inr rfl

/-- **Bytes that were cut off are missed.** For a module with a current header whose counts
fit words: every part of its bytes is rejected, for want of bytes or because of the checksum.
Every part of its payload is rejected for want of bytes, where the checksum before it is the
one of that part; for reading it, wherever it stands, runs out of bytes. -/
theorem decode_truncated (hmagic : m.magic = currentMagic) (hversion : m.version = currentVersion)
    (hfits : m.Fits) :
    (∀ n, n < m.encode.size → ∃ pos, pos ≤ n ∧
      (decode (m.encode.extract 0 n) = .error (.decode (.unexpectedEnd pos)) ∨
        decode (m.encode.extract 0 n) = .error (.checksumMismatch (crc32 m.payload)
          (crc32 (m.payload.extract 0 (n - headerSize)))))) ∧
    ∀ n, n < m.payload.size →
      (∃ pos, headerSize ≤ pos ∧ pos ≤ headerSize + n ∧
        decode (header m.magic m.version (crc32 (m.payload.extract 0 n)) ++
          m.payload.extract 0 n) = .error (.decode (.unexpectedEnd pos))) ∧
      ∀ before : Bytes, ∃ pos, before.size ≤ pos ∧ pos ≤ before.size + n ∧
        readPayload m.magic m.version (.between before (m.payload.extract 0 n)) =
          .error (.unexpectedEnd pos) ⟨before ++ m.payload.extract 0 n, pos⟩ := by
  obtain ⟨m', hsound, hpayload, hencode⟩ := exists_sound hmagic hversion hfits
  rw [← hpayload, ← hencode, hmagic, hversion]
  refine ⟨fun n hn => hsound.decode_part hn, fun n hn => ⟨?_, hsound.readPayload_runsOut hn⟩⟩
  obtain ⟨pos, hge, hle, hdecode⟩ := hsound.decode_part_of_payload hn (crc32 (m'.payload.extract 0 n))
  exact ⟨pos, hge, hle, by rw [hdecode, if_pos rfl]⟩

/-- A module whose pool holds a text twice, cut within a character and behind a whole entry. -/
theorem decode_truncated_doubled : doubled.Fits ∧
    (∃ e, decode (doubled.encode.extract 0 26) = .error e) ∧
    ∃ pos, decode (header doubled.magic doubled.version (crc32 (doubled.payload.extract 0 19)) ++
      doubled.payload.extract 0 19) = .error (.decode (.unexpectedEnd pos)) := by
  obtain ⟨hpart, hpayload⟩ := decode_truncated (m := doubled) rfl rfl doubled_fits
  have hbytes : ∃ e, decode (doubled.encode.extract 0 26) = .error e := by
    obtain ⟨_, -, h | h⟩ := hpart 26 (by decide)
    · exact ⟨_, h⟩
    · exact ⟨_, h⟩
  obtain ⟨⟨pos, -, -, hdecode⟩, -⟩ := hpayload 19 (by decide)
  exact ⟨doubled_fits, hbytes, pos, hdecode⟩

end Module
end ResourceMachine
