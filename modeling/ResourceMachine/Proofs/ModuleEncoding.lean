/-
# The encoding of modules

Reading a module undoes writing it, and takes no other bytes than those that are written
for it. So bytes encode at most one module, and a module that is sound (its counts fit
words, and its pool was built by adding and reading) has one encoding. Bytes that are left
over behind the last function are ignored, but count for the checksum.

Key definitions: `Function.Fits`, `ConstantPool.Built`, `Module.Fits`, `Module.readEnd`.
Key theorems: `Module.readPayload_undoes`, `Module.decode_eq_ok`, `Module.decode_encode`,
`Module.decode_canonical`.
-/
import ResourceMachine.Code.Module
import ResourceMachine.Proofs.Reading
import Mathlib.Data.List.Induction

namespace ResourceMachine

/-! ### Words at an offset -/

theorem size_word (n : UInt32) : (word n).size = 4 := by simp [word, length_littleEndian]

theorem exists_word {xs : Bytes} (h : xs.size = 4) : ∃ n, xs = word n := by
  have hlength : xs.toList.length = 4 := by rw [Array.length_toList, h]
  have hdigits := littleEndian_ofLittleEndian xs.toList
  have hlt := ofLittleEndian_lt xs.toList
  rw [hlength] at hdigits hlt
  refine ⟨UInt32.ofNat (ofLittleEndian xs.toList), ?_⟩
  rw [word, UInt32.toNat_ofNat_of_lt' hlt, hdigits]

namespace Bytes

theorem extract_between (before xs behind : Bytes) :
    (before ++ xs ++ behind).extract before.size (before.size + xs.size) = xs := by
  simp [Array.extract_append]

theorem extract_behind (before behind : Bytes) :
    (before ++ behind).extract before.size (before ++ behind).size = behind := by
  simp [Array.extract_append]

theorem sliceAt_append (before xs behind : Bytes) :
    sliceAt (before ++ xs ++ behind) xs.size before.size = .ok xs := by
  unfold sliceAt
  rw [if_neg (by simp), extract_between]

theorem wordAt_append (before : Bytes) (n : UInt32) (behind : Bytes) :
    wordAt (before ++ word n ++ behind) before.size = .ok n := by
  have hslice := sliceAt_append before (word n) behind
  have hdigits := ofLittleEndian_littleEndian 4 n.toNat
  have hlt : n.toNat < Nat.pow 256 4 := n.toNat_lt
  rw [size_word] at hslice
  rw [Nat.mod_eq_of_lt hlt] at hdigits
  unfold wordAt numberAt
  rw [hslice]
  simp [Functor.map, Except.map, word, hdigits]

end Bytes

/-! ### Functions -/

namespace Function

/-- Every length and every count fits a word. -/
structure Fits (f : Function) : Prop where
  name : f.name.utf8ByteSize < 4294967296
  paramCount : f.paramCount < 4294967296
  localCount : f.localCount < 4294967296
  maxStack : f.maxStack < 4294967296
  code : f.code.size < 4294967296

theorem readKind_undoes : Undoes readKind (fun k => #[k.byte]) fun _ => True := by
  unfold readKind
  refine (Reader.byte_undoes.bind (H := fun tag k xs => k.byte = tag ∧ xs = #[]) fun tag => ?_).congr
    fun k xs => ?_
  · cases htag : FunctionKind.ofByte? tag with
    | some kind =>
      have hbyte := FunctionKind.byte_of_ofByte? htag
      refine (Reads.pure kind).congr fun k xs => and_congr_left fun _ => ?_
      constructor
      · rintro rfl
        exact hbyte
      · rintro rfl
        rw [FunctionKind.ofByte?_byte] at htag
        exact Option.some.inj htag
    | none =>
      refine (Reads.throw _).congr fun k xs => ⟨False.elim, ?_⟩
      rintro ⟨rfl, -⟩
      rw [FunctionKind.ofByte?_byte] at htag
      cases htag
  · constructor
    · rintro ⟨_, _, _, ⟨-, rfl⟩, ⟨rfl, rfl⟩, rfl⟩
      exact ⟨trivial, rfl⟩
    · rintro ⟨-, rfl⟩
      exact ⟨k.byte, _, _, ⟨trivial, rfl⟩, ⟨rfl, rfl⟩, rfl⟩

theorem read_undoes : Undoes read encode Fits := by
  have hcode : ∀ name kind paramCount localCount maxStack, Reads (do
      let size ← Reader.count
      let code ← Reader.take size
      pure ⟨name, kind, paramCount, localCount, maxStack, code⟩) fun (f : Function) xs =>
        f.code.size < 4294967296 ∧ f = ⟨name, kind, paramCount, localCount, maxStack, f.code⟩ ∧
          xs = countWord f.code.size ++ f.code := by
    intro name kind paramCount localCount maxStack
    refine (Reader.count_undoes.bind fun size => (Reader.take_reads size).bind fun code =>
      Reads.pure _).congr fun f xs => ?_
    constructor
    · rintro ⟨_, _, _, ⟨hsize, rfl⟩, ⟨code, _, _, ⟨rfl, rfl⟩, ⟨rfl, rfl⟩, rfl⟩, rfl⟩
      exact ⟨hsize, rfl, by simp⟩
    · rintro ⟨hsize, hf, rfl⟩
      exact ⟨_, _, _, ⟨hsize, rfl⟩, ⟨f.code, _, _, ⟨rfl, rfl⟩, ⟨hf, rfl⟩, rfl⟩, by simp⟩
  refine (Reader.counted_undoes.bind fun name => readKind_undoes.bind fun kind =>
    Reader.count_undoes.bind fun paramCount => Reader.count_undoes.bind fun localCount =>
      Reader.count_undoes.bind fun maxStack =>
        hcode name kind paramCount localCount maxStack).congr fun f xs => ?_
  constructor
  · rintro ⟨name, xs₁, ys₁, ⟨hname, hxs₁⟩, hkind, hxs⟩
    obtain ⟨kind, xs₂, ys₂, ⟨-, hxs₂⟩, hparams, hys₁⟩ := hkind
    obtain ⟨paramCount, xs₃, ys₃, ⟨hparam, hxs₃⟩, hlocals, hys₂⟩ := hparams
    obtain ⟨localCount, xs₄, ys₄, ⟨hlocal, hxs₄⟩, hstacks, hys₃⟩ := hlocals
    obtain ⟨maxStack, xs₅, ys₅, ⟨hstack, hxs₅⟩, ⟨hcode, hf, hys₅⟩, hys₄⟩ := hstacks
    rw [hf]
    refine ⟨⟨hname, hparam, hlocal, hstack, hcode⟩, ?_⟩
    rw [hxs, hys₁, hys₂, hys₃, hys₄, hys₅, hxs₁, hxs₂, hxs₃, hxs₄, hxs₅]
    simp only [encode, Array.append_assoc]
  · rintro ⟨hf, rfl⟩
    exact ⟨f.name, _, _, ⟨hf.name, rfl⟩, ⟨f.kind, _, _, ⟨trivial, rfl⟩, ⟨f.paramCount, _, _,
      ⟨hf.paramCount, rfl⟩, ⟨f.localCount, _, _, ⟨hf.localCount, rfl⟩, ⟨f.maxStack, _, _,
      ⟨hf.maxStack, rfl⟩, ⟨hf.code, rfl, rfl⟩, rfl⟩, rfl⟩, rfl⟩, rfl⟩, by simp [encode]⟩

end Function

/-! ### Constant pools -/

namespace ConstantPool

/-- A pool that was read from bytes, or was empty at first, and to which texts were added. -/
inductive Built : ConstantPool → Prop
  | empty : Built .empty
  | read {pool : ConstantPool} {r r' : Reader} (done : read r = .ok pool r') : Built pool
  | add {pool : ConstantPool} (s : String) (earlier : Built pool) : Built (pool.add s).2

/-- The pool that holds these texts, each at its position. -/
def holding (ss : List String) : ConstantPool := ss.foldl append empty

theorem holding_concat (ss : List String) (s : String) :
    holding (ss ++ [s]) = (holding ss).append s := by
  simp [holding]

theorem strings_holding (ss : List String) : (holding ss).strings = ss.toArray := by
  induction ss using List.reverseRecOn with
  | nil => rfl
  | append_singleton ss s ih => simp [holding_concat, append, ih]

/-- The index of a pool that was built is that of its texts. -/
theorem Built.eq_holding {pool : ConstantPool} (h : Built pool) :
    pool = holding pool.strings.toList := by
  induction h with
  | empty => rfl
  | @read pool r r' done =>
    obtain ⟨n, _, -, hrest⟩ := bind_eq_ok.mp done
    obtain ⟨ss, _, -, hpool⟩ := bind_eq_ok.mp hrest
    cases hpool
    have hstrings := strings_holding ss
    rw [holding] at hstrings
    rw [hstrings]
    rfl
  | @add pool s _ ih =>
    unfold ConstantPool.add
    cases hs : pool.find? s with
    | some i => exact ih
    | none =>
      have hconcat := holding_concat pool.strings.toList s
      rw [← ih] at hconcat
      simp only [append, Array.toList_push]
      exact hconcat.symm

theorem read_undoes : Undoes read encode fun pool => pool = holding pool.strings.toList ∧
    pool.size < 4294967296 ∧ ∀ s ∈ pool.strings, s.utf8ByteSize < 4294967296 := by
  refine (Reader.count_undoes.bind fun n => (Reader.times_undoes Reader.counted_undoes n).bind
    fun ss => Reads.pure (holding ss)).congr fun pool xs => ?_
  constructor
  · rintro ⟨_, _, _, ⟨hn, rfl⟩, ⟨ss, _, _, ⟨⟨rfl, hss⟩, rfl⟩, ⟨rfl, rfl⟩, rfl⟩, rfl⟩
    have hstrings := strings_holding ss
    refine ⟨⟨by rw [hstrings], ?_, ?_⟩, ?_⟩
    · rwa [size, hstrings]
    · rw [hstrings]
      simpa using hss
    · simp [encode, size, hstrings]
  · rintro ⟨⟨hpool, hsize, hss⟩, rfl⟩
    refine ⟨_, _, _, ⟨hsize, rfl⟩, ⟨pool.strings.toList, _, _, ⟨⟨?_, ?_⟩, rfl⟩, ⟨hpool, rfl⟩, rfl⟩, ?_⟩
    · exact Array.length_toList
    · simpa using hss
    · simp [encode]

end ConstantPool

/-! ### Modules -/

namespace Module

/-- Every length and every count fits a word. -/
structure Fits (m : Module) : Prop where
  name : m.name.utf8ByteSize < 4294967296
  constants : m.constants.size < 4294967296
  texts : ∀ s ∈ m.constants.strings, s.utf8ByteSize < 4294967296
  functions : m.functions.length < 4294967296
  each : ∀ f ∈ m.functions, f.Fits

/-- A module whose header is current, whose counts fit, and whose pool can be read. -/
structure Sound (m : Module) : Prop where
  magic : m.magic = currentMagic
  version : m.version = currentVersion
  constants : m.constants = .holding m.constants.strings.toList
  fits : m.Fits

theorem readPayload_undoes : Undoes (readPayload currentMagic currentVersion) payload Sound := by
  refine (Reader.counted_undoes.bind fun name => ConstantPool.read_undoes.bind fun constants =>
    Reader.count_undoes.bind fun n => (Reader.times_undoes Function.read_undoes n).bind
      fun functions => Reads.pure _).congr fun m xs => ?_
  constructor
  · rintro ⟨name, _, _, ⟨hname, rfl⟩, ⟨constants, _, _, ⟨⟨hpool, hsize, htexts⟩, rfl⟩,
      ⟨_, _, _, ⟨hn, rfl⟩, ⟨functions, _, _, ⟨⟨rfl, hfunctions⟩, rfl⟩, ⟨rfl, rfl⟩, rfl⟩, rfl⟩,
      rfl⟩, rfl⟩
    exact ⟨⟨rfl, rfl, hpool, hname, hsize, htexts, hn, hfunctions⟩, by simp [payload]⟩
  · rintro ⟨⟨hmagic, hversion, hpool, hfits⟩, rfl⟩
    refine ⟨m.name, _, _, ⟨hfits.name, rfl⟩, ⟨m.constants, _, _, ⟨⟨hpool, hfits.constants,
      hfits.texts⟩, rfl⟩, ⟨_, _, _, ⟨hfits.functions, rfl⟩, ⟨m.functions, _, _, ⟨⟨rfl, hfits.each⟩,
      rfl⟩, ⟨?_, rfl⟩, rfl⟩, rfl⟩, rfl⟩, by simp [payload]⟩
    rw [← hmagic, ← hversion]

/-! ### Headers -/

/-- The bytes before a payload. -/
def header (magic : Bytes) (version checksum : UInt32) : Bytes :=
  magic ++ word version ++ word checksum

theorem size_header {magic : Bytes} (hmagic : magic.size = 4) (version checksum : UInt32) :
    (header magic version checksum).size = headerSize := by
  simp [header, headerSize, hmagic, size_word]

/-- The header is checked before the payload is read. -/
theorem decode_framed {magic : Bytes} (hmagic : magic.size = 4) (version checksum : UInt32)
    (p : Bytes) : decode (header magic version checksum ++ p) =
      if magic ≠ currentMagic then .error (.invalidMagic magic)
      else if version ≠ currentVersion then .error (.unsupportedVersion version)
      else if checksum ≠ crc32 p then .error (.checksumMismatch checksum (crc32 p))
      else match readPayload magic version (.between (header magic version checksum) p) with
        | .ok m _ => .ok m
        | .error e _ => .error (.decode e) := by
  have hsize := size_header hmagic version checksum
  have hfirst := Bytes.sliceAt_append #[] magic (word version ++ word checksum ++ p)
  have hversion := Bytes.wordAt_append magic version (word checksum ++ p)
  have hstored := Bytes.wordAt_append (magic ++ word version) checksum p
  have hpayload := Bytes.extract_behind (header magic version checksum) p
  have hreader : (⟨header magic version checksum ++ p, headerSize⟩ : Reader) =
      .between (header magic version checksum) p := by rw [Reader.between, hsize]
  rw [hsize] at hpayload
  simp only [hmagic, Array.empty_append, Array.size_append, size_word, ← Array.append_assoc]
    at hfirst hversion hstored
  unfold decode
  rw [hpayload, hreader]
  unfold header
  simp only [show (#[] : Bytes).size = 0 from rfl] at hfirst
  rw [hfirst, hversion, hstored]
  rfl

/-- Bytes that are long enough begin with a header. -/
theorem exists_header {b : Bytes} (h : headerSize ≤ b.size) :
    ∃ magic version checksum p, magic.size = 4 ∧ b = header magic version checksum ++ p := by
  have hsize : 12 ≤ b.size := h
  have hword : ∀ start, start + 4 ≤ 12 → ∃ n, b.extract start (start + 4) = word n := by
    intro start hstart
    refine exists_word ?_
    simp
    omega
  obtain ⟨version, hversion⟩ := hword 4 (by decide)
  obtain ⟨checksum, hchecksum⟩ := hword 8 (by decide)
  refine ⟨b.extract 0 4, version, checksum, b.extract 12 b.size, ?_, ?_⟩
  · simp
    omega
  · rw [header, ← hversion, ← hchecksum]
    simp [Array.extract_append_extract, hsize]

/-- Bytes that are too short are no module. -/
theorem headerSize_le_of_decode {b : Bytes} {m : Module} (h : decode b = .ok m) :
    headerSize ≤ b.size := by
  unfold decode at h
  obtain ⟨magic, -, h⟩ := except_bind_eq_ok.mp h
  split at h
  · cases h
  · obtain ⟨version, -, h⟩ := except_bind_eq_ok.mp h
    split at h
    · cases h
    · obtain ⟨stored, hstored, -⟩ := except_bind_eq_ok.mp h
      by_contra hsize
      have hshort : b.size < 8 + 4 := Nat.lt_of_not_le hsize
      simp [Bytes.wordAt, Bytes.numberAt, Bytes.sliceAt, hshort, Functor.map, Except.map,
        Except.mapError] at hstored

/-! ### Decoding -/

/-- Bytes are decoded just where they are a header, what was written for a sound module,
and some bytes that are left over. -/
theorem decode_eq_ok {b : Bytes} {m : Module} : decode b = .ok m ↔ m.Sound ∧
    ∃ rest, b = header m.magic m.version (crc32 (m.payload ++ rest)) ++ (m.payload ++ rest) := by
  constructor
  · intro h
    obtain ⟨magic, version, checksum, p, hsize, rfl⟩ := exists_header (headerSize_le_of_decode h)
    rw [decode_framed hsize] at h
    split at h
    · cases h
    · rename_i hmagic
      obtain rfl := not_not.mp hmagic
      split at h
      · cases h
      · rename_i hversion
        obtain rfl := not_not.mp hversion
        split at h
        · cases h
        · rename_i hchecksum
          obtain rfl := not_not.mp hchecksum
          split at h
          · rename_i m' r hread
            cases h
            obtain ⟨_, rest, ⟨hsound, rfl⟩, rfl, -⟩ := (readPayload_undoes _ _ _ _).mp hread
            exact ⟨hsound, rest, by rw [hsound.magic, hsound.version]⟩
          · cases h
  · rintro ⟨hsound, rest, rfl⟩
    rw [hsound.magic, hsound.version, decode_framed rfl]
    have hread := (readPayload_undoes (header currentMagic currentVersion
      (crc32 (m.payload ++ rest))) (m.payload ++ rest) m _).mpr ⟨m.payload, rest, ⟨hsound, rfl⟩, rfl, rfl⟩
    simp [hread]

/-- **Decoding undoes encoding.** A module with a current header, a pool that was built by
reading and adding, and counts that fit words is what its bytes are decoded to: in every
part, the index of its pool included, by which texts that are added later are found. -/
theorem decode_encode {m : Module} (hmagic : m.magic = currentMagic)
    (hversion : m.version = currentVersion) (hpool : m.constants.Built) (hfits : m.Fits) :
    decode m.encode = .ok m := by
  have hsound : m.Sound := ⟨hmagic, hversion, hpool.eq_holding, hfits⟩
  refine decode_eq_ok.mpr ⟨hsound, #[], ?_⟩
  simp [encode, header]

/-- A module whose pool was read from bytes and holds a text twice. -/
def doubled : Module where
  magic := currentMagic
  version := currentVersion
  name := "m"
  constants := .holding ["é", "", "é"]
  functions := [⟨"f", .asyncGenerator, 1, 2, 3, #[0x43]⟩]

theorem doubled_built : doubled.constants.Built := by
  have hread := (ConstantPool.read_undoes #[] doubled.constants.encode doubled.constants _).mpr
    ⟨doubled.constants.encode, #[], ⟨⟨rfl, by decide, by decide⟩, rfl⟩, by simp, rfl⟩
  exact .read hread

theorem doubled_fits : doubled.Fits where
  name := by decide
  constants := by decide
  texts := by decide
  functions := by decide
  each := by
    simp only [doubled, List.mem_singleton, forall_eq]
    exact ⟨by decide, by decide, by decide, by decide, by decide⟩

theorem decode_encode_doubled : doubled.constants.Built ∧ doubled.Fits ∧
    decode doubled.encode = .ok doubled :=
  ⟨doubled_built, doubled_fits, decode_encode rfl rfl doubled_built doubled_fits⟩

/-- Where the payload of bytes ends that are decoded: where reading it stops. -/
def readEnd (b : Bytes) : Nat :=
  match readPayload currentMagic currentVersion ⟨b, headerSize⟩ with
  | .ok _ r => r.pos
  | .error _ r => r.pos

/-- What is read of bytes that are decoded is what is written for the module. -/
theorem readEnd_header {m : Module} (h : m.Sound) (checksum : UInt32) (rest : Bytes) :
    readEnd (header m.magic m.version checksum ++ (m.payload ++ rest)) =
      headerSize + m.payload.size := by
  have hsize : (header m.magic m.version checksum).size = headerSize :=
    size_header (by rw [h.magic]; rfl) _ _
  have hread := (readPayload_undoes (header m.magic m.version checksum) (m.payload ++ rest) m
    _).mpr ⟨m.payload, rest, ⟨h, rfl⟩, rfl, rfl⟩
  rw [Reader.between, hsize] at hread
  simp [readEnd, hread, Reader.between, hsize]

/-- Bytes that are decoded are the encoding of the module just if all of them are read. -/
theorem encode_eq_iff {b : Bytes} {m : Module} (h : decode b = .ok m) :
    m.encode = b ↔ readEnd b = b.size := by
  obtain ⟨hsound, rest, rfl⟩ := decode_eq_ok.mp h
  have hsize : ∀ checksum, (header m.magic m.version checksum).size = headerSize := fun checksum =>
    size_header (by rw [hsound.magic]; rfl) _ _
  rw [readEnd_header hsound]
  constructor
  · intro heq
    rw [← heq]
    exact (congrArg (· + m.payload.size) (hsize (crc32 m.payload))).symm.trans Array.size_append.symm
  · intro heq
    have hrest : rest.size = 0 := by
      simp only [Array.size_append, hsize] at heq
      omega
    obtain rfl := Array.size_eq_zero_iff.mp hrest
    simp [encode, header]

/-- **Each module has one encoding.** What is read of bytes that are decoded is a part of
them that begins with the payload: it is what is written for the module, of which the
header, its checksum apart, is that of the bytes, too. So the bytes are the encoding of the
module just if all of them are read, the encoding is decoded to the same module, and no
other bytes are that are read to their end. -/
theorem decode_canonical {b : Bytes} {m : Module} (h : decode b = .ok m) :
    headerSize ≤ readEnd b ∧ readEnd b ≤ b.size ∧ m.payload = b.extract headerSize (readEnd b) ∧
      m.magic = b.extract 0 4 ∧ word m.version = b.extract 4 8 ∧
      m.encode.extract 8 headerSize = word (crc32 (b.extract headerSize (readEnd b))) ∧
      (m.encode = b ↔ readEnd b = b.size) ∧ decode m.encode = .ok m ∧
      ∀ b', decode b' = .ok m → readEnd b = b.size → readEnd b' = b'.size → b = b' := by
  have hfull := encode_eq_iff h
  have hunique : ∀ b', decode b' = .ok m → readEnd b = b.size → readEnd b' = b'.size → b = b' := by
    intro b' h' hb hb'
    calc b = m.encode := (hfull.mpr hb).symm
      _ = b' := (encode_eq_iff h').mpr hb'
  obtain ⟨hsound, rest, hb⟩ := decode_eq_ok.mp h
  have hmagic : m.magic.size = 4 := by rw [hsound.magic]; rfl
  have hagain : decode m.encode = .ok m := decode_eq_ok.mpr ⟨hsound, #[], by simp [encode, header]⟩
  have hend : readEnd b = headerSize + m.payload.size := by rw [hb, readEnd_header hsound]
  have hsize := size_header hmagic m.version (crc32 (m.payload ++ rest))
  have hpayload : b.extract headerSize (readEnd b) = m.payload := by
    have hbetween := Bytes.extract_between (header m.magic m.version (crc32 (m.payload ++ rest)))
      m.payload rest
    rwa [hsize, Array.append_assoc, ← hb, ← hend] at hbetween
  refine ⟨?_, ?_, hpayload.symm, ?_, ?_, ?_, hfull, hagain, hunique⟩
  · rw [hend]
    exact Nat.le_add_right _ _
  · rw [hend, hb]
    simp only [Array.size_append, hsize]
    omega
  · have hbetween := Bytes.extract_between #[] m.magic
      (word m.version ++ word (crc32 (m.payload ++ rest)) ++ (m.payload ++ rest))
    rw [hb, header]
    simpa [hmagic] using hbetween.symm
  · have hbetween := Bytes.extract_between m.magic (word m.version)
      (word (crc32 (m.payload ++ rest)) ++ (m.payload ++ rest))
    rw [hb, header]
    simpa [hmagic, size_word] using hbetween.symm
  · have hbetween := Bytes.extract_between (m.magic ++ word m.version) (word (crc32 m.payload))
      m.payload
    rw [hpayload]
    simpa [hmagic, size_word, encode, headerSize] using hbetween

/-- The bytes of a module with one more byte behind its function. -/
def trailing : Bytes :=
  header doubled.magic doubled.version (crc32 (doubled.payload ++ #[7])) ++
    (doubled.payload ++ #[7])

theorem decode_trailing : decode trailing = .ok doubled :=
  decode_eq_ok.mpr ⟨⟨rfl, rfl, doubled_built.eq_holding, doubled_fits⟩, #[7], rfl⟩

theorem decode_canonical_trailing : decode trailing = .ok doubled ∧
    readEnd trailing < trailing.size ∧ doubled.encode ≠ trailing ∧
      decode doubled.encode = .ok doubled := by
  have hend : readEnd trailing < trailing.size := by
    rw [trailing, readEnd_header ⟨rfl, rfl, doubled_built.eq_holding, doubled_fits⟩]
    simp [size_header, show doubled.magic.size = 4 from rfl]
  obtain ⟨-, -, -, -, -, -, hfull, hagain, -⟩ := decode_canonical decode_trailing
  exact ⟨decode_trailing, hend, fun h => Nat.ne_of_lt hend (hfull.mp h), hagain⟩

end Module
end ResourceMachine
