/-
# What a reading takes

A reading is a grammar: it says which bytes it takes for which value. `Reads m G` tells
that `m` yields a value just where bytes stand next that the grammar `G` allows for it,
and that it moves behind them. Readings in a row take bytes in a row, so the grammar of
what is put together is put together from the grammars of the parts.

Where each value has one form, the reading undoes a writing (`Undoes`): it takes what
was written, and nothing else.

Key definitions: `Reader.between`, `Reads`, `Undoes`.
Key theorems: `Reads.bind`, `Reader.counted_undoes`, `Reader.times_undoes`.
-/
import ResourceMachine.Code.Bytes
import ResourceMachine.Proofs.Computation

namespace ResourceMachine

/-! ### Grammars -/

/-- A reader that stands behind some bytes and before others. -/
def Reader.between (read rest : Bytes) : Reader := ⟨read ++ rest, read.size⟩

/-- A reading yields `a` just where bytes `xs` with `G a xs` stand next, and moves behind
them. -/
def Reads {α : Type} (m : Read α) (G : α → Bytes → Prop) : Prop :=
  ∀ read rest a r, m (.between read rest) = .ok a r ↔
    ∃ xs rest', G a xs ∧ rest = xs ++ rest' ∧ r = .between (read ++ xs) rest'

/-- A reading yields the values that fit, each from the bytes that are written for it. -/
def Undoes {α : Type} (m : Read α) (write : α → Bytes) (Fits : α → Prop) : Prop :=
  Reads m fun a xs => Fits a ∧ xs = write a

namespace Reads

variable {α β : Type} {m : Read α} {f : α → Read β} {G G' : α → Bytes → Prop}
  {H : α → β → Bytes → Prop}

theorem congr (h : Reads m G) (hG : ∀ a xs, G a xs ↔ G' a xs) : Reads m G' := by
  intro read rest a r
  simp only [h read rest a r, hG]

theorem pure (a : α) : Reads (Pure.pure a) fun a' xs => a' = a ∧ xs = #[] := by
  intro read rest a' r
  constructor
  · rintro ⟨⟩
    exact ⟨#[], rest, ⟨rfl, rfl⟩, by simp, by simp⟩
  · rintro ⟨_, _, ⟨rfl, rfl⟩, rfl, rfl⟩
    simp
    rfl

theorem throw (e : DecodeError) : Reads (MonadExcept.throw e : Read α) fun _ _ => False := by
  intro read rest a r
  constructor
  · nofun
  · rintro ⟨_, _, ⟨⟩, _⟩

/-- Looking where the reader stands takes nothing. -/
theorem get {f : Reader → Read α} (h : ∀ r, Reads (f r) G) : Reads (MonadState.get >>= f) G :=
  fun read rest => h (.between read rest) read rest

/-- Readings in a row take bytes in a row. -/
theorem bind (hm : Reads m G) (hf : ∀ a, Reads (f a) (H a)) :
    Reads (m >>= f) fun b xs => ∃ a ys zs, G a ys ∧ H a b zs ∧ xs = ys ++ zs := by
  intro read rest b r
  rw [bind_eq_ok]
  constructor
  · rintro ⟨a, r', hma, hfa⟩
    obtain ⟨ys, rest', hys, rfl, rfl⟩ := (hm _ _ _ _).mp hma
    obtain ⟨zs, rest'', hzs, rfl, rfl⟩ := (hf a _ _ _ _).mp hfa
    exact ⟨ys ++ zs, rest'', ⟨a, ys, zs, hys, hzs, rfl⟩, by simp, by simp⟩
  · rintro ⟨_, rest'', ⟨a, ys, zs, hys, hzs, rfl⟩, rfl, rfl⟩
    refine ⟨a, .between (read ++ ys) (zs ++ rest''), ?_, ?_⟩
    · exact (hm _ _ _ _).mpr ⟨ys, zs ++ rest'', hys, by simp, rfl⟩
    · exact (hf a _ _ _ _).mpr ⟨zs, rest'', hzs, rfl, by simp⟩

theorem map {g : α → β} (hm : Reads m G) :
    Reads (g <$> m) fun b xs => ∃ a, G a xs ∧ b = g a := by
  have h : Reads (m >>= fun a => Pure.pure (g a)) _ := hm.bind fun a => Reads.pure (g a)
  refine h.congr fun b xs => ?_
  constructor
  · rintro ⟨a, ys, _, hys, ⟨rfl, rfl⟩, rfl⟩
    exact ⟨a, by simpa using hys, rfl⟩
  · rintro ⟨a, hxs, rfl⟩
    exact ⟨a, xs, #[], hxs, ⟨rfl, rfl⟩, by simp⟩

end Reads

/-! ### What undoes a writing -/

namespace Reader

/-- Bytes are taken where there are enough of them. -/
theorem take_reads (n : Nat) : Reads (take n) fun bs xs => xs = bs ∧ bs.size = n := by
  intro read rest bs r
  have hsize : (between read rest).bytes.size = read.size + rest.size := Array.size_append
  unfold take Bytes.sliceAt
  by_cases hn : rest.size < n
  · rw [if_pos (by rw [hsize]; exact Nat.add_lt_add_left hn _)]
    constructor
    · nofun
    · rintro ⟨xs, rest', ⟨rfl, rfl⟩, rfl, -⟩
      rw [Array.size_append] at hn
      omega
  · have hle : n ≤ rest.size := Nat.le_of_not_lt hn
    rw [if_neg (by rw [hsize]; exact fun h => hn (Nat.lt_of_add_lt_add_left h))]
    constructor
    · rintro ⟨⟩
      refine ⟨rest.extract 0 n, rest.extract n rest.size, ⟨?_, ?_⟩, ?_, ?_⟩
      · simp [between, Array.extract_append]
      · simp [between, Array.extract_append, hle]
      · simp [hle]
      · simp [between, hle]
    · rintro ⟨xs, rest', ⟨rfl, rfl⟩, rfl, rfl⟩
      simp [between, Array.extract_append]

/-- The number that the next bytes stand for. -/
theorem number_undoes (n : Nat) :
    Undoes (number n) (fun k => (littleEndian n k).toArray) (· < Nat.pow 256 n) := by
  refine (take_reads n).map.congr fun k xs => ?_
  constructor
  · rintro ⟨bs, ⟨rfl, rfl⟩, rfl⟩
    have hlt := ofLittleEndian_lt xs.toList
    have hdigits := littleEndian_ofLittleEndian xs.toList
    rw [Array.length_toList] at hlt hdigits
    exact ⟨hlt, by simp [hdigits]⟩
  · rintro ⟨hlt, rfl⟩
    refine ⟨_, ⟨rfl, by simp [length_littleEndian]⟩, ?_⟩
    rw [ofLittleEndian_littleEndian, Nat.mod_eq_of_lt hlt]

theorem count_undoes : Undoes count countWord (· < 4294967296) := by
  refine (number_undoes 4).congr fun n xs => and_congr_right fun hn => ?_
  have hlt : n < 4294967296 := hn
  rw [countWord, ResourceMachine.word, UInt32.toNat_ofNat_of_lt' hlt]

theorem byte_undoes : Undoes byte (fun b => #[b]) fun _ => True := by
  refine (number_undoes 1).map.congr fun b xs => ?_
  constructor
  · rintro ⟨n, ⟨-, rfl⟩, rfl⟩
    exact ⟨trivial, rfl⟩
  · rintro ⟨-, rfl⟩
    exact ⟨b.toNat, ⟨b.toNat_lt, by simp [littleEndian]⟩, by simp⟩

end Reader

/-- The texts that bytes stand for. -/
theorem fromUTF8?_eq_some {bs : Bytes} {s : String} :
    String.fromUTF8? ⟨bs⟩ = some s ↔ bs = utf8 s := by
  unfold String.fromUTF8?
  split
  · rename_i h
    constructor
    · rintro ⟨⟩
      rfl
    · rintro rfl
      rfl
  · rename_i h
    refine ⟨nofun, ?_⟩
    rintro rfl
    exact absurd s.isValidUTF8 h

namespace Reader

/-- Bytes are accepted that are those of a text. -/
theorem text_reads (start : Nat) (bs : Bytes) :
    Reads (match String.fromUTF8? ⟨bs⟩ with
      | some s => pure s
      | none => throw (.invalidUtf8 start)) fun s xs => bs = utf8 s ∧ xs = #[] := by
  cases hs : String.fromUTF8? ⟨bs⟩ with
  | some s =>
    refine (Reads.pure s).congr fun s' xs => and_congr_left fun _ => ?_
    rw [← fromUTF8?_eq_some, hs]
    exact ⟨fun h => congrArg some h.symm, fun h => (Option.some.inj h).symm⟩
  | none =>
    refine (Reads.throw _).congr fun s' xs => ⟨False.elim, ?_⟩
    rintro ⟨h, -⟩
    rw [fromUTF8?_eq_some.mpr h] at hs
    cases hs

theorem counted_undoes : Undoes counted ResourceMachine.counted (·.utf8ByteSize < 4294967296) := by
  refine (count_undoes.bind fun n => .get fun r => (take_reads n).bind (text_reads r.pos)).congr
    fun s xs => ?_
  constructor
  · rintro ⟨_, _, _, ⟨hn, rfl⟩, ⟨_, ys, _, ⟨rfl, rfl⟩, ⟨rfl, rfl⟩, rfl⟩, rfl⟩
    exact ⟨hn, by simp [ResourceMachine.counted]; rfl⟩
  · rintro ⟨hs, rfl⟩
    refine ⟨s.utf8ByteSize, _, utf8 s, ⟨hs, rfl⟩, ?_, rfl⟩
    exact ⟨utf8 s, utf8 s, #[], ⟨rfl, rfl⟩, ⟨rfl, rfl⟩, by simp⟩

/-- Readings of several values undo writing one after the other. -/
theorem times_undoes {α : Type} {m : Read α} {write : α → Bytes} {Fits : α → Prop}
    (hm : Undoes m write Fits) (n : Nat) : Undoes (times m n)
      (fun as => as.toArray.flatMap write) fun as => as.length = n ∧ ∀ a ∈ as, Fits a := by
  induction n with
  | zero =>
    refine (Reads.pure []).congr fun as xs => ?_
    constructor
    · rintro ⟨rfl, rfl⟩
      exact ⟨⟨rfl, nofun⟩, rfl⟩
    · rintro ⟨⟨hlength, -⟩, rfl⟩
      obtain rfl := List.length_eq_zero_iff.mp hlength
      exact ⟨rfl, rfl⟩
  | succ n ih =>
    refine (hm.bind fun a => ih.bind fun as => Reads.pure (a :: as)).congr fun as xs => ?_
    constructor
    · rintro ⟨a, _, _, ⟨ha, rfl⟩, ⟨as, _, _, ⟨⟨rfl, has⟩, rfl⟩, ⟨rfl, rfl⟩, rfl⟩, rfl⟩
      exact ⟨⟨rfl, List.forall_mem_cons.mpr ⟨ha, has⟩⟩, by simp⟩
    · rintro ⟨⟨hlength, hfits⟩, rfl⟩
      obtain ⟨a, as, rfl⟩ := List.exists_cons_of_length_eq_add_one hlength
      obtain ⟨ha, has⟩ := List.forall_mem_cons.mp hfits
      exact ⟨a, _, _, ⟨ha, rfl⟩, ⟨as, _, _, ⟨⟨Nat.succ.inj hlength, has⟩, rfl⟩, ⟨rfl, rfl⟩, rfl⟩, by simp⟩

end Reader
end ResourceMachine
