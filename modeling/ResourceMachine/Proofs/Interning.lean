/-
# Texts are interned

The index of a pool that was built names, for every text that the pool holds and for no
other, the position where it stands first. So adding a text gives a position where it can
be read, makes the pool larger exactly if the text is new, and leaves every earlier
position as it was. A pool that was read from bytes may hold a text twice: the index keeps
the first position, and the second can still be read.

Key definitions: `ConstantPool.StandsFirst`, `ConstantPool.Indexed`.
Key theorems: `ConstantPool.Built.indexed`, `ConstantPool.addAll_extends`,
`ConstantPool.Built.nodup_addAll`, `ConstantPool.Built.interns`.
-/
import ResourceMachine.Proofs.FunctionEmission
import ResourceMachine.Proofs.ModuleEncoding
import Mathlib.Data.List.Nodup
import Mathlib.Data.Nat.Find

namespace ResourceMachine
namespace ConstantPool

variable {pool : ConstantPool} {s t : String} {i j : Nat}

/-! ### First positions -/

/-- The text stands at the position, and at none before it. -/
def StandsFirst (pool : ConstantPool) (s : String) (i : Nat) : Prop :=
  pool.get? i = some s ∧ ∀ j < i, pool.get? j ≠ some s

theorem lt_size_of_get? (h : pool.get? i = some s) : i < pool.size :=
  (Array.getElem?_eq_some_iff.mp h).1

theorem mem_iff_get? : s ∈ pool.strings ↔ ∃ i, pool.get? i = some s :=
  Array.mem_iff_getElem?

/-- A text that the pool holds stands somewhere first. -/
theorem exists_standsFirst (h : s ∈ pool.strings) : ∃ i, pool.StandsFirst s i := by
  classical
  have hsome := mem_iff_get?.mp h
  exact ⟨Nat.find hsome, Nat.find_spec hsome, fun j hj => Nat.find_min hsome hj⟩

theorem StandsFirst.unique (h : pool.StandsFirst s i) (h' : pool.StandsFirst s j) : i = j := by
  rcases Nat.lt_trichotomy i j with hlt | heq | hgt
  · exact absurd h.1 (h'.2 i hlt)
  · exact heq
  · exact absurd h'.1 (h.2 j hgt)

/-! ### Pools that grow -/

theorem get?_append (pool : ConstantPool) (s : String) (i : Nat) :
    (pool.append s).get? i = if i = pool.size then some s else pool.get? i :=
  Array.getElem?_push

theorem append_extends (pool : ConstantPool) (s : String) : pool.Extends (pool.append s) :=
  fun _ _ h => Emitter.getElem?_append_text h

theorem add_extends (pool : ConstantPool) (s : String) : pool.Extends (pool.add s).2 := by
  unfold add
  cases pool.find? s with
  | some i => exact .refl pool
  | none => exact append_extends pool s

theorem addAll_extends : ∀ (ss : List String) (pool : ConstantPool), pool.Extends (pool.addAll ss)
  | [], pool => .refl pool
  | s :: ss, pool => (add_extends pool s).trans (addAll_extends ss (pool.add s).2)

theorem Extends.size_le {pool' : ConstantPool} (h : pool.Extends pool') : pool.size ≤ pool'.size := by
  by_contra hlt
  have hin : pool'.size < pool.strings.size := Nat.lt_of_not_le hlt
  have hbehind := h pool'.size _ (Array.getElem?_eq_getElem hin)
  exact Nat.lt_irrefl _ (lt_size_of_get? hbehind)

/-- A pool that extends another holds at each of its positions what stood there. -/
theorem Extends.get?_eq {pool' : ConstantPool} (h : pool.Extends pool') (hi : i < pool.size) :
    pool'.get? i = pool.get? i := by
  have hat : pool.get? i = some pool.strings[i] := Array.getElem?_eq_getElem hi
  rw [hat, h i _ hat]

/-! ### The index -/

/-- The index names each text's first position, and no text that the pool does not hold. -/
def Indexed (pool : ConstantPool) : Prop :=
  ∀ s i, pool.find? s = some i ↔ pool.StandsFirst s i

theorem Indexed.mem_of_find? (h : pool.Indexed) (hs : pool.find? s = some i) : s ∈ pool.strings :=
  mem_iff_get?.mpr ⟨i, ((h s i).mp hs).1⟩

theorem Indexed.find?_eq_none (h : pool.Indexed) : pool.find? s = none ↔ s ∉ pool.strings := by
  constructor
  · intro hnone hmem
    obtain ⟨i, hi⟩ := exists_standsFirst hmem
    rw [(h s i).mpr hi] at hnone
    cases hnone
  · intro hnew
    rw [Option.eq_none_iff_forall_ne_some]
    intro i hi
    exact hnew (h.mem_of_find? hi)

/-- A text behind the others is found there if it is new, and where it was otherwise. -/
theorem find?_append (pool : ConstantPool) (s t : String) : (pool.append s).find? t =
    if t = s ∧ pool.find? s = none then some pool.size else pool.find? t := by
  unfold find? append
  cases hs : pool.find? s with
  | some i =>
    rw [find?] at hs
    simp [hs]
  | none =>
    rw [find?] at hs
    by_cases ht : t = s
    · simp [hs, ht, size]
    · have hne : (t == s) = false := beq_eq_false_iff_ne.mpr ht
      simp [ht, List.lookup_cons, hne]

/-- Texts that stand in a pool stand first where they did before one more was put behind them. -/
theorem standsFirst_append (hlt : i < pool.size) :
    (pool.append s).StandsFirst t i ↔ pool.StandsFirst t i := by
  have hat : ∀ j ≤ i, (pool.append s).get? j = pool.get? j := fun j hj =>
    (append_extends pool s).get?_eq (Nat.lt_of_le_of_lt hj hlt)
  unfold StandsFirst
  rw [hat i (Nat.le_refl i)]
  refine and_congr_right fun _ => forall₂_congr fun j hj => ?_
  rw [hat j (Nat.le_of_lt hj)]

theorem Indexed.append (h : pool.Indexed) (s : String) : (pool.append s).Indexed := by
  intro t i
  rw [find?_append]
  by_cases hnew : t = s ∧ pool.find? s = none
  · obtain ⟨rfl, hnone⟩ := hnew
    have hout : t ∉ pool.strings := h.find?_eq_none.mp hnone
    have hlast : (pool.append t).StandsFirst t pool.size := by
      refine ⟨by simp [get?_append], fun j hj hat => hout (mem_iff_get?.mpr ⟨j, ?_⟩)⟩
      rwa [(append_extends pool t).get?_eq hj] at hat
    rw [if_pos ⟨rfl, hnone⟩, Option.some.injEq]
    exact ⟨fun hi => hi ▸ hlast, hlast.unique⟩
  · rw [if_neg hnew, h t i]
    by_cases hlt : i < pool.size
    · exact (standsFirst_append hlt).symm
    · refine ⟨fun hi => absurd (lt_size_of_get? hi.1) hlt, fun hi => ?_⟩
      -- behind the others only the new text stands, and that one was found before
      have hat := hi.1
      rw [get?_append] at hat
      split at hat
      · obtain rfl := Option.some.inj hat
        obtain ⟨j, hj⟩ := Option.ne_none_iff_exists'.mp fun hnone => hnew ⟨rfl, hnone⟩
        have hfirst := (h s j).mp hj
        have hin := lt_size_of_get? hfirst.1
        exact (hi.2 j (by omega) ((append_extends pool s).get?_eq hin ▸ hfirst.1)).elim
      · exact absurd (lt_size_of_get? hat) hlt

theorem indexed_holding (ss : List String) : (holding ss).Indexed := by
  induction ss using List.reverseRecOn with
  | nil =>
    intro s i
    refine ⟨fun h => ?_, fun h => ?_⟩
    · cases h
    · cases h.1
  | append_singleton ss s ih =>
    rw [holding_concat]
    exact ih.append s

theorem Built.indexed (h : pool.Built) : pool.Indexed := by
  rw [h.eq_holding]
  exact indexed_holding _

/-! ### Adding -/

/-- A text is read where adding it says that it stands. -/
theorem Built.get?_add (h : pool.Built) (s : String) :
    (pool.add s).2.get? (pool.add s).1 = some s := by
  unfold ConstantPool.add
  cases hs : pool.find? s with
  | some i => exact ((h.indexed s i).mp hs).1
  | none => simp [get?_append, size]

/-- Adding a text that is held leaves the pool alone; a new one is put behind the others. -/
theorem Built.strings_add (h : pool.Built) (s : String) :
    (pool.add s).2.strings = if s ∈ pool.strings then pool.strings else pool.strings.push s := by
  unfold ConstantPool.add
  cases hs : pool.find? s with
  | some i => rw [if_pos (h.indexed.mem_of_find? hs)]
  | none => rw [if_neg (h.indexed.find?_eq_none.mp hs), ConstantPool.append]

theorem Built.size_add (h : pool.Built) (s : String) :
    (pool.add s).2.size = if s ∈ pool.strings then pool.size else pool.size + 1 := by
  rw [size, h.strings_add]
  split
  · rfl
  · exact Array.size_push s

theorem Built.nodup_add (h : pool.Built) (hd : pool.strings.toList.Nodup) (s : String) :
    (pool.add s).2.strings.toList.Nodup := by
  rw [h.strings_add]
  split
  · exact hd
  · rename_i hnew
    rw [Array.toList_push]
    exact List.nodup_append.mpr ⟨hd, List.nodup_singleton s, fun a ha b hb hab =>
      hnew (Array.mem_toList_iff.mp (List.mem_singleton.mp hb ▸ hab ▸ ha))⟩

/-- Adding brings no text into a pool twice. -/
theorem Built.nodup_addAll (h : pool.Built) (hd : pool.strings.toList.Nodup) (ss : List String) :
    (pool.addAll ss).strings.toList.Nodup := by
  induction ss generalizing pool with
  | nil => exact hd
  | cons s ss ih => exact ih (h.add s) (h.nodup_add hd s)

/-- **Texts are interned.** In a pool that was empty or read from bytes and then added to,
the index maps exactly the texts that are present to their first positions. Adding a text
gives a position where it stands, grows the pool if and only if the text was absent, and
changes no earlier position; nor do later additions, as long as positions fit a word. What
was only added to the empty pool stands there once. -/
theorem Built.interns (h : pool.Built) (s : String) {later : List String}
    (few : ((pool.add s).2.addAll later).size < 4294967296) :
    (∀ t i, pool.find? t = some i ↔ pool.StandsFirst t i) ∧
    (∀ t, (pool.find? t).isSome ↔ t ∈ pool.strings) ∧
    (pool.add s).2.get? (pool.add s).1 = some s ∧
    (pool.size < (pool.add s).2.size ↔ s ∉ pool.strings) ∧
    (s ∈ pool.strings → (pool.add s).2 = pool) ∧
    (∀ i < pool.size, (pool.add s).2.get? i = pool.get? i) ∧
    (∀ i < (pool.add s).2.size, ((pool.add s).2.addAll later).get? i = (pool.add s).2.get? i) ∧
    (UInt32.ofNat (pool.add s).1).toNat = (pool.add s).1 ∧
    ∀ ss, (ConstantPool.empty.addAll ss).strings.toList.Nodup := by
  have hlater := addAll_extends later (pool.add s).2
  have hat := h.get?_add s
  have hword : (pool.add s).1 < 4294967296 :=
    Nat.lt_trans (Nat.lt_of_lt_of_le (lt_size_of_get? hat) hlater.size_le) few
  refine ⟨h.indexed, fun t => ?_, hat, ?_, fun hmem => ?_, fun i hi => ?_, fun i hi => ?_, ?_, ?_⟩
  · rw [Option.isSome_iff_ne_none, Ne, h.indexed.find?_eq_none, not_not]
  · rw [h.size_add]
    split <;> simp_all
  · have hfound := mt h.indexed.find?_eq_none.mp (not_not.mpr hmem)
    obtain ⟨i, hi⟩ := Option.ne_none_iff_exists'.mp hfound
    simp [ConstantPool.add, hi]
  · exact (add_extends pool s).get?_eq hi
  · exact hlater.get?_eq hi
  · rw [UInt32.toNat_ofNat', Nat.mod_eq_of_lt hword]
  · exact fun ss => Built.empty.nodup_addAll List.nodup_nil ss

/-- Adding a text that was read twice gives its first position, and the second one can still
be read behind everything that is added later. -/
theorem interns_doubled : Module.doubled.constants.Built ∧
    ((Module.doubled.constants.add "é").2.addAll ["log", "é"]).size < 4294967296 ∧
    (Module.doubled.constants.add "é").1 = 0 ∧
    (Module.doubled.constants.add "é").2 = Module.doubled.constants ∧
    ((Module.doubled.constants.add "é").2.addAll ["log", "é"]).get? 2 = some "é" := by
  have hfew : ((Module.doubled.constants.add "é").2.addAll ["log", "é"]).size < 4294967296 := by
    decide
  obtain ⟨-, -, -, -, hsame, -, hlater, -⟩ := Module.doubled_built.interns "é" hfew
  have hheld : "é" ∈ Module.doubled.constants.strings := mem_iff_get?.mpr ⟨0, rfl⟩
  exact ⟨Module.doubled_built, hfew, by decide, hsame hheld, (hlater 2 (by decide)).trans rfl⟩

end ConstantPool
end ResourceMachine
