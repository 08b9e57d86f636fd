/-
# Arrays with a part overwritten

Some items of an array, one after the other, replaced by others: as a pass does
with its locals, and as the assembler does with the operand of a jump.

Key definition: `overwrite`.
Key theorems: `getElem?_overwrite`, `set_overwrite`, `overwrite_overwrite`.
-/
import ResourceMachine.Code.Bytes

namespace ResourceMachine

/-- The array with the items from `b` on replaced by others. -/
@[irreducible] def overwrite {α : Type} : Array α → Nat → List α → Array α
  | L, _, [] => L
  | L, b, v :: vs => overwrite (L.setIfInBounds b v) (b + 1) vs

section

variable {α : Type} {L : Array α} {b k j : Nat} {v : α} {vs : List α}

@[simp] theorem size_overwrite : ∀ (L : Array α) (b : Nat) (vs : List α),
    (overwrite L b vs).size = L.size
  | _, _, [] => by rw [overwrite]
  | L, b, v :: vs => by rw [overwrite, size_overwrite, Array.size_setIfInBounds]

theorem getElem?_overwrite : ∀ (L : Array α) (b : Nat) (vs : List α) (j : Nat),
    b + vs.length ≤ L.size →
    (overwrite L b vs)[j]? = if b ≤ j ∧ j < b + vs.length then vs[j - b]? else L[j]?
  | L, b, [], j, _ => by
    rw [overwrite, if_neg (by simp only [List.length_nil]; omega)]
  | L, b, v :: vs, j, h => by
    simp only [List.length_cons] at h ⊢
    rw [overwrite, getElem?_overwrite _ _ _ _ (by rw [Array.size_setIfInBounds]; omega),
      Array.getElem?_setIfInBounds]
    by_cases hj : b = j
    · subst hj
      rw [if_neg (by omega), if_pos rfl, if_pos (by omega), if_pos (by omega), Nat.sub_self]
      rfl
    · by_cases hlt : b + 1 ≤ j ∧ j < b + 1 + vs.length
      · rw [if_pos hlt, if_pos (by omega), show j - b = (j - (b + 1)) + 1 by omega,
          List.getElem?_cons_succ]
      · rw [if_neg hlt, if_neg hj, if_neg (by omega)]

@[simp high] theorem getElem?_overwrite_at (h : b + vs.length ≤ L.size) (hk : k < vs.length) :
    (overwrite L b vs)[b + k]? = vs[k]? := by
  rw [getElem?_overwrite L b vs _ h, if_pos (by omega), Nat.add_sub_cancel_left]

@[simp high] theorem getElem?_overwrite_zero (h : b + (v :: vs).length ≤ L.size) :
    (overwrite L b (v :: vs))[b]? = some v :=
  getElem?_overwrite_at (k := 0) h (Nat.succ_pos _)

theorem getElem?_overwrite_off (h : b + vs.length ≤ L.size) (hj : j < b ∨ b + vs.length ≤ j) :
    (overwrite L b vs)[j]? = L[j]? := by
  rw [getElem?_overwrite L b vs _ h, if_neg (by omega)]

@[simp] theorem set_overwrite (h : b + vs.length ≤ L.size) (hk : k < vs.length) :
    (overwrite L b vs).setIfInBounds (b + k) v = overwrite L b (vs.set k v) := by
  apply Array.ext_getElem?
  intro j
  have h' : b + (vs.set k v).length ≤ L.size := by rwa [List.length_set]
  rw [Array.getElem?_setIfInBounds, getElem?_overwrite L b vs j h,
    getElem?_overwrite L b (vs.set k v) j h', List.length_set, size_overwrite]
  by_cases hj : b + k = j
  · rw [if_pos hj, if_pos (by omega), if_pos (by omega), ← hj, Nat.add_sub_cancel_left,
      List.getElem?_set_self hk]
  · rw [if_neg hj]
    by_cases hin : b ≤ j ∧ j < b + vs.length
    · rw [if_pos hin, if_pos hin, List.getElem?_set_ne (by omega)]
    · rw [if_neg hin, if_neg hin]

@[simp] theorem set_overwrite_zero {w : α} (h : b + (v :: vs).length ≤ L.size) :
    (overwrite L b (v :: vs)).setIfInBounds b w = overwrite L b (w :: vs) :=
  set_overwrite (k := 0) h (Nat.succ_pos _)

/-- What is overwritten twice is what is written last. -/
theorem overwrite_overwrite {ws : List α} (h : b + vs.length ≤ L.size)
    (hlen : ws.length = vs.length) :
    overwrite (overwrite L b vs) b ws = overwrite L b ws := by
  apply Array.ext_getElem?
  intro j
  rw [getElem?_overwrite _ b ws j (by rw [size_overwrite]; omega), getElem?_overwrite L b vs j h,
    getElem?_overwrite L b ws j (by omega), hlen]
  by_cases hin : b ≤ j ∧ j < b + vs.length
  · rw [if_pos hin, if_pos hin]
  · rw [if_neg hin, if_neg hin, if_neg hin]

/-- What is overwritten as a whole gives way. -/
theorem overwrite_append {M R : Array α} (h : vs.length = M.size) :
    overwrite (L ++ M ++ R) L.size vs = L ++ vs.toArray ++ R := by
  have hfits : L.size + vs.length ≤ (L ++ M ++ R).size := by
    rw [Array.size_append, Array.size_append]
    omega
  have hsize : vs.toArray.size = M.size := h
  apply Array.ext_getElem?
  intro j
  rw [getElem?_overwrite _ _ _ _ hfits, Array.append_assoc, Array.append_assoc]
  by_cases hL : j < L.size
  · rw [if_neg (by omega), Array.getElem?_append_left hL, Array.getElem?_append_left hL]
  rw [Array.getElem?_append_right (Nat.le_of_not_lt hL), Array.getElem?_append_right (Nat.le_of_not_lt hL)]
  by_cases hM : j - L.size < M.size
  · rw [if_pos (by omega), Array.getElem?_append_left (by omega), List.getElem?_toArray]
  · rw [if_neg (by omega), Array.getElem?_append_right (Nat.le_of_not_lt hM),
      Array.getElem?_append_right (by omega), hsize]

/-- Any items are overwritten by what they are. -/
theorem exists_overwrite (L : Array α) (b n : Nat) (h : b + n ≤ L.size) :
    ∃ vs : List α, vs.length = n ∧ overwrite L b vs = L := by
  refine ⟨(L.toList.drop b).take n, by simp; omega, ?_⟩
  apply Array.ext_getElem?
  intro j
  have hlen : ((L.toList.drop b).take n).length = n := by simp; omega
  rw [getElem?_overwrite _ _ _ _ (by omega), hlen]
  by_cases hin : b ≤ j ∧ j < b + n
  · rw [if_pos hin, List.getElem?_take_of_lt (by omega), List.getElem?_drop,
      Nat.add_sub_cancel' hin.1, Array.getElem?_toList]
  · rw [if_neg hin]

end

/-- Replacing bytes overwrites them. -/
theorem Bytes.replaceAt_eq : ∀ (bytes : Bytes) (pos : Nat) (bs : List UInt8),
    bytes.replaceAt pos bs = overwrite bytes pos bs
  | _, _, [] => by rw [replaceAt, overwrite]
  | bytes, pos, b :: bs => by rw [replaceAt, overwrite, replaceAt_eq]

end ResourceMachine
