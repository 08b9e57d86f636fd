/-
# Shuffling the operand stack

Moving the value at a depth to the top and moving the top down to that depth undo each
other, and leave what lies deeper where it is. The emitter has a shorter form of each
shuffle for the depths 0 and 1: the code that it emits does at every depth what the
general instruction does.

Key definitions: `OperandStack.Shuffles`, `Activation.RunsOver`, `Emitter.Effects`.
Key theorems: `OperandStack.pick_append`, `OperandStack.unpick_append`,
`OperandStack.exists_shuffles`, `Emitter.pick_effects`, `Emitter.unpick_effects`,
`Emitter.dupAt_effects`, `Emitter.popN_effects`, `OperandStack.shuffles_undo_and_run`.
-/
import ResourceMachine.Proofs.EmittedCode
import ResourceMachine.Proofs.OperandUse
import Mathlib.Tactic.SplitIfs

namespace ResourceMachine

/-! ### Moving up and down -/

namespace OperandStack

variable {α : Type} {s up down : OperandStack α} {n : Nat}

/-- What moving the value at a depth to the top, and moving the top down to that depth,
make of a stack: each undoes the other, both keep the same values, and what is deeper
stays in place. -/
structure Shuffles (s : OperandStack α) (n : Nat) (up down : OperandStack α) : Prop where
  pick : s.pick n = .ok up
  unpick_up : up.unpick n = .ok s
  unpick : s.unpick n = .ok down
  pick_down : down.pick n = .ok s
  perm_up : up.slots.Perm s.slots
  perm_down : down.slots.Perm s.slots
  below_up : up.slots.drop (n + 1) = s.slots.drop (n + 1)
  below_down : down.slots.drop (n + 1) = s.slots.drop (n + 1)

theorem pick_append (above below : List α) (v : α) (capacity : Nat) :
    pick ⟨above ++ v :: below, capacity⟩ above.length = .ok ⟨v :: (above ++ below), capacity⟩ := by
  simp [pick, List.eraseIdx_append_of_length_le]

theorem insertIdx_append (v : α) : ∀ above below : List α,
    (above ++ below).insertIdx above.length v = above ++ v :: below
  | [], _ => rfl
  | a :: above, below => congrArg (a :: ·) (insertIdx_append v above below)

theorem unpick_append (above below : List α) (v : α) (capacity : Nat) :
    unpick ⟨v :: (above ++ below), capacity⟩ above.length = .ok ⟨above ++ v :: below, capacity⟩ := by
  simp [unpick, insertIdx_append]

/-- A list that is longer than a depth, split at that depth. -/
theorem exists_split {slots : List α} (h : n < slots.length) :
    ∃ above v below, above.length = n ∧ slots = above ++ v :: below :=
  ⟨slots.take n, slots[n], slots.drop (n + 1), by simp; omega, by simp⟩

/-- A stack that is deeper than `n` can be shuffled at `n`. -/
theorem exists_shuffles (h : n < s.depth) : ∃ up down, s.Shuffles n up down := by
  obtain ⟨slots, capacity⟩ := s
  obtain ⟨above, v, below, rfl, rfl⟩ := exists_split h
  -- seen from the top, the same values are one value and as many above what stays
  obtain ⟨t, above', hlength, htop⟩ : ∃ t above', above'.length = above.length ∧
      above ++ v :: below = t :: (above' ++ below) := by
    cases above with
    | nil => exact ⟨v, [], rfl, rfl⟩
    | cons t above => exact ⟨t, above ++ [v], by simp, by simp⟩
  refine ⟨⟨v :: (above ++ below), capacity⟩, ⟨above' ++ t :: below, capacity⟩, ?_⟩
  exact
    { pick := pick_append above below v capacity
      unpick_up := unpick_append above below v capacity
      unpick := by rw [htop, ← hlength, unpick_append]
      pick_down := by rw [htop, ← hlength, pick_append]
      perm_up := List.perm_middle.symm
      perm_down := by
        rw [htop]
        exact List.perm_middle
      below_up := by simp
      below_down := by
        rw [htop, ← hlength]
        simp }

/-- A stack that is no deeper than `n` is not shuffled at `n`. -/
theorem pick_eq_error (h : s.depth ≤ n) : s.pick n = .error .stackUnderflow := by
  have hnone : s.slots[n]? = none := List.getElem?_eq_none h
  simp only [pick, hnone]

theorem unpick_eq_error (h : s.depth ≤ n) : s.unpick n = .error .stackUnderflow := by
  obtain ⟨_ | ⟨a, rest⟩, capacity⟩ := s
  · rfl
  · have hnot : ¬ n ≤ rest.length := Nat.not_le.mpr h
    simp only [unpick, if_neg hnot]

end OperandStack

/-! ### Running what is emitted -/

/-- The activation with another operand stack. -/
def Activation.withStack {σ : Type} (a : Activation σ) (s : OperandStack Value) : Activation σ :=
  { a with frame := { a.frame with stack := s } }

namespace Exec

variable {σ : Type} {a : Activation σ} {s s' : OperandStack Value} {next : Nat}

theorem shuffle_eq {f : OperandStack Value → Except Fault (OperandStack Value)}
    (ha : a.frame.stack = s) (hf : f s = .ok s') :
    Exec.shuffle next f a = .ok (.goto next) (a.withStack s') := by
  have honto : Exec.onStack f a = .ok ⟨⟩ (a.withStack s') := by
    simp only [Exec.onStack, ha, hf, Activation.withStack]
  exact bind_of_ok honto

theorem pushThen_withStack {v : Value} (ha : a.frame.stack = s) (room : s.depth < s.capacity) :
    Exec.pushThen next v a = .ok (.goto next) (a.withStack { s with slots := v :: s.slots }) := by
  have hpush : s.push v = .ok { s with slots := v :: s.slots } := if_neg (Nat.not_le.mpr room)
  exact shuffle_eq (f := fun s => s.push v) ha hpush

theorem peekAt_withStack {n : Nat} {v : Value} (ha : a.frame.stack = s) (hv : s.slots[n]? = some v) :
    Exec.peekAt n a = .ok v a := by
  simp only [Exec.peekAt, ha, OperandStack.peekAt, hv]

theorem dropAll_withStack : ∀ (above below : List Value) {capacity : Nat} {a : Activation σ},
    a.frame.stack = ⟨above ++ below, capacity⟩ →
    Exec.dropAll above.length a = .ok ⟨⟩ (a.withStack ⟨below, capacity⟩)
  | [], below, capacity, a, ha => by
    rw [List.nil_append] at ha
    rw [← ha]
    rfl
  | v :: above, below, capacity, a, ha => by
    have hpop : Exec.pop a = .ok v (a.withStack ⟨above ++ below, capacity⟩) := by
      simp only [Exec.pop, ha, OperandStack.pop, List.cons_append, Activation.withStack]
    exact (bind_of_ok hpop).trans (dropAll_withStack above below rfl)

end Exec

/-- A run of the code that comes to an offset with one operand stack goes on from another
offset with another stack, and with nothing else changed. -/
def Activation.RunsOver (code : Bytes) (pc pc' : Nat) (s s' : OperandStack Value) : Prop :=
  ∃ k, ∀ {σ : Type} (env : Env σ) (fuel steps : Nat) (a : Activation σ), a.frame.stack = s →
    runFrom env code none (fuel + k) steps pc a =
      runFrom env code none fuel (steps + k) pc' (a.withStack s')

/-- The emission succeeds wherever as many values are counted as are needed. Running what
it appends, with any code around it, takes the operand stack from `s` to `s'`, and counts
accordingly. -/
def Emitter.Effects (m : Emit Unit) (needed : Nat) (s s' : OperandStack Value) : Prop :=
  ∀ e : Emitter, needed ≤ e.depth → ∃ e' bytes, m e = .ok () e' ∧ e'.code = e.code ++ bytes ∧
    e'.depth + s.depth = e.depth + s'.depth ∧
    ∀ code : Bytes, code.Holds e.code.size bytes →
      Activation.RunsOver code e.code.size e'.code.size s s'

namespace Emitter

variable {s s' : OperandStack Value} {needed : Nat}

/-- Nothing needs to be done where the stack is to stay as it is. -/
theorem Effects.nothing (needed : Nat) (s : OperandStack Value) : Effects (pure ()) needed s s :=
  fun e _ => ⟨e, #[], rfl, by simp, rfl, fun _ _ => ⟨0, fun _ _ _ a ha => by rw [← ha]; rfl⟩⟩

/-- One instruction that takes a stack to another one does so where it is emitted. -/
theorem Effects.emit {i : Instr} (hpops : i.stackEffect.pops ≤ needed)
    (hdepth : s'.depth + i.stackEffect.pops = s.depth + i.stackEffect.pushes)
    (hinstr : ∀ {σ : Type} (env : Env σ) (size next : Nat) (a : Activation σ), a.frame.stack = s →
      Exec.instr env size next i a = .ok (.goto next) (a.withStack s')) :
    Effects (emit i) needed s s' := by
  intro e he
  cases hemit : Emitter.emit i e with
  | error x e' =>
    have hrefused := (emit_refused.mp hemit).1
    omega
  | ok u e' =>
    obtain ⟨-, rfl⟩ := emit_eq_ok hemit
    refine ⟨_, i.encode, rfl, rfl, ?_, fun code hcode => ⟨1, fun env fuel steps a ha => ?_⟩⟩
    · simp only [withDepth]
      omega
    · have hstep : a.step env code e.code.size =
          .running (e.code.size + i.size) (a.withStack s') := by
        rw [Activation.step_of_has hcode, Activation.perform, hinstr env _ _ a ha]
        rfl
      rw [Activation.runFrom, hstep, Array.size_append, Instr.size_encode]
      rfl

variable {above below : List Value} {v : Value} {n : UInt8} {capacity : Nat}

theorem eq_nil_of_zero (h : above.length = n.toNat) (hn : n = 0) : above = [] :=
  List.eq_nil_of_length_eq_zero (h.trans (congrArg UInt8.toNat hn))

theorem exists_eq_of_one (h : above.length = n.toNat) (hn : n = 1) : ∃ a, above = [a] :=
  List.length_eq_one_iff.mp (h.trans (congrArg UInt8.toNat hn))

/-- The value at a depth is moved to the top. -/
theorem pick_effects (h : above.length = n.toNat) : Effects (pick n) (n.toNat + 1)
    ⟨above ++ v :: below, capacity⟩ ⟨v :: (above ++ below), capacity⟩ := by
  unfold pick
  split_ifs with h0 h1
  · obtain rfl := eq_nil_of_zero h h0
    exact .nothing _ _
  · obtain ⟨a, rfl⟩ := exists_eq_of_one h h1
    exact .emit (by rw [h1]; exact Nat.le_refl 2) rfl fun _ _ _ _ ha => Exec.shuffle_eq ha rfl
  · have heffect : (Instr.pick n).stackEffect = ⟨n.toNat + 1, n.toNat + 1⟩ :=
      Instr.stackEffect_byte rfl
    refine .emit (Nat.le_of_eq (by rw [heffect])) ?_ fun _ _ _ _ ha =>
      Exec.shuffle_eq ha (h ▸ OperandStack.pick_append ..)
    simp only [heffect, OperandStack.depth, List.length_cons, List.length_append]
    omega

/-- The top is moved down to a depth. -/
theorem unpick_effects (h : above.length = n.toNat) : Effects (unpick n) (n.toNat + 1)
    ⟨v :: (above ++ below), capacity⟩ ⟨above ++ v :: below, capacity⟩ := by
  unfold unpick
  split_ifs with h0 h1
  · obtain rfl := eq_nil_of_zero h h0
    exact .nothing _ _
  · obtain ⟨a, rfl⟩ := exists_eq_of_one h h1
    exact .emit (by rw [h1]; exact Nat.le_refl 2) rfl fun _ _ _ _ ha => Exec.shuffle_eq ha rfl
  · have heffect : (Instr.unpick n).stackEffect = ⟨n.toNat + 1, n.toNat + 1⟩ :=
      Instr.stackEffect_byte rfl
    refine .emit (Nat.le_of_eq (by rw [heffect])) ?_ fun _ _ _ _ ha =>
      Exec.shuffle_eq ha (h ▸ OperandStack.unpick_append ..)
    simp only [heffect, OperandStack.depth, List.length_cons, List.length_append]
    omega

/-- The value at a depth is copied to the top, where there is room for it. -/
theorem dupAt_effects (h : above.length = n.toNat)
    (room : (above ++ v :: below).length < capacity) : Effects (dupAt n) (n.toNat + 1)
    ⟨above ++ v :: below, capacity⟩ ⟨v :: (above ++ v :: below), capacity⟩ := by
  have hat : (above ++ v :: below)[n.toNat]? = some v := by simp [← h]
  unfold dupAt
  split_ifs with h0
  · subst h0
    refine .emit (Nat.le_refl 1) rfl fun _ _ _ a ha => ?_
    exact (bind_of_ok (Exec.peekAt_withStack ha hat)).trans (Exec.pushThen_withStack ha room)
  · have heffect : (Instr.dupAt n).stackEffect = ⟨n.toNat + 1, n.toNat + 2⟩ :=
      Instr.stackEffect_byte rfl
    refine .emit (Nat.le_of_eq (by rw [heffect])) ?_ fun _ _ _ a ha =>
      (bind_of_ok (Exec.peekAt_withStack ha hat)).trans (Exec.pushThen_withStack ha room)
    simp only [heffect, OperandStack.depth, List.length_cons]
    omega

/-- The values on top are removed. -/
theorem popN_effects (h : above.length = n.toNat) : Effects (popN n) n.toNat
    ⟨above ++ below, capacity⟩ ⟨below, capacity⟩ := by
  have hdrop : ∀ {σ : Type} (next : Nat) (a : Activation σ),
      a.frame.stack = ⟨above ++ below, capacity⟩ →
      (Exec.dropAll n.toNat >>= fun _ => pure (.goto next) : Exec σ Next) a =
        .ok (.goto next) (a.withStack ⟨below, capacity⟩) := fun next a ha =>
    bind_of_ok (h ▸ Exec.dropAll_withStack above below ha)
  unfold popN
  split_ifs with h0 h1
  · obtain rfl := eq_nil_of_zero h h0
    exact .nothing _ _
  · obtain ⟨a, rfl⟩ := exists_eq_of_one h h1
    subst h1
    exact .emit (Nat.le_refl 1) rfl fun _ _ next a ha => hdrop next a ha
  · have heffect : (Instr.popN n).stackEffect = ⟨n.toNat, 0⟩ := Instr.stackEffect_byte rfl
    refine .emit (Nat.le_of_eq (by rw [heffect])) ?_ fun _ _ next a ha => hdrop next a ha
    simp only [heffect, OperandStack.depth, List.length_append]
    omega

end Emitter

/-- **Shuffles undo each other, and their short forms agree with the general ones.** At a
depth that a stack has, moving a value up and moving the top down undo each other, keep
the values, and leave what is deeper in place; at any other depth both fail for want of
values and leave the activation as it was. The code that is emitted to move the value at a
depth to the top, to move the top down to a depth, to copy the value at a depth to the top
where there is room for it, and to remove the values on top does just that. -/
theorem OperandStack.shuffles_undo_and_run :
    (∀ {α : Type} (s : OperandStack α) (n : Nat), n < s.depth → ∃ up down, s.Shuffles n up down) ∧
    (∀ {σ : Type} (a : Activation σ) (n : Nat), a.frame.stack.depth ≤ n →
      Exec.onStack (·.pick n) a = .error .stackUnderflow a ∧
      Exec.onStack (·.unpick n) a = .error .stackUnderflow a) ∧
    ∀ (n : UInt8) (above below : List Value) (v : Value) (capacity : Nat),
      above.length = n.toNat →
      Emitter.Effects (Emitter.pick n) (n.toNat + 1)
        ⟨above ++ v :: below, capacity⟩ ⟨v :: (above ++ below), capacity⟩ ∧
      Emitter.Effects (Emitter.unpick n) (n.toNat + 1)
        ⟨v :: (above ++ below), capacity⟩ ⟨above ++ v :: below, capacity⟩ ∧
      ((above ++ v :: below).length < capacity → Emitter.Effects (Emitter.dupAt n) (n.toNat + 1)
        ⟨above ++ v :: below, capacity⟩ ⟨v :: (above ++ v :: below), capacity⟩) ∧
      Emitter.Effects (Emitter.popN n) n.toNat ⟨above ++ below, capacity⟩ ⟨below, capacity⟩ := by
  refine ⟨fun s n hn => exists_shuffles hn, fun a n hn => ⟨?_, ?_⟩,
    fun n above below v capacity h => ?_⟩
  · simp only [Exec.onStack, pick_eq_error hn]
  · simp only [Exec.onStack, unpick_eq_error hn]
  · exact ⟨Emitter.pick_effects h, Emitter.unpick_effects h, Emitter.dupAt_effects h,
      Emitter.popN_effects h⟩

/-- Three values on a stack with room for one more: the deepest is moved to the top and
back, or copied, and two of them are removed. Where there are two values there is no third
one to move. -/
theorem OperandStack.shuffles_undo_and_run_three :
    2 < (⟨[.null, .undefined, .closing], 4⟩ : OperandStack Value).depth ∧
    (∃ up down, (⟨[.null, .undefined, .closing], 4⟩ : OperandStack Value).Shuffles 2 up down) ∧
    Exec.keeping.frame.stack.depth ≤ 2 ∧
    Exec.onStack (·.unpick 2) Exec.keeping = .error .stackUnderflow Exec.keeping ∧
    [Value.null, .undefined].length = (2 : UInt8).toNat ∧
    ([Value.null, .undefined] ++ Value.closing :: []).length < 4 ∧
    Emitter.Effects (Emitter.dupAt 2) 3 ⟨[.null, .undefined] ++ .closing :: [], 4⟩
      ⟨.closing :: ([.null, .undefined] ++ .closing :: []), 4⟩ ∧
    Emitter.Effects (Emitter.popN 2) 2 ⟨[.null, .undefined] ++ [.closing], 4⟩ ⟨[.closing], 4⟩ := by
  obtain ⟨hshuffles, hfails, heffects⟩ := shuffles_undo_and_run
  obtain ⟨-, -, hdup, -⟩ := heffects 2 [.null, .undefined] [] .closing 4 rfl
  obtain ⟨-, -, -, hpop⟩ := heffects 2 [.null, .undefined] [.closing] .closing 4 rfl
  have hdeep : 2 < (⟨[.null, .undefined, .closing], 4⟩ : OperandStack Value).depth := by decide
  have hshallow : Exec.keeping.frame.stack.depth ≤ 2 := by decide
  have hroom : ([Value.null, .undefined] ++ Value.closing :: []).length < 4 := by decide
  exact ⟨hdeep, hshuffles _ 2 hdeep, hshallow, (hfails _ 2 hshallow).2, rfl, hroom, hdup hroom, hpop⟩

end ResourceMachine
