/-
# Assembling stops at limits only

The assembler checks whatever it is asked to do: that operands are on the stack, that
branches end at the depth they started with, that a region is closed once and a scope left
while it is entered. None of these checks fails for the code of a disposal pass or of an
exit. What stops the emission is a limit, of locals or of distances, and for the code of a
program that is not valid, a fault of that program.

`Ends` says so of a computation, and of what it ends with. It is put together along the
computation, with one theorem for each definition that emits. What they keep track of is
what the checks look at (`Emitter.At`).

Key definitions: `CompileError.IsLimit`, `CompileError.IsFault`, `Ends`, `Emitter.At`.
Key theorems: `Emitter.disposalPass_ends`, `DisposalScope.leave_ends`,
`DisposalScope.close_ends`.
-/
import ResourceMachine.Proofs.Layout

namespace ResourceMachine

/-! ### Errors -/

namespace CompileError

/-- A limit of the encoding is reached. -/
def IsLimit : CompileError → Prop
  | tooManyLocals | jumpTooLarge => True
  | _ => False

/-- The source is at fault. -/
def IsFault : CompileError → Prop
  | tooManyLocals | jumpTooLarge | internal _ | verification _ => False
  | _ => True

end CompileError

/-! ### Computations that end -/

/-- A computation ends like this, if no limit stops it and, unless the source is `valid`,
no fault of the source does. -/
def Ends {σ α : Type} (valid : Prop) (m : EStateM CompileError σ α) (s : σ) (Q : α → σ → Prop) : Prop :=
  match m s with
  | .ok a s' => Q a s'
  | .error x _ => x.IsLimit ∨ x.IsFault ∧ ¬ valid

namespace Ends

variable {σ α β : Type} {V V' : Prop} {m m' : EStateM CompileError σ α} {f : α → EStateM CompileError σ β}
  {s : σ} {Q Q' : α → σ → Prop} {R : β → σ → Prop} {x : CompileError}

theorem pure {a : α} (h : Q a s) : Ends V (Pure.pure a) s Q := h

theorem limit (h : x.IsLimit) : Ends V (throw x) s Q := .inl h

theorem fault (h : x.IsFault) (hV : ¬ V) : Ends V (throw x) s Q := .inr ⟨h, hV⟩

/-- What changes the state is followed by what starts in the new one. -/
theorem modifying {g : σ → σ} {f : PUnit → EStateM CompileError σ β} (h : Ends V (f ⟨⟩) (g s) R) :
    Ends V (modify g >>= f) s R := h

theorem bind (h : Ends V m s Q) (hf : ∀ a s', Q a s' → Ends V (f a) s' R) : Ends V (m >>= f) s R := by
  show match EStateM.bind m f s with
    | .ok b s' => R b s'
    | .error x _ => x.IsLimit ∨ x.IsFault ∧ ¬ V
  unfold Ends at h
  unfold EStateM.bind
  cases hm : m s with
  | ok a s' =>
    rw [hm] at h
    exact hf a s' h
  | error x s' =>
    rw [hm] at h
    exact h

/-- What is read from the state leaves it as it is. -/
theorem reading {a : α} (hm : m s = .ok a s) (h : Ends V (f a) s R) : Ends V (m >>= f) s R :=
  bind (Q := fun b s' => b = a ∧ s' = s) (by unfold Ends; rw [hm]; exact ⟨rfl, rfl⟩)
    fun _ _ ⟨hb, hs'⟩ => hb ▸ hs' ▸ h

theorem mono (h : Ends V m s Q) (hQ : ∀ a s', Q a s' → Q' a s') : Ends V m s Q' := by
  unfold Ends at h ⊢
  cases hm : m s with
  | ok a s' =>
    rw [hm] at h
    exact hQ a s' h
  | error x s' =>
    rw [hm] at h
    exact h

theorem cond {c : Prop} [Decidable c] (h : c → Ends V m s Q) (h' : ¬ c → Ends V m' s Q) :
    Ends V (if c then m else m') s Q := by
  split
  · exact h ‹_›
  · exact h' ‹_›

/-- A part that may be left out. -/
theorem bind_if {c : Bool} {m : EStateM CompileError σ Unit} {f : Unit → EStateM CompileError σ β}
    {Q : σ → Prop} (h : c = true → Ends V m s fun _ => Q) (h' : c = false → Q s)
    (hf : ∀ s', Q s' → Ends V (f ()) s' R) : Ends V (if c = true then m >>= f else f ()) s R := by
  cases c with
  | true => exact (h rfl).bind fun _ => hf
  | false => exact hf s (h' rfl)

end Ends

variable {V : Prop} {k : FunctionKind} {e : Emitter} {n d d' : Nat}

/-- What the checks of the assembler look at: the kind of the function, the scopes that are
entered, and the depth of the operand stack. -/
structure Emitter.At (kind : FunctionKind) (entered depth : Nat) (e : Emitter) : Prop where
  kind_eq : e.kind = kind
  scopeDepth_eq : e.scopeDepth = entered
  depth_eq : e.depth = depth

/-! ### Instructions -/

namespace Instr

/-- How many values instructions need that are executed in order. -/
def needs : List Instr → Nat
  | [] => 0
  | i :: is => max i.stackEffect.pops (needs is + i.stackEffect.pops - i.stackEffect.pushes)

end Instr

namespace Emitter

open Emitter (At)

theorem setDepth_ends (h : e.At k n d) : Ends V (setDepth d') e fun _ => At k n d' :=
  ⟨h.kind_eq, h.scopeDepth_eq, rfl⟩

theorem emit_ends {i : Instr} (h : e.At k n d) (hpops : i.stackEffect.pops ≤ d)
    (hd' : d - i.stackEffect.pops + i.stackEffect.pushes = d') :
    Ends V (emit i) e fun _ => At k n d' := by
  refine Ends.bind (Q := fun _ => At k n d') ?_ fun _ e' h' => ⟨h'.kind_eq, h'.scopeDepth_eq, h'.depth_eq⟩
  refine .reading rfl (.cond (fun hlt => ?_) fun _ => ?_)
  · rw [h.depth_eq] at hlt
    exact absurd hpops (Nat.not_le.mpr hlt)
  · refine ⟨h.kind_eq, h.scopeDepth_eq, ?_⟩
    rw [← hd', ← h.depth_eq]
    rfl

theorem emitAll_ends : ∀ {is : List Instr} {e : Emitter} {d : Nat}, e.At k n d → Instr.needs is ≤ d →
    Target.depthAfter d is = d' → Ends V (emitAll is) e fun _ => At k n d'
  | [], _, _, h, _, hd' => by
    cases hd'
    exact h
  | i :: is, _, d, h, hneeds, hd' => by
    simp only [Instr.needs] at hneeds
    exact (emit_ends h (by omega) rfl).bind fun _ _ h₁ => emitAll_ends h₁ (by omega) hd'

theorem jump_ends {kind : JumpKind} (h : e.At k n d) (hpops : (kind.instr 0).stackEffect.pops ≤ d)
    (hd' : d - (kind.instr 0).stackEffect.pops = d') : Ends V (jump kind) e fun _ => At k n d' := by
  have hpushes : (kind.instr 0).stackEffect.pushes = 0 := by cases kind <;> rfl
  exact (emit_ends h hpops (by rw [hpushes]; exact hd')).bind fun _ _ h₁ => h₁

/-- The distance to a target may be too large. -/
theorem patchTo_ends {j : PendingJump} {target : Nat} (h : e.At k n d) :
    Ends V (patchTo j target) e fun _ => At k n d :=
  .cond (fun _ => .limit trivial) fun _ => ⟨h.kind_eq, h.scopeDepth_eq, h.depth_eq⟩

theorem patchHere_ends {j : PendingJump} (h : e.At k n d) : Ends V (patchHere j) e fun _ => At k n d :=
  patchTo_ends h

theorem jumpTo_ends {target : Nat} (h : e.At k n d) :
    Ends V (jumpTo .always target) e fun _ => At k n d :=
  (jump_ends h (Nat.zero_le _) rfl).bind fun _ _ h₁ => patchTo_ends h₁

theorem tryStart_ends (h : e.At k n d) : Ends V tryStart e fun _ => At k n d :=
  (emit_ends h (Nat.zero_le _) rfl).bind fun _ _ h₁ => h₁

/-- There may be too many locals. -/
theorem allocLocal_ends (h : e.At k n d) : Ends V allocLocal e fun _ => At k n d :=
  .reading rfl (.cond (fun _ => .limit trivial) fun _ => ⟨h.kind_eq, h.scopeDepth_eq, h.depth_eq⟩)

/-- Waiting is for async functions. -/
theorem emitAwait_ends (h : e.At k n (d + 1)) (hkind : V → k.isAsync) :
    Ends V emitAwait e fun _ => At k n (d + 1) := by
  refine .reading rfl (.cond (fun _ => emit_ends h (Nat.le_add_left _ _) rfl) fun hnot => ?_)
  refine .fault trivial fun hV => hnot ?_
  rw [h.kind_eq]
  exact hkind hV

/-- Handing out values is for generators. -/
theorem emitYield_ends (h : e.At k n (d + 1)) (hkind : V → k.isGenerator) :
    Ends V emitYield e fun _ => At k n (d + 1) := by
  refine .reading rfl (.cond (fun _ => emit_ends h (Nat.le_add_left _ _) rfl) fun hnot => ?_)
  refine .fault trivial fun hV => hnot ?_
  rw [h.kind_eq]
  exact hkind hV

theorem enterScope_ends (h : e.At k n d) : Ends V enterScope e fun _ => At k (n + 1) d :=
  (emit_ends h (Nat.zero_le _) rfl).bind fun _ _ h₁ =>
    ⟨h₁.kind_eq, congrArg (· + 1) h₁.scopeDepth_eq, h₁.depth_eq⟩

theorem exitScope_ends (h : e.At k (n + 1) d) : Ends V exitScope e fun _ => At k n d := by
  refine .reading rfl (.cond (fun hzero => ?_) fun _ => ?_)
  · rw [h.scopeDepth_eq] at hzero
    cases hzero
  · exact (emit_ends h (Nat.zero_le _) rfl).bind fun _ _ h₁ =>
      ⟨h₁.kind_eq, congrArg (· - 1) h₁.scopeDepth_eq, h₁.depth_eq⟩

theorem leaveScope_ends (h : e.At k n d) (hn : 0 < n) : Ends V leaveScope e fun _ => At k n d := by
  refine .reading rfl (.cond (fun hzero => ?_) fun _ => emit_ends h (Nat.zero_le _) rfl)
  rw [h.scopeDepth_eq] at hzero
  omega

theorem intern_ends {text : String} (h : e.At k n d) : Ends V (intern text) e fun _ => At k n d :=
  ⟨h.kind_eq, h.scopeDepth_eq, h.depth_eq⟩

end Emitter

/-! ### Branches, loops and protected regions -/

open Emitter

namespace Branch

theorem first_ends {polarity : Polarity} (h : e.At k n (d + 1)) :
    Ends V (first polarity) e fun b e' => e'.At k n d ∧ b.depth = d := by
  have hpops : (JumpKind.instr (if polarity = .positive then .ifFalse else .ifTrue) 0).stackEffect.pops = 1 := by
    cases polarity <;> rfl
  refine (jump_ends h (by rw [hpops]; omega) (by rw [hpops])).bind fun _ e' h₁ => ?_
  exact ⟨h₁, h₁.depth_eq⟩

theorem checkDepth_ends {b : Branch} (h : e.At k n d) (hb : b.depth = d) :
    Ends V b.checkDepth e fun _ => At k n d :=
  Ends.cond (fun hne => absurd (h.depth_eq.trans hb.symm) hne) fun _ => h

theorem second_ends {b : Branch} (h : e.At k n d) (hb : b.depth = d) :
    Ends V b.second e fun b' e' => e'.At k n d ∧ b'.depth = d :=
  (checkDepth_ends h hb).bind fun _ _ h₁ => (jump_ends h₁ (Nat.zero_le _) rfl).bind fun _ _ h₂ =>
    (patchHere_ends h₂).bind fun _ _ h₃ => (setDepth_ends h₃).bind fun _ _ h₄ => by
      rw [hb] at h₄
      exact ⟨h₄, hb⟩

theorem close_ends {b : Branch} (h : e.At k n d) (hb : b.depth = d) :
    Ends V b.close e fun _ => At k n d :=
  (checkDepth_ends h hb).bind fun _ _ h₁ => patchHere_ends h₁

end Branch

namespace Loop

theorem condition_ends (h : e.At k n d) :
    Ends V (condition .unstarted) e fun l e' => e'.At k n d ∧ l.depth = d :=
  ⟨h, h.depth_eq⟩

theorem body_ends {l : Loop} (h : e.At k n (d + 1)) :
    Ends V l.body e fun l' e' => e'.At k n d ∧ l'.depth = l.depth :=
  (jump_ends h (Nat.le_add_left _ _) rfl).bind fun _ _ h₁ => ⟨h₁, rfl⟩

theorem close_ends {l : Loop} (h : e.At k n d) (hl : l.depth = d) :
    Ends V l.close e fun _ => At k n d := by
  refine Ends.cond (fun hne => absurd (h.depth_eq.trans hl.symm) hne) fun _ => ?_
  refine (jumpTo_ends h).bind fun _ _ h₁ => ?_
  cases l.exit with
  | some exit => exact (patchHere_ends h₁).bind fun _ _ h₂ => h₂
  | none => exact h₁

end Loop

theorem Emitter.throwIfException_ends (h : e.At k n (d + 2)) :
    Ends V throwIfException e fun _ => At k n d :=
  (Branch.first_ends h).bind fun b e₁ ⟨h₁, hb⟩ => by
    refine (emit_ends h₁ (Nat.le_add_left _ _) rfl).bind fun _ _ h₂ => ?_
    refine (setDepth_ends h₂).bind fun _ _ h₃ => ?_
    rw [h₁.depth_eq] at h₃
    exact (b.close_ends h₃ hb).bind fun _ _ h₄ => emit_ends h₄ (Nat.le_add_left _ _) rfl

theorem Emitter.rethrowIfClosing_ends (h : e.At k n (d + 1)) :
    Ends V rethrowIfClosing e fun _ => At k n (d + 1) :=
  (emit_ends h (Nat.le_add_left _ _) rfl).bind fun _ _ h₁ =>
    (emit_ends h₁ (Nat.le_add_left _ _) rfl).bind fun _ _ h₂ =>
      (Branch.first_ends h₂).bind fun b e₃ ⟨h₃, hb⟩ => by
        refine (emit_ends h₃ (Nat.le_add_left _ _) rfl).bind fun _ _ h₄ => ?_
        refine (setDepth_ends h₄).bind fun _ _ h₅ => ?_
        rw [h₃.depth_eq] at h₅
        exact b.close_ends h₅ hb

namespace TryRegion

variable {hs : PendingHandlers} {j : PendingJump}

theorem start_ends (h : e.At k n d) :
    Ends V start e fun r e' => e'.At k n d ∧ ∃ hs, r = ⟨.body hs, d⟩ := by
  refine .reading rfl ((tryStart_ends h).bind fun hs _ h₁ => ⟨h₁, hs, ?_⟩)
  rw [h.depth_eq]

theorem checkDepth_ends {r : TryRegion} (h : e.At k n d) (hr : r.depth = d) :
    Ends V r.checkDepth e fun _ => At k n d :=
  Ends.cond (fun hne => absurd (h.depth_eq.trans hr.symm) hne) fun _ => h

theorem onCatch_ends (h : e.At k n d) : Ends V (onCatch ⟨.body hs, d⟩) e fun r e' =>
    e'.At k n (d + 1) ∧ ∃ j, r = ⟨.catching j, d⟩ :=
  (checkDepth_ends h rfl).bind fun _ _ h₁ => (emit_ends h₁ (Nat.zero_le _) rfl).bind fun _ _ h₂ =>
    (jump_ends h₂ (Nat.zero_le _) rfl).bind fun j _ h₃ => (patchHere_ends h₃).bind fun _ _ h₄ =>
      (setDepth_ends h₄).bind fun _ _ h₅ => ⟨h₅, j, rfl⟩

theorem close_ends_catch (h : e.At k n d') : Ends V (close ⟨.catching j, d⟩) e fun _ => At k n d :=
  (patchHere_ends h).bind fun _ _ h₁ => (setDepth_ends h₁).bind fun _ _ h₂ => h₂

theorem onFinally_ends (h : e.At k n d) : Ends V (onFinally ⟨.body hs, d⟩) e fun r e' =>
    e'.At k n (d + 2) ∧ r = ⟨.finishing, d⟩ :=
  (checkDepth_ends h rfl).bind fun _ _ h₁ => (emitAll_ends h₁ (Nat.zero_le _) rfl).bind fun _ _ h₂ =>
    (patchHere_ends h₂).bind fun _ _ h₃ => (setDepth_ends h₃).bind fun _ _ h₄ => ⟨h₄, rfl⟩

theorem close_ends_finally (h : e.At k n (d + 2)) :
    Ends V (close ⟨.finishing, d⟩) e fun _ => At k n d :=
  Ends.cond (fun hne => absurd h.depth_eq hne) fun _ =>
    (throwIfException_ends h).bind fun _ _ h₁ => h₁

end TryRegion

/-! ### Passes -/

theorem PassSlots.alloc_ends (h : e.At k n d) : Ends V alloc e fun _ => At k n d :=
  (allocLocal_ends h).bind fun _ _ h => (allocLocal_ends h).bind fun _ _ h =>
    (allocLocal_ends h).bind fun _ _ h => (allocLocal_ends h).bind fun _ _ h =>
      (allocLocal_ends h).bind fun _ _ h => (allocLocal_ends h).bind fun _ _ h =>
        (allocLocal_ends h).bind fun _ _ h => (allocLocal_ends h).bind fun _ _ h => h

namespace Emitter

variable {s : PassSlots} {awaits unwrapClosing : Bool}

theorem awaitUndefined_ends (h : e.At k n d) (hkind : k.isAsync) :
    Ends V awaitUndefined e fun _ => At k n d :=
  (emit_ends h (Nat.zero_le _) rfl).bind fun _ _ h₁ =>
    (emitAwait_ends h₁ fun _ => hkind).bind fun _ _ h₂ => emit_ends h₂ (Nat.le_add_left _ _) rfl

theorem awaitBeforeSync_ends (h : e.At k n d) (hkind : k.isAsync) :
    Ends V (awaitBeforeSync s) e fun _ => At k n d :=
  (emitAll_ends h (Nat.zero_le _) rfl).bind fun _ _ h₁ =>
    (emitAll_ends h₁ (Nat.le_add_left 1 _) rfl).bind fun _ _ h₂ =>
      (Branch.first_ends h₂).bind fun b _ ⟨h₃, hb⟩ => (awaitUndefined_ends h₃ hkind).bind fun _ _ h₄ =>
        (emitAll_ends h₄ (Nat.zero_le _) rfl).bind fun _ _ h₅ => b.close_ends h₅ hb

theorem awaitResult_ends (h : e.At k n (d + 1)) (hkind : k.isAsync) :
    Ends V (awaitResult s) e fun _ => At k n (d + 1) :=
  (emitAll_ends h (Nat.zero_le _) rfl).bind fun _ _ h₁ =>
    (Branch.first_ends h₁).bind fun b _ ⟨h₂, hb⟩ =>
      (emitAll_ends h₂ (Nat.zero_le _) rfl).bind fun _ _ h₃ =>
        (emitAwait_ends h₃ fun _ => hkind).bind fun _ _ h₄ => b.close_ends h₄ hb

theorem callDispose_ends (h : e.At k n d) (hkind : awaits = true → k.isAsync) :
    Ends V (callDispose s awaits unwrapClosing) e fun _ => At k n d := by
  refine (TryRegion.start_ends h).bind ?_
  rintro _ _ ⟨h₁, hs, rfl⟩
  refine (emitAll_ends h₁ (Nat.zero_le _) rfl).bind fun _ _ h₂ => ?_
  refine (emitAll_ends h₂ (Nat.zero_le _) rfl).bind fun _ _ h₃ => ?_
  refine (emit_ends h₃ (Nat.le_add_left _ _) rfl).bind fun _ _ h₄ => ?_
  refine .bind_if (fun ha => awaitResult_ends h₄ (hkind ha)) (fun _ => h₄) fun _ h₅ => ?_
  refine (emit_ends h₅ (Nat.le_add_left _ _) rfl).bind fun _ _ h₆ => ?_
  refine (TryRegion.onCatch_ends h₆).bind ?_
  rintro _ _ ⟨h₇, j, rfl⟩
  refine (emitAll_ends h₇ (Nat.le_add_left 1 _) rfl).bind fun _ _ h₈ => ?_
  exact (TryRegion.close_ends_catch h₈).bind fun _ _ h₉ => h₉

theorem disposeRecord_ends (h : e.At k n d) (hkind : awaits = true → k.isAsync) :
    Ends V (disposeRecord s awaits unwrapClosing) e fun _ => At k n d := by
  unfold disposeRecord
  refine .bind_if (fun ha => awaitBeforeSync_ends h (hkind ha)) (fun _ => h) fun _ h₁ => ?_
  refine (emitAll_ends h₁ (Nat.zero_le _) rfl).bind fun _ _ h₂ => ?_
  refine (emit_ends h₂ (Nat.le_add_left _ _) rfl).bind fun _ _ h₃ => ?_
  refine (Branch.first_ends h₃).bind fun b _ ⟨h₄, hb⟩ => ?_
  refine (callDispose_ends h₄ hkind).bind fun _ _ h₅ => ?_
  refine .cond (fun _ => ?_) fun _ => b.close_ends h₅ hb
  exact (b.second_ends h₅ hb).bind fun b' _ ⟨h₆, hb'⟩ =>
    (emitAll_ends h₆ (Nat.zero_le _) rfl).bind fun _ _ h₇ => b'.close_ends h₇ hb'

theorem disposeRecords_ends (h : e.At k n d) (hkind : awaits = true → k.isAsync) :
    Ends V (disposeRecords s awaits unwrapClosing) e fun _ => At k n d :=
  (Loop.condition_ends h).bind fun l _ ⟨h₁, hl⟩ =>
    (emitAll_ends h₁ (Nat.zero_le _) rfl).bind fun _ _ h₂ =>
      l.body_ends h₂ |>.bind fun l' _ ⟨h₃, hl'⟩ =>
        (emitAll_ends h₃ (Nat.zero_le _) rfl).bind fun _ _ h₄ =>
          (disposeRecord_ends h₄ hkind).bind fun _ _ h₅ =>
            (emitAll_ends h₅ (Nat.zero_le _) rfl).bind fun _ _ h₆ =>
              (l'.close_ends h₆ (hl'.trans hl)).bind fun _ _ h₇ => h₇

/-- A pass that is seeded with an exception takes it off the stack. -/
theorem startPass_ends {seed : Seed} (h : e.At k n (d + seed.values)) :
    Ends V (startPass s awaits seed) e fun _ => At k n d := by
  unfold startPass
  refine .bind_if (fun _ => emitAll_ends h (Nat.zero_le _) rfl) (fun _ => h) fun _ h₁ => ?_
  cases seed with
  | normal => exact (emitAll_ends h₁ (Nat.zero_le _) rfl).bind fun _ _ h₂ =>
      emitAll_ends h₂ (Nat.le_add_left 1 _) rfl
  | thrown => exact (emitAll_ends h₁ (Nat.le_add_left 1 _) rfl).bind fun _ _ h₂ =>
      emitAll_ends h₂ (Nat.le_add_left 1 _) rfl

theorem awaitOwed_ends (h : e.At k n d) (hkind : k.isAsync) :
    Ends V (awaitOwed s) e fun _ => At k n d :=
  (emitAll_ends h (Nat.zero_le _) rfl).bind fun _ _ h₁ =>
    (Branch.first_ends h₁).bind fun b _ ⟨h₂, hb⟩ =>
      (awaitUndefined_ends h₂ hkind).bind fun _ _ h₃ => b.close_ends h₃ hb

theorem finishPass_ends (h : e.At k n d) (hkind : awaits = true → k.isAsync) :
    Ends V (finishPass s awaits) e fun _ => At k n (d + 2) := by
  unfold finishPass
  refine .bind_if (fun ha => awaitOwed_ends h (hkind ha)) (fun _ => h) fun _ h₁ => ?_
  refine (emitAll_ends h₁ (Nat.zero_le _) rfl).bind fun _ _ h₂ => ?_
  exact .cond (fun _ => emitAll_ends h₂ (Nat.zero_le _) rfl) fun _ => h₂

/-- A pass leaves what is pending, and whether it is an exception. -/
theorem disposalPass_ends {seed : Seed} (h : e.At k n (d + seed.values))
    (hkind : awaits = true → k.isAsync) :
    Ends V (disposalPass s awaits seed) e fun _ => At k n (d + 2) :=
  .reading rfl ((startPass_ends h).bind fun _ _ h₁ => (disposeRecords_ends h₁ hkind).bind fun _ _ h₂ =>
    finishPass_ends h₂ hkind)

end Emitter

/-! ### Scopes -/

namespace ScopeEmit

variable {α : Type} {s : DisposalScope}

theorem lift_ends {m : Emit α} {Q : α → Emitter → Prop} (h : Ends V m e Q) :
    Ends V (liftM m : ScopeEmit α) (s, e) fun a S => S.1 = s ∧ Q a S.2 := by
  show Ends V (ScopeEmit.lift m) (s, e) _
  unfold Ends at h ⊢
  unfold ScopeEmit.lift
  simp only
  cases hm : m e with
  | ok a e' =>
    rw [hm] at h
    exact ⟨rfl, h⟩
  | error x e' =>
    rw [hm] at h
    exact h

theorem on_ends {m : ScopeEmit Unit} {Q : DisposalScope → Emitter → Prop}
    (h : Ends V m (s, e) fun _ S => Q S.1 S.2) : Ends V (ScopeEmit.on s m) e Q := by
  unfold Ends at h ⊢
  unfold ScopeEmit.on
  cases hm : m (s, e) with
  | ok u S =>
    rw [hm] at h
    exact h
  | error x S =>
    rw [hm] at h
    exact h

end ScopeEmit

namespace DisposalScope

/-- Passes of the scope wait in async functions only. -/
def Allowed (k : FunctionKind) (s : DisposalScope) : Prop := s.hasAwaitUsing = true → k.isAsync

/-- A scope but for the locals of its passes. -/
def Alike (s s' : DisposalScope) : Prop := ∃ slots, s' = { s with slots }

variable {s s₀ : DisposalScope}

theorem Alike.refl (s : DisposalScope) : s.Alike s := ⟨s.slots, rfl⟩

theorem passSlots_ends (h : e.At k n d) (hs : s₀.Alike s) :
    Ends V passSlots (s, e) fun _ S => s₀.Alike S.1 ∧ S.2.At k n d := by
  refine .reading rfl ?_
  cases s.slots with
  | some slots => exact ⟨hs, h⟩
  | none =>
    refine (ScopeEmit.lift_ends (PassSlots.alloc_ends h)).bind ?_
    rintro slots ⟨_, e₁⟩ ⟨rfl, h₁⟩
    obtain ⟨_, rfl⟩ := hs
    exact ⟨⟨some slots, rfl⟩, h₁⟩

/-- A pass of the scope leaves what is pending, and whether it is an exception. -/
theorem pass_ends (seed : Seed) (h : e.At k n (d + seed.values)) (hallowed : s₀.Allowed k)
    (hs : s₀.Alike s) :
    Ends V (pass seed) (s, e) fun _ S => s₀.Alike S.1 ∧ S.2.At k n (d + 2) := by
  refine (passSlots_ends h hs).bind ?_
  rintro slots ⟨s₁, e₁⟩ ⟨hs₁, h₁⟩
  have hkind : s₁.hasAwaitUsing = true → k.isAsync := by
    obtain ⟨_, rfl⟩ := hs₁
    exact hallowed
  refine .reading rfl ((ScopeEmit.lift_ends (disposalPass_ends h₁ hkind)).mono ?_)
  rintro _ ⟨_, e₂⟩ ⟨rfl, h₂⟩
  exact ⟨hs₁, h₂⟩

theorem leave_ends (h : e.At k n d) (hallowed : s₀.Allowed k) (hs : s₀.Alike s) :
    Ends V leave (s, e) fun _ S => s₀.Alike S.1 ∧ S.2.At k n d := by
  refine (pass_ends .normal h hallowed hs).bind ?_
  rintro _ ⟨s₁, e₁⟩ ⟨hs₁, h₁⟩
  refine (ScopeEmit.lift_ends (throwIfException_ends h₁)).mono ?_
  rintro _ ⟨_, e₂⟩ ⟨rfl, h₂⟩
  exact ⟨hs₁, h₂⟩

theorem leaveByThrow_ends (h : e.At k n (d + 1)) (hallowed : s.Allowed k) :
    Ends V leaveByThrow (s, e) fun _ S => S.2.At k n (d + 1) := by
  refine (pass_ends .thrown h hallowed (.refl s)).bind ?_
  rintro _ ⟨s₁, e₁⟩ ⟨-, h₁⟩
  exact (ScopeEmit.lift_ends (emit_ends h₁ (Nat.le_add_left _ _) rfl)).mono fun _ _ h₂ => h₂.2

/-- What is awaited when it is disposed is registered in async functions. -/
theorem register_ends {hint : Hint} (h : e.At k n (d + 1)) (hallowed : s.Allowed k)
    (hkind : V → hint = .async → k.isAsync) :
    Ends V (register hint) (s, e) fun _ S =>
      S.1.Allowed k ∧ S.1.region = s.region ∧ S.2.At k n (d + 1) := by
  have hemit {s : DisposalScope} (hallowed : s.Allowed k) :
      Ends V (liftM (emitAll [.dup, .addDisposable hint.byte]) : ScopeEmit Unit) (s, e) fun _ S =>
        S.1.Allowed k ∧ S.1.region = s.region ∧ S.2.At k n (d + 1) := by
    refine (ScopeEmit.lift_ends (emitAll_ends h (Nat.le_add_left 1 _) rfl)).mono ?_
    rintro _ ⟨_, e₁⟩ ⟨rfl, h₁⟩
    exact ⟨hallowed, rfl, h₁⟩
  cases hint with
  | sync => exact hemit hallowed
  | async =>
    refine .reading rfl (.cond (fun hasync => ?_) fun hnot => .fault trivial fun hV => hnot ?_)
    · rw [h.kind_eq] at hasync
      exact hemit fun _ => hasync
    · rw [h.kind_eq]
      exact hkind hV rfl

theorem openBody_ends (h : e.At k n d) : Ends V openBody (unopened, e) fun _ S =>
    (∃ hs, S.1 = ⟨false, some ⟨.body hs, d⟩, none⟩) ∧ S.2.At k (n + 1) d := by
  refine (ScopeEmit.lift_ends (enterScope_ends h)).bind ?_
  rintro _ ⟨_, e₁⟩ ⟨rfl, h₁⟩
  refine (ScopeEmit.lift_ends (TryRegion.start_ends h₁)).bind ?_
  rintro _ ⟨_, e₂⟩ ⟨rfl, h₂, hs, rfl⟩
  exact ⟨⟨hs, rfl⟩, h₂⟩

/-- The code behind the body leaves the scope. -/
theorem close_ends {hs : PendingHandlers} (h : e.At k (n + 1) d) (hallowed : s.Allowed k)
    (hregion : s.region = some ⟨.body hs, d⟩) :
    Ends V close (s, e) fun _ S => S.2.At k n d := by
  have hallowed' : Allowed k { s with region := none } := hallowed
  have htake : takeRegion (s, e) = .ok ⟨.body hs, d⟩ ({ s with region := none }, e) := by
    obtain ⟨_, _, _⟩ := s
    cases hregion
    rfl
  refine Ends.bind (Q := fun r S => r = ⟨.body hs, d⟩ ∧ S = ({ s with region := none }, e))
    (by unfold Ends; rw [htake]; exact ⟨rfl, rfl⟩) ?_
  rintro _ _ ⟨rfl, rfl⟩
  refine (leave_ends h hallowed' (.refl _)).bind ?_
  rintro _ ⟨s₂, e₂⟩ ⟨hs₂, h₂⟩
  refine (ScopeEmit.lift_ends (TryRegion.onFinally_ends h₂)).bind ?_
  rintro _ ⟨_, e₃⟩ ⟨rfl, h₃, rfl⟩
  refine (ScopeEmit.lift_ends (emit_ends h₃ (Nat.le_add_left _ _) rfl)).bind ?_
  rintro _ ⟨_, e₄⟩ ⟨rfl, h₄⟩
  refine (pass_ends .thrown (d := d + 1) h₄ hallowed' hs₂).bind ?_
  rintro _ ⟨s₅, e₅⟩ ⟨-, h₅⟩
  refine (ScopeEmit.lift_ends (emitAll_ends h₅ (Nat.le_add_left 3 _) rfl)).bind ?_
  rintro _ ⟨_, e₆⟩ ⟨rfl, h₆⟩
  refine (ScopeEmit.lift_ends (exitScope_ends h₆)).bind ?_
  rintro _ ⟨_, e₇⟩ ⟨rfl, h₇⟩
  exact (ScopeEmit.lift_ends (TryRegion.close_ends_finally h₇)).bind fun _ _ h₈ => h₈.2

end DisposalScope
end ResourceMachine
