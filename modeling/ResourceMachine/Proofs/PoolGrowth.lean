/-
# The pool of a module

Emitting code adds texts to the pool for the names of globals and for the texts of a
function only, each where its node stands; everything else spares the pool (`Spares`).
So a pool holds no more texts than the syntax has nodes, and a word is enough to find
each of them.

Key definitions: `Spares`, `Adds`, `Lower.rounds`, `Lower.handle`.
Key theorems: `Stmt.lower_adds`, `Declaration.compile_adds`, `Module.compileAll_adds`.
-/
import ResourceMachine.Proofs.Computation
import ResourceMachine.Source.Lowering

namespace ResourceMachine

/-! ### What a computation leaves as it is -/

/-- A computation leaves a part of the state as it is. -/
def Spares {ε S α β : Type} (p : S → β) (m : EStateM ε S α) : Prop := ∀ s, p (stateOf (m s)) = p s

namespace Spares

variable {ε S α β γ : Type} {p : S → γ} {m : EStateM ε S α} {f : α → EStateM ε S β}

theorem pure (a : α) : Spares p (Pure.pure a : EStateM ε S α) := fun _ => rfl

theorem throw (x : ε) : Spares p (throw x : EStateM ε S α) := fun _ => rfl

theorem get : Spares p (MonadState.get : EStateM ε S S) := fun _ => rfl

theorem bind (h : Spares p m) (hf : ∀ a, Spares p (f a)) : Spares p (m >>= f) := by
  intro s
  have hm := h s
  show p (stateOf (EStateM.bind m f s)) = p s
  unfold EStateM.bind
  cases hx : m s with
  | ok a s' =>
    rw [hx] at hm
    exact (hf a s').trans hm
  | error x s' =>
    rw [hx] at hm
    exact hm

theorem cond {c : Prop} [Decidable c] {m m' : EStateM ε S α} (h : Spares p m) (h' : Spares p m') :
    Spares p (if c then m else m') := by
  split
  · exact h
  · exact h'

end Spares

/-! ### Emissions that add no texts -/

namespace Emitter

theorem defect_spares {α : Type} (d : Defect) : Spares constants (defect d : Emit α) := .throw _

theorem currentDepth_spares : Spares constants currentDepth := .bind .get fun _ => .pure _

theorem offset_spares : Spares constants offset := .bind .get fun _ => .pure _

theorem setDepth_spares (d : Nat) : Spares constants (setDepth d) := fun _ => rfl

theorem put_spares (op : Opcode) (operand : Nat) (bytes : Bytes) :
    Spares constants (put op operand bytes) := by
  refine .bind (fun e => ?_) fun _ _ => rfl
  simp only [track, bind, EStateM.bind, get_apply]
  split
  · rfl
  · rfl

theorem emit_spares (i : Instr) : Spares constants (emit i) := put_spares _ _ _

theorem emitAll_spares : ∀ is : List Instr, Spares constants (emitAll is)
  | [] => .pure _
  | i :: is => .bind (emit_spares i) fun _ => emitAll_spares is

theorem popN_spares (n : UInt8) : Spares constants (popN n) :=
  .cond (.pure _) (.cond (emit_spares _) (emit_spares _))

theorem jump_spares (kind : JumpKind) : Spares constants (jump kind) :=
  .bind (emit_spares _) fun _ => .bind offset_spares fun _ => .pure _

theorem patchTo_spares (p : PendingJump) (target : Nat) : Spares constants (patchTo p target) :=
  .cond (.throw _) fun _ => rfl

theorem patchHere_spares (p : PendingJump) : Spares constants (patchHere p) :=
  .bind offset_spares fun _ => patchTo_spares p _

theorem jumpTo_spares (kind : JumpKind) (target : Nat) : Spares constants (jumpTo kind target) :=
  .bind (jump_spares kind) fun p => patchTo_spares p target

theorem tryStart_spares : Spares constants tryStart :=
  .bind (emit_spares _) fun _ => .bind offset_spares fun _ => .pure _

theorem allocLocal_spares : Spares constants allocLocal := fun e => by
  simp only [allocLocal, bind, EStateM.bind, get_apply]
  split
  · rfl
  · rfl

theorem emitAwait_spares : Spares constants emitAwait :=
  .bind .get fun _ => .cond (emit_spares _) (.throw _)

theorem emitYield_spares : Spares constants emitYield :=
  .bind .get fun _ => .cond (emit_spares _) (.throw _)

theorem enterScope_spares : Spares constants enterScope := .bind (emit_spares _) fun _ _ => rfl

theorem exitScope_spares : Spares constants exitScope :=
  .bind .get fun _ => .cond (defect_spares _) (.bind (emit_spares _) fun _ _ => rfl)

theorem leaveScope_spares : Spares constants leaveScope :=
  .bind .get fun _ => .cond (defect_spares _) (emit_spares _)

end Emitter

section

open Emitter

namespace Branch

theorem checkDepth_spares (b : Branch) : Spares constants b.checkDepth :=
  .bind currentDepth_spares fun _ => .cond (defect_spares _) (.pure _)

theorem first_spares (polarity : Polarity) : Spares constants (first polarity) :=
  .bind (jump_spares _) fun _ => .bind currentDepth_spares fun _ => .pure _

theorem second_spares (b : Branch) : Spares constants b.second :=
  .bind b.checkDepth_spares fun _ => .bind (jump_spares _) fun _ => .bind (patchHere_spares _) fun _ =>
    .bind (setDepth_spares _) fun _ => .pure _

theorem close_spares (b : Branch) : Spares constants b.close :=
  .bind b.checkDepth_spares fun _ => patchHere_spares _

end Branch

namespace Loop

theorem condition_spares (l : Loop) : Spares constants l.condition := fun _ => rfl

theorem body_spares (l : Loop) : Spares constants l.body := .bind (jump_spares _) fun _ => .pure _

theorem close_spares (l : Loop) : Spares constants l.close := by
  refine .bind currentDepth_spares fun _ => .cond (defect_spares _) (.bind (jumpTo_spares _ _) fun _ => ?_)
  cases l.exit with
  | none => exact .bind (.pure _) fun _ => .pure _
  | some exit => exact .bind (patchHere_spares _) fun _ => .pure _

end Loop

theorem Emitter.throwIfException_spares : Spares constants throwIfException :=
  .bind (Branch.first_spares _) fun b => .bind currentDepth_spares fun _ => .bind (emit_spares _) fun _ =>
    .bind (setDepth_spares _) fun _ => .bind b.close_spares fun _ => emit_spares _

theorem Emitter.rethrowIfClosing_spares : Spares constants rethrowIfClosing :=
  .bind (emit_spares _) fun _ => .bind (emit_spares _) fun _ => .bind (Branch.first_spares _) fun b =>
    .bind currentDepth_spares fun _ => .bind (emit_spares _) fun _ => .bind (setDepth_spares _) fun _ =>
      b.close_spares

namespace TryRegion

theorem start_spares : Spares constants start :=
  .bind currentDepth_spares fun _ => .bind tryStart_spares fun _ => .pure _

theorem checkDepth_spares (r : TryRegion) : Spares constants r.checkDepth :=
  .bind currentDepth_spares fun _ => .cond (defect_spares _) (.pure _)

theorem onCatch_spares (r : TryRegion) : Spares constants r.onCatch := by
  refine .bind r.checkDepth_spares fun _ => .bind (emit_spares _) fun _ => .bind (jump_spares _) fun _ => ?_
  cases r.stage with
  | body handlers =>
    exact .bind (patchHere_spares _) fun _ => .bind (setDepth_spares _) fun _ => .pure _
  | _ => exact defect_spares _

theorem onFinally_spares (r : TryRegion) : Spares constants r.onFinally := by
  refine .bind r.checkDepth_spares fun _ => .bind (emitAll_spares _) fun _ => ?_
  cases r.stage with
  | body handlers =>
    exact .bind (patchHere_spares _) fun _ => .bind (setDepth_spares _) fun _ => .pure _
  | _ => exact defect_spares _

theorem close_spares (r : TryRegion) : Spares constants r.close := by
  unfold close
  cases r.stage with
  | catching overCatch =>
    exact .bind (patchHere_spares _) fun _ => .bind (setDepth_spares _) fun _ => .pure _
  | finishing =>
    exact .bind currentDepth_spares fun _ =>
      .cond (defect_spares _) (.bind throwIfException_spares fun _ => .pure _)
  | _ => exact defect_spares _

end TryRegion

/-! ### Passes -/

namespace PassSlots

theorem alloc_spares : Spares constants alloc := by
  unfold alloc
  iterate 8 refine .bind allocLocal_spares fun _ => ?_
  exact .pure _

end PassSlots

namespace Emitter

variable (s : PassSlots)

theorem awaitUndefined_spares : Spares constants awaitUndefined :=
  .bind (emit_spares _) fun _ => .bind emitAwait_spares fun _ => emit_spares _

theorem awaitBeforeSync_spares : Spares constants (awaitBeforeSync s) :=
  .bind (emitAll_spares _) fun _ => .bind (emitAll_spares _) fun _ => .bind (Branch.first_spares _) fun b =>
    .bind awaitUndefined_spares fun _ => .bind (emitAll_spares _) fun _ => b.close_spares

theorem awaitResult_spares : Spares constants (awaitResult s) :=
  .bind (emitAll_spares _) fun _ => .bind (Branch.first_spares _) fun b =>
    .bind (emitAll_spares _) fun _ => .bind emitAwait_spares fun _ => b.close_spares

theorem callDispose_spares (awaits u : Bool) : Spares constants (callDispose s awaits u) := by
  refine .bind TryRegion.start_spares fun t => .bind (emitAll_spares _) fun _ =>
    .bind (emitAll_spares _) fun _ => .bind (emit_spares _) fun _ => ?_
  have hrest : Spares constants (do
      emit .pop
      let t ← t.onCatch
      emitAll
        [.loadLocal s.exception, .loadLocal s.throwing,
         .chainDisposeError (if u then 1 else 0),
         .storeLocal s.exception, .constTrue, .storeLocal s.throwing]
      let _ ← t.close) :=
    .bind (emit_spares _) fun _ => .bind t.onCatch_spares fun t =>
      .bind (emitAll_spares _) fun _ => .bind t.close_spares fun _ => .pure _
  exact .cond (.bind (awaitResult_spares s) fun _ => hrest) hrest

theorem disposeRecord_spares (awaits u : Bool) : Spares constants (disposeRecord s awaits u) := by
  have hrest : Spares constants (do
      passField s .method
      emit .isNullish
      let b ← Branch.first .negative
      callDispose s awaits u
      if awaits then
        let b ← b.second
        emitAll [.constTrue, .storeLocal s.needsAwait]
        b.close
      else b.close) :=
    .bind (emitAll_spares _) fun _ => .bind (emit_spares _) fun _ =>
      .bind (Branch.first_spares _) fun b => .bind (callDispose_spares s awaits u) fun _ =>
        .cond (.bind b.second_spares fun b => .bind (emitAll_spares _) fun _ => b.close_spares)
          b.close_spares
  exact .cond (.bind (awaitBeforeSync_spares s) fun _ => hrest) hrest

theorem awaitOwed_spares : Spares constants (awaitOwed s) :=
  .bind (emitAll_spares _) fun _ => .bind (Branch.first_spares _) fun b =>
    .bind awaitUndefined_spares fun _ => b.close_spares

theorem startPass_spares (awaits : Bool) (seed : Seed) : Spares constants (startPass s awaits seed) := by
  have hrest (is : List Instr) : Spares constants (do
      emitAll is
      emitAll
        [.storeLocal s.throwing, .takeDisposeCapability, .dec,
         .storeLocal s.index, .storeLocal s.resources]) :=
    .bind (emitAll_spares _) fun _ => emitAll_spares _
  cases seed with
  | thrown => exact .cond (.bind (emitAll_spares _) fun _ => hrest _) (hrest _)
  | normal => exact .cond (.bind (emitAll_spares _) fun _ => hrest _) (hrest _)

theorem disposeRecords_spares (awaits u : Bool) : Spares constants (disposeRecords s awaits u) :=
  .bind (Loop.condition_spares _) fun l => .bind (emitAll_spares _) fun _ => .bind l.body_spares fun l =>
    .bind (emitAll_spares _) fun _ => .bind (disposeRecord_spares s awaits u) fun _ =>
      .bind (emitAll_spares _) fun _ => .bind l.close_spares fun _ => .pure _

theorem finishPass_spares (awaits : Bool) : Spares constants (finishPass s awaits) := by
  have hrest : Spares constants (do
      emitAll
        [.constUndefined, .storeLocal s.resources, .constUndefined, .storeLocal s.resource,
         .loadLocal s.exception, .loadLocal s.throwing]
      if awaits then emitAll [.loadLocal s.rval, .setRval]) :=
    .bind (emitAll_spares _) fun _ => .cond (emitAll_spares _) (.pure _)
  exact .cond (.bind (awaitOwed_spares s) fun _ => hrest) hrest

theorem disposalPass_spares (awaits : Bool) (seed : Seed) :
    Spares constants (disposalPass s awaits seed) :=
  .bind .get fun _ => .bind (startPass_spares s awaits seed) fun _ =>
    .bind (disposeRecords_spares s awaits _) fun _ => finishPass_spares s awaits

end Emitter

/-! ### Scopes -/

/-- The pool that the code of a scope refers to. -/
abbrev ScopeEmit.pool (S : DisposalScope × Emitter) : ConstantPool := S.2.constants

namespace ScopeEmit

theorem lift_spares {α : Type} {m : Emit α} (h : Spares constants m) : Spares pool (lift m) := by
  intro S
  have := h S.2
  simp only [lift]
  cases hm : m S.2 with
  | ok a e => rw [hm] at this; exact this
  | error x e => rw [hm] at this; exact this

theorem update_spares (f : DisposalScope → DisposalScope) : Spares pool (update f) := fun _ => rfl

theorem scope_spares : Spares pool scope := .bind .get fun _ => .pure _

theorem on_spares (d : DisposalScope) {m : ScopeEmit Unit} (h : Spares pool m) :
    Spares constants (on d m) := by
  intro e
  have := h (d, e)
  simp only [on]
  cases hm : m (d, e) with
  | ok a S => rw [hm] at this; exact this
  | error x S => rw [hm] at this; exact this

end ScopeEmit

namespace DisposalScope

open ScopeEmit

theorem openBody_spares : Spares pool openBody :=
  .bind (lift_spares enterScope_spares) fun _ => .bind (lift_spares TryRegion.start_spares) fun _ =>
    update_spares _

theorem register_spares (hint : Hint) : Spares pool (register hint) := by
  have hrest : Spares pool (ScopeEmit.lift (emitAll [.dup, .addDisposable hint.byte])) :=
    lift_spares (emitAll_spares _)
  exact .cond (.bind .get fun S => .cond (.bind (update_spares _) fun _ => hrest)
    (.bind (.throw _) fun _ => hrest)) hrest

theorem passSlots_spares : Spares pool passSlots := by
  refine .bind scope_spares fun d => ?_
  cases d.slots with
  | some slots => exact .pure _
  | none =>
    exact .bind (lift_spares PassSlots.alloc_spares) fun _ => .bind (update_spares _) fun _ => .pure _

theorem pass_spares (seed : Seed) : Spares pool (pass seed) :=
  .bind passSlots_spares fun _ => .bind scope_spares fun _ => lift_spares (disposalPass_spares _ _ _)

theorem leave_spares : Spares pool leave :=
  .bind (pass_spares _) fun _ => lift_spares throwIfException_spares

theorem leaveByThrow_spares : Spares pool leaveByThrow :=
  .bind (pass_spares _) fun _ => lift_spares (emit_spares _)

theorem takeRegion_spares : Spares pool takeRegion := by
  refine .bind scope_spares fun d => ?_
  cases d.region with
  | some r => exact .bind (update_spares _) fun _ => .pure _
  | none => exact lift_spares (defect_spares _)

theorem close_spares : Spares pool close :=
  .bind takeRegion_spares fun r => .bind leave_spares fun _ => .bind (lift_spares r.onFinally_spares) fun r =>
    .bind (lift_spares (emit_spares _)) fun _ => .bind (pass_spares _) fun _ =>
      .bind (lift_spares (emitAll_spares _)) fun _ => .bind (lift_spares exitScope_spares) fun _ =>
        .bind (lift_spares r.close_spares) fun _ => .pure _

end DisposalScope

namespace Region

open DisposalScope ScopeEmit

theorem exit_spares : ∀ r : Region, Spares constants r.exit
  | .disposable _ => .bind (on_spares _ leave_spares) fun _ => .bind (emit_spares _) fun _ =>
      .bind leaveScope_spares fun _ => .pure _
  | .tryCatch => .bind (emit_spares _) fun _ => .pure _
  | .loop l => by
      cases hl : l.isForOf with
      | true =>
        have : (Region.loop l).exit = (do emit (.iterClose 0); pure (.loop l)) := by
          simp [exit, hl]
        rw [this]
        exact .bind (emit_spares _) fun _ => .pure _
      | false =>
        have : (Region.loop l).exit = pure (.loop l) := by simp [exit, hl]
        rw [this]
        exact .pure _
  | .iteration none => .bind (emit_spares _) fun _ => .pure _
  | .iteration (some _) => .bind (on_spares _ leave_spares) fun _ => .bind leaveScope_spares fun _ =>
      .bind (emit_spares _) fun _ => .pure _

theorem exitAll_spares : ∀ rs : List Region, Spares constants (exitAll rs)
  | [] => .pure _
  | r :: rs => .bind r.exit_spares fun _ => .bind (exitAll_spares rs) fun _ => .pure _

end Region

/-! ### Texts of a function -/

/-- The number of texts in the pool that the code of a function refers to. -/
abbrev Lowering.texts (S : Lowering) : Nat := S.emitter.constants.size

/-- A computation adds at most a number of texts to the pool. -/
def Adds {α : Type} (k : Nat) (m : Lower α) : Prop := ∀ S, (stateOf (m S)).texts ≤ S.texts + k

namespace Adds

variable {α β : Type} {j k : Nat} {m : Lower α} {f : α → Lower β}

theorem mono (h : Adds j m) (hjk : j ≤ k) : Adds k m := fun S =>
  Nat.le_trans (h S) (Nat.add_le_add_left hjk _)

theorem pure (a : α) : Adds k (Pure.pure a : Lower α) := fun _ => Nat.le_add_right _ _

theorem throw (x : CompileError) : Adds k (throw x : Lower α) := fun _ => Nat.le_add_right _ _

theorem get : Adds k (MonadState.get : Lower Lowering) := fun _ => Nat.le_add_right _ _

/-- Changing the scopes and regions adds no texts. -/
theorem modify {f : Lowering → Lowering} (hf : ∀ S, (f S).emitter = S.emitter) :
    Adds k (modify f : Lower PUnit) := fun S => by
  show (f S).emitter.constants.size ≤ S.emitter.constants.size + k
  rw [hf]
  exact Nat.le_add_right _ _

theorem bind (h : Adds j m) (hf : ∀ a, Adds k (f a)) : Adds (j + k) (m >>= f) := by
  intro S
  have hm := h S
  show (stateOf (EStateM.bind m f S)).texts ≤ _
  unfold EStateM.bind
  cases hx : m S with
  | ok a S' =>
    rw [hx] at hm
    have := hf a S'
    simp only [stateOf] at hm this ⊢
    omega
  | error x S' =>
    rw [hx] at hm
    simp only [stateOf] at hm ⊢
    omega

/-- What adds nothing comes first. -/
theorem after (h : Adds 0 m) (hf : ∀ a, Adds k (f a)) : Adds k (m >>= f) :=
  (h.bind hf).mono (by omega)

/-- What adds nothing comes last. -/
theorem before (h : Adds k m) (hf : ∀ a, Adds 0 (f a)) : Adds k (m >>= f) := h.bind hf

theorem cond {c : Prop} [Decidable c] {m m' : Lower α} (h : Adds k m) (h' : Adds k m') :
    Adds k (if c then m else m') := by
  split
  · exact h
  · exact h'

/-- Emitting code adds the texts that it interns. -/
theorem lift {m : Emit α} (h : ∀ e, (stateOf (m e)).constants.size ≤ e.constants.size + k) :
    Adds k (Lower.lift m) := by
  intro ⟨e, scopes, regions⟩
  have := h e
  simp only [Lower.lift]
  cases hm : m e with
  | ok a e' => rw [hm] at this; exact this
  | error x e' => rw [hm] at this; exact this

theorem of_spares {m : Emit α} (h : Spares constants m) : Adds k (Lower.lift m) :=
  lift fun e => by rw [h e]; omega

/-- Interning a text adds it at most. -/
theorem intern (s : String) {f : UInt32 → Emit α} (hf : ∀ i, Spares constants (f i)) :
    Adds 1 (Lower.lift (Emitter.intern s >>= f)) := by
  refine lift fun e => ?_
  show (stateOf (f _ _)).constants.size ≤ _
  rw [hf]
  show (e.constants.add s).2.size ≤ _
  unfold ConstantPool.add
  cases e.constants.find? s with
  | none => simp [ConstantPool.append, ConstantPool.size]
  | some i => exact Nat.le_succ _

theorem constStr (s : String) : Adds 1 (Lower.lift (Emitter.constStr s)) :=
  intern s (f := fun i => emit (.constStr i)) fun _ => emit_spares _

theorem loadGlobal (name : String) : Adds 1 (Lower.lift (Emitter.loadGlobal name)) :=
  intern name (f := fun i => emit (.loadGlobal i)) fun _ => emit_spares _

end Adds

namespace Lower

open ScopeEmit DisposalScope

theorem lookup_adds (name : String) : Adds 0 (lookup name) := by
  refine .after .get fun S => ?_
  cases S.scopes.flatten.lookup name with
  | some slot => exact .pure _
  | none => exact .throw _

theorem declare_adds (name : String) : Adds 0 (declare name) := by
  refine .after (.of_spares allocLocal_spares) fun slot => .after (.modify fun S => ?_) fun _ => .pure _
  cases S.scopes <;> rfl

theorem declareAndStore_adds (name : String) : Adds 0 (declareAndStore name) :=
  .after (declare_adds name) fun _ => .of_spares (emit_spares _)

theorem pushScope_adds : Adds 0 pushScope := .modify fun _ => rfl

theorem popScope_adds : Adds 0 popScope := .modify fun _ => rfl

theorem pushRegion_adds (r : Region) : Adds 0 (pushRegion r) := .modify fun _ => rfl

theorem popRegion_adds : Adds 0 popRegion := fun _ => Nat.le_refl _

theorem registerUsing_adds (hint : Hint) : Adds 0 (registerUsing hint) := by
  refine .after .get fun S => ?_
  split
  · exact .after (.of_spares (on_spares _ (register_spares hint))) fun _ => .modify fun _ => rfl
  · exact .of_spares (defect_spares _)

theorem patchBreaks_spares : ∀ ps : List PendingJump, Spares constants (patchBreaks ps)
  | [] => .pure _
  | p :: ps => .bind (patchHere_spares p) fun _ => patchBreaks_spares ps

theorem closeLoop_adds (r : Option Region) : Adds 0 (closeLoop r) := by
  unfold closeLoop
  split
  · exact .of_spares (patchBreaks_spares _)
  · exact .of_spares (defect_spares _)

theorem scopeOf_adds (r : Option Region) : Adds 0 (scopeOf r) := by
  unfold scopeOf
  split
  · exact .pure _
  · exact .pure _
  · exact .of_spares (defect_spares _)

theorem findLoop_adds (label : Option String) (x : CompileError) : Adds 0 (findLoop label x) := by
  refine .after .get fun S => ?_
  split
  · exact .pure _
  · exact .throw _
  · exact .throw _

theorem continueLoop_adds (label : Option String) : Adds 0 (continueLoop label) :=
  .after (findLoop_adds _ _) fun _ => .after (.of_spares currentDepth_spares) fun _ =>
    .after (.of_spares (Region.exitAll_spares _)) fun _ => .after (.of_spares (jumpTo_spares _ _)) fun _ =>
      .after (.modify fun _ => rfl) fun _ => .of_spares (setDepth_spares _)

theorem breakLoop_adds (label : Option String) : Adds 0 (breakLoop label) := by
  refine .after (findLoop_adds _ _) fun (inner, l, outer) => .after (.of_spares currentDepth_spares) fun d =>
    .after (.of_spares (Region.exitAll_spares _)) fun _ => ?_
  refine .cond (.after (.of_spares (emit_spares _)) fun _ => ?_) ?_
  all_goals
    refine .after (.of_spares currentDepth_spares) fun _ => .cond (.of_spares (defect_spares _)) ?_
    exact .after (.of_spares (jump_spares _)) fun _ => .after (.modify fun _ => rfl) fun _ =>
      .of_spares (setDepth_spares _)

theorem inBlock_adds {k : Nat} (disposes : Bool) {stmts : Lower Unit} (h : Adds k stmts) :
    Adds k (inBlock disposes stmts) := by
  refine .after pushScope_adds fun _ => ?_
  cases disposes with
  | false => exact .before h fun _ => popScope_adds
  | true =>
    refine .after (.of_spares (on_spares _ openBody_spares)) fun d => .after (pushRegion_adds _) fun _ =>
      .before h fun _ => .after popRegion_adds fun r => .after (scopeOf_adds r) fun scope => ?_
    cases scope with
    | some scope => exact .after (.of_spares (on_spares _ close_spares)) fun _ => popScope_adds
    | none => exact popScope_adds

theorem openIteration_adds (slot : UInt16) (hint : Hint) : Adds 0 (openIteration slot hint) :=
  .after (.of_spares enterScope_spares) fun _ => .after (.of_spares (emit_spares _)) fun _ =>
    .after (.of_spares (on_spares _ (register_spares hint))) fun _ =>
      .after (.of_spares (emit_spares _)) fun _ => .pure _

theorem leaveIteration_adds (scope : DisposalScope) : Adds 0 (leaveIteration scope) :=
  .after (.of_spares (on_spares _ leave_spares)) fun _ => .after (.of_spares leaveScope_spares) fun _ =>
    .pure _

theorem leaveIterationByThrow_adds (scope : DisposalScope) : Adds 0 (leaveIterationByThrow scope) :=
  .after (.of_spares (on_spares _ leaveByThrow_spares)) fun _ => .of_spares exitScope_spares

/-! ### Parts of statements -/

/-- The code behind a loop over items, which drops what is left of the last item, and the
iterator. -/
def endLoop (done : PendingJump) (exitDepth : Nat) : Lower Unit := do
  let region ← popRegion
  popScope
  Emitter.patchHere done
  Emitter.setDepth (exitDepth + 2)
  Emitter.popN 2
  closeLoop region

theorem endLoop_adds (done : PendingJump) (exitDepth : Nat) : Adds 0 (endLoop done exitDepth) :=
  .after popRegion_adds fun r => .after popScope_adds fun _ => .after (.of_spares (patchHere_spares _)) fun _ =>
    .after (.of_spares (setDepth_spares _)) fun _ => .after (.of_spares (popN_spares _)) fun _ =>
      closeLoop_adds r

/-- The code behind the rounds of a loop: what an exception in a round leads to, the jump to
the next round, and the end of the loop. -/
def closeRounds (t : TryRegion) (head : Nat) (done : PendingJump) (exitDepth : Nat) : Lower Unit := do
  Emitter.emitAll [.swap, .iterClose 1, .throw]
  let _ ← t.close
  Emitter.jumpTo .always head
  endLoop done exitDepth

theorem closeRounds_adds (t : TryRegion) (head : Nat) (done : PendingJump) (exitDepth : Nat) :
    Adds 0 (closeRounds t head done exitDepth) :=
  .after (.of_spares (emitAll_spares _)) fun _ => .after (.of_spares t.close_spares) fun _ =>
    .after (.of_spares (jumpTo_spares _ _)) fun _ => endLoop_adds done exitDepth

/-- The code behind the body of a round. -/
def endRound (t : TryRegion) (head : Nat) (done : PendingJump) (exitDepth : Nat) : Lower Unit := do
  let scope ← scopeOf (← popRegion)
  let scope ← match scope with
    | some scope => some <$> leaveIteration scope
    | none => pure none
  let t ← t.onCatch
  match scope with
  | some scope => leaveIterationByThrow scope
  | none => pure ()
  closeRounds t head done exitDepth

theorem endRound_adds (t : TryRegion) (head : Nat) (done : PendingJump) (exitDepth : Nat) :
    Adds 0 (endRound t head done exitDepth) := by
  have hcaught (scope : Option DisposalScope) (t : TryRegion) : Adds 0 (do
      match scope with
      | some scope => leaveIterationByThrow scope
      | none => pure ()
      closeRounds t head done exitDepth : Lower Unit) := by
    cases scope with
    | none => exact closeRounds_adds t head done exitDepth
    | some scope =>
      exact .after (leaveIterationByThrow_adds scope) fun _ => closeRounds_adds t head done exitDepth
  refine .after popRegion_adds fun r => .after (scopeOf_adds r) fun scope => ?_
  cases scope with
  | none => exact .after (.pure none) fun scope => .after (.of_spares t.onCatch_spares) (hcaught scope)
  | some scope =>
    exact .after (.before (leaveIteration_adds scope) fun _ => .pure _) fun scope =>
      .after (.of_spares t.onCatch_spares) (hcaught scope)

/-- The code of a round, whose value is registered if the binding has a hint, and the code
behind it. -/
def rounds (t : TryRegion) (slot : UInt16) (hint : Option Hint) (disposes : Bool) (body : Lower Unit)
    (head : Nat) (done : PendingJump) (exitDepth : Nat) : Lower Unit := do
  match hint with
  | some hint => do
    let scope ← openIteration slot hint
    pushRegion (.iteration (some scope))
  | none => pushRegion (.iteration none)
  inBlock disposes body
  endRound t head done exitDepth

theorem rounds_adds {k : Nat} {body : Lower Unit} (h : Adds k body) (t : TryRegion) (slot : UInt16)
    (hint : Option Hint) (disposes : Bool) (head : Nat) (done : PendingJump) (exitDepth : Nat) :
    Adds k (rounds t slot hint disposes body head done exitDepth) := by
  have hbody : Adds k (do
      inBlock disposes body
      endRound t head done exitDepth : Lower Unit) :=
    .before (inBlock_adds disposes h) fun _ => endRound_adds t head done exitDepth
  cases hint with
  | none => exact .after (pushRegion_adds _) fun _ => hbody
  | some hint =>
    exact .after (openIteration_adds slot hint) fun scope => .after (pushRegion_adds _) fun _ => hbody

/-- The code of a handler, which binds the exception or drops it. -/
def handle (t : TryRegion) (param : Option String) (disposes : Bool) (handler : Lower Unit) : Lower Unit := do
  pushScope
  match param with
  | some name => declareAndStore name
  | none => Emitter.emit .pop
  inBlock disposes handler
  popScope
  let _ ← t.close

theorem handle_adds {k : Nat} {handler : Lower Unit} (h : Adds k handler) (t : TryRegion)
    (param : Option String) (disposes : Bool) : Adds k (handle t param disposes handler) := by
  have hrest : Adds k (do
      inBlock disposes handler
      popScope
      let _ ← t.close : Lower Unit) :=
    .before (inBlock_adds disposes h) fun _ =>
      .after popScope_adds fun _ => .after (.of_spares t.close_spares) fun _ => .pure _
  refine .after pushScope_adds fun _ => ?_
  cases param with
  | some name => exact .after (declareAndStore_adds name) fun _ => hrest
  | none => exact .after (.of_spares (emit_spares _)) fun _ => hrest

end Lower

/-! ### Expressions and statements -/

mutual

theorem Expr.lower_adds : ∀ e : Expr, Adds e.nodes e.lower
  | .undefined | .null | .bool _ | .int _ => by
    rw [Expr.lower]
    exact .of_spares (emit_spares _)
  | .str s => by
    rw [Expr.lower, Expr.nodes]
    · exact .constStr s
    all_goals nofun
  | .binding name => by
    rw [Expr.lower]
    exact .after (Lower.lookup_adds name) fun _ => .of_spares (emit_spares _)
  | .global name => by
    rw [Expr.lower, Expr.nodes]
    · exact .loadGlobal name
    all_goals nofun
  | .call callee args => by
    have hcall : Adds (callee.nodes + Expr.nodesAll args) (do
        callee.lower
        Emitter.emit .constUndefined
        Expr.lowerAll args
        Emitter.emit (.call (UInt8.ofNat args.length)) : Lower Unit) :=
      .bind (Expr.lower_adds callee) fun _ => .after (.of_spares (emit_spares _)) fun _ =>
        .before (Expr.lowerAll_adds args) fun _ => .of_spares (emit_spares _)
    rw [Expr.lower, Expr.nodes]
    exact .cond (.throw _) (hcall.mono (Nat.le_succ _))
  | .await e => by
    rw [Expr.lower, Expr.nodes]
    exact .mono (.before e.lower_adds fun _ => .of_spares emitAwait_spares) (Nat.le_succ _)
  | .yield e => by
    rw [Expr.lower, Expr.nodes]
    exact .mono (.before e.lower_adds fun _ => .of_spares emitYield_spares) (Nat.le_succ _)

theorem Expr.lowerAll_adds : ∀ es : List Expr, Adds (Expr.nodesAll es) (Expr.lowerAll es)
  | [] => by
    rw [Expr.lowerAll]
    exact .pure _
  | e :: es => by
    rw [Expr.lowerAll, Expr.nodesAll]
    exact .bind e.lower_adds fun _ => Expr.lowerAll_adds es

end

theorem Lower.ret_adds : ∀ e : Option Expr, Adds (Stmt.ret e).nodes (ret e) := by
  have hrest : Adds 0 (do
      Emitter.emit .setRval
      let depth ← Emitter.currentDepth
      let regions ← Region.exitAll (← get).regions
      modify fun s => { s with regions }
      Emitter.emit .retRval
      Emitter.setDepth depth : Lower Unit) :=
    .after (.of_spares (emit_spares _)) fun _ => .after (.of_spares currentDepth_spares) fun _ =>
      .after .get fun _ => .after (.of_spares (Region.exitAll_spares _)) fun _ =>
        .after (.modify fun _ => rfl) fun _ => .after (.of_spares (emit_spares _)) fun _ =>
          .of_spares (setDepth_spares _)
  intro e
  cases e with
  | some e => exact .mono (.before e.lower_adds fun _ => hrest) (Nat.le_succ _)
  | none => exact .after (.of_spares (emit_spares _)) fun _ => hrest.mono (Nat.zero_le _)

mutual

theorem Stmt.lower_adds : ∀ s : Stmt, Adds s.nodes s.lower
  | .expr e => by
    rw [Stmt.lower, Stmt.nodes]
    exact .mono (.before e.lower_adds fun _ => .of_spares (emit_spares _)) (Nat.le_succ _)
  | .letIn name init => by
    rw [Stmt.lower, Stmt.nodes]
    exact .mono (.before init.lower_adds fun _ => Lower.declareAndStore_adds name) (Nat.le_succ _)
  | .usingIn name hint init => by
    rw [Stmt.lower, Stmt.nodes]
    exact .mono (.before init.lower_adds fun _ => .after (Lower.registerUsing_adds hint) fun _ =>
      Lower.declareAndStore_adds name) (Nat.le_succ _)
  | .block body => by
    rw [Stmt.lower, Stmt.nodes]
    exact .mono (Lower.inBlock_adds _ (Stmt.lowerAll_adds body)) (Nat.le_succ _)
  | .ifElse cond yes no => by
    rw [Stmt.lower, Stmt.nodes]
    refine .mono (j := cond.nodes + (Stmt.nodesAll yes + Stmt.nodesAll no)) ?_ (by omega)
    refine .bind cond.lower_adds fun _ => .after (.of_spares (Branch.first_spares _)) fun b =>
      .bind (Lower.inBlock_adds _ (Stmt.lowerAll_adds yes)) fun _ => ?_
    refine .cond (.of_spares b.close_spares) (.after (.of_spares b.second_spares) fun b => ?_)
    exact .before (Lower.inBlock_adds _ (Stmt.lowerAll_adds no)) fun _ => .of_spares b.close_spares
  | .whileLoop label cond body => by
    rw [Stmt.lower, Stmt.nodes]
    refine .mono (.after (.of_spares currentDepth_spares) fun _ =>
      .after (.of_spares (Loop.condition_spares _)) fun l => .bind cond.lower_adds fun _ =>
        .after (.of_spares l.body_spares) fun l => .after (Lower.pushRegion_adds _) fun _ => ?_)
      (Nat.le_succ _)
    exact .before (Lower.inBlock_adds _ (Stmt.lowerAll_adds body)) fun _ =>
      .after Lower.popRegion_adds fun r => .after (.of_spares l.close_spares) fun _ =>
        Lower.closeLoop_adds r
  | .forOf label binding hint iterable body => by
    rw [Stmt.lower, Stmt.nodes]
    exact .mono (.after (.of_spares currentDepth_spares) fun depth =>
      .bind iterable.lower_adds fun _ => .after (.of_spares (emit_spares _)) fun _ =>
        .after (.of_spares offset_spares) fun head => .after (.of_spares (emit_spares _)) fun _ =>
          .after (.of_spares (jump_spares _)) fun done => .after Lower.pushScope_adds fun _ =>
            .after (Lower.declare_adds binding) fun slot => .after (.of_spares (emit_spares _)) fun _ =>
              .after (Lower.pushRegion_adds _) fun _ => .after (.of_spares TryRegion.start_spares) fun t =>
                Lower.rounds_adds (Stmt.lowerAll_adds body) t slot hint (body.any isUsing) head done depth)
      (Nat.le_succ _)
  | .tryCatch body param handler => by
    rw [Stmt.lower, Stmt.nodes]
    refine .mono (.after (.of_spares TryRegion.start_spares) fun t =>
      .after (Lower.pushRegion_adds _) fun _ =>
        .bind (Lower.inBlock_adds _ (Stmt.lowerAll_adds body)) fun _ =>
          .after Lower.popRegion_adds fun _ => .after (.of_spares t.onCatch_spares) fun t =>
            .after .get fun S => ?_) (Nat.le_succ _)
    have hhandler : Adds (Stmt.nodesAll handler)
        (Lower.handle t param (handler.any isUsing) (Stmt.lowerAll handler)) :=
      Lower.handle_adds (Stmt.lowerAll_adds handler) t param _
    exact .cond (.after (.of_spares rethrowIfClosing_spares) fun _ => hhandler) hhandler
  | .throw e => by
    rw [Stmt.lower, Stmt.nodes]
    exact .mono (.before e.lower_adds fun _ => .of_spares (emit_spares _)) (Nat.le_succ _)
  | .ret e => by
    rw [Stmt.lower]
    exact Lower.ret_adds e
  | .breakLoop label => by
    rw [Stmt.lower]
    exact (Lower.breakLoop_adds label).mono (Nat.zero_le _)
  | .continueLoop label => by
    rw [Stmt.lower]
    exact (Lower.continueLoop_adds label).mono (Nat.zero_le _)

theorem Stmt.lowerAll_adds : ∀ ss : List Stmt, Adds (Stmt.nodesAll ss) (Stmt.lowerAll ss)
  | [] => by
    rw [Stmt.lowerAll]
    exact .pure _
  | s :: ss => by
    rw [Stmt.lowerAll, Stmt.nodesAll]
    exact .bind s.lower_adds fun _ => Stmt.lowerAll_adds ss

end

/-! ### Functions and modules -/

namespace Declaration

theorem lower_adds (d : Declaration) : Adds d.nodes d.lower := by
  refine .mono (.before (Lower.inBlock_adds _ (Stmt.lowerAll_adds d.body)) fun _ =>
    .after (.of_spares (emitAll_spares _)) fun _ => .after .get fun S =>
      .cond (.of_spares (defect_spares _)) (.pure _)) ?_
  unfold nodes
  omega

/-- A function adds no more texts than it has nodes, whether or not it compiles. -/
theorem compile_adds (d : Declaration) (pool : ConstantPool) :
    (d.compile pool).2.size ≤ pool.size + d.nodes := by
  unfold compile
  cases he : Emitter.start d.name d.kind d.params.length pool with
  | error x => exact Nat.le_add_right _ _
  | ok e =>
    have hpool : e.constants = pool := by
      unfold Emitter.start at he
      split at he
      · cases he
      · cases he
        rfl
    have := d.lower_adds ⟨e, [d.paramScope], []⟩
    simp only [Lowering.texts, hpool] at this ⊢
    cases hd : d.lower ⟨e, [d.paramScope], []⟩ with
    | ok _ S => rw [hd] at this; exact this
    | error x S => rw [hd] at this; exact this

end Declaration

/-- A module that functions are compiled into gains no more texts than they have nodes. -/
theorem Module.compileAll_adds : ∀ (ds : List Declaration) {m m' : Module}, m.compileAll ds = .ok m' →
    m'.constants.size ≤ m.constants.size + Declaration.nodesAll ds
  | [], m, m', h => by
    cases h
    exact Nat.le_add_right _ _
  | d :: ds, m, m', h => by
    unfold compileAll at h
    split at h
    · cases h
    · have hd := d.compile_adds m.constants
      split at h
      · cases h
      · rename_i f constants hf
        rw [hf] at hd
        have := compileAll_adds ds h
        simp only [Declaration.nodesAll] at this hd ⊢
        omega

end
end ResourceMachine
