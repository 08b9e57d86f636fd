/-
# Iterators that are not wound back

Nothing that a machine does makes an iterator hand out more items than it was going to:
it takes items and closes iterators, and creates new ones. Host functions can do no more
to an iterator either; that they do not is a hypothesis (`Host.Onward`), since a host
function of the model may do anything to the heap.

Key definitions: `Cursor.left`, `Heap.Onward`, `Host.Onward`, `Exec.Onward`.
Key theorems: `Callable.call_onward`, `Exec.instr_onward`, `Activation.step_onward`.
-/
import ResourceMachine.Proofs.Capacity
import ResourceMachine.Proofs.Registration

namespace ResourceMachine

variable {σ α β : Type}

/-! ### New identities -/

/-- Looking for a method makes only errors and wrappers. -/
theorem createResource_onlyFresh (v : Value) (hint : Hint) : Within OnlyFresh (createResource v hint) := by
  intro h
  have hlook := Looks.createResource v hint h
  generalize createResource v hint h = result at hlook
  cases result <;> exact hlook.1

theorem Heap.newResources_onlyFresh {ε : Type} : ∀ rs : List Resource,
    Within OnlyFresh (Heap.newResources rs : OnHeap ε (List Value))
  | [] => .pure OnlyFresh.stable _
  | _ :: rs => .bind OnlyFresh.stable (fun h => ⟨h.identities + 1, rfl⟩) fun _ =>
    .bind OnlyFresh.stable (newResources_onlyFresh rs) fun _ => .pure OnlyFresh.stable _

/-! ### Heaps -/

/-- How many items an iterator is still going to hand out. -/
def Cursor.left (c : Cursor) : Nat := if c.closed then 0 else c.rest.length

/-- No iterator is going to hand out more items than before. -/
structure Heap.Onward (h h' : Heap) : Prop where
  size : h.iterators.size ≤ h'.iterators.size
  left : ∀ id, id < h.iterators.size → (h'.cursor id).left ≤ (h.cursor id).left

namespace Heap

variable {h h' h'' : Heap} {id : Nat}

theorem Onward.refl (h : Heap) : h.Onward h := ⟨Nat.le_refl _, fun _ _ => Nat.le_refl _⟩

theorem Onward.trans (h₁ : h.Onward h') (h₂ : h'.Onward h'') : h.Onward h'' where
  size := Nat.le_trans h₁.size h₂.size
  left id hid := Nat.le_trans (h₂.left id (Nat.lt_of_lt_of_le hid h₁.size)) (h₁.left id hid)

theorem Onward.of_eq (heq : h'.iterators = h.iterators) : h.Onward h' where
  size := Nat.le_of_eq (congrArg Array.size heq.symm)
  left id _ := Nat.le_of_eq (by rw [cursor, cursor, heq])

theorem Onward.push (c : Cursor) : h.Onward { h with iterators := h.iterators.push c } where
  size := by simp
  left id hid := by simp [cursor, Array.getElem?_push, Nat.ne_of_lt hid]

theorem Onward.fresh (hfresh : OnlyFresh h h') : h.Onward h' := by
  obtain ⟨_, rfl⟩ := hfresh
  exact .of_eq rfl

theorem Onward.set {c : Cursor} (hc : c.left ≤ (h.cursor id).left) :
    h.Onward { h with iterators := h.iterators.setIfInBounds id c } where
  size := by simp
  left id' hid' := by
    by_cases heq : id = id'
    · subst heq
      simpa [cursor, Array.getElem?_setIfInBounds, hid'] using hc
    · simp [cursor, heq]

/-- Only an iterator that is there hands out items. -/
theorem cursor_of_size_le (hid : h.iterators.size ≤ id) : h.cursor id = default := by
  simp [cursor, Array.getElem?_eq_none hid]

end Heap

theorem Cursor.left_close (c : Cursor) : c.close.2.left ≤ c.left := by
  simp [close, left]

theorem Cursor.left_next (c : Cursor) :
    c.next.2.left ≤ c.left ∧ (c.next.1.isSome → c.next.2.left < c.left) := by
  obtain ⟨rest, position, closed, closeError⟩ := c
  cases closed <;> cases rest <;> simp [next, left]

/-- No iterator of the world is going to hand out more items than before. -/
abbrev World.Onward (w w' : World σ) : Prop := w.heap.Onward w'.heap

/-! ### Calls of host functions -/

/-- Host functions wind no iterator back: a host can take its next item and close it, but an
iterator keeps its items to itself. -/
def Host.Onward (host : Host σ) : Prop :=
  ∀ f receiver args (w : World σ), w.Onward (((host f receiver args).settle w).2)

theorem Callable.call_onward {host : Host σ} (hhost : host.Onward) (f : Callable)
    (receiver : Value) (args : List Value) (w : World σ) :
    w.Onward (((f.call host receiver args).settle w).2) := by
  induction f generalizing receiver args with
  | host f => exact hhost f receiver args w
  | settling _ inner ih =>
    have hinner := ih receiver []
    unfold Guest.settle call
    cases hcall : (inner.call host receiver []).settle w with
    | mk result w' =>
      rw [hcall] at hinner
      cases result with
      | ok v => exact hinner.trans (.of_eq rfl)
      | error e => exact hinner.trans (.of_eq rfl)

/-! ### Instructions -/

/-- A computation of the machine that winds no iterator back. -/
def Exec.Onward (m : Exec σ α) : Prop :=
  ∀ a : Activation σ, a.world.Onward (stateOf (m a)).world

namespace Exec.Onward

theorem pure (x : α) : Onward (Pure.pure x : Exec σ α) := fun _ => .refl _

theorem throw (f : Fault) : Onward (MonadExcept.throw f : Exec σ α) := fun _ => .refl _

theorem bind {m : Exec σ α} {k : α → Exec σ β} (hm : Onward m) (hk : ∀ x, Onward (k x)) :
    Onward (m >>= k) := by
  intro a
  have hma := hm a
  show a.world.Onward (stateOf (EStateM.bind m k a)).world
  unfold EStateM.bind
  cases hx : m a with
  | ok x a' =>
    rw [hx] at hma
    exact hma.trans (hk x a')
  | error f a' =>
    rw [hx] at hma
    exact hma

theorem map {m : Exec σ α} {g : α → β} (hm : Onward m) : Onward (g <$> m) := hm.bind fun x => pure (g x)

/-- What is read off the frame. -/
theorem frame {k : Frame → Exec σ β} (hk : ∀ f, Onward (k f)) : Onward (Exec.frame >>= k) := fun a =>
  hk a.frame a

theorem onFrame (g : Frame → Frame) : Onward (Exec.onFrame g : Exec σ Unit) := fun _ => .refl _

theorem onFrameThen {g : Frame → Frame} {m : Exec σ β} (hm : Onward m) :
    Onward (do
      Exec.onFrame g
      m) := (onFrame g).bind fun _ => hm

theorem onHeap {m : OnHeap Fault α} (h : Within Heap.Onward m) : Onward (Exec.onHeap m : Exec σ α) := by
  intro ⟨f, ⟨heap, host⟩⟩
  have hm := h heap
  unfold Exec.onHeap World.onHeap
  cases hx : m heap with
  | ok x heap' | error e heap' =>
    rw [hx] at hm
    simp only [hx]
    exact hm

theorem onFresh {m : OnHeap Fault α} (h : Within OnlyFresh m) : Onward (Exec.onHeap m : Exec σ α) :=
  onHeap (h.mono .fresh)

theorem settle {m : Guest σ α} (h : ∀ w : World σ, w.Onward (m.settle w).2) : Onward (Exec.settle m) :=
  fun a => h a.world

theorem check (e : Except Fault α) : Onward (Exec.check e : Exec σ α) := by
  cases e with
  | ok x => exact pure x
  | error f => exact throw f

theorem onStack (g : OperandStack Value → Except Fault (OperandStack Value)) :
    Onward (Exec.onStack g : Exec σ Unit) := by
  intro a
  unfold Exec.onStack
  cases g a.frame.stack <;> exact .refl _

theorem push (v : Value) : Onward (Exec.push v : Exec σ Unit) := onStack _

theorem pop : Onward (Exec.pop : Exec σ Value) := by
  intro a
  unfold Exec.pop
  cases a.frame.stack.pop <;> exact .refl _

theorem peekAt (n : Nat) : Onward (Exec.peekAt n : Exec σ Value) := by
  intro a
  unfold Exec.peekAt
  cases a.frame.stack.peekAt n <;> exact .refl _

theorem popAll : ∀ (n : Nat) (vs : List Value), Onward (Exec.popAll.go n vs : Exec σ (List Value))
  | 0, vs => pure vs
  | n + 1, vs => pop.bind fun v => popAll n (v :: vs)

theorem dropAll : ∀ n : Nat, Onward (Exec.dropAll n : Exec σ Unit)
  | 0 => pure ()
  | n + 1 => pop.bind fun _ => dropAll n

theorem constant (index : UInt32) : Onward (Exec.constant index : Exec σ String) := by
  refine frame fun f => ?_
  split
  · exact pure _
  · exact throw _

/-! ### Families of instructions -/

section

variable {next codeSize : Nat} {env : Env σ}

theorem pushThen (v : Value) : Onward (Exec.pushThen next v : Exec σ Next) :=
  (push v).bind fun _ => pure _

theorem throwNew (kind : ErrorKind) (message : String) :
    Onward (Exec.throwNew kind message : Exec σ Next) :=
  (onFresh fun h => ⟨h.identities + 1, rfl⟩).bind fun _ => pure _

theorem count (op : Opcode) (f : Int32 → Int32) : Onward (Exec.count next op f : Exec σ Next) := by
  refine pop.bind fun v => ?_
  split
  · exact pushThen _
  · exact throw _

theorem atLeast : Onward (Exec.atLeast next : Exec σ Next) := by
  refine pop.bind fun b => pop.bind fun a => ?_
  split
  · exact pushThen _
  · exact throw _

theorem jumpIf (wanted : Bool) (distance : Int32) :
    Onward (Exec.jumpIf codeSize next wanted distance : Exec σ Next) := by
  refine pop.bind fun v => ?_
  split
  · exact (check _).map
  · exact pure _

theorem loadLocal (slot : UInt16) : Onward (Exec.loadLocal next slot : Exec σ Next) := by
  refine frame fun f => ?_
  split
  · exact pushThen _
  · exact throw _

theorem storeLocal (slot : UInt16) : Onward (Exec.storeLocal next slot : Exec σ Next) := by
  refine pop.bind fun v => frame fun f => ?_
  split
  · exact onFrameThen (pure _)
  · exact throw _

theorem loadGlobal (index : UInt32) : Onward (Exec.loadGlobal env next index) := by
  refine (constant index).bind fun name => ?_
  split
  · exact pushThen _
  · exact throwNew _ _

theorem call (hhost : env.host.Onward) (argc : Nat) : Onward (Exec.call env next argc) := by
  refine (popAll argc []).bind fun args => pop.bind fun receiver => pop.bind fun callee => ?_
  split
  · rename_i f
    refine (settle (f.call_onward hhost receiver args)).bind fun result => ?_
    split
    · exact pushThen _
    · exact pure _
  · exact throwNew _ _

theorem element : Onward (Exec.element next : Exec σ Next) := by
  refine pop.bind fun index => pop.bind fun items => ?_
  split
  · exact pushThen _
  · exact throw _

theorem iterator : Onward (Exec.iterator next : Exec σ Next) := by
  refine pop.bind fun iterable => ?_
  split
  · exact (onHeap fun _ => .push _).bind fun v => pushThen v
  · exact pushThen _
  · exact throwNew _ _

theorem iterNext : Onward (Exec.iterNext next : Exec σ Next) := by
  refine (peekAt 0).bind fun v => ?_
  split
  · refine (onHeap fun h => .set (Cursor.left_next _).1).bind fun item => ?_
    split
    · exact (push _).bind fun _ => pushThen _
    · exact (push _).bind fun _ => pushThen _
  · exact throw _

theorem iterClose (onThrow : Bool) : Onward (Exec.iterClose next onThrow : Exec σ Next) := by
  refine pop.bind fun v => ?_
  split
  · refine (onHeap fun h => .set (Cursor.left_close _)).bind fun error => ?_
    split <;> exact pure _
  · exact throw _

theorem onScope (missing : Fault) (g : Capability → α × Capability) :
    Onward (Exec.onScope missing g : Exec σ α) := by
  refine frame fun f => ?_
  split
  · exact onFrameThen (pure _)
  · exact throw _

theorem popScope : Onward (Exec.popScope next : Exec σ Next) := by
  refine frame fun f => ?_
  split
  · exact onFrameThen (pure _)
  · exact throw _

theorem createResource (v : Value) (hint : Hint) (w : World σ) :
    w.Onward (Guest.settle (World.onHeap (createResource v hint)) w).2 := by
  have hlook := createResource_onlyFresh v hint w.heap
  unfold Guest.settle World.onHeap
  cases hx : ResourceMachine.createResource v hint w.heap with
  | ok r heap | error e heap =>
    rw [hx] at hlook
    simp only [hx]
    exact .fresh hlook

theorem addDisposable (byte : UInt8) : Onward (Exec.addDisposable next byte : Exec σ Next) := by
  unfold Exec.addDisposable
  split
  · exact throw _
  · refine pop.bind fun v => (settle (createResource v _)).bind fun result => ?_
    split
    · exact pure _
    · exact (onScope _ _).bind fun _ => pure _

theorem takeCapability : Onward (Exec.takeCapability next : Exec σ Next) := by
  refine (onScope _ _).bind fun rs => (onFresh (Heap.newResources_onlyFresh rs)).bind fun records => ?_
  split
  · exact throw _
  · exact (onFresh fun h => ⟨h.identities + 1, rfl⟩).bind fun v => (push v).bind fun _ => pushThen _

theorem resourceField (byte : UInt8) : Onward (Exec.resourceField next byte : Exec σ Next) := by
  unfold Exec.resourceField
  split
  · exact throw _
  · refine pop.bind fun v => ?_
    split
    · exact pushThen _
    · exact throw _

theorem chainError (unwrapClosing : Bool) : Onward (Exec.chainError next unwrapClosing : Exec σ Next) := by
  refine pop.bind fun _ => pop.bind fun _ => pop.bind fun e => (onFresh ?_).bind fun v => pushThen v
  cases Completion.ofPending _ _ unwrapClosing with
  | throw prior => exact fun h => ⟨h.identities + 1, rfl⟩
  | normal | unwind => exact .pure OnlyFresh.stable _

theorem tryStart (onCatch onFinally : Int32) :
    Onward (Exec.tryStart codeSize next onCatch onFinally : Exec σ Next) :=
  (check _).bind fun _ => (check _).bind fun _ => onFrameThen (pure _)

theorem endTry : Onward (Exec.endTry next : Exec σ Next) := by
  refine frame fun f => ?_
  split
  · exact onFrameThen (pure _)
  · exact throw _

theorem popToRval : Onward (Exec.popToRval : Exec σ Value) := pop.bind fun _ => onFrameThen (pure _)

theorem shuffle (g : OperandStack Value → Except Fault (OperandStack Value)) :
    Onward (Exec.shuffle next g : Exec σ Next) := (onStack g).bind fun _ => pure _

end

end Exec.Onward

section

variable {env : Env σ} {codeSize next : Nat}

/-- No instruction winds an iterator back. -/
theorem Exec.instr_onward (hhost : env.host.Onward) : ∀ i : Instr, Exec.Onward (Exec.instr env codeSize next i)
  | .nop => .pure _
  | .pop => (Onward.dropAll 1).bind fun _ => .pure _
  | .popN n => (Onward.dropAll n.toNat).bind fun _ => .pure _
  | .dup => (Onward.peekAt 0).bind fun v => .pushThen v
  | .dup2 => (Onward.peekAt 1).bind fun a => (Onward.peekAt 0).bind fun b =>
    (Onward.push a).bind fun _ => .pushThen b
  | .dupAt n => (Onward.peekAt n.toNat).bind fun v => .pushThen v
  | .swap | .pick _ | .unpick _ => .shuffle _
  | .constUndefined | .constNull | .constTrue | .constFalse | .constI32 _ => .pushThen _
  | .constStr index => (Onward.constant index).bind fun _ => .pushThen _
  | .loadLocal slot => .loadLocal slot
  | .storeLocal slot => .storeLocal slot
  | .loadGlobal index => .loadGlobal index
  | .getRval => Onward.frame fun _ => .pushThen _
  | .setRval => Onward.popToRval.bind fun _ => .pure _
  | .not => Onward.pop.bind fun _ => .pushThen _
  | .and => Onward.pop.bind fun _ => Onward.pop.bind fun _ => .pushThen _
  | .inc | .dec => .count _ _
  | .ige => .atLeast
  | .isNullish => Onward.pop.bind fun _ => .pushThen _
  | .isClosing => Onward.pop.bind fun v => by
    split <;> exact .pushThen _
  | .jmp _ => (Onward.check _).map
  | .jmpIfFalse d => .jumpIf false d
  | .jmpIfTrue d => .jumpIf true d
  | .retRval => Onward.frame fun _ => .pure _
  | .call argc => .call hhost argc.toNat
  | .getElem => .element
  | .getIterator => .iterator
  | .iterNext => .iterNext
  | .iterClose _ => .iterClose _
  | .pushDisposeScope => .onFrameThen (.pure _)
  | .popDisposeScope => .popScope
  | .addDisposable byte => .addDisposable byte
  | .takeDisposeCapability => .takeCapability
  | .resourceField byte => .resourceField byte
  | .chainDisposeError _ => .chainError _
  | .await | .yield => Onward.popToRval.map
  | .throw => Onward.pop.map
  | .tryStart c f => .tryStart c f
  | .endTry => .endTry

end

namespace Activation

variable {env : Env σ} {code : Bytes} {pc : Nat} {a : Activation σ}

theorem step_onward (hhost : env.host.Onward) :
    a.world.Onward (a.step env code pc).activation.world := by
  unfold step
  cases Instr.opcodeAt code pc with
  | error e => exact .refl _
  | ok op =>
    simp only
    cases Instr.ofOperandsAt code (pc + 1) op with
    | error e => exact .refl _
    | ok i =>
      have honward := @Exec.instr_onward _ env code.size (pc + i.size) hhost i a
      simp only [perform]
      cases hx : Exec.instr env code.size (pc + i.size) i a with
      | ok next a' =>
        rw [hx] at honward
        simp only [world_follow]
        exact honward
      | error f a' =>
        rw [hx] at honward
        exact honward

end Activation

end ResourceMachine
