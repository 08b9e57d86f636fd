/-
# The room for operands

How much room an operand stack has is told only by an overflow: with more room, the
machine does what it did with less, as long as that did not overflow. A session that
overflowed has done a part of what it does with more room.

Key definitions: `Roomy`, `Session.widen`.
Key theorems: `Exec.instr_roomy`, `Session.step_widen`, `Steps.widen`.
-/
import ResourceMachine.Proofs.Session

namespace ResourceMachine

variable {σ α β : Type}

namespace Frame

/-- What stays as it is while a frame is run: the function, and the room for operands. -/
def setup (f : Frame) : Module × Nat × Nat := (f.unit, f.functionIndex, f.stack.capacity)

theorem setup_capacity {f f' : Frame} (h : f'.setup = f.setup) :
    f'.stack.capacity = f.stack.capacity := congrArg (fun x => x.2.2) h

/-- The frame with room for `c` operands. -/
def widen (f : Frame) (c : Nat) : Frame := { f with stack := { f.stack with capacity := c } }

end Frame

namespace Activation

/-- The activation with room for `c` operands. -/
def widen (a : Activation σ) (c : Nat) : Activation σ := { a with frame := a.frame.widen c }

end Activation

/-! ### Computations that may be given more room -/

/-- With more room, a computation of the machine ends as it did, unless it had too little. -/
def Roomy (m : Exec σ α) : Prop := ∀ a c, a.frame.stack.capacity ≤ c →
  match m a with
  | .ok x a' => a'.frame.setup = a.frame.setup ∧ m (a.widen c) = .ok x (a'.widen c)
  | .error f a' => a'.frame.setup = a.frame.setup ∧
      (f = .stackOverflow ∨ m (a.widen c) = .error f (a'.widen c))

namespace Roomy

theorem pure (x : α) : Roomy (Pure.pure x : Exec σ α) := fun _ _ _ => ⟨rfl, rfl⟩

theorem throw (f : Fault) : Roomy (MonadExcept.throw f : Exec σ α) := fun _ _ _ => ⟨rfl, .inr rfl⟩

theorem bind {m : Exec σ α} {k : α → Exec σ β} (hm : Roomy m) (hk : ∀ x, Roomy (k x)) :
    Roomy (m >>= k) := by
  intro a c hc
  have hma := hm a c hc
  show match EStateM.bind m k a with
    | .ok x a' => a'.frame.setup = a.frame.setup ∧ EStateM.bind m k (a.widen c) = .ok x (a'.widen c)
    | .error f a' => a'.frame.setup = a.frame.setup ∧
        (f = .stackOverflow ∨ EStateM.bind m k (a.widen c) = .error f (a'.widen c))
  unfold EStateM.bind
  match hx : m a, hma with
  | .ok x a', ⟨hsetup, hwide⟩ =>
    rw [hwide]
    have hk := hk x a' c (by rwa [Frame.setup_capacity hsetup])
    rwa [hsetup] at hk
  | .error f a', ⟨hsetup, hwide⟩ =>
    rcases hwide with hf | hwide
    · exact ⟨hsetup, .inl hf⟩
    · exact ⟨hsetup, .inr (by rw [hwide])⟩

theorem map {m : Exec σ α} {g : α → β} (hm : Roomy m) : Roomy (g <$> m) := hm.bind fun x => pure (g x)

/-- What is read off the frame apart from its room. -/
theorem frame {k : Frame → Exec σ β} (hk : ∀ f, Roomy (k f)) (hwide : ∀ f c, k (f.widen c) = k f) :
    Roomy (Exec.frame >>= k) := by
  intro a c hc
  have hka := hk a.frame a c hc
  show match k a.frame a with
    | .ok x a' => a'.frame.setup = a.frame.setup ∧ k (a.frame.widen c) (a.widen c) = .ok x (a'.widen c)
    | .error f a' => a'.frame.setup = a.frame.setup ∧
        (f = .stackOverflow ∨ k (a.frame.widen c) (a.widen c) = .error f (a'.widen c))
  rw [hwide]
  exact hka

theorem onFrame {g : Frame → Frame} (hg : ∀ f c, g (f.widen c) = (g f).widen c)
    (hsetup : ∀ f, (g f).setup = f.setup) :
    Roomy (Exec.onFrame g : Exec σ Unit) := by
  intro a c hc
  refine ⟨hsetup a.frame, ?_⟩
  show EStateM.Result.ok () ({ a.widen c with frame := g (a.frame.widen c) } : Activation σ) = _
  rw [hg]
  rfl

theorem onFrameThen {g : Frame → Frame} {m : Exec σ β} (hm : Roomy m)
    (hg : ∀ f c, g (f.widen c) = (g f).widen c)
    (hsetup : ∀ f, (g f).setup = f.setup) :
    Roomy (do
      Exec.onFrame g
      m) := (onFrame hg hsetup).bind fun _ => hm

theorem onHeap (m : OnHeap Fault α) : Roomy (Exec.onHeap m : Exec σ α) := by
  intro ⟨f, ⟨heap, host⟩⟩ c hc
  simp only [Exec.onHeap, Activation.widen, World.onHeap]
  cases m heap with
  | ok x heap' => exact ⟨rfl, rfl⟩
  | error e heap' => exact ⟨rfl, .inr rfl⟩

theorem settle (m : Guest σ α) : Roomy (Exec.settle m) := fun _ _ _ => ⟨rfl, rfl⟩

theorem check (e : Except Fault α) : Roomy (Exec.check e : Exec σ α) := by
  cases e with
  | ok x => exact pure x
  | error f => exact throw f

/-- A change of the stack that does not look at its room. -/
theorem onStack {g : OperandStack Value → Except Fault (OperandStack Value)}
    (hg : ∀ st c, g ⟨st, c⟩ = (g ⟨st, 0⟩).map fun s => { s with capacity := c }) :
    Roomy (Exec.onStack g : Exec σ Unit) := by
  intro ⟨⟨unit, index, ip, ⟨st, cap⟩, L, rv, H, sc⟩, w⟩ c hc
  unfold Exec.onStack
  simp only [Activation.widen, Frame.widen, hg st c, hg st cap]
  cases g ⟨st, 0⟩ with
  | ok s => exact ⟨rfl, rfl⟩
  | error f => exact ⟨rfl, .inr rfl⟩

theorem push (v : Value) : Roomy (Exec.push v : Exec σ Unit) := by
  intro ⟨⟨unit, index, ip, ⟨st, cap⟩, L, rv, H, sc⟩, w⟩ c hc
  have hc : cap ≤ c := hc
  simp only [Exec.push, Exec.onStack, Activation.widen, Frame.widen, OperandStack.push,
    OperandStack.depth]
  by_cases hfull : cap ≤ st.length
  · simp [hfull]
  · simp [hfull, show ¬ c ≤ st.length by omega, Frame.setup]

theorem pop : Roomy (Exec.pop : Exec σ Value) := by
  intro ⟨⟨unit, index, ip, ⟨st, cap⟩, L, rv, H, sc⟩, w⟩ c hc
  cases st with
  | nil => exact ⟨rfl, .inr rfl⟩
  | cons v st => exact ⟨rfl, rfl⟩

theorem peekAt (n : Nat) : Roomy (Exec.peekAt n : Exec σ Value) := by
  intro ⟨⟨unit, index, ip, ⟨st, cap⟩, L, rv, H, sc⟩, w⟩ c hc
  simp only [Exec.peekAt, Activation.widen, Frame.widen, OperandStack.peekAt]
  cases st[n]? with
  | none => exact ⟨rfl, .inr rfl⟩
  | some v => exact ⟨rfl, rfl⟩

theorem popAll : ∀ (n : Nat) (vs : List Value), Roomy (Exec.popAll.go n vs : Exec σ (List Value))
  | 0, vs => pure vs
  | n + 1, vs => pop.bind fun v => popAll n (v :: vs)

theorem dropAll : ∀ n : Nat, Roomy (Exec.dropAll n : Exec σ Unit)
  | 0 => pure ()
  | n + 1 => pop.bind fun _ => dropAll n

theorem constant (index : UInt32) : Roomy (Exec.constant index : Exec σ String) := by
  refine frame (fun f => ?_) fun _ _ => rfl
  split
  · exact pure _
  · exact throw _

/-! ### Families of instructions -/

section

variable {next codeSize : Nat}

theorem pushThen (v : Value) : Roomy (Exec.pushThen next v : Exec σ Next) :=
  (push v).bind fun _ => pure _

theorem throwNew (kind : ErrorKind) (message : String) :
    Roomy (Exec.throwNew kind message : Exec σ Next) :=
  (onHeap _).bind fun _ => pure _

theorem count (op : Opcode) (f : Int32 → Int32) : Roomy (Exec.count next op f : Exec σ Next) := by
  refine pop.bind fun v => ?_
  split
  · exact pushThen _
  · exact throw _

theorem atLeast : Roomy (Exec.atLeast next : Exec σ Next) := by
  refine pop.bind fun b => pop.bind fun a => ?_
  split
  · exact pushThen _
  · exact throw _

theorem jumpIf (wanted : Bool) (distance : Int32) :
    Roomy (Exec.jumpIf codeSize next wanted distance : Exec σ Next) := by
  refine pop.bind fun v => ?_
  split
  · exact (check _).map
  · exact pure _

theorem loadLocal (slot : UInt16) : Roomy (Exec.loadLocal next slot : Exec σ Next) := by
  refine frame (fun f => ?_) fun _ _ => rfl
  split
  · exact pushThen _
  · exact throw _

theorem storeLocal (slot : UInt16) : Roomy (Exec.storeLocal next slot : Exec σ Next) := by
  refine pop.bind fun v => frame (fun f => ?_) fun _ _ => rfl
  split
  · exact onFrameThen (pure _) (fun _ _ => rfl) fun _ => rfl
  · exact throw _

theorem loadGlobal (env : Env σ) (index : UInt32) : Roomy (Exec.loadGlobal env next index) := by
  refine (constant index).bind fun name => ?_
  split
  · exact pushThen _
  · exact throwNew _ _

theorem call (env : Env σ) (argc : Nat) : Roomy (Exec.call env next argc) := by
  refine (popAll argc []).bind fun args => pop.bind fun receiver => pop.bind fun callee => ?_
  split
  · refine (settle _).bind fun result => ?_
    split
    · exact pushThen _
    · exact pure _
  · exact throwNew _ _

theorem element : Roomy (Exec.element next : Exec σ Next) := by
  refine pop.bind fun index => pop.bind fun items => ?_
  split
  · exact pushThen _
  · exact throw _

theorem iterator : Roomy (Exec.iterator next : Exec σ Next) := by
  refine pop.bind fun iterable => ?_
  split
  · exact (onHeap _).bind fun v => pushThen v
  · exact pushThen _
  · exact throwNew _ _

theorem iterNext : Roomy (Exec.iterNext next : Exec σ Next) := by
  refine (peekAt 0).bind fun v => ?_
  split
  · refine (onHeap _).bind fun item => ?_
    split
    · exact (push _).bind fun _ => pushThen _
    · exact (push _).bind fun _ => pushThen _
  · exact throw _

theorem iterClose (onThrow : Bool) : Roomy (Exec.iterClose next onThrow : Exec σ Next) := by
  refine pop.bind fun v => ?_
  split
  · refine (onHeap _).bind fun error => ?_
    split <;> exact pure _
  · exact throw _

theorem onScope (missing : Fault) (g : Capability → α × Capability) :
    Roomy (Exec.onScope missing g : Exec σ α) := by
  refine frame (fun f => ?_) fun _ _ => rfl
  split
  · exact onFrameThen (pure _) (fun _ _ => rfl) fun _ => rfl
  · exact throw _

theorem popScope : Roomy (Exec.popScope next : Exec σ Next) := by
  refine frame (fun f => ?_) fun _ _ => rfl
  split
  · exact onFrameThen (pure _) (fun _ _ => rfl) fun _ => rfl
  · exact throw _

theorem addDisposable (byte : UInt8) : Roomy (Exec.addDisposable next byte : Exec σ Next) := by
  unfold Exec.addDisposable
  split
  · exact throw _
  · refine pop.bind fun v => (settle _).bind fun result => ?_
    split
    · exact pure _
    · exact (onScope _ _).bind fun _ => pure _

theorem takeCapability : Roomy (Exec.takeCapability next : Exec σ Next) := by
  refine (onScope _ _).bind fun rs => (onHeap _).bind fun records => ?_
  split
  · exact throw _
  · exact (onHeap _).bind fun v => (push v).bind fun _ => pushThen _

theorem resourceField (byte : UInt8) : Roomy (Exec.resourceField next byte : Exec σ Next) := by
  unfold Exec.resourceField
  split
  · exact throw _
  · refine pop.bind fun v => ?_
    split
    · exact pushThen _
    · exact throw _

theorem chainError (unwrapClosing : Bool) : Roomy (Exec.chainError next unwrapClosing : Exec σ Next) :=
  pop.bind fun _ => pop.bind fun _ => pop.bind fun _ => (onHeap _).bind fun v => pushThen v

theorem tryStart (onCatch onFinally : Int32) :
    Roomy (Exec.tryStart codeSize next onCatch onFinally : Exec σ Next) :=
  (check _).bind fun _ => (check _).bind fun _ =>
    onFrameThen (pure _) (fun _ _ => rfl) fun _ => rfl

theorem endTry : Roomy (Exec.endTry next : Exec σ Next) := by
  refine frame (fun f => ?_) fun _ _ => rfl
  split
  · exact onFrameThen (pure _) (fun _ _ => rfl) fun _ => rfl
  · exact throw _

theorem popToRval : Roomy (Exec.popToRval : Exec σ Value) :=
  pop.bind fun _ => onFrameThen (pure _) (fun _ _ => rfl) fun _ => rfl

theorem shuffle {g : OperandStack Value → Except Fault (OperandStack Value)}
    (hg : ∀ st c, g ⟨st, c⟩ = (g ⟨st, 0⟩).map fun s => { s with capacity := c }) :
    Roomy (Exec.shuffle next g : Exec σ Next) := (onStack hg).bind fun _ => pure _

end

end Roomy

/-! ### Instructions -/

section

variable {env : Env σ} {codeSize next : Nat}

theorem Exec.instr_roomy : ∀ i : Instr, Roomy (Exec.instr env codeSize next i)
  | .nop => .pure _
  | .pop => (Roomy.dropAll 1).bind fun _ => .pure _
  | .popN n => (Roomy.dropAll n.toNat).bind fun _ => .pure _
  | .dup => (Roomy.peekAt 0).bind fun v => .pushThen v
  | .dup2 => (Roomy.peekAt 1).bind fun a => (Roomy.peekAt 0).bind fun b =>
    (Roomy.push a).bind fun _ => .pushThen b
  | .dupAt n => (Roomy.peekAt n.toNat).bind fun v => .pushThen v
  | .swap => .shuffle fun st c => by rcases st with _ | ⟨a, _ | ⟨b, st⟩⟩ <;> rfl
  | .pick n => .shuffle fun st c => by
    unfold OperandStack.pick
    cases st[n.toNat]? <;> rfl
  | .unpick n => .shuffle fun st c => by
    unfold OperandStack.unpick
    cases st with
    | nil => rfl
    | cons a st =>
      simp only
      split <;> rfl
  | .constUndefined | .constNull | .constTrue | .constFalse | .constI32 _ => .pushThen _
  | .constStr index => (Roomy.constant index).bind fun _ => .pushThen _
  | .loadLocal slot => .loadLocal slot
  | .storeLocal slot => .storeLocal slot
  | .loadGlobal index => .loadGlobal env index
  | .getRval => Roomy.frame (fun _ => .pushThen _) fun _ _ => rfl
  | .setRval => Roomy.popToRval.bind fun _ => .pure _
  | .not => Roomy.pop.bind fun _ => .pushThen _
  | .and => Roomy.pop.bind fun _ => Roomy.pop.bind fun _ => .pushThen _
  | .inc => .count _ _
  | .dec => .count _ _
  | .ige => .atLeast
  | .isNullish => Roomy.pop.bind fun _ => .pushThen _
  | .isClosing => Roomy.pop.bind fun v => by
    split <;> exact .pushThen _
  | .jmp _ => (Roomy.check _).map
  | .jmpIfFalse d => .jumpIf false d
  | .jmpIfTrue d => .jumpIf true d
  | .retRval => Roomy.frame (fun _ => .pure _) fun _ _ => rfl
  | .call argc => .call env argc.toNat
  | .getElem => .element
  | .getIterator => .iterator
  | .iterNext => .iterNext
  | .iterClose onThrow => .iterClose _
  | .pushDisposeScope => .onFrameThen (.pure _) (fun _ _ => rfl) fun _ => rfl
  | .popDisposeScope => .popScope
  | .addDisposable byte => .addDisposable byte
  | .takeDisposeCapability => .takeCapability
  | .resourceField byte => .resourceField byte
  | .chainDisposeError unwrapClosing => .chainError _
  | .await | .yield => Roomy.popToRval.map
  | .throw => Roomy.pop.map
  | .tryStart c f => .tryStart c f
  | .endTry => .endTry

end

/-! ### Frames -/

namespace Frame

variable {f : Frame} {c : Nat}

theorem setup_enter (pc : Nat) : ∀ (vs : List Value) (f : Frame), (f.enter pc vs).2.setup = f.setup
  | [], _ => rfl
  | v :: vs, f => by
    rw [enter, OperandStack.push]
    split
    · rename_i h
      split at h
      · cases h
      · cases h
        exact setup_enter pc vs _
    · rfl

theorem setup_unwindThrough (e : Value) : ∀ (H : List Handler) (f : Frame),
    (f.unwindThrough e H).2.setup = f.setup
  | [], _ => rfl
  | ⟨some pc, _, _⟩ :: _, _ => setup_enter pc _ _
  | ⟨none, some pc, _⟩ :: _, _ => setup_enter pc _ _
  | ⟨none, none, _⟩ :: H, _ => setup_unwindThrough e H _

theorem setup_resume (mode : Resume) : (f.resume mode).2.setup = f.setup := by
  cases mode with
  | start => rfl
  | next v => exact setup_enter _ _ _
  | throw e | ret v => exact setup_unwindThrough _ _ _

/-- A frame enters handler code with more room as it does with less, unless it overflows. -/
theorem enter_widen (pc : Nat) : ∀ (vs : List Value) {f : Frame}, f.stack.capacity ≤ c →
    (f.enter pc vs).1 = .escaped (.failed .stackOverflow) ∨
      (f.widen c).enter pc vs = ((f.enter pc vs).1, (f.enter pc vs).2.widen c)
  | [], _, _ => .inr rfl
  | v :: vs, f, hc => by
    by_cases hfull : f.stack.capacity ≤ f.stack.slots.length
    · refine .inl ?_
      simp [enter, OperandStack.push, OperandStack.depth, hfull]
    · have hfull' : ¬ c ≤ f.stack.slots.length := by omega
      have hc' : ({ f with stack := { f.stack with slots := v :: f.stack.slots } } :
        Frame).stack.capacity ≤ c := hc
      have ih := enter_widen pc vs hc'
      simpa only [enter, OperandStack.push, OperandStack.depth, widen, hfull, hfull', if_false] using ih

theorem unwindThrough_widen (e : Value) : ∀ (H : List Handler) {f : Frame}, f.stack.capacity ≤ c →
    (f.unwindThrough e H).1 = .escaped (.failed .stackOverflow) ∨
      (f.widen c).unwindThrough e H = ((f.unwindThrough e H).1, (f.unwindThrough e H).2.widen c)
  | [], f, _ => .inr (by cases e <;> rfl)
  | ⟨some pc, _, _⟩ :: _, _, hc => enter_widen pc _ hc
  | ⟨none, some pc, _⟩ :: _, _, hc => enter_widen pc _ hc
  | ⟨none, none, _⟩ :: H, _, hc => unwindThrough_widen e H hc

theorem resume_widen (hc : f.stack.capacity ≤ c) (mode : Resume) :
    (f.resume mode).1 = .escaped (.failed .stackOverflow) ∨
      (f.widen c).resume mode = ((f.resume mode).1, (f.resume mode).2.widen c) := by
  cases mode with
  | start => exact .inr rfl
  | next v => exact enter_widen _ _ hc
  | throw e => exact unwindThrough_widen e _ hc
  | ret v => exact unwindThrough_widen (f := { f with rval := v }) _ _ hc

end Frame

/-! ### Steps -/

namespace Progress

/-- What is running, or what the run has left. -/
def activation : Progress σ → Activation σ
  | running _ a => a
  | halted _ a => a

/-- The progress with room for `c` operands. -/
def widen (p : Progress σ) (c : Nat) : Progress σ :=
  match p with
  | running pc a => running pc (a.widen c)
  | halted o a => halted o (a.widen c)

/-- Whether a run has come to its end for want of room. -/
def Overflowed (p : Progress σ) : Prop := ∃ a, p = halted (.failed .stackOverflow) a

end Progress

namespace Activation

variable {env : Env σ} {code : Bytes} {pc c : Nat} {a : Activation σ}

theorem setup_throw (next : Nat) (e : Value) :
    (a.throw next e).activation.frame.setup = a.frame.setup := by
  have hsetup := Frame.setup_unwindThrough e a.frame.handlers a.frame
  unfold throw Frame.unwind
  match a.frame.unwindThrough e a.frame.handlers, hsetup with
  | (.escaped _, _), hsetup | (.goto _, _), hsetup => exact hsetup

theorem world_throw (next : Nat) (e : Value) : (a.throw next e).activation.world = a.world := by
  unfold throw
  match a.frame.unwind e with
  | (.goto _, _) | (.escaped _, _) => rfl

theorem world_follow (next : Nat) (x : Next) : (a.follow next x).activation.world = a.world := by
  cases x with
  | throw e => exact world_throw next e
  | goto pc | await v | yield v | ret v => rfl

theorem throw_widen {next : Nat} {e : Value} (hc : a.frame.stack.capacity ≤ c) :
    (a.throw next e).Overflowed ∨ (a.widen c).throw next e = (a.throw next e).widen c := by
  have hunwind := Frame.unwindThrough_widen e a.frame.handlers hc
  unfold throw Frame.unwind
  match hx : a.frame.unwindThrough e a.frame.handlers, hunwind with
  | (.escaped o, f), hwide =>
    rcases hwide with heq | hwide
    · cases heq
      exact .inl ⟨_, rfl⟩
    · rw [show (a.widen c).frame.unwindThrough e (a.widen c).frame.handlers = _ from hwide]
      exact .inr rfl
  | (.goto pc, f), hwide =>
    rcases hwide with heq | hwide
    · cases heq
    · rw [show (a.widen c).frame.unwindThrough e (a.widen c).frame.handlers = _ from hwide]
      exact .inr rfl

/-- An instruction leaves the function and the room as they are, and leads where it leads
with more room, unless it overflows. -/
theorem step_widen (hc : a.frame.stack.capacity ≤ c) :
    (a.step env code pc).activation.frame.setup = a.frame.setup ∧
      ((a.step env code pc).Overflowed ∨ (a.widen c).step env code pc = (a.step env code pc).widen c) := by
  unfold step
  cases Instr.opcodeAt code pc with
  | error e => exact ⟨rfl, .inr rfl⟩
  | ok op =>
    simp only
    cases Instr.ofOperandsAt code (pc + 1) op with
    | error e => exact ⟨rfl, .inr rfl⟩
    | ok i =>
      simp only [perform]
      have hroomy := @Exec.instr_roomy σ env code.size (pc + i.size) i a c hc
      match hx : Exec.instr env code.size (pc + i.size) i a, hroomy with
      | .error f a', ⟨hsetup, hwide⟩ =>
        refine ⟨hsetup, ?_⟩
        rcases hwide with rfl | hwide
        · exact .inl ⟨_, rfl⟩
        · rw [hwide]
          exact .inr rfl
      | .ok next a', ⟨hsetup, hwide⟩ =>
        rw [hwide]
        cases next with
        | goto pc | await v | yield v | ret v => exact ⟨hsetup, .inr rfl⟩
        | throw e =>
          refine ⟨(setup_throw _ e).trans hsetup, throw_widen ?_⟩
          rwa [Frame.setup_capacity hsetup]

theorem setup_step : (a.step env code pc).activation.frame.setup = a.frame.setup :=
  (step_widen (Nat.le_refl _)).1

/-! ### Events -/

theorem eventsOf_widen (i : Instr) : (a.widen c).eventsOf env code pc i = a.eventsOf env code pc i := by
  cases i <;> rfl

/-- An instruction that overflows raises nothing. -/
theorem raised_widen (hc : a.frame.stack.capacity ≤ c) (i : Instr) :
    a.raised env code pc i <+: (a.widen c).raised env code pc i ∧
      (a.raised env code pc i = (a.widen c).raised env code pc i ∨
        ∃ a', Exec.instr env code.size (pc + i.size) i a = .error .stackOverflow a') := by
  have hroomy := @Exec.instr_roomy σ env code.size (pc + i.size) i a c hc
  unfold raised
  match hx : Exec.instr env code.size (pc + i.size) i a, hroomy with
  | .ok next a', ⟨_, hwide⟩ =>
    rw [hwide]
    cases next <;> exact ⟨List.prefix_refl _, .inl rfl⟩
  | .error f a', ⟨_, hwide⟩ =>
    rcases hwide with rfl | hwide
    · exact ⟨List.nil_prefix, .inr ⟨a', rfl⟩⟩
    · rw [hwide]
      exact ⟨List.prefix_refl _, .inl rfl⟩

/-- With more room the same happens, or more if there is too little. -/
theorem events_widen (hc : a.frame.stack.capacity ≤ c) :
    a.events env code pc <+: (a.widen c).events env code pc ∧
      (a.events env code pc = (a.widen c).events env code pc ∨
        (a.step env code pc).Overflowed) := by
  unfold events Instr.readAt
  cases hop : Instr.opcodeAt code pc with
  | error e => exact ⟨List.prefix_refl _, .inl rfl⟩
  | ok op =>
    cases hi : Instr.ofOperandsAt code (pc + 1) op with
    | error e =>
      simp only [bind, Except.bind, hi]
      exact ⟨List.prefix_refl _, .inl trivial⟩
    | ok i =>
      simp only [bind, Except.bind, hi, eventsOf_widen]
      obtain ⟨hpart, hraised⟩ := @raised_widen σ env code pc c a hc i
      refine ⟨List.prefix_append_right_inj _ |>.mpr hpart, ?_⟩
      rcases hraised with heq | ⟨a', hover⟩
      · exact .inl (by rw [heq])
      · exact .inr ⟨a'.keepIp pc, by simp only [step, hop, hi, perform, hover]⟩

end Activation

/-! ### Sessions -/

namespace Session

variable {host : Host σ} {code : Bytes} {s s' : Session σ} {c : Nat}

/-- The session with room for `c` operands. -/
def widen (s : Session σ) (c : Nat) : Session σ := { s with frame := s.frame.widen c }

/-- Whether a session has come to its end for want of room. -/
def Overflowed (s : Session σ) : Prop := s.control = .ended (.failed .stackOverflow)

/-- A session gets a reply with more room as it does with less, unless it overflows. -/
theorem reply_widen (hc : s.frame.stack.capacity ≤ c) (p : Suspension) (r : Reply σ)
    (rest : List (Reply σ)) :
    (s.reply p r rest).Overflowed ∨ (s.widen c).reply p r rest = (s.reply p r rest).widen c := by
  let t : Session σ :=
    { s with
      world := r.world
      globals := r.globals
      script := rest
      trace := s.trace ++ [.resume (p.accept r.answer)] }
  have hs : s.reply p r rest = t.route (s.frame.resume (p.accept r.answer).mode) := rfl
  have hw : (s.widen c).reply p r rest =
      (t.widen c).route ((s.frame.widen c).resume (p.accept r.answer).mode) := rfl
  rcases Frame.resume_widen hc (p.accept r.answer).mode with hover | hwide
  · refine .inl ?_
    rw [hs]
    match s.frame.resume (p.accept r.answer).mode, hover with
    | (.escaped o, f), heq => exact congrArg Control.ended (Route.escaped.inj heq)
  · refine .inr ?_
    rw [hs, hw, hwide]
    match s.frame.resume (p.accept r.answer).mode with
    | (.escaped o, f) | (.goto pc, f) => rfl

theorem setup_reply (p : Suspension) (r : Reply σ) (rest : List (Reply σ)) :
    (s.reply p r rest).frame.setup = s.frame.setup := by
  have hsetup := Frame.setup_resume (f := s.frame) (p.accept r.answer).mode
  show Frame.setup (Session.frame (Session.route _ (s.frame.resume (p.accept r.answer).mode))) = _
  match s.frame.resume (p.accept r.answer).mode, hsetup with
  | (.escaped o, f), hsetup | (.goto pc, f), hsetup => exact hsetup

theorem setup_halt (o : Outcome) : (s.halt o).frame.setup = s.frame.setup := by
  unfold halt
  split
  · exact setup_reply _ _ _
  · rfl

theorem halt_widen (hc : s.frame.stack.capacity ≤ c) (o : Outcome) :
    (s.widen c).halt o = (s.halt o).widen c ∨
      (s.halt o).Overflowed ∧ (s.halt o).trace <+: ((s.widen c).halt o).trace := by
  unfold halt
  rw [show (s.widen c).script = s.script from rfl]
  match o.suspension?, s.script with
  | none, _ | some _, [] => exact .inl rfl
  | some p, r :: rest =>
    rcases reply_widen hc p r rest with hover | h
    · refine .inr ⟨hover, ?_⟩
      simp only [reply, route_trace]
      exact List.prefix_refl _
    · exact .inl h

/-- A session leaves its function and its room as they are. -/
theorem setup_step (h : s.step host code = some s') : s'.frame.setup = s.frame.setup := by
  unfold step at h
  split at h
  · cases h
  · rename_i pc _
    rw [← Option.some.inj h]
    have hsetup := @Activation.setup_step σ ⟨host, s.globals⟩ code pc ⟨s.frame, s.world⟩
    match Activation.step ⟨host, s.globals⟩ code pc ⟨s.frame, s.world⟩, hsetup with
    | .running pc a, hsetup => exact hsetup
    | .halted o a, hsetup => exact (setup_halt o).trans hsetup

/-- A session makes the same step with more room, unless it overflows; then it has done
a part of what it does with more. -/
theorem step_widen (hc : s.frame.stack.capacity ≤ c) (h : s.step host code = some s') :
    (s.widen c).step host code = some (s'.widen c) ∨
      s'.Overflowed ∧ ∃ s'', (s.widen c).step host code = some s'' ∧ s'.trace <+: s''.trace := by
  obtain ⟨control, frame, world, globals, script, trace⟩ := s
  cases control with
  | ended o => cases h
  | running pc =>
    let env : Env σ := ⟨host, globals⟩
    let a : Activation σ := ⟨frame, world⟩
    let s₁ : Session σ := ⟨.running pc, frame, world, globals, script, trace ++ a.events env code pc⟩
    let w₁ : Session σ :=
      ⟨.running pc, frame.widen c, world, globals, script, trace ++ (a.widen c).events env code pc⟩
    have hcap : a.frame.stack.capacity ≤ c := hc
    obtain ⟨hsetup, hstep⟩ := @Activation.step_widen σ env code pc c a hcap
    obtain ⟨hpart, hevents⟩ := @Activation.events_widen σ env code pc c a hcap
    have hs' : s₁.proceed (a.step env code pc) = s' := Option.some.inj h
    have hwide : (Session.widen ⟨.running pc, frame, world, globals, script, trace⟩ c).step host code =
        some (w₁.proceed ((a.widen c).step env code pc)) := rfl
    rw [hwide]
    have hover : (a.step env code pc).Overflowed → s'.Overflowed ∧
        ∃ s'', some (w₁.proceed ((a.widen c).step env code pc)) = some s'' ∧ s'.trace <+: s''.trace := by
      rintro ⟨a', hx⟩
      rw [hx] at hs'
      subst hs'
      refine ⟨rfl, _, rfl, List.IsPrefix.trans ?_ (proceed_trace w₁ _)⟩
      exact List.prefix_append_right_inj _ |>.mpr hpart
    rcases hevents with hevents | hfull
    · rcases hstep with hfull | hsame
      · exact .inr (hover hfull)
      · have hw₁ : w₁ = s₁.widen c := by
          simp only [w₁, ← hevents]
          rfl
        rw [hsame, hw₁]
        match hx : a.step env code pc with
        | .running pc' a' =>
          rw [hx] at hs'
          subst hs'
          exact .inl rfl
        | .halted o a' =>
          rw [hx] at hs' hsetup
          subst hs'
          have hcap' : (s₁.update (.ended o) a').frame.stack.capacity ≤ c := by
            rwa [show (s₁.update (.ended o) a').frame.stack.capacity = _ from Frame.setup_capacity hsetup]
          rcases halt_widen hcap' o with h | ⟨h, htrace⟩
          · exact .inl (congrArg some h)
          · exact .inr ⟨h, _, rfl, htrace⟩
    · exact .inr (hover hfull)

end Session

namespace Steps

variable {host : Host σ} {code : Bytes} {k c : Nat} {s s' : Session σ}

theorem setup (h : Steps host code k s s') : s'.frame.setup = s.frame.setup := by
  induction h with
  | refl => rfl
  | step head _ ih => exact ih.trans (Session.setup_step head)

/-- A session does the same with more room, unless it overflows; then it has done a part
of what it does with more. -/
theorem widen (h : Steps host code k s s') (hc : s.frame.stack.capacity ≤ c) :
    Steps host code k (s.widen c) (s'.widen c) ∨
      s'.Overflowed ∧ ∃ s'', Steps host code k (s.widen c) s'' ∧ s'.trace <+: s''.trace := by
  induction h with
  | refl => exact .inl (.refl _)
  | @step k s s₁ s' head tail ih =>
    rcases Session.step_widen hc head with hstep | ⟨hover, s'', hstep, htrace⟩
    · rcases ih (by rwa [Frame.setup_capacity (Session.setup_step head)]) with h | ⟨hover, s'', h, htrace⟩
      · exact .inl (.step hstep h)
      · exact .inr ⟨hover, s'', .step hstep h, htrace⟩
    · -- a session that overflowed has ended
      obtain ⟨rfl, rfl⟩ := tail.of_ended hover
      exact .inr ⟨hover, s'', .single hstep, htrace⟩

end Steps

end ResourceMachine
