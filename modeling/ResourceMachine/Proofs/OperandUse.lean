/-
# An instruction takes its operands and nothing else

Where an instruction finds fewer operands than it takes, it faults for want of one, and
nothing has happened in the world by then. Where it finds them, it takes these and leaves
what is below as it was, whatever it does then: it goes on, throws, is suspended or faults
for another reason. Together with what the table of stack effects says of depths
(`Exec.instr_shifts`) this is all that code may rely on when it keeps values on the operand
stack across an instruction.

Key definitions: `Activation.Above`, `Consumes`, `Next.Leaves`.
Key theorems: `Exec.instr_consumes`, `Exec.instr_keeps_to_table`.
-/
import ResourceMachine.Code.StackDepth
import ResourceMachine.Proofs.StackEffect

namespace ResourceMachine

variable {σ α β : Type}

/-! ### Computations that take values -/

/-- Values may have been put on the operand stack, and all that were there still are. -/
def Activation.Above (a a' : Activation σ) : Prop :=
  a.frame.stack.slots <:+ a'.frame.stack.slots

theorem Activation.above_stable : Stable (@Activation.Above σ) where
  refl _ := List.suffix_refl _
  trans h h' := List.IsSuffix.trans h h'

/-- A computation takes `p` values off the operand stack. If there are fewer, it wants for one
before it has done anything to the world. -/
structure Consumes (p : Nat) (m : Exec σ α) : Prop where
  starves : ∀ a : Activation σ, a.frame.stack.slots.length < p →
    ∃ a', m a = .error .stackUnderflow a' ∧ a'.world = a.world
  spares : ∀ a : Activation σ, p ≤ a.frame.stack.slots.length →
    a.frame.stack.slots.drop p <:+ (stateOf (m a)).frame.stack.slots

namespace Consumes

variable {p : Nat} {m : Exec σ α}

theorem none (h : Within Activation.Above m) : Consumes 0 m where
  starves _ hlt := absurd hlt (Nat.not_lt_zero _)
  spares a _ := h a

/-- What is done then takes nothing. -/
theorem andThen {k : α → Exec σ β} (hm : Consumes p m) (hk : ∀ x, Within Activation.Above (k x)) :
    Consumes p (m >>= k) where
  starves a hlt := by
    obtain ⟨a', hma, hworld⟩ := hm.starves a hlt
    exact ⟨a', bind_of_error hma, hworld⟩
  spares a hle := by
    have hspares := hm.spares a hle
    cases hma : m a with
    | error e a' =>
      rw [hma] at hspares
      rwa [bind_of_error hma]
    | ok x a' =>
      rw [hma] at hspares
      rw [bind_of_ok hma]
      exact hspares.trans (hk x a')

theorem map {g : α → β} (hm : Consumes p m) : Consumes p (g <$> m) :=
  hm.andThen fun _ => .pure Activation.above_stable _

/-- One value is taken, and then others. -/
theorem pop {k : Value → Exec σ β} (hk : ∀ v, Consumes p (k v)) : Consumes (p + 1) (Exec.pop >>= k) where
  starves := by
    rintro ⟨⟨unit, index, ip, ⟨st, cap⟩, L, rv, H, sc⟩, w⟩ hlt
    cases st with
    | nil => exact ⟨_, rfl, rfl⟩
    | cons v st => exact (hk v).starves ⟨⟨unit, index, ip, ⟨st, cap⟩, L, rv, H, sc⟩, w⟩ (Nat.lt_of_succ_lt_succ hlt)
  spares := by
    rintro ⟨⟨unit, index, ip, ⟨st, cap⟩, L, rv, H, sc⟩, w⟩ hle
    cases st with
    | nil => exact absurd hle (Nat.not_succ_le_zero p)
    | cons v st => exact (hk v).spares ⟨⟨unit, index, ip, ⟨st, cap⟩, L, rv, H, sc⟩, w⟩ (Nat.le_of_succ_le_succ hle)

theorem popAll {k : List Value → Exec σ β} : ∀ {argc : Nat} {vs : List Value},
    (∀ vs, Consumes p (k vs)) → Consumes (argc + p) (Exec.popAll.go argc vs >>= k)
  | 0, vs, hk => by
    rw [Nat.zero_add]
    exact hk vs
  | argc + 1, vs, hk => by
    show Consumes _ ((Exec.pop >>= fun v => Exec.popAll.go argc (v :: vs)) >>= k)
    rw [bind_assoc, Nat.add_right_comm]
    exact pop fun v => popAll hk

theorem dropAll : ∀ n : Nat, Consumes n (Exec.dropAll n : Exec σ Unit)
  | 0 => none (.pure Activation.above_stable _)
  | n + 1 => pop fun _ => dropAll n

/-- Values that are looked at stay where they are. -/
theorem peekAt (d : Nat) : Consumes (d + 1) (Exec.peekAt d : Exec σ Value) where
  starves a hlt := by
    have hnone : a.frame.stack.slots[d]? = .none := List.getElem?_eq_none (Nat.le_of_lt_succ hlt)
    exact ⟨a, by simp only [Exec.peekAt, OperandStack.peekAt, hnone], rfl⟩
  spares a hle := by
    have hsome : a.frame.stack.slots[d]? = some a.frame.stack.slots[d] := List.getElem?_eq_getElem hle
    simp only [Exec.peekAt, OperandStack.peekAt, hsome, stateOf]
    exact List.drop_suffix _ _

/-- A change of the stack that is told by what it makes of enough values. -/
theorem onStack {g : OperandStack Value → Except Fault (OperandStack Value)}
    (hlt : ∀ s, s.slots.length < p → g s = .error .stackUnderflow)
    (hle : ∀ s, p ≤ s.slots.length → ∃ s', g s = .ok s' ∧ s.slots.drop p <:+ s'.slots) :
    Consumes p (Exec.onStack g : Exec σ Unit) where
  starves a h := ⟨a, by simp only [Exec.onStack, hlt _ h], rfl⟩
  spares a h := by
    obtain ⟨s', hs, hsuffix⟩ := hle _ h
    simp only [Exec.onStack, hs]
    exact hsuffix

end Consumes

/-! ### Computations that take nothing -/

namespace Exec

open Activation

variable {next : Nat}

theorem push_above (v : Value) : Within Above (push v : Exec σ Unit) := by
  intro a
  unfold push onStack OperandStack.push
  by_cases hfull : a.frame.stack.capacity ≤ a.frame.stack.depth
  · simp only [hfull, if_true]
    exact List.suffix_refl _
  · simp only [hfull, if_false]
    exact List.suffix_cons _ _

theorem peekAt_above (d : Nat) : Within Above (peekAt d : Exec σ Value) := by
  intro a
  unfold peekAt
  split <;> exact List.suffix_refl _

theorem pushThen_above (v : Value) : Within Above (pushThen next v : Exec σ Next) :=
  (push_above v).bind above_stable fun _ => .pure above_stable _

theorem onHeap_above (m : OnHeap Fault α) : Within Above (onHeap m : Exec σ α) := by
  intro a
  cases hm : World.onHeap m a.world with
  | ok x world =>
    simp only [onHeap, hm]
    exact List.suffix_refl _
  | error e world =>
    simp only [onHeap, hm]
    exact List.suffix_refl _

theorem settle_above (m : Guest σ α) : Within Above (settle m) := fun _ => List.suffix_refl _

theorem frame_above : Within Above (frame : Exec σ Frame) := fun _ => List.suffix_refl _

theorem onFrame_above {f : Frame → Frame} (h : ∀ fr, (f fr).stack = fr.stack) :
    Within Above (onFrame f : Exec σ Unit) := by
  intro a
  have hsame : (f a.frame).stack.slots = a.frame.stack.slots := congrArg OperandStack.slots (h a.frame)
  show a.frame.stack.slots <:+ (f a.frame).stack.slots
  exact hsame ▸ List.suffix_refl _

theorem check_above (x : Except Fault α) : Within Above (check x : Exec σ α) := by
  cases x with
  | ok a => exact .pure above_stable a
  | error e => exact .throw above_stable e

theorem constant_above (index : UInt32) : Within Above (constant index : Exec σ String) := by
  refine frame_above.bind above_stable fun f => ?_
  split
  · exact .pure above_stable _
  · exact .throw above_stable _

theorem throwNew_above (kind : ErrorKind) (message : String) :
    Within Above (throwNew kind message : Exec σ Next) :=
  (onHeap_above _).bind above_stable fun _ => .pure above_stable _

theorem onScope_above (missing : Fault) (f : Capability → α × Capability) :
    Within Above (onScope missing f : Exec σ α) := by
  refine frame_above.bind above_stable fun fr => ?_
  split
  · exact (onFrame_above fun _ => rfl).bind above_stable fun _ => .pure above_stable _
  · exact .throw above_stable _

/-! ### Instructions -/

theorem pop_consumes : Consumes 1 (pop : Exec σ Value) := by
  rw [← bind_pure pop]
  exact .pop fun _ => .none (.pure above_stable _)

theorem popToRval_consumes : Consumes 1 (popToRval : Exec σ Value) :=
  .pop fun _ => .none ((onFrame_above fun _ => rfl).bind above_stable fun _ => .pure above_stable _)

theorem count_consumes (op : Opcode) (f : Int32 → Int32) : Consumes 1 (count next op f : Exec σ Next) := by
  refine .pop fun v => .none ?_
  split
  · exact pushThen_above _
  · exact .throw above_stable _

theorem atLeast_consumes : Consumes 2 (atLeast next : Exec σ Next) := by
  refine .pop fun b => .pop fun a => .none ?_
  split
  · exact pushThen_above _
  · exact .throw above_stable _

theorem jumpIf_consumes (size : Nat) (wanted : Bool) (distance : Int32) :
    Consumes 1 (jumpIf size next wanted distance : Exec σ Next) := by
  refine .pop fun cond => .none ?_
  split
  · exact (check_above _).bind above_stable fun _ => .pure above_stable _
  · exact .pure above_stable _

theorem loadLocal_above (slot : UInt16) : Within Above (loadLocal next slot : Exec σ Next) := by
  refine frame_above.bind above_stable fun f => ?_
  split
  · exact pushThen_above _
  · exact .throw above_stable _

theorem storeLocal_consumes (slot : UInt16) : Consumes 1 (storeLocal next slot : Exec σ Next) := by
  refine .pop fun v => .none (frame_above.bind above_stable fun f => ?_)
  split
  · exact (onFrame_above fun _ => rfl).bind above_stable fun _ => .pure above_stable _
  · exact .throw above_stable _

theorem loadGlobal_above (env : Env σ) (index : UInt32) :
    Within Above (loadGlobal env next index : Exec σ Next) := by
  refine (constant_above index).bind above_stable fun name => ?_
  split
  · exact pushThen_above _
  · exact throwNew_above _ _

theorem call_consumes (env : Env σ) (argc : Nat) : Consumes (argc + 2) (call env next argc) := by
  refine .popAll fun args => .pop fun receiver => .pop fun callee => .none ?_
  split
  · refine (settle_above _).bind above_stable fun result => ?_
    split
    · exact pushThen_above _
    · exact .pure above_stable _
  · exact throwNew_above _ _

theorem element_consumes : Consumes 2 (element next : Exec σ Next) := by
  refine .pop fun index => .pop fun items => .none ?_
  split
  · exact pushThen_above _
  · exact .throw above_stable _

theorem iterator_consumes : Consumes 1 (iterator next : Exec σ Next) := by
  refine .pop fun iterable => .none ?_
  split
  · exact (onHeap_above _).bind above_stable fun _ => pushThen_above _
  · exact pushThen_above _
  · exact throwNew_above _ _

theorem iterNext_consumes : Consumes 1 (iterNext next : Exec σ Next) := by
  refine (Consumes.peekAt 0).andThen fun v => ?_
  split
  · refine (onHeap_above _).bind above_stable fun item => ?_
    split
    · exact (push_above _).bind above_stable fun _ => pushThen_above _
    · exact (push_above _).bind above_stable fun _ => pushThen_above _
  · exact .throw above_stable _

theorem iterClose_consumes (onThrow : Bool) : Consumes 1 (iterClose next onThrow : Exec σ Next) := by
  refine .pop fun v => .none ?_
  split
  · refine (onHeap_above _).bind above_stable fun error => ?_
    split
    · exact .pure above_stable _
    · exact .pure above_stable _
  · exact .throw above_stable _

theorem popScope_above : Within Above (popScope next : Exec σ Next) := by
  refine frame_above.bind above_stable fun f => ?_
  split
  · exact (onFrame_above fun _ => rfl).bind above_stable fun _ => .pure above_stable _
  · exact .throw above_stable _

theorem addDisposable_consumes {byte : UInt8} {hint : Hint} (h : Hint.ofByte? byte = some hint) :
    Consumes 1 (addDisposable next byte : Exec σ Next) := by
  unfold addDisposable
  rw [h]
  refine .pop fun v => .none ((settle_above _).bind above_stable fun result => ?_)
  split
  · exact .pure above_stable _
  · exact (onScope_above _ _).bind above_stable fun _ => .pure above_stable _

theorem takeCapability_above : Within Above (takeCapability next : Exec σ Next) := by
  refine (onScope_above _ _).bind above_stable fun rs => (onHeap_above _).bind above_stable fun records => ?_
  split
  · exact .throw above_stable _
  · exact (onHeap_above _).bind above_stable fun list =>
      (push_above _).bind above_stable fun _ => pushThen_above _

theorem resourceField_consumes {byte : UInt8} {field : Field} (h : Field.ofByte? byte = some field) :
    Consumes 1 (resourceField next byte : Exec σ Next) := by
  unfold resourceField
  rw [h]
  refine .pop fun v => .none ?_
  split
  · exact pushThen_above _
  · exact .throw above_stable _

theorem chainError_consumes (unwrapClosing : Bool) : Consumes 3 (chainError next unwrapClosing : Exec σ Next) :=
  .pop fun _ => .pop fun _ => .pop fun _ => .none <|
    (onHeap_above _).bind above_stable fun _ => pushThen_above _

theorem tryStart_above (size : Nat) (c f : Int32) : Within Above (tryStart size next c f : Exec σ Next) :=
  (check_above _).bind above_stable fun _ => (check_above _).bind above_stable fun _ =>
    (onFrame_above fun _ => rfl).bind above_stable fun _ => .pure above_stable _

theorem endTry_above : Within Above (endTry next : Exec σ Next) := by
  refine frame_above.bind above_stable fun f => ?_
  split
  · exact (onFrame_above fun _ => rfl).bind above_stable fun _ => .pure above_stable _
  · exact .throw above_stable _

theorem swap_consumes : Consumes 2 (onStack (·.swap) : Exec σ Unit) := by
  refine .onStack ?_ ?_
  · rintro ⟨_ | ⟨a, _ | ⟨b, rest⟩⟩, cap⟩ hlt
    · rfl
    · rfl
    · exact absurd hlt (by simp)
  · rintro ⟨_ | ⟨a, _ | ⟨b, rest⟩⟩, cap⟩ hle
    · exact absurd hle (by simp)
    · exact absurd hle (by simp)
    · exact ⟨_, rfl, [b, a], rfl⟩

theorem pick_consumes (n : Nat) : Consumes (n + 1) (onStack (·.pick n) : Exec σ Unit) := by
  refine .onStack (fun s hlt => ?_) fun s hle => ⟨_, OperandStack.pick_eq_ok hle, ?_⟩
  · have hnone : s.slots[n]? = none := List.getElem?_eq_none (Nat.le_of_lt_succ hlt)
    simp only [OperandStack.pick, hnone]
  · show s.slots.drop (n + 1) <:+ s.slots[n] :: s.slots.eraseIdx n
    rw [List.eraseIdx_eq_take_drop_succ]
    exact (List.suffix_append _ _).trans (List.suffix_cons _ _)

theorem drop_suffix_insertIdx (a : α) : ∀ {n : Nat} {rest : List α}, n ≤ rest.length →
    rest.drop n <:+ rest.insertIdx n a
  | 0, _, _ => List.suffix_cons a _
  | _ + 1, b :: _, h =>
    (drop_suffix_insertIdx a (Nat.le_of_succ_le_succ h)).trans (List.suffix_cons b _)

theorem unpick_consumes (n : Nat) : Consumes (n + 1) (onStack (·.unpick n) : Exec σ Unit) := by
  refine .onStack ?_ ?_
  · rintro ⟨_ | ⟨a, rest⟩, cap⟩ hlt
    · rfl
    · have hnot : ¬ n ≤ rest.length := by simpa using hlt
      simp only [OperandStack.unpick, if_neg hnot]
  · rintro ⟨_ | ⟨a, rest⟩, cap⟩ hle
    · exact absurd hle (Nat.not_succ_le_zero n)
    · have hle : n ≤ rest.length := by simpa using hle
      refine ⟨_, OperandStack.unpick_eq_ok rfl hle, ?_⟩
      show rest.drop n <:+ rest.insertIdx n a
      exact drop_suffix_insertIdx a hle

theorem shuffle_consumes {p : Nat} {f : OperandStack Value → Except Fault (OperandStack Value)}
    (h : Consumes p (onStack f : Exec σ Unit)) : Consumes p (shuffle next f : Exec σ Next) :=
  h.andThen fun _ => .pure above_stable _

/-- A declaration that was checked has one of the two hints. -/
theorem hint_of_check {byte : UInt8} {offset localCount : Nat} {constants : ConstantPool}
    (h : Located.checkOperands ⟨offset, .addDisposable byte⟩ localCount constants = .ok ()) :
    ∃ hint, Hint.ofByte? byte = some hint := by
  have hle : ¬ 1 < byte.toNat := by
    intro hlt
    have hrefused : Located.checkOperands ⟨offset, .addDisposable byte⟩ localCount constants =
        Located.invalidOperand ⟨offset, .addDisposable byte⟩ byte.toNat := if_pos hlt
    rw [hrefused] at h
    cases h
  obtain h0 | h1 : byte.toNat = 0 ∨ byte.toNat = 1 := by omega
  · obtain rfl : byte = 0 := UInt8.toNat_inj.mp h0
    exact ⟨.sync, rfl⟩
  · obtain rfl : byte = 1 := UInt8.toNat_inj.mp h1
    exact ⟨.async, rfl⟩

theorem field_of_check {byte : UInt8} {offset localCount : Nat} {constants : ConstantPool}
    (h : Located.checkOperands ⟨offset, .resourceField byte⟩ localCount constants = .ok ()) :
    ∃ field, Field.ofByte? byte = some field := by
  cases hfield : Field.ofByte? byte with
  | some field => exact ⟨field, rfl⟩
  | none =>
    have hrefused : Located.checkOperands ⟨offset, .resourceField byte⟩ localCount constants =
        Located.invalidOperand ⟨offset, .resourceField byte⟩ byte.toNat :=
      if_pos (by rw [hfield]; rfl)
    rw [hrefused] at h
    cases h

/-- **An instruction takes the operands that the table says**, if its operand bytes are in range. -/
theorem instr_consumes {env : Env σ} {size : Nat} {i : Instr} {offset localCount : Nat} {constants : ConstantPool}
    (h : Located.checkOperands ⟨offset, i⟩ localCount constants = .ok ()) :
    Consumes i.stackEffect.pops (instr env size next i) := by
  have hbyte {b : UInt8} (hi : i.operands = [(b.toNat : Int)]) :
      i.stackEffect = i.opcode.stackEffect b.toNat := Instr.stackEffect_byte hi
  cases i with
  | nop => exact .none (.pure above_stable _)
  | pop => exact (Consumes.dropAll 1).andThen fun _ => .pure above_stable _
  | popN n =>
    rw [hbyte rfl]
    exact (Consumes.dropAll n.toNat).andThen fun _ => .pure above_stable _
  | dup => exact (Consumes.peekAt 0).andThen fun _ => pushThen_above _
  | dup2 =>
    exact (Consumes.peekAt 1).andThen fun _ => ((peekAt_above 0).bind above_stable fun _ =>
      (push_above _).bind above_stable fun _ => pushThen_above _)
  | dupAt n =>
    rw [hbyte rfl]
    exact (Consumes.peekAt n.toNat).andThen fun _ => pushThen_above _
  | swap => exact shuffle_consumes swap_consumes
  | pick n =>
    rw [hbyte rfl]
    exact shuffle_consumes (pick_consumes n.toNat)
  | unpick n =>
    rw [hbyte rfl]
    exact shuffle_consumes (unpick_consumes n.toNat)
  | constUndefined | constNull | constTrue | constFalse | constI32 => exact .none (pushThen_above _)
  | constStr index =>
    exact .none ((constant_above index).bind above_stable fun _ => pushThen_above _)
  | loadLocal slot => exact .none (loadLocal_above slot)
  | storeLocal slot => exact storeLocal_consumes slot
  | loadGlobal index => exact .none (loadGlobal_above env index)
  | getRval => exact .none (frame_above.bind above_stable fun _ => pushThen_above _)
  | setRval => exact popToRval_consumes.andThen fun _ => .pure above_stable _
  | not | isNullish => exact .pop fun _ => .none (pushThen_above _)
  | and => exact .pop fun _ => .pop fun _ => .none (pushThen_above _)
  | inc | dec => exact count_consumes _ _
  | ige => exact atLeast_consumes
  | isClosing =>
    refine .pop fun v => .none ?_
    split
    · exact pushThen_above _
    · exact pushThen_above _
  | jmp d => exact .none ((check_above _).bind above_stable fun _ => .pure above_stable _)
  | jmpIfFalse d | jmpIfTrue d => exact jumpIf_consumes size _ d
  | retRval => exact .none (frame_above.bind above_stable fun _ => .pure above_stable _)
  | call argc =>
    rw [hbyte rfl]
    exact call_consumes env argc.toNat
  | getElem => exact element_consumes
  | getIterator => exact iterator_consumes
  | iterNext => exact iterNext_consumes
  | iterClose onThrow => exact iterClose_consumes _
  | pushDisposeScope =>
    exact .none ((onFrame_above fun _ => rfl).bind above_stable fun _ => .pure above_stable _)
  | popDisposeScope => exact .none popScope_above
  | addDisposable byte =>
    obtain ⟨hint, hhint⟩ := hint_of_check h
    exact addDisposable_consumes hhint
  | takeDisposeCapability => exact .none takeCapability_above
  | resourceField byte =>
    obtain ⟨field, hfield⟩ := field_of_check h
    exact resourceField_consumes hfield
  | chainDisposeError unwrapClosing => exact chainError_consumes _
  | await | yield => exact popToRval_consumes.map
  | throw => exact .map pop_consumes
  | tryStart c f => exact .none (tryStart_above size c f)
  | endTry => exact .none endTry_above

end Exec

/-! ### The table -/

/-- An instruction that wants for operands does nothing to the surroundings of the call. -/
theorem Activation.eventsOf_of_lt {env : Env σ} {code : Bytes} {pc : Nat} {a : Activation σ} {i : Instr}
    (h : a.frame.stack.slots.length < i.stackEffect.pops) : a.eventsOf env code pc i = [] := by
  have hnil (hpops : i.stackEffect.pops = 1) : a.frame.stack.slots = [] := by
    rw [hpops] at h
    exact List.eq_nil_of_length_eq_zero (Nat.lt_one_iff.mp h)
  cases i with
  | call argc =>
    have hlt : a.frame.stack.slots.length < argc.toNat + 2 := by rwa [Instr.stackEffect_call] at h
    have hdrop : (a.frame.stack.slots.drop argc.toNat).length < 2 := by
      rw [List.length_drop]
      omega
    rw [eventsOf_call]
    generalize a.frame.stack.slots.drop argc.toNat = below at hdrop
    obtain _ | ⟨_, _ | ⟨_, _⟩⟩ := below
    · rfl
    · rfl
    · exact absurd hdrop (by simp)
  | iterNext => rw [eventsOf_iterNext, hnil rfl]
  | iterClose byte => rw [eventsOf_iterClose, hnil rfl]
  | addDisposable byte =>
    rw [eventsOf_addDisposable, hnil rfl]
    cases Hint.ofByte? byte <;> rfl
  | popDisposeScope => exact absurd h (Nat.not_lt_zero _)
  | await => rw [eventsOf_await, hnil rfl]
  | yield => rw [eventsOf_yield, hnil rfl]
  | setRval => rw [eventsOf_setRval, hnil rfl]
  | _ => rfl

/-- What an instruction with this effect that ends at `next` leaves of a frame where it finds
`depth` values. A frame that is suspended comes to where it goes on when it is resumed with a
value, if there is room for that. -/
def Next.Leaves (effect : Opcode.Effect) (next depth : Nat) (f : Frame) : Next → Prop
  | .goto _ => f.stack.depth = depth - effect.pops + effect.pushes
  | .throw _ | .ret _ => depth - effect.pops ≤ f.stack.depth ∧ f.stack.depth ≤ depth
  | .await _ | .yield _ =>
    (depth - effect.pops ≤ f.stack.depth ∧ f.stack.depth ≤ depth) ∧
      ∀ v, { f with ip := next }.resume (.next v) = (.escaped (.failed .stackOverflow), { f with ip := next }) ∨
        ∃ f', { f with ip := next }.resume (.next v) = (.goto next, f') ∧
          f'.stack.slots = v :: f.stack.slots ∧ f'.stack.depth = depth - effect.pops + effect.pushes

/-- A frame is resumed with a value if there is room for it. -/
theorem Frame.resume_next (f : Frame) (v : Value) :
    f.resume (.next v) = (.escaped (.failed .stackOverflow), f) ∨
      f.resume (.next v) = (.goto f.ip, { f with stack := { f.stack with slots := v :: f.stack.slots } }) := by
  simp only [resume, enter, OperandStack.push]
  by_cases hfull : f.stack.capacity ≤ f.stack.depth
  · simp only [if_pos hfull]
    exact .inl trivial
  · simp only [if_neg hfull]
    exact .inr trivial

namespace Exec

variable {env : Env σ} {code : Bytes} {pc offset localCount : Nat} {constants : ConstantPool}
  {i : Instr} {a : Activation σ}

/-- What is suspended comes to the depth that the table says when it goes on. -/
theorem leaves_await {effect : Opcode.Effect} {next depth : Nat} {f : Frame} {v : Value}
    (hdepth : depth = f.stack.depth + 1) (heffect : effect = ⟨1, 1⟩) :
    (Next.await v).Leaves effect next depth f := by
  subst heffect hdepth
  refine ⟨⟨by simp, by simp⟩, fun v => ?_⟩
  exact (Frame.resume_next { f with ip := next } v).imp_right fun hresume => ⟨_, hresume, rfl, rfl⟩

/-- **The machine keeps to the table of stack effects.** An instruction whose operands are in
range wants for one if there are fewer than the table says, and has made no call and no step of
an iterator then, nor closed one. If there are as many, it never wants for one, whatever it
comes to; it leaves all below as it was, and goes on with as many values as the table says, or
throws or is suspended with no more than there were and no fewer than were left. -/
theorem instr_keeps_to_table (h : Located.checkOperands ⟨offset, i⟩ localCount constants = .ok ()) :
    (a.frame.stack.depth < i.stackEffect.pops →
      (∃ a', instr env code.size (pc + i.size) i a = .error .stackUnderflow a' ∧ a'.world = a.world) ∧
        a.eventsOf env code pc i = [] ∧ a.raised env code pc i = []) ∧
    (i.stackEffect.pops ≤ a.frame.stack.depth →
      (∀ a', instr env code.size (pc + i.size) i a ≠ .error .stackUnderflow a') ∧
      a.frame.stack.slots.drop i.stackEffect.pops <:+
        (stateOf (instr env code.size (pc + i.size) i a)).frame.stack.slots ∧
      ∀ next a', instr env code.size (pc + i.size) i a = .ok next a' →
        next.Leaves i.stackEffect (pc + i.size) a.frame.stack.depth a'.frame) := by
  have hconsumes : Consumes i.stackEffect.pops (instr env code.size (pc + i.size) i) := instr_consumes h
  have hkeeps : Keeps env code.size (pc + i.size) a.frame.stack.depth a.frame.handlers i := instr_shifts i
  have hshifts := hkeeps a rfl rfl
  refine ⟨fun hlt => ?_, fun hle => ?_⟩
  · obtain ⟨a', hfault, hworld⟩ := hconsumes.starves a hlt
    refine ⟨⟨a', hfault, hworld⟩, Activation.eventsOf_of_lt hlt, ?_⟩
    simp only [Activation.raised, hfault]
  · have hsuffix := hconsumes.spares a hle
    refine ⟨fun a' hfault => ?_, hsuffix, fun next a' hok => ?_⟩
    · rw [hfault] at hshifts
      exact absurd hle (Nat.not_le_of_lt hshifts.2)
    · rw [hok] at hshifts hsuffix
      have hleast : a.frame.stack.depth - i.stackEffect.pops ≤ a'.frame.stack.depth := by
        have := hsuffix.length_le
        rwa [List.length_drop] at this
      cases next with
      | goto pc' => exact hshifts.2.1
      | throw e | ret v => exact ⟨hleast, hshifts.1⟩
      | await v | yield v => exact leaves_await (v := v) hshifts.1 (by rw [hshifts.2.2]; rfl)

/-- A frame with these operands, on a heap with an iterator that fails to close. -/
def holding (stack : List Value) : Activation Unit :=
  { frame :=
      { unit := ⟨#[], 1, "m", ⟨#[], []⟩, []⟩, functionIndex := 0, ip := 0
        stack := ⟨stack, 2⟩
        locals := #[], rval := .undefined, handlers := [], scopes := [] }
    world := ⟨{ Heap.empty with iterators := #[.ofList [.int 1] (some (.int 9))] }, ()⟩ }

/-- A frame that keeps a value below an iterator that is about to be closed. -/
def keeping : Activation Unit := holding [.iterator 0, .int 7]

/-- Surroundings in which nothing can be called. -/
def bare : Env Unit := ⟨fun _ _ _ => pure .undefined, []⟩

theorem instr_keeps_to_table_keeping :
    let i := Instr.iterClose 0
    Located.checkOperands ⟨0, i⟩ 0 .empty = .ok () ∧
    ((holding []).frame.stack.depth < i.stackEffect.pops ∧
      (∃ a', instr bare 2 2 i (holding []) = .error .stackUnderflow a' ∧ a'.world = (holding []).world) ∧
      (holding []).eventsOf bare #[0, 0] 0 i = [] ∧ (holding []).raised bare #[0, 0] 0 i = []) ∧
    i.stackEffect.pops ≤ keeping.frame.stack.depth ∧ (∀ a', instr bare 2 2 i keeping ≠ .error .stackUnderflow a') ∧
    keeping.frame.stack.slots.drop i.stackEffect.pops <:+ (stateOf (instr bare 2 2 i keeping)).frame.stack.slots ∧
    ∃ a', instr bare 2 2 i keeping = .ok (.throw (.int 9)) a' ∧
      (Next.throw (.int 9)).Leaves i.stackEffect 2 keeping.frame.stack.depth a'.frame := by
  intro i
  have hchecked : Located.checkOperands ⟨0, i⟩ 0 .empty = .ok () := rfl
  have hfew : (holding []).frame.stack.depth < i.stackEffect.pops := by decide
  have henough : i.stackEffect.pops ≤ keeping.frame.stack.depth := by decide
  let code : Bytes := #[0, 0]
  obtain ⟨hstarves, -⟩ := @instr_keeps_to_table Unit bare code 0 0 0 .empty i (holding []) hchecked
  obtain ⟨-, hspares⟩ := @instr_keeps_to_table Unit bare code 0 0 0 .empty i keeping hchecked
  obtain ⟨hnever, hsuffix, hleaves⟩ := hspares henough
  exact ⟨hchecked, ⟨hfew, hstarves hfew⟩, henough, hnever, hsuffix, _, rfl, hleaves _ _ rfl⟩

end Exec
end ResourceMachine
