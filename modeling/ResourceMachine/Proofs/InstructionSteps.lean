/-
# One instruction of a session

What a session makes of each kind of instruction. An instruction that only
computes on the registers of a frame is executed by `Instr.calc`, and straight
code of such instructions by `Registers.calcAll`; every other instruction
follows a step of an evaluation.

Key definitions: `Registers`, `Instr.calc`, `Registers.calcAll`.
Key theorems: `Setting.step_session`, `Setting.calc_step`, `Target.Line.run`.
-/
import ResourceMachine.Proofs.Simulation

namespace ResourceMachine

/-! ### Computing on registers -/

/-- The parts of a frame that instructions compute on. -/
structure Registers where
  stack : List Value
  locals : Array Value
  rval : Value

/-- What an instruction that only computes makes of the registers. -/
@[simp] def Instr.calc : Instr → Registers → Option Registers
  | .pop, ⟨_ :: st, L, rv⟩ => some ⟨st, L, rv⟩
  | .popN n, ⟨st, L, rv⟩ => if n.toNat ≤ st.length then some ⟨st.drop n.toNat, L, rv⟩ else none
  | .dup, ⟨v :: st, L, rv⟩ => some ⟨v :: v :: st, L, rv⟩
  | .swap, ⟨a :: b :: st, L, rv⟩ => some ⟨b :: a :: st, L, rv⟩
  | .constUndefined, ⟨st, L, rv⟩ => some ⟨.undefined :: st, L, rv⟩
  | .constNull, ⟨st, L, rv⟩ => some ⟨.null :: st, L, rv⟩
  | .constTrue, ⟨st, L, rv⟩ => some ⟨.bool true :: st, L, rv⟩
  | .constFalse, ⟨st, L, rv⟩ => some ⟨.bool false :: st, L, rv⟩
  | .constI32 n, ⟨st, L, rv⟩ => some ⟨.int n :: st, L, rv⟩
  | .loadLocal slot, ⟨st, L, rv⟩ => (L[slot.toNat]?).map fun v => ⟨v :: st, L, rv⟩
  | .storeLocal slot, ⟨v :: st, L, rv⟩ =>
    if slot.toNat < L.size then some ⟨st, L.setIfInBounds slot.toNat v, rv⟩ else none
  | .getRval, ⟨st, L, rv⟩ => some ⟨rv :: st, L, rv⟩
  | .not, ⟨v :: st, L, rv⟩ => some ⟨.bool (!v.isTruthy) :: st, L, rv⟩
  | .and, ⟨b :: a :: st, L, rv⟩ => some ⟨.bool (a.isTruthy && b.isTruthy) :: st, L, rv⟩
  | .dec, ⟨.int n :: st, L, rv⟩ => some ⟨.int (n - 1) :: st, L, rv⟩
  | .ige, ⟨.int b :: .int a :: st, L, rv⟩ => some ⟨.bool (decide (b ≤ a)) :: st, L, rv⟩
  | .isNullish, ⟨v :: st, L, rv⟩ => some ⟨.bool v.isNullish :: st, L, rv⟩
  | .isClosing, ⟨v :: st, L, rv⟩ => some ⟨.bool v.isClosing :: st, L, rv⟩
  | .getElem, ⟨.int n :: .list _ vs :: st, L, rv⟩ =>
    some ⟨(if n < 0 then none else vs[n.toInt.toNat]?).getD .undefined :: st, L, rv⟩
  | .resourceField byte, ⟨.resource _ r :: st, L, rv⟩ =>
    (Field.ofByte? byte).map fun field =>
      ⟨(match field with
        | .value => r.value
        | .hint => .int (Int32.ofNat r.hint.byte.toNat)
        | .method => r.method.getD .undefined) :: st, L, rv⟩
  | _, _ => none

/-- What instructions that only compute make of the registers. -/
@[simp] def Registers.calcAll : List Instr → Registers → Option Registers
  | [], r => some r
  | i :: is, r => (i.calc r).bind (calcAll is)

/-- Computing changes the depth of the operand stack as the opcode says. -/
theorem Instr.length_calc {i : Instr} {r r' : Registers} (h : i.calc r = some r') :
    r'.stack.length = r.stack.length - i.stackEffect.pops + i.stackEffect.pushes := by
  unfold Instr.calc at h
  split at h
  case h_2 n st L rv =>
    split at h
    · obtain rfl := Option.some.inj h
      simp only [Instr.stackEffect, Instr.opcode, Opcode.stackEffect, Instr.operand, Instr.operands,
        List.headD_cons, Instr.operand_byte, List.length_drop]
      omega
    · cases h
  case h_11 slot v st L rv =>
    split at h
    · obtain rfl := Option.some.inj h
      simp [Instr.stackEffect, Instr.opcode, Opcode.stackEffect]
    · cases h
  case h_10 | h_20 =>
    obtain ⟨_, -, rfl⟩ := Option.map_eq_some_iff.mp h
    simp [Instr.stackEffect, Instr.opcode, Opcode.stackEffect]
  all_goals
    cases h <;> simp [Instr.stackEffect, Instr.opcode, Opcode.stackEffect]

/-! ### The machine on concrete frames -/

namespace Exec

variable {σ : Type} {env : Env σ} {codeSize next cap : Nat} {unit : Module} {index ip : Nat}
  {st : List Value} {L : Array Value} {rv v : Value} {H : List Handler} {sc : List Capability}
  {w : World σ}

theorem pop_cons :
    Exec.pop ⟨⟨unit, index, ip, ⟨v :: st, cap⟩, L, rv, H, sc⟩, w⟩ =
      .ok v ⟨⟨unit, index, ip, ⟨st, cap⟩, L, rv, H, sc⟩, w⟩ := rfl

theorem push_eq (hroom : st.length < cap) :
    Exec.push v ⟨⟨unit, index, ip, ⟨st, cap⟩, L, rv, H, sc⟩, w⟩ =
      .ok () ⟨⟨unit, index, ip, ⟨v :: st, cap⟩, L, rv, H, sc⟩, w⟩ := by
  simp [Exec.push, Exec.onStack, OperandStack.push, OperandStack.depth, Nat.not_le_of_lt hroom]

theorem pushThen_eq (hroom : st.length < cap) :
    Exec.pushThen next v ⟨⟨unit, index, ip, ⟨st, cap⟩, L, rv, H, sc⟩, w⟩ =
      .ok (.goto next) ⟨⟨unit, index, ip, ⟨v :: st, cap⟩, L, rv, H, sc⟩, w⟩ := by
  simp [pushThen, push_eq hroom, bind, EStateM.bind, pure, EStateM.pure]

theorem dropAll_eq : ∀ {n : Nat} {st : List Value}, n ≤ st.length →
    Exec.dropAll n ⟨⟨unit, index, ip, ⟨st, cap⟩, L, rv, H, sc⟩, w⟩ =
      .ok () ⟨⟨unit, index, ip, ⟨st.drop n, cap⟩, L, rv, H, sc⟩, w⟩
  | 0, _, _ => rfl
  | n + 1, v :: st, h => by
    simp only [dropAll, bind, EStateM.bind, pop_cons, List.drop_succ_cons]
    exact dropAll_eq (Nat.le_of_succ_le_succ h)

theorem popAll_go_eq : ∀ {n : Nat} {args st vs : List Value}, args.length = n →
    Exec.popAll.go n vs ⟨⟨unit, index, ip, ⟨args ++ st, cap⟩, L, rv, H, sc⟩, w⟩ =
      .ok (args.reverse ++ vs) ⟨⟨unit, index, ip, ⟨st, cap⟩, L, rv, H, sc⟩, w⟩
  | 0, [], _, _, _ => rfl
  | n + 1, v :: args, st, vs, h => by
    simp only [popAll.go, bind, EStateM.bind, List.cons_append, pop_cons]
    rw [popAll_go_eq (by simpa using h)]
    simp

/-- The last argument stands on top. -/
theorem popAll_eq {args : List Value} :
    Exec.popAll args.length ⟨⟨unit, index, ip, ⟨args.reverse ++ st, cap⟩, L, rv, H, sc⟩, w⟩ =
      .ok args ⟨⟨unit, index, ip, ⟨st, cap⟩, L, rv, H, sc⟩, w⟩ := by
  rw [popAll, popAll_go_eq (by simp)]
  simp

/-- The machine computes on the registers as `Instr.calc` says. -/
theorem instr_of_calc {i : Instr} {r r' : Registers} (h : i.calc r = some r')
    (hroom : r'.stack.length ≤ cap) :
    Exec.instr env codeSize next i ⟨⟨unit, index, ip, ⟨r.stack, cap⟩, r.locals, r.rval, H, sc⟩, w⟩ =
      .ok (.goto next) ⟨⟨unit, index, ip, ⟨r'.stack, cap⟩, r'.locals, r'.rval, H, sc⟩, w⟩ := by
  unfold Instr.calc at h
  split at h
  case h_2 n st L rv =>
    split at h
    · cases h
      simp [Exec.instr, dropAll_eq, *, bind, EStateM.bind, pure, EStateM.pure]
    · cases h
  case h_10 slot st L rv =>
    obtain ⟨v, hv, rfl⟩ := Option.map_eq_some_iff.mp h
    simp only [List.length_cons] at hroom
    simp [Exec.instr, loadLocal, frame, bind, EStateM.bind, get_apply, pure, EStateM.pure, hv, pushThen_eq hroom]
  case h_11 slot v st L rv =>
    split at h
    · cases h
      simp [Exec.instr, storeLocal, pop_cons, frame, onFrame, modify_apply, *, bind, EStateM.bind, get_apply,
        pure, EStateM.pure]
    · cases h
  case h_18 v st L rv =>
    cases h
    simp only [List.length_cons] at hroom
    cases v <;> simp only [Exec.instr, bind, EStateM.bind, pop_cons] <;> exact pushThen_eq hroom
  case h_20 byte id r st L rv =>
    obtain ⟨field, hfield, rfl⟩ := Option.map_eq_some_iff.mp h
    simp only [List.length_cons] at hroom
    cases field <;>
      simp only [Exec.instr, resourceField, hfield, pop_cons, bind, EStateM.bind, pushThen_eq hroom]
  case h_21 => cases h
  all_goals
    cases h
    simp (disch := grind) [Exec.instr, dropAll, peekAt, OperandStack.peekAt, OperandStack.swap,
      shuffle, onStack, pop_cons, count, atLeast, element, pushThen_eq, frame, bind, EStateM.bind,
      get_apply, pure, EStateM.pure]

end Exec

/-! ### Steps of a session -/

namespace Frame

/-- Where a run stopped makes no difference to where an exception goes. -/
theorem enter_ip (f : Frame) (ip pc : Nat) : ∀ vs : List Value,
    { f with ip }.enter pc vs = ((f.enter pc vs).1, { (f.enter pc vs).2 with ip })
  | [] => rfl
  | v :: vs => by
    simp only [enter]
    cases f.stack.push v with
    | ok stack => exact enter_ip { f with stack } ip pc vs
    | error e => rfl

/-- The frame with a handler taken off. -/
def dropTo (f : Frame) (depth : Nat) (hs : List Handler) : Frame :=
  { f with stack := f.stack.truncate depth, handlers := hs }

theorem unwindThrough_cons (f : Frame) (e : Value) (c : Option Nat) (fin : Option Nat) (d : Nat)
    (hs : List Handler) :
    f.unwindThrough e (⟨c, fin, d⟩ :: hs) =
      match c with
      | some pc => (f.dropTo d hs).enter pc [e]
      | none =>
        match fin with
        | some pc => (f.dropTo d hs).enter pc [e, .bool true]
        | none => (f.dropTo d hs).unwindThrough e hs := by
  cases c <;> cases fin <;> rfl

theorem unwindThrough_ip (e : Value) (ip : Nat) : ∀ (hs : List Handler) (f : Frame),
    { f with ip }.unwindThrough e hs =
      ((f.unwindThrough e hs).1, { (f.unwindThrough e hs).2 with ip })
  | [], f => by cases e <;> rfl
  | ⟨c, fin, d⟩ :: hs, f => by
    rw [unwindThrough_cons, unwindThrough_cons]
    cases c with
    | some pc => exact enter_ip (f.dropTo d hs) ip pc [e]
    | none =>
      cases fin with
      | some pc => exact enter_ip (f.dropTo d hs) ip pc [e, .bool true]
      | none => exact unwindThrough_ip e ip hs (f.dropTo d hs)

theorem unwind_ip (f : Frame) (ip : Nat) (e : Value) :
    { f with ip }.unwind e = ((f.unwind e).1, { (f.unwind e).2 with ip }) :=
  unwindThrough_ip e ip f.handlers f

end Frame

namespace Setting

variable {σ : Type} {κ : Setting σ} {n p ip : Nat} {stk : List Value} {L : Array Value}
  {H : List Handler} {S S' : CallState σ} {spot spot' : Spot} {i : Instr} {e v : Value}

/-- What the instruction at hand does to a session. -/
theorem step_session (spot : Spot) (S : CallState σ) (h : κ.target.code.Has spot.pc i) :
    (κ.session spot S).step κ.host κ.target.code =
      some ({ κ.session spot S with
          trace := S.trace ++
            (Activation.eventsOf ⟨κ.host, S.globals⟩ κ.target.code spot.pc
                ⟨κ.frame spot S, S.world⟩ i ++
              Activation.raised ⟨κ.host, S.globals⟩ κ.target.code spot.pc
                ⟨κ.frame spot S, S.world⟩ i) }.proceed
        (Activation.perform ⟨κ.host, S.globals⟩ κ.target.code.size spot.pc i
          ⟨κ.frame spot S, S.world⟩)) := by
  simp only [Session.step, session, Activation.events, h.readAt, Activation.step_of_has h]

/-- An instruction that goes on takes a session to the state that it makes. -/
theorem goto_step (spot spot' : Spot) (S S' : CallState σ) (h : κ.target.code.Has spot.pc i)
    (hexec : Exec.instr ⟨κ.host, S.globals⟩ κ.target.code.size (spot.pc + i.size) i
      ⟨κ.frame spot S, S.world⟩ = .ok (.goto spot'.pc) ⟨κ.frame spot' S', S'.world⟩)
    (htrace : S.trace ++ Activation.eventsOf ⟨κ.host, S.globals⟩ κ.target.code spot.pc
      ⟨κ.frame spot S, S.world⟩ i = S'.trace)
    (hscript : S.script = S'.script) (hglobals : S.globals = S'.globals) :
    κ.Runs 1 (κ.session spot S) (κ.session spot' S') := by
  refine .single ?_
  rw [step_session spot S h]
  simp only [Activation.perform, Activation.raised, hexec, List.append_nil, htrace]
  simp [Activation.follow, Session.proceed, Session.update, session, hscript, hglobals]

/-- An instruction that throws takes a session to where the exception goes its way. -/
theorem throw_step (spot spot' : Spot) (S S' : CallState σ) (h : κ.target.code.Has spot.pc i)
    (hexec : Exec.instr ⟨κ.host, S.globals⟩ κ.target.code.size (spot.pc + i.size) i
      ⟨κ.frame spot S, S.world⟩ = .ok (.throw e) ⟨κ.frame spot' S', S'.world⟩)
    (htrace : S.trace ++ (Activation.eventsOf ⟨κ.host, S.globals⟩ κ.target.code spot.pc
        ⟨κ.frame spot S, S.world⟩ i ++
      if i = .throw ∧ throwsAgain κ.target.code spot.pc then [] else [.raise e]) = S'.trace)
    (hscript : S.script = S'.script) (hglobals : S.globals = S'.globals) :
    ∃ ip, κ.Runs 1 (κ.session spot S) (κ.raise { spot' with ip } e S') := by
  have hstep := step_session spot S h
  simp only [Activation.perform, Activation.raised, hexec, htrace, Activation.follow,
    Activation.throw] at hstep
  cases hroute : (κ.frame spot' S').unwind e with
  | mk route frame =>
    cases route with
    | goto pc =>
      refine ⟨spot'.ip, .single ?_⟩
      rw [hstep, hroute]
      simp [raise, hroute, Session.route, Session.proceed, Session.update, session, hscript, hglobals]
    | escaped outcome =>
      refine ⟨spot.pc + i.size, .single ?_⟩
      have hnone : outcome.suspension? = none :=
        (Frame.isEscape_unwindThrough (congrArg Prod.fst hroute)).suspension?
      have hip := Frame.unwind_ip (κ.frame spot' S') (spot.pc + i.size) e
      rw [hroute] at hip
      have hip' : (κ.frame { spot' with ip := spot.pc + i.size } S').unwind e =
          (.escaped outcome, { frame with ip := spot.pc + i.size }) := hip
      rw [hstep, hroute]
      simp [raise, hip', Session.route, Session.proceed, Session.update, Session.halt, hnone,
        session, Activation.keepIp, hscript, hglobals]

/-- An instruction that is no `THROW` and throws raises an exception. -/
theorem raise_step (spot spot' : Spot) (S S' : CallState σ) (h : κ.target.code.Has spot.pc i)
    (hi : i ≠ .throw)
    (hexec : Exec.instr ⟨κ.host, S.globals⟩ κ.target.code.size (spot.pc + i.size) i
      ⟨κ.frame spot S, S.world⟩ = .ok (.throw e) ⟨κ.frame spot' S', S'.world⟩)
    (htrace : S.trace ++ (Activation.eventsOf ⟨κ.host, S.globals⟩ κ.target.code spot.pc
        ⟨κ.frame spot S, S.world⟩ i ++ [.raise e]) = S'.trace)
    (hscript : S.script = S'.script) (hglobals : S.globals = S'.globals) :
    ∃ ip, κ.Runs 1 (κ.session spot S) (κ.raise { spot' with ip } e S') :=
  throw_step spot spot' S S' h hexec (by rw [if_neg fun h => hi h.1, htrace]) hscript hglobals

/-- An instruction that computes goes on with the registers that it makes. -/
theorem calc_step {r : Registers} (h : κ.target.code.Has p i)
    (hcalc : i.calc ⟨stk, L, S.rval⟩ = some r) (hroom : r.stack.length ≤ κ.capacity) :
    κ.Runs 1 (κ.session ⟨p, ip, stk, L, H⟩ S)
      (κ.session ⟨p + i.size, ip, r.stack, r.locals, H⟩ { S with rval := r.rval }) := by
  refine goto_step ⟨p, ip, stk, L, H⟩ _ _ _ h (Exec.instr_of_calc hcalc hroom) ?_ rfl rfl
  cases i <;> first | exact List.append_nil _ | simp [Instr.calc] at hcalc

end Setting

namespace Target.Line

variable {σ : Type} {κ : Setting σ} {ip : Nat} {H : List Handler}

/-- A line of one instruction. -/
theorem single {t : Target} {d p d' q : Nat} {i : Instr} (h : t.Line d p [i] d' q) :
    t.code.Has p i ∧ i.stackEffect.pops ≤ d ∧ d' ≤ t.maxStack ∧
      d' = d - i.stackEffect.pops + i.stackEffect.pushes ∧ q = p + i.size := by
  obtain ⟨hhas, hpops, hmax, rfl, rfl⟩ := h
  exact ⟨hhas, hpops, hmax, rfl, rfl⟩

/-- Straight code that computes is executed to its end. -/
theorem run : ∀ {is : List Instr} {d p d' q : Nat} {stk : List Value} {L : Array Value}
    {S : CallState σ} {r : Registers}, κ.target.Line d p is d' q → stk.length = d →
    Registers.calcAll is ⟨stk, L, S.rval⟩ = some r →
    κ.Runs is.length (κ.session ⟨p, ip, stk, L, H⟩ S)
      (κ.session ⟨q, ip, r.stack, r.locals, H⟩ { S with rval := r.rval })
  | [], _, _, _, _, _, _, _, _, ⟨_, hq⟩, _, hcalc => by
    subst hq
    obtain rfl := Option.some.inj hcalc
    exact .refl _
  | i :: is, d, p, d', q, stk, L, S, r, ⟨hhas, hpops, hmax, hrest⟩, hd, hcalc => by
    obtain ⟨r₁, hi, his⟩ := Option.bind_eq_some_iff.mp hcalc
    have hlen : r₁.stack.length = d - i.stackEffect.pops + i.stackEffect.pushes := by
      rw [Instr.length_calc hi, hd]
    have hroom : r₁.stack.length ≤ κ.capacity := by
      have := κ.maxStack_le
      omega
    rw [List.length_cons, Nat.add_comm]
    exact (Setting.calc_step hhas hi hroom).trans
      (run (S := { S with rval := r₁.rval }) hrest hlen his)

end Target.Line

namespace Sim

variable {σ α : Type} {κ : Setting σ} {n d p d' q ip : Nat} {is : List Instr}
  {stk stk' : List Value} {L L' : Array Value} {H : List Handler} {S : CallState σ} {v : Value}
  {x : EStateM.Result Interrupt (CallState σ) α} {Q : α → Spot → CallState σ → Prop}
  {R : Spot → CallState σ → Prop}

/-- Straight code that leaves the return slot as it is. -/
theorem line (hline : κ.target.Line d p is d' q) (hd : stk.length = d)
    (hcalc : Registers.calcAll is ⟨stk, L, S.rval⟩ = some ⟨stk', L', S.rval⟩)
    (h : Sim κ n (κ.session ⟨q, ip, stk', L', H⟩ S) x Q R) :
    Sim κ n (κ.session ⟨p, ip, stk, L, H⟩ S) x Q R :=
  h.steps (hline.run hd hcalc)

end Sim

namespace Setting

variable {σ : Type} {κ : Setting σ} {n p q d d' ip : Nat} {stk : List Value} {L : Array Value}
  {H : List Handler} {S S' : CallState σ} {e v : Value}

/-! ### Jumps and handlers -/

theorem jump_always (h : κ.target.Jump .always p q) :
    κ.Runs 1 (κ.session ⟨p, ip, stk, L, H⟩ S) (κ.session ⟨q, ip, stk, L, H⟩ S) := by
  obtain ⟨distance, hhas, htarget⟩ := h
  refine goto_step ⟨p, ip, stk, L, H⟩ _ _ _ hhas ?_ (List.append_nil _) rfl rfl
  simp only [JumpKind.instr, Exec.instr, Instr.size, Instr.opcode, Opcode.operandSize, htarget,
    Exec.check, Functor.map, EStateM.map, pure, EStateM.pure]
  rfl

/-- A conditional jump takes the condition and goes one way or the other. -/
theorem jump_if {kind : JumpKind} (wanted : Bool)
    (hkind : kind = if wanted then .ifTrue else .ifFalse) (h : κ.target.Jump kind p q) :
    κ.Runs 1 (κ.session ⟨p, ip, v :: stk, L, H⟩ S)
      (κ.session ⟨if v.isTruthy = wanted then q else p + 5, ip, stk, L, H⟩ S) := by
  obtain ⟨distance, hhas, htarget⟩ := h
  subst hkind
  cases wanted
  all_goals
    refine goto_step ⟨p, ip, v :: stk, L, H⟩ _ _ _ hhas ?_ (List.append_nil _) rfl rfl
    simp only [JumpKind.instr, Bool.false_eq_true, ↓reduceIte, Exec.instr, Exec.jumpIf, frame, bind,
      EStateM.bind, Exec.pop_cons, Instr.size, Instr.opcode, Opcode.operandSize]
    split
    · simp only [htarget, Exec.check, Functor.map, EStateM.map, pure, EStateM.pure]
    · rfl

theorem try_start {onCatch onFinally : Option Nat} (h : κ.target.Protect p onCatch onFinally) :
    κ.Runs 1 (κ.session ⟨p, ip, stk, L, H⟩ S)
      (κ.session ⟨p + 9, ip, stk, L, ⟨onCatch, onFinally, stk.length⟩ :: H⟩ S) := by
  obtain ⟨c, f, hhas, hc, hf⟩ := h
  refine goto_step ⟨p, ip, stk, L, H⟩ _ _ _ hhas ?_ (List.append_nil _) rfl rfl
  simp only [Exec.instr, Exec.tryStart, frame, bind, EStateM.bind, Instr.size, Instr.opcode,
    Opcode.operandSize, hc, hf, Exec.check, pure, EStateM.pure, Exec.onFrame, modify_apply, OperandStack.depth]

theorem end_try {h : Handler} (hline : κ.target.Line d p [.endTry] d' q) :
    κ.Runs 1 (κ.session ⟨p, ip, stk, L, h :: H⟩ S) (κ.session ⟨q, ip, stk, L, H⟩ S) := by
  obtain ⟨hhas, -, -, -, rfl⟩ := hline.single
  exact goto_step ⟨p, ip, stk, L, h :: H⟩ _ _ _ hhas rfl (List.append_nil _) rfl rfl

/-- An exception is caught by the catch code of the innermost handler. -/
theorem raise_catch {spot : Spot} {c depth : Nat} {f : Option Nat} {xs : List Value}
    (hH : spot.handlers = ⟨some c, f, depth⟩ :: H) (hstk : xs ++ stk = spot.stack)
    (hdepth : stk.length = depth) (hroom : depth < κ.capacity) :
    κ.raise spot e S = κ.session ⟨c, spot.ip, e :: stk, spot.locals, H⟩ S := by
  have hdrop : spot.stack.drop (spot.stack.length - depth) = stk := by
    rw [← hstk, List.length_append, hdepth, Nat.add_sub_cancel, List.drop_left]
  have hunwind : (κ.frame spot S).unwind e =
      ((κ.frame spot S).dropTo depth H).enter c [e] := by
    simp only [Frame.unwind, frame, hH, Frame.unwindThrough_cons]
  rw [raise, hunwind]
  simp only [Frame.dropTo, frame, OperandStack.truncate, OperandStack.depth, hdrop, Frame.enter,
    OperandStack.push]
  simp only [hdepth, Nat.not_le_of_lt hroom, ↓reduceIte, Session.route, session, frame]

/-- Finally code is entered with the exception and true. -/
theorem raise_finally {spot : Spot} {c depth : Nat} {xs : List Value}
    (hH : spot.handlers = ⟨none, some c, depth⟩ :: H) (hstk : xs ++ stk = spot.stack)
    (hdepth : stk.length = depth) (hroom : depth + 1 < κ.capacity) :
    κ.raise spot e S = κ.session ⟨c, spot.ip, .bool true :: e :: stk, spot.locals, H⟩ S := by
  have hdrop : spot.stack.drop (spot.stack.length - depth) = stk := by
    rw [← hstk, List.length_append, hdepth, Nat.add_sub_cancel, List.drop_left]
  have hunwind : (κ.frame spot S).unwind e =
      ((κ.frame spot S).dropTo depth H).enter c [e, .bool true] := by
    simp only [Frame.unwind, frame, hH, Frame.unwindThrough_cons]
  have hroom' : ¬ κ.capacity ≤ depth + 1 := by omega
  have hroom'' : ¬ κ.capacity ≤ depth := by omega
  rw [raise, hunwind]
  simp only [Frame.dropTo, frame, OperandStack.truncate, OperandStack.depth, hdrop, Frame.enter,
    OperandStack.push]
  simp only [hdepth, hroom'', List.length_cons, hroom', ↓reduceIte, Session.route, session, frame]

/-- A `THROW` raises an exception, unless it throws again what is pending. -/
theorem throw_line (hline : κ.target.Line d p [.throw] d' q)
    (htrace : S.trace ++ (if throwsAgain κ.target.code p then [] else [.raise e]) = S'.trace)
    (hS : S' = { S with trace := S'.trace }) :
    ∃ ip', κ.Runs 1 (κ.session ⟨p, ip, e :: stk, L, H⟩ S) (κ.raise ⟨q, ip', stk, L, H⟩ e S') := by
  obtain ⟨hhas, -, -, -, rfl⟩ := hline.single
  rw [hS]
  exact throw_step ⟨p, ip, e :: stk, L, H⟩ ⟨p + Instr.throw.size, ip, stk, L, H⟩ _ _ hhas rfl
    (by simpa [Activation.eventsOf_throw] using htrace) rfl rfl

/-- What is pending is thrown again. -/
theorem rethrow_line (hline : κ.target.Line d p [.throw] d' q)
    (hagain : throwsAgain κ.target.code p = true) :
    ∃ ip', κ.Runs 1 (κ.session ⟨p, ip, e :: stk, L, H⟩ S) (κ.raise ⟨q, ip', stk, L, H⟩ e S) :=
  throw_line hline (by simp [hagain]) rfl

/-! ### The return slot -/

/-- A `SET_RVAL` has a value returned, unless it gives the return slot its value back. -/
theorem set_rval_line (hline : κ.target.Line d p [.setRval] d' q)
    (htrace : S.trace ++ (if restoresRval κ.target.code p then [] else [.returns v]) = S'.trace)
    (hS : S' = { S with trace := S'.trace, rval := v }) :
    κ.Runs 1 (κ.session ⟨p, ip, v :: stk, L, H⟩ S) (κ.session ⟨q, ip, stk, L, H⟩ S') := by
  obtain ⟨hhas, -, -, -, rfl⟩ := hline.single
  rw [hS]
  exact goto_step ⟨p, ip, v :: stk, L, H⟩ ⟨p + Instr.setRval.size, ip, stk, L, H⟩ _ _ hhas rfl
    htrace rfl rfl

end Setting
end ResourceMachine
