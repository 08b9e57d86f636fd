/-
# Instructions that follow an evaluation

Each instruction that touches more than the registers of its frame follows a
step of an evaluation: it calls, suspends the call, steps an iterator, works on
a scope or makes an entity. Where the step throws, the operands that the
instruction took are gone and all below them are there (`Spot.Over`).

Key definitions: `Spot.Stands`, `Spot.Over`.
Key theorems: `Setting.await_sim`, `Setting.call_sim`, `Setting.register_sim`.
-/
import ResourceMachine.Proofs.InstructionSteps
import Mathlib.Data.List.Forall2

namespace ResourceMachine

namespace Spot

/-- The frame stands at `q` with these operands, locals and handlers. -/
def Stands (q : Nat) (stk : List Value) (L : Array Value) (H : List Handler) (spot : Spot) : Prop :=
  ∃ ip, spot = ⟨q, ip, stk, L, H⟩

/-- Below whatever else the frame has these operands. -/
def Over (stk : List Value) (L : Array Value) (H : List Handler) (spot : Spot) : Prop :=
  stk <:+ spot.stack ∧ spot.locals = L ∧ spot.handlers = H

variable {q pc ip : Nat} {stk stk' : List Value} {L : Array Value} {H : List Handler} {spot : Spot}

theorem stands : Stands q stk L H ⟨q, ip, stk, L, H⟩ := ⟨ip, rfl⟩

theorem over_of_suffix (h : stk <:+ stk') : Over stk L H ⟨pc, ip, stk', L, H⟩ := ⟨h, rfl, rfl⟩

theorem Over.below (h : Over stk' L H spot) (hstk : stk <:+ stk') : Over stk L H spot :=
  ⟨hstk.trans h.1, h.2⟩

end Spot

namespace Setting

variable {σ : Type} {κ : Setting σ} {n p q d d' ip : Nat} {stk : List Value} {L : Array Value}
  {H : List Handler} {S S' : CallState σ} {e v : Value}

/-- What an instruction leaves on the operand stack, there is room for. -/
theorem room_of_line {i : Instr} (pops pushes : Nat) (heffect : i.stackEffect = ⟨pops, pushes⟩)
    (hline : κ.target.Line d p [i] d' q) : d - pops + pushes ≤ κ.capacity := by
  obtain ⟨-, -, hmax, rfl, -⟩ := hline.single
  rw [heffect] at hmax
  exact Nat.le_trans hmax κ.maxStack_le

/-! ### Suspensions -/

/-- A call that is suspended goes on with the reply, or ends where there is none. -/
theorem suspend_sim (w : Suspension) (hroom : stk.length < κ.capacity) :
    Sim κ n
      ((κ.ended ⟨q, q, stk, L, H⟩ w.outcome { S with trace := S.trace ++ [.suspend w] }).halt w.outcome)
      (Eval.suspend w S) (fun v spot _ => spot.Stands q (v :: stk) L H)
      (fun spot _ => spot.Over stk L H) := by
  have hw : w.outcome.suspension? = some w := by cases w <;> rfl
  refine ⟨0, _, .refl _, ?_⟩
  simp only [Eval.suspend, Session.halt, hw, ended, session]
  cases S.script with
  | nil => exact ⟨⟨q, q, stk, L, H⟩, rfl⟩
  | cons r rest =>
    simp only [Session.reply]
    cases w.accept r.answer with
    | next v =>
      refine ⟨⟨q, q, v :: stk, L, H⟩, ?_, Spot.stands⟩
      simp only [Answer.mode, Frame.resume, frame, Frame.enter, OperandStack.push,
        OperandStack.depth, Nat.not_le_of_lt hroom, ↓reduceIte, Session.route, session]
    | throw e => exact ⟨⟨q, q, stk, L, H⟩, rfl, Spot.over_of_suffix (List.suffix_refl _)⟩
    | ret v => exact ⟨⟨q, q, stk, L, H⟩, rfl, Spot.over_of_suffix (List.suffix_refl _)⟩

theorem await_sim (hline : κ.target.Line d p [.await] d' q) (hd : stk.length + 1 = d) :
    Sim κ n (κ.session ⟨p, ip, v :: stk, L, H⟩ S) (Eval.await v S)
      (fun v spot _ => spot.Stands q (v :: stk) L H) (fun spot _ => spot.Over stk L H) := by
  have hroom : stk.length < κ.capacity := by
    have := room_of_line 1 1 rfl hline
    omega
  obtain ⟨hhas, -, -, -, rfl⟩ := hline.single
  refine Sim.steps (.single (step_session ⟨p, ip, v :: stk, L, H⟩ S hhas)) ?_
  exact suspend_sim (S := { S with rval := v }) (.await v) hroom

theorem yield_sim (hline : κ.target.Line d p [.yield] d' q) (hd : stk.length + 1 = d) :
    Sim κ n (κ.session ⟨p, ip, v :: stk, L, H⟩ S) (Eval.yield v S)
      (fun v spot _ => spot.Stands q (v :: stk) L H) (fun spot _ => spot.Over stk L H) := by
  have hroom : stk.length < κ.capacity := by
    have := room_of_line 1 1 rfl hline
    omega
  obtain ⟨hhas, -, -, -, rfl⟩ := hline.single
  refine Sim.steps (.single (step_session ⟨p, ip, v :: stk, L, H⟩ S hhas)) ?_
  exact suspend_sim (S := { S with rval := v }) (.yield v) hroom

/-! ### Calls -/

/-- An instruction that throws a new error follows an evaluation that does. -/
theorem raiseNew_sim {α : Type} {i : Instr} {kind : ErrorKind} {message : String} {spot : Spot}
    {Q : α → Spot → CallState σ → Prop} (hhas : κ.target.code.Has spot.pc i) (hi : i ≠ .throw)
    (hexec : Exec.instr ⟨κ.host, S.globals⟩ κ.target.code.size (spot.pc + i.size) i
        ⟨κ.frame spot S, S.world⟩ =
      Exec.throwNew kind message ⟨κ.frame ⟨spot.pc, spot.ip, stk, L, H⟩ S, S.world⟩)
    (hevents : Activation.eventsOf ⟨κ.host, S.globals⟩ κ.target.code spot.pc
      ⟨κ.frame spot S, S.world⟩ i = []) :
    Sim κ n (κ.session spot S) ((Eval.raiseNew kind message : Eval σ α) S) Q
      (fun spot _ => spot.Over stk L H) := by
  let heap := { S.world.heap with identities := S.world.heap.identities + 1 }
  let e := Value.error S.world.heap.identities kind message
  let S' := { S with world := ⟨heap, S.world.host⟩, trace := S.trace ++ [Event.raise e] }
  obtain ⟨ip, hrun⟩ := raise_step (e := e) spot ⟨spot.pc, spot.ip, stk, L, H⟩ S S' hhas hi hexec
    (by rw [hevents, List.nil_append]) rfl rfl
  exact ⟨1, _, hrun, ⟨spot.pc, ip, stk, L, H⟩, rfl, Spot.over_of_suffix (List.suffix_refl _)⟩

/-- A call follows the evaluation of a call. -/
theorem call_sim {argc : UInt8} {f receiver : Value} {origin : Origin} (args : List Value)
    (hline : κ.target.Line d p [.call argc] d' q) (hd : stk.length + 2 + args.length = d)
    (hargc : argc.toNat = args.length) (horigin : Origin.at κ.target.code p argc = origin) :
    Sim κ n (κ.session ⟨p, ip, args.reverse ++ receiver :: f :: stk, L, H⟩ S)
      (Eval.callValue κ.host origin f receiver args S)
      (fun v spot _ => spot.Stands q (v :: stk) L H) (fun spot _ => spot.Over stk L H) := by
  have hroom : stk.length < κ.capacity := by
    have := room_of_line (argc.toNat + 2) 1 (Instr.stackEffect_call argc) hline
    omega
  obtain ⟨hhas, -, -, -, rfl⟩ := hline.single
  have hdrop : (args.reverse ++ receiver :: f :: stk).drop argc.toNat = receiver :: f :: stk := by
    rw [hargc, ← List.length_reverse, List.drop_left]
  have htake : (args.reverse ++ receiver :: f :: stk).take argc.toNat = args.reverse := by
    rw [hargc, ← List.length_reverse, List.take_left]
  cases f
  case function f =>
    cases hres : (f.call κ.host receiver args).settle S.world with
    | mk result world =>
      have hevents : Activation.eventsOf ⟨κ.host, S.globals⟩ κ.target.code p
          ⟨κ.frame ⟨p, ip, args.reverse ++ receiver :: .function f :: stk, L, H⟩ S, S.world⟩
          (.call argc) = [.call origin f receiver args result] := by
        simp only [Activation.eventsOf_call, frame, hdrop, htake, List.reverse_reverse, hres, horigin]
      let S' : CallState σ :=
        { S with world, trace := S.trace ++ [Event.call origin f receiver args result] }
      cases result with
      | ok v =>
        have hexec : Exec.instr ⟨κ.host, S.globals⟩ κ.target.code.size
            (p + (Instr.call argc).size) (.call argc)
            ⟨κ.frame ⟨p, ip, args.reverse ++ receiver :: .function f :: stk, L, H⟩ S, S.world⟩ =
            Exec.pushThen (p + (Instr.call argc).size) v ⟨κ.frame ⟨p, ip, stk, L, H⟩ S', world⟩ := by
          simp only [Exec.instr, Exec.call, hargc, frame, bind, EStateM.bind, Exec.popAll_eq,
            Exec.pop_cons, Exec.settle, hres]
          rfl
        have heval : Eval.callValue κ.host origin (.function f) receiver args S = .ok v S' := by
          simp only [Eval.callValue, Eval.callFunction, hres]
          rfl
        rw [heval]
        exact ⟨1, _, goto_step _ ⟨p + 2, ip, v :: stk, L, H⟩ S S' hhas
          (hexec.trans (Exec.pushThen_eq hroom)) (congrArg (S.trace ++ ·) hevents) rfl rfl, _, rfl, Spot.stands⟩
      | error e =>
        let S'' : CallState σ := { S' with trace := S'.trace ++ [Event.raise e] }
        have hexec : Exec.instr ⟨κ.host, S.globals⟩ κ.target.code.size
            (p + (Instr.call argc).size) (.call argc)
            ⟨κ.frame ⟨p, ip, args.reverse ++ receiver :: .function f :: stk, L, H⟩ S, S.world⟩ =
            .ok (.throw e) ⟨κ.frame ⟨p, ip, stk, L, H⟩ S', world⟩ := by
          simp only [Exec.instr, Exec.call, hargc, frame, bind, EStateM.bind, Exec.popAll_eq,
            Exec.pop_cons, Exec.settle, hres]
          rfl
        have heval : Eval.callValue κ.host origin (.function f) receiver args S =
            .error (.thrown e) S'' := by
          simp only [Eval.callValue, Eval.callFunction, hres]
          rfl
        rw [heval]
        obtain ⟨ip', hrun⟩ := raise_step
          ⟨p, ip, args.reverse ++ receiver :: .function f :: stk, L, H⟩ ⟨p, ip, stk, L, H⟩ S S'' hhas
          (by simp) hexec (by rw [hevents]; exact (List.append_assoc _ _ _).symm) rfl rfl
        exact ⟨1, _, hrun, _, rfl, Spot.over_of_suffix (List.suffix_refl _)⟩
  all_goals
    refine raiseNew_sim hhas (by simp) ?_ ?_
    · simp only [Exec.instr, Exec.call, hargc, frame, bind, EStateM.bind, Exec.popAll_eq,
        Exec.pop_cons]
    · simp only [Activation.eventsOf_call, frame, hdrop]

/-- A call in straight code behind the push of its receiver is one of the body. -/
theorem origin_body {t : Target} {argc : UInt8} (hhas : t.code.Has p .constUndefined) :
    Origin.at t.code (p + 1) argc = .body := by
  unfold Origin.at
  split
  next b _ hread =>
    match p, hhas, hread with
    | 0, hhas, hread =>
      rw [hhas.readAt] at hread
      cases hread
    | p + 1, hhas, hread =>
      -- the operand of what is read in front of the call is the push, and no part of a record
      have hpush : t.code.byteAt (p + 1) = .ok Opcode.constUndefined.byte :=
        (Bytes.Holds.left hhas).byteAt
      cases hpush.symm.trans (Instr.byteAt_of_readAt_resourceField hread)
      rfl
  next => rfl

/-- A call without arguments on the value of a record is one of a pass. -/
theorem origin_pass {t : Target} (hhas : t.code.Has p (.resourceField Field.value.byte)) :
    Origin.at t.code (p + 2) 0 = .pass := by
  simp [Origin.at, hhas.readAt]

/-! ### Names and texts -/

theorem text_step {index : UInt32} {s : String} (htext : κ.target.Text index s)
    (hline : κ.target.Line d p [.constStr index] d' q) (hd : stk.length = d) :
    κ.Runs 1 (κ.session ⟨p, ip, stk, L, H⟩ S) (κ.session ⟨q, ip, .str s :: stk, L, H⟩ S) := by
  have hroom : stk.length < κ.capacity := by
    have := room_of_line 0 1 rfl hline
    omega
  obtain ⟨hhas, -, -, -, rfl⟩ := hline.single
  refine goto_step ⟨p, ip, stk, L, H⟩ _ _ _ hhas ?_ (List.append_nil _) rfl rfl
  have htext' : κ.unit.constants.get? index.toNat = some s := by rw [κ.constants_eq]; exact htext
  simp only [Exec.instr, Exec.constant, Exec.frame, frame, bind, EStateM.bind, get_apply, pure, EStateM.pure,
    htext', Exec.pushThen_eq hroom]

theorem global_sim {index : UInt32} {name : String} {ρ : Bindings}
    (htext : κ.target.Text index name)
    (hline : κ.target.Line d p [.loadGlobal index] d' q) (hd : stk.length = d) :
    Sim κ n (κ.session ⟨p, ip, stk, L, H⟩ S) ((Expr.global name).eval κ.host ρ S)
      (fun v spot _ => spot.Stands q (v :: stk) L H) (fun spot _ => spot.Over stk L H) := by
  have hroom : stk.length < κ.capacity := by
    have := room_of_line 0 1 rfl hline
    omega
  obtain ⟨hhas, -, -, -, rfl⟩ := hline.single
  have htext' : κ.unit.constants.get? index.toNat = some name := by
    rw [κ.constants_eq]
    exact htext
  cases hget : S.globals.get? name with
  | some v =>
    have heval : (Expr.global name).eval κ.host ρ S = .ok v S := by
      simp [Expr.eval, bind, EStateM.bind, get_apply, hget, pure,
        EStateM.pure]
    rw [heval]
    refine ⟨1, _, goto_step ⟨p, ip, stk, L, H⟩ ⟨p + 5, ip, v :: stk, L, H⟩ S S hhas ?_
      (List.append_nil _) rfl rfl, _, rfl, Spot.stands⟩
    simp only [Exec.instr, Exec.loadGlobal, Exec.constant, Exec.frame, frame, bind, EStateM.bind,
      get_apply, pure, EStateM.pure, htext', hget]
    exact Exec.pushThen_eq hroom
  | none =>
    have heval : (Expr.global name).eval κ.host ρ S =
        (Eval.raiseNew .referenceError s!"{name} is not defined" : Eval σ Value) S := by
      simp [Expr.eval, bind, EStateM.bind, get_apply, hget]
    rw [heval]
    refine raiseNew_sim hhas (by simp) ?_ rfl
    simp only [Exec.instr, Exec.loadGlobal, Exec.constant, Exec.frame, frame, bind, EStateM.bind,
      get_apply, pure, EStateM.pure, htext', hget]

/-! ### Iterators -/

theorem iterate_sim (hline : κ.target.Line d p [.getIterator] d' q) (hd : stk.length + 1 = d) :
    Sim κ n (κ.session ⟨p, ip, v :: stk, L, H⟩ S) (Eval.iterate v S)
      (fun id spot _ => spot.Stands q (.iterator id :: stk) L H) (fun spot _ => spot.Over stk L H) := by
  have hroom : stk.length < κ.capacity := by
    have := room_of_line 1 1 rfl hline
    omega
  obtain ⟨hhas, -, -, -, rfl⟩ := hline.single
  cases v
  case list id items =>
    let heap := S.world.heap
    let S' : CallState σ :=
      { S with
        world :=
          ⟨{ heap with iterators := heap.iterators.push (.ofList items none) }, S.world.host⟩ }
    exact ⟨1, _, goto_step ⟨p, ip, .list id items :: stk, L, H⟩
      ⟨p + 1, ip, .iterator heap.iterators.size :: stk, L, H⟩ S S' hhas (Exec.pushThen_eq hroom)
      (List.append_nil _) rfl rfl, _, rfl, Spot.stands⟩
  case iterator id =>
    exact ⟨1, _, goto_step ⟨p, ip, .iterator id :: stk, L, H⟩ ⟨p + 1, ip, .iterator id :: stk, L, H⟩
      S S hhas (Exec.pushThen_eq hroom) (List.append_nil _) rfl rfl, _, rfl, Spot.stands⟩
  all_goals exact raiseNew_sim hhas nofun rfl rfl

/-- Below the condition that the iterator is at its end stand the next item and
the iterator. -/
theorem nextItem_sim {id : Nat} {R : Spot → CallState σ → Prop}
    (hline : κ.target.Line d p [.iterNext] d' q) (hd : stk.length + 1 = d) :
    Sim κ n (κ.session ⟨p, ip, .iterator id :: stk, L, H⟩ S) (Eval.nextItem id S)
      (fun item spot _ =>
        spot.Stands q (.bool item.isNone :: item.getD .undefined :: .iterator id :: stk) L H) R := by
  have hroom : stk.length + 2 < κ.capacity := by
    have := room_of_line 1 3 rfl hline
    omega
  obtain ⟨hhas, -, -, -, rfl⟩ := hline.single
  let heap := S.world.heap
  let step := (heap.cursor id).next
  let S' : CallState σ :=
    { S with
      world := ⟨{ heap with iterators := heap.iterators.setIfInBounds id step.2 }, S.world.host⟩
      trace := S.trace ++ [Event.next id step.1] }
  have heval : Eval.nextItem id S = .ok step.1 S' := rfl
  rw [heval]
  refine ⟨1, _, goto_step ⟨p, ip, .iterator id :: stk, L, H⟩
    ⟨p + 1, ip, .bool step.1.isNone :: step.1.getD .undefined :: .iterator id :: stk, L, H⟩ S S'
    hhas ?_ rfl rfl rfl, _, rfl, Spot.stands⟩
  have hpush : (Value.iterator id :: stk).length < κ.capacity := by
    simp only [List.length_cons]
    omega
  have hpush' : ∀ v : Value, (v :: Value.iterator id :: stk).length < κ.capacity := fun v => by
    simp only [List.length_cons]
    omega
  have hnext : Exec.onHeap (Heap.nextItem id)
      (⟨κ.frame ⟨p, ip, .iterator id :: stk, L, H⟩ S, S.world⟩ : Activation σ) =
      .ok step.1 ⟨κ.frame ⟨p, ip, .iterator id :: stk, L, H⟩ S', S'.world⟩ := rfl
  have hpeek : Exec.peekAt 0
      (⟨κ.frame ⟨p, ip, .iterator id :: stk, L, H⟩ S, S.world⟩ : Activation σ) =
      .ok (.iterator id) ⟨κ.frame ⟨p, ip, .iterator id :: stk, L, H⟩ S, S.world⟩ := rfl
  simp only [Exec.instr, Exec.iterNext, bind, EStateM.bind, hpeek, hnext]
  cases step.1 with
  | none =>
    simp only [EStateM.bind, frame, Exec.push_eq hpush]
    exact Exec.pushThen_eq (hpush' _)
  | some v =>
    simp only [EStateM.bind, frame, Exec.push_eq hpush]
    exact Exec.pushThen_eq (hpush' _)

/-- Closing the iterator of a loop that an exception leaves. -/
theorem closeIterator_sim {id : Nat} {R : Spot → CallState σ → Prop}
    (hline : κ.target.Line d p [.iterClose 1] d' q) :
    Sim κ n (κ.session ⟨p, ip, .iterator id :: stk, L, H⟩ S) (Eval.closeIterator id S)
      (fun _ spot _ => spot.Stands q stk L H) R := by
  obtain ⟨hhas, -, -, -, rfl⟩ := hline.single
  let heap := S.world.heap
  let step := (heap.cursor id).close
  let S' : CallState σ :=
    { S with
      world := ⟨{ heap with iterators := heap.iterators.setIfInBounds id step.2 }, S.world.host⟩
      trace := S.trace ++ [Event.close id step.1] }
  have heval : Eval.closeIterator id S = .ok step.1 S' := rfl
  rw [heval]
  refine ⟨1, _, goto_step ⟨p, ip, .iterator id :: stk, L, H⟩ ⟨p + 2, ip, stk, L, H⟩ S S'
    hhas ?_ rfl rfl rfl, _, rfl, Spot.stands⟩
  have hclose : Exec.onHeap (Heap.closeIterator id)
      (⟨κ.frame ⟨p, ip, stk, L, H⟩ S, S.world⟩ : Activation σ) =
      .ok step.1 ⟨κ.frame ⟨p, ip, stk, L, H⟩ S', S'.world⟩ := rfl
  have hpop : Exec.pop (⟨κ.frame ⟨p, ip, .iterator id :: stk, L, H⟩ S, S.world⟩ : Activation σ) =
      .ok (.iterator id) ⟨κ.frame ⟨p, ip, stk, L, H⟩ S, S.world⟩ := rfl
  simp only [Exec.instr, Exec.iterClose, bind, EStateM.bind, hpop, hclose]
  cases step.1 <;> rfl

/-- Closing the iterator of a loop that is left in another way. -/
theorem leaveIterator_sim {id : Nat} (hline : κ.target.Line d p [.iterClose 0] d' q) :
    Sim κ n (κ.session ⟨p, ip, .iterator id :: stk, L, H⟩ S) (Eval.leaveIterator id S)
      (fun _ spot _ => spot.Stands q stk L H) (fun spot _ => spot.Over stk L H) := by
  obtain ⟨hhas, -, -, -, rfl⟩ := hline.single
  let heap := S.world.heap
  let step := (heap.cursor id).close
  let S' : CallState σ :=
    { S with
      world := ⟨{ heap with iterators := heap.iterators.setIfInBounds id step.2 }, S.world.host⟩
      trace := S.trace ++ [Event.close id step.1] }
  have hcloseEval : Eval.closeIterator id S = .ok step.1 S' := rfl
  have hclose : Exec.onHeap (Heap.closeIterator id)
      (⟨κ.frame ⟨p, ip, stk, L, H⟩ S, S.world⟩ : Activation σ) =
      .ok step.1 ⟨κ.frame ⟨p, ip, stk, L, H⟩ S', S'.world⟩ := rfl
  have hpop : Exec.pop (⟨κ.frame ⟨p, ip, .iterator id :: stk, L, H⟩ S, S.world⟩ : Activation σ) =
      .ok (.iterator id) ⟨κ.frame ⟨p, ip, stk, L, H⟩ S, S.world⟩ := rfl
  cases herror : step.1 with
  | none =>
    have heval : Eval.leaveIterator id S = .ok () S' := by
      simp only [Eval.leaveIterator, bind, EStateM.bind, hcloseEval, herror]
      rfl
    have hexec : Exec.instr ⟨κ.host, S.globals⟩ κ.target.code.size (p + (Instr.iterClose 0).size)
        (.iterClose 0) ⟨κ.frame ⟨p, ip, .iterator id :: stk, L, H⟩ S, S.world⟩ =
        .ok (.goto (p + 2)) ⟨κ.frame ⟨p, ip, stk, L, H⟩ S', S'.world⟩ := by
      simp only [Exec.instr, Exec.iterClose, bind, EStateM.bind, hpop, hclose, herror]
      rfl
    rw [heval]
    exact ⟨1, _, goto_step ⟨p, ip, .iterator id :: stk, L, H⟩ ⟨p + 2, ip, stk, L, H⟩ S S'
      hhas hexec rfl rfl rfl, _, rfl, Spot.stands⟩
  | some e =>
    let S'' : CallState σ := { S' with trace := S'.trace ++ [Event.raise e] }
    have heval : Eval.leaveIterator id S = .error (.thrown e) S'' := by
      simp only [Eval.leaveIterator, bind, EStateM.bind, hcloseEval, herror]
      rfl
    have hexec : Exec.instr ⟨κ.host, S.globals⟩ κ.target.code.size (p + (Instr.iterClose 0).size)
        (.iterClose 0) ⟨κ.frame ⟨p, ip, .iterator id :: stk, L, H⟩ S, S.world⟩ =
        .ok (.throw e) ⟨κ.frame ⟨p, ip, stk, L, H⟩ S', S'.world⟩ := by
      simp only [Exec.instr, Exec.iterClose, bind, EStateM.bind, hpop, hclose, herror]
      rfl
    rw [heval]
    obtain ⟨ip', hrun⟩ := raise_step ⟨p, ip, .iterator id :: stk, L, H⟩ ⟨p, ip, stk, L, H⟩ S S''
      hhas (by simp) hexec (List.append_assoc _ _ _).symm rfl rfl
    exact ⟨1, _, hrun, _, rfl, Spot.over_of_suffix (List.suffix_refl _)⟩

/-! ### Scopes -/

theorem openScope_sim {R : Spot → CallState σ → Prop}
    (hline : κ.target.Line d p [.pushDisposeScope] d' q) :
    Sim κ n (κ.session ⟨p, ip, stk, L, H⟩ S) (Eval.openScope S)
      (fun _ spot S' => spot.Stands q stk L H ∧ S'.scopes = .empty :: S.scopes) R := by
  obtain ⟨hhas, -, -, -, rfl⟩ := hline.single
  let S' : CallState σ := { S with scopes := .empty :: S.scopes }
  exact ⟨1, _, goto_step ⟨p, ip, stk, L, H⟩ ⟨p + 1, ip, stk, L, H⟩ S S' hhas rfl
    (List.append_nil _) rfl rfl, _, rfl, Spot.stands, rfl⟩

theorem closeScope_sim {c : Capability} {cs : List Capability} {R : Spot → CallState σ → Prop}
    (hline : κ.target.Line d p [.popDisposeScope] d' q) (hscopes : S.scopes = c :: cs) :
    Sim κ n (κ.session ⟨p, ip, stk, L, H⟩ S) (Eval.closeScope S)
      (fun _ spot S' => spot.Stands q stk L H ∧ S'.scopes = cs ∧ S'.rval = S.rval) R := by
  obtain ⟨hhas, -, -, -, rfl⟩ := hline.single
  let S' : CallState σ :=
    { S with scopes := cs, trace := S.trace ++ [Event.exitScope c.resources] }
  have heval : Eval.closeScope S = .ok () S' := by
    simp only [Eval.closeScope, bind, EStateM.bind, get_apply,
      hscopes]
    rfl
  rw [heval]
  refine ⟨1, _, goto_step ⟨p, ip, stk, L, H⟩ ⟨p + 1, ip, stk, L, H⟩ S S' hhas ?_ ?_ rfl rfl, _,
    rfl, Spot.stands, rfl, rfl⟩
  · simp only [Exec.instr, Exec.popScope, Exec.frame, frame, bind, EStateM.bind, get_apply, pure, EStateM.pure, hscopes]
    rfl
  · simp only [Activation.eventsOf_popDisposeScope, frame, hscopes]
    rfl

/-- Registering a value. What is registered is a resource of the declaration. -/
theorem register_sim {hint : Hint} {c : Capability} {cs : List Capability}
    (hline : κ.target.Line d p [.addDisposable hint.byte] d' q) (hscopes : S.scopes = c :: cs) :
    Sim κ n (κ.session ⟨p, ip, v :: stk, L, H⟩ S) (Eval.register v hint S)
      (fun _ spot S' => spot.Stands q stk L H ∧
        (S'.scopes = c :: cs ∨ ∃ r h h', createResource v hint h = .ok (some r) h' ∧
          S'.scopes = c.add r :: cs))
      (fun spot S' => spot.Over stk L H ∧ S'.scopes = c :: cs) := by
  obtain ⟨hhas, -, -, -, rfl⟩ := hline.single
  have hbyte : Hint.ofByte? hint.byte = some hint := Hint.ofByte?_byte hint
  cases hres : createResource v hint S.world.heap with
  | error e heap =>
    let S' : CallState σ :=
      { S with world := ⟨heap, S.world.host⟩, trace := S.trace ++ [Event.raise e] }
    have heval : Eval.register v hint S = .error (.thrown e) S' := by
      simp only [Eval.register, bind, EStateM.bind, Eval.attempt, Eval.onHeap, World.onHeap, hres]
      rfl
    rw [heval]
    obtain ⟨ip', hrun⟩ := raise_step ⟨p, ip, v :: stk, L, H⟩ ⟨p, ip, stk, L, H⟩ S S' hhas (by simp)
      (by
        simp only [Exec.instr, Exec.addDisposable, hbyte, frame, bind, EStateM.bind, Exec.pop_cons,
          Exec.settle, Guest.settle, World.onHeap, hres]
        rfl)
      (by
        simp only [Activation.eventsOf_addDisposable, frame, hbyte, hscopes, hres]
        rfl) rfl rfl
    exact ⟨1, _, hrun, _, rfl, Spot.over_of_suffix (List.suffix_refl _), hscopes⟩
  | ok r heap =>
    cases r with
    | none =>
      let S' : CallState σ := { S with world := ⟨heap, S.world.host⟩ }
      have heval : Eval.register v hint S = .ok () S' := by
        simp only [Eval.register, bind, EStateM.bind, Eval.attempt, Eval.onHeap, World.onHeap, hres]
        rfl
      rw [heval]
      refine ⟨1, _, goto_step ⟨p, ip, v :: stk, L, H⟩ ⟨p + 2, ip, stk, L, H⟩ S S' hhas ?_ ?_ rfl rfl,
        _, rfl, Spot.stands, .inl hscopes⟩
      · simp only [Exec.instr, Exec.addDisposable, hbyte, frame, bind, EStateM.bind, Exec.pop_cons,
          Exec.settle, Guest.settle, World.onHeap, hres, Exec.onScope, Exec.frame, get_apply, pure,
          EStateM.pure, hscopes, show S'.scopes = c :: cs from hscopes]
        rfl
      · simp only [Activation.eventsOf_addDisposable, frame, hbyte, hscopes, hres]
        exact List.append_nil _
    | some r =>
      let S' : CallState σ :=
        { S with
          world := ⟨heap, S.world.host⟩
          trace := S.trace ++ [.register r]
          scopes := c.add r :: cs }
      have heval : Eval.register v hint S = .ok () S' := by
        simp only [Eval.register, bind, EStateM.bind, Eval.attempt, Eval.onHeap, World.onHeap, hres,
          Eval.log, modify_apply, hscopes]
        rfl
      rw [heval]
      refine ⟨1, _, goto_step ⟨p, ip, v :: stk, L, H⟩ ⟨p + 2, ip, stk, L, H⟩ S S' hhas ?_ ?_ rfl rfl,
        _, rfl, Spot.stands, .inr ⟨r, _, heap, hres, rfl⟩⟩
      · simp only [Exec.instr, Exec.addDisposable, hbyte, frame, bind, EStateM.bind, Exec.pop_cons,
          Exec.settle, Guest.settle, World.onHeap, hres, Exec.onScope, Exec.frame, get_apply, pure,
          EStateM.pure, hscopes]
        rfl
      · simp only [Activation.eventsOf_addDisposable, frame, hbyte, hscopes, hres]
        rfl

/-- Taking the resources out of the innermost scope. -/
theorem takeResources_sim {c : Capability} {cs : List Capability} {R : Spot → CallState σ → Prop}
    (hline : κ.target.Line d p [.takeDisposeCapability] d' q) (hd : stk.length = d)
    (hscopes : S.scopes = c :: cs) (hfew : c.resources.length ≤ 2147483647) :
    Sim κ n (κ.session ⟨p, ip, stk, L, H⟩ S) (Eval.takeResources S)
      (fun rs spot S' => rs = c.resources ∧ S'.scopes = .empty :: cs ∧ S'.rval = S.rval ∧
        ∃ id vs, Boxes vs rs ∧
          spot.Stands q (.int (Int32.ofNat rs.length) :: .list id vs :: stk) L H) R := by
  have hroom : stk.length + 1 < κ.capacity := by
    have := room_of_line 0 2 rfl hline
    omega
  obtain ⟨hhas, -, -, -, rfl⟩ := hline.single
  obtain ⟨vs, hboxes, hvs⟩ := newResources_boxes c.resources S.world.heap
  let id := S.world.heap.identities + c.resources.length
  let S' : CallState σ :=
    { S with
      world := ⟨{ S.world.heap with identities := id + 1 }, S.world.host⟩
      scopes := .empty :: cs }
  have heval : Eval.takeResources S = .ok c.resources S' := by
    simp only [Eval.takeResources, bind, EStateM.bind, get_apply,
      hscopes, modify_apply, Eval.onHeap,
      World.onHeap, hvs]
    rfl
  have hlist : (Value.list id vs :: stk).length < κ.capacity := hroom
  have hmany : ¬ 2147483647 < c.resources.length := by omega
  rw [heval]
  refine ⟨1, _, goto_step ⟨p, ip, stk, L, H⟩
    ⟨p + 1, ip, .int (Int32.ofNat c.resources.length) :: .list id vs :: stk, L, H⟩ S S' hhas ?_
    (List.append_nil _) rfl rfl, _, rfl, rfl, rfl, rfl, id, vs, hboxes, Spot.stands⟩
  simp only [Exec.instr, Exec.takeCapability, Exec.onScope, Exec.frame, frame, bind, EStateM.bind,
    get_apply, pure, EStateM.pure, hscopes, Exec.onFrame, modify_apply, Exec.onHeap, World.onHeap, hvs, hmany,
    ↓reduceIte, Heap.newList, Heap.freshId]
  rw [Exec.push_eq (by omega)]
  exact Exec.pushThen_eq hlist

theorem chain_ok (c : Completion) (e : Value) (h : Heap) :
    ∃ v h', ∀ ε : Type, (c.chain e : OnHeap ε Value) h = .ok v h' := by
  cases c with
  | throw p =>
    exact ⟨.suppressed h.identities e p, { h with identities := h.identities + 1 }, fun _ => rfl⟩
  | normal | unwind => exact ⟨e, h, fun _ => rfl⟩

/-- Chaining an exception to what is pending. -/
theorem chain_sim {u : Bool} {pending : Option Value} {R : Spot → CallState σ → Prop}
    (hline : κ.target.Line d p [.chainDisposeError (if u then 1 else 0)] d' q)
    (hd : stk.length + 3 = d) :
    Sim κ n
      (κ.session ⟨p, ip, .bool pending.isSome :: pending.getD .undefined :: e :: stk, L, H⟩ S)
      (Eval.chain u pending e S) (fun v spot _ => spot.Stands q (v :: stk) L H) R := by
  have hroom : stk.length < κ.capacity := by
    have := room_of_line 3 1 rfl hline
    omega
  obtain ⟨hhas, -, -, -, rfl⟩ := hline.single
  have hu : ((if u then 1 else 0 : UInt8) == 1) = u := by cases u <;> rfl
  have htruthy : (Value.bool pending.isSome).isTruthy = pending.isSome := rfl
  obtain ⟨v, heap, hv⟩ :=
    chain_ok (.ofPending pending.isSome (pending.getD .undefined) u) e S.world.heap
  let S' : CallState σ := { S with world := ⟨heap, S.world.host⟩ }
  have heval : Eval.chain u pending e S = .ok v S' := by
    simp only [Eval.chain_eq, Eval.onHeap, World.onHeap, hv]
    rfl
  rw [heval]
  refine ⟨1, _, goto_step
    ⟨p, ip, .bool pending.isSome :: pending.getD .undefined :: e :: stk, L, H⟩
    ⟨p + 2, ip, v :: stk, L, H⟩ S S' hhas ?_ (List.append_nil _) rfl rfl, _, rfl, Spot.stands⟩
  simp only [Exec.instr, Exec.chainError, hu, frame, bind, EStateM.bind, Exec.pop_cons, htruthy,
    Exec.onHeap, World.onHeap, hv]
  exact Exec.pushThen_eq hroom

/-! ### The end of a call -/

theorem ret_step (hhas : κ.target.code.Has p .retRval) :
    ∃ spot, κ.Runs 1 (κ.session ⟨p, ip, stk, L, H⟩ S) (κ.ended spot (.completed S.rval) S) ∧
      spot.handlers = H := by
  have hstep := step_session ⟨p, ip, stk, L, H⟩ S hhas
  have hnone : Activation.raised ⟨κ.host, S.globals⟩ κ.target.code p
      ⟨κ.frame ⟨p, ip, stk, L, H⟩ S, S.world⟩ .retRval = [] := rfl
  simp only [Activation.eventsOf_retRval, hnone, List.append_nil] at hstep
  exact ⟨⟨p + 1, p + 1, stk, L, H⟩, .single hstep, rfl⟩

end Setting
end ResourceMachine
