/-
# Sessions

The life of one call from its entry to its end, over all its suspensions, as
one run. Whenever the call awaits or yields, a script of replies says with what
it is resumed, in which world and with which globals; where the script ends,
the session ends suspended. A session also keeps the trace of what the call
does to its surroundings: host calls and their results, iterator steps,
registrations, exits of scopes, suspensions and replies; and of what happens in
it, the exceptions that are raised and the values that are to be returned.

Some instructions do not tell by themselves what they are for. A pass calls
methods, gives the return slot its value back, and an exception that is pending
is thrown again: these are told by the instructions around them.

A value that is no promise is awaited in vain: the answer is the value itself
(`Suspension.accept`). So a script may hold any answers.

Key definitions: `Event`, `Answer`, `Suspension`, `Reply`, `Activation.events`,
`Session`, `Session.step`, `Steps`.
-/
import ResourceMachine.Machine.Run

namespace ResourceMachine

/-! ### Events -/

/-- Who makes a call: the body of a function, or a disposal pass. -/
inductive Origin where
  | body
  | pass
  deriving DecidableEq, Repr

/-- What a suspended call waits for. -/
inductive Suspension where
  | await (v : Value)
  | yield (v : Value)

/-- What a suspended call is resumed with. -/
inductive Answer where
  | next (v : Value)
  | throw (exception : Value)
  | ret (v : Value)

namespace Answer

/-- How the machine is resumed. -/
def mode : Answer → Resume
  | next v => .next v
  | throw e => .throw e
  | ret v => .ret v

end Answer

namespace Suspension

/-- The outcome of the run that the suspension ends. -/
def outcome : Suspension → Outcome
  | await v => .awaits v
  | yield v => .yields v

/-- The answer that a suspended call gets to see. A promise settles with a value
or a reason; what is no promise is its own answer. -/
def accept : Suspension → Answer → Answer
  | yield _, a => a
  | await (.promise _), .next v => .next v
  | await (.promise _), .throw e => .throw e
  | await (.promise _), .ret v => .next v
  | await v, _ => .next v

end Suspension

namespace Outcome

/-- What a run that stopped waits for. -/
def suspension? : Outcome → Option Suspension
  | awaits v => some (.await v)
  | yields v => some (.yield v)
  | _ => none

/-- How a frame is left that goes on nowhere: with a value or an exception, or for want of
room for an operand. -/
def IsEscape : Outcome → Prop
  | completed _ | threw _ | failed .stackOverflow => True
  | _ => False

theorem IsEscape.suspension? : ∀ {o : Outcome}, o.IsEscape → o.suspension? = none
  | completed _, _ | threw _, _ | failed _, _ => rfl

end Outcome

namespace Frame

theorem isEscape_enter {pc : Nat} {o : Outcome} : ∀ {vs : List Value} {f : Frame},
    (f.enter pc vs).1 = .escaped o → o.IsEscape
  | [], _, h => by cases h
  | v :: vs, f, h => by
    simp only [enter] at h
    cases hv : f.stack.push v with
    | ok stack =>
      rw [hv] at h
      exact isEscape_enter h
    | error e =>
      have he : e = .stackOverflow := by
        unfold OperandStack.push at hv
        split at hv
        · exact (Except.error.inj hv).symm
        · cases hv
      rw [hv, he] at h
      cases h
      trivial

theorem isEscape_unwindThrough {e : Value} {o : Outcome} : ∀ {H : List Handler} {f : Frame},
    (f.unwindThrough e H).1 = .escaped o → o.IsEscape
  | [], _, h => by
    cases h
    cases e <;> trivial
  | ⟨some _, _, _⟩ :: _, _, h => isEscape_enter h
  | ⟨none, some _, _⟩ :: _, _, h => isEscape_enter h
  | ⟨none, none, _⟩ :: H, _, h => isEscape_unwindThrough (H := H) h

/-- A frame is left when it is resumed, if it is, without having been executed. -/
theorem isEscape_resume {f : Frame} {mode : Resume} {o : Outcome}
    (h : (f.resume mode).1 = .escaped o) : o.IsEscape := by
  cases mode with
  | start => cases h
  | next v => exact isEscape_enter h
  | throw e | ret v => exact isEscape_unwindThrough h

end Frame

/-- What a call does to its surroundings, and what it learns from them. -/
inductive Event where
  | call (origin : Origin) (callee : Callable) (receiver : Value) (args : List Value)
      (result : Except Value Value)
  | next (iterator : Nat) (item : Option Value)
  | close (iterator : Nat) (error : Option Value)
  | register (r : Resource)
  | exitScope (left : List Resource)
  | suspend (s : Suspension)
  | resume (a : Answer)
  | raise (exception : Value)
  | returns (v : Value)

/-- A pass calls methods without arguments, on a receiver that comes straight out
of a record. -/
def Origin.at (code : Bytes) (pc : Nat) (argc : UInt8) : Origin :=
  match argc == 0, Instr.readAt code (pc - 2) with
  | true, .ok (.resourceField b) => if b = Field.value.byte then pass else body
  | _, _ => body

/-- Whether an instruction stands right before an offset. -/
def Instr.standsBefore (code : Bytes) (pc : Nat) (i : Instr) : Bool :=
  i.size ≤ pc &&
    match readAt code (pc - i.size) with
    | .ok j => j == i
    | .error _ => false

/-- Whether a `THROW` throws again what is pending: it stands behind a jump over
nothing else, or behind the close of an iterator. What looks like the latter may also
be the end of a longer instruction. -/
def throwsAgain (code : Bytes) (pc : Nat) : Bool :=
  Instr.standsBefore code pc (.jmpIfFalse 1) ||
    match Instr.readAt code (pc - 5) with
    | .ok (.constI32 _) | .ok (.constStr _) | .ok (.loadGlobal _) => false
    | _ => Instr.standsBefore code (pc - 2) .swap && Instr.standsBefore code pc (.iterClose 1)

/-- Whether a `SET_RVAL` is the end of a pass, which gives the return slot its value
back: what is pending is looked at next. -/
def restoresRval (code : Bytes) (pc : Nat) : Bool :=
  match Instr.readAt code (pc + 1) with
  | .ok (.jmpIfFalse _) | .ok .pop => true
  | _ => false

namespace Activation

variable {σ : Type}

/-- What an instruction does to the surroundings of a call. -/
def eventsOf (env : Env σ) (code : Bytes) (pc : Nat) (a : Activation σ) : Instr → List Event
  | .call argc =>
    match a.frame.stack.slots.drop argc.toNat with
    | receiver :: .function f :: _ =>
      let args := (a.frame.stack.slots.take argc.toNat).reverse
      let result := (f.call env.host receiver args).settle a.world
      [.call (.at code pc argc) f receiver args result.1]
    | _ => []
  | .iterNext =>
    match a.frame.stack.slots with
    | .iterator id :: _ => [.next id (a.world.heap.cursor id).next.1]
    | _ => []
  | .iterClose _ =>
    match a.frame.stack.slots with
    | .iterator id :: _ => [.close id (a.world.heap.cursor id).close.1]
    | _ => []
  | .addDisposable byte =>
    match Hint.ofByte? byte, a.frame.stack.slots, a.frame.scopes with
    | some hint, v :: _, _ :: _ =>
      match createResource v hint a.world.heap with
      | .ok (some r) _ => [.register r]
      | _ => []
    | _, _, _ => []
  | .popDisposeScope =>
    match a.frame.scopes with
    | c :: _ => [.exitScope c.resources]
    | [] => []
  | .await =>
    match a.frame.stack.slots with
    | v :: _ => [.suspend (.await v)]
    | [] => []
  | .yield =>
    match a.frame.stack.slots with
    | v :: _ => [.suspend (.yield v)]
    | [] => []
  | .setRval =>
    match a.frame.stack.slots with
    | v :: _ => if restoresRval code pc then [] else [.returns v]
    | [] => []
  | _ => []

section

variable (env : Env σ) (code : Bytes) (pc : Nat) (a : Activation σ)

theorem eventsOf_call (argc : UInt8) : a.eventsOf env code pc (.call argc) =
    match a.frame.stack.slots.drop argc.toNat with
    | receiver :: .function f :: _ =>
      let args := (a.frame.stack.slots.take argc.toNat).reverse
      let result := (f.call env.host receiver args).settle a.world
      [.call (.at code pc argc) f receiver args result.1]
    | _ => [] := rfl

theorem eventsOf_addDisposable (byte : UInt8) : a.eventsOf env code pc (.addDisposable byte) =
    match Hint.ofByte? byte, a.frame.stack.slots, a.frame.scopes with
    | some hint, v :: _, _ :: _ =>
      match createResource v hint a.world.heap with
      | .ok (some r) _ => [.register r]
      | _ => []
    | _, _, _ => [] := rfl

theorem eventsOf_popDisposeScope : a.eventsOf env code pc .popDisposeScope =
    match a.frame.scopes with
    | c :: _ => [.exitScope c.resources]
    | [] => [] := rfl

theorem eventsOf_setRval : a.eventsOf env code pc .setRval =
    match a.frame.stack.slots with
    | v :: _ => if restoresRval code pc then [] else [.returns v]
    | [] => [] := rfl

theorem eventsOf_iterNext : a.eventsOf env code pc .iterNext =
    match a.frame.stack.slots with
    | .iterator id :: _ => [.next id (a.world.heap.cursor id).next.1]
    | _ => [] := rfl

theorem eventsOf_iterClose (byte : UInt8) : a.eventsOf env code pc (.iterClose byte) =
    match a.frame.stack.slots with
    | .iterator id :: _ => [.close id (a.world.heap.cursor id).close.1]
    | _ => [] := rfl

theorem eventsOf_await : a.eventsOf env code pc .await =
    match a.frame.stack.slots with
    | v :: _ => [.suspend (.await v)]
    | [] => [] := rfl

theorem eventsOf_yield : a.eventsOf env code pc .yield =
    match a.frame.stack.slots with
    | v :: _ => [.suspend (.yield v)]
    | [] => [] := rfl

theorem eventsOf_throw : a.eventsOf env code pc .throw = [] := rfl

theorem eventsOf_retRval : a.eventsOf env code pc .retRval = [] := rfl

end

/-- The exception that an instruction raises. -/
def raised (env : Env σ) (code : Bytes) (pc : Nat) (a : Activation σ) (i : Instr) : List Event :=
  match Exec.instr env code.size (pc + i.size) i a with
  | .ok (.throw e) _ => if i = .throw ∧ throwsAgain code pc then [] else [.raise e]
  | _ => []

/-- What happens when the instruction at `pc` is executed. -/
def events (env : Env σ) (code : Bytes) (pc : Nat) (a : Activation σ) : List Event :=
  match Instr.readAt code pc with
  | .ok i => a.eventsOf env code pc i ++ a.raised env code pc i
  | .error _ => []

end Activation

/-! ### Sessions -/

/-- What a suspended call finds when it is resumed: its answer, the world and
the globals as they have become. -/
structure Reply (σ : Type) where
  answer : Answer
  world : World σ
  globals : Globals

/-- Where a session stands. -/
inductive Control where
  | running (pc : Nat)
  | ended (outcome : Outcome)

/-- A call with the replies that it is still going to get, and the trace of what
it did so far. -/
structure Session (σ : Type) where
  control : Control
  frame : Frame
  world : World σ
  globals : Globals
  script : List (Reply σ)
  trace : List Event

namespace Session

variable {σ : Type}

/-- A call at its entry. -/
def start (frame : Frame) (world : World σ) (globals : Globals) (script : List (Reply σ)) :
    Session σ :=
  { frame, world, globals, script
    control := .running frame.ip
    trace := [] }

/-- The session with its activation replaced and more events. -/
def update (s : Session σ) (control : Control) (a : Activation σ) : Session σ :=
  { s with control, frame := a.frame, world := a.world }

/-- The session goes where its frame was routed to. -/
def route (s : Session σ) : Route × Frame → Session σ
  | (.goto pc, frame) => { s with control := .running pc, frame }
  | (.escaped outcome, frame) => { s with control := .ended outcome, frame }

/-- The session gets the next reply of its script. -/
def reply (s : Session σ) (p : Suspension) (r : Reply σ) (rest : List (Reply σ)) : Session σ :=
  let answer := p.accept r.answer
  let s :=
    { s with
      world := r.world
      globals := r.globals
      script := rest
      trace := s.trace ++ [Event.resume answer] }
  s.route (s.frame.resume answer.mode)

/-- A run has stopped: the session goes on with the next reply, if the run waits
for one and there is one. -/
def halt (s : Session σ) (outcome : Outcome) : Session σ :=
  match outcome.suspension?, s.script with
  | some p, r :: rest => s.reply p r rest
  | _, _ => { s with control := .ended outcome }

/-- The session makes what progress one instruction makes. -/
def proceed (s : Session σ) : Progress σ → Session σ
  | .running pc a => s.update (.running pc) a
  | .halted outcome a => (s.update (.ended outcome) a).halt outcome

/-- Execute one instruction. A session that has ended has no next state. -/
def step (host : Host σ) (code : Bytes) (s : Session σ) : Option (Session σ) :=
  match s.control with
  | .ended _ => none
  | .running pc =>
    let env : Env σ := ⟨host, s.globals⟩
    let a : Activation σ := ⟨s.frame, s.world⟩
    some ({ s with trace := s.trace ++ a.events env code pc }.proceed (a.step env code pc))

end Session

/-! ### The trace grows -/

namespace Session

variable {σ : Type}

theorem route_trace (s : Session σ) (r : Route × Frame) : (s.route r).trace = s.trace := by
  obtain ⟨_ | _, _⟩ := r <;> rfl

theorem halt_trace (s : Session σ) (o : Outcome) : s.trace <+: (s.halt o).trace := by
  unfold halt
  split
  · rw [reply, route_trace]
    exact List.prefix_append _ _
  · exact List.prefix_refl _

theorem proceed_trace (s : Session σ) (p : Progress σ) : s.trace <+: (s.proceed p).trace := by
  cases p with
  | running pc a => exact List.prefix_refl _
  | halted o a => exact halt_trace (s.update (.ended o) a) o

/-- A step adds to the trace. -/
theorem step_trace {host : Host σ} {code : Bytes} {s s' : Session σ}
    (h : s.step host code = some s') : s.trace <+: s'.trace := by
  unfold step at h
  split at h
  · cases h
  · rw [← Option.some.inj h]
    exact List.IsPrefix.trans (List.prefix_append s.trace _) (proceed_trace { s with trace := _ } _)

end Session

/-- A session gets to another in `k` instructions. -/
inductive Steps {σ : Type} (host : Host σ) (code : Bytes) :
    Nat → Session σ → Session σ → Prop where
  | refl (s : Session σ) : Steps host code 0 s s
  | step {k : Nat} {s s' s'' : Session σ} (head : s.step host code = some s')
      (tail : Steps host code k s' s'') : Steps host code (k + 1) s s''

namespace Steps

variable {σ : Type} {host : Host σ} {code : Bytes} {j k : Nat} {s s' s'' : Session σ}

theorem single (h : s.step host code = some s') : Steps host code 1 s s' :=
  .step h (.refl s')

theorem trans (h : Steps host code j s s') (h' : Steps host code k s' s'') :
    Steps host code (j + k) s s'' := by
  induction h with
  | refl => rwa [Nat.zero_add]
  | @step j _ _ _ head _ ih =>
    rw [Nat.add_right_comm]
    exact .step head (ih h')

/-- A session has one future: the shorter of two runs is a part of the longer. -/
theorem split (h : Steps host code j s s') (h' : Steps host code k s s'') (hjk : j ≤ k) :
    Steps host code (k - j) s' s'' := by
  induction h generalizing k with
  | refl => exact h'
  | @step j s s₁ _ head _ ih =>
    cases h' with
    | refl => omega
    | @step k _ s₂ _ head' tail' =>
      obtain rfl : s₁ = s₂ := Option.some.inj (head.symm.trans head')
      simpa [Nat.add_sub_add_right] using ih tail' (by omega)

/-- A session that has ended makes no more steps. -/
theorem of_ended {o : Outcome} (h : Steps host code k s s') (hs : s.control = .ended o) :
    k = 0 ∧ s' = s := by
  cases h with
  | refl => exact ⟨rfl, rfl⟩
  | step head => simp [Session.step, hs] at head

/-- What was done is not undone. -/
theorem trace (h : Steps host code k s s') : s.trace <+: s'.trace := by
  induction h with
  | refl => exact List.prefix_refl _
  | step head _ ih => exact (Session.step_trace head).trans ih

theorem unique (h : Steps host code k s s') (h' : Steps host code k s s'') : s' = s'' := by
  have := h.split h' (Nat.le_refl k)
  rw [Nat.sub_self] at this
  cases this
  rfl

end Steps
end ResourceMachine
