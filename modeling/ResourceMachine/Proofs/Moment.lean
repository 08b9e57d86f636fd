/-
# A machine at work

What a machine goes through, one instruction at a time. Between the turns of tasks the
host spawns, resumes generators, and does as it likes with the heap, its own state and
the globals; a turn begins with a resumption, executes instructions, and ends with what
is recorded of it. A log tells which task had a part in which event. The operations of a
machine get nowhere else (`Moment.runUntilIdle_gets`).

Key definitions: `Surroundings`, `Moment`, `Moment.Step`, `Moment.Leads`, `Moment.Reached`.
-/
import ResourceMachine.Proofs.Computation
import ResourceMachine.Proofs.Session
import ResourceMachine.Task.Vm
import Mathlib.Logic.Relation

namespace ResourceMachine

/-! ### Moments -/

/-- What is around a machine: what host functions do, which modules are loaded, which
values the host passes in, and in which state it leaves the world and the globals. -/
structure Surroundings (σ : Type) where
  host : Host σ
  loaded : Module → Prop
  supplies : Value → Prop
  allows : World σ → Globals → Prop

/-- Whatever modules a host loads, whatever values it passes in, and whatever it does with
the world and the globals. -/
def Surroundings.any {σ : Type} (host : Host σ) : Surroundings σ :=
  ⟨host, fun _ => True, fun _ => True, fun _ _ => True⟩

/-- A host that does nothing but to let a machine run. -/
def Surroundings.handsOff {σ : Type} (host : Host σ) : Surroundings σ :=
  ⟨host, fun _ => False, fun _ => False, fun _ _ => False⟩

/-- A task that has its turn, with its code and with what its run has come to. -/
structure Turn (σ : Type) where
  id : TaskId
  code : Bytes
  progress : Progress σ

/-- A machine, the turn that is under way, and what happened so far, each event with the
task that had a part in it. -/
structure Moment (σ : Type) where
  vm : Vm σ
  turn : Option (Turn σ)
  log : List (TaskId × Event)

namespace Resume

/-- What a call is told that is resumed so. -/
def answer? : Resume → Option Answer
  | start => none
  | next v => some (.next v)
  | throw e => some (.throw e)
  | ret v => some (.ret v)

/-- The value that is passed in. -/
def value? : Resume → Option Value
  | start => none
  | next v | throw v | ret v => some v

/-- What happens to a call that is resumed so. -/
def events (mode : Resume) : List Event := (mode.answer?.map Event.resume).toList

end Resume

namespace Task

/-- What happens to a generator that is closed before it was started. -/
def refusal (t : Task) (mode : Resume) : List Event :=
  match t.state, mode with
  | .created, .ret v => [.resume (.ret v)]
  | .created, .throw e => [.resume (.throw e)]
  | _, _ => []

end Task

namespace Activation

variable {σ : Type}

/-- The run of a frame that was routed. -/
def routed (a : Activation σ) : Route × Frame → Progress σ
  | (.goto pc, frame) => .running pc { a with frame }
  | (.escaped outcome, frame) => .halted outcome { a with frame }

end Activation

namespace Vm

variable {σ : Type}

/-- The machine after a run has come to its end. -/
def leave (vm : Vm σ) (id : TaskId) (a : Activation σ) : Vm σ :=
  { vm with
    world := a.world
    schedule := vm.schedule.update id fun t => { t with frame := a.frame } }

/-- The machine after an instruction. -/
def tally (vm : Vm σ) : Vm σ := { vm with stats := { vm.stats with steps := vm.stats.steps + 1 } }

end Vm

namespace TaskId

/-- Events that a task has a part in. -/
def events (id : TaskId) (es : List Event) : List (TaskId × Event) := es.map fun e => (id, e)

/-- What a task had a part in, of what happened. -/
def history (id : TaskId) (log : List (TaskId × Event)) : List Event :=
  (log.filter fun entry => entry.1 = id).map Prod.snd

end TaskId

namespace Moment

variable {σ : Type}

/-- A machine between turns. -/
def idle (vm : Vm σ) (log : List (TaskId × Event)) : Moment σ := ⟨vm, none, log⟩

/-- Between turns, there is no turn. -/
theorem idle_turn {vm : Vm σ} {log : List (TaskId × Event)} {turn : Turn σ} {p : Prop}
    (h : (idle vm log).turn = some turn) : p := by
  cases h

theorem no_turn {vm : Vm σ} {log : List (TaskId × Event)} {P : Turn σ → Prop} :
    ∀ turn, (idle vm log).turn = some turn → P turn := fun _ => idle_turn

/-- What a task had a part in so far. -/
def history (μ : Moment σ) (id : TaskId) : List Event := id.history μ.log

/-- What can happen next. -/
inductive Step (Ω : Surroundings σ) : Moment σ → Moment σ → Prop
  | spawn {vm vm' : Vm σ} {log : List (TaskId × Event)} {m : Module} {name : String}
      {args : List Value} {id : TaskId} (loaded : Ω.loaded m) (supplied : ∀ v ∈ args, Ω.supplies v)
      (done : Vm.spawn m name args vm = .ok id vm') :
      Step Ω (idle vm log) (idle vm' log)
  | surroundings {vm : Vm σ} {log : List (TaskId × Event)} {world : World σ} {globals : Globals}
      (allowed : Ω.allows world globals) :
      Step Ω (idle vm log) (idle { vm with world, globals } log)
  | prepare {vm vm' : Vm σ} {log : List (TaskId × Event)} {id : TaskId} {t : Task} {mode : Resume}
      (supplied : ∀ v, mode.value? = some v → Ω.supplies v) (found : vm.schedule.get? id = some t)
      (generator : t.kind.isGenerator = true) (done : Vm.prepareGenerator t mode vm = .ok () vm') :
      Step Ω (idle vm log) (idle vm' (log ++ id.events (t.refusal mode)))
  | promote {vm : Vm σ} {log : List (TaskId × Event)} :
      Step Ω (idle vm log)
        (idle { vm with schedule := (vm.schedule.promote vm.world.heap).2 } log)
  | begin {vm : Vm σ} {log : List (TaskId × Event)} {id : TaskId} {mode : Resume} {schedule : Schedule}
      {t : Task} {f : Function} (first : vm.schedule.popReady = some ((id, mode), schedule))
      (found : schedule.get? id = some t) (function : t.frame.function? = some f) :
      Step Ω (idle vm log)
        ⟨{ vm with schedule := schedule.update id fun t => { t with state := .running } },
          some ⟨id, f.code, Activation.routed ⟨t.frame, vm.world⟩ (t.frame.resume mode)⟩,
          log ++ id.events mode.events⟩
  | instruct {vm : Vm σ} {log : List (TaskId × Event)} {id : TaskId} {code : Bytes} {pc : Nat}
      {a : Activation σ}
      (affordable : Activation.exhausted? vm.options.stepBudget vm.stats.steps = none) :
      Step Ω ⟨vm, some ⟨id, code, .running pc a⟩, log⟩
        ⟨vm.tally, some ⟨id, code, a.step ⟨Ω.host, vm.globals⟩ code pc⟩,
          log ++ id.events (a.events ⟨Ω.host, vm.globals⟩ code pc)⟩
  | exhaust {vm : Vm σ} {log : List (TaskId × Event)} {id : TaskId} {code : Bytes} {pc b : Nat}
      {a : Activation σ}
      (exhausted : Activation.exhausted? vm.options.stepBudget vm.stats.steps = some b) :
      Step Ω ⟨vm, some ⟨id, code, .running pc a⟩, log⟩
        ⟨vm, some ⟨id, code, .halted (.failed (.budgetExceeded b)) (a.keepIp pc)⟩, log⟩
  | record {vm : Vm σ} {log : List (TaskId × Event)} {id : TaskId} {code : Bytes} {o : Outcome}
      {a : Activation σ} :
      Step Ω ⟨vm, some ⟨id, code, .halted o a⟩, log⟩
        (idle (stateOf (Vm.record id o (vm.leave id a))) log)

/-- One moment leads to another. -/
abbrev Leads (Ω : Surroundings σ) : Moment σ → Moment σ → Prop := Relation.ReflTransGen (Step Ω)

/-- A moment that a machine gets to on which nothing was defined. -/
def Reached (Ω : Surroundings σ) (μ : Moment σ) : Prop :=
  ∃ options world, Ω.allows world [] ∧ Leads Ω (idle (Vm.create options world) []) μ

end Moment

end ResourceMachine
