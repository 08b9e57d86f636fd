/-
# The virtual machine

A host loads modules, defines globals, spawns tasks and lets them run. Normal
and async functions run until nothing is left to do; a generator advances when
it is resumed. A fault of one task ends the operation that ran into it and
leaves the other tasks queued.

Running may go on for ever, so these operations take fuel, which every turn of
a task and every instruction of a turn uses up.

Key definitions: `VmError`, `Vm`, `Vm.load`, `Vm.spawn`, `Vm.runUntilIdle`,
`Vm.run`, `Vm.resumeGenerator`.
-/
import ResourceMachine.Code.StackDepth
import ResourceMachine.Machine.Run
import ResourceMachine.Task.Schedule

namespace ResourceMachine

/-- Why an operation fails. -/
inductive VmError where
  | fault (fault : Fault)
  | verify (error : VerifyError)
  | functionNotFound (name : String)
  | taskNotFound (id : TaskId)
  | notAGenerator (id : TaskId)
  | taskBusy (id : TaskId)
  deriving DecidableEq, Repr

namespace VmError

/-- The text shown for the error, with tasks named by `label`. -/
def messageWith (label : TaskId → String) : VmError → String
  | fault f => f.message
  | verify e => s!"Verification failed: {e.message}"
  | functionNotFound name => s!"Function not found: {name}"
  | taskNotFound id => s!"Task not found: {label id}"
  | notAGenerator id => s!"{label id} is not a generator"
  | taskBusy id => s!"{label id} is already running"

/-- The text shown for the error. -/
def message : VmError → String := messageWith TaskId.label

end VmError

/-- The capacity of every operand stack, and the greatest number of instructions
that are executed in all. -/
structure VmOptions where
  stackCapacity : Nat
  stepBudget : Option Nat
  deriving DecidableEq, Repr

namespace VmOptions

/-- The options of a machine for which none are given. -/
def standard : VmOptions := ⟨OperandStack.defaultCapacity, none⟩

end VmOptions

/-- What has happened so far. -/
structure VmStats where
  tasksSpawned : Nat
  tasksCompleted : Nat
  tasksThrew : Nat
  awaits : Nat
  yields : Nat
  steps : Nat
  deriving DecidableEq, Repr

namespace VmStats

/-- Nothing has happened. -/
def zero : VmStats := ⟨0, 0, 0, 0, 0, 0⟩

end VmStats

/-- A virtual machine. -/
structure Vm (σ : Type) where
  options : VmOptions
  globals : Globals
  schedule : Schedule
  stats : VmStats
  nextTask : Nat
  world : World σ

/-- Why an operation ends without a result. -/
inductive Stop where
  | error (e : VmError)
  | outOfFuel
  deriving DecidableEq, Repr

/-- An operation on a virtual machine. One that fails keeps what was done
before. -/
abbrev VmM (σ : Type) := EStateM Stop (Vm σ)

namespace Vm

variable {σ α : Type}

/-- A machine on which nothing is defined. -/
def create (options : VmOptions) (world : World σ) : Vm σ :=
  { options, world
    globals := []
    schedule := .empty
    stats := .zero
    nextTask := 0 }

/-- Fail with an error. -/
def fail (e : VmError) : VmM σ α := throw (.error e)

/-! ### Access to the state -/

/-- Define a global, or replace it. -/
def setGlobal (name : String) (v : Value) : VmM σ Unit :=
  modify fun vm => { vm with globals := vm.globals.put name v }

/-- Work on the schedule. -/
def onSchedule (f : Schedule → α × Schedule) : VmM σ α := fun vm =>
  let (a, schedule) := f vm.schedule
  .ok a { vm with schedule }

/-- Put a task at the end of the queue. -/
def enqueue (id : TaskId) (mode : Resume) : VmM σ Unit :=
  onSchedule fun s => ((), s.enqueue id mode)

/-- Change the task of an identity. -/
def updateTask (id : TaskId) (f : Task → Task) : VmM σ Unit :=
  onSchedule fun s => ((), s.update id f)

/-- Set the state of a task. -/
def setState (id : TaskId) (state : TaskState) : VmM σ Unit :=
  updateTask id fun t => { t with state }

/-- Set what a host sees of a task. -/
def setStatus (id : TaskId) (status : TaskStatus) : VmM σ Unit :=
  updateTask id fun t => { t with status }

/-- Set the state of a task, and what a host sees of it. -/
def finish (id : TaskId) (state : TaskState) (status : TaskStatus) : VmM σ Unit := do
  setState id state
  setStatus id status

/-- Count what has happened. -/
def count (f : VmStats → VmStats) : VmM σ Unit :=
  modify fun vm => { vm with stats := f vm.stats }

/-- The task of an identity. -/
def task (id : TaskId) : VmM σ Task := do
  match (← get).schedule.get? id with
  | some t => pure t
  | none => fail (.taskNotFound id)

/-- What a host sees of a task. -/
def status (id : TaskId) : VmM σ TaskStatus := return (← task id).status

/-! ### Loading and spawning -/

/-- A module that is fit to run. -/
def load (m : Module) : VmM σ Module := do
  match m.verify with
  | .ok () => pure m
  | .error e => fail (.verify e)

/-- Create a task that calls a function. It is queued unless it is a generator. -/
def spawn (m : Module) (name : String) (args : List Value) : VmM σ TaskId := do
  match m.functions.findIdx? (·.name == name), m.function? name with
  | some index, some f =>
    let vm ← get
    let id : TaskId := ⟨vm.nextTask⟩
    let frame := Frame.start m index args vm.options.stackCapacity
    set
      { vm with
        nextTask := vm.nextTask + 1
        schedule := vm.schedule.insert (Task.create id f frame)
        stats := { vm.stats with tasksSpawned := vm.stats.tasksSpawned + 1 } }
    if !f.kind.isGenerator then enqueue id .start
    pure id
  | _, _ => fail (.functionNotFound name)

/-! ### Running -/

/-- Record how the turn of a task ended. -/
def record (id : TaskId) : Outcome → VmM σ Unit
  | .completed v => do
    count fun s => { s with tasksCompleted := s.tasksCompleted + 1 }
    finish id (.completed v) (.returned v)
  | .threw e => do
    count fun s => { s with tasksThrew := s.tasksThrew + 1 }
    finish id (.threw e) (.threw e)
  | .awaits v => do
    updateTask id Task.recordAwait
    count fun s => { s with awaits := s.awaits + 1 }
    setState id .awaiting
    let heap := (← get).world.heap
    onSchedule fun s => ((), s.await heap id v)
  | .yields v => do
    updateTask id Task.recordYield
    count fun s => { s with yields := s.yields + 1 }
    finish id (.yielded v) (.yielded v)
  | .failed f => do
    setState id .failed
    fail (.fault f)

/-- Give a task its turn. -/
def execute (host : Host σ) (fuel : Nat) (id : TaskId) (mode : Resume) : VmM σ Unit := do
  let t ← task id
  setState id .running
  let vm ← get
  let env : Env σ := ⟨host, vm.globals⟩
  match Activation.run env vm.options.stepBudget fuel vm.stats.steps mode ⟨t.frame, vm.world⟩ with
  | none => throw .outOfFuel
  | some halt =>
    set
      { vm with
        world := halt.activation.world
        stats := { vm.stats with steps := halt.steps } }
    updateTask id fun t => { t with frame := halt.activation.frame }
    record id halt.outcome

/-- Run queued tasks, and those that they or the host wake up, until every task
is finished, has handed out a value, or waits for a promise that is pending. -/
def runUntilIdle (host : Host σ) : (fuel : Nat) → VmM σ Unit
  | 0 => throw .outOfFuel
  | fuel + 1 => do
    match (← get).schedule.popReady with
    | some ((id, mode), schedule) =>
      modify fun vm => { vm with schedule }
      execute host fuel id mode
      runUntilIdle host fuel
    | none =>
      let heap := (← get).world.heap
      let woken ← onSchedule (·.promote heap)
      if woken = 0 then pure () else runUntilIdle host fuel

/-- Spawn a task, run until idle, and tell what is seen of the task. -/
def run (host : Host σ) (fuel : Nat) (m : Module) (name : String) (args : List Value) :
    VmM σ TaskStatus := do
  let id ← spawn m name args
  runUntilIdle host fuel
  status id

/-- Prepare a generator to be resumed. One that was never run is finished at
once by a `throw` or `ret`; one that is finished stays as it is. -/
def prepareGenerator (t : Task) (mode : Resume) : VmM σ Unit :=
  match t.state, mode with
  | .created, .ret v => finish t.id (.completed v) (.returned v)
  | .created, .throw e => finish t.id (.threw e) (.threw e)
  | .created, _ => do
    setState t.id .running
    enqueue t.id .start
  | .yielded _, mode => do
    setState t.id .running
    setStatus t.id .pending
    enqueue t.id <|
      match mode with
      | .start => .next .undefined
      | mode => mode
  | .running, _ | .awaiting, _ => fail (.taskBusy t.id)
  | .completed _, _ | .threw _, _ | .failed, _ => pure ()

/-- Resume a generator, run until idle, and tell what is seen of it. -/
def resumeGenerator (host : Host σ) (fuel : Nat) (id : TaskId) (mode : Resume) :
    VmM σ TaskStatus := do
  let t ← task id
  if !t.kind.isGenerator then fail (.notAGenerator id)
  else
    prepareGenerator t mode
    runUntilIdle host fuel
    status id

end Vm
end ResourceMachine
