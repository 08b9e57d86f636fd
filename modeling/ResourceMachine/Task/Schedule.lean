/-
# The schedule

Tasks run one at a time. Those that may run stand in a queue, each with how it
is to be continued; those that wait for a promise are parked in the order in
which they stopped. Awaiting anything but a pending promise puts a task at the
end of the queue.

Key definitions: `Schedule`, `Schedule.enqueue`, `Schedule.popReady`,
`Schedule.await`, `Schedule.promote`.
-/
import ResourceMachine.Task.Basic

namespace ResourceMachine

/-- The tasks, the queue, and what is parked with the promise that it waits for. -/
structure Schedule where
  tasks : List Task
  ready : List (TaskId × Resume)
  waiting : List (TaskId × Nat)

namespace Schedule

/-- Nothing to run. -/
def empty : Schedule := ⟨[], [], []⟩

/-- The task of an identity. -/
def get? (s : Schedule) (id : TaskId) : Option Task :=
  s.tasks.find? (·.id == id)

/-- Track a task, in place of one of the same identity if there is one. -/
def insert (s : Schedule) (t : Task) : Schedule :=
  { s with tasks := s.tasks.filter (·.id != t.id) ++ [t] }

/-- Change the task of an identity. -/
def update (s : Schedule) (id : TaskId) (f : Task → Task) : Schedule :=
  { s with tasks := s.tasks.map fun t => if t.id = id then f t else t }

/-- Put a task at the end of the queue. -/
def enqueue (s : Schedule) (id : TaskId) (mode : Resume) : Schedule :=
  { s with ready := s.ready ++ [(id, mode)] }

/-- Take the first task from the queue. -/
def popReady (s : Schedule) : Option ((TaskId × Resume) × Schedule) :=
  match s.ready with
  | [] => none
  | first :: rest => some (first, { s with ready := rest })

/-- How a task that waits for a promise is to be continued, once that is known. -/
def continuation? : Settlement → Option Resume
  | .pending => none
  | .fulfilled v => some (.next v)
  | .rejected reason => some (.throw reason)

/-- Queue or park a task that awaits a value. -/
def await (s : Schedule) (heap : Heap) (id : TaskId) (awaited : Value) : Schedule :=
  match awaited with
  | .promise p =>
    match continuation? (heap.settlement p) with
    | some mode => s.enqueue id mode
    | none => { s with waiting := s.waiting ++ [(id, p)] }
  | v => s.enqueue id (.next v)

/-- Go through parked tasks: queue those whose promises have settled, park the
others again. The result counts the first. -/
def promoteAll (heap : Heap) (s : Schedule) : List (TaskId × Nat) → Nat × Schedule
  | [] => (0, s)
  | (id, p) :: rest =>
    match continuation? (heap.settlement p) with
    | some mode =>
      let (n, s) := promoteAll heap (s.enqueue id mode) rest
      (n + 1, s)
    | none => promoteAll heap { s with waiting := s.waiting ++ [(id, p)] } rest

/-- Queue the parked tasks whose promises have settled, and count them. -/
def promote (s : Schedule) (heap : Heap) : Nat × Schedule :=
  promoteAll heap { s with waiting := [] } s.waiting

/-- Whether nothing is queued or parked. -/
def isIdle (s : Schedule) : Bool := s.ready.isEmpty && s.waiting.isEmpty

end Schedule
end ResourceMachine
