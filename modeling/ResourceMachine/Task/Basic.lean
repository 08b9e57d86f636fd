/-
# Tasks

A task is one call of a function with the frame that it runs in. Its state
says whether it may run, what it waits for or how it ended, and with what value.
What a host sees of it is its status, which is kept beside the state.

Key definitions: `TaskId`, `TaskState`, `TaskStatus`, `Task`.
-/
import ResourceMachine.Machine.Frame

namespace ResourceMachine

/-- The identity of a task. -/
structure TaskId where
  number : Nat
  deriving DecidableEq, Repr

namespace TaskId

/-- The name of a task in messages. -/
def label (id : TaskId) : String := s!"task#{id.number}"

end TaskId

/-- How far a task has got. A created generator waits for its first resumption,
any other created task for its turn. -/
inductive TaskState where
  | created
  | running
  | awaiting
  | yielded (v : Value)
  | completed (v : Value)
  | threw (exception : Value)
  | failed
  deriving Inhabited

/-- What a host sees of a task. -/
inductive TaskStatus where
  | pending
  | yielded (v : Value)
  | returned (v : Value)
  | threw (exception : Value)
  deriving Inhabited

namespace TaskState

/-- Whether a task in this state never runs again. -/
def isFinished : TaskState → Bool
  | completed _ | threw _ | failed => true
  | _ => false

end TaskState

/-- One call of a function. -/
structure Task where
  id : TaskId
  name : String
  kind : FunctionKind
  state : TaskState
  status : TaskStatus
  frame : Frame
  awaitCount : Nat
  yieldCount : Nat

namespace Task

/-- A task that is going to run a frame of a function. -/
def create (id : TaskId) (f : Function) (frame : Frame) : Task :=
  { id, frame
    name := f.name
    kind := f.kind
    state := .created
    status := .pending
    awaitCount := 0
    yieldCount := 0 }

/-- Count one await. -/
def recordAwait (t : Task) : Task := { t with awaitCount := t.awaitCount + 1 }

/-- Count one value handed out. -/
def recordYield (t : Task) : Task := { t with yieldCount := t.yieldCount + 1 }

end Task
end ResourceMachine
