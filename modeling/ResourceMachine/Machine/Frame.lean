/-
# Frames

The state of one run of a function: where it stands, its operand stack, its
locals, its return slot, the handlers that are installed and the resources that
its scopes have registered. An exception is routed to the innermost handler;
what was pushed since the handler was installed is dropped.

Key definitions: `Handler`, `Frame`, `Frame.start`, `Outcome`, `Route`, `Resume`,
`Frame.unwind`, `Frame.resume`.
-/
import ResourceMachine.Machine.OperandStack
import ResourceMachine.Value.Disposal
import ResourceMachine.Code.Module

namespace ResourceMachine

/-- A handler: where its catch and its finally code start, and the depth of the
operand stack when it was installed. -/
structure Handler where
  onCatch : Option Nat
  onFinally : Option Nat
  depth : Nat
  deriving DecidableEq, Repr

/-- The state of one run of a function. Handlers and scopes are listed from the
innermost outwards. -/
structure Frame where
  unit : Module
  functionIndex : Nat
  ip : Nat
  stack : OperandStack Value
  locals : Array Value
  rval : Value
  handlers : List Handler
  scopes : List Capability

/-- How a run ended or stopped. -/
inductive Outcome where
  | completed (v : Value)
  | threw (exception : Value)
  | awaits (v : Value)
  | yields (v : Value)
  | failed (fault : Fault)
  deriving Inhabited

/-- Where execution goes on: at an offset, or not at all. -/
inductive Route where
  | goto (pc : Nat)
  | escaped (outcome : Outcome)
  deriving Inhabited

/-- How a run is started or continued: from the entry, or at the point where it
stopped with a value, with an exception, or so that a generator closes. -/
inductive Resume where
  | start
  | next (v : Value)
  | throw (exception : Value)
  | ret (v : Value)
  deriving Inhabited

namespace Frame

/-- The function that a frame runs. -/
def function? (f : Frame) : Option Function := f.unit.functions[f.functionIndex]?

/-- The locals of a function: its parameters, filled with arguments as far as
there are any, and behind them its other locals. -/
def initialLocals (paramCount localCount : Nat) (args : List Value) : Array Value :=
  let params := args.take paramCount
  (params ++ List.replicate (max localCount paramCount - params.length) Value.undefined).toArray

/-- A frame at the entry of a function. -/
def start (unit : Module) (functionIndex : Nat) (args : List Value) (capacity : Nat) : Frame :=
  let counts := match unit.functions[functionIndex]? with
    | some f => (f.paramCount, f.localCount)
    | none => (0, 0)
  { unit, functionIndex
    ip := 0
    stack := .empty capacity
    locals := initialLocals counts.1 counts.2 args
    rval := .undefined
    handlers := []
    scopes := [] }

/-- Go on at an offset with values pushed, the first lowest. -/
def enter (f : Frame) (pc : Nat) : List Value → Route × Frame
  | [] => (.goto pc, f)
  | v :: vs =>
    match f.stack.push v with
    | .ok stack => enter { f with stack } pc vs
    | .error e => (.escaped (.failed e), f)

/-- How a run ends with an exception that nothing handles. The signal that
closes a generator completes it with its return slot. -/
def escape (f : Frame) : Value → Outcome
  | .closing => .completed f.rval
  | exception => .threw exception

/-- Route an exception through handlers. One without code is passed over. -/
def unwindThrough (f : Frame) (exception : Value) : List Handler → Route × Frame
  | [] => (.escaped (f.escape exception), { f with handlers := [] })
  | h :: rest =>
    let f := { f with stack := f.stack.truncate h.depth, handlers := rest }
    match h.onCatch, h.onFinally with
    | some pc, _ => f.enter pc [exception]
    | none, some pc => f.enter pc [exception, .bool true]
    | none, none => unwindThrough f exception rest

/-- Route an exception to the innermost handler with code: catch code is entered
with the exception on top, finally code with the exception and true. -/
def unwind (f : Frame) (exception : Value) : Route × Frame :=
  f.unwindThrough exception f.handlers

/-- Start or continue a run. The signal that closes a generator is routed like
an exception. -/
def resume (f : Frame) : Resume → Route × Frame
  | .start => (.goto f.ip, f)
  | .next v => f.enter f.ip [v]
  | .throw exception => f.unwind exception
  | .ret v => { f with rval := v }.unwind .closing

end Frame
end ResourceMachine
