/-
# Running a frame

A run executes instructions until the function returns, throws, stops to be
resumed, or faults. A budget bounds the number of instructions over many runs;
`steps` is that number so far. A run of code that loops for ever has no end, so
`run` takes fuel and yields nothing if that is used up.

A frame keeps the offset at which its run stopped: after the instruction that
ended it, or at the instruction that faulted or was not executed for want of
budget. Where no instruction begins, it keeps the offset from which the run
was started.

Key definitions: `Activation.step`, `Activation.runFrom`, `Activation.run`.
-/
import ResourceMachine.Machine.Execute

namespace ResourceMachine

/-- What one instruction leads to. -/
inductive Progress (σ : Type) where
  | running (pc : Nat) (a : Activation σ)
  | halted (outcome : Outcome) (a : Activation σ)

/-- The end of a run: how it ended, the number of instructions so far, and what
it left. -/
structure Halt (σ : Type) where
  outcome : Outcome
  steps : Nat
  activation : Activation σ

namespace Activation

variable {σ : Type}

/-- Keep an offset in the frame. -/
def keepIp (a : Activation σ) (pc : Nat) : Activation σ :=
  { a with frame := { a.frame with ip := pc } }

/-- Route an exception thrown by an instruction that ends at `next`. -/
def throw (a : Activation σ) (next : Nat) (exception : Value) : Progress σ :=
  match a.frame.unwind exception with
  | (.goto pc, frame) => .running pc { a with frame }
  | (.escaped outcome, frame) => .halted outcome ({ a with frame }.keepIp next)

/-- Go on after an instruction that ends at `next`. -/
def follow (a : Activation σ) (next : Nat) : Next → Progress σ
  | .goto pc => .running pc a
  | .throw exception => a.throw next exception
  | .await v => .halted (.awaits v) (a.keepIp next)
  | .yield v => .halted (.yields v) (a.keepIp next)
  | .ret v => .halted (.completed v) (a.keepIp next)

/-- Execute the instruction `i` at `pc`. -/
def perform (env : Env σ) (codeSize pc : Nat) (i : Instr) (a : Activation σ) : Progress σ :=
  match Exec.instr env codeSize (pc + i.size) i a with
  | .ok next a' => a'.follow (pc + i.size) next
  | .error e a' => .halted (.failed e) (a'.keepIp pc)

/-- Execute the instruction at `pc`. -/
def step (env : Env σ) (code : Bytes) (pc : Nat) (a : Activation σ) : Progress σ :=
  match Instr.opcodeAt code pc with
  | .error e => .halted (.failed (.ofDecodeError e)) a
  | .ok op =>
    match Instr.ofOperandsAt code (pc + 1) op with
    | .error e => .halted (.failed (.ofDecodeError e)) (a.keepIp pc)
    | .ok i => a.perform env code.size pc i

/-- The budget, if the number of instructions has reached it. -/
def exhausted? (budget : Option Nat) (steps : Nat) : Option Nat :=
  budget.filter (· ≤ steps)

/-- Execute instructions from `pc` on. -/
def runFrom (env : Env σ) (code : Bytes) (budget : Option Nat) :
    (fuel steps pc : Nat) → Activation σ → Option (Halt σ)
  | 0, _, _, _ => none
  | fuel + 1, steps, pc, a =>
    match exhausted? budget steps with
    | some b => some ⟨.failed (.budgetExceeded b), steps, a.keepIp pc⟩
    | none =>
      match a.step env code pc with
      | .running pc' a' => runFrom env code budget fuel (steps + 1) pc' a'
      | .halted outcome a' => some ⟨outcome, steps + 1, a'⟩

/-- Start or continue the run of a frame. -/
def run (env : Env σ) (budget : Option Nat) (fuel steps : Nat) (mode : Resume)
    (a : Activation σ) : Option (Halt σ) :=
  match a.frame.function? with
  | none => some ⟨.failed (.noSuchFunction a.frame.functionIndex), steps, a⟩
  | some f =>
    match a.frame.resume mode with
    | (.goto pc, frame) => runFrom env f.code budget fuel steps pc { a with frame }
    | (.escaped outcome, frame) => some ⟨outcome, steps, { a with frame }⟩

end Activation
end ResourceMachine
