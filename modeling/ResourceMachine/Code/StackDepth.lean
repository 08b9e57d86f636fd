/-
# Verification of code

Code is fit to run if it splits into instructions whose last one never falls
through, every operand is in range, and every instruction that can be reached
has one depth of the operand stack at which it is reached, deep enough for what
it pops and never deeper than the function declares. The depths are found by
following the successors of each instruction once; the order in which pending
instructions are taken, last found first, decides which of several faults is
reported.

Key definitions: `VerifyError`, `Function.checkOperands`, `Depths.successors`,
`Depths.visit`, `Depths.explore`, `Function.verify`, `Module.verify`.
Key theorem: `Depths.weight_advance`.
-/
import ResourceMachine.Code.Instruction
import ResourceMachine.Code.Module

namespace ResourceMachine

/-- Why a module is not fit to run. -/
inductive VerifyError where
  | invalidOpcode (byte : UInt8) (offset : Nat)
  | stackUnderflow (offset : Nat)
  | stackOverflow (offset depth : Nat)
  | stackMismatch (offset expected found : Nat)
  | invalidJumpTarget (target offset : Nat)
  | invalidConstantRef (index offset : Nat)
  | invalidLocalRef (index localCount offset : Nat)
  | invalidOperand (opcode : Opcode) (value : Int) (offset : Nat)
  | fallOffEnd (offset : Nat)
  | moduleFlaw (flaw : ModuleFlaw)
  | decode (error : DecodeError)
  deriving DecidableEq, Repr

namespace VerifyError

/-- The text shown for the error. -/
def message : VerifyError → String
  | invalidOpcode byte offset => s!"Invalid opcode {hexNumber byte.toNat} at offset {offset}"
  | stackUnderflow offset => s!"Stack underflow at offset {offset}"
  | stackOverflow offset depth => s!"Stack overflow at offset {offset} (depth: {depth})"
  | stackMismatch offset expected found =>
    s!"Inconsistent stack depth at offset {offset}: {expected} vs {found}"
  | invalidJumpTarget target offset => s!"Invalid jump target {target} at offset {offset}"
  | invalidConstantRef index offset =>
    s!"Invalid constant pool reference: index {index} at offset {offset}"
  | invalidLocalRef index localCount offset =>
    s!"Invalid local variable reference: index {index} (max {localCount}) at offset {offset}"
  | invalidOperand opcode value offset =>
    s!"Invalid operand {value} for {opcode.name} at offset {offset}"
  | fallOffEnd offset => s!"Execution falls off end of function at offset {offset}"
  | moduleFlaw flaw => s!"Module validation error: {flaw.message}"
  | decode error => s!"Decode error: {error.message}"

/-- An unreadable code, as an error of its function. -/
def ofDecodeError : DecodeError → VerifyError
  | .invalidOpcode byte offset => invalidOpcode byte offset
  | e => decode e

end VerifyError

/-! ### Operands -/

namespace Located

/-- The complaint that an operand is out of range. -/
def invalidOperand (i : Located) (value : Int) : Except VerifyError Unit :=
  .error (.invalidOperand i.instr.opcode value i.offset)

/-- Check that the operands of an instruction are in range: locals and
constants exist, flags and tags are known, counts of values are not zero. -/
def checkOperands (i : Located) (localCount : Nat) (constants : ConstantPool) :
    Except VerifyError Unit :=
  match i.instr with
  | .loadLocal slot | .storeLocal slot =>
    if localCount ≤ slot.toNat then .error (.invalidLocalRef slot.toNat localCount i.offset)
    else .ok ()
  | .constStr index | .loadGlobal index =>
    if (constants.get? index.toNat).isNone then .error (.invalidConstantRef index.toNat i.offset)
    else .ok ()
  | .addDisposable b | .iterClose b | .chainDisposeError b =>
    if 1 < b.toNat then i.invalidOperand b.toNat else .ok ()
  | .resourceField b =>
    if (Field.ofByte? b).isNone then i.invalidOperand b.toNat else .ok ()
  | .popN n | .pick n | .unpick n =>
    if n = 0 then i.invalidOperand 0 else .ok ()
  | _ => .ok ()

end Located

/-! ### Depths -/

/-- A way into an instruction: its position in the code, and the depth of the
operand stack on that way. -/
structure Arrival where
  position : Nat
  depth : Nat
  deriving DecidableEq, Repr

/-- What is known while depths are found: the depth at each instruction that
was reached, and the instructions whose successors are still to be visited. -/
structure Depths where
  depth : Array (Option Nat)
  pending : List Nat

namespace Depths

/-- Only the first instruction is reached, with an empty stack. -/
def initial (size : Nat) : Depths :=
  ⟨(Array.replicate size none).setIfInBounds 0 (some 0), [0]⟩

/-- The position of the instruction at an offset that a jump leads to. -/
def resolve (code : Array Located) (i : Located) (target : Nat) : Except VerifyError Nat :=
  match code.findIdx? (·.offset == target) with
  | some k => .ok k
  | none => .error (.invalidJumpTarget target i.offset)

/-- The position after `k`. -/
def fallThrough (code : Array Located) (k : Nat) (i : Located) : Except VerifyError Nat :=
  if k + 1 < code.size then .ok (k + 1) else .error (.fallOffEnd i.offset)

/-- The successor at a handler, which starts with `extra` values on the stack. -/
def handlerSuccessor (code : Array Located) (i : Located) (depth extra : Nat) :
    Option Nat → Except VerifyError (List Arrival)
  | some target => do .ok [⟨← resolve code i target, depth + extra⟩]
  | none => .ok []

/-- The successors of an instruction in the order they are visited, each with
the depth at which it is reached: from `before` at a handler, else from `after`. -/
def successors (code : Array Located) (k : Nat) (i : Located) (before after : Nat) :
    Except VerifyError (List Arrival) :=
  match i.instr with
  | .throw | .retRval => .ok []
  | .jmp d => do .ok [⟨← resolve code i (i.target d), after⟩]
  | .jmpIfFalse d | .jmpIfTrue d => do
    let next ← fallThrough code k i
    let target ← resolve code i (i.target d)
    .ok [⟨next, after⟩, ⟨target, after⟩]
  | .tryStart c f => do
    let next ← fallThrough code k i
    match i.handlerTarget? c, i.handlerTarget? f with
    | none, none => .error (.invalidOperand .tryStart (-1) i.offset)
    | catchTarget, finallyTarget =>
      let onCatch ← handlerSuccessor code i before 1 catchTarget
      let onFinally ← handlerSuccessor code i before 2 finallyTarget
      .ok (⟨next, after⟩ :: onCatch ++ onFinally)
  | _ => do .ok [⟨← fallThrough code k i, after⟩]

/-- The depth after an instruction that is reached at depth `before`. -/
def depthAfter (i : Located) (before maxStack : Nat) : Except VerifyError Nat :=
  let effect := i.instr.stackEffect
  if before < effect.pops then .error (.stackUnderflow i.offset)
  else
    let after := before - effect.pops + effect.pushes
    if maxStack < after ∨ maxStack < before then
      .error (.stackOverflow i.offset (max after before))
    else .ok after

/-- Record that an instruction is reached at a depth. -/
def visit (code : Array Located) (s : Depths) (a : Arrival) : Except VerifyError Depths :=
  match s.depth[a.position]? with
  | some (some known) =>
    if known ≠ a.depth then
      .error (.stackMismatch ((code[a.position]?.map (·.offset)).getD 0) known a.depth)
    else .ok s
  | some none => .ok ⟨s.depth.setIfInBounds a.position (some a.depth), a.position :: s.pending⟩
  | none => .ok s

/-- Visit several instructions. -/
def visitAll (code : Array Located) : Depths → List Arrival → Except VerifyError Depths
  | s, [] => .ok s
  | s, a :: rest =>
    match visit code s a with
    | .error e => .error e
    | .ok s' => visitAll code s' rest

/-- Visit the successors of the instruction at `k`. -/
def advance (code : Array Located) (maxStack : Nat) (s : Depths) (k : Nat) :
    Except VerifyError Depths :=
  match code[k]? with
  | none => .ok s
  | some i => do
    let before := ((s.depth[k]?).getD none).getD 0
    let after ← depthAfter i before maxStack
    let next ← successors code k i before after
    visitAll code s next

/-- How many instructions may still be taken up. -/
def weight (s : Depths) : Nat :=
  s.depth.countP Option.isNone + s.pending.length

theorem weight_visit {code : Array Located} {s s' : Depths} {a : Arrival}
    (h : visit code s a = .ok s') : s'.weight = s.weight := by
  unfold visit at h
  split at h
  · split at h
    · cases h
    · cases h; rfl
  · rename_i hnone
    cases h
    obtain ⟨hlt, hval⟩ := Array.getElem?_eq_some_iff.mp hnone
    have hpos : 0 < s.depth.countP Option.isNone :=
      Array.countP_pos_iff.mpr ⟨s.depth[a.position], Array.getElem_mem hlt, by rw [hval]; rfl⟩
    simp only [weight, Array.setIfInBounds, hlt, ↓reduceDIte, Array.countP_set, hval,
      Option.isNone_none, Option.isNone_some, ↓reduceIte, Bool.false_eq_true, List.length_cons]
    omega
  · cases h; rfl

theorem weight_visitAll {code : Array Located} : ∀ {s s' : Depths} {as : List Arrival},
    visitAll code s as = .ok s' → s'.weight = s.weight
  | s, s', [], h => by cases h; rfl
  | s, s', a :: rest, h => by
    unfold visitAll at h
    split at h
    · cases h
    · rename_i hv
      rw [weight_visitAll h, weight_visit hv]

/-- Visiting successors turns unreached instructions into pending ones. -/
theorem weight_advance {code : Array Located} {maxStack k : Nat} {s s' : Depths}
    (h : advance code maxStack s k = .ok s') : s'.weight = s.weight := by
  unfold advance at h
  split at h
  · cases h; rfl
  · simp only [bind, Except.bind] at h
    split at h
    · cases h
    · split at h
      · cases h
      · exact weight_visitAll h

/-- Take up pending instructions, the last found first, until none is left. -/
def explore (code : Array Located) (maxStack : Nat) (s : Depths) : Except VerifyError Depths :=
  match hp : s.pending with
  | [] => .ok s
  | k :: rest =>
    match ha : advance code maxStack ⟨s.depth, rest⟩ k with
    | .error e => .error e
    | .ok s' =>
      have : s'.weight < s.weight := by
        rw [weight_advance ha]
        simp [weight, hp]
      explore code maxStack s'
termination_by s.weight

end Depths

/-! ### Functions and modules -/

/-- The instructions of a function that is to be verified. -/
def Function.readable (f : Function) : Except VerifyError (List Located) :=
  (Located.ofCode f.code).mapError VerifyError.ofDecodeError

/-- Check every instruction's operands, in order. -/
def Function.checkOperands (f : Function) (constants : ConstantPool) :
    List Located → Except VerifyError Unit
  | [] => .ok ()
  | i :: rest => do
    i.checkOperands f.localCount constants
    f.checkOperands constants rest

/-- Check that a code ends with an instruction that never falls through. -/
def Function.checkEnd (lines : List Located) : Except VerifyError Unit :=
  match lines.getLast? with
  | none => .error (.fallOffEnd 0)
  | some last =>
    if last.instr.opcode.isTerminator then .ok () else .error (.fallOffEnd last.offset)

/-- The depths of a function's code over a pool, if it is fit to run. -/
def Function.depths (f : Function) (constants : ConstantPool) : Except VerifyError Depths := do
  let lines ← f.readable
  Function.checkEnd lines
  f.checkOperands constants lines
  Depths.explore lines.toArray f.maxStack (.initial lines.length)

/-- Check that a function is fit to run. -/
def Function.verify (f : Function) (constants : ConstantPool) : Except VerifyError Unit := do
  let _ ← f.depths constants
  .ok ()

/-- Check a list of functions, in order. -/
def Module.verifyFunctions (constants : ConstantPool) : List Function → Except VerifyError Unit
  | [] => .ok ()
  | f :: rest => do
    f.verify constants
    Module.verifyFunctions constants rest

/-- Check that a module is fit to run. -/
def Module.verify (m : Module) : Except VerifyError Unit := do
  m.check.mapError .moduleFlaw
  Module.verifyFunctions m.constants m.functions

end ResourceMachine
