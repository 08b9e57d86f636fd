/-
# Operand stacks

A stack holds at most as many values as its capacity allows. Depths count from
the top. An operation that fails leaves the stack as it was.

Key definitions: `OperandStack`, `OperandStack.push`, `OperandStack.pop`,
`OperandStack.pick`, `OperandStack.unpick`, `OperandStack.truncate`.
Key theorems: `OperandStack.pick_eq_ok`, `OperandStack.unpick_eq_ok`.
-/
import ResourceMachine.Machine.Fault

namespace ResourceMachine

/-- Values, the top first, and how many of them there may be. -/
structure OperandStack (α : Type) where
  slots : List α
  capacity : Nat
  deriving DecidableEq, Repr

namespace OperandStack

variable {α : Type}

/-- The capacity of a stack for which none is given. -/
def defaultCapacity : Nat := 65536

/-- A stack without values. -/
def empty (capacity : Nat) : OperandStack α := ⟨[], capacity⟩

/-- The number of values. -/
def depth (s : OperandStack α) : Nat := s.slots.length

/-- The values, the bottom first. -/
def toList (s : OperandStack α) : List α := s.slots.reverse

/-- Put a value on top. -/
def push (s : OperandStack α) (a : α) : Except Fault (OperandStack α) :=
  if s.capacity ≤ s.depth then .error .stackOverflow
  else .ok { s with slots := a :: s.slots }

/-- Take the top value away. -/
def pop (s : OperandStack α) : Except Fault (α × OperandStack α) :=
  match s.slots with
  | [] => .error .stackUnderflow
  | a :: rest => .ok (a, { s with slots := rest })

/-- The value at a depth. -/
def peekAt (s : OperandStack α) (n : Nat) : Except Fault α :=
  match s.slots[n]? with
  | some a => .ok a
  | none => .error .stackUnderflow

/-- The value on top. -/
def peek (s : OperandStack α) : Except Fault α := s.peekAt 0

/-- Move the value at a depth to the top. -/
def pick (s : OperandStack α) (n : Nat) : Except Fault (OperandStack α) :=
  match s.slots[n]? with
  | some a => .ok { s with slots := a :: s.slots.eraseIdx n }
  | none => .error .stackUnderflow

/-- Move the top value down to a depth. -/
def unpick (s : OperandStack α) (n : Nat) : Except Fault (OperandStack α) :=
  match s.slots with
  | a :: rest =>
    if n ≤ rest.length then .ok { s with slots := rest.insertIdx n a } else .error .stackUnderflow
  | [] => .error .stackUnderflow

/-- Exchange the top two values. -/
def swap (s : OperandStack α) : Except Fault (OperandStack α) :=
  match s.slots with
  | a :: b :: rest => .ok { s with slots := b :: a :: rest }
  | _ => .error .stackUnderflow

/-- Drop the values above the `n` lowest. -/
def truncate (s : OperandStack α) (n : Nat) : OperandStack α :=
  { s with slots := s.slots.drop (s.depth - n) }

/-! ### Moving values -/

theorem pick_eq_ok {s : OperandStack α} {n : Nat} (h : n < s.slots.length) :
    s.pick n = .ok { s with slots := s.slots[n] :: s.slots.eraseIdx n } := by
  simp [pick, List.getElem?_eq_getElem h]

theorem unpick_eq_ok {s : OperandStack α} {n : Nat} {a : α} {rest : List α}
    (hs : s.slots = a :: rest) (h : n ≤ rest.length) :
    s.unpick n = .ok { s with slots := rest.insertIdx n a } := by
  simp [unpick, hs, h]

end OperandStack
end ResourceMachine
