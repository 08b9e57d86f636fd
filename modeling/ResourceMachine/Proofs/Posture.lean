/-
# Postures

What compiled code alone tells of a frame that comes to an offset: the depth of the
operand stack, the handlers that are installed with the places where they were, and the
scopes that are entered. Of a scope it tells whether it may hold a record that is disposed
with an await.

An exception changes the posture to that of a handler. The handler counts on the scopes
that are entered when it is reached, so an instruction that throws has to stand where no
more of them may hold such records than the handler counts on, and no scope is entered
beyond those.

Key definitions: `Fence`, `Nesting`, `Nesting.Level`, `Posture`, `Instr.Throws`,
`Instr.renests`, `Instr.behind`.
-/
import ResourceMachine.Code.StackDepth
import Mathlib.Data.List.Forall2

namespace ResourceMachine

/-! ### Handlers and scopes -/

/-- A handler: where it was installed, and at which depth of the operand stack. Of the scopes
that are entered when it is reached, the marked ones may hold records that are disposed with
an await. -/
structure Fence where
  site : Nat
  depth : Nat
  scopes : List Bool

/-- The handlers that are installed and the scopes that are entered, the innermost first. -/
structure Nesting where
  fences : List Fence
  scopes : List Bool
  deriving Inhabited

/-- The same scopes, of which no more are marked. -/
def Fewer : List Bool → List Bool → Prop := List.Forall₂ fun b c => b = true → c = true

theorem Fewer.refl (bs : List Bool) : Fewer bs bs := List.forall₂_same.mpr fun _ _ => id

/-- Only the first of the scopes may have been marked since. -/
theorem Fewer.head {b c : Bool} {bs : List Bool} (h : b = true → c = true) :
    Fewer (b :: bs) (c :: bs) := List.Forall₂.cons h (refl bs)

namespace Nesting

/-- Nothing is installed and nothing is entered. -/
def bare : Nesting := ⟨[], []⟩

/-- The depth of the operand stack below which the innermost handler leaves everything. -/
def base (N : Nesting) : Nat :=
  match N.fences with
  | [] => 0
  | f :: _ => f.depth

/-- The innermost handler may be reached from here. -/
def Level (N : Nesting) : Prop :=
  match N.fences with
  | [] => True
  | f :: _ => Fewer N.scopes f.scopes

/-- Code that throws, and takes nothing below `depth`, may stand here. -/
structure Stands (N : Nesting) (depth : Nat) : Prop where
  base_le : N.base ≤ depth
  level : N.Level

/-- With a handler installed. -/
def guarded (N : Nesting) (f : Fence) : Nesting := ⟨f :: N.fences, N.scopes⟩

/-- With the innermost handler removed. -/
def unguarded (N : Nesting) : Nesting := ⟨N.fences.tail, N.scopes⟩

/-- With a scope entered. -/
def entered (N : Nesting) : Nesting := ⟨N.fences, false :: N.scopes⟩

/-- With the innermost scope exited. -/
def exited (N : Nesting) : Nesting := ⟨N.fences, N.scopes.tail⟩

/-- With a declaration in the innermost scope, which is async or not. -/
def noting (N : Nesting) (async : Bool) : Nesting :=
  match N.scopes with
  | [] => N
  | b :: outer => ⟨N.fences, (b || async) :: outer⟩

/-- Whether the innermost scope may hold records that are disposed with an await. -/
def MayAwait (N : Nesting) : Prop := N.scopes.head? = some true

variable {N : Nesting} {f : Fence} {a b : Bool}

theorem Stands.deeper {d : Nat} (h : N.Stands d) (k : Nat) : N.Stands (d + k) :=
  ⟨Nat.le_add_right_of_le h.base_le, h.level⟩

@[simp] theorem base_bare : bare.base = 0 := rfl

@[simp] theorem base_guarded : (N.guarded f).base = f.depth := rfl

@[simp] theorem base_entered : N.entered.base = N.base := rfl

@[simp] theorem base_exited : N.exited.base = N.base := rfl

@[simp] theorem base_noting : (N.noting a).base = N.base := by
  unfold noting
  split <;> rfl

@[simp] theorem unguarded_guarded : (N.guarded f).unguarded = N := rfl

@[simp] theorem exited_entered : N.entered.exited = N := rfl

@[simp] theorem noting_false : N.noting false = N := by
  obtain ⟨fences, _ | ⟨b, outer⟩⟩ := N
  · rfl
  · simp [noting]

@[simp] theorem noting_noting : (N.noting a).noting b = N.noting (a || b) := by
  obtain ⟨fences, _ | ⟨c, outer⟩⟩ := N
  · rfl
  · simp [noting, Bool.or_assoc]

@[simp] theorem exited_noting : (N.noting a).exited = N.exited := by
  obtain ⟨fences, _ | ⟨b, outer⟩⟩ := N <;> rfl

/-- A handler that counts on more than is marked later may be reached before. -/
theorem Level.of_noting (h : (N.noting (a || b)).Level) : (N.noting a).Level := by
  obtain ⟨_ | ⟨f, fences⟩, _ | ⟨c, outer⟩⟩ := N
  · trivial
  · trivial
  · exact h
  · obtain ⟨bs, c', hc, hbs, hscopes⟩ := List.forall₂_cons_left_iff.mp h
    show Fewer ((c || a) :: outer) f.scopes
    rw [hscopes]
    refine List.Forall₂.cons (fun hca => hc ?_) hbs
    rw [← Bool.or_assoc, hca, Bool.true_or]

end Nesting

/-! ### Instructions -/

/-- The depth of the operand stack, the handlers and scopes around, and whether the value on
top is known to be undefined. -/
structure Posture where
  depth : Nat
  nesting : Nesting
  voided : Bool

/-- Inside of these handlers and scopes, with this many values. -/
def Nesting.at (N : Nesting) (depth : Nat) : Posture := ⟨depth, N, false⟩

/-- With nothing known of the value on top. -/
def Posture.settled (P : Posture) : Posture := { P with voided := false }

namespace Instr

/-- Whether an exception may come from an instruction. What is no promise is its own answer
when it is awaited, so none comes from awaiting undefined. -/
@[simp]
def Throws (voided : Bool) : Instr → Prop
  | .getIterator | .throw | .yield => True
  | .await => voided = false
  | .call _ | .loadGlobal _ | .addDisposable _ => True
  | .iterClose onThrow => onThrow ≠ 1
  | _ => False

/-- What an instruction other than `TRY_START` makes of the handlers and scopes. -/
@[simp]
def renests : Instr → Nesting → Nesting
  | .endTry, N => N.unguarded
  | .pushDisposeScope, N => N.entered
  | .popDisposeScope, N => N.exited
  | .addDisposable byte, N => N.noting (byte == Hint.async.byte)
  | _, N => N

/-- What instructions make of the handlers and scopes, one after the other. -/
@[simp]
def renestAll : List Instr → Nesting → Nesting
  | [], N => N
  | i :: is, N => renestAll is (i.renests N)

/-- Whether an instruction leaves undefined on top. -/
@[simp]
def voids : Instr → Bool
  | .constUndefined => true
  | _ => false

/-- The posture where control goes on after an instruction other than `TRY_START`. -/
def behind (i : Instr) (P : Posture) : Posture where
  depth := P.depth - i.stackEffect.pops + i.stackEffect.pushes
  nesting := i.renests P.nesting
  voided := i.voids

end Instr
end ResourceMachine
