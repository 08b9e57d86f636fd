/-
# Places in functions

A statement stands at a place: in a block, between other statements, and that block is the body of
a function, or it belongs to a statement that stands at a place itself. A function without the
statement at one place is an outline. What a call of a function does is told by its outline and by
what the statement does, so functions can be compared that differ at one place only.

Key definitions: `Block.Holder`, `Block.Place`, `Declaration.Outline`.
Key theorems: `Block.Place.exec_fill`, `Declaration.Outline.call_fill`.
-/
import ResourceMachine.Proofs.TwinEvaluation

namespace ResourceMachine

variable {σ : Type}

namespace Block

/-! ### Statements with a block left out -/

/-- A statement that lacks one of its blocks. -/
inductive Holder where
  | block
  | yes (cond : Expr) (other : List Stmt)
  | no (cond : Expr) (other : List Stmt)
  | whileLoop (label : Option String) (cond : Expr)
  | forOf (label : Option String) (binding : String) (hint : Option Hint) (iterable : Expr)
  | tryBody (param : Option String) (handler : List Stmt)
  | catchBody (body : List Stmt) (param : Option String)

namespace Holder

/-- The statement with its block. -/
def fill (b : List Stmt) : Holder → Stmt
  | block => .block b
  | yes cond other => .ifElse cond b other
  | no cond other => .ifElse cond other b
  | whileLoop label cond => .whileLoop label cond b
  | forOf label binding hint iterable => .forOf label binding hint iterable b
  | tryBody param handler => .tryCatch b param handler
  | catchBody body param => .tryCatch body param b

theorem isUsing_fill (b : List Stmt) (h : Holder) : (h.fill b).isUsing = false := by
  cases h <;> rfl

end Holder

section

variable (host : Host σ) (kind : FunctionKind) (n : Nat)

/-- Run a block of statements. -/
def run (b : List Stmt) (env : Bindings) : Eval σ Exit :=
  Eval.block host kind (b.any Stmt.isUsing) (Stmt.execAll host kind n b env)

/-- Execute a statement whose block is run so. -/
def Holder.exec (inner : Bindings → Eval σ Exit) : Holder → Bindings → Eval σ (Exit × Bindings)
  | block, env => do
    let x ← inner env
    return (x, env)
  | yes cond other, env => do
    let v ← cond.eval host env
    let x ← if v.isTruthy then inner env else run host kind n other env
    return (x, env)
  | no cond other, env => do
    let v ← cond.eval host env
    let x ← if v.isTruthy then run host kind n other env else inner env
    return (x, env)
  | whileLoop label cond, env => do
    let x ← Eval.whileLoop label (cond.eval host env) (inner env) n
    return (x, env)
  | forOf label binding hint iterable, env => do
    let id ← Eval.iterate (← iterable.eval host env)
    let round := fun v =>
      let body := inner ((binding, v) :: env)
      match hint with
      | some hint => Eval.roundInScope host kind v hint body
      | none => body
    let x ← Eval.forLoop label id round n
    return (x, env)
  | tryBody param handler, env => do
    match ← Eval.attempt (inner env) with
    | .ok x => return (x, env)
    | .error e =>
      if kind.isGenerator && e.isClosing then Eval.raise e
      else
        let x ← run host kind n handler (env.caught param e)
        return (x, env)
  | catchBody body param, env => do
    match ← Eval.attempt (run host kind n body env) with
    | .ok x => return (x, env)
    | .error e =>
      if kind.isGenerator && e.isClosing then Eval.raise e
      else
        let x ← inner (env.caught param e)
        return (x, env)

theorem Holder.exec_fill (b : List Stmt) (h : Holder) (env : Bindings) :
    h.exec host kind n (run host kind n b) env = (h.fill b).exec host kind n env := by
  cases h <;> rw [fill, Stmt.exec] <;> rfl

end

/-! ### Blocks with a statement left out -/

/-- A block that lacks one statement, or in which a statement lacks one. -/
inductive Place where
  | here (before after : List Stmt)
  | inside (before : List Stmt) (holder : Holder) (inner : Place) (after : List Stmt)

namespace Place

/-- The block with its statement. -/
def fill (s : Stmt) : Place → List Stmt
  | here before after => before ++ s :: after
  | inside before holder inner after => before ++ holder.fill (inner.fill s) :: after

/-- Whether the block declares resources, if the statement at the place does not. -/
def disposes : Place → Bool
  | here before after | inside before _ _ after => (before ++ after).any Stmt.isUsing

theorem any_isUsing_fill {s : Stmt} (hs : s.isUsing = false) (p : Place) :
    (p.fill s).any Stmt.isUsing = p.disposes := by
  cases p with
  | here before after => simp [fill, disposes, hs]
  | inside before holder inner after => simp [fill, disposes, holder.isUsing_fill]

section

variable (host : Host σ) (kind : FunctionKind) (n : Nat)

/-- Execute the statements of a block, between which something else is executed. -/
def between (before after : List Stmt) (middle : Bindings → Eval σ (Exit × Bindings)) (env : Bindings) :
    Eval σ Exit := do
  let (x, env) ← Stmt.execThrough host kind n before env
  if x.isNormal then
    let l ← middle env
    Stmt.goOn host kind n after l
  else return x

theorem between_eq (before after : List Stmt) (s : Stmt) (env : Bindings) :
    between host kind n before after (s.exec host kind n) env =
      Stmt.execAll host kind n (before ++ s :: after) env := by
  rw [Stmt.execAll_append]
  refine congrArg (Stmt.execThrough host kind n before env >>= ·) (funext fun l => ?_)
  rw [Stmt.goOn, Stmt.execAll]
  rfl

/-- Execute a block with this at its place. -/
def exec (middle : Bindings → Eval σ (Exit × Bindings)) : Place → Bindings → Eval σ Exit
  | here before after, env => between host kind n before after middle env
  | inside before holder inner after, env =>
    between host kind n before after
      (holder.exec host kind n fun env => Eval.block host kind inner.disposes (inner.exec middle env)) env

/-- Run a block with this at its place. -/
def run (middle : Bindings → Eval σ (Exit × Bindings)) (p : Place) (env : Bindings) : Eval σ Exit :=
  Eval.block host kind p.disposes (p.exec host kind n middle env)

/-- A block does what its place does with the statement there. -/
theorem exec_fill {s : Stmt} (hs : s.isUsing = false) : ∀ (p : Place) (env : Bindings),
    p.exec host kind n (s.exec host kind n) env = Stmt.execAll host kind n (p.fill s) env
  | here before after, env => between_eq host kind n before after s env
  | inside before holder inner after, env => by
    have hinner : (fun env => Eval.block host kind inner.disposes (inner.exec host kind n (s.exec host kind n) env)) =
        Block.run host kind n (inner.fill s) := by
      funext env
      rw [exec_fill hs inner env, Block.run, any_isUsing_fill hs]
    have hholder : holder.exec host kind n (Block.run host kind n (inner.fill s)) =
        (holder.fill (inner.fill s)).exec host kind n := funext fun env => holder.exec_fill host kind n _ env
    rw [exec, hinner, hholder, between_eq, fill]

theorem run_fill {s : Stmt} (hs : s.isUsing = false) (p : Place) (env : Bindings) :
    p.run host kind n (s.exec host kind n) env = Block.run host kind n (p.fill s) env := by
  rw [run, exec_fill host kind n hs, Block.run, any_isUsing_fill hs]

end

end Place
end Block

/-! ### Functions with a statement left out -/

/-- A function that lacks one statement. -/
structure Declaration.Outline where
  name : String
  kind : FunctionKind
  params : List String
  place : Block.Place

namespace Declaration.Outline

/-- The function with its statement. -/
def fill (o : Outline) (s : Stmt) : Declaration := ⟨o.name, o.kind, o.params, o.place.fill s⟩

variable (host : Host σ) (n : Nat)

/-- The value that a call returns whose body was left so. -/
def answer : Exit → Eval σ Value
  | .ret v => return v
  | _ => do
    Eval.returnValue .undefined
    return .undefined

/-- The value that a call returns with this at the place. -/
def call (middle : Bindings → Eval σ (Exit × Bindings)) (o : Outline) (args : List Value) : Eval σ Value := do
  let x ← o.place.run host o.kind n middle ((o.fill (.ret none)).bind args)
  answer x

/-- A function does what its outline does with the statement there. -/
theorem call_fill {s : Stmt} (hs : s.isUsing = false) (o : Outline) (args : List Value) :
    o.call host n (s.exec host o.kind n) args = (o.fill s).call host n args := by
  rw [call, Block.Place.run_fill host o.kind n hs]
  rfl

end Declaration.Outline
end ResourceMachine
