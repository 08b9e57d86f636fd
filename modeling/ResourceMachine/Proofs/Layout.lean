/-
# The layout of compiled code

How finished code looks where a piece of syntax was compiled: which instructions
stand one after the other, and where the jumps between them lead. `Line` places
straight code, with the depth of the operand stack before and after it; `Jump`
and `Protect` place what has a target. From these the layout of a disposal pass,
of an expression and of a statement is built along the structure of what is
compiled.

A statement is laid out inside of regions. A `Shape` keeps of a region what the
code that leaves it depends on, so `Leaving` tells how the code of a `break`,
`continue` or `return` continues: the exit of every region that is left, then
the jump.

Key definitions: `Target`, `Target.Line`, `Target.Jump`, `Target.Protect`,
`Target.Pass`, `Shape`, `Target.Leaving`, `Expr.Laid`, `Stmt.Laid`.
-/
import ResourceMachine.Proofs.Evaluation
import ResourceMachine.Proofs.Placement
import ResourceMachine.Source.Lowering

namespace ResourceMachine

/-- A finished function, as far as its code depends on it. Constants are found by
a word. -/
structure Target where
  code : Bytes
  constants : ConstantPool
  kind : FunctionKind
  maxStack : Nat
  localCount : Nat
  addressable : constants.size ≤ 4294967296

namespace Target

variable (t : Target)

/-! ### Straight code and jumps -/

/-- Instructions stand one after the other from `p` to `q`. They take the operand
stack from depth `d` to depth `d'`, never below what they pop and never above
what the function declares. -/
def Line : (d p : Nat) → List Instr → (d' q : Nat) → Prop
  | d, p, [], d', q => d' = d ∧ q = p
  | d, p, i :: is, d', q =>
    t.code.Has p i ∧ i.stackEffect.pops ≤ d ∧
      d - i.stackEffect.pops + i.stackEffect.pushes ≤ t.maxStack ∧
      Line (d - i.stackEffect.pops + i.stackEffect.pushes) (p + i.size) is d' q

/-- A jump stands at `p` and leads to `target`. -/
def Jump (kind : JumpKind) (p target : Nat) : Prop :=
  ∃ distance, t.code.Has p (kind.instr distance) ∧
    Exec.target t.code.size (p + 5) distance = .ok target

/-- A protected region starts at `p`, with these handlers. -/
def Protect (p : Nat) (onCatch onFinally : Option Nat) : Prop :=
  ∃ c f, t.code.Has p (.tryStart c f) ∧
    Exec.handlerTarget? t.code.size (p + 9) c = .ok onCatch ∧
    Exec.handlerTarget? t.code.size (p + 9) f = .ok onFinally

/-- The text at an index. -/
def Text (index : UInt32) (s : String) : Prop := t.constants.get? index.toNat = some s

variable {t}

theorem Line.nil {d p : Nat} : t.Line d p [] d p := ⟨rfl, rfl⟩

/-- Straight code goes on where straight code ends. -/
theorem Line.append : ∀ {d p d' q d'' r : Nat} {is js : List Instr}, t.Line d p is d' q →
    t.Line d' q js d'' r → t.Line d p (is ++ js) d'' r
  | _, _, _, _, _, _, [], _, ⟨hd, hq⟩, h' => by
    subst hd hq
    exact h'
  | _, _, _, _, _, _, _ :: _, _, ⟨hhas, hpops, hmax, hrest⟩, h' =>
    ⟨hhas, hpops, hmax, hrest.append h'⟩

/-- The depth of the operand stack after instructions. -/
def depthAfter (d : Nat) (is : List Instr) : Nat :=
  is.foldl (fun d i => d - i.stackEffect.pops + i.stackEffect.pushes) d

/-- Straight code can be cut anywhere. -/
theorem Line.cut : ∀ {d p d'' r : Nat} (is : List Instr) {js : List Instr},
    t.Line d p (is ++ js) d'' r →
    ∃ q, t.Line d p is (depthAfter d is) q ∧ t.Line (depthAfter d is) q js d'' r
  | _, _, _, _, [], _, h => ⟨_, Line.nil, h⟩
  | _, _, _, _, _ :: is, _, ⟨hhas, hpops, hmax, hrest⟩ =>
    have ⟨q, his, hjs⟩ := Line.cut is hrest
    ⟨q, ⟨hhas, hpops, hmax, his⟩, hjs⟩

end Target

/-! ### Locals -/

/-- The locals of a pass stand one after the other, from `base` on. -/
structure PassSlots.From (s : PassSlots) (base : Nat) : Prop where
  throwing : s.throwing.toNat = base
  exception : s.exception.toNat = base + 1
  resources : s.resources.toNat = base + 2
  index : s.index.toNat = base + 3
  resource : s.resource.toNat = base + 4
  needsAwait : s.needsAwait.toNat = base + 5
  hasAwaited : s.hasAwaited.toNat = base + 6
  rval : s.rval.toNat = base + 7

/-- The number of values that a pass takes up when it starts. -/
def Seed.values : Seed → Nat
  | .normal => 0
  | .thrown => 1

namespace Target

variable (t : Target)

/-- A local that no binding in `scope` has. -/
def Fresh (scope : Scope) (slot : UInt16) : Prop :=
  slot.toNat < t.localCount ∧ ∀ b ∈ scope, b.2.toNat ≠ slot.toNat

/-- Locals for a pass that no binding in `scope` has. -/
def FreshSlots (scope : Scope) (s : PassSlots) : Prop :=
  ∃ base, s.From base ∧ base + 8 ≤ t.localCount ∧
    ∀ b ∈ scope, b.2.toNat < base ∨ base + 8 ≤ b.2.toNat

/-! ### Disposal passes -/

section

variable (s : PassSlots)

/-- The code of `Emitter.awaitBeforeSync`. -/
def AwaitBefore (d p q : Nat) : Prop :=
  ∃ m,
    t.Line d p
      [.loadLocal s.resource, .resourceField Field.hint.byte, .not, .loadLocal s.needsAwait, .and,
       .loadLocal s.hasAwaited, .not, .and] (d + 1) m ∧
    t.Jump .ifFalse m q ∧
    t.Line d (m + 5) [.constUndefined, .await, .pop, .constFalse, .storeLocal s.needsAwait] d q

/-- The code of `Emitter.awaitResult`. -/
def AwaitResult (d p q : Nat) : Prop :=
  ∃ m,
    t.Line (d + 1) p [.loadLocal s.resource, .resourceField Field.hint.byte] (d + 2) m ∧
    t.Jump .ifFalse m q ∧
    t.Line (d + 1) (m + 5) [.constTrue, .storeLocal s.hasAwaited, .await] (d + 1) q

/-- The code of `Emitter.callDispose`. -/
def CallDispose (awaits unwrapClosing : Bool) (d p q : Nat) : Prop :=
  ∃ m₁ m₂ m₃,
    t.Protect p (some (m₃ + 5)) none ∧
    t.Line d (p + 9)
      [.loadLocal s.resource, .resourceField Field.method.byte,
       .loadLocal s.resource, .resourceField Field.value.byte, .call 0] (d + 1) m₁ ∧
    (if awaits then t.AwaitResult s d m₁ m₂ else m₂ = m₁) ∧
    t.Line (d + 1) m₂ [.pop, .endTry] d m₃ ∧
    t.Jump .always m₃ q ∧
    t.Line (d + 1) (m₃ + 5)
      [.loadLocal s.exception, .loadLocal s.throwing,
       .chainDisposeError (if unwrapClosing then 1 else 0),
       .storeLocal s.exception, .constTrue, .storeLocal s.throwing] d q

/-- The code of `Emitter.disposeRecord`. -/
def DisposeRecord (awaits unwrapClosing : Bool) (d p q : Nat) : Prop :=
  ∃ m₀ m₁ m₂,
    (if awaits then t.AwaitBefore s d p m₀ else m₀ = p) ∧
    t.Line d m₀ [.loadLocal s.resource, .resourceField Field.method.byte, .isNullish] (d + 1) m₁ ∧
    t.CallDispose s awaits unwrapClosing d (m₁ + 5) m₂ ∧
    if awaits then
      t.Jump .ifTrue m₁ (m₂ + 5) ∧ t.Jump .always m₂ q ∧
        t.Line d (m₂ + 5) [.constTrue, .storeLocal s.needsAwait] d q
    else t.Jump .ifTrue m₁ q ∧ q = m₂

/-- The code of `Emitter.disposeRecords`. -/
def DisposeRecords (awaits unwrapClosing : Bool) (d p q : Nat) : Prop :=
  ∃ m₁ m₂ m₃ m₄,
    t.Line d p [.loadLocal s.index, .constI32 0, .ige] (d + 1) m₁ ∧
    t.Jump .ifFalse m₁ q ∧
    t.Line d (m₁ + 5)
      [.loadLocal s.resources, .loadLocal s.index, .getElem, .storeLocal s.resource] d m₂ ∧
    t.DisposeRecord s awaits unwrapClosing d m₂ m₃ ∧
    t.Line d m₃ [.loadLocal s.index, .dec, .storeLocal s.index] d m₄ ∧
    t.Jump .always m₄ p ∧ q = m₄ + 5

/-- The code of `Emitter.startPass`. -/
def StartPass (awaits : Bool) (seed : Seed) (d p q : Nat) : Prop :=
  ∃ m₁ m₂,
    t.Line (d + seed.values) p
      (if awaits then
        [.getRval, .storeLocal s.rval, .constFalse, .storeLocal s.needsAwait,
         .constFalse, .storeLocal s.hasAwaited]
      else []) (d + seed.values) m₁ ∧
    t.Line (d + seed.values) m₁
      (match seed with
      | .thrown => [.storeLocal s.exception, .constTrue]
      | .normal => [.constUndefined, .storeLocal s.exception, .constFalse]) (d + 1) m₂ ∧
    t.Line (d + 1) m₂
      [.storeLocal s.throwing, .takeDisposeCapability, .dec, .storeLocal s.index,
       .storeLocal s.resources] d q

/-- The code of `Emitter.awaitOwed`. -/
def AwaitOwed (d p q : Nat) : Prop :=
  ∃ m,
    t.Line d p [.loadLocal s.needsAwait, .loadLocal s.hasAwaited, .not, .and] (d + 1) m ∧
    t.Jump .ifFalse m q ∧
    t.Line d (m + 5) [.constUndefined, .await, .pop] d q

/-- The code of `Emitter.finishPass`. -/
def FinishPass (awaits : Bool) (d p q : Nat) : Prop :=
  ∃ m₁ m₂,
    (if awaits then t.AwaitOwed s d p m₁ else m₁ = p) ∧
    t.Line d m₁
      [.constUndefined, .storeLocal s.resources, .constUndefined, .storeLocal s.resource,
       .loadLocal s.exception, .loadLocal s.throwing] (d + 2) m₂ ∧
    t.Line (d + 2) m₂ (if awaits then [.loadLocal s.rval, .setRval] else []) (d + 2) q

/-- The code of `Emitter.disposalPass`. -/
def Pass (awaits : Bool) (seed : Seed) (d p q : Nat) : Prop :=
  ∃ m₁ m₂,
    t.StartPass s awaits seed d p m₁ ∧
    t.DisposeRecords s awaits (t.kind.isGenerator && seed == .thrown) d m₁ m₂ ∧
    t.FinishPass s awaits d m₂ q

end

/-- The code of `Emitter.throwIfException`. -/
def ThrowIfException (d p q : Nat) : Prop :=
  t.Jump .ifFalse p (p + 6) ∧ t.Line (d + 1) (p + 5) [.throw] d (p + 6) ∧
    t.Line (d + 1) (p + 6) [.pop] d q

/-- The code of `DisposalScope.leave`. -/
def Leave (scope : Scope) (awaits : Bool) (d p q : Nat) : Prop :=
  ∃ s m, t.FreshSlots scope s ∧ t.Pass s awaits .normal d p m ∧ t.ThrowIfException d m q

/-- The code of a pass with the exception on top pending. -/
def LeaveByThrow (scope : Scope) (awaits : Bool) (d p q : Nat) : Prop :=
  ∃ s, t.FreshSlots scope s ∧ t.Pass s awaits .thrown d p q

end Target

/-! ### Leaving regions -/

/-- What the code that leaves a region depends on. A region that disposes has
`room` for so many registrations that are still to come; a loop leads to the
start of its next round and to what follows it. -/
inductive Shape where
  | disposable (awaits : Bool) (room : Nat)
  | tryCatch
  | loop (label : Option String) (isForOf : Bool) (continueTo breakTo : Nat)
  | iteration (awaits : Option Bool)

namespace Shape

/-- Whether an exit goes on with the next round of this loop. -/
def isContinuedBy (x : Exit) : Shape → Bool
  | loop label _ _ _ => x.continues label
  | _ => false

/-- Whether an exit goes on behind this loop. -/
def isBrokenBy (x : Exit) : Shape → Bool
  | loop label _ _ _ => x.breaks label
  | _ => false

/-- Where the next round of a loop starts. -/
def continueTo : Shape → Nat
  | loop _ _ target _ => target
  | _ => 0

/-- Where code goes on behind a loop. -/
def breakTo : Shape → Nat
  | loop _ _ _ target => target
  | _ => 0

end Shape

/-- Whether an exit leaves the function. -/
def Exit.isReturn : Exit → Bool
  | ret _ => true
  | _ => false

namespace Target

variable (t : Target) (scope : Scope)

/-- The code of `Region.exit`. -/
def ExitOf : Shape → (d p d' q : Nat) → Prop
  | .disposable awaits _, d, p, d', q =>
    ∃ m, t.Leave scope awaits d p m ∧ t.Line d m [.endTry, .popDisposeScope] d' q
  | .tryCatch, d, p, d', q => t.Line d p [.endTry] d' q
  | .loop _ isForOf _ _, d, p, d', q => t.Line d p (if isForOf then [.iterClose 0] else []) d' q
  | .iteration none, d, p, d', q => t.Line d p [.endTry] d' q
  | .iteration (some awaits), d, p, d', q =>
    ∃ m, t.Leave scope awaits d p m ∧ t.Line d m [.popDisposeScope, .endTry] d' q

/-- The code that leaves regions, the innermost first, until the loop that the
exit means, or all of them. -/
def Leaving : List Shape → Exit → (d p q : Nat) → Prop
  | [], x, d, p, q => x.isReturn ∧ t.Line d p [.retRval] d q
  | r :: rs, x, d, p, q =>
    if r.isContinuedBy x then t.Jump .always p r.continueTo ∧ q = p + 5
    else ∃ d' m, t.ExitOf scope r d p d' m ∧
      if r.isBrokenBy x then t.Jump .always m r.breakTo ∧ q = m + 5 else Leaving rs x d' m q

/-- Code starts that leaves regions. -/
def LeavesFrom (rs : List Shape) (x : Exit) (d p : Nat) : Prop := ∃ q, t.Leaving scope rs x d p q

variable {t scope}

/-- The code that leaves regions leaves the innermost one first. -/
theorem LeavesFrom.cons {r : Shape} {rs : List Shape} {x : Exit} {d p : Nat}
    (h : t.LeavesFrom scope (r :: rs) x d p) :
    if r.isContinuedBy x then t.Jump .always p r.continueTo
    else ∃ d' m, t.ExitOf scope r d p d' m ∧
      if r.isBrokenBy x then t.Jump .always m r.breakTo else t.LeavesFrom scope rs x d' m := by
  obtain ⟨q, h⟩ := h
  unfold Leaving at h
  split at h
  · rw [if_pos ‹_›]
    exact h.1
  · obtain ⟨d', m, hexit, hrest⟩ := h
    rw [if_neg ‹_›]
    refine ⟨d', m, hexit, ?_⟩
    split at hrest
    · rw [if_pos ‹_›]
      exact hrest.1
    · rw [if_neg ‹_›]
      exact ⟨q, hrest⟩

end Target

/-! ### Expressions -/

section

variable (t : Target) (scope : Scope)

mutual

/-- The code of `Expr.lower`, where names are bound as in `scope`. -/
def Expr.Laid : Expr → (d p q : Nat) → Prop
  | .undefined, d, p, q => t.Line d p [.constUndefined] (d + 1) q
  | .null, d, p, q => t.Line d p [.constNull] (d + 1) q
  | .bool b, d, p, q => t.Line d p [if b then .constTrue else .constFalse] (d + 1) q
  | .int n, d, p, q => t.Line d p [.constI32 n] (d + 1) q
  | .str s, d, p, q => ∃ index, t.Text index s ∧ t.Line d p [.constStr index] (d + 1) q
  | .binding name, d, p, q =>
    ∃ slot, scope.lookup name = some slot ∧ t.Line d p [.loadLocal slot] (d + 1) q
  | .global name, d, p, q => ∃ index, t.Text index name ∧ t.Line d p [.loadGlobal index] (d + 1) q
  | .call callee args, d, p, q =>
    ∃ m₁ m₂ m₃,
      callee.Laid d p m₁ ∧
      t.Line (d + 1) m₁ [.constUndefined] (d + 2) m₂ ∧
      Expr.LaidAll args (d + 2) m₂ m₃ ∧
      args.length ≤ 255 ∧
      t.Line (d + 2 + args.length) m₃ [.call (UInt8.ofNat args.length)] (d + 1) q
  | .await e, d, p, q =>
    t.kind.isAsync ∧ ∃ m, e.Laid d p m ∧ t.Line (d + 1) m [.await] (d + 1) q
  | .yield e, d, p, q =>
    t.kind.isGenerator ∧ ∃ m, e.Laid d p m ∧ t.Line (d + 1) m [.yield] (d + 1) q

/-- The code of `Expr.lowerAll`. -/
def Expr.LaidAll : List Expr → (d p q : Nat) → Prop
  | [], _, p, q => q = p
  | e :: es, d, p, q => ∃ m, e.Laid d p m ∧ Expr.LaidAll es (d + 1) m q

end

end

/-! ### Statements -/

/-- Whether a statement declares an async resource of the block it stands in. -/
def Stmt.isAwaitUsing : Stmt → Bool
  | usingIn _ hint _ => hint == .async
  | _ => false

/-- The code of a block of statements, which depends on the regions around it. A
block that declares resources disposes them. -/
def Target.Block (t : Target) (scope : Scope) (ss : List Stmt) (rs : List Shape)
    (body : List Shape → (d p q : Nat) → Prop) (d p q : Nat) : Prop :=
  if ss.any Stmt.isUsing then
    ∃ m₁ m₂ f m₃ m₄,
      t.Line d p [.pushDisposeScope] d (p + 1) ∧
      t.Protect (p + 1) none (some f) ∧
      body (.disposable false (ss.countP Stmt.isUsing) :: rs) d (p + 10) m₁ ∧
      t.Leave scope (ss.any Stmt.isAwaitUsing) d m₁ m₂ ∧
      t.Line d m₂ [.endTry, .constUndefined, .constFalse] (d + 2) f ∧
      t.Line (d + 2) f [.swap] (d + 2) (f + 1) ∧
      t.LeaveByThrow scope (ss.any Stmt.isAwaitUsing) (d + 1) (f + 1) m₃ ∧
      t.Line (d + 3) m₃ [.pop, .swap, .popDisposeScope] (d + 2) m₄ ∧
      t.ThrowIfException d m₄ q
  else body rs d p q

namespace Target

variable (t : Target) (scope : Scope)

/-- The code of `Lower.openIteration`, for a loop that declares its values. -/
def OpenRound (slot : UInt16) : Option Hint → (d p q : Nat) → Prop
  | some hint, d, p, q =>
    (hint = .async → t.kind.isAsync) ∧
      t.Line d p [.pushDisposeScope, .loadLocal slot, .dup, .addDisposable hint.byte, .pop] d q
  | none, _, p, q => q = p

/-- The code of `Lower.leaveIteration`, for a loop that declares its values. -/
def LeaveRound : Option Hint → (d p q : Nat) → Prop
  | some hint, d, p, q =>
    ∃ m, t.Leave scope (hint == .async) d p m ∧ t.Line d m [.popDisposeScope] d q
  | none, _, p, q => q = p

/-- The code of `Lower.leaveIterationByThrow`, for a loop that declares its values. -/
def LeaveRoundByThrow : Option Hint → (d p q : Nat) → Prop
  | some hint, d, p, q =>
    ∃ m, t.LeaveByThrow scope (hint == .async) d p m ∧
      t.Line (d + 2) m [.pop, .popDisposeScope] (d + 1) q
  | none, _, p, q => q = p

end Target

/-- The code that binds what a handler handles, or drops it. The handler sees the
names of `scope'`. -/
def Target.BindParam (t : Target) (scope : Scope) :
    Option String → (d p : Nat) → (scope' : Scope) → (q : Nat) → Prop
  | some name, d, p, scope', q =>
    ∃ slot, t.Fresh scope slot ∧ t.Line (d + 1) p [.storeLocal slot] d q ∧
      scope' = (name, slot) :: scope
  | none, d, p, scope', q => t.Line (d + 1) p [.pop] d q ∧ scope' = scope

section

variable (t : Target)

/-- The regions around the statement behind a declaration. -/
def Stmt.after : Stmt → List Shape → List Shape
  | .usingIn _ hint _, .disposable awaits room :: rs =>
    .disposable (awaits || hint == .async) (room - 1) :: rs
  | _, rs => rs

mutual

/-- The code of `Stmt.lower`, in regions and where names are bound as in `scope`;
the statements behind it see the names of `scope'`. -/
def Stmt.Laid : Stmt → List Shape → (scope : Scope) → (d p : Nat) → (scope' : Scope) →
    (q : Nat) → Prop
  | .expr e, _, scope, d, p, scope', q =>
    ∃ m, e.Laid t scope d p m ∧ t.Line (d + 1) m [.pop] d q ∧ scope' = scope
  | .letIn name init, _, scope, d, p, scope', q =>
    ∃ m slot,
      init.Laid t scope d p m ∧ t.Fresh scope slot ∧ t.Line (d + 1) m [.storeLocal slot] d q ∧
      scope' = (name, slot) :: scope
  | .usingIn name hint init, rs, scope, d, p, scope', q =>
    ∃ m₁ m₂ slot,
      (∃ awaits room outer, rs = .disposable awaits (room + 1) :: outer) ∧
      (hint = .async → t.kind.isAsync) ∧
      init.Laid t scope d p m₁ ∧ t.Line (d + 1) m₁ [.dup, .addDisposable hint.byte] (d + 1) m₂ ∧
      t.Fresh scope slot ∧ t.Line (d + 1) m₂ [.storeLocal slot] d q ∧
      scope' = (name, slot) :: scope
  | .block body, rs, scope, d, p, scope', q =>
    t.Block scope body rs
      (fun rs d p q => Stmt.LaidAll body rs scope d p q) d p q ∧
    scope' = scope
  | .ifElse cond yes no, rs, scope, d, p, scope', q =>
    ∃ m₁ m₂,
      cond.Laid t scope d p m₁ ∧
      t.Block scope yes rs
        (fun rs d p q => Stmt.LaidAll yes rs scope d p q) d (m₁ + 5) m₂ ∧
      (if no.isEmpty then t.Jump .ifFalse m₁ q ∧ q = m₂
      else
        t.Jump .ifFalse m₁ (m₂ + 5) ∧ t.Jump .always m₂ q ∧
        t.Block scope no rs
          (fun rs d p q => Stmt.LaidAll no rs scope d p q) d (m₂ + 5) q) ∧
      scope' = scope
  | .whileLoop label cond body, rs, scope, d, p, scope', q =>
    ∃ m₁ m₂,
      cond.Laid t scope d p m₁ ∧
      t.Jump .ifFalse m₁ q ∧
      t.Block scope body
        (.loop label false p q :: rs)
        (fun rs d p q => Stmt.LaidAll body rs scope d p q) d (m₁ + 5) m₂ ∧
      t.Jump .always m₂ p ∧ q = m₂ + 5 ∧
      scope' = scope
  | .forOf label binding hint iterable body, rs, scope, d, p, scope', q =>
    ∃ m₀ head slot n m₁ m₂ m₃ m₄ past,
      iterable.Laid t scope d p m₀ ∧
      t.Line (d + 1) m₀ [.getIterator] (d + 1) head ∧
      t.Line (d + 1) head [.iterNext] (d + 3) (head + 1) ∧
      t.Jump .ifTrue (head + 1) (past + 5) ∧
      t.Fresh scope slot ∧
      t.Line (d + 2) (head + 6) [.storeLocal slot] (d + 1) (head + 9) ∧
      t.Protect (head + 9) (some (m₃ + 5)) none ∧
      t.OpenRound slot hint (d + 1) (head + 18) n ∧
      t.Block ((binding, slot) :: scope) body
        (.iteration (hint.map (· == .async)) :: .loop label true head q :: rs)
        (fun rs d p q => Stmt.LaidAll body rs ((binding, slot) :: scope) d p q) (d + 1) n m₁ ∧
      t.LeaveRound ((binding, slot) :: scope) hint (d + 1) m₁ m₂ ∧
      t.Line (d + 1) m₂ [.endTry] (d + 1) m₃ ∧
      t.Jump .always m₃ past ∧
      t.LeaveRoundByThrow ((binding, slot) :: scope) hint (d + 1) (m₃ + 5) m₄ ∧
      t.Line (d + 2) m₄ [.swap, .iterClose 1, .throw] d past ∧
      t.Jump .always past head ∧
      t.Line (d + 2) (past + 5) [.popN 2] d q ∧
      scope' = scope
  | .tryCatch body param handler, rs, scope, d, p, scope', q =>
    ∃ m₁ m₂ m₃ m₄ scope₁,
      t.Protect p (some (m₂ + 5)) none ∧
      t.Block scope body (.tryCatch :: rs)
        (fun rs d p q => Stmt.LaidAll body rs scope d p q) d (p + 9) m₁ ∧
      t.Line d m₁ [.endTry] d m₂ ∧
      t.Jump .always m₂ q ∧ d + 1 ≤ t.maxStack ∧
      (if t.kind.isGenerator then
        ∃ n, t.Line (d + 1) (m₂ + 5) [.dup, .isClosing] (d + 2) n ∧
          t.Jump .ifFalse n m₃ ∧ t.Line (d + 1) (n + 5) [.throw] d m₃
      else m₃ = m₂ + 5) ∧
      t.BindParam scope param d m₃ scope₁ m₄ ∧
      t.Block scope₁ handler rs
        (fun rs d p q => Stmt.LaidAll handler rs scope₁ d p q) d m₄ q ∧
      scope' = scope
  | .throw e, _, scope, d, p, scope', q =>
    ∃ m, e.Laid t scope d p m ∧ t.Line (d + 1) m [.throw] d q ∧ scope' = scope
  | .ret e, rs, scope, d, p, scope', q =>
    ∃ m₁ m₂,
      (match e with
      | some e => e.Laid t scope d p m₁
      | none => t.Line d p [.constUndefined] (d + 1) m₁) ∧
      t.Line (d + 1) m₁ [.setRval] d m₂ ∧
      t.Leaving scope rs (.ret .undefined) d m₂ q ∧
      scope' = scope
  | .breakLoop label, rs, scope, d, p, scope', q =>
    t.Leaving scope rs (.breakTo label) d p q ∧ scope' = scope
  | .continueLoop label, rs, scope, d, p, scope', q =>
    t.Leaving scope rs (.continueTo label) d p q ∧ scope' = scope

/-- The code of `Stmt.lowerAll`. -/
def Stmt.LaidAll : List Stmt → List Shape → (scope : Scope) → (d p q : Nat) → Prop
  | [], _, _, _, p, q => q = p
  | s :: ss, rs, scope, d, p, q =>
    ∃ scope' m, s.Laid rs scope d p scope' m ∧ Stmt.LaidAll ss (s.after rs) scope' d m q

end

end
end ResourceMachine
