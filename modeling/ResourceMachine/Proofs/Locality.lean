/-
# An evaluation on its own

What an evaluation does depends neither on what happened before nor on the scopes around
its own: behind other events and within other scopes it does just what it does without
them (`Stmt.exec_local`). So what holds of all evaluations that start from nothing holds of
the part that a statement has in a longer one.

Key definitions: `CallState.under`, `Local`, `CallState.alone`.
Key theorems: `Stmt.exec_local`, `Local.alone`.
-/
import ResourceMachine.Proofs.Trail

namespace ResourceMachine

/-! ### Within other scopes -/

namespace CallState

variable {σ : Type} (S : CallState σ)

/-- The call behind other events and within other scopes. -/
def under (es : List Event) (cs : List Capability) : CallState σ :=
  { S with
    trace := es ++ S.trace
    scopes := S.scopes ++ cs }

/-- The call without what happened before and without its scopes. -/
def alone : CallState σ :=
  { S with
    trace := []
    scopes := [] }

theorem alone_under : S.alone.under S.trace S.scopes = S := by
  simp [alone, under]

end CallState

/-- A result behind other events and within other scopes. -/
def Eval.under {σ α : Type} (es : List Event) (cs : List Capability) :
    EStateM.Result Interrupt (CallState σ) α → EStateM.Result Interrupt (CallState σ) α
  | .ok a S => .ok a (S.under es cs)
  | .error i S => .error i (S.under es cs)

/-- An evaluation that needs `k` scopes and leaves `k'` of them does the same behind other
events and within other scopes. -/
def Local {σ α : Type} (k k' : Nat) (m : Eval σ α) : Prop :=
  ∀ n S, n + k ≤ S.scopes.length → n + k' ≤ (stateOf (m S)).scopes.length ∧
    ∀ es cs, m (S.under es cs) = Eval.under es cs (m S)

namespace Local

variable {σ α β : Type} {k k₁ k₂ : Nat} {m : Eval σ α} {f : α → Eval σ β}

theorem pure (a : α) : Local k k (Pure.pure a : Eval σ α) := fun _ _ h => ⟨h, fun _ _ => rfl⟩

theorem throw (i : Interrupt) : Local k k (MonadExcept.throw i : Eval σ α) := fun _ _ h => ⟨h, fun _ _ => rfl⟩

theorem bind (hk : k₂ ≤ k₁) (hm : Local k k₁ m) (hf : ∀ a, Local k₁ k₂ (f a)) : Local k k₂ (m >>= f) := by
  intro n S h
  obtain ⟨hlength, hunder⟩ := hm n S h
  show n + k₂ ≤ (stateOf (EStateM.bind m f S)).scopes.length ∧
    ∀ es cs, EStateM.bind m f (S.under es cs) = Eval.under es cs (EStateM.bind m f S)
  unfold EStateM.bind
  simp only [hunder]
  cases hx : m S with
  | ok a S' =>
    rw [hx] at hlength
    exact hf a n S' hlength
  | error i S' =>
    rw [hx] at hlength
    exact ⟨Nat.le_trans (Nat.add_le_add_left hk n) hlength, fun _ _ => rfl⟩

/-- A part of an evaluation that leaves as many scopes as it needs. -/
theorem seq (hm : Local k k m) (hf : ∀ a, Local k k (f a)) : Local k k (m >>= f) :=
  hm.bind (Nat.le_refl k) hf

theorem attempt (h : Local k k₁ m) : Local k k₁ (Eval.attempt m) := by
  intro n S hlength
  obtain ⟨hlength, hunder⟩ := h n S hlength
  unfold Eval.attempt
  simp only [hunder]
  cases hx : m S with
  | ok a S' =>
    rw [hx] at hlength
    exact ⟨hlength, fun _ _ => rfl⟩
  | error i S' =>
    rw [hx] at hlength
    cases i <;> exact ⟨hlength, fun _ _ => rfl⟩

/-- What needs no scopes leaves all that are there. -/
theorem within (h : Local 0 0 m) (k : Nat) : Local k k m := fun n S hlength => h (n + k) S hlength

/-- An evaluation that neither reads nor changes the scopes. -/
theorem of_same (hsame : ∀ S, (stateOf (m S)).scopes = S.scopes)
    (hunder : ∀ S es cs, m (S.under es cs) = Eval.under es cs (m S)) : Local k k m := by
  intro n S h
  rw [hsame S]
  exact ⟨h, hunder S⟩

/-- What is read of a call is what its scopes and its past have no part in. -/
theorem get {f : CallState σ → Eval σ β} (hsame : ∀ S es cs, f (S.under es cs) = f S)
    (hf : ∀ S, Local k k₁ (f S)) : Local k k₁ (MonadState.get >>= f) := by
  intro n S h
  obtain ⟨hlength, hunder⟩ := hf S n S h
  refine ⟨hlength, fun es cs => ?_⟩
  show f (S.under es cs) (S.under es cs) = Eval.under es cs (f S S)
  rw [hsame, hunder]

/-- The part of an evaluation on its own. -/
theorem alone (h : Local 0 0 m) (S : CallState σ) :
    m S = Eval.under S.trace S.scopes (m S.alone) := by
  obtain ⟨-, hunder⟩ := h 0 S.alone (Nat.zero_le _)
  have := hunder S.trace S.scopes
  rwa [S.alone_under] at this

end Local

namespace Eval

variable {σ α : Type} {host : Host σ} {kind : FunctionKind} {k : Nat}

/-! ### Steps -/

theorem log_local (e : Event) : Local k k (log e : Eval σ Unit) := by
  refine .of_same (fun _ => rfl) fun S es cs => ?_
  show EStateM.Result.ok () { S.under es cs with trace := es ++ S.trace ++ [e] } = _
  rw [List.append_assoc]
  rfl

theorem onHeap_local (m : OnHeap Value α) : Local k k (onHeap m : Eval σ α) := by
  refine .of_same (fun S => ?_) fun S es cs => ?_
  · unfold onHeap
    cases World.onHeap m S.world <;> rfl
  · have hworld : (S.under es cs).world = S.world := rfl
    unfold onHeap
    rw [hworld]
    cases World.onHeap m S.world <;> rfl

theorem raise_local (e : Value) : Local k k (raise e : Eval σ α) := .throw _

theorem signal_apply (e : Value) (S : CallState σ) :
    (signal e : Eval σ α) S = .error (.thrown e) (S.log [.raise e]) := rfl

theorem signal_local (e : Value) : Local k k (signal e : Eval σ α) :=
  (log_local _).seq fun _ => raise_local e

theorem raiseNew_local (kind : ErrorKind) (message : String) :
    Local k k (raiseNew kind message : Eval σ α) :=
  (onHeap_local _).seq signal_local

theorem setRval_local (v : Value) : Local k k (setRval v : Eval σ Unit) :=
  .of_same (fun _ => rfl) fun _ _ _ => rfl

theorem callValue_local (origin : Origin) (callee receiver : Value) (args : List Value) :
    Local k k (callValue host origin callee receiver args) := by
  cases callee
  case function f =>
    show Local k k (callFunction host origin f receiver args)
    refine .of_same (fun S => ?_) fun S es cs => ?_
    · unfold callFunction
      cases (f.call host receiver args).settle S.world with
      | mk result world => cases result <;> rfl
    · have hworld : (S.under es cs).world = S.world := rfl
      unfold callFunction
      rw [hworld]
      cases (f.call host receiver args).settle S.world with
      | mk result world =>
        cases result with
        | ok v => simp only [CallState.under, Eval.under, List.append_assoc]
        | error e =>
          simp only [signal_apply, CallState.log, CallState.under, Eval.under, List.append_assoc]
  all_goals exact raiseNew_local _ _

theorem suspend_local (p : Suspension) : Local k k (suspend p : Eval σ Value) := by
  refine .of_same (fun S => ?_) fun S es cs => ?_
  · obtain ⟨world, globals, script, trace, rval, scopes⟩ := S
    unfold suspend
    cases script with
    | nil => rfl
    | cons r rest => cases haccept : p.accept r.answer <;> simp only [haccept] <;> rfl
  · obtain ⟨world, globals, script, trace, rval, scopes⟩ := S
    unfold suspend CallState.under
    cases script with
    | nil => simp [Eval.under, CallState.under]
    | cons r rest =>
      cases haccept : p.accept r.answer <;> simp [haccept, Eval.under, CallState.under]

theorem await_local (v : Value) : Local k k (await v : Eval σ Value) :=
  (setRval_local v).seq fun _ => suspend_local _

theorem yield_local (v : Value) : Local k k (yield v : Eval σ Value) :=
  (setRval_local v).seq fun _ => suspend_local _

theorem tick_local : Local k k (tick : Eval σ Unit) := (await_local _).seq fun _ => .pure _

/-! ### Iterators -/

theorem iterate_local (v : Value) : Local k k (iterate v : Eval σ Nat) := by
  cases v
  case list id items =>
    exact .get (fun _ _ _ => rfl) fun S => (onHeap_local _).seq fun _ => .pure _
  case iterator id => exact .pure _
  all_goals exact raiseNew_local _ _

theorem nextItem_local (id : Nat) : Local k k (nextItem id : Eval σ (Option Value)) :=
  (onHeap_local _).seq fun _ => (log_local _).seq fun _ => .pure _

theorem closeIterator_local (id : Nat) : Local k k (closeIterator id : Eval σ (Option Value)) :=
  (onHeap_local _).seq fun _ => (log_local _).seq fun _ => .pure _

theorem leaveIterator_local (id : Nat) : Local k k (leaveIterator id : Eval σ Unit) := by
  refine (closeIterator_local id).seq fun error => ?_
  cases error with
  | none => exact .pure _
  | some e => exact signal_local e

/-! ### Scopes -/

theorem exists_cons {α : Type} {n : Nat} : ∀ {xs : List α}, n + 1 ≤ xs.length →
    ∃ x ys, xs = x :: ys ∧ n ≤ ys.length
  | x :: ys, h => ⟨x, ys, rfl, Nat.le_of_succ_le_succ h⟩

theorem openScope_local : Local 0 1 (openScope : Eval σ Unit) := fun _ _ h =>
  ⟨Nat.succ_le_succ h, fun _ _ => rfl⟩

theorem closeScope_local : Local 1 0 (closeScope : Eval σ Unit) := by
  intro n S h
  obtain ⟨world, globals, script, trace, rval, scopes⟩ := S
  obtain ⟨c, outer, rfl, hlength⟩ := exists_cons h
  refine ⟨hlength, fun es cs => ?_⟩
  show EStateM.Result.ok ()
    (⟨world, globals, script, es ++ trace ++ [.exitScope c.resources], rval, outer ++ cs⟩ : CallState σ) = _
  rw [List.append_assoc]
  rfl

theorem register_local (v : Value) (hint : Hint) : Local 1 1 (register v hint : Eval σ Unit) := by
  refine (onHeap_local _).attempt.seq fun result => ?_
  rcases result with e | _ | r
  · exact signal_local e
  · exact .pure _
  · refine (log_local _).seq fun _ n S h => ?_
    obtain ⟨world, globals, script, trace, rval, scopes⟩ := S
    obtain ⟨c, outer, rfl, hlength⟩ := exists_cons h
    exact ⟨Nat.succ_le_succ hlength, fun _ _ => rfl⟩

theorem takeResources_local : Local 1 1 (takeResources : Eval σ (List Resource)) := by
  intro n S h
  obtain ⟨world, globals, script, trace, rval, scopes⟩ := S
  obtain ⟨c, outer, rfl, hlength⟩ := exists_cons h
  have hrest : Local 1 1 (do
      let boxes ← onHeap (Heap.newResources c.resources)
      let _ ← onHeap (Heap.newList boxes)
      return c.resources : Eval σ (List Resource)) :=
    (onHeap_local _).seq fun _ => (onHeap_local _).seq fun _ => .pure _
  exact hrest n ⟨world, globals, script, trace, rval, .empty :: outer⟩ (Nat.succ_le_succ hlength)

/-! ### Disposal -/

theorem chain_local (u : Bool) (pending : Option Value) (e : Value) :
    Local k k (chain u pending e : Eval σ Value) := by
  unfold chain
  split
  · exact .pure _
  · split
    · exact .pure _
    · exact onHeap_local _
  · exact onHeap_local _

theorem callMethod_local (u : Bool) (r : Resource) (method : Value) (st : PassState) :
    Local k k (callMethod host u r method st) := by
  unfold callMethod
  refine (callValue_local _ _ _ _).attempt.seq fun result => ?_
  cases result with
  | error e => exact (chain_local _ _ _).seq fun _ => .pure _
  | ok v =>
    cases r.hint with
    | sync => exact .pure _
    | async =>
      refine (await_local v).attempt.seq fun result => ?_
      cases result with
      | ok _ => exact .pure _
      | error e => exact (chain_local _ _ _).seq fun _ => .pure _

theorem disposeOne_local (u : Bool) (r : Resource) (st : PassState) :
    Local k k (disposeOne host u r st) := by
  have hbefore : Local k k (awaitBefore r st : Eval σ PassState) := by
    unfold awaitBefore
    split
    · exact tick_local.seq fun _ => .pure _
    · exact .pure _
  refine hbefore.seq fun st => ?_
  cases r.method? with
  | some method => exact callMethod_local u r method st
  | none => exact .pure _

theorem disposeAll_local (u : Bool) : ∀ (rs : List Resource) (st : PassState),
    Local k k (disposeAll host u rs st)
  | [], _ => .pure _
  | r :: rs, st => by
    rw [disposeAll]
    exact (disposeOne_local u r st).seq fun st => disposeAll_local u rs st

theorem pass_local (pending : Option Value) : Local 1 1 (pass host kind pending) := by
  refine .get (fun _ _ _ => rfl) fun S => takeResources_local.seq fun rs => ?_
  refine (disposeAll_local _ _ _).seq fun st => .seq ?_ fun _ => (setRval_local _).seq fun _ => .pure _
  unfold awaitAfter
  split
  · exact tick_local
  · exact .pure _

theorem leave_local : Local 1 1 (leave host kind) := by
  refine (pass_local none).seq fun pending => ?_
  cases pending with
  | some e => exact raise_local e
  | none => exact .pure _

theorem leaveByThrow_local (e : Value) : Local 1 0 (leaveByThrow host kind e) :=
  (pass_local _).bind (Nat.zero_le _) fun _ => closeScope_local.bind (Nat.le_refl _) fun _ => .pure _

theorem leaving_local {body : Eval σ Exit} (h : Local 1 1 body) : Local 1 1 (leaving host kind body) :=
  h.seq fun _ => leave_local.seq fun _ => .pure _

theorem inScope_local {body : Eval σ Exit} (h : Local 1 1 body) : Local 0 0 (inScope host kind body) := by
  refine openScope_local.bind (Nat.zero_le _) fun _ => ?_
  refine (leaving_local h).attempt.bind (Nat.zero_le _) fun result => ?_
  cases result with
  | error e => exact (leaveByThrow_local e).bind (Nat.le_refl _) raise_local
  | ok x =>
    have hclose : Local 1 0 (do
        closeScope
        return x : Eval σ Exit) :=
      closeScope_local.bind (Nat.le_refl _) fun _ => .pure _
    show Local 1 0 (if x.isNormal then _ else _)
    split
    · exact (pass_local _).bind (Nat.zero_le _) fun _ => hclose
    · exact hclose

theorem roundInScope_local {body : Eval σ Exit} (v : Value) (hint : Hint) (h : Local 0 0 body) :
    Local 0 0 (roundInScope host kind v hint body) := by
  have hleft : Local 1 1 (do
      register v hint
      leaving host kind body) :=
    (register_local v hint).seq fun _ => leaving_local (h.within 1)
  refine openScope_local.bind (Nat.zero_le _) fun _ => hleft.attempt.bind (Nat.zero_le _) fun result => ?_
  cases result with
  | error e => exact (leaveByThrow_local e).bind (Nat.le_refl _) raise_local
  | ok x => exact closeScope_local.bind (Nat.le_refl _) fun _ => .pure _

/-- The scopes that a block needs: one if it registers resources there. -/
theorem block_local {disposes : Bool} {body : Eval σ Exit} (h : Local disposes.toNat disposes.toNat body) :
    Local 0 0 (block host kind disposes body) := by
  cases disposes with
  | true => exact inScope_local h
  | false => exact h

/-! ### Loops -/

theorem whileLoop_local {label : Option String} {cond : Eval σ Value} {body : Eval σ Exit}
    (hcond : Local 0 0 cond) (hbody : Local 0 0 body) : ∀ n, Local 0 0 (whileLoop label cond body n)
  | 0 => .throw _
  | n + 1 => by
    rw [whileLoop]
    refine hcond.seq fun v => ?_
    split
    · refine hbody.seq fun x => ?_
      split
      · exact whileLoop_local hcond hbody n
      · exact .pure _
    · exact .pure _

theorem forLoop_local {label : Option String} {id : Nat} {body : Value → Eval σ Exit}
    (hbody : ∀ v, Local 0 0 (body v)) : ∀ n, Local 0 0 (forLoop label id body n)
  | 0 => .throw _
  | n + 1 => by
    rw [forLoop]
    refine (nextItem_local id).seq fun item => ?_
    cases item with
    | none => exact .pure _
    | some v =>
      refine (hbody v).attempt.seq fun result => ?_
      cases result with
      | error e => exact (closeIterator_local id).seq fun _ => raise_local e
      | ok x =>
        show Local 0 0 (if x.continues label then _ else _)
        split
        · exact forLoop_local hbody n
        · exact (leaveIterator_local id).seq fun _ => .pure _

end Eval

/-! ### Expressions and statements -/

section

variable {σ : Type} (host : Host σ) (kind : FunctionKind) (n : Nat)

mutual

theorem Expr.eval_local : ∀ (e : Expr) (ρ : Bindings) {k : Nat}, Local k k (e.eval host ρ)
  | .undefined, _, _ | .null, _, _ | .bool _, _, _ | .int _, _, _ | .str _, _, _ | .binding _, _, _ => by
    rw [Expr.eval]
    exact .pure _
  | .global name, ρ, _ => by
    rw [Expr.eval]
    refine .get (fun _ _ _ => rfl) fun S => ?_
    cases S.globals.get? name with
    | some v => exact .pure _
    | none => exact Eval.raiseNew_local _ _
  | .call callee args, ρ, _ => by
    rw [Expr.eval]
    exact (callee.eval_local ρ).seq fun _ => (Expr.evalAll_local args ρ).seq fun _ =>
      Eval.callValue_local _ _ _ _
  | .await e, ρ, _ => by
    rw [Expr.eval]
    exact (e.eval_local ρ).seq Eval.await_local
  | .yield e, ρ, _ => by
    rw [Expr.eval]
    exact (e.eval_local ρ).seq Eval.yield_local

theorem Expr.evalAll_local : ∀ (es : List Expr) (ρ : Bindings) {k : Nat},
    Local k k (Expr.evalAll host es ρ)
  | [], _, _ => by
    rw [Expr.evalAll]
    exact .pure _
  | e :: es, ρ, _ => by
    rw [Expr.evalAll]
    exact (e.eval_local ρ).seq fun _ => (Expr.evalAll_local es ρ).seq fun _ => .pure _

end

theorem Stmt.round_local {binding : String} {hint : Option Hint} {body : List Stmt} {ρ : Bindings}
    {v : Value} (h : Local (body.any Stmt.isUsing).toNat (body.any Stmt.isUsing).toNat
      (Stmt.execAll host kind n body ((binding, v) :: ρ))) :
    Local 0 0 (Stmt.round host kind n binding hint body ρ v) := by
  cases hint with
  | none => exact Eval.block_local h
  | some hint => exact Eval.roundInScope_local v hint (Eval.block_local h)

mutual

/-- A statement does the same behind other events and within other scopes, if there is a
scope where it registers a resource. -/
theorem Stmt.exec_local : ∀ (s : Stmt) (ρ : Bindings),
    Local s.isUsing.toNat s.isUsing.toNat (s.exec host kind n ρ)
  | .expr e, ρ | .letIn _ e, ρ => by
    rw [Stmt.exec]
    exact (e.eval_local host ρ).seq fun _ => .pure _
  | .usingIn name hint e, ρ => by
    rw [Stmt.exec]
    exact (e.eval_local host ρ).seq fun v => (Eval.register_local v hint).seq fun _ => .pure _
  | .block body, ρ => by
    rw [Stmt.exec]
    exact (Eval.block_local (Stmt.execAll_local body ρ)).seq fun _ => .pure _
  | .ifElse cond yes no, ρ => by
    rw [Stmt.exec]
    refine (cond.eval_local host ρ).seq fun v => ?_
    cases v.isTruthy with
    | true => exact (Eval.block_local (Stmt.execAll_local yes ρ)).seq fun _ => .pure _
    | false => exact (Eval.block_local (Stmt.execAll_local no ρ)).seq fun _ => .pure _
  | .whileLoop label cond body, ρ => by
    rw [Stmt.exec]
    exact (Eval.whileLoop_local (cond.eval_local host ρ)
      (Eval.block_local (Stmt.execAll_local body ρ)) n).seq fun _ => .pure _
  | .forOf label binding hint iterable body, ρ => by
    rw [Stmt.exec]
    refine (iterable.eval_local host ρ).seq fun v => (Eval.iterate_local v).seq fun id => ?_
    refine (Eval.forLoop_local (fun w => ?_) n).seq fun _ => .pure _
    exact Stmt.round_local host kind n (Stmt.execAll_local body ((binding, w) :: ρ))
  | .tryCatch body param handler, ρ => by
    rw [Stmt.exec]
    refine (Eval.block_local (Stmt.execAll_local body ρ)).attempt.seq fun result => ?_
    cases result with
    | ok x => exact .pure _
    | error e =>
      show Local 0 0 (if kind.isGenerator && e.isClosing then _ else _)
      split
      · exact Eval.raise_local e
      · exact (Eval.block_local (Stmt.execAll_local handler _)).seq fun _ => .pure _
  | .throw e, ρ => by
    rw [Stmt.exec]
    exact (e.eval_local host ρ).seq Eval.signal_local
  | .ret (some e), ρ => by
    rw [Stmt.exec]
    exact (e.eval_local host ρ).seq fun v =>
      ((Eval.log_local _).seq fun _ => Eval.setRval_local v).seq fun _ => .pure _
  | .ret none, ρ => by
    rw [Stmt.exec]
    exact ((Eval.log_local _).seq fun _ => Eval.setRval_local _).seq fun _ => .pure _
  | .breakLoop _, _ | .continueLoop _, _ => by
    rw [Stmt.exec]
    exact .pure _

theorem Stmt.execAll_local : ∀ (ss : List Stmt) (ρ : Bindings),
    Local (ss.any Stmt.isUsing).toNat (ss.any Stmt.isUsing).toNat (Stmt.execAll host kind n ss ρ)
  | [], _ => by
    rw [Stmt.execAll]
    exact .pure _
  | s :: ss, ρ => by
    rw [Stmt.execAll]
    have hs : Local (s :: ss |>.any Stmt.isUsing).toNat (s :: ss |>.any Stmt.isUsing).toNat
        (s.exec host kind n ρ) := by
      have h := Stmt.exec_local s ρ
      rw [List.any_cons]
      cases hs : s.isUsing with
      | true => rwa [hs] at h
      | false =>
        rw [hs] at h
        exact h.within _
    refine hs.seq fun (x, ρ') => ?_
    show Local _ _ (if x.isNormal then _ else _)
    split
    · have h := Stmt.execAll_local ss ρ'
      rw [List.any_cons]
      cases hss : ss.any Stmt.isUsing with
      | true =>
        rw [hss] at h
        rwa [Bool.or_true]
      | false =>
        rw [hss] at h
        exact h.within _
    · exact .pure _

end

end

end ResourceMachine
