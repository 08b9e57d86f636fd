/-
# What happens on the way

An evaluation adds to the trace and takes nothing back. So what happens until a statement
is left to which a call comes is where the trace of the call begins
(`Declaration.trail_trace`).

Key definitions: `Grows`, `Trail.PartOf`.
Key theorems: `Stmt.exec_grows`, `Declaration.trail_trace`.
-/
import ResourceMachine.Proofs.Trail

namespace ResourceMachine

/-! ### The trace grows -/

section

variable {σ α : Type}

/-- The trace goes on. -/
def Grows (S T : CallState σ) : Prop := S.trace <+: T.trace

theorem Grows.stable : Stable (Grows (σ := σ)) where
  refl _ := List.prefix_refl _
  trans := List.IsPrefix.trans

theorem Quiet.grows {S T : CallState σ} (h : Quiet S T) : Grows S T := by
  obtain ⟨-, es, htrace, -⟩ := h
  exact ⟨es, htrace.symm⟩

end

namespace Eval

variable {σ α : Type} (host : Host σ) (kind : FunctionKind)

theorem grows_bind {β : Type} {m : Eval σ α} {f : α → Eval σ β} (S : CallState σ)
    (hf : ∀ a, Within Grows (f a)) : Grows (stateOf (m S)) (stateOf ((m >>= f) S)) := by
  show Grows _ (stateOf (EStateM.bind m f S))
  unfold EStateM.bind
  cases m S with
  | ok a T => exact hf a T
  | error i T => exact List.prefix_refl _

theorem log_grows (e : Event) : Within Grows (log e : Eval σ Unit) := fun _ => ⟨[e], rfl⟩

theorem callValue_grows (origin : Origin) (callee receiver : Value) (args : List Value) :
    Within Grows (callValue host origin callee receiver args) := by
  cases callee
  case function f =>
    intro S
    show Grows S (stateOf (callFunction host origin f receiver args S))
    unfold callFunction
    cases (f.call host receiver args).settle S.world with
    | mk result world =>
      cases result with
      | ok v => exact ⟨[_], rfl⟩
      | error e =>
        exact ⟨[.call origin f receiver args (.error e), .raise e], (List.append_assoc S.trace [_] [_]).symm⟩
  all_goals exact (raiseNew_quiet _ _).mono Quiet.grows

/-- Behind a call, a pass adds to the trace. -/
theorem callMethod_grows_behind (u : Bool) (r : Resource) (method : Value) (st : PassState)
    (S : CallState σ) : Grows (stateOf (attempt (callValue host .pass method r.value []) S))
      (stateOf (callMethod host u r method st S)) := by
  have hchain : ∀ (pending : Option Value) e, Within Grows (chain u pending e : Eval σ Value) :=
    fun pending e => (chain_quiet u pending e).mono Quiet.grows
  unfold callMethod
  refine grows_bind S fun result => ?_
  cases result with
  | error e => exact .bind Grows.stable (hchain _ _) fun _ => .pure Grows.stable _
  | ok v =>
    cases r.hint with
    | sync => exact .pure Grows.stable _
    | async =>
      refine .bind Grows.stable ((await_quiet v).mono Quiet.grows).attempt fun result => ?_
      cases result with
      | ok _ => exact .pure Grows.stable _
      | error e => exact .bind Grows.stable (hchain _ _) fun _ => .pure Grows.stable _

theorem callMethod_grows (u : Bool) (r : Resource) (method : Value) (st : PassState) :
    Within Grows (callMethod host u r method st) := fun S =>
  Grows.stable.trans ((callValue_grows host _ _ _ _).attempt S)
    (callMethod_grows_behind host u r method st S)

theorem awaitBefore_grows (r : Resource) (st : PassState) :
    Within Grows (awaitBefore r st : Eval σ PassState) := by
  unfold awaitBefore
  split
  · exact .bind Grows.stable (tick_quiet.mono Quiet.grows) fun _ => .pure Grows.stable _
  · exact .pure Grows.stable _

theorem disposeOne_grows (u : Bool) (r : Resource) (st : PassState) :
    Within Grows (disposeOne host u r st) := by
  unfold disposeOne
  refine .bind Grows.stable (awaitBefore_grows r st) fun st => ?_
  cases r.method? with
  | some method => exact callMethod_grows host u r method st
  | none => exact .pure Grows.stable _

theorem disposeAll_grows (u : Bool) : ∀ (rs : List Resource) (st : PassState),
    Within Grows (disposeAll host u rs st)
  | [], _ => .pure Grows.stable _
  | r :: rs, st => by
    rw [disposeAll]
    exact .bind Grows.stable (disposeOne_grows host u r st) fun st => disposeAll_grows u rs st

theorem takeResources_grows : Within Grows (takeResources : Eval σ (List Resource)) := by
  refine .bind Grows.stable (.get Grows.stable) fun S => ?_
  cases S.scopes with
  | nil => exact .pure Grows.stable _
  | cons c outer =>
    refine .bind Grows.stable (fun _ => List.prefix_refl _) fun _ => ?_
    refine .bind Grows.stable ((onHeap_quiet _).mono Quiet.grows) fun _ => ?_
    exact .bind Grows.stable ((onHeap_quiet _).mono Quiet.grows) fun _ => .pure Grows.stable _

theorem pass_grows (pending : Option Value) : Within Grows (pass host kind pending) := by
  refine .bind Grows.stable (.get Grows.stable) fun S => ?_
  refine .bind Grows.stable takeResources_grows fun rs => ?_
  refine .bind Grows.stable (disposeAll_grows host _ _ _) fun st => ?_
  refine .bind Grows.stable ?_ fun _ => ?_
  · unfold awaitAfter
    split
    · exact tick_quiet.mono Quiet.grows
    · exact .pure Grows.stable _
  · exact .bind Grows.stable ((setRval_quiet _).mono Quiet.grows) fun _ => .pure Grows.stable _

theorem raise_grows (e : Value) : Within Grows (raise e : Eval σ α) := (raise_quiet e).mono Quiet.grows

theorem leave_grows : Within Grows (leave host kind) := by
  refine .bind Grows.stable (pass_grows host kind none) fun pending => ?_
  cases pending with
  | some e => exact raise_grows e
  | none => exact .pure Grows.stable _

theorem openScope_grows : Within Grows (openScope : Eval σ Unit) := fun _ => List.prefix_refl _

theorem closeScope_grows : Within Grows (closeScope : Eval σ Unit) := by
  refine .bind Grows.stable (.get Grows.stable) fun S => ?_
  cases S.scopes with
  | nil => exact .pure Grows.stable _
  | cons c outer =>
    exact .bind Grows.stable (log_grows _) fun _ _ => List.prefix_refl _

theorem register_grows (v : Value) (hint : Hint) : Within Grows (register v hint : Eval σ Unit) := by
  refine .bind Grows.stable ((onHeap_quiet _).mono Quiet.grows).attempt fun result => ?_
  rcases result with e | _ | r
  · exact (signal_quiet e).mono Quiet.grows
  · exact .pure Grows.stable _
  · refine .bind Grows.stable (log_grows _) fun _ => .modify fun S => ?_
    split <;> exact List.prefix_refl _

theorem leaveByThrow_grows (e : Value) : Within Grows (leaveByThrow host kind e) :=
  .bind Grows.stable (pass_grows host kind _) fun _ =>
    .bind Grows.stable closeScope_grows fun _ => .pure Grows.stable _

/-- What happens behind a body in a scope of its own. -/
theorem leaving_grows {body : Eval σ Exit} (h : Within Grows body) :
    Within Grows (leaving host kind body) :=
  .bind Grows.stable h fun _ => .bind Grows.stable (leave_grows host kind) fun _ => .pure Grows.stable _

theorem inScope_grows {body : Eval σ Exit} (h : Within Grows body) :
    Within Grows (inScope host kind body) := by
  refine .bind Grows.stable openScope_grows fun _ => ?_
  refine .bind Grows.stable (leaving_grows host kind h).attempt fun result => ?_
  cases result with
  | error e => exact .bind Grows.stable (leaveByThrow_grows host kind e) raise_grows
  | ok x =>
    have hclose : Within Grows (do
        closeScope
        return x : Eval σ Exit) :=
      .bind Grows.stable closeScope_grows fun _ => .pure Grows.stable _
    show Within Grows (if x.isNormal then _ else _)
    split
    · exact .bind Grows.stable (pass_grows host kind _) fun _ => hclose
    · exact hclose

theorem roundInScope_grows {body : Eval σ Exit} (v : Value) (hint : Hint) (h : Within Grows body) :
    Within Grows (roundInScope host kind v hint body) := by
  have hleft : Within Grows (do
      register v hint
      leaving host kind body) :=
    .bind Grows.stable (register_grows v hint) fun _ => leaving_grows host kind h
  refine .bind Grows.stable openScope_grows fun _ => .bind Grows.stable hleft.attempt fun result => ?_
  cases result with
  | error e => exact .bind Grows.stable (leaveByThrow_grows host kind e) raise_grows
  | ok x => exact .bind Grows.stable closeScope_grows fun _ => .pure Grows.stable _

theorem block_grows {disposes : Bool} {body : Eval σ Exit} (h : Within Grows body) :
    Within Grows (block host kind disposes body) := by
  cases disposes with
  | true => exact inScope_grows host kind h
  | false => exact h

theorem whileLoop_grows {label : Option String} {cond : Eval σ Value} {body : Eval σ Exit}
    (hcond : Within Grows cond) (hbody : Within Grows body) :
    ∀ n, Within Grows (whileLoop label cond body n)
  | 0 => .throw Grows.stable _
  | n + 1 => by
    rw [whileLoop]
    refine .bind Grows.stable hcond fun v => ?_
    split
    · refine .bind Grows.stable hbody fun x => ?_
      split
      · exact whileLoop_grows hcond hbody n
      · exact .pure Grows.stable _
    · exact .pure Grows.stable _

theorem forLoop_grows {label : Option String} {id : Nat} {body : Value → Eval σ Exit}
    (hbody : ∀ v, Within Grows (body v)) : ∀ n, Within Grows (forLoop label id body n)
  | 0 => .throw Grows.stable _
  | n + 1 => by
    rw [forLoop]
    refine .bind Grows.stable ((nextItem_quiet id).mono Quiet.grows) fun item => ?_
    cases item with
    | none => exact .pure Grows.stable _
    | some v =>
      refine .bind Grows.stable (hbody v).attempt fun result => ?_
      cases result with
      | error e =>
        exact .bind Grows.stable ((closeIterator_quiet id).mono Quiet.grows) fun _ => raise_grows e
      | ok x =>
        show Within Grows (if x.continues label then _ else _)
        split
        · exact forLoop_grows hbody n
        · exact .bind Grows.stable ((leaveIterator_quiet id).mono Quiet.grows) fun _ =>
            .pure Grows.stable _

end Eval

section

variable {σ : Type} (host : Host σ) (kind : FunctionKind) (n : Nat)

theorem Expr.eval_grows (e : Expr) (ρ : Bindings) : Within Grows (e.eval host ρ) :=
  (e.eval_quiet host ρ).mono Quiet.grows

theorem Stmt.round_grows {binding : String} {hint : Option Hint} {body : List Stmt} {ρ : Bindings}
    {v : Value} (h : Within Grows (Stmt.execAll host kind n body ((binding, v) :: ρ))) :
    Within Grows (Stmt.round host kind n binding hint body ρ v) := by
  cases hint with
  | none => exact Eval.block_grows host kind h
  | some hint => exact Eval.roundInScope_grows host kind v hint (Eval.block_grows host kind h)

mutual

/-- A statement adds to the trace. -/
theorem Stmt.exec_grows : ∀ (s : Stmt) (ρ : Bindings), Within Grows (s.exec host kind n ρ)
  | .expr e, ρ | .letIn _ e, ρ => by
    rw [Stmt.exec]
    exact .bind Grows.stable (e.eval_grows host ρ) fun _ => .pure Grows.stable _
  | .usingIn name hint e, ρ => by
    rw [Stmt.exec]
    exact .bind Grows.stable (e.eval_grows host ρ) fun v =>
      .bind Grows.stable (Eval.register_grows v hint) fun _ => .pure Grows.stable _
  | .block body, ρ => by
    rw [Stmt.exec]
    exact .bind Grows.stable (Eval.block_grows host kind (Stmt.execAll_grows body ρ)) fun _ =>
      .pure Grows.stable _
  | .ifElse cond yes no, ρ => by
    rw [Stmt.exec]
    refine .bind Grows.stable (cond.eval_grows host ρ) fun v => ?_
    cases v.isTruthy with
    | true =>
      exact .bind Grows.stable (Eval.block_grows host kind (Stmt.execAll_grows yes ρ)) fun _ =>
        .pure Grows.stable _
    | false =>
      exact .bind Grows.stable (Eval.block_grows host kind (Stmt.execAll_grows no ρ)) fun _ =>
        .pure Grows.stable _
  | .whileLoop label cond body, ρ => by
    rw [Stmt.exec]
    exact .bind Grows.stable (Eval.whileLoop_grows (cond.eval_grows host ρ)
      (Eval.block_grows host kind (Stmt.execAll_grows body ρ)) n) fun _ => .pure Grows.stable _
  | .forOf label binding hint iterable body, ρ => by
    rw [Stmt.exec]
    refine .bind Grows.stable (iterable.eval_grows host ρ) fun v => ?_
    refine .bind Grows.stable ((Eval.iterate_quiet v).mono Quiet.grows) fun id => ?_
    refine .bind Grows.stable (Eval.forLoop_grows (fun w => ?_) n) fun _ => .pure Grows.stable _
    exact Stmt.round_grows host kind n (Stmt.execAll_grows body ((binding, w) :: ρ))
  | .tryCatch body param handler, ρ => by
    rw [Stmt.exec]
    refine .bind Grows.stable (Eval.block_grows host kind (Stmt.execAll_grows body ρ)).attempt
      fun result => ?_
    cases result with
    | ok x => exact .pure Grows.stable _
    | error e =>
      show Within Grows (if kind.isGenerator && e.isClosing then _ else _)
      split
      · exact Eval.raise_grows e
      · exact .bind Grows.stable (Eval.block_grows host kind (Stmt.execAll_grows handler _)) fun _ =>
          .pure Grows.stable _
  | .throw e, ρ => by
    rw [Stmt.exec]
    exact .bind Grows.stable (e.eval_grows host ρ) fun v => (Eval.signal_quiet v).mono Quiet.grows
  | .ret (some e), ρ => by
    rw [Stmt.exec]
    exact .bind Grows.stable (e.eval_grows host ρ) fun v =>
      .bind Grows.stable (.bind Grows.stable (Eval.log_grows _) fun _ =>
        (Eval.setRval_quiet v).mono Quiet.grows) fun _ => .pure Grows.stable _
  | .ret none, ρ => by
    rw [Stmt.exec]
    exact .bind Grows.stable (.bind Grows.stable (Eval.log_grows _) fun _ =>
      (Eval.setRval_quiet _).mono Quiet.grows) fun _ => .pure Grows.stable _
  | .breakLoop _, _ | .continueLoop _, _ => by
    rw [Stmt.exec]
    exact .pure Grows.stable _

theorem Stmt.execAll_grows : ∀ (ss : List Stmt) (ρ : Bindings),
    Within Grows (Stmt.execAll host kind n ss ρ)
  | [], _ => by
    rw [Stmt.execAll]
    exact .pure Grows.stable _
  | s :: ss, ρ => by
    rw [Stmt.execAll]
    refine .bind Grows.stable (Stmt.exec_grows s ρ) fun (x, ρ') => ?_
    show Within Grows (if x.isNormal then _ else _)
    split
    · exact Stmt.execAll_grows ss ρ'
    · exact .pure Grows.stable _

end

end

/-! ### Statements on the way -/

namespace Trail

variable {σ α β : Type}

/-- What happens until a statement is left to which a trail leads is where what happens in an
evaluation begins. -/
def PartOf (host : Host σ) (kind : FunctionKind) (n : Nat) (T : Trail σ) (m : Eval σ α) : Prop :=
  ∀ S s ρ S', T S (.statement s ρ) S' → Grows (stateOf (s.exec host kind n ρ S')) (stateOf (m S))

/-- A trail that leads to no statement. -/
def Stmtless (T : Trail σ) : Prop := ∀ S s ρ S', ¬ T S (.statement s ρ) S'

variable {host : Host σ} {kind : FunctionKind} {n : Nat} {T T' : Trail σ} {m : Eval σ α}

theorem Stmtless.partOf (h : T.Stmtless) : T.PartOf host kind n m := fun S s ρ S' hT => (h S s ρ S' hT).elim

theorem Stmtless.empty : (Trail.empty : Trail σ).Stmtless := fun _ _ _ _ => id

theorem Stmtless.after {T : α → Trail σ} (h : ∀ a, (T a).Stmtless) : (Trail.after m T).Stmtless := by
  rintro S s ρ S' ⟨a, S₁, -, hT⟩
  exact h a S₁ s ρ S' hT

theorem Stmtless.caught {T : Value → Trail σ} (h : ∀ e, (T e).Stmtless) : (Trail.caught m T).Stmtless := by
  rintro S s ρ S' ⟨e, S₁, -, hT⟩
  exact h e S₁ s ρ S' hT

theorem Stmtless.both (h : T.Stmtless) (h' : T'.Stmtless) : (Trail.both T T').Stmtless := by
  rintro S s ρ S' (hT | hT)
  · exact h S s ρ S' hT
  · exact h' S s ρ S' hT

theorem Stmtless.chaining {u : Bool} {pending : Option Value} {e : Value} :
    (Trail.here (.chaining u pending e) : Trail σ).Stmtless := by
  rintro S s ρ S' ⟨hp, -⟩
  cases hp

theorem Stmtless.behind {ρ : Bindings} : (Trail.here (.behind ρ) : Trail σ).Stmtless := by
  rintro S s ρ S' ⟨hp, -⟩
  cases hp

namespace PartOf

theorem empty : (Trail.empty : Trail σ).PartOf host kind n m := fun _ _ _ _ => False.elim

theorem here {s : Stmt} {ρ : Bindings} :
    (Trail.here (.statement s ρ)).PartOf host kind n (s.exec host kind n ρ) := by
  rintro S s' ρ' S' ⟨hp, rfl⟩
  cases hp
  exact Grows.stable.refl _

theorem both (h : T.PartOf host kind n m) (h' : T'.PartOf host kind n m) :
    (Trail.both T T').PartOf host kind n m := by
  rintro S s ρ S' (hT | hT)
  · exact h S s ρ S' hT
  · exact h' S s ρ S' hT

/-- Behind what a trail belongs to, the trace goes on. -/
theorem bind {f : α → Eval σ β} (h : T.PartOf host kind n m) (hf : ∀ a, Within Grows (f a)) :
    T.PartOf host kind n (m >>= f) := by
  intro S s ρ S' hT
  refine (h S s ρ S' hT).trans ?_
  show Grows _ (stateOf (EStateM.bind m f S))
  unfold EStateM.bind
  cases m S with
  | ok a S₁ => exact hf a S₁
  | error i S₁ => exact Grows.stable.refl _

theorem after {T : α → Trail σ} {f : α → Eval σ β} (h : ∀ a, (T a).PartOf host kind n (f a)) :
    (Trail.after m T).PartOf host kind n (m >>= f) := by
  rintro S s ρ S' ⟨a, S₁, hm, hT⟩
  show Grows _ (stateOf (EStateM.bind m f S))
  unfold EStateM.bind
  rw [hm]
  exact h a S₁ s ρ S' hT

theorem attempt (h : T.PartOf host kind n m) : T.PartOf host kind n (Eval.attempt m) := by
  intro S s ρ S' hT
  have hgrows := h S s ρ S' hT
  unfold Eval.attempt
  cases hm : m S with
  | ok a S₁ =>
    rw [hm] at hgrows
    exact hgrows
  | error i S₁ =>
    rw [hm] at hgrows
    cases i <;> exact hgrows

theorem caught {T : Value → Trail σ} {f : Except Value α → Eval σ β}
    (h : ∀ e, (T e).PartOf host kind n (f (.error e))) :
    (Trail.caught m T).PartOf host kind n (Eval.attempt m >>= f) := by
  rintro S s ρ S' ⟨e, S₁, hm, hT⟩
  show Grows _ (stateOf (EStateM.bind (Eval.attempt m) f S))
  unfold EStateM.bind Eval.attempt
  rw [hm]
  exact h e S₁ s ρ S' hT

theorem afterAttempt {T : α → Trail σ} {f : Except Value α → Eval σ β}
    (h : ∀ a, (T a).PartOf host kind n (f (.ok a))) :
    (Trail.after m T).PartOf host kind n (Eval.attempt m >>= f) := by
  rintro S s ρ S' ⟨a, S₁, hm, hT⟩
  show Grows _ (stateOf (EStateM.bind (Eval.attempt m) f S))
  unfold EStateM.bind Eval.attempt
  rw [hm]
  exact h a S₁ s ρ S' hT

end PartOf
end Trail

namespace Eval

variable {σ : Type} {host : Host σ} {kind : FunctionKind} {n : Nat} {T : Trail σ} {body : Eval σ Exit}

theorem disposalTrail_stmtless {u : Bool} : ∀ {rs : List Resource} {st : PassState},
    (disposalTrail host u rs st).Stmtless
  | [], _ => .empty
  | r :: rs, st => by
    rw [disposalTrail]
    refine .both (.after fun st => ?_) (.after fun st => disposalTrail_stmtless)
    cases r.method? with
    | none => exact .empty
    | some method =>
      refine .both (.caught fun _ => .chaining) (.after fun v => ?_)
      cases r.hint with
      | sync => exact .empty
      | async => exact .caught fun _ => .chaining

theorem passTrail_stmtless {pending : Option Value} : (passTrail host kind pending).Stmtless :=
  .after fun _ => disposalTrail_stmtless

theorem leavingTrail_partOf (h : T.PartOf host kind n body) :
    (leavingTrail host kind body T).PartOf host kind n (leaving host kind body) :=
  .both (h.bind fun _ => .bind Grows.stable (leave_grows host kind) fun _ => .pure Grows.stable _)
    (Trail.Stmtless.partOf (.after fun _ => passTrail_stmtless))

theorem scopeTrail_partOf (h : T.PartOf host kind n body) :
    (scopeTrail host kind body T).PartOf host kind n (inScope host kind body) := by
  refine .after fun _ => .both ?_ (.both ?_ ?_)
  · refine (leavingTrail_partOf h).attempt.bind fun result => ?_
    cases result with
    | error e => exact .bind Grows.stable (leaveByThrow_grows host kind e) raise_grows
    | ok x =>
      have hclose : Within Grows (do
          closeScope
          return x : Eval σ Exit) :=
        .bind Grows.stable closeScope_grows fun _ => .pure Grows.stable _
      show Within Grows (if x.isNormal then _ else _)
      split
      · exact .bind Grows.stable (pass_grows host kind _) fun _ => hclose
      · exact hclose
  · exact Trail.Stmtless.partOf (.caught fun _ => passTrail_stmtless)
  · refine Trail.Stmtless.partOf (.after fun x => ?_)
    split
    · exact passTrail_stmtless
    · exact .empty

theorem roundTrail_partOf {v : Value} {hint : Hint} (h : T.PartOf host kind n body) :
    (roundTrail host kind v hint body T).PartOf host kind n (roundInScope host kind v hint body) := by
  refine .after fun _ => .both ?_ (Trail.Stmtless.partOf (.caught fun _ => passTrail_stmtless))
  have hleft : Trail.PartOf host kind n
      (Trail.after (register v hint) fun _ => leavingTrail host kind body T)
      (register v hint >>= fun _ => leaving host kind body) :=
    .after fun _ => leavingTrail_partOf h
  refine hleft.attempt.bind fun result => ?_
  cases result with
  | error e => exact .bind Grows.stable (leaveByThrow_grows host kind e) raise_grows
  | ok x => exact .bind Grows.stable closeScope_grows fun _ => .pure Grows.stable _

theorem blockTrail_partOf {disposes : Bool} (h : T.PartOf host kind n body) :
    (blockTrail host kind disposes body T).PartOf host kind n (block host kind disposes body) := by
  cases disposes with
  | true => exact scopeTrail_partOf h
  | false => exact h

theorem whileTrail_partOf {label : Option String} {cond : Eval σ Value} (hcond : Within Grows cond)
    (hbody : Within Grows body) (h : T.PartOf host kind n body) :
    ∀ k, (whileTrail label cond body T k).PartOf host kind n (whileLoop label cond body k)
  | 0 => .empty
  | k + 1 => by
    rw [whileTrail, whileLoop]
    refine .after fun v => ?_
    split
    · refine .both (h.bind fun x => ?_) (.after fun x => ?_)
      · split
        · exact whileLoop_grows hcond hbody k
        · exact .pure Grows.stable _
      · split
        · exact whileTrail_partOf hcond hbody h k
        · exact .empty
    · exact .empty

theorem forTrail_partOf {label : Option String} {id : Nat} {body : Value → Eval σ Exit}
    {T : Value → Trail σ} (hbody : ∀ v, Within Grows (body v)) (h : ∀ v, (T v).PartOf host kind n (body v)) :
    ∀ k, (forTrail label id body T k).PartOf host kind n (forLoop label id body k)
  | 0 => .empty
  | k + 1 => by
    rw [forTrail, forLoop]
    refine .after fun item => ?_
    cases item with
    | none => exact .empty
    | some v =>
      refine .both ((h v).attempt.bind fun result => ?_) (.afterAttempt fun x => ?_)
      · cases result with
        | error e =>
          exact .bind Grows.stable ((closeIterator_quiet id).mono Quiet.grows) fun _ => raise_grows e
        | ok x =>
          show Within Grows (if x.continues label then _ else _)
          split
          · exact forLoop_grows hbody k
          · exact .bind Grows.stable ((leaveIterator_quiet id).mono Quiet.grows) fun _ =>
              .pure Grows.stable _
      · show Trail.PartOf host kind n _ (if x.continues label then _ else _)
        split
        · exact forTrail_partOf hbody h k
        · exact .empty

end Eval

section

variable {σ : Type} (host : Host σ) (kind : FunctionKind) (n : Nat)

/-- A block that is executed as a statement of its own. -/
theorem Stmt.block_partOf {disposes : Bool} {body : Eval σ Exit} {T : Trail σ} {ρ : Bindings}
    (h : T.PartOf host kind n body) :
    (Eval.blockTrail host kind disposes body T).PartOf host kind n (do
      let x ← Eval.block host kind disposes body
      return (x, ρ)) :=
  (Eval.blockTrail_partOf h).bind fun _ => .pure Grows.stable _

mutual

theorem Stmt.trail_partOf : ∀ (s : Stmt) (ρ : Bindings),
    (s.trail host kind n ρ).PartOf host kind n (s.exec host kind n ρ)
  | .block body, ρ => by
    rw [Stmt.trail, Stmt.exec]
    exact Stmt.block_partOf host kind n (Stmt.trailAll_partOf body ρ)
  | .ifElse cond yes no, ρ => by
    rw [Stmt.trail, Stmt.exec]
    refine .after fun v => ?_
    cases v.isTruthy with
    | true => exact Stmt.block_partOf host kind n (Stmt.trailAll_partOf yes ρ)
    | false => exact Stmt.block_partOf host kind n (Stmt.trailAll_partOf no ρ)
  | .whileLoop label cond body, ρ => by
    rw [Stmt.trail, Stmt.exec]
    refine (Eval.whileTrail_partOf (cond.eval_grows host ρ) ?_ ?_ n).bind fun _ => .pure Grows.stable _
    · exact Eval.block_grows host kind (Stmt.execAll_grows host kind n body ρ)
    · exact Eval.blockTrail_partOf (Stmt.trailAll_partOf body ρ)
  | .forOf label binding hint iterable body, ρ => by
    rw [Stmt.trail, Stmt.exec]
    refine .after fun v => .after fun id => ?_
    refine (Eval.forTrail_partOf (fun w => ?_) (fun w => ?_) n).bind fun _ => .pure Grows.stable _
    · exact Stmt.round_grows host kind n (Stmt.execAll_grows host kind n body ((binding, w) :: ρ))
    · have hbody := Stmt.trailAll_partOf body ((binding, w) :: ρ)
      have hinner : (Eval.blockTrail host kind (body.any Stmt.isUsing) _ _).PartOf host kind n _ :=
        Eval.blockTrail_partOf hbody
      cases hint with
      | none => exact hinner
      | some hint => exact Eval.roundTrail_partOf hinner
  | .tryCatch body param handler, ρ => by
    rw [Stmt.trail, Stmt.exec]
    refine .both ((Eval.blockTrail_partOf (Stmt.trailAll_partOf body ρ)).attempt.bind fun result => ?_)
      (.caught fun e => ?_)
    · cases result with
      | ok x => exact .pure Grows.stable _
      | error e =>
        show Within Grows (if kind.isGenerator && e.isClosing then _ else _)
        split
        · exact Eval.raise_grows e
        · exact .bind Grows.stable (Eval.block_grows host kind
            (Stmt.execAll_grows host kind n handler _)) fun _ => .pure Grows.stable _
    · show Trail.PartOf host kind n _ (if kind.isGenerator && e.isClosing then _ else _)
      split
      · exact .empty
      · exact Stmt.block_partOf host kind n (Stmt.trailAll_partOf handler _)
  | .expr _, _ | .letIn _ _, _ | .usingIn _ _ _, _ | .throw _, _ | .ret (some _), _ | .ret none, _
  | .breakLoop _, _ | .continueLoop _, _ => .empty

theorem Stmt.trailAll_partOf : ∀ (ss : List Stmt) (ρ : Bindings),
    (Stmt.trailAll host kind n ss ρ).PartOf host kind n (Stmt.execAll host kind n ss ρ)
  | [], _ => Trail.Stmtless.behind.partOf
  | s :: ss, ρ => by
    rw [Stmt.trailAll, Stmt.execAll]
    refine .both ((Trail.PartOf.both .here (Stmt.trail_partOf s ρ)).bind fun (x, ρ') => ?_)
      (.after fun (x, ρ') => ?_)
    · show Within Grows (if x.isNormal then _ else _)
      split
      · exact Stmt.execAll_grows host kind n ss ρ'
      · exact .pure Grows.stable _
    · show Trail.PartOf host kind n (if x.isNormal then _ else _) (if x.isNormal then _ else _)
      split
      · exact Stmt.trailAll_partOf ss ρ'
      · exact .empty

end

/-- What happens until a statement is left to which a call comes is where the trace of the
call begins. -/
theorem Declaration.trail_trace {d : Declaration} {args : List Value} {S S' : CallState σ} {s : Stmt}
    {ρ : Bindings} (h : d.trail host n args S (.statement s ρ) S') :
    Grows (stateOf (s.exec host d.kind n ρ S')) (d.run host n args S).2 := by
  have hpart : (d.trail host n args).PartOf host d.kind n (d.call host n args) := by
    refine (Eval.blockTrail_partOf (Stmt.trailAll_partOf host d.kind n d.body _)).bind fun x => ?_
    cases x
    case ret v => exact .pure Grows.stable _
    all_goals
      exact .bind Grows.stable (.bind Grows.stable (Eval.log_grows _) fun _ =>
        (Eval.setRval_quiet _).mono Quiet.grows) fun _ => .pure Grows.stable _
  have hrun : (d.run host n args S).2 = stateOf (d.call host n args S) := by
    unfold run
    split <;> rename_i heq <;> rw [heq] <;> rfl
  rw [hrun]
  exact hpart S s ρ S' h

end

end ResourceMachine
