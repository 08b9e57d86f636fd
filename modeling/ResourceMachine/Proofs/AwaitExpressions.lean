/-
# Await expressions

An evaluation comes to the await expressions of the statements that it executes
(`Declaration.awaits`). A pass awaits only what was declared async. So the first await of a
call is at an await expression, unless an async resource has been registered before
(`Declaration.run_calm`).

Key definitions: `Expr.awaits`, `Stmt.awaits`, `Declaration.awaits`, `Calm`.
Key theorems: `Eval.pass_calm`, `Stmt.exec_calm`, `Declaration.run_calm`.
-/
import ResourceMachine.Proofs.TrailTrace

namespace ResourceMachine

/-! ### Where an evaluation awaits -/

/-- The await expressions to which an evaluation comes that starts in a state: the values
that they wait for, and the states there. -/
abbrev AwaitTrail (σ : Type) := CallState σ → Value → CallState σ → Prop

section

variable {σ : Type} (host : Host σ) (kind : FunctionKind) (fuel : Nat)

mutual

/-- The await expressions to which an expression comes. -/
def Expr.awaits : Expr → Bindings → AwaitTrail σ
  | .await e, ρ => fun S v T => e.awaits ρ S v T ∨ e.eval host ρ S = .ok v T
  | .yield e, ρ => e.awaits ρ
  | .call callee args, ρ => fun S v T =>
    callee.awaits ρ S v T ∨ ∃ f S', callee.eval host ρ S = .ok f S' ∧ Expr.awaitsAll args ρ S' v T
  | _, _ => fun _ _ _ => False

/-- The await expressions to which several expressions come, in order. -/
def Expr.awaitsAll : List Expr → Bindings → AwaitTrail σ
  | [], _ => fun _ _ _ => False
  | e :: es, ρ => fun S v T =>
    e.awaits ρ S v T ∨ ∃ w S', e.eval host ρ S = .ok w S' ∧ Expr.awaitsAll es ρ S' v T

end

/-- The await expressions to which the condition of a loop comes in its rounds. -/
def Eval.condAwaits (label : Option String) (cond : Eval σ Value) (A : AwaitTrail σ)
    (body : Eval σ Exit) : (fuel : Nat) → AwaitTrail σ
  | 0 => fun _ _ _ => False
  | fuel + 1 => fun S v T =>
    A S v T ∨ ∃ w S', cond S = .ok w S' ∧ w.isTruthy = true ∧ ∃ x S'', body S' = .ok x S'' ∧
      x.continues label = true ∧ condAwaits label cond A body fuel S'' v T

/-- The await expressions to which the expressions of a statement come, without those of the
statements in it. -/
def Stmt.awaits : Stmt → Bindings → AwaitTrail σ
  | .expr e, ρ | .letIn _ e, ρ | .usingIn _ _ e, ρ | .throw e, ρ | .ret (some e), ρ
  | .ifElse e _ _, ρ | .forOf _ _ _ e _, ρ => e.awaits host ρ
  | .whileLoop label cond body, ρ =>
    Eval.condAwaits label (cond.eval host ρ) (cond.awaits host ρ)
      (Eval.block host kind (body.any Stmt.isUsing) (Stmt.execAll host kind fuel body ρ)) fuel
  | _, _ => fun _ _ _ => False

/-- The await expressions of the statements to which a trail leads. -/
def Trail.awaits (P : Trail σ) : AwaitTrail σ := fun S v T =>
  ∃ s ρ S', P S (.statement s ρ) S' ∧ s.awaits host kind fuel ρ S' v T

/-- The await expressions to which a call comes. -/
def Declaration.awaits (d : Declaration) (args : List Value) : AwaitTrail σ :=
  (d.trail host fuel args).awaits host d.kind fuel

end

/-! ### Calm evaluations -/

/-- Whether an event is an await, or registers an async resource. -/
def Event.stirs : Event → Bool
  | suspend (.await _) => true
  | register r => r.hint == .async
  | _ => false

section

variable {σ α β : Type}

/-- Between two states, nothing is awaited and no async resource is registered. -/
def Undisturbed (S T : CallState σ) : Prop :=
  ∃ es, T.trace = S.trace ++ es ∧ ∀ e ∈ es, e.stirs = false

theorem Undisturbed.stable : Stable (Undisturbed (σ := σ)) where
  refl _ := ⟨[], (List.append_nil _).symm, nofun⟩
  trans := by
    rintro S T U ⟨es, hes, hcalm⟩ ⟨es', hes', hcalm'⟩
    refine ⟨es ++ es', by rw [hes', hes, List.append_assoc], fun e he => ?_⟩
    exact (List.mem_append.mp he).elim (hcalm e) (hcalm' e)

/-- Where nothing async is registered, an evaluation comes to an end without an await; or it
registers an async resource or comes to an await expression first. -/
structure Calm (A : AwaitTrail σ) (m : Eval σ α) : Prop where
  grows : Within Grows m
  first : ∀ S, Invariant.SoundIn .normal S.scopes →
    Undisturbed S (stateOf (m S)) ∧ Invariant.SoundIn .normal (stateOf (m S)).scopes ∨
    ∃ U, Undisturbed S U ∧
      ((∃ r, r.hint = .async ∧ U.trace ++ [.register r] <+: (stateOf (m S)).trace) ∨
        ∃ v, A S v U ∧ U.trace ++ [.suspend (.await v)] <+: (stateOf (m S)).trace)

/-- Nothing is awaited. -/
abbrev noAwait : AwaitTrail σ := fun _ _ _ => False

/-- Nothing is awaited or registered, and the scopes hold nothing new. -/
def Still (S T : CallState σ) : Prop :=
  Undisturbed S T ∧ (Invariant.SoundIn .normal S.scopes → Invariant.SoundIn .normal T.scopes)

theorem Still.stable : Stable (Still (σ := σ)) where
  refl S := ⟨Undisturbed.stable.refl S, id⟩
  trans h h' := ⟨Undisturbed.stable.trans h.1 h'.1, h'.2 ∘ h.2⟩

theorem Still.of_event {S T : CallState σ} {e : Event} (htrace : T.trace = S.trace ++ [e])
    (he : e.stirs = false) (hscopes : T.scopes = S.scopes) : Still S T :=
  ⟨⟨[e], htrace, by simpa using he⟩, fun h => hscopes ▸ h⟩

theorem Still.of_eq {S T : CallState σ} (htrace : T.trace = S.trace) (hscopes : T.scopes = S.scopes) :
    Still S T :=
  ⟨⟨[], by rw [htrace, List.append_nil], nofun⟩, fun h => hscopes ▸ h⟩

theorem Undisturbed.grows {S T : CallState σ} (h : Undisturbed S T) : Grows S T := by
  obtain ⟨es, hes, -⟩ := h
  exact ⟨es, hes.symm⟩

namespace Calm

variable {A A' : AwaitTrail σ} {m : Eval σ α} {f : α → Eval σ β}

theorem of_still (h : Within Still m) : Calm noAwait m where
  grows S := (h S).1.grows
  first S hS := .inl ⟨(h S).1, (h S).2 hS⟩

theorem pure (a : α) : Calm A (Pure.pure a : Eval σ α) where
  grows := .pure Grows.stable a
  first S hS := .inl ⟨Undisturbed.stable.refl S, hS⟩

theorem mono (h : Calm A m) (hA : ∀ S v T, A S v T → A' S v T) : Calm A' m where
  grows := h.grows
  first S hS := (h.first S hS).imp id fun ⟨U, hU, hwhy⟩ =>
    ⟨U, hU, hwhy.imp id fun ⟨v, hv, htrace⟩ => ⟨v, hA S v U hv, htrace⟩⟩

theorem of_noAwait (h : Calm noAwait m) : Calm A m := h.mono fun _ _ _ => False.elim

/-- What comes first in an evaluation comes first in what goes on with it. -/
theorem bind {B : α → AwaitTrail σ} (h : Calm A m) (hf : ∀ a, Calm (B a) (f a)) :
    Calm (fun S v T => A S v T ∨ ∃ a S', m S = .ok a S' ∧ B a S' v T) (m >>= f) where
  grows := .bind Grows.stable h.grows fun a => (hf a).grows
  first S hS := by
    have hgrows := Eval.grows_bind (m := m) S fun a => (hf a).grows
    rcases h.first S hS with ⟨hundisturbed, hsound⟩ | ⟨U, hU, hwhy⟩
    · cases hm : m S with
      | error i S' =>
        rw [hm] at hundisturbed hsound
        rw [bind_of_error hm]
        exact .inl ⟨hundisturbed, hsound⟩
      | ok a S' =>
        rw [hm] at hundisturbed hsound
        rw [bind_of_ok hm]
        rcases (hf a).first S' hsound with ⟨hrest, hsound'⟩ | ⟨U, hU, hwhy⟩
        · exact .inl ⟨Undisturbed.stable.trans hundisturbed hrest, hsound'⟩
        · refine .inr ⟨U, Undisturbed.stable.trans hundisturbed hU, hwhy.imp id ?_⟩
          rintro ⟨v, hv, htrace⟩
          exact ⟨v, .inr ⟨a, S', rfl, hv⟩, htrace⟩
    · right
      refine ⟨U, hU, hwhy.imp ?_ ?_⟩
      · rintro ⟨r, hr, htrace⟩
        exact ⟨r, hr, htrace.trans hgrows⟩
      · rintro ⟨v, hv, htrace⟩
        exact ⟨v, .inl hv, htrace.trans hgrows⟩

/-- What follows is calm as well. -/
theorem seq (h : Calm A m) (hf : ∀ a, Calm noAwait (f a)) : Calm A (m >>= f) :=
  (h.bind hf).mono fun _ _ _ hA => hA.elim id fun ⟨_, _, _, hfalse⟩ => hfalse.elim

/-- What comes before is calm as well. -/
theorem after {B : α → AwaitTrail σ} (h : Calm noAwait m) (hf : ∀ a, Calm (B a) (f a)) :
    Calm (fun S v T => ∃ a S', m S = .ok a S' ∧ B a S' v T) (m >>= f) :=
  (h.bind hf).mono fun _ _ _ hA => hA.resolve_left id

theorem attempt (h : Calm A m) : Calm A (Eval.attempt m) := by
  have hstate : ∀ S, stateOf (Eval.attempt m S) = stateOf (m S) := fun S => by
    unfold Eval.attempt
    cases m S with
    | ok a S' => rfl
    | error i S' => cases i <;> rfl
  refine ⟨h.grows.attempt, fun S hS => ?_⟩
  rw [hstate]
  exact h.first S hS

/-- What an attempt comes to comes before what goes on with its result. -/
theorem attempt_bind {f : Except Value α → Eval σ β} {B : Except Value α → AwaitTrail σ}
    (h : Calm A m) (hf : ∀ r, Calm (B r) (f r)) :
    Calm (fun S v T => A S v T ∨ (∃ a S', m S = .ok a S' ∧ B (.ok a) S' v T) ∨
      ∃ e S', m S = .error (.thrown e) S' ∧ B (.error e) S' v T) (Eval.attempt m >>= f) := by
  refine (h.attempt.bind hf).mono ?_
  rintro S v T (hA | ⟨r, S', hr, hB⟩)
  · exact .inl hA
  · right
    unfold Eval.attempt at hr
    cases hm : m S with
    | ok a S'' =>
      rw [hm] at hr
      cases hr
      exact .inl ⟨a, S', rfl, hB⟩
    | error i S'' =>
      rw [hm] at hr
      cases i <;> cases hr
      exact .inr ⟨_, S', rfl, hB⟩

end Calm
end

/-! ### The parts of an evaluation -/

namespace Eval

variable {σ α : Type} {host : Host σ} {kind : FunctionKind}

theorem onHeap_still (m : OnHeap Value α) : Within Still (onHeap m : Eval σ α) := by
  intro S
  unfold onHeap
  cases World.onHeap m S.world <;> exact .of_eq rfl rfl

theorem log_still {e : Event} (he : e.stirs = false) : Within Still (log e : Eval σ Unit) :=
  fun _ => .of_event rfl he rfl

theorem signal_still (e : Value) : Within Still (signal e : Eval σ α) :=
  .bind Still.stable (log_still rfl) fun _ => .throw Still.stable _

theorem callValue_still (origin : Origin) (callee receiver : Value) (args : List Value) :
    Within Still (callValue host origin callee receiver args) := by
  cases callee
  case function f =>
    intro S
    show Still S (stateOf (callFunction host origin f receiver args S))
    unfold callFunction
    cases (f.call host receiver args).settle S.world with
    | mk result world =>
      cases result with
      | ok v => exact .of_event rfl rfl rfl
      | error e =>
        exact Still.stable.trans (T := { S with world, trace := S.trace ++ [.call origin f receiver args (.error e)] })
          (.of_event rfl rfl rfl) (.of_event rfl rfl rfl)
  all_goals exact .bind Still.stable (onHeap_still _) fun _ => signal_still _

theorem chain_still (u : Bool) (pending : Option Value) (e : Value) :
    Within Still (chain u pending e : Eval σ Value) := by
  rw [chain_eq]
  exact onHeap_still _

theorem yield_still (v : Value) : Within Still (yield v : Eval σ Value) := by
  intro S
  show Still S (stateOf (suspend (.yield v) { S with rval := v }))
  unfold suspend
  cases S.script with
  | nil => exact .of_event rfl rfl rfl
  | cons r rest =>
    simp only [Suspension.accept]
    cases r.answer <;>
      exact ⟨⟨[.suspend (.yield v), .resume _], List.append_assoc _ _ _, by simp [Event.stirs]⟩, id⟩

/-- Awaiting is awaiting. -/
theorem await_calm (v : Value) : Calm (fun S w T => w = v ∧ T = S) (await v : Eval σ Value) where
  grows := (await_quiet v).mono Quiet.grows
  first S _ := by
    refine .inr ⟨S, Undisturbed.stable.refl S, .inr ⟨v, ⟨rfl, rfl⟩, ?_⟩⟩
    show _ <+: (stateOf (suspend (.await v) { S with rval := v })).trace
    unfold suspend
    cases S.script with
    | nil => exact List.prefix_refl _
    | cons r rest =>
      simp only
      cases (Suspension.await v).accept r.answer <;> exact List.prefix_append _ _

theorem iterate_still (v : Value) : Within Still (iterate v : Eval σ Nat) := by
  cases v
  case list id items =>
    exact .bind Still.stable (.get Still.stable) fun _ =>
      .bind Still.stable (onHeap_still _) fun _ => .pure Still.stable _
  case iterator id => exact .pure Still.stable _
  all_goals exact .bind Still.stable (onHeap_still _) fun _ => signal_still _

theorem nextItem_still (id : Nat) : Within Still (nextItem id : Eval σ (Option Value)) :=
  .bind Still.stable (onHeap_still _) fun _ =>
    .bind Still.stable (log_still rfl) fun _ => .pure Still.stable _

theorem closeIterator_still (id : Nat) : Within Still (closeIterator id : Eval σ (Option Value)) :=
  .bind Still.stable (onHeap_still _) fun _ =>
    .bind Still.stable (log_still rfl) fun _ => .pure Still.stable _

theorem leaveIterator_still (id : Nat) : Within Still (leaveIterator id : Eval σ Unit) := by
  refine .bind Still.stable (closeIterator_still id) fun error => ?_
  cases error with
  | none => exact .pure Still.stable _
  | some e => exact signal_still e

theorem openScope_still : Within Still (openScope : Eval σ Unit) := fun S =>
  ⟨Undisturbed.stable.refl S, Invariant.SoundIn.cons_empty⟩

theorem returnValue_still (v : Value) : Within Still (returnValue v : Eval σ Unit) :=
  .bind Still.stable (log_still rfl) fun _ _ => .of_eq rfl rfl

theorem closeScope_still : Within Still (closeScope : Eval σ Unit) := by
  intro S
  unfold closeScope
  cases hscopes : S.scopes with
  | nil =>
    simp only [bind, EStateM.bind, get_apply, hscopes]
    exact Still.stable.refl S
  | cons c cs =>
    simp only [bind, EStateM.bind, get_apply, hscopes]
    exact ⟨⟨[_], rfl, by simp [Event.stirs]⟩, fun h => (hscopes ▸ h).tail⟩

/-- The method of a resource that was declared sync is called, and nothing is awaited. -/
theorem disposeOne_still {u : Bool} {r : Resource} {st : PassState} {S : CallState σ}
    {R : Value → CallState σ → Prop} {W : Option Suspension → CallState σ → Prop}
    (hr : r.Sound .normal) (hst : st.needsAwait = false) :
    Meets (disposeOne host u r st) S (fun st' T => Still S T ∧ st'.needsAwait = false) R W := by
  have hsync : r.hint = .sync := by
    cases hhint : r.hint with
    | sync => rfl
    | async => cases hr.async hhint
  obtain ⟨f, hf⟩ : ∃ f, r.method = some (.function f) :=
    hr.method.resolve_right fun ⟨_, h⟩ => by rw [hsync] at h; cases h
  have hmethod : r.method? = some (.function f) := by rw [Record.method?, hf]; rfl
  have hbefore : awaitBefore r st S = .ok st S := by
    unfold awaitBefore
    rw [if_neg (by simp [hst])]
    rfl
  refine Meets.of_eq (bind_of_ok hbefore) ?_
  simp only [hmethod]
  refine (callValue_ends.within (callValue_still _ _ _ _)).attempt.bind (R := R) fun result T h => ?_
  cases result with
  | ok v =>
    simp only [hsync]
    exact ⟨h.2, hst⟩
  | error e =>
    exact (chain_ends (chain_still u _ e)).bind fun p U hU => ⟨Still.stable.trans h.2 hU, hst⟩

theorem disposeAll_still {u : Bool} {R : Value → CallState σ → Prop}
    {W : Option Suspension → CallState σ → Prop} : ∀ {rs : List Resource} {st : PassState}
    {S : CallState σ}, (∀ r ∈ rs, r.Sound .normal) → st.needsAwait = false →
    Meets (disposeAll host u rs st) S (fun st' T => Still S T ∧ st'.needsAwait = false) R W
  | [], _, S, _, hst => ⟨Still.stable.refl S, hst⟩
  | r :: rs, st, S, hrs, hst => by
    rw [disposeAll]
    refine (disposeOne_still (hrs r List.mem_cons_self) hst).bind fun st₁ T h => ?_
    exact (disposeAll_still (fun r hr => hrs r (List.mem_cons_of_mem _ hr)) h.2).imp
      (fun _ _ h' => ⟨Still.stable.trans h.1 h'.1, h'.2⟩) fun _ _ => id

/-- A pass awaits nothing where nothing async is registered. -/
theorem pass_calm (pending : Option Value) : Calm noAwait (pass host kind pending) := by
  refine ⟨pass_grows host kind pending, fun S hS => .inl ?_⟩
  let rest := fun rs : List Resource => do
    let st ← disposeAll host (kind.isGenerator && pending.isSome) rs.reverse ⟨pending, false, false⟩
    awaitAfter st
    setRval S.rval
    return st.pending
  have htake : ∃ rs T, takeResources S = .ok rs T ∧ Still S T ∧ ∀ r ∈ rs, r.Sound .normal := by
    cases hscopes : S.scopes with
    | nil =>
      refine ⟨[], S, ?_, Still.stable.refl S, by simp⟩
      simp only [takeResources, bind, EStateM.bind, get_apply, hscopes]
      rfl
    | cons c cs =>
      refine ⟨c.resources, _, takeResources_apply hscopes, ⟨⟨[], (List.append_nil _).symm, by simp⟩, ?_⟩, ?_⟩
      · exact fun _ => (hscopes ▸ hS).tail.cons_empty
      · exact (hscopes ▸ hS) c List.mem_cons_self
  obtain ⟨rs, T, htake, hstill, hrs⟩ := htake
  have hpass : pass host kind pending S = rest rs T := bind_of_ok htake
  have hmeets : Meets (rest rs) T (fun _ U => Still T U) (fun _ _ => False) (fun _ _ => False) := by
    refine (disposeAll_still (fun r hr => hrs r (List.mem_reverse.mp hr)) rfl).bind fun st U h => ?_
    obtain ⟨hU, hst⟩ := h
    have hafter : awaitAfter st = (Pure.pure () : Eval σ Unit) := if_neg (by simp [hst])
    rw [hafter]
    exact ⟨hU.1, hU.2⟩
  unfold Meets at hmeets
  rw [hpass]
  cases hrest : rest rs T with
  | ok v U =>
    rw [hrest] at hmeets
    have hmeets := Still.stable.trans hstill hmeets
    exact ⟨hmeets.1, hmeets.2 hS⟩
  | error i U =>
    rw [hrest] at hmeets
    cases i <;> exact hmeets.elim

theorem leave_calm : Calm noAwait (leave host kind) := by
  refine ((pass_calm none).bind fun pending => ?_).mono fun _ _ _ h => h.elim id fun ⟨_, _, _, h⟩ => h
  cases pending with
  | none => exact .pure _
  | some e => exact .of_still (.throw Still.stable _)

theorem leaveByThrow_calm (e : Value) : Calm noAwait (leaveByThrow host kind e) :=
  (pass_calm _).seq fun _ => (Calm.of_still closeScope_still).seq fun _ => .pure _

/-- What is registered with an async hint stirs, and nothing else. -/
theorem register_calm (v : Value) (hint : Hint) : Calm noAwait (register v hint : Eval σ Unit) := by
  refine ⟨register_grows v hint, fun S hS => ?_⟩
  have hlook := Looks.createResource v hint S.world.heap
  unfold register attempt onHeap World.onHeap
  simp only [bind, EStateM.bind]
  cases hres : createResource v hint S.world.heap with
  | error e heap =>
    exact .inl ⟨⟨[.raise e], rfl, by simp [Event.stirs]⟩, hS⟩
  | ok record heap =>
    rw [hres] at hlook
    obtain ⟨-, hrecord⟩ := hlook
    cases record with
    | none => exact .inl ⟨⟨[], (List.append_nil _).symm, nofun⟩, hS⟩
    | some r =>
      obtain ⟨-, hhint, hmethod⟩ := hrecord r rfl
      cases hr : r.hint with
      | async =>
        refine .inr ⟨S, Undisturbed.stable.refl S, .inl ⟨r, hr, ?_⟩⟩
        cases S.scopes <;> exact List.prefix_refl _
      | sync =>
        have hsound : r.Sound .normal := ⟨hmethod, fun h => by rw [hr] at h; cases h⟩
        cases hscopes : S.scopes with
        | nil => exact .inl ⟨⟨[.register r], rfl, by simp [Event.stirs, hr]⟩, nofun⟩
        | cons c cs =>
          rw [hscopes] at hS
          refine .inl ⟨⟨[.register r], rfl, by simp [Event.stirs, hr]⟩, ?_⟩
          refine List.forall_mem_cons.mpr ⟨fun r' hr' => ?_, hS.tail⟩
          rcases List.mem_append.mp hr' with hr' | hr'
          · exact hS c List.mem_cons_self r' hr'
          · rwa [List.mem_singleton.mp hr']

section

variable {A : AwaitTrail σ} {body : Eval σ Exit}

theorem leaving_calm (h : Calm A body) : Calm A (leaving host kind body) :=
  h.seq fun _ => leave_calm.seq fun _ => .pure _

/-- A body in a scope of its own comes to what it comes to behind the opening of the scope. -/
theorem inScope_calm (h : Calm A body) :
    Calm (fun S v T => ∃ a S', openScope S = .ok a S' ∧ A S' v T) (inScope host kind body) := by
  refine (Calm.of_still openScope_still).after fun _ => ?_
  refine (leaving_calm h).attempt.seq fun result => ?_
  cases result with
  | error e => exact (leaveByThrow_calm e).seq fun _ => .of_still (.throw Still.stable _)
  | ok x =>
    have hclose : Calm noAwait (do
        closeScope
        return x : Eval σ Exit) := (Calm.of_still closeScope_still).seq fun _ => .pure _
    show Calm noAwait (if x.isNormal then _ else _)
    split
    · exact (pass_calm _).seq fun _ => hclose
    · exact hclose

theorem roundInScope_calm (w : Value) (hint : Hint) (h : Calm A body) :
    Calm (fun S v T => ∃ a S', openScope S = .ok a S' ∧
        ∃ b S'', register w hint S' = .ok b S'' ∧ A S'' v T)
      (roundInScope host kind w hint body) := by
  have hleft : Calm _ (do
      register w hint
      leaving host kind body) := (register_calm w hint).after fun _ => leaving_calm h
  refine (Calm.of_still openScope_still).after fun _ => hleft.attempt.seq fun result => ?_
  cases result with
  | error e => exact (leaveByThrow_calm e).seq fun _ => .of_still (.throw Still.stable _)
  | ok x => exact (Calm.of_still closeScope_still).seq fun _ => .pure _

end

section

variable {n k : Nat} {label : Option String} {A : AwaitTrail σ} {P : Trail σ} {body : Eval σ Exit}

/-- What a block comes to. -/
theorem block_calm {disposes : Bool} (h : Calm (P.awaits host kind n) body) :
    Calm ((blockTrail host kind disposes body P).awaits host kind n)
      (block host kind disposes body) := by
  cases disposes with
  | false => exact h
  | true =>
    refine (inScope_calm h).mono ?_
    rintro S v T ⟨a, S', hopen, s, ρ, S₁, hP, hs⟩
    exact ⟨s, ρ, S₁, ⟨a, S', hopen, .inl (.inl hP)⟩, hs⟩

theorem roundTrail_calm {w : Value} {hint : Hint} (h : Calm (P.awaits host kind n) body) :
    Calm ((roundTrail host kind w hint body P).awaits host kind n)
      (roundInScope host kind w hint body) := by
  refine (roundInScope_calm w hint h).mono ?_
  rintro S v T ⟨a, S', hopen, b, S'', hregister, s, ρ, S₁, hP, hs⟩
  exact ⟨s, ρ, S₁, ⟨a, S', hopen, .inl ⟨b, S'', hregister, .inl hP⟩⟩, hs⟩

/-- A loop comes to what its condition and its body come to in its rounds. -/
theorem whileLoop_calm {cond : Eval σ Value} (hcond : Calm A cond)
    (hbody : Calm (P.awaits host kind n) body) : ∀ k,
    Calm (fun S v T => condAwaits label cond A body k S v T ∨
        (whileTrail label cond body P k).awaits host kind n S v T)
      (whileLoop label cond body k)
  | 0 => .of_noAwait (.of_still (.throw Still.stable _))
  | k + 1 => by
    have hround : ∀ w : Value, Calm (fun S v T => w.isTruthy = true ∧
        (P.awaits host kind n S v T ∨ ∃ x S', body S = .ok x S' ∧ x.continues label = true ∧
          (condAwaits label cond A body k S' v T ∨
            (whileTrail label cond body P k).awaits host kind n S' v T)))
        (if w.isTruthy = true then do
          let x ← body
          if x.continues label then whileLoop label cond body k else return x.leaveLoop label
        else return .normal) := fun w => by
      by_cases hw : w.isTruthy = true
      · rw [if_pos hw]
        refine (hbody.bind (B := fun x S v T => x.continues label = true ∧
          (condAwaits label cond A body k S v T ∨
            (whileTrail label cond body P k).awaits host kind n S v T)) fun x => ?_).mono ?_
        · by_cases hx : x.continues label = true
          · rw [if_pos hx]
            exact (whileLoop_calm hcond hbody k).mono fun _ _ _ h => ⟨hx, h⟩
          · rw [if_neg hx]
            exact .pure _
        · rintro S v T (h | ⟨x, S', hx, hcontinues, h⟩)
          · exact ⟨hw, .inl h⟩
          · exact ⟨hw, .inr ⟨x, S', hx, hcontinues, h⟩⟩
      · rw [if_neg hw]
        exact .pure _
    rw [whileLoop]
    refine (hcond.bind hround).mono ?_
    rintro S v T (h | ⟨w, S', hw, htruthy, hP | ⟨x, S'', hx, hcontinues, h | h⟩⟩)
    · exact .inl (.inl h)
    · obtain ⟨s, ρ, S₁, hP, hs⟩ := hP
      refine .inr ⟨s, ρ, S₁, ⟨w, S', hw, ?_⟩, hs⟩
      simp only [htruthy, ↓reduceIte]
      exact .inl hP
    · exact .inl (.inr ⟨w, S', hw, htruthy, x, S'', hx, hcontinues, h⟩)
    · obtain ⟨s, ρ, S₁, hP, hs⟩ := h
      refine .inr ⟨s, ρ, S₁, ⟨w, S', hw, ?_⟩, hs⟩
      simp only [htruthy, ↓reduceIte]
      refine .inr ⟨x, S'', hx, ?_⟩
      simpa only [hcontinues, ↓reduceIte] using hP

/-- A loop over items comes to what its body comes to in its rounds. -/
theorem forLoop_calm {id : Nat} {body : Value → Eval σ Exit} {P : Value → Trail σ}
    (hbody : ∀ v, Calm ((P v).awaits host kind n) (body v)) : ∀ k,
    Calm ((forTrail label id body P k).awaits host kind n) (forLoop label id body k)
  | 0 => .of_noAwait (.of_still (.throw Still.stable _))
  | k + 1 => by
    rw [forLoop]
    refine ((Calm.of_still (nextItem_still id)).after (B := fun item S v T => ∃ w, item = some w ∧
      ((P w).awaits host kind n S v T ∨ ∃ x S', body w S = .ok x S' ∧ x.continues label = true ∧
        (forTrail label id body P k).awaits host kind n S' v T)) fun item => ?_).mono ?_
    · cases item with
      | none => exact .pure _
      | some w =>
        refine ((hbody w).attempt_bind (B := fun r S v T => ∃ x, r = .ok x ∧ x.continues label = true ∧
          (forTrail label id body P k).awaits host kind n S v T) fun r => ?_).mono ?_
        · cases r with
          | error e =>
            exact .of_noAwait ((Calm.of_still (closeIterator_still id)).seq fun _ =>
              .of_still (.throw Still.stable _))
          | ok x =>
            show Calm _ (if x.continues label then _ else _)
            split
            · rename_i hx
              exact (forLoop_calm hbody k).mono fun _ _ _ h => ⟨x, rfl, hx, h⟩
            · exact .of_noAwait ((Calm.of_still (leaveIterator_still id)).seq fun _ => .pure _)
        · rintro S v T (h | ⟨x, S', hx, _, heq, hcontinues, h⟩ | ⟨e, S', -, _, heq, -⟩)
          · exact ⟨w, rfl, .inl h⟩
          · cases heq
            exact ⟨w, rfl, .inr ⟨x, S', hx, hcontinues, h⟩⟩
          · cases heq
    · rintro S v T ⟨item, S', hitem, w, rfl, ⟨s, ρ, S₁, hP, hs⟩ | ⟨x, S'', hx, hcontinues, s, ρ, S₁, hP, hs⟩⟩
      · exact ⟨s, ρ, S₁, ⟨some w, S', hitem, .inl hP⟩, hs⟩
      · refine ⟨s, ρ, S₁, ⟨some w, S', hitem, .inr ⟨x, S'', hx, ?_⟩⟩, hs⟩
        simpa only [hcontinues, ↓reduceIte] using hP

end

end Eval

/-! ### Statements -/

section

variable {σ : Type} (host : Host σ) (kind : FunctionKind) (n : Nat)

mutual

theorem Expr.eval_calm : ∀ (e : Expr) (ρ : Bindings), Calm (e.awaits host ρ) (e.eval host ρ)
  | .undefined, _ | .null, _ | .bool _, _ | .int _, _ | .str _, _ | .binding _, _ => .pure _
  | .global name, ρ => by
    rw [Expr.eval]
    refine .of_noAwait (.of_still (.bind Still.stable (.get Still.stable) fun S => ?_))
    cases S.globals.get? name with
    | some v => exact .pure Still.stable _
    | none => exact .bind Still.stable (Eval.onHeap_still _) Eval.signal_still
  | .call callee args, ρ => by
    rw [Expr.eval]
    exact (callee.eval_calm ρ).bind fun _ => (Expr.evalAll_calm args ρ).seq fun _ =>
      .of_still (Eval.callValue_still _ _ _ _)
  | .await e, ρ => by
    rw [Expr.eval]
    refine ((e.eval_calm ρ).bind Eval.await_calm).mono ?_
    rintro S v T (h | ⟨_, _, heq, rfl, rfl⟩)
    · exact .inl h
    · exact .inr heq
  | .yield e, ρ => by
    rw [Expr.eval]
    exact (e.eval_calm ρ).seq fun _ => .of_still (Eval.yield_still _)

theorem Expr.evalAll_calm : ∀ (es : List Expr) (ρ : Bindings),
    Calm (Expr.awaitsAll host es ρ) (Expr.evalAll host es ρ)
  | [], _ => by
    rw [Expr.evalAll]
    exact .pure _
  | e :: es, ρ => by
    rw [Expr.evalAll]
    exact (e.eval_calm ρ).bind fun _ => (Expr.evalAll_calm es ρ).seq fun _ => .pure _

end

/-- A block that is executed as a statement of its own. -/
theorem Stmt.block_calm {disposes : Bool} {body : Eval σ Exit} {P : Trail σ} {ρ : Bindings}
    (h : Calm (P.awaits host kind n) body) :
    Calm ((Eval.blockTrail host kind disposes body P).awaits host kind n) (do
      let x ← Eval.block host kind disposes body
      return (x, ρ)) :=
  (Eval.block_calm h).seq fun _ => .pure _

mutual

/-- A statement comes to its own await expressions and to those of the statements in it. -/
theorem Stmt.exec_calm : ∀ (s : Stmt) (ρ : Bindings),
    Calm (fun S v T => s.awaits host kind n ρ S v T ∨
      (s.trail host kind n ρ).awaits host kind n S v T) (s.exec host kind n ρ)
  | .expr e, ρ => by
    rw [Stmt.exec]
    exact ((e.eval_calm host ρ).seq fun _ => .pure _).mono fun _ _ _ => .inl
  | .letIn name init, ρ => by
    rw [Stmt.exec]
    exact ((init.eval_calm host ρ).seq fun _ => .pure _).mono fun _ _ _ => .inl
  | .usingIn name hint init, ρ => by
    rw [Stmt.exec]
    exact ((init.eval_calm host ρ).seq fun _ => (Eval.register_calm _ _).seq fun _ => .pure _).mono
      fun _ _ _ => .inl
  | .block body, ρ => by
    rw [Stmt.exec, Stmt.trail]
    exact (Stmt.block_calm host kind n (Stmt.execAll_calm body ρ)).mono fun _ _ _ => .inr
  | .ifElse cond yes no, ρ => by
    rw [Stmt.exec, Stmt.trail]
    let branch := fun w : Value =>
      if w.isTruthy then
        Eval.blockTrail host kind (yes.any Stmt.isUsing) (Stmt.execAll host kind n yes ρ)
          (Stmt.trailAll host kind n yes ρ)
      else
        Eval.blockTrail host kind (no.any Stmt.isUsing) (Stmt.execAll host kind n no ρ)
          (Stmt.trailAll host kind n no ρ)
    refine ((cond.eval_calm host ρ).bind (B := fun w => (branch w).awaits host kind n) fun w => ?_).mono ?_
    · show Calm (Trail.awaits host kind n (if w.isTruthy then _ else _)) _
      cases w.isTruthy with
      | true => exact Stmt.block_calm host kind n (Stmt.execAll_calm yes ρ)
      | false => exact Stmt.block_calm host kind n (Stmt.execAll_calm no ρ)
    · rintro S v T (h | ⟨w, S', hw, s, ρ', S₁, hP, hs⟩)
      · exact .inl h
      · exact .inr ⟨s, ρ', S₁, ⟨w, S', hw, hP⟩, hs⟩
  | .whileLoop label cond body, ρ => by
    rw [Stmt.exec, Stmt.trail]
    exact (Eval.whileLoop_calm (cond.eval_calm host ρ)
      (Eval.block_calm (Stmt.execAll_calm body ρ)) n).seq fun _ => .pure _
  | .forOf label binding hint iterable body, ρ => by
    rw [Stmt.exec, Stmt.trail]
    let inner := fun w : Value =>
      Eval.blockTrail host kind (body.any Stmt.isUsing)
        (Stmt.execAll host kind n body ((binding, w) :: ρ))
        (Stmt.trailAll host kind n body ((binding, w) :: ρ))
    let round := fun w : Value =>
      match hint with
      | some hint =>
        Eval.roundTrail host kind w hint (Eval.block host kind (body.any Stmt.isUsing)
          (Stmt.execAll host kind n body ((binding, w) :: ρ))) (inner w)
      | none => inner w
    have hround : ∀ w, Calm ((round w).awaits host kind n)
        (Stmt.round host kind n binding hint body ρ w) := fun w => by
      have hinner : Calm ((inner w).awaits host kind n) (Eval.block host kind (body.any Stmt.isUsing) _) :=
        Eval.block_calm (Stmt.execAll_calm body ((binding, w) :: ρ))
      cases hint with
      | none => exact hinner
      | some hint => exact Eval.roundTrail_calm hinner
    have hloop : ∀ id, Calm _ (do
        let x ← Eval.forLoop label id (Stmt.round host kind n binding hint body ρ) n
        return (x, ρ)) := fun id => (Eval.forLoop_calm hround n).seq fun _ => .pure _
    refine ((iterable.eval_calm host ρ).bind fun w =>
      (Calm.of_still (Eval.iterate_still w)).after hloop).mono ?_
    rintro S v T (h | ⟨w, S', hw, id, S'', hid, s, ρ', S₁, hP, hs⟩)
    · exact .inl h
    · exact .inr ⟨s, ρ', S₁, ⟨w, S', hw, id, S'', hid, hP⟩, hs⟩
  | .tryCatch body param handler, ρ => by
    rw [Stmt.exec, Stmt.trail]
    have hbody : Calm _ (Eval.block host kind (body.any Stmt.isUsing) _) :=
      Eval.block_calm (Stmt.execAll_calm body ρ)
    let handling := fun e : Value =>
      Eval.blockTrail host kind (handler.any Stmt.isUsing)
        (Stmt.execAll host kind n handler (ρ.caught param e))
        (Stmt.trailAll host kind n handler (ρ.caught param e))
    refine (hbody.attempt_bind (B := fun r S v T => ∃ e, r = .error e ∧
      (kind.isGenerator && e.isClosing) = false ∧ (handling e).awaits host kind n S v T) fun r => ?_).mono ?_
    · cases r with
      | ok x => exact .pure _
      | error e =>
        show Calm _ (if kind.isGenerator && e.isClosing then _ else _)
        cases hclosing : kind.isGenerator && e.isClosing with
        | true => exact .of_noAwait (.of_still (.throw Still.stable _))
        | false =>
          exact (Stmt.block_calm host kind n (Stmt.execAll_calm handler _)).mono
            fun _ _ _ h => ⟨e, rfl, hclosing, h⟩
    · rintro S v T (⟨s, ρ', S₁, hP, hs⟩ | ⟨_, _, -, _, heq, -⟩ | ⟨e, S', he, _, heq, hclosing, s, ρ', S₁, hP, hs⟩)
      · exact .inr ⟨s, ρ', S₁, .inl hP, hs⟩
      · cases heq
      · cases heq
        refine .inr ⟨s, ρ', S₁, .inr ⟨e, S', he, ?_⟩, hs⟩
        simpa only [hclosing, Bool.false_eq_true, ↓reduceIte] using hP
  | .throw e, ρ => by
    rw [Stmt.exec]
    exact ((e.eval_calm host ρ).seq fun _ => .of_still (Eval.signal_still _)).mono fun _ _ _ => .inl
  | .ret (some e), ρ => by
    rw [Stmt.exec]
    refine ((e.eval_calm host ρ).seq fun v => ?_).mono fun _ _ _ => .inl
    exact .of_still (.bind Still.stable (Eval.returnValue_still v) fun _ => .pure Still.stable _)
  | .ret none, ρ => by
    rw [Stmt.exec]
    exact .of_noAwait (.of_still
      (.bind Still.stable (Eval.returnValue_still .undefined) fun _ => .pure Still.stable _))
  | .breakLoop label, ρ | .continueLoop label, ρ => by
    rw [Stmt.exec]
    exact .pure _

/-- Statements come to the await expressions to which their trail leads. -/
theorem Stmt.execAll_calm : ∀ (ss : List Stmt) (ρ : Bindings),
    Calm ((Stmt.trailAll host kind n ss ρ).awaits host kind n) (Stmt.execAll host kind n ss ρ)
  | [], ρ => by
    rw [Stmt.execAll]
    exact .pure _
  | s :: ss, ρ => by
    rw [Stmt.execAll, Stmt.trailAll]
    refine ((Stmt.exec_calm s ρ).bind (B := fun r S v T => r.1.isNormal = true ∧
      (Stmt.trailAll host kind n ss r.2).awaits host kind n S v T) fun (x, ρ') => ?_).mono ?_
    · show Calm _ (if x.isNormal then _ else _)
      cases hx : x.isNormal with
      | true => exact (Stmt.execAll_calm ss ρ').mono fun _ _ _ h => ⟨rfl, h⟩
      | false => exact .pure _
    · rintro S v T ((h | ⟨s', ρ', S₁, hP, hs⟩) | ⟨⟨x, ρ'⟩, S', hexec, hx, s', ρ'', S₁, hP, hs⟩)
      · exact ⟨s, ρ, S, .inl (.inl ⟨rfl, rfl⟩), h⟩
      · exact ⟨s', ρ', S₁, .inl (.inr hP), hs⟩
      · refine ⟨s', ρ'', S₁, .inr ⟨(x, ρ'), S', hexec, ?_⟩, hs⟩
        simpa only [show x.isNormal = true from hx, ↓reduceIte] using hP

end

/-- A call comes to the await expressions of the statements to which it comes. -/
theorem Declaration.call_calm (d : Declaration) (args : List Value) :
    Calm (d.awaits host n args) (d.call host n args) := by
  refine (Eval.block_calm (Stmt.execAll_calm host d.kind n d.body (d.bind args))).seq fun x => ?_
  have hend : Calm noAwait (do
      Eval.returnValue .undefined
      return .undefined : Eval σ Value) :=
    .of_still (.bind Still.stable (Eval.returnValue_still _) fun _ => .pure Still.stable _)
  cases x with
  | ret v => exact .pure _
  | _ => exact hend

/-- **The first await of a call is at an await expression**, unless an async resource has been
registered before. -/
theorem Declaration.run_calm {d : Declaration} {args : List Value} {world : World σ} {globals : Globals}
    {script : List (Reply σ)} {es : List Event}
    (hes : es <+: (d.run host n args (.initial world globals script)).2.trace)
    (hsync : ∀ r, .register r ∈ es → r.hint = .sync)
    (hawaits : ∀ v T, d.awaits host n args (.initial world globals script) v T →
      ¬ T.trace ++ [.suspend (.await v)] <+: es) (v : Value) : .suspend (.await v) ∉ es := by
  intro hmem
  have hrun : (d.run host n args (.initial world globals script)).2 =
      stateOf (d.call host n args (.initial world globals script)) := by
    unfold run
    split <;> rename_i heq <;> rw [heq] <;> rfl
  rw [hrun] at hes
  have hfirst := (d.call_calm host n args).first (.initial world globals script) nofun
  have hstirred : ∀ {U : CallState σ}, Undisturbed (.initial world globals script) U → ¬ es <+: U.trace := by
    rintro U ⟨es', hU, hcalm⟩ hle
    have hcalm := hcalm _ (by simpa [hU, CallState.initial] using hle.subset hmem)
    cases hcalm
  rcases hfirst with ⟨hend, -⟩ | ⟨U, hU, hwhy⟩
  · exact hstirred hend hes
  · -- one of the two traces goes on where the other one ends
    have hlonger : ∀ {e : Event}, U.trace ++ [e] <+:
        (stateOf (d.call host n args (.initial world globals script))).trace → U.trace ++ [e] <+: es := by
      intro e htrace
      rcases List.prefix_or_prefix_of_prefix htrace hes with hle | hle
      · exact hle
      · rcases List.prefix_concat_iff.mp hle with rfl | hle
        · exact List.prefix_refl _
        · exact (hstirred hU hle).elim
    rcases hwhy with ⟨r, hr, htrace⟩ | ⟨w, hw, htrace⟩
    · have := hsync r ((hlonger htrace).subset (by simp))
      rw [hr] at this
      cases this
    · exact hawaits w U hw (hlonger htrace)

end

end ResourceMachine
