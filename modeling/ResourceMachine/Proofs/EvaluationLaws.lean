/-
# What an evaluation leaves as it was

An expression is quiet: it leaves the scopes alone and disposes nothing.
Disposing leaves the scopes alone, once the resources are taken; and if nothing
is awaited, the return slot.

Key definitions: `Quiet`, `SameScopes`, `SameRval`.
Key theorems: `Expr.eval_quiet`, `Eval.pass_scopes`, `Eval.disposeAll_sync`.
-/
import ResourceMachine.Proofs.Computation
import ResourceMachine.Proofs.Evaluation
import Mathlib.Data.List.Forall2

namespace ResourceMachine

/-- An attempt stays within the relation that what is attempted stays within. -/
theorem Within.attempt {σ α : Type} {r : CallState σ → CallState σ → Prop} {m : Eval σ α}
    (h : Within r m) : Within r (Eval.attempt m) := by
  intro S
  have hm := h S
  unfold Eval.attempt
  cases hx : m S with
  | ok a S' =>
    rw [hx] at hm
    exact hm
  | error i S' =>
    rw [hx] at hm
    cases i <;> exact hm

/-! ### Registration -/

/-- What a declaration registers has its hint, and a method if that is sync. -/
theorem createResource_covered {v : Value} {hint : Hint} {r : Resource} {h h' : Heap}
    (heq : createResource v hint h = .ok (some r) h') :
    r.hint = hint ∧ (hint = .sync → r.method?.isSome) := by
  unfold createResource at heq
  split at heq
  case h_1 | h_2 =>
    cases hint <;> cases heq
    exact ⟨rfl, nofun⟩
  case h_3 id =>
    obtain ⟨method, h₁, hmethod, hrest⟩ := bind_eq_ok.mp heq
    cases method with
    | none =>
      obtain ⟨_, _, -, hthrow⟩ := bind_eq_ok.mp hrest
      cases hthrow
    | some method =>
      cases hrest
      refine ⟨rfl, ?_⟩
      rintro rfl
      obtain ⟨own, h₂, -, hown⟩ := bind_eq_ok.mp hmethod
      cases own <;> cases hown
      rfl
  case h_4 =>
    obtain ⟨_, _, -, hthrow⟩ := bind_eq_ok.mp heq
    cases hthrow

/-! ### Boxes -/

/-- Values that are boxes around resources, in order. -/
def Boxes : List Value → List Resource → Prop :=
  List.Forall₂ fun v r => ∃ id, v = .resource id r

theorem Boxes.getElem? : ∀ {vs : List Value} {rs : List Resource} {k : Nat} {r : Resource},
    Boxes vs rs → rs[k]? = some r → ∃ id, vs[k]? = some (.resource id r)
  | _, _, _, _, .nil, h => by cases h
  | _, _, 0, _, .cons h _, heq => by
    obtain rfl := Option.some.inj heq
    obtain ⟨id, rfl⟩ := h
    exact ⟨id, rfl⟩
  | _, _, k + 1, _, .cons _ h, heq => Boxes.getElem? (k := k) h heq

theorem newResources_boxes : ∀ (rs : List Resource) (h : Heap),
    ∃ vs, Boxes vs rs ∧ ∀ ε : Type, (Heap.newResources rs : OnHeap ε (List Value)) h =
      .ok vs { h with identities := h.identities + rs.length }
  | [], h => ⟨[], .nil, fun _ => rfl⟩
  | r :: rs, h => by
    obtain ⟨vs, hboxes, hvs⟩ := newResources_boxes rs { h with identities := h.identities + 1 }
    refine ⟨.resource h.identities r :: vs, .cons ⟨_, rfl⟩ hboxes, fun ε => ?_⟩
    simp only [Heap.newResources, bind, EStateM.bind, Heap.newResource, Heap.freshId, pure,
      EStateM.pure, hvs, List.length_cons, Nat.add_assoc, Nat.add_comm 1]

/-! ### Quiet evaluations -/

/-- Whether an event neither registers nor disposes a resource nor ends a scope. -/
def Event.isPlain : Event → Bool
  | call origin .. => origin == .body
  | register _ | exitScope _ => false
  | _ => true

section

variable {σ : Type}

/-- The scopes stay as they are, and what happens is plain. -/
def Quiet (S T : CallState σ) : Prop :=
  T.scopes = S.scopes ∧ ∃ es : List Event, T.trace = S.trace ++ es ∧ ∀ e ∈ es, e.isPlain

/-- The scopes stay as they are. -/
def SameScopes (S T : CallState σ) : Prop := T.scopes = S.scopes

/-- The return slot stays as it is. -/
def SameRval (S T : CallState σ) : Prop := T.rval = S.rval

theorem Quiet.stable : Stable (Quiet (σ := σ)) where
  refl _ := ⟨rfl, [], (List.append_nil _).symm, nofun⟩
  trans := by
    rintro S T U ⟨hscopes, es, htrace, hes⟩ ⟨hscopes', es', htrace', hes'⟩
    refine ⟨hscopes'.trans hscopes, es ++ es', by rw [htrace', htrace, List.append_assoc], ?_⟩
    intro e he
    rcases List.mem_append.mp he with he | he
    · exact hes e he
    · exact hes' e he

theorem SameScopes.stable : Stable (SameScopes (σ := σ)) where
  refl _ := rfl
  trans h h' := h'.trans h

theorem SameRval.stable : Stable (SameRval (σ := σ)) where
  refl _ := rfl
  trans h h' := h'.trans h

theorem Quiet.same {S T : CallState σ} (h : Quiet S T) : SameScopes S T := h.1

end

namespace Eval

variable {σ α : Type}

theorem log_quiet {event : Event} (h : event.isPlain) : Within Quiet (log event : Eval σ Unit) :=
  fun _ => ⟨rfl, [event], rfl, by simpa using h⟩

theorem onHeap_quiet (m : OnHeap Value α) : Within Quiet (onHeap m : Eval σ α) := by
  intro S
  unfold onHeap
  cases World.onHeap m S.world with
  | ok a world => exact ⟨rfl, [], (List.append_nil _).symm, nofun⟩
  | error e world => exact ⟨rfl, [], (List.append_nil _).symm, nofun⟩

theorem raise_quiet (e : Value) : Within Quiet (raise e : Eval σ α) := .throw Quiet.stable _

theorem signal_quiet (e : Value) : Within Quiet (signal e : Eval σ α) :=
  .bind Quiet.stable (log_quiet rfl) fun _ => raise_quiet e

theorem raiseNew_quiet (kind : ErrorKind) (message : String) :
    Within Quiet (raiseNew kind message : Eval σ α) :=
  .bind Quiet.stable (onHeap_quiet _) signal_quiet

theorem setRval_quiet (v : Value) : Within Quiet (setRval v : Eval σ Unit) :=
  fun _ => ⟨rfl, [], (List.append_nil _).symm, nofun⟩

theorem callFunction_body_quiet (host : Host σ) (f : Callable) (receiver : Value)
    (args : List Value) : Within Quiet (callFunction host .body f receiver args) := by
  intro S
  unfold callFunction
  cases (f.call host receiver args).settle S.world with
  | mk result world =>
    cases result with
    | ok v => exact ⟨rfl, [_], rfl, by simp [Event.isPlain]⟩
    | error e => exact ⟨rfl, [_, _], List.append_assoc _ _ _, by simp [Event.isPlain]⟩

theorem callValue_body_quiet (host : Host σ) (callee receiver : Value) (args : List Value) :
    Within Quiet (callValue host .body callee receiver args) := by
  cases callee
  case function f => exact callFunction_body_quiet host f receiver args
  all_goals exact raiseNew_quiet _ _

theorem suspend_quiet (p : Suspension) : Within Quiet (suspend p : Eval σ Value) := by
  intro S
  unfold suspend
  cases S.script with
  | nil => exact ⟨rfl, [_], rfl, by simp [Event.isPlain]⟩
  | cons r rest =>
    simp only
    cases p.accept r.answer <;>
      exact ⟨rfl, [_, _], List.append_assoc _ _ _, by simp [Event.isPlain]⟩

theorem await_quiet (v : Value) : Within Quiet (await v : Eval σ Value) :=
  .bind Quiet.stable (setRval_quiet v) fun _ => suspend_quiet _

theorem yield_quiet (v : Value) : Within Quiet (yield v : Eval σ Value) :=
  .bind Quiet.stable (setRval_quiet v) fun _ => suspend_quiet _

theorem tick_quiet : Within Quiet (tick : Eval σ Unit) :=
  .bind Quiet.stable (await_quiet _) fun _ => .pure Quiet.stable _

theorem tick_ne_thrown {S : CallState σ} (e : Value) (T : CallState σ) :
    (tick : Eval σ Unit) S ≠ .error (.thrown e) T := by
  intro h
  unfold tick await suspend setRval at h
  simp only [bind, EStateM.bind, modify_apply] at h
  cases hscript : S.script with
  | nil =>
    rw [hscript] at h
    cases h
  | cons r rest =>
    rw [hscript] at h
    cases h

theorem iterate_quiet (v : Value) : Within Quiet (iterate v : Eval σ Nat) := by
  cases v
  case list id items =>
    exact .bind Quiet.stable (.get Quiet.stable) fun _ =>
      .bind Quiet.stable (onHeap_quiet _) fun _ => .pure Quiet.stable _
  case iterator id => exact .pure Quiet.stable _
  all_goals exact raiseNew_quiet _ _

theorem nextItem_quiet (id : Nat) : Within Quiet (nextItem id : Eval σ (Option Value)) :=
  .bind Quiet.stable (onHeap_quiet _) fun _ =>
    .bind Quiet.stable (log_quiet rfl) fun _ => .pure Quiet.stable _

theorem closeIterator_quiet (id : Nat) : Within Quiet (closeIterator id : Eval σ (Option Value)) :=
  .bind Quiet.stable (onHeap_quiet _) fun _ =>
    .bind Quiet.stable (log_quiet rfl) fun _ => .pure Quiet.stable _

theorem leaveIterator_quiet (id : Nat) : Within Quiet (leaveIterator id : Eval σ Unit) := by
  refine .bind Quiet.stable (closeIterator_quiet id) fun error => ?_
  cases error with
  | none => exact .pure Quiet.stable _
  | some e => exact signal_quiet e

/-- What is pending, as a pass keeps it in its locals, chains like a completion. -/
theorem chain_eq (u : Bool) (pending : Option Value) (e : Value) :
    (chain u pending e : Eval σ Value) =
      onHeap ((Completion.ofPending pending.isSome (pending.getD .undefined) u).chain e) := by
  cases pending with
  | none => rfl
  | some p => cases u <;> cases p <;> rfl

theorem chain_quiet (u : Bool) (pending : Option Value) (e : Value) :
    Within Quiet (chain u pending e : Eval σ Value) := by
  rw [chain_eq]
  exact onHeap_quiet _

end Eval

mutual

/-- An expression leaves the scopes alone and disposes nothing. -/
theorem Expr.eval_quiet {σ : Type} (host : Host σ) : ∀ (e : Expr) (ρ : Bindings),
    Within Quiet (e.eval host ρ)
  | .undefined, _ | .null, _ | .bool _, _ | .int _, _ | .str _, _ | .binding _, _ =>
    .pure Quiet.stable _
  | .global name, _ => by
    rw [Expr.eval]
    refine .bind Quiet.stable (.get Quiet.stable) fun S => ?_
    cases S.globals.get? name with
    | some v => exact .pure Quiet.stable _
    | none => exact Eval.raiseNew_quiet _ _
  | .call callee args, ρ => by
    rw [Expr.eval]
    exact .bind Quiet.stable (callee.eval_quiet host ρ) fun _ =>
      .bind Quiet.stable (Expr.evalAll_quiet host args ρ) fun _ =>
        Eval.callValue_body_quiet host _ _ _
  | .await e, ρ => by
    rw [Expr.eval]
    exact .bind Quiet.stable (e.eval_quiet host ρ) Eval.await_quiet
  | .yield e, ρ => by
    rw [Expr.eval]
    exact .bind Quiet.stable (e.eval_quiet host ρ) Eval.yield_quiet

theorem Expr.evalAll_quiet {σ : Type} (host : Host σ) : ∀ (es : List Expr) (ρ : Bindings),
    Within Quiet (Expr.evalAll host es ρ)
  | [], _ => by
    rw [Expr.evalAll]
    exact .pure Quiet.stable _
  | e :: es, ρ => by
    rw [Expr.evalAll]
    exact .bind Quiet.stable (e.eval_quiet host ρ) fun _ =>
      .bind Quiet.stable (Expr.evalAll_quiet host es ρ) fun _ => .pure Quiet.stable _

end

/-! ### Disposal -/

namespace Eval

section

variable {σ α : Type} (host : Host σ) (u : Bool)

theorem onHeap_rval (m : OnHeap Value α) : Within SameRval (onHeap m : Eval σ α) := by
  intro S
  unfold onHeap
  cases World.onHeap m S.world <;> rfl

theorem signal_rval (e : Value) : Within SameRval (signal e : Eval σ α) := fun _ => rfl

theorem leaveIterator_rval (id : Nat) : Within SameRval (leaveIterator id : Eval σ Unit) := by
  refine .bind SameRval.stable ?_ fun error => ?_
  · exact .bind SameRval.stable (onHeap_rval _) fun _ =>
      .bind SameRval.stable (fun _ => rfl) fun _ => .pure SameRval.stable _
  · cases error with
    | none => exact .pure SameRval.stable _
    | some e => exact signal_rval e

theorem callFunction_same (origin : Origin) (f : Callable) (receiver : Value) (args : List Value) :
    Within (fun S T => SameScopes S T ∧ SameRval S T) (callFunction host origin f receiver args) := by
  intro S
  unfold callFunction
  cases (f.call host receiver args).settle S.world with
  | mk result world => cases result <;> exact ⟨rfl, rfl⟩

theorem callValue_scopes (origin : Origin) (callee receiver : Value) (args : List Value) :
    Within SameScopes (callValue host origin callee receiver args) := by
  cases callee
  case function f => exact (callFunction_same host origin f receiver args).mono And.left
  all_goals exact (raiseNew_quiet _ _).mono Quiet.same

theorem callValue_rval (origin : Origin) (callee receiver : Value) (args : List Value) :
    Within SameRval (callValue host origin callee receiver args) := by
  cases callee
  case function f => exact (callFunction_same host origin f receiver args).mono And.right
  all_goals exact .bind SameRval.stable (onHeap_rval _) signal_rval

theorem chain_rval (pending : Option Value) (e : Value) :
    Within SameRval (chain u pending e : Eval σ Value) := by
  rw [chain_eq]
  exact onHeap_rval _

theorem callMethod_scopes (r : Resource) (method : Value) (st : PassState) :
    Within SameScopes (callMethod host u r method st) := by
  have hchain : ∀ (pending : Option Value) e, Within SameScopes (chain u pending e : Eval σ Value) :=
    fun pending e => (chain_quiet u pending e).mono Quiet.same
  unfold callMethod
  refine .bind SameScopes.stable (callValue_scopes host _ _ _ _).attempt fun result => ?_
  cases result with
  | error e =>
    exact .bind SameScopes.stable (hchain _ _) fun _ => .pure SameScopes.stable _
  | ok v =>
    cases r.hint with
    | sync => exact .pure SameScopes.stable _
    | async =>
      refine .bind SameScopes.stable ((await_quiet v).mono Quiet.same).attempt fun result => ?_
      cases result with
      | ok _ => exact .pure SameScopes.stable _
      | error e => exact .bind SameScopes.stable (hchain _ _) fun _ => .pure SameScopes.stable _

theorem disposeOne_scopes (r : Resource) (st : PassState) :
    Within SameScopes (disposeOne host u r st) := by
  unfold disposeOne awaitBefore
  refine .bind SameScopes.stable ?_ fun st => ?_
  · split
    · exact .bind SameScopes.stable (tick_quiet.mono Quiet.same) fun _ => .pure SameScopes.stable _
    · exact .pure SameScopes.stable _
  · cases r.method? with
    | some method => exact callMethod_scopes host u r method st
    | none => exact .pure SameScopes.stable _

theorem disposeAll_scopes : ∀ (rs : List Resource) (st : PassState),
    Within SameScopes (disposeAll host u rs st)
  | [], _ => .pure SameScopes.stable _
  | r :: rs, st => by
    rw [disposeAll]
    exact .bind SameScopes.stable (disposeOne_scopes host u r st) fun st =>
      disposeAll_scopes rs st

end

variable {σ : Type} {host : Host σ} {u : Bool}

/-- A sync method is not awaited, so calling it leaves the return slot alone. -/
theorem callMethod_sync {r : Resource} {method : Value} {st st' : PassState} {S T : CallState σ}
    (hr : r.hint = .sync) (h : callMethod host u r method st S = .ok st' T) :
    T.rval = S.rval ∧ st'.needsAwait = st.needsAwait := by
  unfold callMethod at h
  obtain ⟨result, S', hcall, h⟩ := bind_eq_ok.mp h
  have hrval := (callValue_rval host _ _ _ _).attempt.of_ok hcall
  cases result with
  | error e =>
    obtain ⟨p, S'', hchain, h⟩ := bind_eq_ok.mp h
    cases h
    exact ⟨((chain_rval u _ _).of_ok hchain).trans hrval, rfl⟩
  | ok v =>
    simp only [hr] at h
    cases h
    exact ⟨hrval, rfl⟩

/-- Sync methods are not awaited, so calling them leaves the return slot alone. -/
theorem disposeAll_sync : ∀ {rs : List Resource} {st st' : PassState} {S T : CallState σ},
    (∀ r ∈ rs, r.hint = .sync ∧ r.method?.isSome) → st.needsAwait = false →
    disposeAll host u rs st S = .ok st' T → T.rval = S.rval ∧ st'.needsAwait = false
  | [], _, _, _, _, _, hst, h => by
    cases h
    exact ⟨rfl, hst⟩
  | r :: rs, st, st', S, T, hrs, hst, h => by
    rw [disposeAll] at h
    obtain ⟨st₁, S₁, hone, hall⟩ := bind_eq_ok.mp h
    unfold disposeOne at hone
    obtain ⟨st₂, S₂, hbefore, hcall⟩ := bind_eq_ok.mp hone
    unfold awaitBefore at hbefore
    rw [if_neg (by simp [hst])] at hbefore
    cases hbefore
    obtain ⟨hsync, hmethod⟩ := hrs r List.mem_cons_self
    obtain ⟨method, hmethod⟩ := Option.isSome_iff_exists.mp hmethod
    simp only [hmethod] at hcall
    have hcall := callMethod_sync hsync hcall
    have hall := disposeAll_sync (fun r hr => hrs r (List.mem_cons_of_mem _ hr))
      (hcall.2.trans hst) hall
    exact ⟨hall.1.trans hcall.1, hall.2⟩

/-- Taking the resources empties the innermost scope and then works on the heap. -/
theorem takeResources_eq {S : CallState σ} {c : Capability} {cs : List Capability}
    (hS : S.scopes = c :: cs) :
    takeResources S =
      (do
        let boxes ← onHeap (Heap.newResources c.resources)
        let _ ← onHeap (Heap.newList boxes)
        pure c.resources : Eval σ (List Resource)) { S with scopes := .empty :: cs } := by
  simp only [takeResources, bind, EStateM.bind, get_apply, hS, modify_apply]

/-- What is taken out of a scope uses up identities. -/
theorem takeResources_apply {S : CallState σ} {c : Capability} {cs : List Capability}
    (hscopes : S.scopes = c :: cs) :
    takeResources S = .ok c.resources
      { S with
        scopes := .empty :: cs
        world.heap.identities := S.world.heap.identities + c.resources.length + 1 } := by
  obtain ⟨vs, -, hvs⟩ := newResources_boxes c.resources S.world.heap
  simp only [takeResources_eq hscopes, bind, EStateM.bind, onHeap, World.onHeap, hvs]
  rfl

/-- A pass leaves the innermost scope empty and the others as they are. -/
theorem pass_scopes (kind : FunctionKind) (pending : Option Value) {S : CallState σ}
    {c : Capability} {cs : List Capability} (hS : S.scopes = c :: cs) :
    (stateOf (pass host kind pending S)).scopes = .empty :: cs := by
  let rest := fun rs : List Resource => do
    let st ← disposeAll host (kind.isGenerator && pending.isSome) rs.reverse ⟨pending, false, false⟩
    awaitAfter st
    setRval S.rval
    return st.pending
  have hpass : pass host kind pending S =
      ((do
        let boxes ← onHeap (Heap.newResources c.resources)
        let _ ← onHeap (Heap.newList boxes)
        pure c.resources : Eval σ (List Resource)) >>= rest) { S with scopes := .empty :: cs } := by
    show EStateM.bind takeResources rest S = _
    unfold EStateM.bind
    rw [takeResources_eq hS]
    rfl
  have hrest : ∀ rs, Within SameScopes (rest rs) := fun rs => by
    refine .bind SameScopes.stable (disposeAll_scopes host _ _ _) fun st => ?_
    refine .bind SameScopes.stable ?_ fun _ => ?_
    · unfold awaitAfter
      split
      · exact tick_quiet.mono Quiet.same
      · exact .pure SameScopes.stable _
    · exact .bind SameScopes.stable ((setRval_quiet _).mono Quiet.same) fun _ =>
        .pure SameScopes.stable _
  rw [hpass]
  refine (Within.bind SameScopes.stable ?_ hrest) { S with scopes := .empty :: cs }
  exact .bind SameScopes.stable ((onHeap_quiet _).mono Quiet.same) fun _ =>
    .bind SameScopes.stable ((onHeap_quiet _).mono Quiet.same) fun _ => .pure SameScopes.stable _

/-- A pass saves the return slot. -/
theorem pass_rval {kind : FunctionKind} {pending pending' : Option Value} {S T : CallState σ}
    (h : pass host kind pending S = .ok pending' T) : T.rval = S.rval := by
  obtain ⟨S₀, _, hget, h⟩ := bind_eq_ok.mp h
  cases hget
  obtain ⟨_, _, -, h⟩ := bind_eq_ok.mp h
  obtain ⟨st, _, -, h⟩ := bind_eq_ok.mp h
  obtain ⟨_, _, -, h⟩ := bind_eq_ok.mp h
  obtain ⟨_, _, hset, hend⟩ := bind_eq_ok.mp h
  cases hset
  cases hend
  rfl

end Eval
end ResourceMachine
