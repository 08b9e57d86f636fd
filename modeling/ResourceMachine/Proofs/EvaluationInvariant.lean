/-
# Invariants of evaluations

An invariant that no part of an evaluation breaks holds all along: a statement that is
executed where it holds of a call that is calm leads to where it holds of the call as it
was left (`Stmt.exec_kept`), and so does a whole call (`Declaration.run_kept`). The
scopes of the call are on the way what they have to be: a statement leaves those around
its own as they are (`Invariant.Scoped`).

Key definitions: `Invariant.Scoped`, `Invariant.Keeps`, `Invariant.HoldsOf`.
Key theorems: `Invariant.pass_meets`, `Invariant.inScope_keeps`, `Stmt.exec_kept`,
`Declaration.run_kept`.
-/
import ResourceMachine.Proofs.Registration

namespace ResourceMachine

/-- A body whose scope is disposed behind its end. -/
def Eval.leaving {σ : Type} (host : Host σ) (kind : FunctionKind) (body : Eval σ Exit) : Eval σ Exit := do
  let x ← body
  Eval.leave host kind
  return x

namespace Invariant

variable {σ : Type} {I : Invariant σ} {host : Host σ} {kind : FunctionKind} {catches : Bool}
  {registers more : Bool} {S : CallState σ} {φ : Phase} {m : Mood}

/-! ### Exceptions -/

/-- An exception was thrown in a phase. -/
def Thrown (I : Invariant σ) (φ : Phase) (e : Value) (S : CallState σ) : Prop :=
  ∀ id, I.holds (φ.thrown id e) S

/-- An exception is on its way out of the function. -/
abbrev Throws (I : Invariant σ) (e : Value) (S : CallState σ) : Prop := I.holds (.running (.throwing e)) S

theorem Thrown.throws {e : Value} (h : I.Thrown (.running m) e S) : I.Throws e S := h 0

section

variable (hI : I.Lawful host kind catches)
include hI

theorem signal_meets {α : Type} {e : Value} {Q : α → CallState σ → Prop} (hφ : φ.mayThrow = true)
    (h : I.holds φ S) (he : I.fine e) : Eval.Meets (Eval.signal e) S Q (I.Thrown φ) I.left :=
  fun id => hI.raise id hφ h he

/-- A new error is raised. -/
theorem raiseNew_meets {α : Type} {Q : α → CallState σ → Prop} (kind : ErrorKind) (message : String)
    (hφ : φ.mayThrow = true) (h : I.holds φ S) :
    Eval.Meets (Eval.raiseNew kind message) S Q (I.Thrown φ) I.left := by
  have hfresh : I.holds φ (S.withHeap { S.world.heap with identities := S.world.heap.identities + 1 }) :=
    hI.fresh _ h
  exact fun id => hI.raise id hφ hfresh (hI.plain (.error S.world.heap.identities kind message) rfl)

/-! ### Suspensions -/

theorem suspend_meets {p : Suspension} (hp : p.AllowedIn kind φ) (h : I.holds φ S) (hv : I.fine p.value) :
    Eval.Meets (Eval.suspend p) S (fun v S' => I.fine v ∧ I.holds φ S') (I.Thrown φ) I.left := by
  obtain ⟨world, globals, script, trace, rval, scopes⟩ := S
  unfold Eval.Meets Eval.suspend
  cases script with
  | nil => exact hI.stop hp h hv
  | cons r rest =>
    have htrace : (trace ++ [.suspend p]) ++ [.resume (p.accept r.answer)] =
        trace ++ [.suspend p, .resume (p.accept r.answer)] := by simp
    simp only [htrace]
    cases haccept : p.accept r.answer with
    | next v =>
      have := hI.next hp h hv rfl haccept
      rwa [CallState.answered, haccept] at this
    | throw e =>
      intro id
      have := hI.throw id hp h hv rfl haccept
      rwa [CallState.answered, haccept] at this
    | ret v =>
      cases p with
      | await w => cases w <;> cases hr : r.answer <;> simp [Suspension.accept, hr] at haccept
      | yield w =>
        obtain ⟨hkind, rfl⟩ := hp
        intro id
        have := hI.close hkind h hv rfl haccept
        rwa [CallState.answered, haccept] at this

theorem await_meets {v : Value} (hkind : kind.isAsync = true) (hφ : φ.maySuspend = true)
    (h : I.holds φ S) (hv : I.fine v) :
    Eval.Meets (Eval.await v) S (fun v S' => I.fine v ∧ I.holds φ S') (I.Thrown φ) I.left :=
  suspend_meets hI ⟨hkind, hφ⟩ (hI.setRval hφ h hv) hv

theorem yield_meets {v : Value} (hkind : kind.isGenerator = true) (h : I.holds (.running .calm) S)
    (hv : I.fine v) :
    Eval.Meets (Eval.yield v) S (fun v S' => I.fine v ∧ I.holds (.running .calm) S')
      (I.Thrown (.running .calm)) I.left :=
  suspend_meets hI (p := .yield v) ⟨hkind, rfl⟩ (hI.setRval rfl h hv) hv

/-! ### Expressions -/

theorem callValue_meets {f : Value} {args : List Value} (h : I.holds (.running .calm) S)
    (hargs : ∀ v ∈ args, I.fine v) :
    Eval.Meets (Eval.callValue host .body f .undefined args) S
      (fun v S' => I.fine v ∧ I.holds (.running .calm) S') I.Throws I.left := by
  cases f
  case function f =>
    show Eval.Meets (Eval.callFunction host .body f .undefined args) S _ _ _
    unfold Eval.Meets Eval.callFunction
    cases hcall : (f.call host .undefined args).settle S.world with
    | mk result world =>
      obtain ⟨hfine, hcalled⟩ := hI.call h hargs hcall
      cases result with
      | ok v => exact ⟨hfine v (.inl rfl), hcalled⟩
      | error e => exact hI.raise (φ := .running .calm) 0 rfl hcalled (hfine e (.inr rfl))
  all_goals exact (raiseNew_meets hI _ _ rfl h).imp (fun _ _ h => h) fun _ _ h => h.throws

end

mutual

/-- Where all bindings are fine, an expression yields a fine value. -/
theorem eval_meets (hI : I.Lawful host kind catches) {names : List String} {ρ : Bindings}
    (hρ : ∀ b ∈ ρ, I.fine b.2) :
    ∀ {e : Expr} {S : CallState σ}, e.Valid kind names → I.holds (.running .calm) S →
      Eval.Meets (e.eval host ρ) S (fun v S' => I.fine v ∧ I.holds (.running .calm) S') I.Throws I.left
  | .undefined, _, _, h | .null, _, _, h | .bool _, _, _, h | .int _, _, _, h | .str _, _, _, h => by
    rw [Expr.eval]
    exact .pure ⟨hI.plain _ rfl, h⟩
  | .binding name, _, _, h => by
    rw [Expr.eval]
    refine .pure ⟨?_, h⟩
    cases hname : ρ.lookup name with
    | none => exact hI.plain _ rfl
    | some v =>
      obtain ⟨xs, ys, heq, -⟩ := List.lookup_eq_some_iff.mp hname
      exact hρ (name, v) (by rw [heq]; exact List.mem_append_right _ List.mem_cons_self)
  | .global name, S, _, h => by
    rw [Expr.eval]
    refine .bind (Q := fun a S' => a = S ∧ S' = S) (.get ⟨rfl, rfl⟩) ?_
    rintro _ _ ⟨rfl, rfl⟩
    split
    · exact .pure ⟨hI.global h ‹_›, h⟩
    · exact (raiseNew_meets hI _ _ rfl h).imp (fun _ _ h => h) fun _ _ h => h.throws
  | .call callee args, _, ⟨_, hcallee, hargs⟩, h => by
    rw [Expr.eval]
    refine .bind (eval_meets hI hρ hcallee h) ?_
    rintro f S' ⟨-, h⟩
    refine .bind (evalAll_meets hI hρ hargs h) ?_
    rintro vs S'' ⟨hvs, h⟩
    exact callValue_meets hI h hvs
  | .await e, _, ⟨hkind, he⟩, h => by
    rw [Expr.eval]
    refine .bind (eval_meets hI hρ he h) ?_
    rintro v S' ⟨hv, h⟩
    exact (await_meets hI hkind rfl h hv).imp (fun _ _ h => h) fun _ _ h => h.throws
  | .yield e, _, ⟨hkind, he⟩, h => by
    rw [Expr.eval]
    refine .bind (eval_meets hI hρ he h) ?_
    rintro v S' ⟨hv, h⟩
    exact (yield_meets hI hkind h hv).imp (fun _ _ h => h) fun _ _ h => h.throws

theorem evalAll_meets (hI : I.Lawful host kind catches) {names : List String} {ρ : Bindings}
    (hρ : ∀ b ∈ ρ, I.fine b.2) :
    ∀ {es : List Expr} {S : CallState σ}, Expr.ValidAll kind names es → I.holds (.running .calm) S →
      Eval.Meets (Expr.evalAll host es ρ) S
        (fun vs S' => (∀ v ∈ vs, I.fine v) ∧ I.holds (.running .calm) S') I.Throws I.left
  | [], _, _, h => by
    rw [Expr.evalAll]
    exact .pure ⟨nofun, h⟩
  | e :: es, _, ⟨he, hes⟩, h => by
    rw [Expr.evalAll]
    refine .bind (eval_meets hI hρ he h) ?_
    rintro v S' ⟨hv, h⟩
    refine .bind (evalAll_meets hI hρ hes h) ?_
    rintro vs S'' ⟨hvs, h⟩
    exact .pure ⟨List.forall_mem_cons.mpr ⟨hv, hvs⟩, h⟩

end

section

variable (hI : I.Lawful host kind catches)
include hI

/-! ### Iterators -/

theorem iterate_meets {v : Value} (h : I.holds (.running .calm) S) (hv : I.fine v) :
    Eval.Meets (Eval.iterate v) S (fun _ S' => I.holds (.running .calm) S') I.Throws I.left := by
  cases v
  case list id items => exact hI.iterate h hv
  case iterator id => exact .pure h
  all_goals exact (raiseNew_meets hI _ _ rfl h).imp (fun _ _ h => h) fun _ _ h => h.throws

theorem nextItem_meets {id : Nat} (h : I.holds (.running .calm) S) :
    Eval.Meets (Eval.nextItem id) S
      (fun item S' => (∀ v, item = some v → I.fine v) ∧ I.holds (.running .calm) S') I.Throws I.left :=
  hI.nextItem h rfl

theorem closeIterator_meets {id : Nat} {R : Value → CallState σ → Prop} (h : I.holds (.running m) S) :
    Eval.Meets (Eval.closeIterator id) S
      (fun error S' => (∀ e, error = some e → I.fine e) ∧ I.holds (.running m) S') R I.left :=
  hI.closeIterator h rfl

theorem leaveIterator_meets {id : Nat} (hm : (Phase.running m).mayThrow = true)
    (h : I.holds (.running m) S) :
    Eval.Meets (Eval.leaveIterator id) S (fun _ S' => I.holds (.running m) S') I.Throws I.left := by
  refine .bind (closeIterator_meets hI h) ?_
  rintro error S' ⟨hfine, h⟩
  cases error with
  | none => exact .pure h
  | some e => exact (signal_meets hI hm h (hfine e rfl)).imp (fun _ _ h => h) fun _ _ h => h.throws

end

/-! ### Scopes -/

/-- Resources in scopes are sound. -/
def SoundIn (kind : FunctionKind) (cs : List Capability) : Prop :=
  ∀ c ∈ cs, ∀ r ∈ c.resources, r.Sound kind

/-- Of the scopes, only the innermost has changed, and it may have registered more, if what
was done `registers`. -/
structure Scoped (kind : FunctionKind) (registers : Bool) (cs : List Capability) (S : CallState σ) :
    Prop where
  length_eq : S.scopes.length = cs.length
  tail_eq : S.scopes.tail = cs.tail
  eq_of_not : registers = false → S.scopes = cs
  sound : SoundIn kind S.scopes

theorem SoundIn.cons_empty {cs : List Capability} (h : SoundIn kind cs) :
    SoundIn kind (.empty :: cs) :=
  List.forall_mem_cons.mpr ⟨nofun, h⟩

theorem SoundIn.tail {c : Capability} {cs : List Capability} (h : SoundIn kind (c :: cs)) :
    SoundIn kind cs := (List.forall_mem_cons.mp h).2

theorem Scoped.same {cs : List Capability} (h : S.scopes = cs) (hsound : SoundIn kind cs) :
    Scoped kind registers cs S := ⟨by rw [h], by rw [h], fun _ => h, by rwa [h]⟩

theorem Scoped.trans {cs : List Capability} {S' : CallState σ} (h : Scoped kind registers cs S)
    (h' : Scoped kind registers S.scopes S') : Scoped kind registers cs S' :=
  ⟨h'.length_eq.trans h.length_eq, h'.tail_eq.trans h.tail_eq,
    fun hr => (h'.eq_of_not hr).trans (h.eq_of_not hr), h'.sound⟩

theorem Scoped.weaken {cs : List Capability} (h : Scoped kind registers cs S)
    (hr : registers = true → more = true) : Scoped kind more cs S where
  length_eq := h.length_eq
  tail_eq := h.tail_eq
  eq_of_not hmore := h.eq_of_not (Bool.eq_false_iff.mpr fun htrue => by simp [hr htrue] at hmore)
  sound := h.sound

/-- Around an inner scope, the scopes are those that were there. -/
theorem Scoped.cons_eq {c : Capability} {cs : List Capability} (h : Scoped kind registers (c :: cs) S) :
    ∃ c', S.scopes = c' :: cs := by
  obtain ⟨hlength, htail, -, -⟩ := h
  cases hS : S.scopes with
  | nil =>
    rw [hS] at hlength
    cases hlength
  | cons c' cs' =>
    rw [hS] at htail
    exact ⟨c', congrArg _ htail⟩

section

variable (hI : I.Lawful host kind catches)
include hI

theorem register_meets {v : Value} {hint : Hint} {c : Capability} {cs : List Capability}
    (h : I.holds (.running .calm) S) (hv : I.fine v) (hhint : hint = .async → kind.isAsync = true)
    (hscopes : S.scopes = c :: cs) (hsound : SoundIn kind S.scopes) :
    Eval.Meets (Eval.register v hint) S
      (fun _ S' => I.holds (.running .calm) S' ∧ Scoped kind true S.scopes S')
      (fun e S' => I.Throws e S' ∧ Scoped kind true S.scopes S') I.left := by
  obtain ⟨⟨heap, w⟩, globals, script, trace, rval, scopes⟩ := S
  obtain rfl : scopes = c :: cs := hscopes
  have hlook := Looks.createResource v hint heap
  unfold Eval.Meets Eval.register Eval.attempt Eval.onHeap World.onHeap
  simp only [bind, EStateM.bind]
  cases hres : createResource v hint heap with
  | ok record heap' =>
    rw [hres] at hlook
    obtain ⟨⟨n, rfl⟩, hrecord⟩ := hlook
    cases record with
    | none => exact ⟨hI.fresh n h, .same rfl hsound⟩
    | some r =>
      obtain ⟨hvalue, hrhint, hmethod⟩ := hrecord r rfl
      have hr : r.Sound kind := ⟨hmethod, fun h => hhint (hrhint ▸ h)⟩
      have hfine : I.fine r.value := by
        rcases hvalue with heq | heq
        · rwa [heq]
        · rw [heq]
          exact hI.plain _ rfl
      obtain ⟨hc, hcs⟩ := List.forall_mem_cons.mp hsound
      refine ⟨hI.register n h hfine hr rfl, rfl, rfl, nofun, List.forall_mem_cons.mpr ⟨?_, hcs⟩⟩
      intro r' hr'
      rcases List.mem_append.mp hr' with hr' | hr'
      · exact hc r' hr'
      · rwa [List.mem_singleton.mp hr']
  | error e heap' =>
    rw [hres] at hlook
    obtain ⟨⟨n, rfl⟩, hplain⟩ := hlook
    exact ⟨hI.raise (φ := .running .calm) 0 rfl (hI.fresh n h) (hI.plain e hplain), .same rfl hsound⟩

/-! ### Passes -/

/-- What is thrown in a pass is chained to what is pending. -/
theorem chain_meets {u : Bool} {rval e : Value} {rs : List Resource} {R : Value → CallState σ → Prop}
    (h : I.Thrown (.disposing u rval m rs) e S) :
    Eval.Meets (Eval.chain u m.pending e) S
      (fun p S' => I.holds (.disposing u rval (.throwing p) rs) S') R I.left := by
  have hfresh (p : Value) (h : I.holds (.disposing u rval (.throwing p) rs) S) :
      I.holds (.disposing u rval (.throwing p) rs)
        (S.withHeap { S.world.heap with identities := S.world.heap.identities + 1 }) := hI.fresh _ h
  have h : I.holds (.disposing u rval
      (.throwing (chained u S.world.heap.identities e m.pending)) rs) S := h S.world.heap.identities
  unfold Eval.Meets Eval.chain
  cases hp : m.pending with
  | none =>
    rw [hp] at h
    exact h
  | some p =>
    rw [hp] at h
    cases p
    case closing =>
      cases u with
      | true => exact h
      | false => exact hfresh _ h
    all_goals exact hfresh _ h

/-- The method of a resource is called. -/
theorem disposeCall_meets {u : Bool} {rval : Value} {r : Resource} {rs : List Resource} {f : Callable}
    (h : I.holds (.disposing u rval m (r :: rs)) S) (hf : r.method = some (.function f)) :
    Eval.Meets (Eval.callValue host .pass (.function f) r.value []) S
      (fun v S' => I.fine v ∧ I.holds (.disposing u rval m rs) S')
      (I.Thrown (.disposing u rval m rs)) I.left := by
  show Eval.Meets (Eval.callFunction host .pass f r.value []) S _ _ _
  unfold Eval.Meets Eval.callFunction
  cases hcall : (f.call host r.value []).settle S.world with
  | mk result world =>
    obtain ⟨hfine, hcalled⟩ := hI.dispose h hf hcall
    cases result with
    | ok v => exact ⟨hfine v (.inl rfl), hcalled⟩
    | error e => exact fun id => hI.raise id rfl hcalled (hfine e (.inr rfl))

/-- What the method returns is awaited if that is due. -/
theorem callMethod_meets {u : Bool} {rval : Value} {r : Resource} {rs : List Resource} {f : Callable}
    {st : Eval.PassState} {R : Value → CallState σ → Prop} (h : I.holds (.disposing u rval m (r :: rs)) S)
    (hr : r.Sound kind) (hf : r.method = some (.function f)) (hst : st.pending = m.pending)
    (hawait : st.needsAwait = true → kind.isAsync = true) :
    Eval.Meets (Eval.callMethod host u r (.function f) st) S
      (fun st' S' => ∃ m', st'.pending = m'.pending ∧ (m' = m ∨ ∃ p, m' = .throwing p) ∧
        (st'.needsAwait = true → kind.isAsync = true) ∧ I.holds (.disposing u rval m' rs) S')
      R I.left := by
  unfold Eval.callMethod
  refine .bind (disposeCall_meets hI h hf).attempt ?_
  rintro (e | v) S' h
  · rw [hst]
    refine .bind (chain_meets hI h) ?_
    intro p T h
    exact .pure ⟨.throwing p, rfl, .inr ⟨p, rfl⟩, hawait, h⟩
  · obtain ⟨hv, h⟩ := h
    cases hhint : r.hint with
    | sync => exact .pure ⟨m, hst, .inl rfl, hawait, h⟩
    | async =>
      refine .bind (await_meets hI (hr.async hhint) rfl h hv).attempt ?_
      rintro (e | v) T h
      · rw [hst]
        refine .bind (chain_meets hI h) ?_
        intro p U h
        exact .pure ⟨.throwing p, rfl, .inr ⟨p, rfl⟩, hawait, h⟩
      · exact .pure ⟨m, hst, .inl rfl, hawait, h.2⟩

theorem tick_meets {u : Bool} {rval : Value} {rs : List Resource} {R : Value → CallState σ → Prop}
    (hkind : kind.isAsync = true) (h : I.holds (.disposing u rval m rs) S) :
    Eval.Meets Eval.tick S (fun _ S' => I.holds (.disposing u rval m rs) S') R I.left := by
  have hawait := await_meets hI (v := .undefined) hkind rfl h (hI.plain _ rfl)
  have htick : Eval.Meets Eval.tick S (fun _ S' => I.holds (.disposing u rval m rs) S')
      (I.Thrown (.disposing u rval m rs)) I.left :=
    .bind hawait fun _ _ h => .pure h.2
  -- what is no promise is its own answer, so nothing is thrown
  have hne := Eval.tick_ne_thrown (S := S)
  unfold Eval.Meets at htick ⊢
  match hx : Eval.tick S, htick with
  | .ok _ _, h => exact h
  | .error (.thrown e) S', _ => exact absurd hx (hne e S')
  | .error (.suspended _) _, h => exact h
  | .error .outOfFuel _, h => exact h

/-- What a pass carries where it has these resources left. -/
structure Carries (I : Invariant σ) (kind : FunctionKind) (u : Bool) (rval : Value) (m : Mood)
    (rs : List Resource) (st : Eval.PassState) (S : CallState σ) : Prop where
  phase : ∃ m', st.pending = m'.pending ∧ (m' = m ∨ ∃ p, m' = .throwing p) ∧
    I.holds (.disposing u rval m' rs) S
  awaits : st.needsAwait = true → kind.isAsync = true

theorem awaitBefore_meets {u : Bool} {rval : Value} {r : Resource} {rs : List Resource}
    {st : Eval.PassState} {R : Value → CallState σ → Prop} (h : Carries I kind u rval m rs st S) :
    Eval.Meets (Eval.awaitBefore r st) S (Carries I kind u rval m rs) R I.left := by
  obtain ⟨⟨m', hpending, hm', h⟩, hawait⟩ := h
  unfold Eval.awaitBefore
  split
  · rename_i hdue
    exact .bind (tick_meets hI (hawait hdue.2.1) h) fun _ _ h => .pure ⟨⟨m', hpending, hm', h⟩, nofun⟩
  · exact .pure ⟨⟨m', hpending, hm', h⟩, hawait⟩

theorem disposeOne_meets {u : Bool} {rval : Value} {r : Resource} {rs : List Resource}
    {st : Eval.PassState} {R : Value → CallState σ → Prop} (h : Carries I kind u rval m (r :: rs) st S)
    (hr : r.Sound kind) :
    Eval.Meets (Eval.disposeOne host u r st) S (Carries I kind u rval m rs) R I.left := by
  unfold Eval.disposeOne
  refine .bind (awaitBefore_meets hI h) ?_
  rintro st' S' ⟨⟨m', hpending, hm', h⟩, hawait⟩
  rcases hr.method with ⟨f, hf⟩ | ⟨hnone, hasync⟩
  · have hmethod : r.method? = some (.function f) := by rw [Record.method?, hf]; rfl
    rw [hmethod]
    refine (callMethod_meets hI h hr hf hpending hawait).imp ?_ fun _ _ h => h
    rintro st'' S'' ⟨m'', hpending, hm'', hawait, h⟩
    refine ⟨⟨m'', hpending, ?_, h⟩, hawait⟩
    rcases hm'' with rfl | hm''
    · exact hm'
    · exact .inr hm''
  · have hmethod : r.method? = none := by rw [Record.method?, hnone]; rfl
    rw [hmethod]
    exact .pure ⟨⟨m', hpending, hm', hI.skip h hnone⟩, fun _ => hr.async hasync⟩

theorem disposeAll_meets {u : Bool} {rval : Value} {R : Value → CallState σ → Prop} :
    ∀ {rs : List Resource} {st : Eval.PassState} {S : CallState σ}, Carries I kind u rval m rs st S →
      (∀ r ∈ rs, r.Sound kind) →
      Eval.Meets (Eval.disposeAll host u rs st) S (Carries I kind u rval m []) R I.left
  | [], _, _, h, _ => .pure h
  | r :: rs, _, _, h, hrs => by
    rw [Eval.disposeAll]
    refine .bind (disposeOne_meets hI h (hrs r List.mem_cons_self)) ?_
    intro st' S' h
    exact disposeAll_meets h fun r' hr' => hrs r' (List.mem_cons_of_mem _ hr')

/-- A pass that was started disposes and ends in the mood in which it started, unless
it throws. -/
theorem passRest_meets {u : Bool} {rval : Value} {rs : List Resource} {R : Value → CallState σ → Prop}
    (h : I.holds (.disposing u rval m rs) S) (hrs : ∀ r ∈ rs, r.Sound kind) :
    Eval.Meets (do
        let st ← Eval.disposeAll host u rs ⟨m.pending, false, false⟩
        Eval.awaitAfter st
        Eval.setRval rval
        return st.pending) S
      (fun pending S' => ∃ m', pending = m'.pending ∧ (m' = m ∨ ∃ p, m' = .throwing p) ∧
        I.holds (.running m') S') R I.left := by
  have hst : Carries I kind u rval m rs ⟨m.pending, false, false⟩ S := ⟨⟨m, rfl, .inl rfl, h⟩, nofun⟩
  refine .bind (disposeAll_meets hI hst hrs) ?_
  rintro st S' ⟨⟨m', hpending, hm', h⟩, hawait⟩
  have hafter : Eval.Meets (Eval.awaitAfter st) S' (fun _ S' => I.holds (.disposing u rval m' []) S')
      R I.left := by
    unfold Eval.awaitAfter
    split
    · rename_i hdue
      exact tick_meets hI (hawait hdue.1) h
    · exact .pure h
  refine .bind hafter ?_
  intro _ S'' h
  exact .bind (Q := fun _ S' => I.holds (.running m') S') (.modify (hI.done h)) fun _ _ h =>
    .pure ⟨m', hpending, hm', h⟩

end

/-- The resources of the innermost scope are taken, which makes new identities. -/
theorem takeResources_eq {c : Capability} {cs : List Capability} (hscopes : S.scopes = c :: cs) :
    ∃ n, Eval.takeResources S = .ok c.resources (({ S with scopes := .empty :: cs } : CallState σ).withHeap
      { S.world.heap with identities := n }) := by
  obtain ⟨vs, -, hboxes⟩ := newResources_boxes c.resources S.world.heap
  refine ⟨S.world.heap.identities + c.resources.length + 1, ?_⟩
  rw [Eval.takeResources_eq hscopes]
  simp only [bind, EStateM.bind, Eval.onHeap, World.onHeap, hboxes]
  rfl

/-- A pass disposes the resources of the innermost scope. -/
theorem pass_eq (host : Host σ) (kind : FunctionKind) (pending : Option Value) {c : Capability}
    {cs : List Capability} (hscopes : S.scopes = c :: cs) : ∃ n, Eval.pass host kind pending S =
      (do
        let st ← Eval.disposeAll host (kind.isGenerator && pending.isSome) c.resources.reverse
          ⟨pending, false, false⟩
        Eval.awaitAfter st
        Eval.setRval S.rval
        return st.pending : Eval σ (Option Value))
        (({ S with scopes := .empty :: cs } : CallState σ).withHeap
          { S.world.heap with identities := n }) := by
  obtain ⟨n, htake⟩ := takeResources_eq hscopes
  refine ⟨n, ?_⟩
  show EStateM.bind Eval.takeResources _ S = _
  unfold EStateM.bind
  rw [htake]

section

variable (hI : I.Lawful host kind catches)
include hI

/-- A pass that disposes because of what is on its way out leaves the scope empty. -/
theorem pass_meets {c : Capability} {cs : List Capability} {R : Value → CallState σ → Prop}
    (h : I.holds (.running m) S) (hscopes : S.scopes = c :: cs) (hsound : SoundIn kind S.scopes) :
    Eval.Meets (Eval.pass host kind m.pending) S
      (fun pending S' => (∃ m', pending = m'.pending ∧ (m' = m ∨ ∃ p, m' = .throwing p) ∧
        I.holds (.running m') S') ∧ S'.scopes = .empty :: cs) R I.left := by
  have hrs : ∀ r ∈ c.resources.reverse, r.Sound kind := fun r hr =>
    hsound c (by rw [hscopes]; exact List.mem_cons_self) r (List.mem_reverse.mp hr)
  obtain ⟨n, hpass⟩ := pass_eq host kind m.pending hscopes
  have htake := hI.fresh n (hI.take (kind.isGenerator && m.pending.isSome) h hscopes fun hp => by
    rw [hp, Bool.and_true])
  have hmeets : Eval.Meets (Eval.pass host kind m.pending) S
      (fun pending S' => ∃ m', pending = m'.pending ∧ (m' = m ∨ ∃ p, m' = .throwing p) ∧
        I.holds (.running m') S') (fun _ _ => False) I.left := by
    unfold Eval.Meets
    rw [hpass]
    exact passRest_meets hI htake hrs
  exact (hmeets.scopes (Eval.pass_scopes kind m.pending hscopes)).imp (fun _ _ h => h)
    fun _ _ h => h.1.elim

/-- The second pass behind a block finds nothing to dispose. -/
theorem emptyPass_meets {cs : List Capability} {R : Value → CallState σ → Prop}
    (h : I.holds (.running .calm) S) (hscopes : S.scopes = .empty :: cs) :
    Eval.Meets (Eval.pass host kind (some .undefined)) S
      (fun _ S' => I.holds (.running .calm) S' ∧ S'.scopes = .empty :: cs) R I.left := by
  obtain ⟨n, hpass⟩ := pass_eq host kind (some .undefined) hscopes
  have htake := hI.fresh n (hI.take (kind.isGenerator && true) h hscopes nofun)
  have hmeets : Eval.Meets (Eval.pass host kind (some .undefined)) S
      (fun _ S' => I.holds (.running .calm) S') (fun _ _ => False) I.left := by
    unfold Eval.Meets
    rw [hpass]
    exact hI.done htake
  exact (hmeets.scopes (Eval.pass_scopes kind (some .undefined) hscopes)).imp (fun _ _ h => h)
    fun _ _ h => h.1.elim

/-- Disposing on a way out. -/
theorem leave_meets {c : Capability} {cs : List Capability} (hm : m.pending = none)
    (h : I.holds (.running m) S) (hscopes : S.scopes = c :: cs) (hsound : SoundIn kind S.scopes) :
    Eval.Meets (Eval.leave host kind) S
      (fun _ S' => I.holds (.running m) S' ∧ S'.scopes = .empty :: cs)
      (fun e S' => I.Throws e S' ∧ S'.scopes = .empty :: cs) I.left := by
  have hpass := pass_meets hI (R := fun e S' => I.Throws e S' ∧ S'.scopes = .empty :: cs) h hscopes hsound
  rw [hm] at hpass
  refine .bind hpass ?_
  rintro pending S' ⟨⟨m', rfl, hm', h'⟩, hscopes'⟩
  rcases hm' with rfl | ⟨p, rfl⟩
  · rw [hm]
    exact .pure ⟨h', hscopes'⟩
  · exact .raise ⟨h', hscopes'⟩

/-- Closing a scope that was disposed. -/
theorem closeScope_meets {cs : List Capability} {R : Value → CallState σ → Prop}
    (h : I.holds (.running m) S) (hscopes : S.scopes = .empty :: cs) :
    Eval.Meets Eval.closeScope S (fun _ S' => I.holds (.running m) S' ∧ S'.scopes = cs) R I.left := by
  obtain ⟨world, globals, script, trace, rval, scopes⟩ := S
  obtain rfl : scopes = .empty :: cs := hscopes
  exact ⟨hI.closeScope h rfl, rfl⟩

/-- Disposing because of an exception. -/
theorem leaveByThrow_meets {e : Value} {c : Capability} {cs : List Capability}
    {R : Value → CallState σ → Prop} (h : I.Throws e S) (hscopes : S.scopes = c :: cs)
    (hsound : SoundIn kind S.scopes) :
    Eval.Meets (Eval.leaveByThrow host kind e) S (fun p S' => I.Throws p S' ∧ S'.scopes = cs) R
      I.left := by
  refine .bind (pass_meets hI (m := .throwing e) h hscopes hsound) ?_
  rintro pending S' ⟨⟨m', rfl, hm', h⟩, hscopes'⟩
  obtain ⟨p, rfl⟩ : ∃ p, m' = .throwing p := by
    rcases hm' with rfl | hm'
    · exact ⟨e, rfl⟩
    · exact hm'
  exact .bind (closeScope_meets hI h hscopes') fun _ _ h => .pure h

end

/-! ### Statements -/

/-- Where a body is executed, the invariant holds of the call as it is left. A body that
registers resources needs a scope. -/
def Keeps (I : Invariant σ) (kind : FunctionKind) (registers : Bool) (body : Eval σ Exit) : Prop :=
  ∀ S, I.holds (.running .calm) S → SoundIn kind S.scopes → (registers = true → S.scopes ≠ []) →
    body.Meets S (fun x S' => I.holds (.running x.mood) S' ∧ Scoped kind registers S.scopes S')
      (fun e S' => I.Throws e S' ∧ Scoped kind registers S.scopes S') I.left

theorem mood_pending (x : Exit) : x.mood.pending = none := by
  cases x <;> rfl

theorem mood_of_continues {x : Exit} {label : Option String} (h : x.continues label = true) :
    x.mood = .calm := by
  cases x <;> first | rfl | cases h

theorem leaveLoop_mood (label : Option String) (x : Exit) : (x.leaveLoop label).mood = x.mood := by
  unfold Exit.leaveLoop
  split
  · cases x <;> first | rfl | contradiction
  · rfl

theorem mood_of_isNormal {x : Exit} (h : x.isNormal = true) : x.mood = .calm := by
  cases x <;> first | rfl | cases h

/-- A body that is executed in a new scope in which something was registered. -/
theorem registered_meets {body : Eval σ Exit} {cs : List Capability} (hbody : I.Keeps kind false body)
    (h : I.holds (.running .calm) S) (hscoped : Scoped kind true (.empty :: cs) S) :
    body.Meets S
      (fun x S' => I.holds (.running x.mood) S' ∧ Scoped kind true (.empty :: cs) S')
      (fun e S' => I.Throws e S' ∧ Scoped kind true (.empty :: cs) S') I.left :=
  (hbody S h hscoped.sound nofun).imp
    (fun _ _ ⟨h, hscoped'⟩ => ⟨h, hscoped.trans (hscoped'.weaken fun _ => rfl)⟩)
    fun _ _ ⟨h, hscoped'⟩ => ⟨h, hscoped.trans (hscoped'.weaken fun _ => rfl)⟩

section

variable (hI : I.Lawful host kind catches)
include hI

/-- What is done in a scope of its own is disposed whichever way it ends. -/
theorem disposed_meets {left : Eval σ Exit} {cs : List Capability} {S₁ : CallState σ}
    {next : Exit → Eval σ Exit} (hsound : SoundIn kind cs)
    (hleft : left.Meets S₁ (fun x S' => I.holds (.running x.mood) S' ∧ S'.scopes = .empty :: cs)
      (fun e S' => I.Throws e S' ∧ Scoped kind true (.empty :: cs) S') I.left)
    (hnext : ∀ x S', I.holds (.running x.mood) S' → S'.scopes = .empty :: cs →
      (next x).Meets S' (fun x S' => I.holds (.running x.mood) S' ∧ Scoped kind false cs S')
        (fun e S' => I.Throws e S' ∧ Scoped kind false cs S') I.left) :
    Eval.Meets (do
        match ← Eval.attempt left with
        | .ok x => next x
        | .error e => Eval.raise (← Eval.leaveByThrow host kind e)) S₁
      (fun x S' => I.holds (.running x.mood) S' ∧ Scoped kind false cs S')
      (fun e S' => I.Throws e S' ∧ Scoped kind false cs S') I.left := by
  refine .bind hleft.attempt ?_
  rintro (e | x) S' h
  · obtain ⟨h, hscoped⟩ := h
    obtain ⟨c, hscopes⟩ := hscoped.cons_eq
    refine .bind (leaveByThrow_meets hI h hscopes hscoped.sound) ?_
    rintro p S'' ⟨h, hscopes'⟩
    exact .raise ⟨h, .same hscopes' hsound⟩
  · exact hnext x S' h.1 h.2

/-- A body that is executed and disposed in a new scope. -/
theorem leaving_meets {body : Eval σ Exit} {cs : List Capability}
    (hbody : body.Meets S
      (fun x S' => I.holds (.running x.mood) S' ∧ Scoped kind true (.empty :: cs) S')
      (fun e S' => I.Throws e S' ∧ Scoped kind true (.empty :: cs) S') I.left)
    (hsound : SoundIn kind cs) :
    (Eval.leaving host kind body).Meets S
      (fun x S' => I.holds (.running x.mood) S' ∧ S'.scopes = .empty :: cs)
      (fun e S' => I.Throws e S' ∧ Scoped kind true (.empty :: cs) S') I.left := by
  refine .bind hbody ?_
  rintro x S' ⟨h, hscoped⟩
  obtain ⟨c, hscopes⟩ := hscoped.cons_eq
  refine .bind ((leave_meets hI (mood_pending x) h hscopes hscoped.sound).imp (fun _ _ h => h) ?_) ?_
  · rintro e S'' ⟨h, hscopes'⟩
    exact ⟨h, .same hscopes' hsound.cons_empty⟩
  · exact fun _ _ h => .pure h

/-- A block in a scope of its own. -/
theorem inScope_keeps {body : Eval σ Exit} (hbody : I.Keeps kind true body) :
    I.Keeps kind false (Eval.inScope host kind body) := by
  intro S h hsound _
  let S₁ : CallState σ := { S with scopes := .empty :: S.scopes }
  have hleft := leaving_meets hI (hbody S₁ (hI.openScope h) hsound.cons_empty nofun) hsound
  refine .bind (Q := fun _ S' => S' = S₁) (.modify rfl) ?_
  rintro _ _ rfl
  refine disposed_meets hI hsound hleft fun x S' h hscopes => ?_
  have hclose : ∀ S'', I.holds (.running x.mood) S'' → S''.scopes = .empty :: S.scopes →
      Eval.Meets (do
        Eval.closeScope
        return x) S'' (fun x S' => I.holds (.running x.mood) S' ∧ Scoped kind false S.scopes S')
        (fun e S' => I.Throws e S' ∧ Scoped kind false S.scopes S') I.left := fun S'' h hscopes =>
    .bind (closeScope_meets hI h hscopes) fun _ _ ⟨h, hscopes⟩ => .pure ⟨h, .same hscopes hsound⟩
  cases hx : x.isNormal with
  | true =>
    rw [mood_of_isNormal hx] at h
    refine .bind (emptyPass_meets hI h hscopes) ?_
    rintro _ S'' ⟨h, hscopes'⟩
    rw [← mood_of_isNormal hx] at h
    exact hclose S'' h hscopes'
  | false => exact hclose S' h hscopes

theorem registering_meets {body : Eval σ Exit} {v : Value} {hint : Hint} {cs : List Capability}
    (h : I.holds (.running .calm) S) (hv : I.fine v) (hhint : hint = .async → kind.isAsync = true)
    (hbody : I.Keeps kind false body) (hscopes : S.scopes = .empty :: cs) (hsound : SoundIn kind cs) :
    Eval.Meets (do
        Eval.register v hint
        Eval.leaving host kind body) S
      (fun x S' => I.holds (.running x.mood) S' ∧ S'.scopes = .empty :: cs)
      (fun e S' => I.Throws e S' ∧ Scoped kind true (.empty :: cs) S') I.left := by
  have hregister := register_meets hI h hv hhint hscopes (by rw [hscopes]; exact hsound.cons_empty)
  rw [hscopes] at hregister
  exact .bind hregister fun _ _ ⟨h, hscoped⟩ =>
    leaving_meets hI (registered_meets hbody h hscoped) hsound

/-- A round whose value is registered in a scope of its own. -/
theorem roundInScope_keeps {body : Eval σ Exit} {v : Value} {hint : Hint} (hv : I.fine v)
    (hhint : hint = .async → kind.isAsync = true) (hbody : I.Keeps kind false body) :
    I.Keeps kind false (Eval.roundInScope host kind v hint body) := by
  intro S h hsound _
  let S₁ : CallState σ := { S with scopes := .empty :: S.scopes }
  refine .bind (Q := fun _ S' => S' = S₁) (.modify rfl) ?_
  rintro _ _ rfl
  refine disposed_meets hI hsound (registering_meets hI (hI.openScope h) hv hhint hbody rfl hsound)
    fun x S' h hscopes => ?_
  exact .bind (closeScope_meets hI h hscopes) fun _ _ ⟨h, hscopes⟩ => .pure ⟨h, .same hscopes hsound⟩

end

/-! ### Loops -/

section

variable (hI : I.Lawful host kind catches)
include hI

/-- A loop goes round while its condition holds. -/
theorem whileLoop_keeps {label : Option String} {cond : Eval σ Value} {body : Eval σ Exit}
    (hcond : ∀ S, I.holds (.running .calm) S → SoundIn kind S.scopes →
      cond.Meets S (fun _ S' => I.holds (.running .calm) S' ∧ Scoped kind false S.scopes S')
        (fun e S' => I.Throws e S' ∧ Scoped kind false S.scopes S') I.left)
    (hbody : I.Keeps kind false body) : ∀ n, I.Keeps kind false (Eval.whileLoop label cond body n)
  | 0 => fun S h _ _ => hI.fuel h
  | n + 1 => fun S h hsound _ => by
    rw [Eval.whileLoop]
    refine .bind (hcond S h hsound) ?_
    rintro v S' ⟨h, hscoped⟩
    split
    · refine .bind ((hbody S' h hscoped.sound nofun).imp (fun _ _ h => h) ?_) ?_
      · rintro e S'' ⟨h, hscoped'⟩
        exact ⟨h, hscoped.trans hscoped'⟩
      · rintro x S'' ⟨h, hscoped'⟩
        split
        · rename_i hx
          rw [mood_of_continues hx] at h
          refine (whileLoop_keeps hcond hbody n S'' h hscoped'.sound nofun).imp ?_ ?_
          · rintro y T ⟨h, hscoped''⟩
            exact ⟨h, (hscoped.trans hscoped').trans hscoped''⟩
          · rintro e T ⟨h, hscoped''⟩
            exact ⟨h, (hscoped.trans hscoped').trans hscoped''⟩
        · refine .pure ⟨?_, hscoped.trans hscoped'⟩
          rwa [leaveLoop_mood]
    · exact .pure ⟨h, hscoped⟩

/-- A loop goes round for every item. One that is left before its end closes its iterator. -/
theorem forLoop_keeps {label : Option String} {id : Nat} {body : Value → Eval σ Exit}
    (hbody : ∀ v, I.fine v → I.Keeps kind false (body v)) :
    ∀ n, I.Keeps kind false (Eval.forLoop label id body n)
  | 0 => fun S h _ _ => hI.fuel h
  | n + 1 => fun S h hsound _ => by
    rw [Eval.forLoop]
    have hsame : ∀ {T T' : CallState σ}, Scoped kind false S.scopes T → Quiet T T' → Scoped kind false S.scopes T' :=
      fun hT hquiet => hT.trans (.same hquiet.1 hT.sound)
    refine .bind (((nextItem_meets hI h).within (Eval.nextItem_quiet id)).imp (fun _ _ h => h) ?_) ?_
    · rintro e S' ⟨h, hquiet⟩
      exact ⟨h, hsame (.same rfl hsound) hquiet⟩
    · rintro item S' ⟨⟨hitem, h⟩, hquiet⟩
      have hscoped : Scoped kind false S.scopes S' := hsame (.same rfl hsound) hquiet
      cases item with
      | none => exact .pure ⟨h, hscoped⟩
      | some v =>
        refine .bind (hbody v (hitem v rfl) S' h hscoped.sound nofun).attempt ?_
        rintro (e | x) S'' ⟨h, hscoped'⟩
        · refine .bind ((closeIterator_meets hI (R := fun _ _ => False) h).within
            (Eval.closeIterator_quiet id) |>.imp (fun _ _ h => h) fun _ _ h => h.1.elim) ?_
          rintro error T ⟨⟨-, h⟩, hquiet'⟩
          exact .raise ⟨h, hsame (hscoped.trans hscoped') hquiet'⟩
        · simp only
          split
          · rename_i hx
            rw [mood_of_continues hx] at h
            refine (forLoop_keeps hbody n S'' h hscoped'.sound nofun).imp ?_ ?_
            · rintro y T ⟨h, hscoped''⟩
              exact ⟨h, (hscoped.trans hscoped').trans hscoped''⟩
            · rintro e T ⟨h, hscoped''⟩
              exact ⟨h, (hscoped.trans hscoped').trans hscoped''⟩
          · have hm : (Phase.running x.mood).mayThrow = true := by cases x <;> rfl
            refine .bind (((leaveIterator_meets hI hm h).within (Eval.leaveIterator_quiet id)).imp
              (fun _ _ h => h) ?_) ?_
            · rintro e T ⟨h, hquiet'⟩
              exact ⟨h, hsame (hscoped.trans hscoped') hquiet'⟩
            · rintro _ T ⟨h, hquiet'⟩
              refine .pure ⟨?_, hsame (hscoped.trans hscoped') hquiet'⟩
              rwa [leaveLoop_mood]

/-- A block, in a scope of its own if it disposes. -/
theorem block_keeps {disposes : Bool} {body : Eval σ Exit} (hbody : I.Keeps kind disposes body) :
    I.Keeps kind false (Eval.block host kind disposes body) := by
  cases disposes with
  | true => exact inScope_keeps hI hbody
  | false => exact hbody

end

end Invariant

/-! ### Statements and calls -/

mutual

/-- A statement without handlers. -/
def Stmt.Tryless : Stmt → Prop
  | .tryCatch .. => False
  | .block body | .whileLoop _ _ body | .forOf _ _ _ _ body => Stmt.TrylessAll body
  | .ifElse _ yes no => Stmt.TrylessAll yes ∧ Stmt.TrylessAll no
  | .expr _ | .letIn _ _ | .usingIn _ _ _ | .throw _ | .ret _ | .breakLoop _ | .continueLoop _ => True

/-- Statements without handlers. -/
def Stmt.TrylessAll : List Stmt → Prop
  | [] => True
  | s :: ss => s.Tryless ∧ Stmt.TrylessAll ss

end

section

variable {σ : Type} {I : Invariant σ} {host : Host σ} {kind : FunctionKind} {catches : Bool}

open Invariant

/-- Where a call is calm and all bindings are fine, an expression is evaluated in the
scopes that are there. -/
theorem Expr.eval_scoped (hI : I.Lawful host kind catches) {names : List String} {ρ : Bindings}
    {e : Expr} {S : CallState σ} (hρ : ∀ b ∈ ρ, I.fine b.2) (he : e.Valid kind names)
    (h : I.holds (.running .calm) S) (hsound : SoundIn kind S.scopes) :
    Eval.Meets (e.eval host ρ) S
      (fun v S' => I.fine v ∧ I.holds (.running .calm) S' ∧ Scoped kind registers S.scopes S')
      (fun e S' => I.Throws e S' ∧ Scoped kind registers S.scopes S') I.left := by
  refine ((eval_meets hI hρ he h).within (Expr.eval_quiet host e ρ)).imp ?_ ?_
  · rintro v S' ⟨⟨hv, h⟩, hquiet⟩
    exact ⟨hv, h, .same hquiet.1 hsound⟩
  · rintro e S' ⟨h, hquiet⟩
    exact ⟨h, .same hquiet.1 hsound⟩

/-- A statement that is executed where the call is calm, all bindings are fine and a
scope is there if it registers. -/
def Stmt.KeptBy (I : Invariant σ) (host : Host σ) (kind : FunctionKind) (n : Nat) (s : Stmt) : Prop :=
  ∀ (ρ : Bindings) (S : CallState σ), (∀ b ∈ ρ, I.fine b.2) → I.holds (.running .calm) S →
    SoundIn kind S.scopes → (s.isUsing = true → S.scopes ≠ []) →
    Eval.Meets (s.exec host kind n ρ) S
      (fun r S' => I.holds (.running r.1.mood) S' ∧ Scoped kind s.isUsing S.scopes S' ∧ ∀ b ∈ r.2, I.fine b.2)
      (fun e S' => I.Throws e S' ∧ Scoped kind s.isUsing S.scopes S') I.left

section

variable (hI : I.Lawful host kind catches) {n : Nat}
include hI

/-- A block that is executed as a statement of its own. -/
theorem Stmt.block_kept {disposes : Bool} {body : Eval σ Exit} {ρ : Bindings} {S : CallState σ}
    (hρ : ∀ b ∈ ρ, I.fine b.2) (h : I.holds (.running .calm) S) (hsound : SoundIn kind S.scopes)
    (hbody : I.Keeps kind disposes body) :
    Eval.Meets (do
        let x ← Eval.block host kind disposes body
        return (x, ρ)) S
      (fun r S' => I.holds (.running r.1.mood) S' ∧ Scoped kind false S.scopes S' ∧ ∀ b ∈ r.2, I.fine b.2)
      (fun e S' => I.Throws e S' ∧ Scoped kind false S.scopes S') I.left :=
  .bind (block_keeps hI hbody S h hsound nofun) fun _ _ ⟨h, hscoped⟩ => .pure ⟨h, hscoped, hρ⟩

/-- A loop over items is executed, if its body is for every item. -/
theorem Stmt.forOf_kept {label : Option String} {binding : String} {hint : Option Hint} {iterable : Expr}
    {body : List Stmt} {names : List String} (hhint : hint = some .async → kind.isAsync)
    (hiterable : iterable.Valid kind names)
    (hbody : ∀ ρ : Bindings, (∀ b ∈ ρ, I.fine b.2) →
      I.Keeps kind (body.any Stmt.isUsing) (Stmt.execAll host kind n body ρ)) :
    (Stmt.forOf label binding hint iterable body).KeptBy I host kind n := fun ρ S hρ h hsound _ => by
  rw [Stmt.exec]
  refine .bind (iterable.eval_scoped hI hρ hiterable h hsound) ?_
  rintro v S' ⟨hv, h, hscoped⟩
  refine .bind (((iterate_meets hI h hv).within (Eval.iterate_quiet v)).imp (fun _ _ h => h) ?_) ?_
  · rintro e S'' ⟨h, hquiet⟩
    exact ⟨h, hscoped.trans (.same hquiet.1 hscoped.sound)⟩
  · rintro id S'' ⟨h, hquiet⟩
    have hscoped' : Scoped kind false S.scopes S'' := hscoped.trans (.same hquiet.1 hscoped.sound)
    refine .bind ((forLoop_keeps hI ?_ n S'' h hscoped'.sound nofun).imp (fun _ _ h => h) ?_) ?_
    · intro w hw
      have hround := block_keeps hI (hbody ((binding, w) :: ρ) (List.forall_mem_cons.mpr ⟨hw, hρ⟩))
      cases hint with
      | none => exact hround
      | some hint =>
        exact roundInScope_keeps hI hw (fun h => hhint (congrArg some h)) hround
    · rintro e T ⟨h, hscoped''⟩
      exact ⟨h, hscoped'.trans hscoped''⟩
    · rintro x T ⟨h, hscoped''⟩
      exact .pure ⟨h, hscoped'.trans hscoped'', hρ⟩

/-- What a body throws is handled, unless it is the signal that closes a generator. -/
theorem Stmt.tryCatch_kept {body handler : List Stmt} {param : Option String} (hcatches : catches = true)
    (hbody : ∀ ρ : Bindings, (∀ b ∈ ρ, I.fine b.2) →
      I.Keeps kind (body.any Stmt.isUsing) (Stmt.execAll host kind n body ρ))
    (hhandler : ∀ ρ : Bindings, (∀ b ∈ ρ, I.fine b.2) →
      I.Keeps kind (handler.any Stmt.isUsing) (Stmt.execAll host kind n handler ρ)) :
    (Stmt.tryCatch body param handler).KeptBy I host kind n := fun ρ S hρ h hsound _ => by
  rw [Stmt.exec]
  refine .bind (block_keeps hI (hbody ρ hρ) S h hsound nofun).attempt ?_
  rintro (e | x) S' ⟨h, hscoped⟩
  · cases hclosing : kind.isGenerator && e.isClosing with
    | true =>
      simp only [hclosing, ↓reduceIte]
      exact .raise ⟨h, hscoped⟩
    | false =>
      obtain ⟨he, h⟩ := hI.caught hcatches h hclosing
      have hρ' : ∀ b ∈ ρ.caught param e, I.fine b.2 := by
        cases param with
        | some name => exact List.forall_mem_cons.mpr ⟨he, hρ⟩
        | none => exact hρ
      simp only [hclosing, Bool.false_eq_true, ↓reduceIte]
      refine .bind ((block_keeps hI (hhandler _ hρ') S' h hscoped.sound nofun).imp (fun _ _ h => h) ?_) ?_
      · rintro e' S'' ⟨h, hscoped'⟩
        exact ⟨h, hscoped.trans hscoped'⟩
      · rintro x S'' ⟨h, hscoped'⟩
        exact .pure ⟨h, hscoped.trans hscoped', hρ⟩
  · exact .pure ⟨h, hscoped, hρ⟩

end

mutual

theorem Stmt.exec_kept (hI : I.Lawful host kind catches) (n : Nat) {labels : List (Option String)} :
    ∀ {s : Stmt} {names : List String}, s.Valid kind labels names → (catches = true ∨ s.Tryless) →
      s.KeptBy I host kind n
  | .expr e, names, he, _ => fun ρ S hρ h hsound _ => by
    rw [Stmt.exec]
    refine .bind (e.eval_scoped hI hρ he h hsound) ?_
    rintro v S' ⟨-, h, hscoped⟩
    exact .pure ⟨h, hscoped, hρ⟩
  | .letIn name e, names, he, _ => fun ρ S hρ h hsound _ => by
    rw [Stmt.exec]
    refine .bind (e.eval_scoped hI hρ he h hsound) ?_
    rintro v S' ⟨hv, h, hscoped⟩
    exact .pure ⟨h, hscoped, List.forall_mem_cons.mpr ⟨hv, hρ⟩⟩
  | .usingIn name hint e, names, ⟨hhint, he⟩, _ => fun ρ S hρ h hsound hopen => by
    rw [Stmt.exec]
    refine .bind (e.eval_scoped hI hρ he h hsound) ?_
    rintro v S' ⟨hv, h, hscoped⟩
    obtain ⟨c, cs, hscopes⟩ : ∃ c cs, S'.scopes = c :: cs := by
      refine List.exists_cons_of_length_pos ?_
      rw [hscoped.length_eq]
      exact List.length_pos_of_ne_nil (hopen rfl)
    refine .bind ((register_meets hI h hv hhint hscopes hscoped.sound).imp (fun _ _ h => h) ?_) ?_
    · rintro e S'' ⟨h, hscoped'⟩
      exact ⟨h, hscoped.trans hscoped'⟩
    · rintro _ S'' ⟨h, hscoped'⟩
      exact .pure ⟨h, hscoped.trans hscoped', List.forall_mem_cons.mpr ⟨hv, hρ⟩⟩
  | .block body, names, hbody, hcatch => fun ρ S hρ h hsound _ => by
    rw [Stmt.exec]
    exact Stmt.block_kept hI hρ h hsound (Stmt.execAll_kept hI n hbody hcatch ρ hρ)
  | .ifElse cond yes no, names, ⟨hcond, hyes, hno⟩, hcatch => fun ρ S hρ h hsound _ => by
    rw [Stmt.exec]
    refine .bind (cond.eval_scoped hI hρ hcond h hsound) ?_
    rintro v S' ⟨-, h, hscoped⟩
    have hbranch : ∀ {ss : List Stmt}, I.Keeps kind (ss.any Stmt.isUsing) (Stmt.execAll host kind n ss ρ) →
        Eval.Meets (do
          let x ← Eval.block host kind (ss.any Stmt.isUsing) (Stmt.execAll host kind n ss ρ)
          return (x, ρ)) S'
        (fun r S'' => I.holds (.running r.1.mood) S'' ∧ Scoped kind false S.scopes S'' ∧ ∀ b ∈ r.2, I.fine b.2)
        (fun e S'' => I.Throws e S'' ∧ Scoped kind false S.scopes S'') I.left := fun hss =>
      (Stmt.block_kept hI hρ h hscoped.sound hss).imp
        (fun _ _ ⟨h, hscoped', hρ⟩ => ⟨h, hscoped.trans hscoped', hρ⟩)
        fun _ _ ⟨h, hscoped'⟩ => ⟨h, hscoped.trans hscoped'⟩
    cases v.isTruthy with
    | true => exact hbranch (Stmt.execAll_kept hI n hyes (hcatch.imp_right And.left) ρ hρ)
    | false => exact hbranch (Stmt.execAll_kept hI n hno (hcatch.imp_right And.right) ρ hρ)
  | .whileLoop label cond body, names, ⟨hcond, hbody⟩, hcatch => fun ρ S hρ h hsound _ => by
    rw [Stmt.exec]
    have hround := block_keeps hI (Stmt.execAll_kept hI n hbody hcatch ρ hρ)
    have hcond : ∀ S, I.holds (.running .calm) S → SoundIn kind S.scopes →
        (cond.eval host ρ).Meets S (fun _ S' => I.holds (.running .calm) S' ∧ Scoped kind false S.scopes S')
          (fun e S' => I.Throws e S' ∧ Scoped kind false S.scopes S') I.left := fun S h hsound =>
      (cond.eval_scoped hI hρ hcond h hsound).imp (fun _ _ h => h.2) fun _ _ h => h
    exact .bind (whileLoop_keeps hI hcond hround n S h hsound nofun) fun _ _ ⟨h, hscoped⟩ =>
      .pure ⟨h, hscoped, hρ⟩
  | .forOf _ _ _ _ _, names, ⟨hhint, hiterable, hbody⟩, hcatch =>
    Stmt.forOf_kept hI hhint hiterable (Stmt.execAll_kept hI n hbody hcatch)
  | .tryCatch _ _ _, names, ⟨hbody, hhandler⟩, hcatch =>
    have hcatches : catches = true := hcatch.resolve_right id
    Stmt.tryCatch_kept hI hcatches (Stmt.execAll_kept hI n hbody (.inl hcatches))
      (Stmt.execAll_kept hI n hhandler (.inl hcatches))
  | .throw e, names, he, _ => fun ρ S hρ h hsound _ => by
    rw [Stmt.exec]
    refine .bind (e.eval_scoped hI hρ he h hsound) ?_
    rintro v S' ⟨hv, h, hscoped⟩
    have hsignal : Eval.Meets (Eval.signal v : Eval σ (Exit × Bindings)) S' (fun _ _ => False)
        (I.Thrown (.running .calm)) I.left :=
      signal_meets hI rfl h hv
    exact (hsignal.within (Eval.signal_quiet v)).imp (fun _ _ h => h.1.elim)
      fun e S'' ⟨h, hquiet⟩ => ⟨h.throws, hscoped.trans (.same hquiet.1 hscoped.sound)⟩
  | .ret (some e), names, he, _ => fun ρ S hρ h hsound _ => by
    rw [Stmt.exec]
    refine .bind (e.eval_scoped hI hρ he h hsound) ?_
    rintro v S' ⟨hv, h, hscoped⟩
    exact ⟨hI.returns h hv, hscoped.trans (.same rfl hscoped.sound), hρ⟩
  | .ret none, names, _, _ => fun ρ S hρ h hsound _ => by
    rw [Stmt.exec]
    exact ⟨hI.returns h (hI.plain .undefined rfl), .same rfl hsound, hρ⟩
  | .breakLoop label, names, _, _ | .continueLoop label, names, _, _ => fun ρ S hρ h hsound _ => by
    rw [Stmt.exec]
    exact .pure ⟨h, .same rfl hsound, hρ⟩

theorem Stmt.execAll_kept (hI : I.Lawful host kind catches) (n : Nat) {labels : List (Option String)} :
    ∀ {ss : List Stmt} {names : List String}, Stmt.ValidAll kind labels names ss →
      (catches = true ∨ Stmt.TrylessAll ss) → ∀ ρ : Bindings, (∀ b ∈ ρ, I.fine b.2) →
      I.Keeps kind (ss.any Stmt.isUsing) (Stmt.execAll host kind n ss ρ)
  | [], _, _, _, ρ, hρ => fun S h hsound _ => by
    rw [Stmt.execAll]
    exact .pure ⟨h, .same rfl hsound⟩
  | s :: ss, _, ⟨hs, hss⟩, hcatch, ρ, hρ => fun S h hsound hopen => by
    rw [Stmt.execAll]
    have hfirst : s.isUsing = true → (s :: ss).any Stmt.isUsing = true := fun h => by
      rw [List.any_cons, h, Bool.true_or]
    have hlater : ss.any Stmt.isUsing = true → (s :: ss).any Stmt.isUsing = true := fun h => by
      rw [List.any_cons, h, Bool.or_true]
    have hs := Stmt.exec_kept hI n hs (hcatch.imp_right And.left) ρ S hρ h hsound fun h =>
      hopen (hfirst h)
    refine .bind (hs.imp (fun _ _ h => h) fun _ _ ⟨h, hscoped⟩ => ⟨h, hscoped.weaken hfirst⟩) ?_
    rintro ⟨x, ρ'⟩ S' ⟨h, hscoped, hρ'⟩
    have hscoped := hscoped.weaken hfirst
    cases hx : x.isNormal with
    | true =>
      rw [mood_of_isNormal hx] at h
      have hrest := Stmt.execAll_kept hI n hss (hcatch.imp_right And.right) ρ' hρ' S' h hscoped.sound
        fun h hnil => hopen (hlater h)
          (List.eq_nil_of_length_eq_zero (by rw [← hscoped.length_eq, hnil, List.length_nil]))
      simp only [hx, ↓reduceIte]
      exact hrest.imp (fun _ _ ⟨h, hscoped'⟩ => ⟨h, hscoped.trans (hscoped'.weaken hlater)⟩)
        fun _ _ ⟨h, hscoped'⟩ => ⟨h, hscoped.trans (hscoped'.weaken hlater)⟩
    | false =>
      simp only [hx, Bool.false_eq_true, ↓reduceIte]
      exact .pure ⟨h, hscoped⟩

end

/-- The bindings of the parameters are fine if the arguments are. -/
theorem Declaration.bind_fine {d : Declaration} (hI : I.Lawful host d.kind catches) {args : List Value}
    (hargs : ∀ v ∈ args, I.fine v) : ∀ b ∈ d.bind args, I.fine b.2 := by
  intro b hb
  obtain ⟨⟨name, k⟩, -, rfl⟩ := List.mem_map.mp (List.mem_reverse.mp hb)
  show I.fine (args.getD k .undefined)
  rw [List.getD_eq_getElem?_getD]
  cases hk : args[k]? with
  | none => exact hI.plain .undefined rfl
  | some v => exact hargs v (List.mem_of_getElem? hk)

/-- A whole call ends with what is returned, or throws. -/
theorem Declaration.call_kept {d : Declaration} (hI : I.Lawful host d.kind catches) (n : Nat)
    {args : List Value} {S : CallState σ} (hd : d.Valid) (hcatch : catches = true ∨ Stmt.TrylessAll d.body)
    (hargs : ∀ v ∈ args, I.fine v) (h : I.holds (.running .calm) S) (hscopes : S.scopes = []) :
    Eval.Meets (d.call host n args) S (fun v S' => I.holds (.running (.returning v)) S')
      I.Throws I.left := by
  have hρ := d.bind_fine hI hargs
  have hsound : SoundIn d.kind S.scopes := by
    rw [hscopes]
    exact nofun
  have hbody := block_keeps hI (Stmt.execAll_kept hI n hd hcatch _ hρ)
  refine .bind ((hbody S h hsound nofun).imp (fun _ _ h => h) fun _ _ h => h.1) ?_
  rintro x S' ⟨h, -⟩
  cases x
  case ret v => exact .pure h
  all_goals exact hI.returns h (hI.plain .undefined rfl)

/-- What holds where a call has ended, stopped or run out of fuel. -/
def Invariant.HoldsOf (I : Invariant σ) : Option Outcome × CallState σ → Prop
  | (some (.completed v), S) => I.holds (.running (.returning v)) S ∨ v = S.rval ∧ I.Throws .closing S
  | (some (.threw e), S) => e ≠ .closing ∧ I.Throws e S
  | (some (.awaits v), S) => I.left (some (.await v)) S
  | (some (.yields v), S) => I.left (some (.yield v)) S
  | (some (.failed _), _) => False
  | (none, S) => I.left none S

/-- An invariant holds where a call has ended, stopped or run out of fuel. -/
theorem Declaration.run_kept {d : Declaration} (hI : I.Lawful host d.kind catches) (n : Nat)
    {args : List Value} {S : CallState σ} (hd : d.Valid) (hcatch : catches = true ∨ Stmt.TrylessAll d.body)
    (hargs : ∀ v ∈ args, I.fine v) (h : I.holds (.running .calm) S) (hscopes : S.scopes = []) :
    I.HoldsOf (d.run host n args S) := by
  have hcall := Declaration.call_kept hI n hd hcatch hargs h hscopes
  unfold Eval.Meets at hcall
  unfold Declaration.run
  match d.call host n args S, hcall with
  | .ok v S', h => exact .inl h
  | .error (.thrown e) S', h =>
    cases e
    case closing => exact .inr ⟨rfl, h⟩
    all_goals exact ⟨nofun, h⟩
  | .error (.suspended p) S', h => cases p <;> exact h
  | .error .outOfFuel S', h => exact h

end

end ResourceMachine
