/-
# The order of disposal

Whatever is registered is disposed once, the last registered first: at every moment a
task owes the disposal of some resources, in this order, and disposes the one it owes
first, by the method that was found when it was registered, on the value that was
registered, without arguments (`Owed`). A scope is left with nothing to dispose. A task
that has ended owes nothing.

Key definitions: `Settles`, `Owed`, `Capability.owed`, `disposalOrder`.
Key theorems: `Owed.unique`, `disposalOrder_lawful`, `Moment.Reached.disposal_order`.
-/
import ResourceMachine.Host.Scripted
import ResourceMachine.Proofs.TaskInvariant
import ResourceMachine.Proofs.Trial
import Mathlib.Data.List.Induction

namespace ResourceMachine

/-! ### What is owed -/

/-- What an event does to the resources that have been registered with a method and not
been disposed, the last first. A resource that is disposed is the first of them. -/
inductive Settles : List Resource → Event → List Resource → Prop
  | register {rs : List Resource} {r : Resource} (method : r.method.isSome) :
      Settles rs (.register r) (r :: rs)
  | registerAwait {rs : List Resource} {r : Resource} (method : r.method = none) :
      Settles rs (.register r) rs
  | dispose {rs : List Resource} {r : Resource} {f : Callable} {result : Except Value Value}
      (method : r.method = some (.function f)) :
      Settles (r :: rs) (.call .pass f r.value [] result) rs
  | exitScope {rs : List Resource} : Settles rs (.exitScope []) rs
  | plain {rs : List Resource} {e : Event} (plain : e.isPlain) : Settles rs e rs

/-- After these events the disposal of these resources is owed. -/
inductive Owed : List Event → List Resource → Prop
  | nil : Owed [] []
  | snoc {es : List Event} {e : Event} {rs rs' : List Resource} (earlier : Owed es rs)
      (settles : Settles rs e rs') : Owed (es ++ [e]) rs'

theorem Settles.unique {e : Event} {rs rs' rs'' : List Resource} (h : Settles rs e rs')
    (h' : Settles rs e rs'') : rs' = rs'' := by
  cases h with
  | register method =>
    cases h' with
    | register => rfl
    | registerAwait method' => simp [method'] at method
    | plain plain => cases plain
  | registerAwait method =>
    cases h' with
    | register method' => simp [method] at method'
    | registerAwait => rfl
    | plain plain => cases plain
  | dispose =>
    cases h' with
    | dispose => rfl
    | plain plain => cases plain
  | exitScope =>
    cases h' with
    | exitScope => rfl
    | plain plain => cases plain
  | plain plain =>
    cases h' with
    | plain => rfl
    | _ => cases plain

namespace Owed

variable {es es' : List Event} {e : Event} {rs rs' : List Resource}

theorem last (h : Owed (es ++ [e]) rs') : ∃ rs, Owed es rs ∧ Settles rs e rs' := by
  generalize heq : es ++ [e] = es' at h
  cases h with
  | nil => simp at heq
  | snoc earlier settles =>
    obtain ⟨rfl, hlast⟩ := List.append_inj' heq rfl
    cases hlast
    exact ⟨_, earlier, settles⟩

/-- Events leave at most one list of resources owed. -/
theorem unique (h : Owed es rs) (h' : Owed es rs') : rs = rs' := by
  induction h generalizing rs' with
  | nil =>
    generalize heq : ([] : List Event) = es at h'
    cases h' with
    | nil => rfl
    | snoc => simp at heq
  | snoc _ settles ih =>
    obtain ⟨rs'', hearlier, hsettles⟩ := h'.last
    obtain rfl := ih hearlier
    exact settles.unique hsettles

/-- Something was owed before, too. -/
theorem earlier_of_append (h : Owed (es ++ es') rs) : ∃ rs', Owed es rs' := by
  induction es' using List.reverseRecOn generalizing rs with
  | nil => exact ⟨rs, by rwa [List.append_nil] at h⟩
  | append_singleton es' e ih =>
    rw [← List.append_assoc] at h
    obtain ⟨rs', hearlier, -⟩ := h.last
    exact ih hearlier

/-- Plain events change nothing of what is owed. -/
theorem plains : ∀ {es' es : List Event}, Owed es rs → (∀ e ∈ es', e.isPlain) → Owed (es ++ es') rs
  | [], _, h, _ => by rwa [List.append_nil]
  | e :: es', es, h, hes' => by
    have hsnoc : Owed (es ++ [e]) rs := h.snoc (.plain (hes' e List.mem_cons_self))
    have hrest := plains hsnoc fun e' he' => hes' e' (List.mem_cons_of_mem _ he')
    rwa [List.append_assoc] at hrest

end Owed

/-! ### The invariant -/

namespace Capability

/-- What disposing the resources of a scope owes. -/
def owed (c : Capability) : List Resource := c.resources.reverse.filter (·.method.isSome)

end Capability

variable {σ : Type}

/-- A call owes what its scopes have registered, the innermost first; in a pass, first
what the pass has still to dispose. -/
def disposalOrder (σ : Type) : Invariant σ where
  fine _ := True
  holds
    | .running _, S => Owed S.trace (S.scopes.flatMap Capability.owed)
    | .disposing _ _ _ rs, S =>
      Owed S.trace (rs.filter (·.method.isSome) ++ S.scopes.flatMap Capability.owed)
  left _ S := ∃ rs, Owed S.trace rs

/-- No part of an evaluation disposes out of order. -/
theorem disposalOrder_lawful (host : Host σ) (kind : FunctionKind) :
    (disposalOrder σ).Lawful host kind true where
  plain _ _ := trivial
  global _ _ := trivial
  fresh {φ _} _ h := by cases φ <;> exact h
  raise {φ _ _} _ _ h _ := by
    cases φ <;> exact Owed.snoc h (.plain rfl)
  caught _ h _ := ⟨trivial, h⟩
  fuel h := ⟨_, h⟩
  call h _ _ := ⟨fun _ _ => trivial, Owed.snoc h (.plain rfl)⟩
  setRval {φ _ _} _ h _ := by cases φ <;> exact h
  returns h _ := Owed.snoc h (.plain rfl)
  stop {φ _ _} _ h _ := by cases φ <;> exact ⟨_, Owed.snoc h (.plain rfl)⟩
  next {φ _ _ _ _ _} _ h _ _ _ := by
    refine ⟨trivial, ?_⟩
    cases φ <;> exact Owed.plains h (by simp [Event.isPlain])
  throw {φ _ _ _ _ _} _ _ h _ _ _ := by
    cases φ <;> exact Owed.plains h (by simp [Event.isPlain])
  close _ h _ _ _ := Owed.plains h (by simp [Event.isPlain])
  iterate h _ := h
  nextItem h _ := ⟨fun _ _ => trivial, Owed.snoc h (.plain rfl)⟩
  closeIterator h _ := ⟨fun _ _ => trivial, Owed.snoc h (.plain rfl)⟩
  openScope h := h
  closeScope {S m cs} h hscopes := by
    have h : Owed S.trace (S.scopes.flatMap Capability.owed) := h
    rw [hscopes, List.flatMap_cons] at h
    exact h.snoc .exitScope
  register {S r c cs} _ h _ hr hscopes := by
    have h : Owed S.trace (S.scopes.flatMap Capability.owed) := h
    rw [hscopes, List.flatMap_cons] at h
    show Owed (S.trace ++ [.register r]) ((c.add r :: cs).flatMap Capability.owed)
    rw [List.flatMap_cons, Capability.add, Capability.owed, List.reverse_append, List.filter_append]
    rcases hr.method with ⟨f, hf⟩ | ⟨hnone, -⟩
    · have hsome : r.method.isSome = true := by rw [hf]; rfl
      simp only [List.reverse_cons, List.reverse_nil, List.nil_append, List.filter_cons, hsome,
        ↓reduceIte, List.filter_nil, List.cons_append]
      exact h.snoc (.register hsome)
    · simp only [List.reverse_cons, List.reverse_nil, List.nil_append, List.filter_cons, hnone,
        Option.isSome_none, Bool.false_eq_true, ↓reduceIte, List.filter_nil]
      exact h.snoc (.registerAwait hnone)
  take {S m c cs} _ h hscopes _ := by
    have h : Owed S.trace (S.scopes.flatMap Capability.owed) := h
    rw [hscopes, List.flatMap_cons] at h
    exact h
  dispose {S u rval m r rs f result world} h hf _ := by
    have h : Owed S.trace (((r :: rs).filter (·.method.isSome)) ++ S.scopes.flatMap Capability.owed) := h
    rw [List.filter_cons, if_pos (by rw [hf]; rfl), List.cons_append] at h
    exact ⟨fun _ _ => trivial, h.snoc (.dispose hf)⟩
  skip {S u rval m r rs} h hnone := by
    have h : Owed S.trace (((r :: rs).filter (·.method.isSome)) ++ S.scopes.flatMap Capability.owed) := h
    rwa [List.filter_cons, if_neg (by simp [hnone])] at h
  done h := h

/-- Something is owed wherever a call has ended, stopped or run out of fuel. -/
theorem Invariant.HoldsOf.owed : ∀ {r : Option Outcome × CallState σ}, (disposalOrder σ).HoldsOf r →
    ∃ rs, Owed r.2.trace rs
  | (some (.completed _), _), h => h.elim (fun h => ⟨_, h⟩) fun h => ⟨_, h.2⟩
  | (some (.threw _), _), h => ⟨_, h.2⟩
  | (some (.awaits _), _), h | (some (.yields _), _), h | (none, _), h => h
  | (some (.failed _), _), h => h.elim

/-- What a call owes that has ended is what its scopes owe. -/
theorem Invariant.HoldsOf.owed_scopes {o : Outcome} {st : TaskState} {S : CallState σ}
    (h : (disposalOrder σ).HoldsOf (some o, S)) (ho : o.state? = some st) :
    Owed S.trace (S.scopes.flatMap Capability.owed) := by
  cases o with
  | completed v => exact h.elim id And.right
  | threw e => exact h.2
  | _ => cases ho

/-! ### Tasks -/

/-- The object that is registered, with the method that was found. -/
def Event.registered? : Event → Option (Nat × Callable)
  | register ⟨.object n, _, some (.function f)⟩ => some (n, f)
  | _ => none

/-- The object that a pass disposes, with the method that it calls. -/
def Event.disposed? : Event → Option (Nat × Callable)
  | call .pass f (.object n) [] _ => some (n, f)
  | _ => none

namespace Moment

variable {Ω : Surroundings σ} {μ : Moment σ} {id : TaskId} {t : Task}

/-- A task owes something at every moment, and nothing if it has ended. -/
theorem Reached.owes (hloaded : ∀ m, Ω.loaded m → Compiles m) (h : Reached Ω μ)
    (hget : μ.vm.schedule.get? id = some t) : ∃ rs, Owed (μ.history id) rs ∧
      ((∃ v, t.state = .completed v ∨ t.state = .threw v) →
        rs = [] ∧ t.frame.scopes = [] ∧ t.frame.handlers = []) := by
  obtain ⟨c, hmakes, ⟨hframe, hunstarted⟩ | ⟨s, hlives, hshows⟩⟩ := h.sane.task hget
  · refine ⟨[], ?_, fun _ => ⟨rfl, by rw [hframe]; rfl, by rw [hframe]; rfl⟩⟩
    generalize μ.history id = es at hunstarted
    cases hunstarted with
    | fresh => exact .nil
    | closed | refused => exact .snoc .nil (.plain rfl)
  · obtain ⟨d, hd⟩ := (hloaded c.unit hmakes.loaded).calls
    obtain ⟨r, hfollows, hr⟩ := hlives.kept hd (disposalOrder_lawful Ω.host d.kind) (.inl rfl)
      (fun _ _ => trivial) fun _ _ _ _ _ => .nil
    by_cases hended : ∃ o : Outcome, o.state? = some t.state
    · obtain ⟨o, ho⟩ := hended
      obtain ⟨hout, htrace, hscopes, hhandlers, hnil⟩ := hfollows.ended_as hshows ho
      obtain ⟨_, S⟩ := r
      cases hout
      have howed := hr.owed_scopes ho
      rw [show S.scopes = [] from hnil, ← htrace] at howed
      exact ⟨[], howed, fun _ => ⟨rfl, hscopes, hhandlers⟩⟩
    · obtain ⟨rs, hrs⟩ := hr.owed
      obtain ⟨es, hes⟩ := hfollows.trace
      rw [hshows.trace] at hes
      rw [← hes] at hrs
      obtain ⟨rs', hrs'⟩ := hrs.earlier_of_append
      refine ⟨rs', hrs', ?_⟩
      rintro ⟨v, hv | hv⟩
      · exact absurd ⟨.completed v, by rw [hv]; rfl⟩ hended
      · exact absurd ⟨.threw v, by rw [hv]; rfl⟩ hended

/-- **Whatever is registered is disposed once, the last registered first.** At every
moment a task owes the disposal of some resources, and of no others; one that has ended owes
nothing, and has left all its scopes and handlers. -/
theorem Reached.disposal_order (hloaded : ∀ m, Ω.loaded m → Compiles m) (h : Reached Ω μ)
    (hget : μ.vm.schedule.get? id = some t) : ∃ rs, Owed (μ.history id) rs ∧
      (∀ rs', Owed (μ.history id) rs' → rs' = rs) ∧
      ((∃ v, t.state = .completed v ∨ t.state = .threw v) →
        rs = [] ∧ t.frame.scopes = [] ∧ t.frame.handlers = []) := by
  obtain ⟨rs, howed, hended⟩ := h.owes hloaded hget
  exact ⟨rs, howed, fun _ howed' => howed'.unique howed, hended⟩

/-- A function that throws while it holds two resources. -/
def doubleHolder : Declaration := ⟨"f", .async, ["x", "y"],
  [.usingIn "a" .sync (.binding "x"), .usingIn "b" .async (.binding "y"), .throw (.str "a")]⟩

theorem Reached.disposal_order_doubleHolder : ∃ Ω : Surroundings Console, ∃ μ t,
    Ω.host = Console.call ∧ (∀ m, Ω.loaded m ↔ Module.compile "m" [doubleHolder] = .ok m) ∧
    Reached Ω μ ∧ μ.vm.schedule.get? ⟨0⟩ = some t ∧ (∃ e, t.state = .threw e) ∧
    (μ.history ⟨0⟩).filterMap Event.registered? = [(0, .host ⟨0, "d"⟩), (1, .host ⟨1, "e"⟩)] ∧
    (μ.history ⟨0⟩).filterMap Event.disposed? = [(1, .host ⟨1, "e"⟩), (0, .host ⟨0, "d"⟩)] ∧
    ∃ rs, Owed (μ.history ⟨0⟩) rs ∧ (∀ rs', Owed (μ.history ⟨0⟩) rs' → rs' = rs) ∧
      ((∃ v, t.state = .completed v ∨ t.state = .threw v) →
        rs = [] ∧ t.frame.scopes = [] ∧ t.frame.handlers = []) := by
  let Ω : Surroundings Console :=
    ⟨Console.call, fun m => Module.compile "m" [doubleHolder] = .ok m, fun _ => True, fun _ _ => True⟩
  let world : World Console := ⟨{ Heap.empty with objects :=
    #[[(.symbol .sync, .function (.host ⟨0, "d"⟩))], [(.symbol .async, .function (.host ⟨1, "e"⟩))]] }, .empty⟩
  have htrial : (trial Ω.host .standard world [] [doubleHolder] "f" [.object 0, .object 1] [.run 131]).any (fun μ =>
      ((μ.vm.schedule.get? ⟨0⟩).any (·.state.thrown?.isSome)) &&
        (μ.history ⟨0⟩).filterMap Event.registered? == [(0, .host ⟨0, "d"⟩), (1, .host ⟨1, "e"⟩)] &&
        (μ.history ⟨0⟩).filterMap Event.disposed? == [(1, .host ⟨1, "e"⟩), (0, .host ⟨0, "d"⟩)]) = true := by
    rw [trial_eq (by decide +kernel)]
    decide +kernel
  obtain ⟨μ, htrial, hμ⟩ := (Option.any_eq_true _ _).mp htrial
  obtain ⟨hμ, hdisposed⟩ := Bool.and_eq_true_iff.mp hμ
  obtain ⟨hthrew, hregistered⟩ := Bool.and_eq_true_iff.mp hμ
  obtain ⟨t, hget, hthrew⟩ := (Option.any_eq_true _ _).mp hthrew
  have hstate : ∃ e, t.state = .threw e :=
    (Option.isSome_iff_exists.mp hthrew).imp fun _ => TaskState.threw_of_thrown?
  have hreached : Reached Ω μ := .of_trial trivial trivial (fun _ h => h) (fun _ _ => trivial)
    (fun _ _ _ _ _ => trivial) htrial
  have hloaded : ∀ m, Ω.loaded m → Compiles m := fun m hm => ⟨"m", [doubleHolder], hm, by decide⟩
  exact ⟨Ω, μ, t, rfl, fun _ => .rfl, hreached, hget, hstate, eq_of_beq hregistered, eq_of_beq hdisposed,
    Reached.disposal_order hloaded hreached hget⟩

end Moment
end ResourceMachine
