/-
# What is promised is returned

A `return` promises its value, and so does a request to return that a generator gets. An
exception voids the promise; the signal that closes a generator does not. Disposal keeps
the value through all that it awaits, so a task that ends under a promise returns what was
promised (`Moment.Reached.returns_promised`).

Key definitions: `promised`, `promiseKept`.
Key theorems: `promiseKept_lawful`, `Moment.Reached.returns_promised`.
-/
import ResourceMachine.Host.Scripted
import ResourceMachine.Proofs.TaskInvariant
import ResourceMachine.Proofs.Trial

namespace ResourceMachine

/-! ### Promises -/

/-- What is promised after an event. -/
def Event.promise (promised : Option Value) : Event → Option Value
  | .returns v | .resume (.ret v) => some v
  | .raise _ | .resume (.throw _) => none
  | _ => promised

/-- The value that is to be returned after these events, if there is one. -/
def promised (es : List Event) : Option Value := es.foldl Event.promise none

theorem promised_snoc (es : List Event) (e : Event) :
    promised (es ++ [e]) = e.promise (promised es) := List.foldl_concat ..

theorem promised_snoc₂ (es : List Event) (e e' : Event) :
    promised (es ++ [e, e']) = e'.promise (e.promise (promised es)) := by
  rw [promised, List.foldl_append]
  rfl

/-! ### The invariant -/

/-- What is promised while something is on its way out of a function. The signal that
closes a generator keeps what was promised in the return slot. -/
def Mood.Keeps (kind : FunctionKind) (rval : Value) (p : Option Value) : Mood → Prop
  | .calm => p = none
  | .returning v => p = some v
  | .throwing e => p = none ∨ kind.isGenerator = true ∧ e = .closing ∧ p = some rval

/-- A call is going to return what is promised. A pass has put it aside. -/
def promiseKept (σ : Type) (kind : FunctionKind) : Invariant σ where
  fine _ := True
  holds
    | .running m, S => m.Keeps kind S.rval (promised S.trace)
    | .disposing _ rval m _, S => m.Keeps kind rval (promised S.trace)
  left _ _ := True

variable {σ : Type}

/-- An exception voids the promise. -/
theorem promiseKept_thrown {kind : FunctionKind} {φ : Phase} {S : CallState σ} (id : Nat) (e : Value)
    (h : promised S.trace = none) : (promiseKept σ kind).holds (φ.thrown id e) S := by
  cases φ <;> exact .inl h

/-- No part of an evaluation forgets a promise. -/
theorem promiseKept_lawful (host : Host σ) (kind : FunctionKind) :
    (promiseKept σ kind).Lawful host kind true where
  plain _ _ := trivial
  global _ _ := trivial
  fresh {φ _} _ h := by cases φ <;> exact h
  raise {_ S e} id _ _ _ := promiseKept_thrown id e (promised_snoc S.trace (.raise e))
  caught {S e} _ h he := by
    refine ⟨trivial, ?_⟩
    rcases h with h | ⟨hkind, rfl, -⟩
    · exact h
    · rw [hkind] at he
      cases he
  fuel _ := trivial
  call {S _ _ _ _} h _ _ := ⟨fun _ _ => trivial, (promised_snoc S.trace _).trans h⟩
  setRval {φ _ _} hφ h _ := by
    cases φ with
    | running m =>
      cases m with
      | calm => exact h
      | _ => cases hφ
    | disposing => exact h
  returns {S v} _ _ := promised_snoc S.trace (.returns v)
  stop _ _ _ := trivial
  next {φ S r rest v p} _ h _ _ hv := by
    have htrace : promised (S.answered p r rest).trace = promised S.trace := by
      show promised (S.trace ++ [.suspend p, .resume (p.accept r.answer)]) = _
      rw [promised_snoc₂, hv]
      rfl
    refine ⟨trivial, ?_⟩
    cases φ with
    | running m =>
      cases m with
      | calm | returning => exact htrace.trans h
      | throwing e =>
        rename_i hp
        cases p <;> simp [Suspension.AllowedIn, Phase.maySuspend] at hp
    | disposing u rval m rs =>
      show m.Keeps kind rval (promised (S.answered p r rest).trace)
      rw [htrace]
      exact h
  throw {_ S r rest e p} id _ _ _ _ he := by
    refine promiseKept_thrown id e ?_
    show promised (S.trace ++ [.suspend p, .resume (p.accept r.answer)]) = _
    rw [promised_snoc₂, he]
    rfl
  close {S r rest v p} hkind _ _ _ hv := by
    refine .inr ⟨hkind, rfl, ?_⟩
    show promised (S.trace ++ [.suspend p, .resume (p.accept r.answer)]) = _
    rw [promised_snoc₂, hv]
    rfl
  iterate h _ := h
  nextItem {S _ _ _} h _ := ⟨fun _ _ => trivial, (promised_snoc S.trace _).trans h⟩
  closeIterator {S m id error c} h _ := by
    refine ⟨fun _ _ => trivial, ?_⟩
    show m.Keeps kind S.rval (promised (S.trace ++ [.close id error]))
    rw [promised_snoc]
    exact h
  openScope h := h
  closeScope {S m cs} h _ := by
    show m.Keeps kind S.rval (promised (S.trace ++ [.exitScope []]))
    rw [promised_snoc]
    exact h
  register {S r _ _} _ h _ _ _ := (promised_snoc S.trace (.register r)).trans h
  take _ h _ _ := h
  dispose {S u rval m r rs f result world} h _ _ := by
    refine ⟨fun _ _ => trivial, ?_⟩
    show m.Keeps kind rval (promised (S.trace ++ [.call .pass f r.value [] result]))
    rw [promised_snoc]
    exact h
  skip h _ := h
  done h := h

/-- A call that has ended under a promise has kept it. -/
theorem Invariant.HoldsOf.completed {kind : FunctionKind} {o : Outcome} {st : TaskState}
    {S : CallState σ} {v : Value} (h : (promiseKept σ kind).HoldsOf (some o, S))
    (ho : o.state? = some st) (hv : promised S.trace = some v) : o = .completed v := by
  cases o with
  | completed w =>
    rcases h with h | ⟨rfl, h | ⟨-, -, h⟩⟩
    · rw [Option.some.inj (h.symm.trans hv)]
    · cases h.symm.trans hv
    · rw [Option.some.inj (h.symm.trans hv)]
  | threw e =>
    obtain ⟨hne, h | ⟨-, he, -⟩⟩ := h
    · cases h.symm.trans hv
    · exact absurd he hne
  | _ => cases ho

/-! ### Tasks -/

namespace Moment

variable {Ω : Surroundings σ} {μ : Moment σ} {id : TaskId} {t : Task} {v : Value}

/-- **What is promised is returned.** A task that has ended, and has not failed, has
returned the value that was promised last, unless an exception was raised after that. -/
theorem Reached.returns_promised (hloaded : ∀ m, Ω.loaded m → Compiles m) (h : Reached Ω μ)
    (hget : μ.vm.schedule.get? id = some t) (hended : ∃ w, t.state = .completed w ∨ t.state = .threw w)
    (hv : promised (μ.history id) = some v) : t.state = .completed v := by
  obtain ⟨o, ho⟩ := TaskState.outcome_of_ended hended
  obtain ⟨c, hmakes, ⟨-, hunstarted⟩ | ⟨s, hlives, hshows⟩⟩ := h.sane.task hget
  · generalize μ.history id = es at hunstarted hv
    cases hunstarted with
    | closed state => rw [state, Option.some.inj hv]
    | fresh | refused => cases hv
  · obtain ⟨d, hd⟩ := (hloaded c.unit hmakes.loaded).calls
    obtain ⟨⟨_, S⟩, hfollows, hr⟩ := hlives.kept hd (promiseKept_lawful Ω.host d.kind) (.inl rfl)
      (fun _ _ => trivial) fun _ _ _ _ _ => rfl
    obtain ⟨rfl, htrace, -⟩ := hfollows.ended_as hshows ho
    rw [htrace] at hv
    obtain rfl := hr.completed ho hv
    exact (Option.some.inj ho).symm

/-- A generator that hands out a value in a protected region while it holds a resource. -/
def guardedYield : Declaration := ⟨"f", .asyncGenerator, ["x"],
  [.usingIn "r" .async (.binding "x"), .tryCatch [.expr (.yield (.int 1))] (some "e") []]⟩

/-- What happens when a return comes in while a resource is held: a pass disposes it and waits
for what its method promises. -/
def disposedOnReturn : List Event → Bool
  | [.register ⟨.object 0, _, _⟩, .suspend (.yield (.int 1)), .resume (.ret (.bool true)),
      .call .pass _ (.object 0) [] _, .suspend (.await _), .resume (.next (.int 7)), .exitScope []] => true
  | _ => false

/-- A generator is asked to return while it holds a resource, whose method promises something
else. -/
theorem Reached.returns_promised_guardedYield : ∃ Ω : Surroundings Console, ∃ μ t,
    Ω.host = Console.call ∧ (∀ m, Ω.loaded m ↔ Module.compile "m" [guardedYield] = .ok m) ∧
    Reached Ω μ ∧ μ.vm.schedule.get? ⟨0⟩ = some t ∧
    (∃ r f result p, μ.history ⟨0⟩ = [.register r, .suspend (.yield (.int 1)), .resume (.ret (.bool true)),
      .call .pass f r.value [] result, .suspend (.await p), .resume (.next (.int 7)), .exitScope []]) ∧
    promised (μ.history ⟨0⟩) = some (.bool true) ∧
    (∃ w, t.state = .completed w ∨ t.state = .threw w) ∧ t.state = .completed (.bool true) := by
  let Ω : Surroundings Console :=
    ⟨Console.call, fun m => Module.compile "m" [guardedYield] = .ok m, fun _ => True, fun _ _ => True⟩
  let world : World Console :=
    ⟨{ Heap.empty with
        objects := #[[(.symbol .async, .function (.host ⟨0, "d"⟩))]], promises := #[.fulfilled (.int 7)] },
      { Console.empty with functions := #[.script ⟨none, false, false, none, .returns (.promise 0)⟩] }⟩
  have htrial : (trial Ω.host .standard world [] [guardedYield] "f" [.object 0]
      [.resume ⟨0⟩ .start, .run 11, .resume ⟨0⟩ (.ret (.bool true)), .run 85]).any (fun μ =>
        (μ.vm.schedule.get? ⟨0⟩).any (·.state.returned?.isSome) && disposedOnReturn (μ.history ⟨0⟩)) = true := by
    rw [trial_eq (by decide +kernel)]
    decide +kernel
  obtain ⟨μ, htrial, hμ⟩ := (Option.any_eq_true _ _).mp htrial
  obtain ⟨hreturned, hhistory⟩ := Bool.and_eq_true_iff.mp hμ
  obtain ⟨t, hget, hreturned⟩ := (Option.any_eq_true _ _).mp hreturned
  have hended : ∃ w, t.state = .completed w ∨ t.state = .threw w :=
    (Option.isSome_iff_exists.mp hreturned).imp fun _ h => .inl (TaskState.completed_of_returned? h)
  have hreached : Reached Ω μ := .of_trial trivial trivial (fun _ h => h) (fun _ _ => trivial)
    (fun _ _ _ _ _ => trivial) htrial
  have hloaded : ∀ m, Ω.loaded m → Compiles m := fun m hm => ⟨"m", [guardedYield], hm, by decide⟩
  unfold disposedOnReturn at hhistory
  split at hhistory
  · rename_i hint method f result p heq
    have hpromised : promised (μ.history ⟨0⟩) = some (.bool true) := by
      rw [heq]
      rfl
    exact ⟨Ω, μ, t, rfl, fun _ => .rfl, hreached, hget, ⟨⟨.object 0, hint, method⟩, f, result, p, heq⟩, hpromised,
      hended, Reached.returns_promised hloaded hreached hget hended hpromised⟩
  · cases hhistory

end Moment
end ResourceMachine
