/-
# How a loop closes its iterator

A loop is made of full rounds, between which nothing happens (`Eval.Rounds`), and of how it
ends (`Eval.LoopEnd`). One that comes to the end of its items does not close its iterator. One
that is left by its body closes it once, and not before the round in which it was left has
disposed what it registered and has been resumed wherever it was suspended (`Settled`). What
closing throws is thrown by the loop, unless the loop was left by an exception, which closing
does not replace.

The events of a round are told apart from those of the loop because a round does on its own
what it does in the loop (`Local.alone`).

Key definitions: `Resumed`, `Settled`, `Eval.Rounds`, `Eval.LoopEnd`, `Stmt.ClosesAsLeft`.
Key theorems: `Stmt.round_settles`, `Eval.forLoop_loops`, `Stmt.closesAsLeft`,
`Moment.Reached.iterators_closed`.
-/
import ResourceMachine.Proofs.DisposalOrder
import ResourceMachine.Proofs.Locality
import ResourceMachine.Proofs.TrailTrace

namespace ResourceMachine

/-! ### Suspensions that are over -/

/-- Whatever suspended a call, it was resumed next. -/
def Resumed (es : List Event) : Prop :=
  ∀ before p after, es = before ++ .suspend p :: after → ∃ a after', after = .resume a :: after'

namespace Resumed

variable {es : List Event} {e : Event}

theorem nil : Resumed [] := by
  intro before p after heq
  simp at heq

theorem snoc (h : Resumed es) (he : ∀ p, e ≠ .suspend p) : Resumed (es ++ [e]) := by
  intro before p after heq
  rcases List.eq_nil_or_concat after with rfl | ⟨after, e', rfl⟩
  · obtain ⟨-, hlast⟩ := List.append_inj' heq rfl
    exact absurd (List.singleton_inj.mp hlast) (he p)
  · have heq : es ++ [e] = (before ++ .suspend p :: after) ++ [e'] := by rw [heq]; simp
    obtain ⟨hes, -⟩ := List.append_inj' heq rfl
    obtain ⟨a, after', rfl⟩ := h before p after hes
    exact ⟨a, after' ++ [e'], by simp⟩

theorem reply (h : Resumed es) (p : Suspension) (a : Answer) :
    Resumed (es ++ [.suspend p, .resume a]) := by
  intro before p' after heq
  rcases List.eq_nil_or_concat after with rfl | ⟨after, e', rfl⟩
  · have heq : (es ++ [.suspend p]) ++ [.resume a] = before ++ [.suspend p'] := by rw [← heq]; simp
    obtain ⟨-, hlast⟩ := List.append_inj' heq rfl
    cases hlast
  · have heq : (es ++ [.suspend p]) ++ [.resume a] = (before ++ .suspend p' :: after) ++ [e'] := by
      rw [List.append_assoc, List.append_assoc]
      simpa using heq
    obtain ⟨hes, hlast⟩ := List.append_inj' heq rfl
    obtain rfl := List.singleton_inj.mp hlast
    rcases List.eq_nil_or_concat after with rfl | ⟨after, e', rfl⟩
    · exact ⟨a, [], rfl⟩
    · have hes : es ++ [.suspend p] = (before ++ .suspend p' :: after) ++ [e'] := by rw [hes]; simp
      obtain ⟨hes, -⟩ := List.append_inj' hes rfl
      obtain ⟨a', after', rfl⟩ := h before p' after hes
      exact ⟨a', after' ++ [e', .resume a], by simp⟩

end Resumed

variable {σ : Type}

/-- A call that is under way has been resumed wherever it was suspended. -/
def wasResumed (σ : Type) : Invariant σ where
  fine _ := True
  holds _ S := Resumed S.trace
  left _ _ := True

theorem wasResumed_lawful (host : Host σ) (kind : FunctionKind) :
    (wasResumed σ).Lawful host kind true where
  plain _ _ := trivial
  global _ _ := trivial
  fresh _ h := h
  raise _ _ h _ := Resumed.snoc h nofun
  caught _ h _ := ⟨trivial, h⟩
  fuel _ := trivial
  call h _ _ := ⟨fun _ _ => trivial, Resumed.snoc h nofun⟩
  setRval _ h _ := h
  returns h _ := Resumed.snoc h nofun
  stop _ _ _ := trivial
  next _ h _ _ _ := ⟨trivial, Resumed.reply h _ _⟩
  throw _ _ h _ _ _ := Resumed.reply h _ _
  close _ h _ _ _ := Resumed.reply h _ _
  iterate h _ := h
  nextItem h _ := ⟨fun _ _ => trivial, Resumed.snoc h nofun⟩
  closeIterator h _ := ⟨fun _ _ => trivial, Resumed.snoc h nofun⟩
  openScope h := h
  closeScope h _ := Resumed.snoc h nofun
  register _ h _ _ _ := Resumed.snoc h nofun
  take _ h _ _ := h
  dispose h _ _ := ⟨fun _ _ => trivial, Resumed.snoc h nofun⟩
  skip h _ := h
  done h := h

/-! ### Rounds -/

/-- What was registered in these events has been disposed in them, the last first, and
whatever suspended the call, it was resumed. -/
structure Settled (es : List Event) : Prop where
  owed : Owed es []
  resumed : Resumed es

namespace Eval

variable {α : Type} {host : Host σ} {kind : FunctionKind} {n : Nat}

/-- What is left behind by an evaluation from a state is what it leaves on its own, behind the
past and within the scopes that were there. -/
theorem Meets.of_alone {m : Eval σ α} {S : CallState σ} {Q : α → CallState σ → Prop}
    {R : Value → CallState σ → Prop} {W : Option Suspension → CallState σ → Prop} (hm : Local 0 0 m)
    (h : Meets m S.alone Q R W) :
    Meets m S (fun a T => ∃ T₀, T = T₀.under S.trace S.scopes ∧ Q a T₀)
      (fun e T => ∃ T₀, T = T₀.under S.trace S.scopes ∧ R e T₀)
      fun p T => ∃ T₀, T = T₀.under S.trace S.scopes ∧ W p T₀ := by
  unfold Meets at h ⊢
  rw [hm.alone S]
  match m S.alone, h with
  | .ok _ T, h => exact ⟨T, rfl, h⟩
  | .error (.thrown _) T, h => exact ⟨T, rfl, h⟩
  | .error (.suspended _) T, h => exact ⟨T, rfl, h⟩
  | .error .outOfFuel T, h => exact ⟨T, rfl, h⟩

/-- What has happened between two states is settled. -/
def SettledSince (S T : CallState σ) : Prop := ∃ es, T.trace = S.trace ++ es ∧ Settled es

/-- Where an evaluation ends that settles what it does. -/
def Settles (m : Eval σ α) : Prop := ∀ S,
  m.Meets S (fun _ T => SettledSince S T) (fun _ T => SettledSince S T) fun _ _ => True

end Eval

section

variable {host : Host σ} {kind : FunctionKind} {n : Nat}

open Invariant

/-- What disposes in order whatever it registers, and is resumed, settles what it does. -/
theorem Eval.Settles.of_keeps {m : Eval σ Exit} (hlocal : Local 0 0 m)
    (howed : (disposalOrder σ).Keeps kind false m) (hresumed : (wasResumed σ).Keeps kind false m) :
    m.Settles := by
  intro S
  have howed := howed S.alone Owed.nil nofun nofun
  have hresumed := hresumed S.alone Resumed.nil nofun nofun
  have hsettled : ∀ {m : Mood} {T : CallState σ}, (disposalOrder σ).holds (.running m) T →
      Scoped kind false [] T → Resumed T.trace → Settled T.trace := by
    intro m T howed hscoped hresumed
    have howed : Owed T.trace (T.scopes.flatMap Capability.owed) := howed
    rw [hscoped.eq_of_not rfl] at howed
    exact ⟨howed, hresumed⟩
  refine (((howed.and hresumed).of_alone hlocal).imp ?_ ?_).mono fun _ _ _ => trivial
  · rintro x _ ⟨T, rfl, ⟨howed, hscoped⟩, hresumed, -⟩
    exact ⟨T.trace, rfl, hsettled howed hscoped hresumed⟩
  · rintro e _ ⟨T, rfl, ⟨howed, hscoped⟩, hresumed, -⟩
    exact ⟨T.trace, rfl, hsettled howed hscoped hresumed⟩

/-- A round settles what it does. -/
theorem Stmt.round_settles {binding : String} {hint : Option Hint} {body : List Stmt} {ρ : Bindings}
    {labels : List (Option String)} {names : List String} (hhint : hint = some .async → kind.isAsync = true)
    (hbody : Stmt.ValidAll kind labels names body) (v : Value) :
    (Stmt.round host kind n binding hint body ρ v).Settles := by
  have howed : (disposalOrder σ).Keeps kind false (Stmt.round host kind n binding hint body ρ v) :=
    Stmt.round_kept (disposalOrder_lawful host kind) trivial hhint
      (Stmt.execAll_kept (disposalOrder_lawful host kind) n hbody (.inl rfl) _ fun _ _ => trivial)
  have hresumed : (wasResumed σ).Keeps kind false (Stmt.round host kind n binding hint body ρ v) :=
    Stmt.round_kept (wasResumed_lawful host kind) trivial hhint
      (Stmt.execAll_kept (wasResumed_lawful host kind) n hbody (.inl rfl) _ fun _ _ => trivial)
  exact .of_keeps (Stmt.round_local host kind n (Stmt.execAll_local host kind n body _)) howed hresumed

end

/-! ### Loops -/

namespace Eval

variable {label : Option String} {id : Nat} {round : Value → Eval σ Exit}

/-- The next item of the iterator, and that it was asked for is all that has happened. -/
structure GetsItem (id : Nat) (item : Option Value) (S T : CallState σ) : Prop where
  result : nextItem id S = .ok item T
  trace : T.trace = S.trace ++ [.next id item]

/-- What closing the iterator throws, and that it was closed is all that has happened. -/
structure ClosesIterator (id : Nat) (error : Option Value) (S T : CallState σ) : Prop where
  result : closeIterator id S = .ok error T
  trace : T.trace = S.trace ++ [.close id error]

/-- Full rounds of a loop. Each gets an item where the one before has ended, settles what it
does, and goes on. Nothing happens between them. -/
inductive Rounds (label : Option String) (id : Nat) (round : Value → Eval σ Exit) :
    CallState σ → CallState σ → Prop
  | none {S : CallState σ} : Rounds label id round S S
  | more {v : Value} {x : Exit} {S T U V : CallState σ} (item : GetsItem id (some v) S T)
      (body : round v T = .ok x U) (settled : SettledSince T U) (goesOn : x.continues label = true)
      (rest : Rounds label id round U V) : Rounds label id round S V

/-- How a loop ends behind its full rounds. It closes its iterator unless it has come to the
end of the items or has stopped in the middle of a round. -/
inductive LoopEnd (label : Option String) (id : Nat) (round : Value → Eval σ Exit) (S : CallState σ) :
    EStateM.Result Interrupt (CallState σ) Exit → Prop
  /-- No item is left. -/
  | exhausted {T : CallState σ} (item : GetsItem id none S T) : LoopEnd label id round S (.ok .normal T)
  /-- The body has left the loop by a return or a jump. -/
  | left {v : Value} {x : Exit} {T U V : CallState σ} (item : GetsItem id (some v) S T)
      (body : round v T = .ok x U) (settled : SettledSince T U) (leaves : x.continues label = false)
      (close : ClosesIterator id none U V) : LoopEnd label id round S (.ok (x.leaveLoop label) V)
  /-- The body has left the loop, but closing the iterator has thrown. -/
  | leftByClose {v e : Value} {x : Exit} {T U V : CallState σ} (item : GetsItem id (some v) S T)
      (body : round v T = .ok x U) (settled : SettledSince T U) (leaves : x.continues label = false)
      (close : ClosesIterator id (some e) U V) : LoopEnd label id round S (.error (.thrown e) (V.log [.raise e]))
  /-- An exception has left the loop. What closing the iterator throws is dropped. -/
  | threw {v e : Value} {error : Option Value} {T U V : CallState σ} (item : GetsItem id (some v) S T)
      (body : round v T = .error (.thrown e) U) (settled : SettledSince T U)
      (close : ClosesIterator id error U V) : LoopEnd label id round S (.error (.thrown e) V)
  /-- The call has stopped in the middle of a round. -/
  | stopped {v : Value} {i : Interrupt} {T U : CallState σ} (item : GetsItem id (some v) S T)
      (body : round v T = .error i U) (unthrown : ∀ e, i ≠ .thrown e) : LoopEnd label id round S (.error i U)
  /-- The loop has gone round as often as it may. -/
  | outOfFuel : LoopEnd label id round S (.error .outOfFuel S)

/-- A loop goes round some times, and ends. -/
def Loops (label : Option String) (id : Nat) (round : Value → Eval σ Exit) (S : CallState σ)
    (r : EStateM.Result Interrupt (CallState σ) Exit) : Prop :=
  ∃ T, Rounds label id round S T ∧ LoopEnd label id round T r

theorem Loops.ends {S : CallState σ} {r : EStateM.Result Interrupt (CallState σ) Exit}
    (h : LoopEnd label id round S r) : Loops label id round S r :=
  ⟨S, .none, h⟩

theorem exists_getsItem (id : Nat) (S : CallState σ) : ∃ item T, GetsItem id item S T :=
  ⟨_, _, rfl, rfl⟩

theorem exists_closesIterator (id : Nat) (S : CallState σ) : ∃ error T, ClosesIterator id error S T :=
  ⟨_, _, rfl, rfl⟩

theorem ClosesIterator.leaveIterator_ok {S T : CallState σ} (h : ClosesIterator id none S T) :
    leaveIterator id S = .ok () T := by
  unfold leaveIterator
  simp only [bind, EStateM.bind, h.result]
  rfl

theorem ClosesIterator.leaveIterator_error {S T : CallState σ} {e : Value} (h : ClosesIterator id (some e) S T) :
    leaveIterator id S = .error (.thrown e) (T.log [.raise e]) := by
  unfold leaveIterator
  simp only [bind, EStateM.bind, h.result]
  rfl

/-- A loop that its body leaves closes its iterator, and hands on what that throws. -/
theorem LoopEnd.of_left {v : Value} {x : Exit} {S T U : CallState σ} (item : GetsItem id (some v) S T)
    (body : round v T = .ok x U) (settled : SettledSince T U) (leaves : x.continues label = false) :
    LoopEnd label id round S ((leaveIterator id >>= fun _ => pure (x.leaveLoop label)) U) := by
  obtain ⟨error, V, hclose⟩ := exists_closesIterator id U
  show LoopEnd label id round S (EStateM.bind (leaveIterator id) _ U)
  rw [EStateM.bind]
  cases error with
  | none =>
    rw [hclose.leaveIterator_ok]
    exact .left item body settled leaves hclose
  | some e =>
    rw [hclose.leaveIterator_error]
    exact .leftByClose item body settled leaves hclose

/-- A loop whose rounds settle what they do goes round some times, and ends. -/
theorem forLoop_loops (hround : ∀ v, (round v).Settles) (n : Nat) (S : CallState σ) :
    Loops label id round S (forLoop label id round n S) := by
  induction n generalizing S with
  | zero => exact .ends .outOfFuel
  | succ n ih =>
    obtain ⟨item, T, hitem⟩ := exists_getsItem id S
    rw [forLoop]
    show Loops label id round S (EStateM.bind (nextItem id) _ S)
    rw [EStateM.bind, hitem.result]
    cases item with
    | none => exact .ends (.exhausted hitem)
    | some v =>
      have hbody := hround v T
      unfold Meets at hbody
      show Loops label id round S (EStateM.bind (attempt (round v)) _ T)
      rw [EStateM.bind, attempt]
      cases hx : round v T with
      | ok x U =>
        rw [hx] at hbody
        show Loops label id round S ((if x.continues label then _ else _ : Eval σ Exit) U)
        cases hleaves : x.continues label with
        | true =>
          obtain ⟨V, hrounds, hend⟩ := ih U
          exact ⟨V, .more hitem hx hbody hleaves hrounds, hend⟩
        | false => exact .ends (.of_left hitem hx hbody hleaves)
      | error i U =>
        rw [hx] at hbody
        cases i with
        | thrown e =>
          obtain ⟨error, V, hclose⟩ := exists_closesIterator id U
          show Loops label id round S (EStateM.bind (closeIterator id) _ U)
          rw [EStateM.bind, hclose.result]
          exact .ends (.threw hitem hx hbody hclose)
        | suspended p => exact .ends (.stopped hitem hx (by rintro _ ⟨⟩))
        | outOfFuel => exact .ends (.stopped hitem hx (by rintro _ ⟨⟩))

/-- The result of a statement that is left as its loop was. -/
def handOn (ρ : Bindings) : EStateM.Result Interrupt (CallState σ) Exit →
    EStateM.Result Interrupt (CallState σ) (Exit × Bindings)
  | .ok x S => .ok (x, ρ) S
  | .error i S => .error i S

end Eval

section

variable (host : Host σ) (kind : FunctionKind) (n : Nat)

/-- If an execution of a loop over items gets an iterator, the loop goes round some times, and
closes the iterator or not as it is left. -/
def Stmt.ClosesAsLeft (label : Option String) (binding : String) (hint : Option Hint) (iterable : Expr)
    (body : List Stmt) (ρ : Bindings) (S : CallState σ) : Prop :=
  ∀ id T, (iterable.eval host ρ >>= Eval.iterate) S = .ok id T →
    ∃ r, Eval.Loops label id (Stmt.round host kind n binding hint body ρ) T r ∧
      (Stmt.forOf label binding hint iterable body).exec host kind n ρ S = Eval.handOn ρ r

variable {host kind n}

theorem Stmt.closesAsLeft {label : Option String} {binding : String} {hint : Option Hint}
    {iterable : Expr} {body : List Stmt} {labels : List (Option String)} {names : List String}
    (h : (Stmt.forOf label binding hint iterable body).Valid kind labels names) (ρ : Bindings)
    (S : CallState σ) : Stmt.ClosesAsLeft host kind n label binding hint iterable body ρ S := by
  obtain ⟨hhint, -, hbody⟩ := h
  intro id T hiterate
  refine ⟨_, Eval.forLoop_loops (fun v => Stmt.round_settles hhint hbody v) n T, ?_⟩
  have hexec : (Stmt.forOf label binding hint iterable body).exec host kind n ρ S =
      EStateM.bind (iterable.eval host ρ >>= Eval.iterate) (fun id => do
        let x ← Eval.forLoop label id (Stmt.round host kind n binding hint body ρ) n
        return (x, ρ)) S := by
    rw [Stmt.exec]
    exact congrFun (bind_assoc _ _ _).symm S
  rw [hexec, EStateM.bind, hiterate]
  show EStateM.bind _ _ T = _
  rw [EStateM.bind]
  cases Eval.forLoop label id (Stmt.round host kind n binding hint body ρ) n T <;> rfl

end

/-! ### Tasks -/

namespace Moment

variable {Ω : Surroundings σ} {μ : Moment σ} {id : TaskId} {t : Task}

/-- In every loop over items that is executed in the call of a task, the iterator is closed as
the loop is left. What happens in the loop is a part of what happens in the call. -/
def ClosesIterators (Ω : Surroundings σ) (t : Task) (es : List Event) : Prop :=
  ∃ c d n world globals script, t.Follows Ω es c d n (.initial world globals script) ∧
    ∀ label binding hint iterable body ρ S, d.trail Ω.host n c.args (.initial world globals script)
      (.statement (.forOf label binding hint iterable body) ρ) S →
        Grows (stateOf ((Stmt.forOf label binding hint iterable body).exec Ω.host d.kind n ρ S))
          (d.run Ω.host n c.args (.initial world globals script)).2 ∧
        Stmt.ClosesAsLeft Ω.host d.kind n label binding hint iterable body ρ S

/-- **Loops close their iterators as they are left.** A task that was ever given a turn does
what a call does in which every loop over items does not close an iterator that has come
to its end, and else closes it once, after all that was registered in the round is
disposed and all suspensions are over. -/
theorem Reached.iterators_closed (hloaded : ∀ m, Ω.loaded m → Compiles m) (h : Reached Ω μ)
    (hget : μ.vm.schedule.get? id = some t) :
    t.Unstarted (μ.history id) ∨ ClosesIterators Ω t (μ.history id) := by
  refine (h.sane.follows hloaded hget).imp_right ?_
  rintro ⟨c, d, n, world, globals, script, -, -, hfollows⟩
  refine ⟨c, d, n, world, globals, script, hfollows, fun label binding hint iterable body ρ S hS => ?_⟩
  have hstart : (disposalOrder σ).holds (.running .calm) (.initial world globals script) := Owed.nil
  obtain ⟨⟨labels, names, hvalid⟩, -⟩ := Declaration.trail_kept (disposalOrder_lawful Ω.host d.kind) n
    hfollows.calls.laid.valid (.inl rfl) (fun _ _ => trivial) hstart rfl _ _ hS
  exact ⟨Declaration.trail_trace _ _ hS, Stmt.closesAsLeft hvalid ρ S⟩

/-- A function that registers each item, and leaves its loop at the first one that is true. -/
def breaker : Declaration := ⟨"f", .normal, ["xs"],
  [.forOf none "x" (some .sync) (.binding "xs") [.ifElse (.binding "x") [.breakLoop none] []]]⟩

/-- What happens in a loop whose second item is an object, which it is left at: the object is
disposed before the iterator is closed. -/
def leftAtSecondItem : List Event → Bool
  | [.next 0 (some .null), .exitScope [], .next 0 (some (.object 0)), .register ⟨.object 0, _, _⟩,
      .call .pass _ (.object 0) [] _, .exitScope [], .close 0 none, .returns .undefined] => true
  | _ => false

theorem Reached.iterators_closed_breaker : ∃ Ω : Surroundings Console, ∃ μ t,
    Ω.host = Console.call ∧ (∀ m, Ω.loaded m ↔ Module.compile "m" [breaker] = .ok m) ∧
    Reached Ω μ ∧ μ.vm.schedule.get? ⟨0⟩ = some t ∧
    (∃ r f result, μ.history ⟨0⟩ = [.next 0 (some .null), .exitScope [], .next 0 (some (.object 0)), .register r,
      .call .pass f r.value [] result, .exitScope [], .close 0 none, .returns .undefined]) ∧
    (t.Unstarted (μ.history ⟨0⟩) ∨ ClosesIterators Ω t (μ.history ⟨0⟩)) := by
  let Ω : Surroundings Console :=
    ⟨Console.call, fun m => Module.compile "m" [breaker] = .ok m, fun _ => True, fun _ _ => True⟩
  let world : World Console :=
    ⟨{ Heap.empty with objects := #[[(.symbol .sync, .function (.host ⟨0, "d"⟩))]] }, .empty⟩
  have htrial : (trial Ω.host .standard world [] [breaker] "f" [.list 0 [.null, .object 0]] [.run 102]).any (fun μ =>
      (μ.vm.schedule.get? ⟨0⟩).isSome && leftAtSecondItem (μ.history ⟨0⟩)) = true := by
    rw [trial_eq (by decide +kernel)]
    decide +kernel
  obtain ⟨μ, htrial, hμ⟩ := (Option.any_eq_true _ _).mp htrial
  obtain ⟨hget, hhistory⟩ := Bool.and_eq_true_iff.mp hμ
  obtain ⟨t, hget⟩ := Option.isSome_iff_exists.mp hget
  have hreached : Reached Ω μ := .of_trial trivial trivial (fun _ h => h) (fun _ _ => trivial)
    (fun _ _ _ _ _ => trivial) htrial
  have hloaded : ∀ m, Ω.loaded m → Compiles m := fun m hm => ⟨"m", [breaker], hm, by decide⟩
  unfold leftAtSecondItem at hhistory
  split at hhistory
  · rename_i hint method f result heq
    exact ⟨Ω, μ, t, rfl, fun _ => .rfl, hreached, hget, ⟨⟨.object 0, hint, method⟩, f, result, heq⟩,
      Reached.iterators_closed hloaded hreached hget⟩
  · cases hhistory

end Moment
end ResourceMachine
