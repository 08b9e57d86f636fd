/-
# No exception is lost

A function without handlers keeps all exceptions that are raised in it: the first is on its
way out, and each later one, raised while resources are disposed, is thrown as an error that
keeps the ones before it (`Chains`). So a call throws if an exception was raised, and then
what the chain of all of them comes to; where none was raised, it does not throw.

The signal that closes a generator is no exception. It can only arrive before the first one,
and gives way to it.

Key definitions: `Event.exception?`, `exceptions`, `Chains`, `exceptionsKept`.
Key theorems: `exceptionsKept_lawful`, `Moment.Reached.exceptions_kept`.
-/
import ResourceMachine.Proofs.ClosingSignal
import ResourceMachine.Proofs.SynchronousRun

namespace ResourceMachine

/-! ### Exceptions in order -/

/-- The exception that an event raises, or passes in to a call. -/
def Event.exception? : Event → Option Value
  | raise e | resume (.throw e) => some e
  | _ => none

/-- The exceptions that were raised in a call or passed in, in order. -/
def exceptions (es : List Event) : List Value := es.filterMap Event.exception?

theorem exceptions_snoc (es : List Event) (e : Event) :
    exceptions (es ++ [e]) = exceptions es ++ e.exception?.toList := by
  rw [exceptions, List.filterMap_append, exceptions]
  cases h : e.exception? <;> simp [h]

theorem exceptions_reply (es : List Event) (p : Suspension) (a : Answer) :
    exceptions (es ++ [.suspend p, .resume a]) = exceptions es ++ (Event.resume a).exception?.toList := by
  have hsplit : es ++ [.suspend p, .resume a] = (es ++ [.suspend p]) ++ [.resume a] := by simp
  rw [hsplit, exceptions_snoc, exceptions_snoc]
  simp [Event.exception?]

/-- What exceptions come to that are raised one after the other: the first is superseded by
the second, and both by the third, and so on. -/
inductive Chains : List Value → Value → Prop
  | first (e : Value) : Chains [e] e
  | next {es : List Value} {older : Value} (id : Nat) (e : Value) (earlier : Chains es older) :
      Chains (es ++ [e]) (.suppressed id e older)

theorem Chains.ne_nil {es : List Value} {e : Value} (h : Chains es e) : es ≠ [] := by
  cases h <;> simp

/-! ### The invariant -/

/-- What is on its way out is what the exceptions so far come to. -/
inductive Mood.Carries : List Value → Mood → Prop
  | calm : Carries [] .calm
  | returning (v : Value) : Carries [] (.returning v)
  | closing : Carries [] (.throwing .closing)
  | throwing {es : List Value} {e : Value} (exception : e ≠ .closing) (chains : Chains es e) :
      Carries es (.throwing e)

namespace Phase

/-- What is on its way out in a phase. -/
def mood : Phase → Mood
  | running m | disposing _ _ m _ => m

/-- In a pass, the closing signal gives way. -/
theorem carries_thrown {kind : FunctionKind} {φ : Phase} {es : List Value} {e : Value} (id : Nat)
    (h : φ.mood.Carries es) (hclean : φ.Clean kind) (hφ : φ.mayThrow = true) (he : e.Clean) :
    (φ.thrown id e).mood.Carries (es ++ [e]) := by
  have hfirst : Mood.Carries [e] (.throwing e) := .throwing he.ne_closing (.first e)
  cases φ with
  | running m =>
    cases h with
    | calm | returning => exact hfirst
    | closing | throwing => cases hφ
  | disposing u rval m rs =>
    obtain ⟨-, -, -, hu⟩ := hclean
    cases h with
    | calm | returning => exact hfirst
    | closing =>
      obtain rfl : u = true := hu rfl
      exact hfirst
    | @throwing es p hp chains =>
      have hchained : chained u id e (some p) = .suppressed id e p := by
        cases p
        case closing => exact absurd rfl hp
        all_goals rfl
      show Mood.Carries (es ++ [e]) (.throwing (chained u id e (some p)))
      rw [hchained]
      exact .throwing nofun (.next id e chains)

end Phase

section

variable {σ : Type} {host : Host σ} {kind : FunctionKind}

/-- In clean surroundings, what is on its way out is what the exceptions so far come to. -/
def exceptionsKept (σ : Type) (kind : FunctionKind) : Invariant σ where
  fine := Value.Clean
  holds φ S := (cleanliness σ kind).holds φ S ∧ φ.mood.Carries (exceptions S.trace)
  left := (cleanliness σ kind).left

/-- No part of an evaluation without handlers loses an exception. -/
theorem exceptionsKept_lawful (kind : FunctionKind) (hhost : Host.Clean host) :
    (exceptionsKept σ kind).Lawful host kind false :=
  have hclean := cleanliness_lawful kind hhost
  have hsame : ∀ {es : List Event} {m : Mood} (e : Event), e.exception? = none →
      m.Carries (exceptions es) → m.Carries (exceptions (es ++ [e])) := by
    intro es m e he h
    rwa [exceptions_snoc, he, Option.toList_none, List.append_nil]
  { plain := hclean.plain
    global := fun h => hclean.global h.1
    fresh := fun {φ _} n h => ⟨hclean.fresh n h.1, by cases φ <;> exact h.2⟩
    raise := fun {φ S e} id hφ h he => by
      refine ⟨hclean.raise id hφ h.1 he, ?_⟩
      show (φ.thrown id e).mood.Carries (exceptions (S.trace ++ [.raise e]))
      rw [exceptions_snoc]
      exact Phase.carries_thrown id h.2 h.1.2 hφ he
    caught := fun h => nomatch h
    fuel := fun h => hclean.fuel h.1
    call := fun h hargs hcall => by
      obtain ⟨hresult, hcalled⟩ := hclean.call h.1 hargs hcall
      exact ⟨hresult, hcalled, hsame _ rfl h.2⟩
    setRval := fun hφ h hv => ⟨hclean.setRval hφ h.1 hv, h.2⟩
    returns := fun {S v} h hv => by
      refine ⟨hclean.returns h.1 hv, ?_⟩
      have hnone : exceptions S.trace = [] := by
        generalize hes : exceptions S.trace = es
        obtain ⟨-, h⟩ := h
        rw [hes] at h
        cases h
        rfl
      show Mood.Carries (exceptions (S.trace ++ [.returns v])) (.returning v)
      rw [exceptions_snoc, hnone]
      exact .returning v
    stop := fun hp h hv => hclean.stop hp h.1 hv
    next := fun {φ S r rest v p} hp h hpv hscript hv => by
      obtain ⟨hfine, hnext⟩ := hclean.next hp h.1 hpv hscript hv
      refine ⟨hfine, hnext, ?_⟩
      show φ.mood.Carries (exceptions (S.trace ++ [.suspend p, .resume (p.accept r.answer)]))
      rw [exceptions_reply, hv]
      simpa [Event.exception?] using h.2
    throw := fun {φ S r rest e p} id hp h hpv hscript he => by
      have hthrown := hclean.throw id hp h.1 hpv hscript he
      refine ⟨hthrown, ?_⟩
      have hφ : φ.mayThrow = true := by
        cases φ with
        | running m => cases p <;> cases m <;> first | rfl | (obtain ⟨-, h⟩ := hp; cases h)
        | disposing => rfl
      have hfine : e.Clean := by
        obtain ⟨-, hanswer⟩ := h.1.1.answered hpv hscript
        rwa [he] at hanswer
      show (φ.thrown id e).mood.Carries
        (exceptions (S.trace ++ [.suspend p, .resume (p.accept r.answer)]))
      rw [exceptions_reply, he]
      exact Phase.carries_thrown id h.2 h.1.2 hφ hfine
    close := fun {S r rest v p} hkind h hpv hscript hv => by
      refine ⟨hclean.close hkind h.1 hpv hscript hv, ?_⟩
      have hnone : exceptions S.trace = [] := by
        generalize hes : exceptions S.trace = es
        obtain ⟨-, h⟩ := h
        rw [hes] at h
        cases h
        rfl
      show Mood.Carries (exceptions (S.trace ++ [.suspend p, .resume (p.accept r.answer)]))
        (.throwing .closing)
      rw [exceptions_reply, hv, hnone]
      exact .closing
    iterate := fun h hv => ⟨hclean.iterate h.1 hv, h.2⟩
    nextItem := fun h hnext => by
      obtain ⟨hitem, hheap⟩ := hclean.nextItem h.1 hnext
      exact ⟨hitem, hheap, hsame _ rfl h.2⟩
    closeIterator := fun h hclose => by
      obtain ⟨herror, hheap⟩ := hclean.closeIterator h.1 hclose
      exact ⟨herror, hheap, hsame _ rfl h.2⟩
    openScope := fun h => ⟨hclean.openScope h.1, h.2⟩
    closeScope := fun h hscopes => ⟨hclean.closeScope h.1 hscopes, hsame _ rfl h.2⟩
    register := fun n h hv hr hscopes => ⟨hclean.register n h.1 hv hr hscopes, hsame _ rfl h.2⟩
    take := fun u h hscopes hu => ⟨hclean.take u h.1 hscopes hu, h.2⟩
    dispose := fun h hf hcall => by
      obtain ⟨hresult, hcalled⟩ := hclean.dispose h.1 hf hcall
      exact ⟨hresult, hcalled, hsame _ rfl h.2⟩
    skip := fun h hm => ⟨hclean.skip h.1 hm, h.2⟩
    done := fun h => ⟨hclean.done h.1, h.2⟩ }

/-- A call that has returned has raised no exception, and one that has thrown has thrown
what its exceptions come to. -/
theorem Invariant.HoldsOf.accounted {o : Option Outcome} {S : CallState σ}
    (h : (exceptionsKept σ kind).HoldsOf (o, S)) :
    (∀ v, o = some (.completed v) → exceptions S.trace = []) ∧
      ∀ e, o = some (.threw e) → Chains (exceptions S.trace) e := by
  generalize hes : exceptions S.trace = es
  refine ⟨?_, ?_⟩
  · rintro v rfl
    rcases h with ⟨-, h⟩ | ⟨-, -, h⟩
    · rw [hes] at h
      cases h
      rfl
    · rw [hes] at h
      cases h with
      | closing => rfl
      | throwing exception => exact absurd rfl exception
  · rintro e rfl
    obtain ⟨hne, -, h⟩ := h
    rw [hes] at h
    cases h with
    | closing => exact absurd rfl hne
    | throwing _ chains => exact chains

end

/-! ### Tasks -/

/-- A task runs the function that a declaration was compiled to. -/
def Task.Runs (t : Task) (d : Declaration) : Prop :=
  ∃ name ds f, Module.compile name ds = .ok t.frame.unit ∧ Declaration.nodesAll ds < 2147483648 ∧
    d ∈ ds ∧ t.frame.function? = some f ∧ f.name = d.name

/-- The function of a call is the one that its frames run. -/
theorem Call.function_eq {c : Call} {f : Frame} {capacity : Nat}
    (h : f.setup = (c.unit, c.index, capacity)) : f.unit = c.unit ∧ f.function? = some c.function := by
  obtain ⟨hunit, hindex, -⟩ : f.unit = c.unit ∧ f.functionIndex = c.index ∧
      f.stack.capacity = capacity := by
    simpa [Frame.setup] using h
  exact ⟨hunit, by rw [Frame.function?, hunit, hindex, c.found]⟩

namespace Task.Runs

variable {t : Task} {d : Declaration} {c : Call} {capacity : Nat}

/-- The call that a task makes is a call of the function that it runs. -/
theorem calls (h : t.Runs d) (hsetup : t.frame.setup = (c.unit, c.index, capacity)) : c.Calls d := by
  obtain ⟨name, ds, f, hcompile, hnodes, hd, hf, hname⟩ := h
  obtain ⟨hunit, hfunction⟩ := Call.function_eq hsetup
  obtain rfl : f = c.function := Option.some.inj (hf.symm.trans hfunction)
  obtain ⟨hbuilt, -, hsize⟩ := Module.compile_built hcompile hnodes
  have hle := Declaration.nodes_le_nodesAll hd
  exact hbuilt.calls (by omega) hd (by omega) hunit.symm hname

end Task.Runs

/-- A task that has ended has run the function of its call. -/
theorem Task.Shows.setup {σ : Type} {Ω : Surroundings σ} {P : Resume → World σ → Globals → Prop}
    {capacity : Nat} {c : Call} {t : Task} {es : List Event} {s : Session σ} {o : Outcome}
    (h : t.Shows es s) (hlives : Lives Ω P capacity c s) (ho : o.state? = some t.state) :
    t.frame.setup = (c.unit, c.index, capacity) := by
  rw [(h.ended o ho).2]
  exact hlives.setup

namespace Moment

variable {σ : Type} {Ω : Surroundings σ} {μ : Moment σ} {id : TaskId} {t : Task} {d : Declaration}

/-- **No exception is lost, duplicated or reordered.** A task of a function without handlers
that has come to its end has thrown if an exception was raised in it, and then what the
chain of all of them comes to. -/
theorem Reached.exceptions_kept (hΩ : Ω.Clean) (hloaded : ∀ m, Ω.loaded m → Compiles m)
    (h : Reached Ω μ) (hget : μ.vm.schedule.get? id = some t) (hruns : t.Runs d)
    (htryless : Stmt.TrylessAll d.body) (hended : ∃ v, t.state = .completed v ∨ t.state = .threw v) :
    (exceptions (μ.history id) = [] → ∃ v, t.state = .completed v) ∧
      (exceptions (μ.history id) ≠ [] → ∃ e, t.state = .threw e ∧ Chains (exceptions (μ.history id)) e) := by
  have hkept : (∀ v, t.state = .completed v → exceptions (μ.history id) = []) ∧
      ∀ e, t.state = .threw e → Chains (exceptions (μ.history id)) e := by
    obtain ⟨hsane, -⟩ := h.clean hΩ hloaded
    obtain ⟨c, hmakes, ⟨-, hunstarted⟩ | ⟨s, hlives, hshows⟩⟩ := hsane.task hget
    · generalize μ.history id = es at hunstarted
      cases hunstarted with
      | fresh unfinished =>
        obtain ⟨v, hv⟩ := hended
        rcases unfinished with hstate | hstate <;> simp [hstate] at hv
      | @closed v state => exact ⟨fun _ _ => rfl, fun e he => by simp [state] at he⟩
      | @refused e state =>
        refine ⟨fun v hv => by simp [state] at hv, fun e' he' => ?_⟩
        obtain rfl : e = e' := TaskState.threw.inj (state.symm.trans he')
        exact .first e
    · obtain ⟨o, ho⟩ := TaskState.outcome_of_ended hended
      have hsetup := hshows.setup hlives ho
      obtain ⟨⟨_, S⟩, hfollows, hr⟩ := hlives.kept (hruns.calls hsetup)
        (exceptionsKept_lawful d.kind hΩ.host) (.inr htryless)
        (fun v hv => hΩ.supplied v (hmakes.supplied v hv)) fun world globals script hstart hscript =>
          ⟨⟨CallState.initial_clean hstart hscript, trivial⟩, .calm⟩
      obtain ⟨rfl, htrace, -⟩ := hfollows.ended_as hshows ho
      obtain ⟨hcompleted, hthrew⟩ := hr.accounted
      rw [htrace]
      refine ⟨fun v hv => hcompleted v ?_, fun e he => hthrew e ?_⟩
      · rw [hv] at ho
        cases o <;> cases ho
        rfl
      · rw [he] at ho
        cases o <;> cases ho
        rfl
  obtain ⟨v, hv | hv⟩ := hended
  · exact ⟨fun _ => ⟨v, hv⟩, fun hne => absurd (hkept.1 v hv) hne⟩
  · exact ⟨fun hnil => absurd hnil (hkept.2 v hv).ne_nil, fun _ => ⟨v, hv, hkept.2 v hv⟩⟩

/-- A task that has ended has run one of the functions that were loaded. -/
theorem Sane.runs {P : Resume → World σ → Globals → Prop} {name : String} {ds : List Declaration}
    (h : Sane Ω P μ) (hloaded : ∀ m, Ω.loaded m → Module.compile name ds = .ok m)
    (hnodes : Declaration.nodesAll ds < 2147483648) (hget : μ.vm.schedule.get? id = some t)
    (hended : ∃ v, t.state = .completed v ∨ t.state = .threw v) : ∃ d ∈ ds, t.Runs d := by
  obtain ⟨o, ho⟩ := TaskState.outcome_of_ended hended
  obtain ⟨c, hmakes, hlife⟩ := h.task hget
  have hsetup : t.frame.setup = (c.unit, c.index, μ.vm.options.stackCapacity) := by
    rcases hlife with ⟨hframe, -⟩ | ⟨s, hlives, hshows⟩
    · rw [hframe, c.setup_first]
    · exact hshows.setup hlives ho
  have hcompile := hloaded c.unit hmakes.loaded
  obtain ⟨hbuilt, -, -⟩ := Module.compile_built hcompile hnodes
  obtain ⟨d, hd, hf⟩ := exists_left_of_forall₂ hbuilt.compiled (List.mem_of_getElem? c.found)
  obtain ⟨hunit, hfunction⟩ := Call.function_eq hsetup
  exact ⟨d, hd, name, ds, c.function, hunit ▸ hcompile, hnodes, hd, hfunction, hf.name_eq⟩

/-- A function that throws, and disposes a resource on the way out. -/
def disposingThrower : Declaration :=
  ⟨"f", .normal, ["x"], [.usingIn "r" .sync (.binding "x"), .throw (.int 1)]⟩

/-- A function that always throws. -/
def fails : Host Unit := fun _ _ _ => throw (.int 2)

theorem Reached.exceptions_kept_disposingThrower : ∃ Ω : Surroundings Unit, ∃ μ t,
    Ω.Clean ∧ (∀ m, Ω.loaded m ↔ Module.compile "m" [disposingThrower] = .ok m) ∧ Reached Ω μ ∧
    μ.vm.schedule.get? ⟨0⟩ = some t ∧ t.Runs disposingThrower ∧ Stmt.TrylessAll disposingThrower.body ∧
    (∃ v, t.state = .completed v ∨ t.state = .threw v) ∧ (exceptions (μ.history ⟨0⟩)).length = 2 ∧
    ∃ e, t.state = .threw e ∧ Chains (exceptions (μ.history ⟨0⟩)) e := by
  let Ω : Surroundings Unit := ⟨fails, fun m => Module.compile "m" [disposingThrower] = .ok m, Value.Clean,
    fun world globals => World.Clean world ∧ globals.Clean⟩
  have hfails : Host.Clean fails := by
    intro f receiver args w _ _ hw
    refine ⟨?_, hw⟩
    rintro v (hv | hv)
    · cases hv
    · cases hv
      exact .int 2
  have hΩ : Ω.Clean := ⟨hfails, fun _ h => h, fun _ _ h => h⟩
  let world : World Unit :=
    ⟨{ Heap.empty with objects := Heap.empty.objects.push [(.symbol .sync, .function (.host ⟨0, "d"⟩))] }, ()⟩
  have hworld : World.Clean world :=
    Heap.Clean.empty.newObject (List.forall_mem_singleton.mpr (.function _))
  have htrial : (trial Ω.host .standard world [] [disposingThrower] "f" [.object 0] [.run 100]).any (fun μ =>
      (exceptions (μ.history ⟨0⟩)).length == 2 &&
        (μ.vm.schedule.get? ⟨0⟩).any fun t => t.state.thrown?.isSome) = true := by
    rw [trial_eq (by decide +kernel)]
    decide +kernel
  obtain ⟨μ, htrial, hμ⟩ := (Option.any_eq_true _ _).mp htrial
  obtain ⟨hlength, hget⟩ := Bool.and_eq_true_iff.mp hμ
  obtain ⟨t, hget, ht⟩ := (Option.any_eq_true _ _).mp hget
  have hlength : (exceptions (μ.history ⟨0⟩)).length = 2 := eq_of_beq hlength
  have hended : ∃ v, t.state = .completed v ∨ t.state = .threw v :=
    (Option.isSome_iff_exists.mp ht).imp fun _ h => .inr (TaskState.threw_of_thrown? h)
  have hreached : Reached Ω μ := by
    have hglobals : Globals.Clean [] := nofun
    refine .of_trial ⟨hworld, hglobals⟩ ⟨hworld, hglobals⟩ (fun _ h => h) ?_ ?_ htrial
    · exact List.forall_mem_singleton.mpr (.atom rfl)
    · intro id mode v hmove
      cases List.mem_singleton.mp hmove
  have hloaded : ∀ m, Ω.loaded m → Compiles m := fun m hm => ⟨"m", [disposingThrower], hm, by decide⟩
  have hruns : t.Runs disposingThrower := by
    obtain ⟨d, hd, hruns⟩ := hreached.sane.runs (fun _ h => h) (by decide) hget hended
    rwa [List.mem_singleton.mp hd] at hruns
  have htryless : Stmt.TrylessAll disposingThrower.body := ⟨trivial, trivial, trivial⟩
  refine ⟨Ω, μ, t, hΩ, fun _ => .rfl, hreached, hget, hruns, htryless, hended, hlength, ?_⟩
  refine (Reached.exceptions_kept hΩ hloaded hreached hget hruns htryless hended).2 fun hnil => ?_
  rw [hnil] at hlength
  cases hlength

end Moment
end ResourceMachine
