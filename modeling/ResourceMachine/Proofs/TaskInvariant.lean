/-
# What a task keeps

What no part of an evaluation breaks holds of the tasks of compiled functions: at every
moment, the events that a task had a part in are those of a session, which are a part of
those of a call of which it holds (`Lives.kept`); and a task that has ended has ended as
that call has (`Session.Follows.ended_as`). Only a generator that was closed before it was
started ends without a session (`Moment.Sane.task`).

Key definitions: `Outcome.state?`, `Task.Unstarted`, `Task.Shows`, `Task.Follows`.
Key theorems: `Lives.kept`, `Moment.Sane.task`, `Moment.Sane.follows`.
-/
import ResourceMachine.Proofs.EvaluationInvariant
import ResourceMachine.Proofs.TaskEvaluation

namespace ResourceMachine

/-! ### Ends -/

/-- The state of a task whose call has ended so. -/
def Outcome.state? : Outcome → Option TaskState
  | completed v => some (.completed v)
  | threw e => some (.threw e)
  | _ => none

/-- A task that has returned or thrown shows how its call has ended. -/
theorem TaskState.outcome_of_ended {state : TaskState}
    (h : ∃ v, state = .completed v ∨ state = .threw v) : ∃ o : Outcome, o.state? = some state := by
  obtain ⟨v, rfl | rfl⟩ := h
  · exact ⟨.completed v, rfl⟩
  · exact ⟨.threw v, rfl⟩

variable {σ : Type} {Ω : Surroundings σ} {P : Resume → World σ → Globals → Prop} {capacity : Nat}
  {c : Call}

/-- A task that was never given a turn. -/
inductive Task.Unstarted (t : Task) : List Event → Prop
  | fresh (unfinished : t.state = .created ∨ t.state = .running) : Unstarted t []
  | closed {v : Value} (state : t.state = .completed v) : Unstarted t [.resume (.ret v)]
  | refused {e : Value} (state : t.state = .threw e) : Unstarted t [.resume (.throw e)]

/-- A task with a part in these events shows how far a session has got. -/
structure Task.Shows (t : Task) (es : List Event) (s : Session σ) : Prop where
  trace : s.trace = es
  ended : ∀ o, o.state? = some t.state → s.control = .ended o ∧ t.frame = s.frame
  yields : ∀ v, t.state = .yielded v → s.control = .ended (.yields v)

theorem Life.shows {t : Task} {es : List Event} (h : Life Ω P capacity c t es) :
    t.frame = c.first capacity ∧ t.Unstarted es ∨ ∃ s, Lives Ω P capacity c s ∧ t.Shows es s := by
  cases h with
  | fresh frame state => exact .inl ⟨frame, .fresh state⟩
  | closed frame state => exact .inl ⟨frame, .closed state⟩
  | refused frame state => exact .inl ⟨frame, .refused state⟩
  | stopped lives ended frame state =>
    refine .inr ⟨_, lives, rfl, ?_, ?_⟩
    · intro o ho
      generalize t.state = st at state ho
      cases state <;> cases o <;> cases ho <;> exact ⟨ended, frame⟩
    · intro v hv
      rw [hv] at state
      cases state
      exact ended
  | exhausted lives running _ state =>
    refine .inr ⟨_, lives, rfl, ?_, ?_⟩
    · intro o ho
      rw [state] at ho
      cases o <;> cases ho
    · intro v hv
      cases state.symm.trans hv

/-- A task has lived so far as its call has, unless it was never given a turn. -/
theorem Moment.Sane.task {μ : Moment σ} {id : TaskId} {t : Task} (h : Sane Ω P μ)
    (hget : μ.vm.schedule.get? id = some t) :
    ∃ c, Makes Ω c t ∧ (t.frame = c.first μ.vm.options.stackCapacity ∧ t.Unstarted (μ.history id) ∨
      ∃ s, Lives Ω P μ.vm.options.stackCapacity c s ∧ t.Shows (μ.history id) s) := by
  by_cases hturn : ∃ turn, μ.turn = some turn ∧ turn.id = id
  · obtain ⟨turn, hturn, rfl⟩ := hturn
    obtain ⟨-, t', c, hget', hmakes, hstate, -, s, hlives, htrace, -⟩ := h.turn turn hturn
    obtain rfl := Option.some.inj (hget.symm.trans hget')
    refine ⟨c, hmakes, .inr ⟨s, hlives, htrace, ?_, ?_⟩⟩
    · intro o ho
      rw [hstate] at ho
      cases o <;> cases ho
    · intro v hv
      cases hstate.symm.trans hv
  · obtain ⟨c, hmakes, hlife⟩ := h.resting id (fun turn heq hid => hturn ⟨turn, heq, hid⟩) t hget
    exact ⟨c, hmakes, hlife.shows⟩

/-- A task whose call does what an evaluation does: what the task had a part in is a part of
what happens in the evaluation; and if the task has ended or handed out a value, all of it. -/
structure Task.Follows (Ω : Surroundings σ) (t : Task) (es : List Event) (c : Call) (d : Declaration)
    (n : Nat) (S : CallState σ) : Prop where
  makes : Makes Ω c t
  calls : c.Calls d
  trace : es <+: (d.run Ω.host n c.args S).2.trace
  ended : ∀ o, o.state? = some t.state → (d.run Ω.host n c.args S).1 = some o ∧
    es = (d.run Ω.host n c.args S).2.trace
  yields : ∀ v, t.state = .yielded v → (d.run Ω.host n c.args S).1 = some (.yields v) ∧
    es = (d.run Ω.host n c.args S).2.trace

/-- A task of a compiled function was never given a turn, or follows an evaluation that starts
and is resumed where `P` holds. -/
theorem Moment.Sane.follows {μ : Moment σ} {id : TaskId} {t : Task} (h : Sane Ω P μ)
    (hloaded : ∀ m, Ω.loaded m → Compiles m) (hget : μ.vm.schedule.get? id = some t) :
    t.Unstarted (μ.history id) ∨ ∃ c d n world globals script, P .start world globals ∧
      (∀ r ∈ script, P r.answer.mode r.world r.globals) ∧
      t.Follows Ω (μ.history id) c d n (.initial world globals script) := by
  obtain ⟨c, hmakes, ⟨-, hunstarted⟩ | ⟨s, hlives, hshows⟩⟩ := h.task hget
  · exact .inl hunstarted
  · obtain ⟨d, hd⟩ := (hloaded c.unit hmakes.loaded).calls
    obtain ⟨n, world, globals, script, hP, hscript, hfollows⟩ := hlives.evaluation hd
    refine .inr ⟨c, d, n, world, globals, script, hP, hscript, hmakes, hd, ?_, ?_, ?_⟩
    · rw [← hshows.trace]
      exact hfollows.trace
    · intro o ho
      obtain ⟨hr, htrace, -⟩ := hfollows.ended o (hshows.ended o ho).1 (by rintro rfl; cases ho)
      exact ⟨hr, hshows.trace.symm.trans htrace⟩
    · intro v hv
      obtain ⟨hr, htrace, -⟩ := hfollows.ended _ (hshows.yields v hv) nofun
      exact ⟨hr, hshows.trace.symm.trans htrace⟩

/-! ### Sessions -/

section

variable {d : Declaration} {s : Session σ}

/-- Whatever an evaluation keeps holds of a call that a session follows, if it holds where
the call is entered. -/
theorem Lives.kept {I : Invariant σ} {catches : Bool} (h : Lives Ω P capacity c s) (hd : c.Calls d)
    (hI : I.Lawful Ω.host d.kind catches) (hcatch : catches = true ∨ Stmt.TrylessAll d.body)
    (hargs : ∀ v ∈ c.args, I.fine v)
    (hstart : ∀ world globals script, P .start world globals →
      (∀ r ∈ script, P r.answer.mode r.world r.globals) →
        I.holds (.running .calm) (.initial world globals script)) :
    ∃ r, s.Follows capacity c r ∧ I.HoldsOf r := by
  obtain ⟨n, world, globals, script, hP, hscript, hfollows⟩ := h.evaluation hd
  exact ⟨_, hfollows, Declaration.run_kept hI n hd.laid.valid hcatch hargs
    (hstart world globals script hP hscript) rfl⟩

/-- A task that has ended has ended as its call has. -/
theorem Session.Follows.ended_as {r : Option Outcome × CallState σ} {t : Task} {es : List Event}
    {o : Outcome} (h : s.Follows capacity c r) (ht : t.Shows es s) (ho : o.state? = some t.state) :
    r.1 = some o ∧ es = r.2.trace ∧ t.frame.scopes = [] ∧ t.frame.handlers = [] ∧ r.2.scopes = [] := by
  obtain ⟨hs, hframe⟩ := ht.ended o ho
  have hfailed : o ≠ .failed .stackOverflow := by
    rintro rfl
    cases ho
  have hover : o.suspension? = none := by
    cases o <;> first | rfl | cases ho
  obtain ⟨hr, htrace, -, hscopes, hends⟩ := h.ended o hs hfailed
  obtain ⟨hhandlers, hnil⟩ := hends hover
  rw [hframe]
  exact ⟨hr, ht.trace.symm.trans htrace, hscopes.trans hnil, hhandlers, hnil⟩

end

end ResourceMachine
