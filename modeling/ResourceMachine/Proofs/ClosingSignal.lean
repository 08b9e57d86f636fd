/-
# The closing signal stays inside

In clean surroundings, no module that was compiled lets the signal out that closes a
generator: no function of the host is called on it, no binding holds it, no error that
chaining makes contains it, and no task hands it out, returns it or throws it, however
generators are resumed (`Moment.Reached.signal_inside`).

A machine in clean surroundings is clean between any two instructions (`Moment.Clean`): a
session that is resumed with what is clean is clean (`Lives.clean`), and it leaves a clean
world behind even where it fails in the middle.

Key definitions: `Moment.Clean`, `Moment.SignalInside`.
Key theorems: `Lives.clean`, `Moment.Clean.step`, `Moment.Reached.clean`,
`Moment.Reached.signal_inside`.
-/
import ResourceMachine.Proofs.CleanEvaluation
import ResourceMachine.Proofs.Confinement
import ResourceMachine.Proofs.TaskInvariant
import ResourceMachine.Proofs.TaskTable
import ResourceMachine.Proofs.Trial

namespace ResourceMachine

variable {σ : Type} {Ω : Surroundings σ}

/-! ### Sessions -/

section

variable {capacity : Nat} {c : Call} {d : Declaration} {s : Session σ}

/-- A session that is started and resumed in clean surroundings is clean, in its events, its
world and its outcome. -/
theorem Lives.clean (hΩ : Ω.Clean) (h : Lives Ω (Resume.Clean) capacity c s)
    (hd : c.Calls d) (hargs : ∀ v ∈ c.args, v.Clean) :
    (∀ e ∈ s.trace, e.Clean) ∧ s.Confines ∧
      ∀ o v, s.control = .ended o → o.value? = some v → v.Clean := by
  obtain ⟨r, hfollows, hr⟩ := h.kept hd (cleanliness_lawful d.kind hΩ.host) (.inl rfl) hargs
    fun world globals script hstart hscript => ⟨CallState.initial_clean hstart hscript, trivial⟩
  obtain ⟨hS, hvalue⟩ := hr.clean
  have htrace : ∀ e ∈ s.trace, e.Clean := fun e he => hS.trace e (hfollows.trace.subset he)
  refine ⟨htrace, ?_, fun o v ho hv => ?_⟩
  · obtain ⟨k, world, globals, script, hstart, hscript, hrun, -⟩ := h
    exact hrun.confines hΩ.host ⟨.start _ _ _ hargs, hstart.world, hstart.globals, hscript⟩ htrace
  · refine hvalue o v (hfollows.ended o ho ?_).1 hv
    rintro rfl
    cases hv

end

/-! ### Machines -/

namespace Moment

/-- What a machine is going to work on is clean, and so is what has happened. -/
structure Clean (μ : Moment σ) : Prop where
  world : μ.vm.world.Clean
  globals : μ.vm.globals.Clean
  ready : ∀ entry ∈ μ.vm.schedule.ready, ∀ v, entry.2.value? = some v → v.Clean
  log : ∀ entry ∈ μ.log, entry.2.Clean

theorem Clean.fit {μ : Moment σ} (h : μ.Clean) : Fit (Resume.Clean) μ :=
  fun _ entry hentry => ⟨h.ready entry hentry, h.world, h.globals⟩

theorem clean_events (id : TaskId) {log : List (TaskId × Event)} {es : List Event}
    (hlog : ∀ entry ∈ log, entry.2.Clean) (hes : ∀ e ∈ es, e.Clean) :
    ∀ entry ∈ log ++ id.events es, entry.2.Clean := by
  intro entry hentry
  rcases List.mem_append.mp hentry with hentry | hentry
  · exact hlog entry hentry
  · obtain ⟨e, he, rfl⟩ := List.mem_map.mp hentry
    exact hes e he

theorem clean_modeEvents {mode : Resume} (h : ∀ v, mode.value? = some v → v.Clean) :
    ∀ e ∈ mode.events, e.Clean := by
  cases mode with
  | start => exact nofun
  | next v | throw v | ret v => exact List.forall_mem_singleton.mpr (h v rfl)

/-- A promise that has settled continues a task with what is clean. -/
theorem clean_continuation {s : Settlement} {mode : Resume} {v : Value} (h : s.Clean)
    (hmode : Schedule.continuation? s = some mode) (hv : mode.value? = some v) : v.Clean := by
  cases s <;> cases hmode <;> cases hv <;> exact h

theorem clean_answer {heap : Heap} {w : Value} {mode : Resume} {v : Value} (hheap : heap.Clean)
    (hw : w.Clean) (hmode : Schedule.answer? heap w = some mode) (hv : mode.value? = some v) :
    v.Clean := by
  cases w
  case promise p => exact clean_continuation (hheap.settlement p) hmode hv
  all_goals
    cases hmode
    cases hv
    exact hw

section

variable (hΩ : Ω.Clean) (hloaded : ∀ m, Ω.loaded m → Compiles m)
include hΩ hloaded

/-- What has happened to a task that has its turn is clean, and so is the world that its run
leaves; and if the run has ended, the value that it is left with. -/
theorem Sane.clean_turn {μ : Moment σ} {turn : Turn σ} (h : Sane Ω (Resume.Clean) μ)
    (hturn : μ.turn = some turn) :
    (∀ e ∈ μ.history turn.id, e.Clean) ∧ turn.progress.activation.world.Clean ∧
      ∀ o a v, turn.progress = .halted o a → o.value? = some v → v.Clean := by
  obtain ⟨-, t, c, -, hmakes, -, -, s, hlives, htrace, -, hat⟩ := h.turn turn hturn
  obtain ⟨d, hd⟩ := (hloaded c.unit hmakes.loaded).calls
  obtain ⟨hevents, hconfines, hvalue⟩ := hlives.clean hΩ hd fun v hv => hΩ.supplied v (hmakes.supplied v hv)
  refine ⟨htrace ▸ hevents, ?_, ?_⟩
  · generalize turn.progress = p at hat
    cases p with
    | running pc a =>
      obtain ⟨-, -, hworld⟩ := hat
      exact hworld ▸ hconfines.world
    | halted o a =>
      obtain ⟨hworld, -⟩ := hat
      exact hworld ▸ hconfines.world
  · intro o a v hp hv
    rw [hp] at hat
    obtain ⟨-, ⟨hs, -⟩ | ⟨pc, b, -, -, rfl, -⟩⟩ := hat
    · exact hvalue o v hs hv
    · cases hv

/-- Every step leaves a machine clean. -/
theorem Clean.step {μ μ' : Moment σ} (h : μ.Clean) (hsane : Sane Ω (Resume.Clean) μ)
    (hstep : Step Ω μ μ') : μ'.Clean := by
  have hsane' := hsane.step h.fit hstep
  cases hstep with
  | spawn loaded supplied done =>
    obtain ⟨hworld, hglobals⟩ := spawn_surroundings done
    obtain ⟨c, -, -, -, -, -, -, -, hready, -⟩ := spawn_eq_ok done
    refine ⟨?_, ?_, ?_, h.log⟩
    · exact hworld ▸ h.world
    · exact hglobals ▸ h.globals
    · intro entry hentry
      have hentry : entry ∈ _ := hready ▸ hentry
      rcases List.mem_append.mp hentry with hentry | hentry
      · exact h.ready entry hentry
      · split at hentry
        · cases hentry
        · rw [List.mem_singleton.mp hentry]
          exact nofun
  | surroundings allowed =>
    obtain ⟨hworld, hglobals⟩ := hΩ.allowed _ _ allowed
    exact ⟨hworld, hglobals, h.ready, h.log⟩
  | @prepare vm vm' log id t mode supplied found generator done =>
    have hmode : ∀ v, mode.value? = some v → v.Clean := fun v hv => hΩ.supplied v (supplied v hv)
    have hrefusal : ∀ e ∈ t.refusal mode, e.Clean := by
      unfold Task.refusal
      split
      · exact List.forall_mem_singleton.mpr (hmode _ rfl)
      · exact List.forall_mem_singleton.mpr (hmode _ rfl)
      · exact nofun
    have hlog := clean_events id h.log hrefusal
    rcases prepareGenerator_cases (Schedule.id_of_get? found) done with
      ⟨state, -, rfl⟩ | ⟨mode', g, -, -, hmode', rfl⟩ | ⟨rfl, -⟩
    · exact ⟨h.world, h.globals, h.ready, hlog⟩
    · refine ⟨h.world, h.globals, fun entry hentry => ?_, hlog⟩
      rcases List.mem_append.mp hentry with hentry | hentry
      · exact h.ready entry hentry
      · rw [List.mem_singleton.mp hentry]
        intro v hv
        rcases hmode' v hv with hv | rfl
        · exact hmode v hv
        · exact .undefined
    · exact ⟨h.world, h.globals, h.ready, hlog⟩
  | @promote vm log =>
    refine ⟨h.world, h.globals, fun entry hentry => ?_, h.log⟩
    have hentry : entry ∈ (vm.schedule.promote vm.world.heap).2.ready := hentry
    rw [Schedule.promote_eq] at hentry
    rcases List.mem_append.mp hentry with hentry | hentry
    · exact h.ready entry hentry
    · obtain ⟨⟨id, p⟩, -, hmode⟩ := List.mem_filterMap.mp hentry
      obtain ⟨mode, hcontinue, rfl⟩ := Option.map_eq_some_iff.mp hmode
      exact fun v hv => clean_continuation (h.world.settlement p) hcontinue hv
  | @begin vm log id mode schedule t f first found function =>
    obtain ⟨rest, hready, rfl⟩ : ∃ rest, vm.schedule.ready = (id, mode) :: rest ∧
        schedule = { vm.schedule with ready := rest } := by
      unfold Schedule.popReady at first
      split at first
      · cases first
      · cases first
        exact ⟨_, ‹_›, rfl⟩
    obtain ⟨hmode, hrest⟩ := List.forall_mem_cons.mp (hready ▸ h.ready)
    exact ⟨h.world, h.globals, hrest, clean_events _ h.log (clean_modeEvents hmode)⟩
  | @instruct vm log id code pc a affordable =>
    obtain ⟨hevents, -, -⟩ := hsane'.clean_turn hΩ hloaded rfl
    refine ⟨h.world, h.globals, h.ready, clean_events _ h.log fun e he => hevents e ?_⟩
    rw [history, history_append, if_pos rfl]
    exact List.mem_append_right _ he
  | exhaust => exact ⟨h.world, h.globals, h.ready, h.log⟩
  | @record vm log id code o a =>
    obtain ⟨-, hworld, hvalue⟩ := hsane.clean_turn hΩ hloaded rfl
    obtain ⟨-, -, -, hsame, hqueue⟩ := record_spec (vm.leave id a) id o
    have hglobals := record_globals (vm.leave id a) id o
    refine ⟨hsame ▸ hworld, hglobals ▸ h.globals, fun entry hentry => ?_, h.log⟩
    have hentry : entry ∈ (stateOf (Vm.record id o (vm.leave id a))).schedule.ready := hentry
    rcases hqueue with ⟨-, hready, -⟩ | ⟨w, mode, rfl, hmode, hready, -⟩ | ⟨p, -, hready, -⟩
    · exact h.ready entry (hready ▸ hentry)
    · rw [hready] at hentry
      rcases List.mem_append.mp hentry with hentry | hentry
      · exact h.ready entry hentry
      · rw [List.mem_singleton.mp hentry]
        exact fun v hv => clean_answer hworld (hvalue _ a w rfl rfl) hmode hv
    · exact h.ready entry (hready ▸ hentry)

/-- In clean surroundings a machine is clean at every moment. -/
theorem Reached.clean {μ : Moment σ} (h : Reached Ω μ) : Sane Ω (Resume.Clean) μ ∧ μ.Clean := by
  obtain ⟨options, world, hworld, h⟩ := h
  induction h with
  | refl =>
    exact ⟨.create options world, (hΩ.allowed _ _ hworld).1, nofun, nofun, nofun⟩
  | tail _ hstep ih =>
    obtain ⟨hsane, hclean⟩ := ih
    exact ⟨hsane.step hclean.fit hstep, hclean.step hΩ hloaded hsane hstep⟩

end

end Moment

/-! ### Tasks -/

/-- The value that a host sees of a task, if any, is clean. -/
def TaskStatus.Clean : TaskStatus → Prop
  | pending => True
  | yielded v | returned v | threw v => v.Clean

namespace Moment

variable {μ : Moment σ} {id : TaskId} {t : Task}

/-- A task does what a call does, and whatever the call comes to is clean: what the bindings
hold where a statement begins or has ended, and what a pass makes an error of. The bindings are
those of the evaluation that the task follows. The code has a slot of the frame for each of
them; of the slots beside these nothing is said, since a pass may put the signal aside there
while it disposes. -/
def StaysClean (Ω : Surroundings σ) (t : Task) (es : List Event) : Prop :=
  ∃ c d n world globals script, t.Follows Ω es c d n (.initial world globals script) ∧
    (d.trail Ω.host n c.args).Meets (.initial world globals script) fun p _ => p.Clean

/-- No function of the host was called on the closing signal, nothing else that has happened
and nothing in the world contains it, no task shows it, and no binding of a call that a task
follows holds it. -/
structure SignalInside (Ω : Surroundings σ) (μ : Moment σ) : Prop where
  called : ∀ id origin f receiver args result,
    (id, Event.call origin f receiver args result) ∈ μ.log → receiver.Clean ∧ ∀ v ∈ args, v.Clean
  happened : ∀ entry ∈ μ.log, entry.2.Clean
  world : μ.vm.world.Clean ∧ ∀ turn, μ.turn = some turn → turn.progress.activation.world.Clean
  status : ∀ id t, μ.vm.schedule.get? id = some t → t.status.Clean
  points : ∀ id t, μ.vm.schedule.get? id = some t →
    t.Unstarted (μ.history id) ∨ StaysClean Ω t (μ.history id)

theorem mem_log_of_history {e : Event} (h : e ∈ μ.history id) : (id, e) ∈ μ.log := by
  obtain ⟨⟨id', e'⟩, hentry, rfl⟩ := List.mem_map.mp h
  obtain ⟨hlog, hid⟩ := List.mem_filter.mp hentry
  obtain rfl : id' = id := of_decide_eq_true hid
  exact hlog

theorem Clean.unstarted (h : μ.Clean) (ht : t.Unstarted (μ.history id)) : t.state.status.Clean := by
  have hlog : ∀ e ∈ μ.history id, e.Clean := fun e he => h.log _ (mem_log_of_history he)
  generalize μ.history id = es at ht hlog
  cases ht with
  | fresh unfinished =>
    rcases unfinished with hstate | hstate <;> rw [hstate] <;> exact trivial
  | closed state =>
    rw [state]
    exact hlog _ List.mem_cons_self
  | refused state =>
    rw [state]
    exact hlog _ List.mem_cons_self

theorem status_clean {es : List Event} {s : Session σ} (ht : t.Shows es s)
    (hs : ∀ o v, s.control = .ended o → o.value? = some v → v.Clean) : t.state.status.Clean := by
  obtain ⟨-, hended, hyields⟩ := ht
  generalize t.state = state at hended hyields
  cases state with
  | yielded v => exact hs _ v (hyields v rfl) rfl
  | completed v => exact hs _ v (hended (.completed v) rfl).1 rfl
  | threw e => exact hs _ e (hended (.threw e) rfl).1 rfl
  | created | running | awaiting | failed => exact trivial

/-- **The closing signal never gets out.** In surroundings that never supply it, no function
of the host is called on it, no binding and no error that is made during disposal holds it,
nothing that is thrown, handed over or kept on the heap contains it, and no status shows it,
at any moment. -/
theorem Reached.signal_inside (hΩ : Ω.Clean) (hloaded : ∀ m, Ω.loaded m → Compiles m)
    (h : Reached Ω μ) : SignalInside Ω μ := by
  obtain ⟨hsane, hclean⟩ := h.clean hΩ hloaded
  refine ⟨fun id origin f receiver args result hcall => ?_, hclean.log, ⟨hclean.world, fun turn hturn => ?_⟩,
    fun id t hget => ?_, fun id t hget => ?_⟩
  · obtain ⟨hreceiver, hargs, -⟩ := hclean.log _ hcall
    exact ⟨hreceiver, hargs⟩
  · exact (hsane.clean_turn hΩ hloaded hturn).2.1
  · rw [h.status_eq hget]
    obtain ⟨c, hmakes, ⟨-, hunstarted⟩ | ⟨s, hlives, hshows⟩⟩ := hsane.task hget
    · exact hclean.unstarted hunstarted
    · obtain ⟨d, hd⟩ := (hloaded c.unit hmakes.loaded).calls
      exact status_clean hshows
        (hlives.clean hΩ hd fun v hv => hΩ.supplied v (hmakes.supplied v hv)).2.2
  · refine (hsane.follows hloaded hget).imp_right ?_
    rintro ⟨c, d, n, world, globals, script, hstart, hscript, hfollows⟩
    exact ⟨c, d, n, world, globals, script, hfollows, Declaration.trail_clean hΩ.host
      hfollows.calls.laid.valid (fun v hv => hΩ.supplied v (hfollows.makes.supplied v hv))
      (CallState.initial_clean hstart hscript) rfl⟩

/-- A generator that is closed where it would catch an exception, and calls a function. -/
def signalCatcher : Declaration :=
  ⟨"f", .generator, ["x"], [.expr (.call (.global "g") [.binding "x"]),
    .tryCatch [.usingIn "r" .sync (.binding "x"), .expr (.yield (.binding "x"))] (some "e")
      [.expr (.call (.global "g") [.binding "e"])]]⟩

/-- A function that returns its argument. -/
def echo : Host Unit := fun _ _ args => pure (args.headD .undefined)

theorem echo_clean : Host.Clean echo := by
  intro f receiver args w _ hargs hw
  refine ⟨.ok ?_, hw⟩
  cases args with
  | nil => exact .undefined
  | cons v vs => exact hargs v List.mem_cons_self

theorem Reached.signal_inside_signalCatcher : ∃ Ω : Surroundings Unit, ∃ μ t,
    Ω.Clean ∧ (∀ m, Ω.loaded m ↔ Module.compile "m" [signalCatcher] = .ok m) ∧
    Reached Ω μ ∧ μ.vm.schedule.get? ⟨0⟩ = some t ∧ t.yieldCount = 1 ∧ (∃ v, t.state = .completed v) ∧
    SignalInside Ω μ := by
  let Ω : Surroundings Unit := ⟨echo, fun m => Module.compile "m" [signalCatcher] = .ok m, Value.Clean,
    fun world globals => World.Clean world ∧ globals.Clean⟩
  have hΩ : Ω.Clean := ⟨echo_clean, fun _ h => h, fun _ _ h => h⟩
  have hglobals : Globals.Clean [("g", .function (.host ⟨0, "g"⟩))] :=
    List.forall_mem_singleton.mpr (.function _)
  have hworld : World.Clean (⟨.empty, ()⟩ : World Unit) := Heap.Clean.empty
  have htrial : (trial Ω.host .standard ⟨.empty, ()⟩ [("g", .function (.host ⟨0, "g"⟩))] [signalCatcher] "f"
      [.null] [.resume ⟨0⟩ .start, .run 40, .resume ⟨0⟩ (.ret (.bool true)), .run 40]).any (fun μ =>
        (μ.vm.schedule.get? ⟨0⟩).any fun t => t.yieldCount == 1 && t.state.returned?.isSome) = true := by
    rw [trial_eq (by decide +kernel)]
    decide +kernel
  obtain ⟨μ, htrial, hμ⟩ := (Option.any_eq_true _ _).mp htrial
  obtain ⟨t, hget, ht⟩ := (Option.any_eq_true _ _).mp hμ
  obtain ⟨hyields, hreturned⟩ := Bool.and_eq_true_iff.mp ht
  have hended : ∃ v, t.state = .completed v :=
    (Option.isSome_iff_exists.mp hreturned).imp fun _ h => TaskState.completed_of_returned? h
  have hreached : Reached Ω μ := by
    refine .of_trial ⟨hworld, nofun⟩ ⟨hworld, hglobals⟩ (fun _ h => h) ?_ ?_ htrial
    · exact List.forall_mem_singleton.mpr (.atom rfl)
    · intro id mode v hmove hv
      simp only [List.mem_cons, List.not_mem_nil, or_false, Move.resume.injEq, reduceCtorEq, false_or] at hmove
      rcases hmove with ⟨-, rfl⟩ | ⟨-, rfl⟩
      · cases hv
      · cases hv
        exact .bool true
  have hloaded : ∀ m, Ω.loaded m → Compiles m := fun m hm => ⟨"m", [signalCatcher], hm, by decide⟩
  exact ⟨Ω, μ, t, hΩ, fun _ => .rfl, hreached, hget, by simpa using hyields, hended,
    Reached.signal_inside hΩ hloaded hreached⟩

end Moment
end ResourceMachine
