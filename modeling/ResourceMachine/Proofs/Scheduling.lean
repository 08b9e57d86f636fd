/-
# What the scheduler keeps

A task is queued or parked, and only once, just if it is going to have a turn by itself:
if it was created as no generator, if it runs, or if it awaits (`Moment.Course.scheduled`).
Those that are parked stand in the order in which they stopped, and whoever is resumed gets
an answer to the suspension right before, an await that of the value or of the promise that
it was for. So no suspension is answered twice.

The log tells how a task was resumed; what a promise had come to by then is told by the
moments that the machine went through.

Key definitions: `Task.standing`, `Moment.Course`, `openAwaits`, `Moment.Answers`.
Key theorems: `Moment.Scheduled.step`, `Moment.Course.scheduled`, `Moment.runUntilIdle_settled`.
-/
import ResourceMachine.Host.Scripted
import ResourceMachine.Proofs.Operations
import ResourceMachine.Proofs.TaskTable
import ResourceMachine.Proofs.Trial

namespace ResourceMachine

variable {σ : Type}

/-! ### Awaits without an answer -/

/-- The tasks to which nothing has happened since they awaited a value, in the order in
which they did. -/
def openAwaits : List (TaskId × Event) → List (TaskId × Value)
  | [] => []
  | (id, .suspend (.await v)) :: log =>
    if id ∈ log.map Prod.fst then openAwaits log else (id, v) :: openAwaits log
  | _ :: log => openAwaits log

theorem openAwaits_append (log log' : List (TaskId × Event)) : openAwaits (log ++ log') =
    (openAwaits log).filter (fun x => x.1 ∉ log'.map Prod.fst) ++ openAwaits log' := by
  fun_induction openAwaits log with
  | case1 => rfl
  | case2 id v log hmem ih =>
    have hmem' : id ∈ (log ++ log').map Prod.fst := by
      rw [List.map_append]
      exact List.mem_append_left _ hmem
    rw [List.cons_append, openAwaits, if_pos hmem', ih]
  | case3 id v log hmem ih =>
    by_cases hmem' : id ∈ log'.map Prod.fst
    · simp [openAwaits, hmem', ih]
    · simp [openAwaits, hmem, hmem', ih]
  | case4 entry log hother ih =>
    rw [List.cons_append, ← ih]
    exact openAwaits.eq_3 _ _ hother

/-- What happens to one task does not answer the awaits of others. -/
theorem sublist_openAwaits {xs : List (TaskId × Value)} {log log' : List (TaskId × Event)}
    (h : xs.Sublist (openAwaits log)) (hxs : ∀ x ∈ xs, x.1 ∉ log'.map Prod.fst) :
    xs.Sublist ((openAwaits log).filter fun x => x.1 ∉ log'.map Prod.fst) := by
  have hfilter := h.filter fun x => decide (x.1 ∉ log'.map Prod.fst)
  rwa [List.filter_eq_self.mpr (by simpa using hxs)] at hfilter

/-! ### What the scheduler keeps -/

/-- Whether a task is going to have a turn without the host's resuming it. -/
def Task.standing (t : Task) : Bool :=
  match t.state with
  | .running | .awaiting => true
  | .created => !t.kind.isGenerator
  | _ => false

namespace Moment

/-- What a machine went through before it got to a moment, the last first. -/
inductive Course (Ω : Surroundings σ) : List (Moment σ) → Moment σ → Prop
  | create {options : VmOptions} {world : World σ} (allowed : Ω.allows world []) :
      Course Ω [] (idle (Vm.create options world) [])
  | step {past : List (Moment σ)} {μ μ' : Moment σ} (earlier : Course Ω past μ) (next : Step Ω μ μ') :
      Course Ω (μ :: past) μ'

/-- An answer is the one to what a task waited for after these events: an await has come to
it by one of the moments at which the task was suspended there. -/
def Answered (past : List (Moment σ)) (id : TaskId) (es : List Event) : Suspension → Answer → Prop
  | .await v, a => ∃ ν ∈ past, ν.history id = es ∧ Schedule.answer? ν.vm.world.heap v = some a.mode
  | .yield _, _ => True

/-- Each time that a task was resumed, but for a generator that was closed before it was
started, this answers the suspension right before. -/
def Answers (past : List (Moment σ)) (id : TaskId) (es : List Event) : Prop :=
  ∀ before a after, es = before ++ .resume a :: after →
    before = [] ∨ ∃ before' p, before = before' ++ [.suspend p] ∧ Answered past id before p a

/-- A task that awaited a value is queued with what this has come to. -/
def Known (past : List (Moment σ)) (μ : Moment σ) (entry : TaskId × Resume) : Prop :=
  ∀ es v, μ.history entry.1 = es ++ [.suspend (.await v)] →
    ∃ ν ∈ μ :: past, ν.history entry.1 = μ.history entry.1 ∧
      Schedule.answer? ν.vm.world.heap v = some entry.2

/-- What a parked task waits for. -/
def parkedAwait (entry : TaskId × Nat) : TaskId × Value := (entry.1, .promise entry.2)

/-- What the scheduler keeps: of the tasks, of what is parked and queued, of what happened,
and of the task whose turn has come to its end. -/
structure Scheduled (past : List (Moment σ)) (μ : Moment σ) : Prop where
  standing : ∀ id t, μ.vm.schedule.get? id = some t → t.standing = true →
    id ∈ μ.vm.schedule.queued ∨ ∃ turn, μ.turn = some turn ∧ turn.id = id
  ordered : (μ.vm.schedule.waiting.map parkedAwait).Sublist (openAwaits μ.log)
  known : ∀ entry ∈ μ.vm.schedule.ready, Known past μ entry
  answers : ∀ id, Answers past id (μ.history id)
  suspended : ∀ id code o a p, μ.turn = some ⟨id, code, .halted o a⟩ → o.suspension? = some p →
    ∃ log, μ.log = log ++ [(id, .suspend p)]

section

variable {Ω : Surroundings σ} {past past' : List (Moment σ)} {μ μ' : Moment σ} {id : TaskId}
  {es es' : List Event}

theorem Course.reached (h : Course Ω past μ) : Reached Ω μ := by
  induction h with
  | create allowed => exact ⟨_, _, allowed, .refl⟩
  | step _ next ih => exact ih.leads (.single next)

theorem Reached.course (h : Reached Ω μ) : ∃ past, Course Ω past μ := by
  obtain ⟨options, world, hallowed, h⟩ := h
  induction h with
  | refl => exact ⟨[], .create hallowed⟩
  | @tail μ _ _ hstep ih =>
    obtain ⟨past, hpast⟩ := ih
    exact ⟨μ :: past, hpast.step hstep⟩

/-! ### Answers -/

theorem Answered.mono {p : Suspension} {a : Answer} (h : Answered past id es p a)
    (hsub : past ⊆ past') : Answered past' id es p a := by
  cases p with
  | await v =>
    obtain ⟨ν, hν, h⟩ := h
    exact ⟨ν, hsub hν, h⟩
  | yield v => trivial

theorem Answers.mono (h : Answers past id es) (hsub : past ⊆ past') : Answers past' id es := by
  intro before a after heq
  rcases h before a after heq with hnil | ⟨before', p, hbefore, hp⟩
  · exact .inl hnil
  · exact .inr ⟨before', p, hbefore, hp.mono hsub⟩

theorem Answers.append (h : Answers past id es)
    (h' : ∀ before a after, es' = before ++ .resume a :: after → es ++ before = [] ∨
      ∃ before' p, es ++ before = before' ++ [.suspend p] ∧ Answered past id (es ++ before) p a) :
    Answers past id (es ++ es') := by
  intro before a after heq
  rcases List.append_eq_append_iff.mp heq with ⟨rest, rfl, hrest⟩ | ⟨rest, hes, hrest⟩
  · exact h' rest a after hrest
  · cases rest with
    | nil =>
      rw [List.append_nil] at hes
      subst hes
      have hhead := h' [] a after (by simpa using hrest.symm)
      rwa [List.append_nil] at hhead
    | cons e rest =>
      rw [List.cons_append] at hrest
      obtain ⟨rfl, -⟩ := List.cons.inj hrest
      exact h before a rest hes

/-- What is no resumption needs no suspension. -/
theorem Answers.append_quiet (h : Answers past id es) (hes' : ∀ a, .resume a ∉ es') :
    Answers past id (es ++ es') := by
  refine h.append fun before a after heq => absurd ?_ (hes' a)
  rw [heq]
  exact List.mem_append_right _ List.mem_cons_self

theorem Answers.append_resume {a : Answer} (h : Answers past id es)
    (ha : es = [] ∨ ∃ es' p, es = es' ++ [.suspend p] ∧ Answered past id es p a) :
    Answers past id (es ++ [.resume a]) := by
  refine h.append fun before b after heq => ?_
  cases before with
  | nil =>
    cases heq
    rwa [List.append_nil]
  | cons e before => simp at heq

/-! ### Steps -/

/-- A task that is suspended, or was never started, and is queued knows its answer. -/
theorem Known.of_agree {entry : TaskId × Resume} (h : Known past μ entry)
    (hagree : μ'.history entry.1 = μ.history entry.1) : Known (μ :: past) μ' entry := by
  intro es v hes
  rw [hagree] at hes ⊢
  obtain ⟨ν, hν, hanswer⟩ := h es v hes
  exact ⟨ν, List.mem_cons_of_mem _ hν, hanswer⟩

/-- What happens to one task keeps all in order if the task stays so. -/
theorem Scheduled.change (h : Scheduled past μ) (id : TaskId) (es : List Event)
    (hlog : μ'.log = μ.log ++ id.events es)
    (htask : ∀ id', id' ≠ id → μ'.vm.schedule.get? id' = μ.vm.schedule.get? id')
    (hqueued : ∀ id', id' ≠ id → id' ∈ μ.vm.schedule.queued → id' ∈ μ'.vm.schedule.queued)
    (hother : ∀ turn, μ.turn = some turn → turn.id = id)
    (hself : ∀ t, μ'.vm.schedule.get? id = some t → t.standing = true →
      id ∈ μ'.vm.schedule.queued ∨ ∃ turn, μ'.turn = some turn ∧ turn.id = id)
    (hordered : (μ'.vm.schedule.waiting.map parkedAwait).Sublist (openAwaits μ'.log))
    (hready : ∀ entry ∈ μ'.vm.schedule.ready,
      entry ∈ μ.vm.schedule.ready ∧ entry.1 ≠ id ∨ Known (μ :: past) μ' entry)
    (hanswers : Answers (μ :: past) id (μ.history id ++ es))
    (hsuspended : ∀ id code o a p, μ'.turn = some ⟨id, code, .halted o a⟩ → o.suspension? = some p →
      ∃ log, μ'.log = log ++ [(id, .suspend p)]) : Scheduled (μ :: past) μ' := by
  have hhistory : ∀ id', μ'.history id' = μ.history id' ++ if id' = id then es else [] := by
    intro id'
    rw [history, hlog, history_append]
    rfl
  refine ⟨?_, hordered, ?_, ?_, hsuspended⟩
  · intro id' t ht hstanding
    by_cases hid : id' = id
    · subst hid
      exact hself t ht hstanding
    · rw [htask id' hid] at ht
      rcases h.standing id' t ht hstanding with hmem | ⟨turn, hturn, heq⟩
      · exact .inl (hqueued id' hid hmem)
      · exact absurd (heq.symm.trans (hother turn hturn)) hid
  · intro entry hentry
    rcases hready entry hentry with ⟨hold, hid⟩ | hknown
    · refine (h.known entry hold).of_agree ?_
      rw [hhistory, if_neg hid, List.append_nil]
    · exact hknown
  · intro id'
    rw [hhistory]
    by_cases hid : id' = id
    · subst hid
      rwa [if_pos rfl]
    · rw [if_neg hid, List.append_nil]
      exact (h.answers id').mono (List.subset_cons_self _ _)

/-- Tasks to which nothing happens stay parked in the same order. -/
theorem Scheduled.ordered_events {waiting : List (TaskId × Nat)} (h : Scheduled past μ)
    (hsub : waiting.Sublist μ.vm.schedule.waiting) (hid : ∀ entry ∈ waiting, entry.1 ≠ id)
    (es : List Event) : (waiting.map parkedAwait).Sublist (openAwaits (μ.log ++ id.events es)) := by
  have hout : ∀ x ∈ waiting.map parkedAwait, x.1 ∉ (id.events es).map Prod.fst := by
    intro x hx hmem
    obtain ⟨entry, hentry, rfl⟩ := List.mem_map.mp hx
    obtain ⟨_, hevent, heq⟩ := List.mem_map.mp hmem
    obtain ⟨_, -, rfl⟩ := List.mem_map.mp hevent
    exact hid entry hentry heq.symm
  rw [openAwaits_append]
  exact (sublist_openAwaits ((hsub.map _).trans h.ordered) hout).trans (List.sublist_append_left _ _)

/-- A task that awaits stands behind those that are parked. -/
theorem Scheduled.ordered_suspend {log : List (TaskId × Event)} {v : Value} {turn : Option (Turn σ)}
    {vm : Vm σ} (h : Scheduled past ⟨vm, turn, log ++ [(id, .suspend (.await v))]⟩)
    (hid : ∀ entry ∈ vm.schedule.waiting, entry.1 ≠ id) :
    (vm.schedule.waiting.map parkedAwait ++ [(id, v)]).Sublist
      (openAwaits (log ++ [(id, .suspend (.await v))])) := by
  have hself : (vm.schedule.waiting.map parkedAwait).filter (fun x => decide (x.1 ≠ id)) =
      vm.schedule.waiting.map parkedAwait := by
    refine List.filter_eq_self.mpr fun x hx => ?_
    obtain ⟨entry, hentry, rfl⟩ := List.mem_map.mp hx
    exact decide_eq_true (hid entry hentry)
  have hnew : (openAwaits [(id, .suspend (.await v))]).filter (fun x => decide (x.1 ≠ id)) = [] := by
    simp [openAwaits]
  have hordered := h.ordered.filter fun x => decide (x.1 ≠ id)
  rw [hself, openAwaits_append, List.filter_append, hnew, List.append_nil] at hordered
  rw [openAwaits_append]
  exact List.Sublist.append (hordered.trans List.filter_sublist) (List.Sublist.refl _)

variable {vm vm' : Vm σ} {log : List (TaskId × Event)} {code : Bytes} {p : Progress σ}

/-- The world and the globals change, and nothing else. -/
theorem Scheduled.surroundings {world : World σ} {globals : Globals}
    (h : Scheduled past (.idle vm log)) :
    Scheduled (.idle vm log :: past) (.idle { vm with world, globals } log) :=
  ⟨h.standing, h.ordered, fun entry hentry => (h.known entry hentry).of_agree rfl,
    fun id => (h.answers id).mono (List.subset_cons_self _ _), h.suspended⟩

/-- Tasks whose promises have settled are queued. -/
theorem Scheduled.promote {P : Resume → World σ → Globals → Prop} (h : Scheduled past (.idle vm log))
    (hsane : Sane Ω P (.idle vm log)) : Scheduled (.idle vm log :: past)
      (.idle { vm with schedule := (vm.schedule.promote vm.world.heap).2 } log) := by
  have hqueued := vm.schedule.queued_promote vm.world.heap
  have heq := vm.schedule.promote_eq vm.world.heap
  generalize (vm.schedule.promote vm.world.heap).2 = schedule at hqueued heq
  refine ⟨?_, ?_, ?_, fun id => (h.answers id).mono (List.subset_cons_self _ _),
    fun _ _ _ _ _ => Moment.idle_turn⟩
  · intro id t ht hstanding
    have ht : vm.schedule.get? id = some t := by
      rw [← ht, heq]
      rfl
    rcases h.standing id t ht hstanding with hmem | ⟨_, habsurd, _⟩
    · exact .inl (hqueued.mem_iff.mpr hmem)
    · cases habsurd
  · show (schedule.waiting.map parkedAwait).Sublist (openAwaits log)
    rw [heq]
    exact (List.filter_sublist.map _).trans h.ordered
  · intro entry hentry
    have hentry : entry ∈ schedule.ready := hentry
    rw [heq] at hentry
    rcases List.mem_append.mp hentry with hentry | hentry
    · exact (h.known entry hentry).of_agree rfl
    · obtain ⟨⟨id, promise⟩, hparked, hmode⟩ := List.mem_filterMap.mp hentry
      obtain ⟨mode, hanswer, rfl⟩ := Option.map_eq_some_iff.mp hmode
      obtain ⟨t, c, -, -, ⟨s, hlives, hs, -, htrace⟩, -⟩ := hsane.parked _ hparked
      obtain ⟨es₀, hes₀⟩ := hlives.suspended hs rfl
      intro es v hes
      have hlast : es ++ [.suspend (.await v)] = es₀ ++ [.suspend (.await (.promise promise))] := by
        rw [← hes₀, htrace, ← hes]
        rfl
      obtain ⟨⟩ := List.append_inj_right' hlast rfl
      exact ⟨_, List.mem_cons_of_mem _ List.mem_cons_self, rfl, hanswer⟩

/-- A task is created. -/
theorem Scheduled.spawn {P : Resume → World σ → Globals → Prop} {m : Module} {name : String}
    {args : List Value} (h : Scheduled past (.idle vm log)) (hsane : Sane Ω P (.idle vm log))
    (hdone : Vm.spawn m name args vm = .ok id vm') :
    Scheduled (.idle vm log :: past) (.idle vm' log) := by
  obtain ⟨c, -, -, -, rfl, -, -, ⟨t, hstate, hkind, -, hget⟩, hready, hwaiting⟩ := spawn_eq_ok hdone
  have hhistory : (Moment.idle vm' log).history ⟨vm.nextTask⟩ = [] := hsane.history_next
  have hsub : vm.schedule.queued ⊆ vm'.schedule.queued := by
    refine Schedule.queued_subset ?_ ?_
    · rw [hready]
      exact List.subset_append_left _ _
    · rw [hwaiting]
      exact List.Subset.refl _
  refine h.change ⟨vm.nextTask⟩ [] (List.append_nil log).symm (fun id' hne => (hget id').trans (if_neg hne))
    (fun id' _ hmem => hsub hmem) Moment.no_turn (fun t' ht' hstanding => ?_) ?_ (fun entry hentry => ?_) ?_
    fun _ _ _ _ _ => Moment.idle_turn
  · obtain rfl := Option.some.inj (((hget _).trans (if_pos rfl)).symm.trans ht')
    have hnormal : c.function.kind.isGenerator = false := by
      rw [Task.standing, hstate, hkind] at hstanding
      simpa using hstanding
    rw [hnormal] at hready
    refine .inl (Schedule.mem_queued_of_ready (m := .start) ?_)
    show _ ∈ vm'.schedule.ready
    rw [hready]
    exact List.mem_append_right _ List.mem_cons_self
  · show (vm'.schedule.waiting.map parkedAwait).Sublist (openAwaits log)
    rw [hwaiting]
    exact h.ordered
  · change entry ∈ vm'.schedule.ready at hentry
    rw [hready] at hentry
    rcases List.mem_append.mp hentry with hentry | hentry
    · refine .inl ⟨hentry, fun heq => ?_⟩
      have hsome := (hsane.due entry hentry).isSome
      rw [heq, show (Moment.idle vm log).vm.schedule.get? ⟨vm.nextTask⟩ = none from hsane.get?_next] at hsome
      cases hsome
    · split at hentry
      · cases hentry
      · rw [List.mem_singleton.mp hentry]
        refine .inr fun es v hes => ?_
        rw [hhistory] at hes
        simp at hes
  · rw [List.append_nil]
    exact (h.answers _).mono (List.subset_cons_self _ _)

/-- A generator is prepared to be resumed. -/
theorem Scheduled.prepare {P : Resume → World σ → Globals → Prop} {t : Task} {mode : Resume}
    (h : Scheduled past (.idle vm log)) (hsane : Sane Ω P (.idle vm log))
    (hget : vm.schedule.get? id = some t) (hkind : t.kind.isGenerator = true)
    (hdone : Vm.prepareGenerator t mode vm = .ok () vm') :
    Scheduled (.idle vm log :: past) (.idle vm' (log ++ id.events (t.refusal mode))) := by
  obtain ⟨c, -, hlife⟩ := hsane.resting id Moment.no_turn t hget
  rcases prepareGenerator_cases (Schedule.id_of_get? hget) hdone with
    ⟨state, hstate, rfl⟩ | ⟨mode', g, hrevives, hrefusal, -, rfl⟩ | ⟨rfl, hnone⟩
  · have hcreated : t.state = .created := by
      rcases hstate with ⟨hstate, -⟩ | ⟨hstate, -⟩ <;> exact hstate
    obtain ⟨-, hempty⟩ := hlife.of_created hcreated
    have hqueued := hsane.not_queued hget hkind (by rw [hcreated]; nofun) (by rw [hcreated]; nofun)
    obtain ⟨hready, hwaiting⟩ := not_mem_queued.mp hqueued
    have hupdate := Schedule.get?_update vm.schedule id
      (f := fun t => { t with state, status := state.status }) fun _ => rfl
    refine h.change id (t.refusal mode) rfl (fun id' hne => (hupdate id').trans (if_neg hne))
      (fun _ _ hmem => hmem) Moment.no_turn ?_ (h.ordered_events (List.Sublist.refl _) hwaiting _)
      (fun entry hentry => .inl ⟨hentry, hready entry hentry⟩) ?_ fun _ _ _ _ _ => Moment.idle_turn
    · intro t' ht' hstanding
      have ht := (hupdate id).trans ((if_pos rfl).trans (congrArg _ hget))
      obtain rfl := Option.some.inj (ht.symm.trans ht')
      rcases hstate with ⟨-, v, -, rfl⟩ | ⟨-, e, -, rfl⟩ <;> cases hstanding
    · have hanswers := (h.answers id).mono (List.subset_cons_self (.idle vm log) past)
      rcases hstate with ⟨-, v, rfl, -⟩ | ⟨-, e, rfl, -⟩
      · simp only [Task.refusal, hcreated]
        exact hanswers.append_resume (.inl hempty)
      · simp only [Task.refusal, hcreated]
        exact hanswers.append_resume (.inl hempty)
  · have hidle : t.state ≠ .running ∧ t.state ≠ .awaiting := by
      cases hrevives with
      | start hstate | again _ hstate => simp [hstate]
    have hqueued := hsane.not_queued hget hkind hidle.1 hidle.2
    obtain ⟨hready, hwaiting⟩ := not_mem_queued.mp hqueued
    have hupdate := Schedule.get?_update vm.schedule id hrevives.id
    have hsub : vm.schedule.ready ⊆ vm.schedule.ready ++ [(id, mode')] := List.subset_append_left _ _
    -- the generator was not started, or is suspended at a `yield`
    have hyields : ∀ es v, (Moment.idle vm log).history id ≠ es ++ [.suspend (.await v)] := by
      intro es v hes
      cases hrevives with
      | start hcreated =>
        obtain ⟨-, hempty⟩ := hlife.of_created hcreated
        rw [hempty] at hes
        simp at hes
      | again a hyielded =>
        obtain ⟨s, hlives, hs, -, htrace⟩ := hlife.of_yielded hyielded
        obtain ⟨es', hes'⟩ := hlives.suspended hs rfl
        rw [htrace, hes] at hes'
        cases List.append_inj_right' hes' rfl
    rw [hrefusal]
    have hqueued : vm.schedule.queued ⊆ (vm.schedule.enqueue id mode').queued :=
      Schedule.queued_subset hsub (List.Subset.refl _)
    refine h.change id [] rfl (fun id' hne => (hupdate id').trans (if_neg hne))
      (fun _ _ hmem => hqueued hmem) Moment.no_turn
      (fun _ _ _ => .inl (Schedule.mem_queued_of_ready (m := mode') ?_))
      (h.ordered_events (List.Sublist.refl _) hwaiting _) (fun entry hentry => ?_) ?_
      fun _ _ _ _ _ => Moment.idle_turn
    · exact List.mem_append_right _ List.mem_cons_self
    · rcases List.mem_append.mp hentry with hentry | hentry
      · exact .inl ⟨hentry, hready entry hentry⟩
      · rw [List.mem_singleton.mp hentry]
        refine .inr fun es v hes => absurd ?_ (hyields es v)
        rw [← hes]
        simp [history, TaskId.events, idle]
    · rw [List.append_nil]
      exact (h.answers id).mono (List.subset_cons_self _ _)
  · rw [hnone, TaskId.events, List.map_nil, List.append_nil]
    exact h.surroundings

/-- A turn begins. -/
theorem Scheduled.begin {P : Resume → World σ → Globals → Prop} {mode : Resume} {schedule : Schedule}
    {t : Task} {f : Function} (h : Scheduled past (.idle vm log)) (hsane : Sane Ω P (.idle vm log))
    (hfirst : vm.schedule.popReady = some ((id, mode), schedule)) (hfound : schedule.get? id = some t) :
    Scheduled (.idle vm log :: past)
      ⟨{ vm with schedule := schedule.update id fun t => { t with state := .running } },
        some ⟨id, f.code, Activation.routed ⟨t.frame, vm.world⟩ (t.frame.resume mode)⟩,
        log ++ id.events mode.events⟩ := by
  obtain ⟨options, globals, ⟨tasks, ready, waiting⟩, stats, nextTask, world⟩ := vm
  cases ready with
  | nil => cases hfirst
  | cons entry rest =>
    cases hfirst
    have hqueue : (id :: (Schedule.mk tasks rest waiting).queued).Nodup := hsane.queue
    obtain ⟨hid, -⟩ := List.nodup_cons.mp hqueue
    obtain ⟨hready, hwaiting⟩ := not_mem_queued.mp hid
    have hupdate := Schedule.get?_update ⟨tasks, rest, waiting⟩ id
      (f := fun t => { t with state := .running }) (fun _ => rfl)
    obtain ⟨t', c, -, -, htakes⟩ := hsane.due (id, mode) List.mem_cons_self
    refine h.change id mode.events rfl (fun id' hne => (hupdate id').trans (if_neg hne))
      (fun id' hne hmem => ?_) Moment.no_turn (fun _ _ _ => .inr ⟨_, rfl, rfl⟩)
      (h.ordered_events (List.Sublist.refl _) hwaiting _)
      (fun entry hentry => .inl ⟨List.mem_cons_of_mem _ hentry, hready entry hentry⟩) ?_ ?_
    · exact (List.mem_cons.mp hmem).resolve_left hne
    · have hanswers := (h.answers id).mono (List.subset_cons_self
        (.idle ⟨options, globals, ⟨tasks, (id, mode) :: rest, waiting⟩, stats, nextTask, world⟩ log) past)
      rcases htakes.history with ⟨-, hnone⟩ | ⟨es, q, a, hes, hevents, hmode⟩
      · rw [hnone, List.append_nil]
        exact hanswers
      · rw [hevents]
        refine hanswers.append_resume (.inr ⟨es, q, hes, ?_⟩)
        cases q with
        | yield v => trivial
        | await v =>
          have hknown := h.known (id, mode) List.mem_cons_self es v hes
          rwa [hmode] at hknown
    · rintro _ _ o a q hturn hq
      obtain ⟨-, -, hroute⟩ := Turn.mk.inj (Option.some.inj hturn)
      match hresume : t.frame.resume mode with
      | (.goto pc, frame) =>
        rw [hresume] at hroute
        cases hroute
      | (.escaped o', frame) =>
        rw [hresume] at hroute
        cases hroute
        cases hq.symm.trans (Frame.isEscape_resume (congrArg Prod.fst hresume)).suspension?

/-- The run of the task that has its turn goes on. -/
theorem Scheduled.goOn {P : Resume → World σ → Globals → Prop} {p' : Progress σ}
    (h : Scheduled past ⟨vm, some ⟨id, code, p⟩, log⟩) (hsane : Sane Ω P ⟨vm, some ⟨id, code, p⟩, log⟩)
    (hschedule : vm'.schedule = vm.schedule) (es : List Event) (hes : ∀ a, .resume a ∉ es)
    (hsuspended : ∀ o a q, p' = .halted o a → o.suspension? = some q →
      ∃ log', log ++ id.events es = log' ++ [(id, .suspend q)]) :
    Scheduled (⟨vm, some ⟨id, code, p⟩, log⟩ :: past)
      ⟨vm', some ⟨id, code, p'⟩, log ++ id.events es⟩ := by
  obtain ⟨hid, -⟩ := hsane.turn _ rfl
  obtain ⟨hready, hwaiting⟩ := not_mem_queued.mp hid
  refine h.change id es rfl (fun _ _ => by rw [hschedule]) (fun _ _ hmem => by rwa [hschedule]) ?_ ?_ ?_ ?_
    ?_ ?_
  · rintro _ ⟨⟩
    rfl
  · exact fun _ _ _ => .inr ⟨_, rfl, rfl⟩
  · show (vm'.schedule.waiting.map parkedAwait).Sublist _
    rw [hschedule]
    exact h.ordered_events (List.Sublist.refl _) hwaiting es
  · show ∀ entry ∈ vm'.schedule.ready, _
    rw [hschedule]
    exact fun entry hentry => .inl ⟨hentry, hready entry hentry⟩
  · exact ((h.answers id).mono (List.subset_cons_self _ _)).append_quiet hes
  · rintro _ _ o a q ⟨⟩ hq
    exact hsuspended o a q rfl hq

/-- A turn has ended. -/
theorem Scheduled.record {P : Resume → World σ → Globals → Prop} {o : Outcome} {a : Activation σ}
    (h : Scheduled past ⟨vm, some ⟨id, code, .halted o a⟩, log⟩)
    (hsane : Sane Ω P ⟨vm, some ⟨id, code, .halted o a⟩, log⟩) :
    Scheduled (⟨vm, some ⟨id, code, .halted o a⟩, log⟩ :: past)
      (.idle (stateOf (Vm.record id o (vm.leave id a))) log) := by
  obtain ⟨hid, t, c, hget, -⟩ := hsane.turn _ rfl
  obtain ⟨hready, hwaiting⟩ := not_mem_queued.mp hid
  obtain ⟨hgets, -, -, hworld, hqueue⟩ := record_spec (vm.leave id a) id o
  have hleave := Schedule.get?_update vm.schedule id (f := fun t => { t with frame := a.frame })
    fun _ => rfl
  have hlast : ∀ v, o = .awaits v → ∃ log', log = log' ++ [(id, .suspend (.await v))] := fun v ho =>
    h.suspended id code o a (.await v) rfl (by rw [ho]; rfl)
  generalize hvm : stateOf (Vm.record id o (vm.leave id a)) = vm' at hgets hworld hqueue ⊢
  have hsub : vm.schedule.queued ⊆ vm'.schedule.queued := by
    rcases hqueue with ⟨-, hr, hw⟩ | ⟨_, _, -, -, hr, hw⟩ | ⟨p, -, hr, hw⟩
    · exact Schedule.queued_subset (hr ▸ List.Subset.refl _) (hw ▸ List.Subset.refl _)
    · exact Schedule.queued_subset (hr ▸ List.subset_append_left _ _) (hw ▸ List.Subset.refl _)
    · exact Schedule.queued_subset (hr ▸ List.Subset.refl _) (hw ▸ List.subset_append_left _ _)
  refine h.change id [] (List.append_nil log).symm (fun id' hne => ?_) (fun _ _ hmem => hsub hmem) ?_ ?_ ?_ ?_ ?_
    fun _ _ _ _ _ => Moment.idle_turn
  · show vm'.schedule.get? id' = vm.schedule.get? id'
    rw [hgets, if_neg hne]
    exact (hleave id').trans (if_neg hne)
  · rintro _ ⟨⟩
    rfl
  · intro t' ht' hstanding
    have ht : vm'.schedule.get? id = some (o.settle { t with frame := a.frame }) := by
      rw [hgets, if_pos rfl, show (vm.leave id a).schedule.get? id = _ from hleave id, if_pos rfl,
        show vm.schedule.get? id = some t from hget]
      rfl
    obtain rfl := Option.some.inj (ht.symm.trans ht')
    have hawaiting : o.state = .awaiting := by
      rw [Task.standing, o.settle_state] at hstanding
      cases o <;> first | rfl | cases hstanding
    rcases hqueue with ⟨habsurd, -⟩ | ⟨v, mode, -, -, hr, -⟩ | ⟨p, -, -, hw⟩
    · exact absurd hawaiting habsurd
    · refine .inl (Schedule.mem_queued_of_ready (m := mode) ?_)
      show _ ∈ vm'.schedule.ready
      rw [hr]
      exact List.mem_append_right _ List.mem_cons_self
    · refine .inl (Schedule.mem_queued_of_waiting (p := p) ?_)
      show _ ∈ vm'.schedule.waiting
      rw [hw]
      exact List.mem_append_right _ List.mem_cons_self
  · show (vm'.schedule.waiting.map parkedAwait).Sublist (openAwaits log)
    rcases hqueue with ⟨-, -, hw⟩ | ⟨_, _, -, -, -, hw⟩ | ⟨p, ho, -, hw⟩
    · rw [hw]
      exact h.ordered
    · rw [hw]
      exact h.ordered
    · rw [hw]
      obtain ⟨log', rfl⟩ := hlast _ ho
      rw [List.map_append]
      exact h.ordered_suspend hwaiting
  · intro entry hentry
    change entry ∈ vm'.schedule.ready at hentry
    rcases hqueue with ⟨-, hr, -⟩ | ⟨v, mode, ho, hmode, hr, -⟩ | ⟨p, -, hr, -⟩
    · rw [hr] at hentry
      exact .inl ⟨hentry, hready entry hentry⟩
    · rw [hr] at hentry
      rcases List.mem_append.mp hentry with hentry | hentry
      · exact .inl ⟨hentry, hready entry hentry⟩
      · rw [List.mem_singleton.mp hentry]
        obtain ⟨log', rfl⟩ := hlast v ho
        refine .inr fun es w hes => ⟨_, List.mem_cons_self, rfl, ?_⟩
        have hhistory := history_append log' id [.suspend (.await v)] id
        rw [if_pos rfl] at hhistory
        obtain ⟨⟩ := List.append_inj_right' (hhistory.symm.trans hes) rfl
        show Schedule.answer? vm'.world.heap v = some mode
        rw [hworld]
        exact hmode
    · rw [hr] at hentry
      exact .inl ⟨hentry, hready entry hentry⟩
  · rw [List.append_nil]
    exact (h.answers id).mono (List.subset_cons_self _ _)

/-- Every step keeps what the scheduler keeps. -/
theorem Scheduled.step {P : Resume → World σ → Globals → Prop} (h : Scheduled past μ)
    (hsane : Sane Ω P μ) (hstep : Step Ω μ μ') : Scheduled (μ :: past) μ' := by
  cases hstep with
  | spawn _ _ done => exact h.spawn hsane done
  | surroundings => exact h.surroundings
  | prepare _ found generator done => exact h.prepare hsane found generator done
  | promote => exact h.promote hsane
  | begin first found => exact h.begin hsane first found
  | @instruct vm log id code pc a =>
    have hschedule : vm.tally.schedule = vm.schedule := rfl
    refine h.goOn hsane hschedule (a.events ⟨Ω.host, vm.globals⟩ code pc)
      (fun _ => Activation.resume_not_mem_events _) fun o a' q hhalt hq => ?_
    rw [Activation.events_of_suspended hhalt hq]
    exact ⟨_, rfl⟩
  | @exhaust vm log id code pc b a =>
    have hgo : Scheduled (⟨vm, some ⟨id, code, .running pc a⟩, log⟩ :: past)
        ⟨vm, some ⟨id, code, .halted (.failed (.budgetExceeded b)) (a.keepIp pc)⟩, log ++ id.events []⟩ :=
      h.goOn hsane rfl [] (fun _ => List.not_mem_nil) fun o a q heq hq => by
        cases heq
        cases hq
    rwa [TaskId.events, List.map_nil, List.append_nil] at hgo
  | record => exact h.record hsane

/-- What the scheduler keeps, it has kept at every moment. -/
theorem Course.scheduled_of (h : Course Ω past μ) : Scheduled past μ := by
  induction h with
  | create =>
    refine ⟨nofun, List.Sublist.refl _, nofun, fun id before a after heq => ?_, fun _ _ _ _ _ => Moment.idle_turn⟩
    cases before <;> cases heq
  | step earlier next ih => exact ih.step earlier.reached.sane next

/-! ### Between turns -/

/-- A task that is queued or parked is going to have a turn. -/
theorem Sane.standing_of_queued {P : Resume → World σ → Globals → Prop} (h : Sane Ω P μ)
    (hid : id ∈ μ.vm.schedule.queued) : ∃ t, μ.vm.schedule.get? id = some t ∧ t.standing = true := by
  rcases List.mem_append.mp hid with hid | hid
  · obtain ⟨entry, hentry, rfl⟩ := List.mem_map.mp hid
    obtain ⟨t, c, hget, -, htakes⟩ := h.due entry hentry
    refine ⟨t, hget, ?_⟩
    rcases htakes.state with hstate | hstate | ⟨hstate, hkind⟩
    · simp [Task.standing, hstate]
    · simp [Task.standing, hstate]
    · simp [Task.standing, hstate, hkind]
  · obtain ⟨entry, hentry, rfl⟩ := List.mem_map.mp hid
    obtain ⟨t, c, hget, -, hparked⟩ := h.parked entry hentry
    exact ⟨t, hget, by simp [Task.standing, hparked.state]⟩

/-- What had settled still is settled so. -/
def KeepsSettled (heap heap' : Heap) : Prop :=
  ∀ p, (heap.settlement p).isSettled = true → heap'.settlement p = heap.settlement p

theorem KeepsSettled.answer? {heap heap' : Heap} {v : Value} {mode : Resume} (h : KeepsSettled heap heap')
    (hv : Schedule.answer? heap v = some mode) : Schedule.answer? heap' v = some mode := by
  cases v
  case promise p =>
    have hsettled : (heap.settlement p).isSettled = true := by
      rw [Schedule.answer?] at hv
      cases hp : heap.settlement p with
      | pending =>
        rw [hp] at hv
        cases hv
      | fulfilled | rejected => rfl
    rwa [Schedule.answer?, h p hsettled]
  all_goals exact hv

/-- A machine that ran until idle has nothing queued, and parked only what waits for
promises that are pending. -/
theorem runUntilIdle_settled {host : Host σ} : ∀ {fuel : Nat} {vm vm' : Vm σ},
    Vm.runUntilIdle host fuel vm = .ok () vm' → vm'.schedule.ready = [] ∧
      ∀ entry ∈ vm'.schedule.waiting, vm'.world.heap.settlement entry.2 = .pending
  | 0, _, _, h => by cases h
  | fuel + 1, vm, vm', h => by
    cases hpop : vm.schedule.popReady with
    | some next =>
      obtain ⟨⟨id, mode⟩, schedule⟩ := next
      rw [runUntilIdle_turn hpop] at h
      obtain ⟨_, _, -, h⟩ := bind_eq_ok.mp h
      exact runUntilIdle_settled h
    | none =>
      rw [runUntilIdle_promote hpop] at h
      simp only at h
      split at h
      · rename_i hwoken
        cases h
        have hready : vm.schedule.ready = [] := by
          unfold Schedule.popReady at hpop
          split at hpop
          · assumption
          · cases hpop
        have hnone : ∀ entry ∈ vm.schedule.waiting,
            Schedule.continuation? (vm.world.heap.settlement entry.2) = none := by
          rw [Schedule.promote, Schedule.promoteAll_count, List.countP_eq_zero] at hwoken
          simpa using hwoken
        rw [Schedule.promote_eq]
        refine ⟨?_, fun entry hentry => ?_⟩
        · rw [hready, List.nil_append, List.filterMap_eq_nil_iff]
          exact fun entry hentry => by rw [hnone entry hentry]; rfl
        · have hpending := hnone entry (List.mem_filter.mp hentry).1
          cases hp : vm.world.heap.settlement entry.2 with
          | pending => rfl
          | fulfilled | rejected =>
            rw [hp] at hpending
            cases hpending
      · exact runUntilIdle_settled h

/-- **The scheduler loses no task and no wake-up.** A task is queued or parked, and only
once, just if it is going to have a turn by itself; what a host sees of it says how it
ended, or what it has handed out. What is parked stands in the order in which it stopped.
Each task that was resumed was suspended right before and got the answer to that: the value
that it awaited, or what the promise had settled with by then, and still is settled with if
promises settle once. -/
theorem Course.scheduled (h : Course Ω past (.idle vm log)) :
    (∀ id, vm.schedule.queued.count id =
      if (vm.schedule.get? id).any Task.standing then 1 else 0) ∧
    (∀ id t, vm.schedule.get? id = some t → ∃ s, Vm.status id vm = .ok s vm ∧
      (∀ v, s = .returned v ↔ t.state = .completed v) ∧ (∀ e, s = .threw e ↔ t.state = .threw e) ∧
      (∀ v, s = .yielded v ↔ t.state = .yielded v) ∧
      (s = .pending ↔ ∀ v, t.state ≠ .completed v ∧ t.state ≠ .threw v ∧ t.state ≠ .yielded v)) ∧
    (vm.schedule.waiting.map parkedAwait).Sublist (openAwaits log) ∧
    (∀ id, Answers past id (id.history log)) ∧
    ((∀ ν ∈ past, KeepsSettled ν.vm.world.heap vm.world.heap) → ∀ (id : TaskId) es v a after,
      id.history log = es ++ .suspend (.await v) :: .resume a :: after →
        Schedule.answer? vm.world.heap v = some a.mode) := by
  have hsane := h.reached.sane
  have hscheduled := h.scheduled_of
  refine ⟨fun id => ?_, fun id t hget => ?_, hscheduled.ordered, hscheduled.answers, ?_⟩
  · have hcount : vm.schedule.queued.count id = if id ∈ vm.schedule.queued then 1 else 0 :=
      List.Nodup.count hsane.queue
    suffices hiff : id ∈ vm.schedule.queued ↔ (vm.schedule.get? id).any Task.standing = true by
      rw [hcount]
      simp only [hiff]
    refine ⟨fun hmem => ?_, fun hany => ?_⟩
    · obtain ⟨t, hget, hstanding⟩ := hsane.standing_of_queued hmem
      rw [show vm.schedule.get? id = some t from hget]
      exact hstanding
    · obtain ⟨t, hget, hstanding⟩ := (Option.any_eq_true _ _).mp hany
      rcases hscheduled.standing id t hget hstanding with hmem | ⟨_, habsurd, _⟩
      · exact hmem
      · cases habsurd
  · refine ⟨t.status, status_eq_ok hget, ?_⟩
    rw [h.reached.status_eq hget]
    cases t.state <;> simp [TaskState.status, eq_comm]
  · intro hkeeps id es v a after hes
    rcases hscheduled.answers id (es ++ [.suspend (.await v)]) a after (hes.trans (by simp)) with
      hnil | ⟨es', p, hes', hp⟩
    · simp at hnil
    · obtain ⟨⟩ := List.append_inj_right' hes' rfl
      obtain ⟨ν, hν, -, hanswer⟩ := hp
      exact (hkeeps ν hν).answer? hanswer

/-- A function that awaits its argument. -/
def waiter : Declaration := ⟨"f", .async, ["p"], [.expr (.await (.binding "p"))]⟩

theorem Course.scheduled_waiter : ∃ (Ω : Surroundings Console) (past : List (Moment Console))
    (vm : Vm Console) (log : List (TaskId × Event)), Ω.host = Console.call ∧
    (∀ m, Ω.loaded m ↔ Module.compile "m" [waiter] = .ok m) ∧ Course Ω past (.idle vm log) ∧
    vm.schedule.waiting = [(⟨0⟩, 0)] ∧ vm.schedule.queued.count ⟨0⟩ =
      (if (vm.schedule.get? ⟨0⟩).any Task.standing then 1 else 0) ∧
    (vm.schedule.waiting.map parkedAwait).Sublist (openAwaits log) := by
  let Ω : Surroundings Console :=
    ⟨Console.call, fun m => Module.compile "m" [waiter] = .ok m, fun _ => True, fun _ _ => True⟩
  have htrial : (trial Ω.host .standard ⟨{ Heap.empty with promises := #[.pending] }, Console.empty⟩ []
      [waiter] "f" [.promise 0] [.run 20]).any (fun μ =>
        μ.turn.isNone && μ.vm.schedule.waiting == [(⟨0⟩, 0)]) = true := by
    decide +kernel
  obtain ⟨⟨vm, turn, log⟩, htrial, hμ⟩ := (Option.any_eq_true _ _).mp htrial
  obtain ⟨hturn, hwaiting⟩ := Bool.and_eq_true_iff.mp hμ
  obtain rfl : turn = none := Option.isNone_iff_eq_none.mp hturn
  have hreached : Reached Ω (.idle vm log) := .of_trial trivial trivial (fun _ h => h) (by simp [Ω])
    (by simp) htrial
  obtain ⟨past, hcourse⟩ := hreached.course
  obtain ⟨hcount, -, hordered, -⟩ := Course.scheduled hcourse
  exact ⟨Ω, past, vm, log, rfl, fun _ => .rfl, hcourse, by simpa using hwaiting, hcount ⟨0⟩, hordered⟩

end

end Moment
end ResourceMachine
