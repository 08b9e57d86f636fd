/-
# Generators that are resumed

A generator is resumed in the states in which it stands still. A resumption that is refused
leaves the machine as it is. One that closes a generator before it was started, or throws
into it, finishes it, and no instruction of its body is ever executed. A generator that is
finished stays as it is. And none is entered more than once: who is queued to be started was
created and not started before, and is queued only once.

All this holds at every moment of a machine, whatever other tasks do meanwhile, and also
where operations before have failed.

Key definitions: `Moment.Enters`, `Moment.Entered`.
Key theorems: `Moment.Reached.finished`, `Moment.Entered.leads`, `Moment.Reached.resumption`.
-/
import ResourceMachine.Proofs.Scheduling

namespace ResourceMachine

variable {σ : Type}

/-! ### Finished tasks -/

namespace Task.Becomes

variable {t t' : Task} {s s' : VmStats} {es : List Event}

/-- Nothing happens to a task that is finished. -/
theorem unfinished (h : t.Becomes s es s' t') : t.state.isFinished = false := by
  cases h with
  | closed _ state | refused _ state | acts state | ends _ _ state => rw [state]; rfl
  | queued revives =>
    cases revives with
    | start state | again _ state => rw [state]; rfl
  | begins _ state => rcases state with state | state | ⟨state, -⟩ <;> rw [state] <;> rfl

/-- No task is created twice. -/
theorem ne_created (h : t.Becomes s es s' t') : t'.state ≠ .created := by
  cases h with
  | acts state => rw [state]; nofun
  | ends o => rw [o.settle_state]; cases o <;> nofun
  | queued revives => rw [revives.running]; nofun
  | _ => nofun

end Task.Becomes

namespace Moment

variable {Ω : Surroundings σ} {μ μ' : Moment σ} {vm vm' : Vm σ} {log : List (TaskId × Event)}
  {id : TaskId} {t : Task}

/-- A task that has its turn is running. -/
theorem Reached.running (h : Reached Ω μ) {turn : Turn σ} (hturn : μ.turn = some turn) :
    ∃ t, μ.vm.schedule.get? turn.id = some t ∧ t.state = .running := by
  obtain ⟨-, t, c, hget, -, hstate, -⟩ := h.sane.turn turn hturn
  exact ⟨t, hget, hstate⟩

/-- **A task that is finished stays as it is**, and never has a turn. -/
theorem Reached.finished (h : Reached Ω μ) (hleads : Leads Ω μ μ') (hget : μ.vm.schedule.get? id = some t)
    (hfinished : t.state.isFinished = true) :
    μ'.vm.schedule.get? id = some t ∧ ∀ turn, μ'.turn = some turn → turn.id ≠ id := by
  have hstays : μ'.vm.schedule.get? id = some t := by
    induction hleads with
    | refl => exact hget
    | tail hearlier hstep ih =>
      rcases hstep.task (h.leads hearlier) id with hsame | ⟨_, -, -, hnone, -⟩ | ⟨t', _, _, _, _, hget', hbecomes, -⟩
      · exact hsame.trans ih
      · cases ih.symm.trans hnone
      · obtain rfl : t = t' := Option.some.inj (ih.symm.trans hget')
        cases hfinished.symm.trans hbecomes.unfinished
  refine ⟨hstays, ?_⟩
  rintro turn hturn rfl
  obtain ⟨t', hget', hstate⟩ := (h.leads hleads).running hturn
  obtain rfl : t = t' := Option.some.inj (hstays.symm.trans hget')
  rw [hstate] at hfinished
  cases hfinished

/-- No task is dropped. -/
theorem Reached.kept (h : Reached Ω μ) (hleads : Leads Ω μ μ') (hget : (μ.vm.schedule.get? id).isSome) :
    (μ'.vm.schedule.get? id).isSome := by
  induction hleads with
  | refl => exact hget
  | tail hearlier hstep ih =>
    rcases hstep.task (h.leads hearlier) id with hsame | ⟨_, -, -, -, hsome⟩ | ⟨_, _, _, _, _, -, -, hsome⟩
    · rwa [hsame]
    · rw [hsome]
      rfl
    · rw [hsome]
      rfl

/-- A task that is only created never had a turn. -/
theorem Course.unstarted {past : List (Moment σ)} (h : Course Ω past μ)
    (hcreated : ∀ t, μ.vm.schedule.get? id = some t → t.state = .created) :
    ∀ ν ∈ past, ∀ turn, ν.turn = some turn → turn.id ≠ id := by
  induction h with
  | create => exact fun ν hν => absurd hν List.not_mem_nil
  | @step past ν μ' earlier next ih =>
    have hbefore : ∀ t, ν.vm.schedule.get? id = some t → t.state = .created := by
      intro t hget
      rcases next.task earlier.reached id with hsame | ⟨_, -, -, hnone, -⟩ | ⟨_, t', _, _, _, -, hbecomes, hget'⟩
      · exact hcreated t (hsame.trans hget)
      · cases hnone.symm.trans hget
      · exact absurd (hcreated t' hget') hbecomes.ne_created
    refine List.forall_mem_cons.mpr ⟨?_, ih hbefore⟩
    rintro turn hturn rfl
    obtain ⟨t, hget, hstate⟩ := earlier.reached.running hturn
    cases (hbefore t hget).symm.trans hstate

/-! ### Entries -/

/-- The body of a task is entered from its start. -/
def Enters (id : TaskId) (μ μ' : Moment σ) : Prop :=
  μ.turn = none ∧ (∃ schedule, μ.vm.schedule.popReady = some ((id, .start), schedule)) ∧ μ'.turn.isSome = true

/-- The body of a task was entered, and is not going to be entered again. -/
structure Entered (id : TaskId) (μ : Moment σ) : Prop where
  started : ∃ t, μ.vm.schedule.get? id = some t ∧ t.state ≠ .created
  unqueued : (id, .start) ∉ μ.vm.schedule.ready

theorem popReady_eq_some {s s' : Schedule} {entry : TaskId × Resume} (h : s.popReady = some (entry, s')) :
    s.ready = entry :: s'.ready ∧ s'.tasks = s.tasks := by
  unfold Schedule.popReady at h
  split at h
  · cases h
  · rename_i hready
    cases h
    exact ⟨hready, rfl⟩

/-- What a value that is awaited comes to is no start. -/
theorem start_ne_answer {heap : Heap} {v : Value} {mode : Resume} (h : Schedule.answer? heap v = some mode) :
    mode ≠ .start := by
  obtain ⟨a, rfl, -⟩ := Schedule.accept_of_answer? h
  cases a <;> nofun

/-- No step queues a task to be started that was started before. -/
theorem Entered.step (h : Entered id μ) (hμ : Reached Ω μ) (hstep : Step Ω μ μ') : Entered id μ' := by
  obtain ⟨⟨t, hget, hstate⟩, hready⟩ := h
  have hstarted : ∃ t, μ'.vm.schedule.get? id = some t ∧ t.state ≠ .created := by
    rcases hstep.task hμ id with hsame | ⟨_, -, -, hnone, -⟩ | ⟨_, t', _, _, _, -, hbecomes, hget'⟩
    · exact ⟨t, hsame.trans hget, hstate⟩
    · cases hget.symm.trans hnone
    · exact ⟨t', hget', hbecomes.ne_created⟩
  refine ⟨hstarted, ?_⟩
  cases hstep with
  | @spawn vm vm' log m name args id' _ _ done =>
    obtain ⟨c, -, -, -, rfl, -, -, -, hqueue, -⟩ := spawn_eq_ok done
    show (id, Resume.start) ∉ vm'.schedule.ready
    rw [hqueue, List.mem_append, not_or]
    refine ⟨hready, fun hmem => ?_⟩
    split at hmem
    · cases hmem
    · cases List.mem_singleton.mp hmem
      cases hget.symm.trans hμ.sane.get?_next
  | surroundings => exact hready
  | @prepare vm vm' log id' t' mode _ found generator done =>
    show (id, Resume.start) ∉ vm'.schedule.ready
    rcases prepareGenerator_cases (Schedule.id_of_get? found) done with
      ⟨state, -, rfl⟩ | ⟨mode', g, hrevives, -, -, rfl⟩ | ⟨rfl, -⟩
    · exact hready
    · refine fun hmem => ?_
      rcases List.mem_append.mp hmem with hmem | hmem
      · exact hready hmem
      · obtain ⟨rfl, rfl⟩ := Prod.mk.inj (List.mem_singleton.mp hmem)
        obtain rfl : t = t' := Option.some.inj (hget.symm.trans found)
        generalize hmode : Resume.start = mode' at hrevives
        cases hrevives with
        | start hcreated => exact hstate hcreated
        | again a => cases a <;> cases hmode
    · exact hready
  | @promote vm log =>
    show (id, Resume.start) ∉ (vm.schedule.promote vm.world.heap).2.ready
    rw [Schedule.promote_eq, List.mem_append, not_or]
    refine ⟨hready, fun hmem => ?_⟩
    obtain ⟨⟨_, p⟩, -, hmode⟩ := List.mem_filterMap.mp hmem
    obtain ⟨mode, hanswer, heq⟩ := Option.map_eq_some_iff.mp hmode
    obtain ⟨-, rfl⟩ := Prod.mk.inj heq
    exact start_ne_answer (v := .promise p) hanswer rfl
  | @begin vm log id' mode schedule t' f first =>
    have hready : (id, Resume.start) ∉ vm.schedule.ready := hready
    rw [(popReady_eq_some first).1] at hready
    exact fun hmem => hready (List.mem_cons_of_mem _ hmem)
  | instruct => exact hready
  | exhaust => exact hready
  | @record vm log id' code o a =>
    obtain ⟨-, -, -, -, hqueue⟩ := record_spec (vm.leave id' a) id' o
    show (id, Resume.start) ∉ (stateOf (Vm.record id' o (vm.leave id' a))).schedule.ready
    rcases hqueue with ⟨-, hr, -⟩ | ⟨v, mode, -, hanswer, hr, -⟩ | ⟨p, -, hr, -⟩
    · rw [hr]
      exact hready
    · rw [hr, List.mem_append, not_or]
      refine ⟨hready, fun hmem => ?_⟩
      obtain ⟨-, rfl⟩ := Prod.mk.inj (List.mem_singleton.mp hmem)
      exact start_ne_answer hanswer rfl
    · rw [hr]
      exact hready

theorem Entered.leads (h : Entered id μ) (hμ : Reached Ω μ) (hleads : Leads Ω μ μ') : Entered id μ' := by
  induction hleads with
  | refl => exact h
  | tail hearlier hstep ih => exact ih.step (hμ.leads hearlier) hstep

/-- Who is entered was queued once, and is running now. -/
theorem Enters.entered (h : Enters id μ μ') (hμ : Reached Ω μ) (hstep : Step Ω μ μ') : Entered id μ' := by
  obtain ⟨hturn, ⟨schedule, hpop⟩, hsome⟩ := h
  cases hstep with
  | @begin vm log id' mode schedule' t f first found =>
    obtain ⟨⟨rfl, rfl⟩, rfl⟩ : (id = id' ∧ Resume.start = mode) ∧ schedule = schedule' := by
      simpa [idle, first] using hpop.symm
    refine ⟨⟨{ t with state := .running }, ?_, fun hcreated => by cases hcreated⟩, fun hmem => ?_⟩
    · refine (Schedule.get?_update schedule id (f := fun t => { t with state := .running })
        (fun _ => rfl) id).trans ?_
      rw [if_pos rfl, found]
      rfl
    · have hqueue : vm.schedule.queued.Nodup := hμ.sane.queue
      rw [Schedule.queued, (popReady_eq_some first).1, List.map_cons, List.cons_append] at hqueue
      have hmem : (id, Resume.start) ∈ schedule.ready := hmem
      exact (List.nodup_cons.mp hqueue).1 (List.mem_append_left _ (List.mem_map_of_mem hmem))
  | instruct | exhaust | record => cases hturn
  | _ => cases hsome

/-! ### Resumptions -/

/-- What the turn of a task fails with is a fault. -/
theorem execute_fails {fuel : Nat} {mode : Resume} {e : VmError} (hget : (vm.schedule.get? id).isSome)
    (h : Vm.execute Ω.host fuel id mode vm = .error (.error e) vm') : ∃ f, e = .fault f := by
  obtain ⟨t, hget⟩ := Option.isSome_iff_exists.mp hget
  rw [execute_eq hget] at h
  simp only at h
  split at h
  · cases h
  · rename_i halt _
    cases ho : halt.outcome <;> rw [ho] at h <;> cases h
    exact ⟨_, rfl⟩

/-- What running until idle fails with is a fault. -/
theorem runUntilIdle_fails : ∀ {fuel : Nat} {vm vm' : Vm σ} {log : List (TaskId × Event)} {e : VmError},
    Reached Ω (.idle vm log) → Vm.runUntilIdle Ω.host fuel vm = .error (.error e) vm' → ∃ f, e = .fault f
  | 0, _, _, _, _, _, h => by cases h
  | fuel + 1, vm, vm', log, e, hreached, h => by
    cases hpop : vm.schedule.popReady with
    | none =>
      rw [runUntilIdle_promote hpop] at h
      simp only at h
      split at h
      · cases h
      · exact runUntilIdle_fails (hreached.leads (.single .promote)) h
    | some next =>
      obtain ⟨⟨id, mode⟩, schedule⟩ := next
      rw [runUntilIdle_turn hpop] at h
      have hgets : Gets Ω _ (Vm.execute Ω.host fuel id mode { vm with schedule }) :=
        (execute_gets hreached hpop).of_handsOff
      unfold EStateM.bind at h
      cases hturn : Vm.execute Ω.host fuel id mode { vm with schedule } with
      | ok u vm₁ =>
        rw [hturn] at h hgets
        obtain ⟨log₁, hleads⟩ := hgets
        exact runUntilIdle_fails (hreached.leads hleads) h
      | error stop vm₁ =>
        rw [hturn] at h
        cases h
        obtain ⟨hready, htasks⟩ := popReady_eq_some hpop
        have hentry : (id, mode) ∈ vm.schedule.ready := by
          rw [hready]
          exact List.mem_cons_self
        obtain ⟨t, c, hget, -⟩ := hreached.sane.due _ hentry
        have hget : schedule.get? id = some t := (get?_congr htasks id).trans hget
        exact execute_fails (Option.isSome_iff_exists.mpr ⟨t, hget⟩) hturn

theorem prepareGenerator_refused {mode : Resume} {stop : Stop}
    (h : Vm.prepareGenerator t mode vm = .error stop vm') : vm' = vm := by
  unfold Vm.prepareGenerator at h
  cases hstate : t.state <;> cases mode <;> rw [hstate] at h <;> cases h <;> rfl

/-- A generator that is prepared runs with the others until they are idle. -/
theorem resumeGenerator_eq {host : Host σ} {fuel : Nat} {mode : Resume}
    (hget : vm.schedule.get? id = some t) (hkind : t.kind.isGenerator = true) :
    Vm.resumeGenerator host fuel id mode vm = EStateM.bind (Vm.prepareGenerator t mode)
      (fun _ => EStateM.bind (Vm.runUntilIdle host fuel) fun _ => Vm.status id) vm := by
  show EStateM.bind (Vm.task id) _ vm = _
  simp only [EStateM.bind, task_eq_ok hget, hkind]
  rfl

/-- Where a generator that was prepared runs with the others, nothing fails but a turn. -/
theorem resumed_fails {fuel : Nat} {e : VmError} (h : Reached Ω (.idle vm log))
    (hget : (vm.schedule.get? id).isSome)
    (hrun : EStateM.bind (Vm.runUntilIdle Ω.host fuel) (fun _ => Vm.status id) vm = .error (.error e) vm') :
    ∃ f, e = .fault f := by
  have hgets : Gets Ω _ (Vm.runUntilIdle Ω.host fuel vm) := runUntilIdle_gets h
  unfold EStateM.bind at hrun
  cases hidle : Vm.runUntilIdle Ω.host fuel vm with
  | error stop vm₁ =>
    rw [hidle] at hrun
    cases hrun
    exact runUntilIdle_fails h hidle
  | ok u vm₁ =>
    rw [hidle] at hrun hgets
    obtain ⟨log₁, hleads⟩ := hgets
    obtain ⟨t, hget⟩ := Option.isSome_iff_exists.mp (h.kept hleads hget)
    have hget : vm₁.schedule.get? id = some t := hget
    cases (status_eq_ok hget).symm.trans hrun

/-- A resumption that is refused has no effect. -/
theorem resumeGenerator_refused {fuel : Nat} {mode : Resume} {e : VmError} (h : Reached Ω (.idle vm log))
    (hmode : ∀ v, mode.value? = some v → Ω.supplies v)
    (hresume : Vm.resumeGenerator Ω.host fuel id mode vm = .error (.error e) vm')
    (he : ∀ f, e ≠ .fault f) : vm' = vm := by
  cases hget : vm.schedule.get? id with
  | none =>
    have hresume : EStateM.bind (Vm.task id) _ vm = .error (.error e) vm' := hresume
    rw [EStateM.bind, task_eq_error hget] at hresume
    cases hresume
    rfl
  | some t =>
    cases hkind : t.kind.isGenerator with
    | false =>
      have hresume : EStateM.bind (Vm.task id) _ vm = .error (.error e) vm' := hresume
      simp only [EStateM.bind, task_eq_ok hget, hkind] at hresume
      cases hresume
      rfl
    | true =>
      rw [resumeGenerator_eq hget hkind] at hresume
      unfold EStateM.bind at hresume
      cases hprepare : Vm.prepareGenerator t mode vm with
      | error stop vm₁ =>
        rw [hprepare] at hresume
        cases hresume
        exact prepareGenerator_refused hprepare
      | ok u vm₁ =>
        rw [hprepare] at hresume
        have hleads : Leads Ω (.idle vm log) (.idle vm₁ (log ++ id.events (t.refusal mode))) :=
          .single (.prepare hmode hget hkind hprepare)
        have hsome := h.kept hleads (Option.isSome_iff_exists.mpr ⟨t, hget⟩)
        obtain ⟨f, rfl⟩ := resumed_fails (h.leads hleads) hsome hresume
        exact absurd rfl (he f)

/-- A generator that is finished before it was started. -/
theorem prepareGenerator_created {mode : Resume} {v : Value} {state : TaskState}
    (hget : vm.schedule.get? id = some t) (hcreated : t.state = .created)
    (hmode : mode = .ret v ∧ state = .completed v ∨ mode = .throw v ∧ state = .threw v) :
    Vm.prepareGenerator t mode vm =
      .ok () { vm with schedule := vm.schedule.update id fun t => { t with state, status := state.status } } := by
  obtain rfl := Schedule.id_of_get? hget
  have hfinish := vm.schedule.update_update t.id (f := fun t => { t with state }) (fun _ => rfl)
    fun t => { t with status := state.status }
  rw [← hfinish]
  unfold Vm.prepareGenerator
  rcases hmode with ⟨rfl, rfl⟩ | ⟨rfl, rfl⟩ <;> rw [hcreated] <;> rfl

/-- **How generators are resumed.** A resumption that is refused leaves the machine as it is.
A generator that is closed, or into which an exception is thrown, before it was started has
returned, or thrown, from then on; neither before nor after does it ever have a turn. One
that is finished stays as it is, and has no turn any more. And the body of a task is entered
only once. -/
theorem Reached.resumption (h : Reached Ω (.idle vm log)) (id : TaskId) (mode : Resume)
    (hmode : ∀ v, mode.value? = some v → Ω.supplies v) :
    (∀ fuel e vm', Vm.resumeGenerator Ω.host fuel id mode vm = .error (.error e) vm' →
      (∀ f, e ≠ .fault f) → vm' = vm) ∧
    (∀ t v state, vm.schedule.get? id = some t → t.kind.isGenerator = true → t.state = .created →
      (mode = .ret v ∧ state = .completed v ∨ mode = .throw v ∧ state = .threw v) →
      (∀ past, Course Ω past (.idle vm log) → ∀ ν ∈ past, ∀ turn, ν.turn = some turn → turn.id ≠ id) ∧
      (∀ fuel s vm', Vm.resumeGenerator Ω.host fuel id mode vm = .ok s vm' → s = state.status) ∧
      ∃ vm₁, (∀ fuel, Vm.resumeGenerator Ω.host fuel id mode vm =
          EStateM.bind (Vm.runUntilIdle Ω.host fuel) (fun _ => Vm.status id) vm₁) ∧
        ∃ log₁, Leads Ω (.idle vm log) (.idle vm₁ log₁) ∧ ∀ μ', Leads Ω (.idle vm₁ log₁) μ' →
          μ'.vm.schedule.get? id = some { t with state, status := state.status } ∧
            ∀ turn, μ'.turn = some turn → turn.id ≠ id) ∧
    (∀ t μ', vm.schedule.get? id = some t → t.state.isFinished = true → Leads Ω (.idle vm log) μ' →
      μ'.vm.schedule.get? id = some t ∧ ∀ turn, μ'.turn = some turn → turn.id ≠ id) ∧
    ∀ μ₁ μ₁' μ₂ μ₂', Reached Ω μ₁ → Step Ω μ₁ μ₁' → Enters id μ₁ μ₁' → Leads Ω μ₁' μ₂ →
      Step Ω μ₂ μ₂' → ¬ Enters id μ₂ μ₂' := by
  refine ⟨fun fuel e vm' hresume he => resumeGenerator_refused h hmode hresume he, ?_,
    fun t μ' hget hfinished hleads => h.finished hleads hget hfinished, ?_⟩
  · intro t v state hget hkind hcreated hstate
    let vm₁ : Vm σ := { vm with
      schedule := vm.schedule.update id fun t => { t with state, status := state.status } }
    have hprepare : Vm.prepareGenerator t mode vm = .ok () vm₁ :=
      prepareGenerator_created hget hcreated hstate
    have hresume (fuel : Nat) : Vm.resumeGenerator Ω.host fuel id mode vm =
        EStateM.bind (Vm.runUntilIdle Ω.host fuel) (fun _ => Vm.status id) vm₁ := by
      rw [resumeGenerator_eq hget hkind, EStateM.bind, hprepare]
    have hleads : Leads Ω (.idle vm log) _ := .single (.prepare hmode hget hkind hprepare)
    have hget₁ : vm₁.schedule.get? id = some { t with state, status := state.status } := by
      refine (Schedule.get?_update vm.schedule id (f := fun t => { t with state, status := state.status })
        (fun _ => rfl) id).trans ?_
      rw [if_pos rfl, hget]
      rfl
    have hfinished : state.isFinished = true := by
      rcases hstate with ⟨-, rfl⟩ | ⟨-, rfl⟩ <;> rfl
    refine ⟨fun past hpast => hpast.unstarted fun t' hget' => ?_, fun fuel s vm' hs => ?_, vm₁, hresume, _,
      hleads, fun μ' hleads' => (h.leads hleads).finished hleads' hget₁ hfinished⟩
    · rwa [← Option.some.inj (hget.symm.trans hget')]
    · rw [hresume] at hs
      obtain ⟨_, vm₂, hrun, hstatus⟩ := bind_eq_ok.mp hs
      have hgets : Gets Ω _ (Vm.runUntilIdle Ω.host fuel vm₁) := runUntilIdle_gets (h.leads hleads)
      rw [hrun] at hgets
      obtain ⟨log₂, hleads₂⟩ := hgets
      have hget₂ : vm₂.schedule.get? id = _ := ((h.leads hleads).finished hleads₂ hget₁ hfinished).1
      rw [status_eq_ok hget₂] at hstatus
      cases hstatus
      rfl
  · rintro μ₁ μ₁' μ₂ μ₂' hμ₁ hstep henters hleads hstep' ⟨-, ⟨schedule, hpop⟩, -⟩
    have hentered := (henters.entered hμ₁ hstep).leads (hμ₁.leads (.single hstep)) hleads
    refine hentered.unqueued ?_
    rw [(popReady_eq_some hpop).1]
    exact List.mem_cons_self

/-- A generator that hands out one value. -/
def yielder : Declaration := ⟨"g", .generator, [], [.expr (.yield .undefined)]⟩

/-- A generator that is closed before it was started has returned, without ever having a turn. -/
theorem Reached.resumption_yielder : ∃ (Ω : Surroundings Console) (vm vm₁ : Vm Console)
    (log log₁ : List (TaskId × Event)) (t : Task), Ω.host = Console.call ∧ Reached Ω (.idle vm log) ∧
    vm.schedule.get? ⟨0⟩ = some t ∧ t.state = .created ∧ Leads Ω (.idle vm log) (.idle vm₁ log₁) ∧
    ∀ μ', Leads Ω (.idle vm₁ log₁) μ' →
      μ'.vm.schedule.get? ⟨0⟩ = some { t with state := .completed .null, status := .returned .null } ∧
        ∀ turn, μ'.turn = some turn → turn.id ≠ ⟨0⟩ := by
  let Ω : Surroundings Console := .any Console.call
  have htrial : (trial Ω.host .standard ⟨Heap.empty, Console.empty⟩ [] [yielder] "g" [] []).any (fun μ =>
      μ.turn.isNone && (μ.vm.schedule.get? ⟨0⟩).any fun t => t.kind.isGenerator &&
        !(t.refusal (.ret .null)).isEmpty) = true := by
    decide +kernel
  obtain ⟨⟨vm, turn, log⟩, htrial, hμ⟩ := (Option.any_eq_true _ _).mp htrial
  obtain ⟨hturn, htask⟩ := Bool.and_eq_true_iff.mp hμ
  obtain rfl : turn = none := Option.isNone_iff_eq_none.mp hturn
  obtain ⟨t, hget, ht⟩ := (Option.any_eq_true _ _).mp htask
  obtain ⟨hkind, hstate⟩ := Bool.and_eq_true_iff.mp ht
  have hcreated : t.state = .created := by
    cases hs : t.state <;> simp [Task.refusal, hs] at hstate
    rfl
  have hreached : Reached Ω (.idle vm log) := .of_trial trivial trivial (fun _ _ => trivial)
    (fun _ _ => trivial) (by simp) htrial
  obtain ⟨-, hclosed, -⟩ := Reached.resumption hreached ⟨0⟩ (.ret .null) fun _ _ => trivial
  obtain ⟨-, -, vm₁, -, log₁, hleads, hstays⟩ := hclosed t .null _ hget hkind hcreated (.inl ⟨rfl, rfl⟩)
  exact ⟨Ω, vm, vm₁, log, log₁, t, rfl, hreached, hget, hcreated, hleads, hstays⟩

end Moment
end ResourceMachine
