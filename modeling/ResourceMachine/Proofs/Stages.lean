/-
# Following one task

Where a task stands in the session of its call is seen in the machine, also while others
have their turns. So a task can be followed from moment to moment: it stays where it is,
or its session goes on, by an instruction or by a reply (`Stage.Next`). Meanwhile the world
changes, but no iterator is wound back.

Key definitions: `Session.Due`, `Stage`, `Stage.Next`, `Moment.Bears`.
Key theorems: `Moment.Bears.step`, `Moment.Bears.of_spawn`.
-/
import ResourceMachine.Proofs.Onward
import ResourceMachine.Proofs.Operations

namespace ResourceMachine

variable {σ : Type}

/-! ### Stages -/

/-- A session has stopped and can be resumed so. -/
def Session.Due (s : Session σ) (mode : Resume) : Prop :=
  ∃ p a, s.control = .ended (Suspension.outcome p) ∧ mode = Answer.mode a ∧ p.accept a = a

/-- How far a task has got: it was created, it stands somewhere in its session, or it never
runs again without its session having come to an end. -/
inductive Stage (σ : Type) where
  | created
  | live (s : Session σ)
  | gone

/-- How a task goes on. -/
inductive Stage.Next (host : Host σ) (capacity : Nat) (c : Call) : Stage σ → Stage σ → Prop
  | start {world : World σ} {globals : Globals} :
      Next host capacity c .created (.live (.start (c.first capacity) world globals []))
  | step {s s' : Session σ} (done : s.step host c.function.code = some s') :
      Next host capacity c (.live s) (.live s')
  | resume {s : Session σ} {p : Suspension} {r : Reply σ} (stopped : s.control = .ended p.outcome)
      (onward : s.world.Onward r.world) : Next host capacity c (.live s) (.live (s.reply p r []))
  | closed : Next host capacity c .created .gone
  | exhausted {s : Session σ} : Next host capacity c (.live s) .gone

/-! ### Moments -/

namespace Moment

/-- The world as it is, also in the middle of a turn. -/
def world (μ : Moment σ) : World σ :=
  match μ.turn with
  | some turn => turn.progress.activation.world
  | none => μ.vm.world

/-- A task does not have its turn. -/
def Away (id : TaskId) (μ : Moment σ) : Prop := ∀ turn, μ.turn = some turn → turn.id ≠ id

theorem away_idle {vm : Vm σ} {log : List (TaskId × Event)} {id : TaskId} : Away id (idle vm log) :=
  fun _ => idle_turn

theorem away_of_ne {vm : Vm σ} {turn : Turn σ} {log : List (TaskId × Event)} {id : TaskId}
    (h : id ≠ turn.id) : Away id ⟨vm, some turn, log⟩ := by
  rintro _ ⟨⟩ rfl
  exact h rfl

section

variable (capacity : Nat) (c : Call) (id : TaskId)

/-- A task stands at a stage. -/
inductive Bears : Stage σ → Moment σ → Prop
  | created {μ : Moment σ} {t : Task} (away : Away id μ) (found : μ.vm.schedule.get? id = some t)
      (frame : t.frame = c.first capacity) (state : t.state = .created ∨ t.state = .running)
      (ready : ∀ mode, (id, mode) ∈ μ.vm.schedule.ready → mode = .start)
      (waiting : ∀ promise, (id, promise) ∉ μ.vm.schedule.waiting) : Bears .created μ
  | rests {μ : Moment σ} {s : Session σ} {o : Outcome} {t : Task} (away : Away id μ)
      (found : μ.vm.schedule.get? id = some t) (frame : t.frame = s.frame) (state : After o t.state)
      (control : s.control = .ended o) (setup : s.frame.setup = (c.unit, c.index, capacity))
      (onward : s.world.Onward μ.world) (ready : ∀ mode, (id, mode) ∈ μ.vm.schedule.ready → s.Due mode)
      (waiting : ∀ promise, (id, promise) ∈ μ.vm.schedule.waiting → o = .awaits (.promise promise)) :
      Bears (.live s) μ
  | works {vm : Vm σ} {log : List (TaskId × Event)} {s : Session σ} {p : Progress σ}
      (globals : s.globals = vm.globals) (script : s.script = []) (frame : s.frame = p.activation.frame)
      (world : s.world = p.activation.world) (setup : s.frame.setup = (c.unit, c.index, capacity))
      (control : s.control = match p with
        | .running pc _ => .running pc
        | .halted o _ => .ended o) :
      Bears (.live s) ⟨vm, some ⟨id, c.function.code, p⟩, log⟩
  | failed {vm : Vm σ} {log : List (TaskId × Event)} {code : Bytes} {f : Fault} {a : Activation σ} :
      Bears .gone ⟨vm, some ⟨id, code, .halted (.failed f) a⟩, log⟩
  | gone {μ : Moment σ} {t : Task} (away : Away id μ) (found : μ.vm.schedule.get? id = some t)
      (state : t.state.isFinished = true) : Bears .gone μ

end

/-- Nothing happens to a task, whoever has the turn. -/
structure Untouched (id : TaskId) (μ μ' : Moment σ) : Prop where
  away : Away id μ'
  task : μ'.vm.schedule.get? id = μ.vm.schedule.get? id
  ready : ∀ mode, (id, mode) ∈ μ'.vm.schedule.ready → (id, mode) ∈ μ.vm.schedule.ready
  waiting : ∀ promise, (id, promise) ∈ μ'.vm.schedule.waiting → (id, promise) ∈ μ.vm.schedule.waiting

variable {Ω : Surroundings σ} {P : Resume → World σ → Globals → Prop} {capacity : Nat} {c : Call}
  {id id' : TaskId} {x : Stage σ} {μ μ' : Moment σ} {vm vm' : Vm σ} {log log' : List (TaskId × Event)}

/-- A task is known wherever it is followed. -/
theorem Bears.known (h : Bears capacity c id x μ) (hsane : Sane Ω P μ) :
    ∃ t, μ.vm.schedule.get? id = some t := by
  cases h with
  | created _ found | rests _ found | gone _ found => exact ⟨_, found⟩
  | works | failed =>
    obtain ⟨-, t, -, hget, -⟩ := hsane.turn _ rfl
    exact ⟨t, hget⟩

theorem Bears.untouched (h : Bears capacity c id x μ) (haway : Away id μ) (hu : Untouched id μ μ')
    (hworld : μ.world.Onward μ'.world) : Bears capacity c id x μ' := by
  cases h with
  | created _ found frame state ready waiting =>
    exact .created hu.away (hu.task.trans found) frame state (fun m hm => ready m (hu.ready m hm))
      fun q hq => waiting q (hu.waiting q hq)
  | rests _ found frame state control setup onward ready waiting =>
    exact .rests hu.away (hu.task.trans found) frame state control setup (onward.trans hworld)
      (fun m hm => ready m (hu.ready m hm)) fun q hq => waiting q (hu.waiting q hq)
  | works | failed => exact absurd rfl (haway _ rfl)
  | gone _ found state => exact .gone hu.away (hu.task.trans found) state

/-! ### Between turns -/

/-- A task that is over is not queued. -/
theorem Sane.not_ready_of_finished {t : Task} {mode : Resume} (h : Sane Ω P μ)
    (hget : μ.vm.schedule.get? id = some t) (hstate : t.state.isFinished = true) :
    (id, mode) ∉ μ.vm.schedule.ready := by
  intro hmem
  obtain ⟨t', c, hget', -, htakes⟩ := h.due _ hmem
  obtain rfl : t = t' := Option.some.inj (hget.symm.trans hget')
  rcases htakes.state with h | h | ⟨h, -⟩ <;> rw [h] at hstate <;> cases hstate

/-- Other tasks are created. -/
theorem Untouched.of_spawn {m : Module} {name : String} {args : List Value} (hknown : ∃ t, vm.schedule.get? id = some t)
    (hsane : Sane Ω P (idle vm log)) (hdone : Vm.spawn m name args vm = .ok id' vm') :
    Untouched id (idle vm log) (idle vm' log) := by
  obtain ⟨c, -, -, -, rfl, -, -, ⟨t, -, -, -, hget⟩, hready, hwaiting⟩ := spawn_eq_ok hdone
  have hne : id ≠ ⟨vm.nextTask⟩ := by
    rintro rfl
    obtain ⟨t', ht'⟩ := hknown
    cases ht'.symm.trans hsane.get?_next
  refine ⟨away_idle, (hget id).trans (if_neg hne), fun mode hmode => ?_, fun promise hpromise => ?_⟩
  · have hmode : (id, mode) ∈ vm'.schedule.ready := hmode
    rw [hready] at hmode
    rcases List.mem_append.mp hmode with hmode | hmode
    · exact hmode
    · split at hmode
      · cases hmode
      · exact absurd (congrArg Prod.fst (List.mem_singleton.mp hmode)) hne
  · have hpromise : (id, promise) ∈ vm'.schedule.waiting := hpromise
    rwa [hwaiting] at hpromise

/-- Another task changes, and may be queued or parked. -/
theorem Untouched.of_other (hne : id ≠ id') (haway : Away id μ')
    (hget : μ'.vm.schedule.get? id = μ.vm.schedule.get? id)
    (hready : ∀ entry ∈ μ'.vm.schedule.ready, entry.1 = id' ∨ entry ∈ μ.vm.schedule.ready)
    (hwaiting : ∀ entry ∈ μ'.vm.schedule.waiting, entry.1 = id' ∨ entry ∈ μ.vm.schedule.waiting) :
    Untouched id μ μ' where
  away := haway
  task := hget
  ready _ hmode := (hready _ hmode).resolve_left hne
  waiting _ hpromise := (hwaiting _ hpromise).resolve_left hne

theorem Untouched.of_eq (haway : Away id μ') (heq : μ'.vm.schedule = μ.vm.schedule) :
    Untouched id μ μ' := by
  refine ⟨haway, by rw [heq], fun mode hmode => ?_, fun promise hpromise => ?_⟩
  · rwa [heq] at hmode
  · rwa [heq] at hpromise

/-- A generator is prepared to be resumed. -/
theorem Bears.prepare {t : Task} {mode : Resume} (h : Bears capacity c id x (idle vm log))
    (hget : vm.schedule.get? id' = some t) (hdone : Vm.prepareGenerator t mode vm = .ok () vm') :
    Bears capacity c id x (idle vm' log') ∨
      x = .created ∧ Bears capacity c id .gone (idle vm' log') := by
  have hcases := prepareGenerator_cases (Schedule.id_of_get? hget) hdone
  by_cases hne : id = id'
  · subst hne
    have hupdate (f : Task → Task) (hf : ∀ t, (f t).id = t.id) : (vm.schedule.update id f).get? id = some (f t) := by
      rw [Schedule.get?_update _ _ hf, if_pos rfl, hget]
      rfl
    cases h with
    | @created _ t' _ found frame state ready waiting =>
      obtain rfl : t = t' := Option.some.inj (hget.symm.trans found)
      rcases hcases with ⟨st, hst, rfl⟩ | ⟨mode', g, hrevives, -, -, rfl⟩ | ⟨rfl, -⟩
      · have hgone := hupdate (fun t => { t with state := st, status := st.status }) fun _ => rfl
        refine .inr ⟨rfl, .gone away_idle hgone ?_⟩
        rcases hst with ⟨-, v, -, rfl⟩ | ⟨-, e, -, rfl⟩ <;> rfl
      · refine .inl (.created away_idle (hupdate g hrevives.id) ((hrevives.frame t).trans frame)
          (.inr (hrevives.running t)) (fun m hm => ?_) waiting)
        rcases List.mem_append.mp hm with hm | hm
        · exact ready m hm
        · cases List.mem_singleton.mp hm
          cases hrevives with
          | start => rfl
          | again a hyielded =>
            rw [hyielded] at state
            rcases state with habsurd | habsurd <;> cases habsurd
      · exact .inl (.created away_idle found frame state ready waiting)
    | @rests _ s o t' _ found frame state control setup onward ready waiting =>
      obtain rfl : t = t' := Option.some.inj (hget.symm.trans found)
      rcases hcases with ⟨st, hst, rfl⟩ | ⟨mode', g, hrevives, -, -, rfl⟩ | ⟨rfl, -⟩
      · have hcreated : t.state = .created := by
          rcases hst with ⟨hst, -⟩ | ⟨hst, -⟩ <;> exact hst
        rw [hcreated] at state
        cases state
      · cases hrevives with
        | start hcreated =>
          rw [hcreated] at state
          cases state
        | @again v a hyielded =>
          rw [hyielded] at state
          cases state
          refine .inl (.rests away_idle (hupdate _ fun _ => rfl) frame .resumed control setup onward
            (fun m hm => ?_) waiting)
          rcases List.mem_append.mp hm with hm | hm
          · exact ready m hm
          · cases List.mem_singleton.mp hm
            exact ⟨.yield v, a, control, rfl, rfl⟩
      · exact .inl (.rests away_idle found frame state control setup onward ready waiting)
    | @gone _ t' _ found state =>
      obtain rfl : t = t' := Option.some.inj (hget.symm.trans found)
      rcases hcases with ⟨st, hst, rfl⟩ | ⟨mode', g, hrevives, -, -, rfl⟩ | ⟨rfl, -⟩
      · have hcreated : t.state = .created := by
          rcases hst with ⟨hst, -⟩ | ⟨hst, -⟩ <;> exact hst
        rw [hcreated] at state
        cases state
      · cases hrevives with
        | start hcreated =>
          rw [hcreated] at state
          cases state
        | again a hyielded =>
          rw [hyielded] at state
          cases state
      · exact .inl (.gone away_idle found state)
  · refine .inl (h.untouched away_idle ?_ ?_)
    · have hother (f : Task → Task) (hf : ∀ t, (f t).id = t.id) :
          (vm.schedule.update id' f).get? id = vm.schedule.get? id := by
        rw [Schedule.get?_update _ _ hf, if_neg hne]
      rcases hcases with ⟨st, -, rfl⟩ | ⟨mode', g, hrevives, -, -, rfl⟩ | ⟨rfl, -⟩
      · exact .of_other hne away_idle (hother _ fun _ => rfl) (fun _ => .inr) fun _ => .inr
      · refine .of_other hne away_idle (hother g hrevives.id) (fun entry hentry => ?_) fun _ => .inr
        rcases List.mem_append.mp hentry with hentry | hentry
        · exact .inr hentry
        · exact .inl (congrArg Prod.fst (List.mem_singleton.mp hentry))
      · exact .of_other hne away_idle rfl (fun _ => .inr) fun _ => .inr
    · rcases hcases with ⟨_, -, rfl⟩ | ⟨_, _, -, -, -, rfl⟩ | ⟨rfl, -⟩ <;> exact .refl _

/-- Who is queued after promises have settled was queued before, or was parked with one of
them. -/
theorem mem_ready_promote {mode : Resume} (h : (id, mode) ∈ (vm.schedule.promote vm.world.heap).2.ready) :
    (id, mode) ∈ vm.schedule.ready ∨ ∃ promise, (id, promise) ∈ vm.schedule.waiting ∧
      Schedule.answer? vm.world.heap (.promise promise) = some mode := by
  rw [Schedule.promote_eq] at h
  refine (List.mem_append.mp h).imp_right fun h => ?_
  obtain ⟨⟨id', promise⟩, hparked, hanswer⟩ := List.mem_filterMap.mp h
  obtain ⟨mode', hanswer, heq⟩ := Option.map_eq_some_iff.mp hanswer
  cases heq
  exact ⟨promise, hparked, hanswer⟩

theorem mem_waiting_promote {promise : Nat}
    (h : (id, promise) ∈ (vm.schedule.promote vm.world.heap).2.waiting) :
    (id, promise) ∈ vm.schedule.waiting := by
  rw [Schedule.promote_eq] at h
  exact (List.mem_filter.mp h).1

theorem get?_promote : (vm.schedule.promote vm.world.heap).2.get? id = vm.schedule.get? id := by
  rw [Schedule.promote_eq]
  rfl

/-- Promises that have settled put their tasks into the queue. -/
theorem Bears.promote (h : Bears capacity c id x (idle vm log)) :
    Bears capacity c id x (idle { vm with schedule := (vm.schedule.promote vm.world.heap).2 } log) := by
  cases h with
  | created _ found frame state ready waiting =>
    refine .created away_idle (get?_promote.trans found) frame state (fun mode hmode => ?_)
      fun q hq => waiting q (mem_waiting_promote hq)
    rcases mem_ready_promote hmode with hmode | ⟨promise, hmem, -⟩
    · exact ready mode hmode
    · exact absurd hmem (waiting promise)
  | rests _ found frame state control setup onward ready waiting =>
    refine .rests away_idle (get?_promote.trans found) frame state control setup onward
      (fun mode hmode => ?_) fun q hq => waiting q (mem_waiting_promote hq)
    rcases mem_ready_promote hmode with hmode | ⟨promise, hmem, hanswer⟩
    · exact ready mode hmode
    · obtain ⟨a, rfl, ha⟩ := Schedule.accept_of_answer? hanswer
      exact ⟨.await (.promise promise), a, by rw [control, waiting promise hmem]; rfl, rfl, ha⟩
  | gone _ found state => exact .gone away_idle (get?_promote.trans found) state

/-! ### Turns -/

/-- A session that was routed stands where the run of the frame does. -/
theorem Bears.of_routed {s : Session σ} {a : Activation σ} {r : Route × Frame} (hglobals : s.globals = vm.globals)
    (hscript : s.script = []) (hworld : s.world = a.world)
    (hsetup : r.2.setup = (c.unit, c.index, capacity)) :
    Bears capacity c id (.live (s.route r)) ⟨vm, some ⟨id, c.function.code, a.routed r⟩, log⟩ := by
  obtain ⟨_ | _, _⟩ := r <;> exact .works hglobals hscript rfl hworld hsetup rfl

/-- The turn of a task begins. -/
theorem Bears.begin {mode : Resume} {t : Task} {f : Function} {schedule : Schedule}
    (h : Bears capacity c id x (idle vm log)) (hsane : Sane Ω P (idle vm log))
    (hfirst : (id, mode) ∈ vm.schedule.ready) (hget : vm.schedule.get? id = some t)
    (hfunction : t.frame.function? = some f) :
    ∃ x', Stage.Next Ω.host capacity c x x' ∧
      Bears capacity c id x' ⟨{ vm with schedule }, some ⟨id, f.code,
        Activation.routed ⟨t.frame, vm.world⟩ (t.frame.resume mode)⟩, log'⟩ := by
  have hcode : t.frame.setup = (c.unit, c.index, capacity) → f = c.function := by
    intro hsetup
    have hf : c.unit.functions[c.index]? = some f := by
      rw [← hfunction, Frame.function?, show t.frame.unit = c.unit from congrArg Prod.fst hsetup,
        show t.frame.functionIndex = c.index from congrArg (fun x => x.2.1) hsetup]
    exact Option.some.inj (hf.symm.trans c.found)
  cases h with
  | @created _ t' _ found frame state ready waiting =>
    obtain rfl : t = t' := Option.some.inj (hget.symm.trans found)
    have hsetup : t.frame.setup = (c.unit, c.index, capacity) := by rw [frame, c.setup_first]
    obtain rfl := ready mode hfirst
    rw [hcode hsetup]
    refine ⟨_, @Stage.Next.start _ _ _ _ vm.world vm.globals, ?_⟩
    rw [frame]
    exact .works rfl rfl rfl rfl (c.setup_first capacity) rfl
  | @rests _ s o t' _ found frame state control setup onward ready waiting =>
    obtain rfl : t = t' := Option.some.inj (hget.symm.trans found)
    obtain ⟨p, a, hstopped, rfl, haccepts⟩ := ready mode hfirst
    have hsetup : t.frame.setup = (c.unit, c.index, capacity) := by rw [frame, setup]
    rw [hcode hsetup]
    refine ⟨_, .resume (r := ⟨a, vm.world, vm.globals⟩) hstopped onward, ?_⟩
    rw [Session.reply, haccepts, ← frame]
    exact .of_routed rfl rfl rfl ((Frame.setup_resume _).trans hsetup)
  | gone _ found state => exact absurd hfirst (hsane.not_ready_of_finished found state)

/-- A task that has its turn executes an instruction. -/
theorem Bears.instruct {code : Bytes} {pc : Nat} {a : Activation σ} {vm' : Vm σ}
    (h : Bears capacity c id x ⟨vm, some ⟨id, code, .running pc a⟩, log⟩) (hglobals : vm'.globals = vm.globals) :
    ∃ x', Stage.Next Ω.host capacity c x x' ∧
      Bears capacity c id x' ⟨vm', some ⟨id, code, a.step ⟨Ω.host, vm.globals⟩ code pc⟩, log'⟩ := by
  cases h with
  | @works vm _ s _ globals script frame world setup control =>
    obtain ⟨_, f, w, gs, _, trace⟩ := s
    obtain ⟨f', w'⟩ := a
    cases globals
    cases script
    cases frame
    cases world
    cases control
    refine ⟨_, .step rfl, ?_⟩
    have hstep := (@Activation.setup_step _ ⟨Ω.host, vm.globals⟩ c.function.code pc ⟨f, w⟩).trans setup
    simp only
    generalize Activation.step ⟨Ω.host, vm.globals⟩ c.function.code pc ⟨f, w⟩ = p at hstep
    cases p with
    | running pc' a' => exact .works hglobals.symm rfl rfl rfl hstep rfl
    | halted o a' =>
      simp only [Session.proceed, Session.halt, Session.update]
      cases o.suspension? <;> exact .works hglobals.symm rfl rfl rfl hstep rfl
  | created away | rests away | gone away => exact absurd rfl (away _ rfl)

/-- What becomes of a task whose turn has ended. -/
theorem Sane.recorded {code : Bytes} {o : Outcome} {a : Activation σ}
    (hsane : Sane Ω P ⟨vm, some ⟨id, code, .halted o a⟩, log⟩) :
    let vm' := stateOf (Vm.record id o (vm.leave id a))
    (∃ t, vm'.schedule.get? id = some t ∧ t.frame = a.frame ∧ t.state = o.state) ∧
      vm'.world = a.world ∧
      (∀ mode, (id, mode) ∈ vm'.schedule.ready →
        ∃ v, o = .awaits v ∧ Schedule.answer? a.world.heap v = some mode) ∧
      ∀ promise, (id, promise) ∈ vm'.schedule.waiting → o = .awaits (.promise promise) := by
  obtain ⟨hid, t, -, hget, -⟩ := hsane.turn _ rfl
  obtain ⟨hready, hwaiting⟩ := not_mem_queued.mp hid
  obtain ⟨hgets, -, -, hworld, hqueue⟩ := record_spec (vm.leave id a) id o
  have hleave := Schedule.get?_update vm.schedule id (f := fun t => { t with frame := a.frame })
    fun _ => rfl
  simp only
  generalize stateOf (Vm.record id o (vm.leave id a)) = vm' at hgets hworld hqueue ⊢
  refine ⟨⟨o.settle { t with frame := a.frame }, ?_, o.settle_frame _, o.settle_state _⟩, hworld, fun mode hmode => ?_,
    fun promise hpromise => ?_⟩
  · rw [hgets, if_pos rfl, show (vm.leave id a).schedule.get? id = _ from hleave id, if_pos rfl,
      show vm.schedule.get? id = some t from hget]
    rfl
  · rcases hqueue with ⟨-, hr, -⟩ | ⟨v, mode', rfl, hanswer, hr, -⟩ | ⟨q, -, hr, -⟩
    · rw [hr] at hmode
      exact absurd rfl (hready _ hmode)
    · rw [hr] at hmode
      rcases List.mem_append.mp hmode with hmode | hmode
      · exact absurd rfl (hready _ hmode)
      · cases List.mem_singleton.mp hmode
        exact ⟨v, rfl, hanswer⟩
    · rw [hr] at hmode
      exact absurd rfl (hready _ hmode)
  · rcases hqueue with ⟨-, -, hw⟩ | ⟨_, _, -, -, -, hw⟩ | ⟨q, rfl, -, hw⟩
    · rw [hw] at hpromise
      exact absurd rfl (hwaiting _ hpromise)
    · rw [hw] at hpromise
      exact absurd rfl (hwaiting _ hpromise)
    · rw [hw] at hpromise
      rcases List.mem_append.mp hpromise with hpromise | hpromise
      · exact absurd rfl (hwaiting _ hpromise)
      · cases List.mem_singleton.mp hpromise
        rfl

/-- The turn of a task has ended. -/
theorem Bears.record {code : Bytes} {o : Outcome} {a : Activation σ}
    (h : Bears capacity c id x ⟨vm, some ⟨id, code, .halted o a⟩, log⟩)
    (hsane : Sane Ω P ⟨vm, some ⟨id, code, .halted o a⟩, log⟩) :
    Bears capacity c id x (idle (stateOf (Vm.record id o (vm.leave id a))) log) := by
  obtain ⟨⟨t, hget, hframe, hstate⟩, hworld, hready, hwaiting⟩ := hsane.recorded
  cases h with
  | @works vm _ s _ globals script frame world setup control =>
    refine .rests away_idle hget (hframe.trans frame.symm) (by rw [hstate]; exact .state o) control setup ?_
      (fun mode hmode => ?_) hwaiting
    · show s.world.Onward (stateOf (Vm.record id o (vm.leave id a))).world
      rw [hworld, world]
      exact .refl _
    · obtain ⟨v, rfl, hanswer⟩ := hready mode hmode
      obtain ⟨a', rfl, ha⟩ := Schedule.accept_of_answer? hanswer
      exact ⟨.await v, a', control, rfl, ha⟩
  | failed => exact .gone away_idle hget (by rw [hstate]; rfl)
  | created away | rests away | gone away => exact absurd rfl (away _ rfl)

/-- Another task has its turn, or the end of its turn is recorded. -/
theorem Untouched.begin {mode : Resume} {schedule : Schedule} {turn : Turn σ} (hne : id ≠ id')
    (hfirst : vm.schedule.popReady = some ((id', mode), schedule)) (hturn : turn.id = id') :
    Untouched id (idle vm log) ⟨{ vm with
      schedule := schedule.update id' fun t => { t with state := .running } }, some turn, log'⟩ := by
  obtain ⟨options, globals, ⟨tasks, ready, waiting⟩, stats, nextTask, world⟩ := vm
  cases ready with
  | nil => cases hfirst
  | cons first rest =>
    cases hfirst
    refine .of_other hne (away_of_ne (hturn ▸ hne)) ?_
      (fun entry hentry => .inr (List.mem_cons_of_mem _ hentry)) fun _ => .inr
    exact (Schedule.get?_update ⟨tasks, rest, waiting⟩ id' (by exact fun _ => rfl) id).trans (if_neg hne)

theorem Untouched.record {code : Bytes} {o : Outcome} {a : Activation σ} (hne : id ≠ id') :
    Untouched id ⟨vm, some ⟨id', code, .halted o a⟩, log⟩
      (idle (stateOf (Vm.record id' o (vm.leave id' a))) log) := by
  obtain ⟨hgets, -, -, -, hqueue⟩ := record_spec (vm.leave id' a) id' o
  have hleave := Schedule.get?_update vm.schedule id' (f := fun t => { t with frame := a.frame })
    fun _ => rfl
  generalize stateOf (Vm.record id' o (vm.leave id' a)) = vm' at hgets hqueue ⊢
  refine .of_other hne away_idle ?_ (fun entry hentry => ?_) fun entry hentry => ?_
  · exact (hgets id).trans ((if_neg hne).trans ((hleave id).trans (if_neg hne)))
  · have hentry : entry ∈ vm'.schedule.ready := hentry
    rcases hqueue with ⟨-, hr, -⟩ | ⟨_, _, -, -, hr, -⟩ | ⟨q, -, hr, -⟩
    · rw [hr] at hentry
      exact .inr hentry
    · rw [hr] at hentry
      rcases List.mem_append.mp hentry with hentry | hentry
      · exact .inr hentry
      · exact .inl (congrArg Prod.fst (List.mem_singleton.mp hentry))
    · rw [hr] at hentry
      exact .inr hentry
  · have hentry : entry ∈ vm'.schedule.waiting := hentry
    rcases hqueue with ⟨-, -, hw⟩ | ⟨_, _, -, -, -, hw⟩ | ⟨q, -, -, hw⟩
    · rw [hw] at hentry
      exact .inr hentry
    · rw [hw] at hentry
      exact .inr hentry
    · rw [hw] at hentry
      rcases List.mem_append.mp hentry with hentry | hentry
      · exact .inr hentry
      · exact .inl (congrArg Prod.fst (List.mem_singleton.mp hentry))

/-! ### Steps -/

/-- No instruction winds an iterator back; nor do other steps, but what the host does between
turns. -/
theorem Step.onward (hhost : Ω.host.Onward) (h : Step Ω μ μ')
    (hworld : μ.turn = none → μ.vm.world.Onward μ'.vm.world) : μ.world.Onward μ'.world := by
  cases h with
  | spawn | surroundings | prepare | promote => exact hworld rfl
  | @begin vm _ id mode schedule t =>
    show vm.world.Onward (Activation.routed ⟨t.frame, vm.world⟩ (t.frame.resume mode)).activation.world
    match t.frame.resume mode with
    | (.goto _, _) | (.escaped _, _) => exact .refl _
  | instruct => exact Activation.step_onward hhost
  | exhaust => exact .refl _
  | @record vm _ id _ o a =>
    obtain ⟨-, -, -, hsame, -⟩ := record_spec (vm.leave id a) id o
    show a.world.Onward (stateOf (Vm.record id o (vm.leave id a))).world
    rw [hsame]
    exact .refl _

/-- **A task is followed through every step**: it stays where it is, without a turn, or it
goes on. -/
theorem Bears.step (h : Bears capacity c id x μ) (hsane : Sane Ω P μ) (hstep : Step Ω μ μ')
    (hworld : μ.world.Onward μ'.world) :
    Away id μ' ∧ Bears capacity c id x μ' ∨
      ∃ x', Stage.Next Ω.host capacity c x x' ∧ Bears capacity c id x' μ' := by
  cases hstep with
  | spawn _ _ done =>
    exact .inl ⟨away_idle, h.untouched away_idle (.of_spawn (h.known hsane) hsane done) hworld⟩
  | surroundings =>
    exact .inl ⟨away_idle, h.untouched away_idle (.of_eq away_idle rfl) hworld⟩
  | prepare _ found _ done =>
    rcases h.prepare found done with h | ⟨rfl, h⟩
    · exact .inl ⟨away_idle, h⟩
    · exact .inr ⟨.gone, .closed, h⟩
  | promote => exact .inl ⟨away_idle, h.promote⟩
  | @begin vm log id' mode schedule t f first found function =>
    by_cases hne : id = id'
    · subst hne
      refine .inr (h.begin hsane ?_ ?_ function)
      · obtain ⟨options, globals, ⟨tasks, ready, waiting⟩, stats, nextTask, world⟩ := vm
        cases ready <;> cases first
        exact List.mem_cons_self
      · obtain ⟨options, globals, ⟨tasks, ready, waiting⟩, stats, nextTask, world⟩ := vm
        cases ready <;> cases first
        exact found
    · have hu : Untouched id (idle vm log) ⟨_, some ⟨id', f.code,
          Activation.routed ⟨t.frame, vm.world⟩ (t.frame.resume mode)⟩,
          log ++ id'.events mode.events⟩ := .begin hne first rfl
      exact .inl ⟨hu.away, h.untouched away_idle hu hworld⟩
  | @instruct vm log id' code pc a =>
    by_cases hne : id = id'
    · subst hne
      exact .inr (h.instruct rfl)
    · exact .inl ⟨away_of_ne hne, h.untouched (away_of_ne hne) (.of_eq (away_of_ne hne) rfl) hworld⟩
  | @exhaust vm log id' code pc b a =>
    by_cases hne : id = id'
    · subst hne
      cases h with
      | works => exact .inr ⟨.gone, .exhausted, .failed⟩
      | created away | rests away | gone away => exact absurd rfl (away _ rfl)
    · exact .inl ⟨away_of_ne hne, h.untouched (away_of_ne hne) (.of_eq (away_of_ne hne) rfl) hworld⟩
  | @record vm log id' code o a =>
    by_cases hne : id = id'
    · subst hne
      exact .inl ⟨away_idle, h.record hsane⟩
    · exact .inl ⟨away_idle, h.untouched (away_of_ne hne) (.record hne) hworld⟩

/-- A task that is created can only be started. -/
theorem Sane.spawned {m : Module} {name : String} {args : List Value} (hsane : Sane Ω P (idle vm log))
    (hdone : Vm.spawn m name args vm = .ok id vm') :
    (∀ mode, (id, mode) ∈ vm'.schedule.ready → mode = .start) ∧
      ∀ promise, (id, promise) ∉ vm'.schedule.waiting := by
  obtain ⟨c, -, -, -, rfl, -, -, -, hready, hwaiting⟩ := spawn_eq_ok hdone
  have hnew : ∀ {id}, (vm.schedule.get? id).isSome → id ≠ ⟨vm.nextTask⟩ := by
    rintro id hsome rfl
    rw [show vm.schedule.get? ⟨vm.nextTask⟩ = none from hsane.get?_next] at hsome
    cases hsome
  refine ⟨fun mode hmode => ?_, fun promise hpromise => ?_⟩
  · rw [hready] at hmode
    rcases List.mem_append.mp hmode with hmode | hmode
    · exact absurd rfl (hnew (hsane.due _ hmode).isSome)
    · split at hmode
      · cases hmode
      · exact congrArg Prod.snd (List.mem_singleton.mp hmode)
  · rw [hwaiting] at hpromise
    exact absurd rfl (hnew (hsane.parked _ hpromise).isSome)

/-- A task that is spawned was created. -/
theorem Bears.of_spawn {m : Module} {name : String} {args : List Value} (hsane : Sane Ω P (idle vm log))
    (hdone : Vm.spawn m name args vm = .ok id vm') :
    ∃ c : Call, c.unit = m ∧ c.args = args ∧ c.function.name = name ∧
      Bears vm.options.stackCapacity c id .created (idle vm' log) := by
  obtain ⟨c, hunit, hargs, hname, rfl, -, -, ⟨t, hstate, -, hframe, hget⟩, -⟩ := spawn_eq_ok hdone
  obtain ⟨hready, hwaiting⟩ := hsane.spawned hdone
  exact ⟨c, hunit, hargs, hname,
    .created away_idle ((hget _).trans (if_pos rfl)) hframe (.inl hstate) hready hwaiting⟩

end Moment

end ResourceMachine
