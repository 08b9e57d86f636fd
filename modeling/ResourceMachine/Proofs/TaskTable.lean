/-
# The table of tasks

A machine keeps every task that was ever created, in the order of creation: their
identities count up from 0, so there is one entry for each. A step of the machine is about
one task. It adds it, or it changes its entry as the step tells (`Task.Becomes`), counts
what there is to count, and leaves every other entry as it is.

Key definitions: `Outcome.count`, `Task.Becomes`, `Moment.Numbered`.
Key theorems: `Moment.Step.changes`, `Moment.Step.task`, `Moment.Reached.numbered`.
-/
import Mathlib.Algebra.Ring.Nat
import ResourceMachine.Proofs.Operations
import ResourceMachine.Proofs.SuspendedCall

namespace ResourceMachine

/-! ### Entries -/

namespace Schedule

variable {s : Schedule} {id : TaskId} {t : Task}

theorem ids_update (s : Schedule) (id : TaskId) {f : Task → Task} (hf : ∀ t, (f t).id = t.id) :
    (s.update id f).tasks.map Task.id = s.tasks.map Task.id := by
  simp only [update, List.map_map]
  refine List.map_congr_left fun t _ => ?_
  simp only [Function.comp_apply]
  split
  · exact hf t
  · rfl

theorem update_id (s : Schedule) (id : TaskId) : s.update id (fun t => t) = s := by
  simp [update]

theorem tasks_insert (h : t.id ∉ s.tasks.map Task.id) : (s.insert t).tasks = s.tasks ++ [t] := by
  unfold insert
  rw [List.filter_eq_self.mpr]
  intro t' ht'
  simp only [bne_iff_ne, ne_eq]
  exact fun heq => h (heq ▸ List.mem_map_of_mem ht')

theorem tasks_await (s : Schedule) (heap : Heap) (id : TaskId) (v : Value) :
    (s.await heap id v).tasks = s.tasks := by
  rcases s.await_cases heap id v with ⟨mode, -, heq⟩ | ⟨p, -, heq⟩
  · rw [heq]
    rfl
  · rw [heq]

theorem tasks_promote (s : Schedule) (heap : Heap) : (s.promote heap).2.tasks = s.tasks := by
  rw [promote_eq]

theorem mem_of_get? (h : s.get? id = some t) : t ∈ s.tasks := List.mem_of_find?_eq_some h

theorem get?_of_mem (hids : (s.tasks.map Task.id).Nodup) (h : t ∈ s.tasks) : s.get? t.id = some t := by
  unfold get?
  induction hts : s.tasks generalizing s with
  | nil =>
    rw [hts] at h
    cases h
  | cons t' ts ih =>
    rw [hts] at hids h
    obtain ⟨hnew, hids⟩ := List.nodup_cons.mp hids
    rcases List.mem_cons.mp h with rfl | h
    · simp
    · have hne : t'.id ≠ t.id := fun heq => hnew (heq ▸ List.mem_map_of_mem h)
      rw [List.find?_cons_of_neg (by simpa using hne)]
      exact ih (s := ⟨ts, [], []⟩) hids h rfl

/-- Where there is one entry for each identity, to change one changes no other. -/
theorem update_split (hids : (s.tasks.map Task.id).Nodup) (hget : s.get? id = some t) :
    ∃ l r, s.tasks = l ++ t :: r ∧ (∀ t' ∈ l ++ r, t'.id ≠ id) ∧
      ∀ f : Task → Task, (s.update id f).tasks = l ++ f t :: r := by
  obtain ⟨l, r, hsplit⟩ := List.append_of_mem (mem_of_get? hget)
  obtain rfl := id_of_get? hget
  have hother : ∀ t' ∈ l ++ r, t'.id ≠ t.id := by
    intro t' ht' heq
    rw [hsplit, List.map_append, List.map_cons] at hids
    refine (List.nodup_cons.mp (List.perm_middle.nodup_iff.mp hids)).1 ?_
    rw [← List.map_append, ← heq]
    exact List.mem_map_of_mem ht'
  refine ⟨l, r, hsplit, hother, fun f => ?_⟩
  have hkept : ∀ ts : List Task, (∀ t' ∈ ts, t'.id ≠ t.id) →
      ts.map (fun t' => if t'.id = t.id then f t' else t') = ts := by
    intro ts hts
    exact (List.map_congr_left fun t' ht' => if_neg (hts t' ht')).trans (List.map_id' ts)
  rw [update, hsplit, List.map_append, List.map_cons, if_pos rfl,
    hkept l fun t' ht' => hother t' (List.mem_append_left _ ht'),
    hkept r fun t' ht' => hother t' (List.mem_append_right _ ht')]

/-- To change one entry changes a sum over all entries by as much. -/
theorem sum_update (w w' : Task → Nat) (f : Task → Task) (hids : (s.tasks.map Task.id).Nodup)
    (hget : s.get? id = some t) (hother : ∀ t', t'.id ≠ id → w' t' = w t') :
    ((s.update id f).tasks.map w').sum + w t = (s.tasks.map w).sum + w' (f t) := by
  obtain ⟨l, r, hsplit, hne, hupdate⟩ := update_split hids hget
  have hsame : ∀ ts : List Task, (∀ t' ∈ ts, t'.id ≠ id) → ts.map w' = ts.map w := fun ts hts =>
    List.map_congr_left fun t' ht' => hother t' (hts t' ht')
  rw [hupdate, hsplit, List.map_append, List.map_append, List.map_cons, List.map_cons,
    hsame l fun t' ht' => hne t' (List.mem_append_left _ ht'),
    hsame r fun t' ht' => hne t' (List.mem_append_right _ ht')]
  simp only [List.sum_append, List.sum_cons]
  omega

end Schedule

/-! ### Steps -/

/-- What is counted of a turn that ends so. -/
def Outcome.count (o : Outcome) (s : VmStats) : VmStats :=
  match o with
  | .completed _ => { s with tasksCompleted := s.tasksCompleted + 1 }
  | .threw _ => { s with tasksThrew := s.tasksThrew + 1 }
  | .awaits _ => { s with awaits := s.awaits + 1 }
  | .yields _ => { s with yields := s.yields + 1 }
  | .failed _ => s

/-- What becomes of a task in a step that is about it: which events it has a part in, what
is counted, and what its entry is afterwards. -/
inductive Task.Becomes (t : Task) (s : VmStats) : List Event → VmStats → Task → Prop
  /-- A generator is closed before it was started. -/
  | closed (v : Value) (state : t.state = .created) :
      Becomes t s [.resume (.ret v)] s { t with state := .completed v, status := .returned v }
  /-- An exception is thrown into a generator before it was started. -/
  | refused (e : Value) (state : t.state = .created) :
      Becomes t s [.resume (.throw e)] s { t with state := .threw e, status := .threw e }
  /-- A generator is queued. -/
  | queued {mode : Resume} {g : Task → Task} (revives : t.Revives mode g) : Becomes t s [] s (g t)
  /-- Its turn begins. -/
  | begins (mode : Resume)
      (state : t.state = .running ∨ t.state = .awaiting ∨ t.state = .created ∧ t.kind.isGenerator = false) :
      Becomes t s mode.events s { t with state := .running }
  /-- It executes an instruction. -/
  | acts {es : List Event} (state : t.state = .running) (quiet : ∀ a, .resume a ∉ es) :
      Becomes t s es { s with steps := s.steps + 1 } t
  /-- Its turn ends. -/
  | ends (o : Outcome) (frame : Frame) (state : t.state = .running) :
      Becomes t s [] (o.count s) (o.settle { t with frame })

theorem Task.Becomes.spawned_eq {t t' : Task} {s s' : VmStats} {es : List Event}
    (h : t.Becomes s es s' t') : s'.tasksSpawned = s.tasksSpawned := by
  cases h with
  | ends o => cases o <;> rfl
  | _ => rfl

/-- Where what a host sees of a task goes with its state, it still does after a step. -/
theorem Task.Becomes.status_eq {t t' : Task} {s s' : VmStats} {es : List Event} (h : t.Becomes s es s' t')
    (ht : t.status = t.state.status) : t'.status = t'.state.status := by
  cases h with
  | closed | refused => rfl
  | queued revives =>
    cases revives with
    | start state =>
      rw [state] at ht
      exact ht
    | again => rfl
  | begins _ state =>
    rcases state with state | state | ⟨state, -⟩ <;> rw [state] at ht <;> exact ht
  | acts => exact ht
  | ends o _ state =>
    rw [state] at ht
    cases o with
    | completed | threw | yields => rfl
    | awaits | failed => exact ht

namespace Moment

variable {σ : Type} {Ω : Surroundings σ} {μ μ' : Moment σ} {vm vm' : Vm σ} {id : TaskId}

/-- What recording the end of a turn makes of the table and of the counts. -/
theorem record_table (vm : Vm σ) (id : TaskId) (o : Outcome) :
    (stateOf (Vm.record id o vm)).schedule.tasks = (vm.schedule.update id o.settle).tasks ∧
      (stateOf (Vm.record id o vm)).stats = o.count vm.stats := by
  rw [record_schedule]
  cases o with
  | awaits v => exact ⟨Schedule.tasks_await _ _ _ _, rfl⟩
  | _ => exact ⟨rfl, rfl⟩

/-- What a task that is created adds to the table and to the counts. -/
theorem spawn_table {m : Module} {name : String} {args : List Value}
    (h : Vm.spawn m name args vm = .ok id vm') :
    ∃ t : Task, t.id = ⟨vm.nextTask⟩ ∧ t.state = .created ∧ t.status = .pending ∧ t.awaitCount = 0 ∧ t.yieldCount = 0 ∧
      vm'.nextTask = vm.nextTask + 1 ∧ vm'.schedule.tasks = (vm.schedule.insert t).tasks ∧
      vm'.stats = { vm.stats with tasksSpawned := vm.stats.tasksSpawned + 1 } := by
  unfold Vm.spawn at h
  cases hindex : m.functions.findIdx? (·.name == name) with
  | none =>
    simp only [hindex] at h
    cases h
  | some index =>
    cases hf : m.function? name with
    | none =>
      simp only [hindex, hf] at h
      cases h
    | some f =>
      simp only [hindex, hf] at h
      refine ⟨Task.create ⟨vm.nextTask⟩ f (Frame.start m index args vm.options.stackCapacity), rfl, rfl,
        rfl, rfl, rfl, ?_⟩
      cases hkind : f.kind.isGenerator <;> simp only [hkind] at h <;> cases h <;> exact ⟨rfl, rfl, rfl⟩

/-- What a step does to the table, to the counts and to the log. -/
inductive Changes (μ μ' : Moment σ) : Prop
  /-- It is about no task, or about one that is finished. -/
  | nothing (tasks : μ'.vm.schedule.tasks = μ.vm.schedule.tasks) (next : μ'.vm.nextTask = μ.vm.nextTask)
      (stats : μ'.vm.stats = μ.vm.stats) (log : μ'.log = μ.log)
  /-- A task is created. -/
  | adds {t : Task} (id : t.id = ⟨μ.vm.nextTask⟩) (created : t.state = .created)
      (status : t.status = .pending) (awaitCount : t.awaitCount = 0) (yieldCount : t.yieldCount = 0)
      (tasks : μ'.vm.schedule.tasks = (μ.vm.schedule.insert t).tasks)
      (next : μ'.vm.nextTask = μ.vm.nextTask + 1)
      (stats : μ'.vm.stats = { μ.vm.stats with tasksSpawned := μ.vm.stats.tasksSpawned + 1 })
      (log : μ'.log = μ.log)
  /-- Something happens to a task. -/
  | alters {t : Task} {f : Task → Task} {es : List Event} (found : μ.vm.schedule.get? t.id = some t)
      (becomes : t.Becomes μ.vm.stats es μ'.vm.stats (f t)) (id : ∀ t, (f t).id = t.id)
      (tasks : μ'.vm.schedule.tasks = (μ.vm.schedule.update t.id f).tasks)
      (next : μ'.vm.nextTask = μ.vm.nextTask) (log : μ'.log = μ.log ++ t.id.events es)

/-- **A step is about one task**, to which it does what there is to do. -/
theorem Step.changes {P : Resume → World σ → Globals → Prop} (h : Step Ω μ μ') (hsane : Sane Ω P μ) :
    Changes μ μ' := by
  cases h with
  | surroundings => exact .nothing rfl rfl rfl rfl
  | promote =>
    exact .nothing (Schedule.tasks_promote _ _) rfl rfl rfl
  | spawn _ _ done =>
    obtain ⟨t, hid, hcreated, hstatus, hawaits, hyields, hnext, htasks, hstats⟩ := spawn_table done
    exact .adds hid hcreated hstatus hawaits hyields htasks hnext hstats rfl
  | @prepare vm vm' log id t mode _ found generator done =>
    obtain rfl := Schedule.id_of_get? found
    rcases prepareGenerator_cases rfl done with
      ⟨state, hstate, rfl⟩ | ⟨mode', g, hrevives, hrefusal, -, rfl⟩ | ⟨rfl, hnone⟩
    · refine .alters (f := fun t => { t with state, status := state.status }) found ?_ (fun _ => rfl) rfl rfl rfl
      rcases hstate with ⟨hcreated, v, rfl, rfl⟩ | ⟨hcreated, e, rfl, rfl⟩
      · simp only [Task.refusal, hcreated]
        exact .closed v hcreated
      · simp only [Task.refusal, hcreated]
        exact .refused e hcreated
    · rw [hrefusal]
      exact .alters (f := g) found (.queued hrevives) hrevives.id rfl rfl rfl
    · rw [hnone]
      exact .nothing rfl rfl rfl (List.append_nil _)
  | @begin vm log id mode schedule t f first found function =>
    obtain ⟨options, globals, ⟨tasks, ready, waiting⟩, stats, nextTask, world⟩ := vm
    cases ready with
    | nil => cases first
    | cons entry rest =>
      cases first
      obtain ⟨t', c, hget, -, htakes⟩ := hsane.due (id, mode) List.mem_cons_self
      obtain rfl : t' = t := Option.some.inj (hget.symm.trans found)
      obtain rfl := Schedule.id_of_get? found
      exact .alters (f := fun t => { t with state := .running }) hget (.begins mode htakes.state)
        (fun _ => rfl) rfl rfl rfl
  | @instruct vm log id code pc a =>
    obtain ⟨-, t, c, hget, -, hstate, -⟩ := hsane.turn _ rfl
    obtain rfl := Schedule.id_of_get? hget
    refine .alters (f := fun t => t) hget (.acts hstate fun x => Activation.resume_not_mem_events x)
      (fun _ => rfl) ?_ rfl rfl
    rw [Schedule.update_id]
    rfl
  | exhaust => exact .nothing rfl rfl rfl rfl
  | @record vm log id code o a =>
    obtain ⟨-, t, c, hget, -, hstate, -⟩ := hsane.turn _ rfl
    obtain rfl := Schedule.id_of_get? hget
    obtain ⟨htasks, hstats⟩ := record_table (vm.leave t.id a) t.id o
    obtain ⟨-, hnext, -⟩ := record_spec (vm.leave t.id a) t.id o
    have hbecomes : t.Becomes vm.stats [] (stateOf (Vm.record t.id o (vm.leave t.id a))).stats
        (o.settle { t with frame := a.frame }) := by
      rw [hstats]
      exact .ends o a.frame hstate
    refine .alters (f := fun t => o.settle { t with frame := a.frame }) hget hbecomes
      (fun t => o.settle_id _) ?_ hnext (List.append_nil _).symm
    refine htasks.trans ?_
    exact congrArg Schedule.tasks
      (vm.schedule.update_update t.id (f := fun t => { t with frame := a.frame }) (fun _ => rfl) _)

/-! ### Single entries -/

theorem get?_congr {s s' : Schedule} (h : s'.tasks = s.tasks) (id : TaskId) : s'.get? id = s.get? id := by
  rw [Schedule.get?, Schedule.get?, h]

/-- What a step does to the entry of one task. -/
theorem Changes.task (h : Changes μ μ') (hnew : μ.vm.schedule.get? ⟨μ.vm.nextTask⟩ = none) (id : TaskId) :
    μ'.vm.schedule.get? id = μ.vm.schedule.get? id ∨
    (∃ t, t.state = .created ∧ t.status = .pending ∧ μ.vm.schedule.get? id = none ∧ μ'.vm.schedule.get? id = some t) ∨
    ∃ t t' s es s', μ.vm.schedule.get? id = some t ∧ t.Becomes s es s' t' ∧
      μ'.vm.schedule.get? id = some t' := by
  cases h with
  | nothing tasks => exact .inl (get?_congr tasks id)
  | @adds t hid created status _ _ tasks =>
    have hget := (get?_congr tasks id).trans (Schedule.get?_insert t id)
    by_cases heq : id = t.id
    · rw [if_pos heq] at hget
      exact .inr (.inl ⟨t, created, status, by rw [heq, hid]; exact hnew, hget⟩)
    · rw [if_neg heq] at hget
      exact .inl hget
  | @alters t f es found becomes hid tasks =>
    have hget := (get?_congr tasks id).trans (Schedule.get?_update _ t.id hid id)
    by_cases heq : id = t.id
    · rw [if_pos heq, heq, found] at hget
      exact .inr (.inr ⟨t, f t, _, _, _, heq ▸ found, becomes, heq ▸ hget⟩)
    · rw [if_neg heq] at hget
      exact .inl hget

theorem Step.task (h : Step Ω μ μ') (hμ : Reached Ω μ) (id : TaskId) :
    μ'.vm.schedule.get? id = μ.vm.schedule.get? id ∨
    (∃ t, t.state = .created ∧ t.status = .pending ∧ μ.vm.schedule.get? id = none ∧ μ'.vm.schedule.get? id = some t) ∨
    ∃ t t' s es s', μ.vm.schedule.get? id = some t ∧ t.Becomes s es s' t' ∧
      μ'.vm.schedule.get? id = some t' :=
  (h.changes hμ.sane).task hμ.sane.get?_next id

/-! ### Every moment -/

/-- **What a host sees of a task goes with its state**, though the two are set one after the
other, and not by every step. -/
theorem Reached.status_eq {t : Task} (h : Reached Ω μ) (hget : μ.vm.schedule.get? id = some t) :
    t.status = t.state.status := by
  obtain ⟨options, world, hallowed, h⟩ := h
  induction h generalizing t with
  | refl => cases hget
  | tail hleads hstep ih =>
    have hreached : Reached Ω _ := ⟨options, world, hallowed, hleads⟩
    rcases hstep.task hreached id with
      hsame | ⟨t', hcreated, hstatus, -, hget'⟩ | ⟨t₀, t', _, _, _, hget₀, hbecomes, hget'⟩
    · exact ih (hsame ▸ hget)
    · obtain rfl : t' = t := Option.some.inj (hget'.symm.trans hget)
      rw [hcreated, hstatus]
      rfl
    · obtain rfl : t' = t := Option.some.inj (hget'.symm.trans hget)
      exact hbecomes.status_eq (ih hget₀)

/-- The tasks that were ever created, by number. -/
def Numbered (μ : Moment σ) : Prop :=
  μ.vm.schedule.tasks.map Task.id = (List.range μ.vm.nextTask).map TaskId.mk

theorem Numbered.nodup (h : Numbered μ) : (μ.vm.schedule.tasks.map Task.id).Nodup := by
  rw [h]
  exact List.Pairwise.map TaskId.mk (fun _ _ hne heq => hne (congrArg TaskId.number heq)) List.nodup_range

theorem Numbered.length_eq (h : Numbered μ) : μ.vm.schedule.tasks.length = μ.vm.nextTask := by
  have hlength := congrArg List.length h
  simpa using hlength

theorem Numbered.next_not_mem (h : Numbered μ) :
    (⟨μ.vm.nextTask⟩ : TaskId) ∉ μ.vm.schedule.tasks.map Task.id := by
  rw [h]
  simp

theorem Numbered.changes (h : Numbered μ) (hchanges : Changes μ μ') : Numbered μ' := by
  unfold Numbered at h ⊢
  cases hchanges with
  | nothing tasks next => rw [tasks, next, h]
  | adds id _ _ _ _ tasks next =>
    rw [tasks, next, Schedule.tasks_insert (id ▸ Numbered.next_not_mem h), List.map_append, h,
      List.range_succ, List.map_append, List.map_singleton, List.map_singleton, id]
  | alters _ _ id tasks next => rw [tasks, next, Schedule.ids_update _ _ id, h]

theorem Reached.numbered (h : Reached Ω μ) : Numbered μ := by
  obtain ⟨options, world, hallowed, h⟩ := h
  induction h with
  | refl => rfl
  | tail hleads hstep ih =>
    have hreached : Reached Ω _ := ⟨options, world, hallowed, hleads⟩
    exact ih.changes (hstep.changes hreached.sane)

end Moment
end ResourceMachine
