/-
# What a machine keeps in order

Whatever a host does, a task is queued or parked at most once, and only as its life says:
where it is suspended, or before it was started (`Moment.Sane`). So every step of a
machine lengthens the life of one task and leaves those of the others alone.

Key definitions: `Schedule.queued`, `Moment.Sane`, `Moment.Fit`.
Key theorems: `Moment.Sane.step`, `Moment.Reached.sane`.
-/
import ResourceMachine.Proofs.TaskLife

namespace ResourceMachine

/-! ### Schedules -/

namespace Schedule

variable {s : Schedule} {id id' : TaskId} {t : Task}

/-- The tasks that are queued or parked. -/
def queued (s : Schedule) : List TaskId := s.ready.map Prod.fst ++ s.waiting.map Prod.fst

theorem id_of_get? (h : s.get? id = some t) : t.id = id := by
  simpa using List.find?_some h

theorem get?_update (s : Schedule) (id : TaskId) {f : Task → Task} (hf : ∀ t, (f t).id = t.id)
    (id' : TaskId) :
    (s.update id f).get? id' = if id' = id then (s.get? id').map f else s.get? id' := by
  unfold get? update
  induction s.tasks with
  | nil => split <;> rfl
  | cons t ts ih =>
    by_cases ht : t.id = id'
    · by_cases hid : id' = id
      · simp [ht, hid, hf]
      · simp [ht, hid]
    · by_cases hid : t.id = id
      · simpa [ht, hid, hf, hid ▸ ht] using ih
      · simpa [ht, hid] using ih

theorem get?_insert (t : Task) (id' : TaskId) :
    (s.insert t).get? id' = if id' = t.id then some t else s.get? id' := by
  unfold get? insert
  rw [List.find?_append]
  induction s.tasks with
  | nil =>
    by_cases hid : t.id = id'
    · simp [hid]
    · simp [hid, show ¬ id' = t.id from fun h => hid h.symm]
  | cons a as ih =>
    by_cases ha : a.id = t.id
    · by_cases hid : id' = t.id
      · simpa [ha, hid] using ih
      · simpa [ha, hid, show ¬ t.id = id' from fun h => hid h.symm] using ih
    · by_cases haid : a.id = id'
      · simp [haid, show ¬ id' = t.id from haid ▸ ha]
      · simpa [ha, haid] using ih

theorem mem_queued_of_ready {m : Resume} (h : (id, m) ∈ s.ready) : id ∈ s.queued :=
  List.mem_append_left _ (List.mem_map_of_mem h)

theorem mem_queued_of_waiting {p : Nat} (h : (id, p) ∈ s.waiting) : id ∈ s.queued :=
  List.mem_append_right _ (List.mem_map_of_mem h)

theorem queued_subset {s' : Schedule} (hready : s.ready ⊆ s'.ready) (hwaiting : s.waiting ⊆ s'.waiting) :
    s.queued ⊆ s'.queued := by
  intro id hid
  rcases List.mem_append.mp hid with hid | hid
  · obtain ⟨entry, hentry, rfl⟩ := List.mem_map.mp hid
    exact mem_queued_of_ready (hready hentry)
  · obtain ⟨entry, hentry, rfl⟩ := List.mem_map.mp hid
    exact mem_queued_of_waiting (hwaiting hentry)

/-- Two updates of a task are one. -/
theorem update_update (s : Schedule) (id : TaskId) {f : Task → Task} (hf : ∀ t, (f t).id = t.id)
    (g : Task → Task) : (s.update id f).update id g = s.update id fun t => g (f t) := by
  simp only [update, List.map_map]
  congr 1
  refine List.map_congr_left fun t _ => ?_
  simp only [Function.comp_apply]
  by_cases h : t.id = id <;> simp [h, hf]

/-- How a task that awaits a value is to be continued, once that is known. -/
def answer? (heap : Heap) : Value → Option Resume
  | .promise p => continuation? (heap.settlement p)
  | v => some (.next v)

theorem accept_of_answer? {heap : Heap} {v : Value} {mode : Resume} (h : answer? heap v = some mode) :
    ∃ a, mode = Answer.mode a ∧ (Suspension.await v).accept a = a := by
  cases v
  case promise p =>
    rw [answer?] at h
    cases hp : heap.settlement p with
    | pending =>
      rw [hp] at h
      cases h
    | fulfilled v =>
      rw [hp] at h
      cases h
      exact ⟨.next v, rfl, rfl⟩
    | rejected reason =>
      rw [hp] at h
      cases h
      exact ⟨.throw reason, rfl, rfl⟩
  all_goals
    cases h
    exact ⟨.next _, rfl, rfl⟩

/-- A task that awaits is queued or parked. -/
theorem await_cases (s : Schedule) (heap : Heap) (id : TaskId) (v : Value) :
    (∃ mode, answer? heap v = some mode ∧ s.await heap id v = s.enqueue id mode) ∨
    ∃ p, v = .promise p ∧ s.await heap id v = { s with waiting := s.waiting ++ [(id, p)] } := by
  cases v
  case promise p =>
    simp only [await, answer?]
    cases continuation? (heap.settlement p) with
    | none => exact .inr ⟨p, rfl, rfl⟩
    | some mode => exact .inl ⟨mode, rfl, rfl⟩
  all_goals exact .inl ⟨.next _, rfl, rfl⟩

/-- Promises that have settled put their tasks into the queue. -/
theorem promoteAll_eq (heap : Heap) : ∀ (parked : List (TaskId × Nat)) (s : Schedule),
    (promoteAll heap s parked).2 =
      { s with
        ready := s.ready ++ parked.filterMap fun entry =>
          (continuation? (heap.settlement entry.2)).map fun mode => (entry.1, mode)
        waiting := s.waiting ++ parked.filter fun entry =>
          (continuation? (heap.settlement entry.2)).isNone }
  | [], s => by simp [promoteAll]
  | (id, p) :: parked, s => by
    rw [promoteAll]
    cases hp : continuation? (heap.settlement p) with
    | none =>
      simp only [promoteAll_eq heap parked]
      simp [hp]
    | some mode =>
      simp only [promoteAll_eq heap parked]
      simp [hp, enqueue]

theorem promoteAll_count (heap : Heap) : ∀ (parked : List (TaskId × Nat)) (s : Schedule),
    (promoteAll heap s parked).1 =
      parked.countP fun entry => (continuation? (heap.settlement entry.2)).isSome
  | [], _ => rfl
  | (id, p) :: parked, s => by
    rw [promoteAll]
    cases hp : continuation? (heap.settlement p) with
    | none => simpa [hp] using promoteAll_count heap parked _
    | some mode => simpa [hp] using promoteAll_count heap parked _

theorem promote_eq (s : Schedule) (heap : Heap) : (s.promote heap).2 =
    { s with
      ready := s.ready ++ s.waiting.filterMap fun entry =>
        (continuation? (heap.settlement entry.2)).map fun mode => (entry.1, mode)
      waiting := s.waiting.filter fun entry => (continuation? (heap.settlement entry.2)).isNone } := by
  rw [promote, promoteAll_eq]
  rfl

/-- Every parked task is queued or parked afterwards. -/
theorem queued_promote (s : Schedule) (heap : Heap) : (s.promote heap).2.queued.Perm s.queued := by
  rw [promote_eq]
  simp only [queued, List.map_append, List.append_assoc]
  refine .append_left _ ?_
  induction s.waiting with
  | nil => exact .refl _
  | cons entry rest ih =>
    cases hp : continuation? (heap.settlement entry.2) with
    | none =>
      simp only [List.filterMap_cons, hp, Option.map_none, List.filter_cons, Option.isNone_none,
        ↓reduceIte, List.map_cons]
      exact List.perm_middle.trans (.cons _ ih)
    | some mode =>
      simp only [List.filterMap_cons, hp, Option.map_some, List.filter_cons, Option.isNone_some,
        Bool.false_eq_true, ↓reduceIte, List.map_cons, List.cons_append]
      exact .cons _ ih

end Schedule

namespace Moment

variable {σ : Type} {Ω : Surroundings σ} {P : Resume → World σ → Globals → Prop}

theorem history_append (log : List (TaskId × Event)) (id : TaskId) (es : List Event) (id' : TaskId) :
    id'.history (log ++ id.events es) = id'.history log ++ if id' = id then es else [] := by
  simp only [TaskId.history, List.filter_append, List.map_append, TaskId.events]
  congr 1
  split
  · rename_i hid
    subst hid
    rw [List.filter_eq_self.mpr]
    · simp [Function.comp_def]
    · rintro ⟨_, _⟩ h
      obtain ⟨_, -, heq⟩ := List.mem_map.mp h
      cases heq
      simp
  · rename_i hid
    rw [List.filter_eq_nil_iff.mpr]
    · rfl
    · rintro ⟨_, _⟩ h
      obtain ⟨_, -, heq⟩ := List.mem_map.mp h
      cases heq
      simpa using fun h => hid h.symm

/-! ### Machines in order -/

section

variable (Ω : Surroundings σ) (P : Resume → World σ → Globals → Prop) (μ : Moment σ) (id : TaskId)

/-- A task can be resumed so. -/
def Due (mode : Resume) : Prop := ∃ t c, μ.vm.schedule.get? id = some t ∧ Makes Ω c t ∧
  Takes Ω P μ.vm.options.stackCapacity c t (μ.history id) mode

/-- A task waits for a promise. -/
def Waits (promise : Nat) : Prop := ∃ t c, μ.vm.schedule.get? id = some t ∧ Makes Ω c t ∧
  Parked Ω P μ.vm.options.stackCapacity c t (μ.history id) promise

/-- A task, if there is one, has lived so far. -/
def Rests : Prop := ∀ t, μ.vm.schedule.get? id = some t →
  ∃ c, Makes Ω c t ∧ Life Ω P μ.vm.options.stackCapacity c t (μ.history id)

/-- A task has its turn. -/
def Works (code : Bytes) (p : Progress σ) : Prop := ∃ t c, μ.vm.schedule.get? id = some t ∧
  Makes Ω c t ∧ t.state = .running ∧ code = c.function.code ∧
    InTurn Ω P μ.vm.options c μ.vm.globals p (μ.history id)

end

/-- What holds of the tasks of a machine, of the queue, of what is parked, and of the task
that has its turn. -/
structure Sane (Ω : Surroundings σ) (P : Resume → World σ → Globals → Prop) (μ : Moment σ) : Prop where
  below : ∀ id, (μ.vm.schedule.get? id).isSome → id.number < μ.vm.nextTask
  logged : ∀ entry ∈ μ.log, entry.1.number < μ.vm.nextTask
  queue : μ.vm.schedule.queued.Nodup
  due : ∀ entry ∈ μ.vm.schedule.ready, Due Ω P μ entry.1 entry.2
  parked : ∀ entry ∈ μ.vm.schedule.waiting, Waits Ω P μ entry.1 entry.2
  resting : ∀ id, (∀ turn, μ.turn = some turn → turn.id ≠ id) → Rests Ω P μ id
  turn : ∀ turn, μ.turn = some turn →
    turn.id ∉ μ.vm.schedule.queued ∧ Works Ω P μ turn.id turn.code turn.progress

/-- Where the next turn begins, `P` holds. -/
def Fit (P : Resume → World σ → Globals → Prop) (μ : Moment σ) : Prop :=
  μ.turn = none → ∀ entry ∈ μ.vm.schedule.ready, P entry.2 μ.vm.world μ.vm.globals

theorem Sane.create (options : VmOptions) (world : World σ) :
    Sane Ω P (.idle (Vm.create options world) []) where
  below := nofun
  logged := nofun
  queue := List.nodup_nil
  due := nofun
  parked := nofun
  resting := fun _ _ _ h => by cases h
  turn := Moment.no_turn

/-- A task that is created next is not known yet, and had a part in nothing. -/
theorem Sane.get?_next {μ : Moment σ} (h : Sane Ω P μ) :
    μ.vm.schedule.get? ⟨μ.vm.nextTask⟩ = none := by
  refine Option.not_isSome_iff_eq_none.mp fun hsome => ?_
  exact Nat.lt_irrefl _ (h.below ⟨μ.vm.nextTask⟩ hsome)

theorem Sane.history_next {μ : Moment σ} (h : Sane Ω P μ) : μ.history ⟨μ.vm.nextTask⟩ = [] := by
  unfold history TaskId.history
  rw [List.filter_eq_nil_iff.mpr]
  · rfl
  · intro entry hentry
    have hlt := h.logged entry hentry
    simp only [decide_eq_true_eq]
    rintro heq
    rw [heq] at hlt
    exact Nat.lt_irrefl _ hlt

/-! ### What concerns one task only -/

/-- Two moments agree about a task. -/
structure Agree (μ μ' : Moment σ) (id : TaskId) : Prop where
  task : μ'.vm.schedule.get? id = μ.vm.schedule.get? id
  history : μ'.history id = μ.history id
  capacity : μ'.vm.options.stackCapacity = μ.vm.options.stackCapacity

section

variable {μ μ' : Moment σ} {id : TaskId}

theorem Due.agree {mode : Resume} (h : Due Ω P μ id mode) (hagree : Agree μ μ' id) :
    Due Ω P μ' id mode := by
  unfold Due
  rw [hagree.task, hagree.history, hagree.capacity]
  exact h

theorem Waits.agree {promise : Nat} (h : Waits Ω P μ id promise) (hagree : Agree μ μ' id) :
    Waits Ω P μ' id promise := by
  unfold Waits
  rw [hagree.task, hagree.history, hagree.capacity]
  exact h

theorem Due.isSome {mode : Resume} (h : Due Ω P μ id mode) : (μ.vm.schedule.get? id).isSome :=
  have ⟨t, _, hget, _⟩ := h
  Option.isSome_iff_exists.mpr ⟨t, hget⟩

theorem Waits.isSome {promise : Nat} (h : Waits Ω P μ id promise) :
    (μ.vm.schedule.get? id).isSome :=
  have ⟨t, _, hget, _⟩ := h
  Option.isSome_iff_exists.mpr ⟨t, hget⟩

theorem Rests.agree (h : Rests Ω P μ id) (hagree : Agree μ μ' id) : Rests Ω P μ' id := by
  unfold Rests
  rw [hagree.task, hagree.history, hagree.capacity]
  exact h

/-- A step that concerns one task leaves a machine in order if that task is. -/
theorem Sane.change {μ' : Moment σ} (h : Sane Ω P μ) (id : TaskId)
    (hnext : μ'.vm.nextTask = μ.vm.nextTask)
    (hcapacity : μ'.vm.options.stackCapacity = μ.vm.options.stackCapacity)
    (htask : ∀ id', id' ≠ id → μ'.vm.schedule.get? id' = μ.vm.schedule.get? id')
    (hknown : (μ.vm.schedule.get? id).isSome) (es : List Event)
    (hlog : μ'.log = μ.log ++ id.events es)
    (hqueue : μ'.vm.schedule.queued.Nodup)
    (hdue : ∀ entry ∈ μ'.vm.schedule.ready,
      entry ∈ μ.vm.schedule.ready ∧ entry.1 ≠ id ∨ Due Ω P μ' entry.1 entry.2)
    (hparked : ∀ entry ∈ μ'.vm.schedule.waiting,
      entry ∈ μ.vm.schedule.waiting ∧ entry.1 ≠ id ∨ Waits Ω P μ' entry.1 entry.2)
    (hother : ∀ turn, μ.turn = some turn → turn.id = id)
    (hresting : (∀ turn, μ'.turn = some turn → turn.id ≠ id) → Rests Ω P μ' id)
    (hturn : ∀ turn, μ'.turn = some turn → turn.id = id ∧ id ∉ μ'.vm.schedule.queued ∧
      Works Ω P μ' id turn.code turn.progress) : Sane Ω P μ' := by
  have hagree : ∀ id', id' ≠ id → Agree μ μ' id' := by
    intro id' hid
    refine ⟨htask id' hid, ?_, hcapacity⟩
    have hhistory := history_append μ.log id es id'
    rwa [if_neg hid, List.append_nil, ← hlog] at hhistory
  refine ⟨?_, ?_, hqueue, ?_, ?_, ?_, ?_⟩
  · intro id' hid'
    rw [hnext]
    by_cases hid : id' = id
    · rw [hid]
      exact h.below id hknown
    · rw [htask id' hid] at hid'
      exact h.below id' hid'
  · intro entry hentry
    rw [hlog] at hentry
    rw [hnext]
    rcases List.mem_append.mp hentry with hentry | hentry
    · exact h.logged entry hentry
    · obtain ⟨_, -, rfl⟩ := List.mem_map.mp hentry
      exact h.below id hknown
  · intro entry hentry
    rcases hdue entry hentry with ⟨hentry, hid⟩ | hdue
    · exact (h.due entry hentry).agree (hagree _ hid)
    · exact hdue
  · intro entry hentry
    rcases hparked entry hentry with ⟨hentry, hid⟩ | hparked
    · exact (h.parked entry hentry).agree (hagree _ hid)
    · exact hparked
  · intro id' hid'
    by_cases hid : id' = id
    · rw [hid] at hid' ⊢
      exact hresting hid'
    · refine (h.resting id' fun turn hturn heq => ?_).agree (hagree id' hid)
      exact hid (heq.symm.trans (hother turn hturn))
  · intro turn heq
    obtain ⟨hid, hqueued, hworks⟩ := hturn turn heq
    rw [hid]
    exact ⟨hqueued, hworks⟩

end

/-! ### Steps -/

variable {vm vm' : Vm σ} {log : List (TaskId × Event)} {id : TaskId} {code : Bytes} {p : Progress σ}

theorem not_mem_queued {s : Schedule} :
    id ∉ s.queued ↔ (∀ entry ∈ s.ready, entry.1 ≠ id) ∧ ∀ entry ∈ s.waiting, entry.1 ≠ id := by
  simp only [Schedule.queued, List.mem_append, List.mem_map, not_or, not_exists, not_and]

/-- The run of the task that has its turn goes on. -/
theorem Sane.goOn (h : Sane Ω P ⟨vm, some ⟨id, code, p⟩, log⟩) (es : List Event) (p' : Progress σ)
    (hschedule : vm'.schedule = vm.schedule) (hoptions : vm'.options = vm.options)
    (hnext : vm'.nextTask = vm.nextTask) (hglobals : vm'.globals = vm.globals)
    (hrun : ∀ c, code = c.function.code → ∀ es₀, InTurn Ω P vm.options c vm.globals p es₀ →
      InTurn Ω P vm.options c vm.globals p' (es₀ ++ es)) :
    Sane Ω P ⟨vm', some ⟨id, code, p'⟩, log ++ id.events es⟩ := by
  obtain ⟨hid, t, c, hget, hmakes, hstate, hcode, hturn⟩ := h.turn _ rfl
  obtain ⟨hready, hwaiting⟩ := not_mem_queued.mp hid
  refine h.change id hnext (by rw [hoptions]) (fun _ _ => by rw [hschedule]) ?_ es rfl ?_ ?_ ?_ ?_ ?_ ?_
  · exact Option.isSome_iff_exists.mpr ⟨t, hget⟩
  · rw [hschedule]
    exact h.queue
  · rw [hschedule]
    exact fun entry hentry => .inl ⟨hentry, hready entry hentry⟩
  · rw [hschedule]
    exact fun entry hentry => .inl ⟨hentry, hwaiting entry hentry⟩
  · rintro _ ⟨⟩
    rfl
  · exact fun hne => absurd rfl (hne _ rfl)
  · rintro _ ⟨⟩
    refine ⟨rfl, by rwa [hschedule], t, c, by rwa [hschedule], hmakes, hstate, hcode, ?_⟩
    rw [hoptions, hglobals, history, history_append, if_pos rfl]
    exact hrun c hcode _ hturn

/-- A turn begins. -/
theorem Sane.begin {mode : Resume} {schedule : Schedule} {t : Task} {f : Function}
    (h : Sane Ω P (.idle vm log)) (hfit : Fit P (.idle vm log))
    (hfirst : vm.schedule.popReady = some ((id, mode), schedule)) (hfound : schedule.get? id = some t)
    (hfunction : t.frame.function? = some f) :
    Sane Ω P ⟨{ vm with schedule := schedule.update id fun t => { t with state := .running } },
      some ⟨id, f.code, Activation.routed ⟨t.frame, vm.world⟩ (t.frame.resume mode)⟩,
      log ++ id.events mode.events⟩ := by
  obtain ⟨options, globals, ⟨tasks, ready, waiting⟩, stats, nextTask, world⟩ := vm
  cases ready with
  | nil => cases hfirst
  | cons entry rest =>
    cases hfirst
    obtain ⟨t', c, hget, hmakes, htakes⟩ := h.due (id, mode) List.mem_cons_self
    obtain rfl : t' = t := Option.some.inj (hget.symm.trans hfound)
    have hP : P mode world globals := hfit rfl (id, mode) List.mem_cons_self
    have hqueue : (id :: (Schedule.mk tasks rest waiting).queued).Nodup := h.queue
    obtain ⟨hid, hnodup⟩ := List.nodup_cons.mp hqueue
    have hid' := not_mem_queued.mp hid
    have hinturn := htakes.begin hP
    have hcode : f.code = c.function.code := by
      have hsetup := htakes.setup
      have hf : c.unit.functions[c.index]? = some f := by
        rw [← hfunction, Frame.function?]
        rw [show t'.frame.unit = c.unit from congrArg Prod.fst hsetup,
          show t'.frame.functionIndex = c.index from congrArg (fun x => x.2.1) hsetup]
      rw [c.found] at hf
      cases hf
      rfl
    have hupdate := Schedule.get?_update ⟨tasks, rest, waiting⟩ id
      (f := fun t => { t with state := .running }) (fun _ => rfl)
    refine h.change id rfl rfl (fun id' hne => ?_) ?_ mode.events rfl hnodup ?_ ?_ Moment.no_turn ?_ ?_
    · exact (hupdate id').trans (if_neg hne)
    · exact Option.isSome_iff_exists.mpr ⟨t', hget⟩
    · exact fun entry hentry => .inl ⟨List.mem_cons_of_mem _ hentry, hid'.1 entry hentry⟩
    · exact fun entry hentry => .inl ⟨hentry, hid'.2 entry hentry⟩
    · exact fun hne => absurd rfl (hne _ rfl)
    · rintro _ ⟨⟩
      refine ⟨rfl, hid, { t' with state := .running }, c, ?_, ⟨hmakes.1, hmakes.2, hmakes.3⟩, rfl,
        hcode, ?_⟩
      · refine (hupdate id).trans ?_
        rw [if_pos rfl, hfound]
        rfl
      · rw [history, history_append, if_pos rfl]
        exact hinturn

/-! ### Between turns -/

/-- What recording the end of a turn makes of the schedule. -/
theorem record_schedule (vm : Vm σ) (id : TaskId) (o : Outcome) :
    (stateOf (Vm.record id o vm)).schedule =
      match o with
      | .awaits v => (vm.schedule.update id o.settle).await vm.world.heap id v
      | _ => vm.schedule.update id o.settle := by
  cases o with
  | failed f => rfl
  | completed v =>
    exact vm.schedule.update_update id (f := fun t => { t with state := .completed v }) (fun _ => rfl) _
  | threw e => exact vm.schedule.update_update id (f := fun t => { t with state := .threw e }) (fun _ => rfl) _
  | yields v =>
    refine ((vm.schedule.update id Task.recordYield).update_update id
      (f := fun t => { t with state := .yielded v }) (fun _ => rfl) _).trans ?_
    exact vm.schedule.update_update id (f := Task.recordYield) (fun _ => rfl) _
  | awaits v =>
    have hschedule : (stateOf (Vm.record id (.awaits v) vm)).schedule =
        ((vm.schedule.update id Task.recordAwait).update id fun t => { t with state := .awaiting }).await
          vm.world.heap id v := rfl
    rw [hschedule, vm.schedule.update_update id (f := Task.recordAwait) fun _ => rfl]
    rfl

/-- What recording the end of a turn makes of a machine: of the task, and of the queue. -/
theorem record_spec (vm : Vm σ) (id : TaskId) (o : Outcome) :
    (∀ id', (stateOf (Vm.record id o vm)).schedule.get? id' =
        if id' = id then (vm.schedule.get? id').map o.settle else vm.schedule.get? id') ∧
      (stateOf (Vm.record id o vm)).nextTask = vm.nextTask ∧
      (stateOf (Vm.record id o vm)).options = vm.options ∧
      (stateOf (Vm.record id o vm)).world = vm.world ∧
      (o.state ≠ .awaiting ∧ (stateOf (Vm.record id o vm)).schedule.ready = vm.schedule.ready ∧
          (stateOf (Vm.record id o vm)).schedule.waiting = vm.schedule.waiting ∨
        (∃ v mode, o = .awaits v ∧ Schedule.answer? vm.world.heap v = some mode ∧
          (stateOf (Vm.record id o vm)).schedule.ready = vm.schedule.ready ++ [(id, mode)] ∧
          (stateOf (Vm.record id o vm)).schedule.waiting = vm.schedule.waiting) ∨
        ∃ p, o = .awaits (.promise p) ∧
          (stateOf (Vm.record id o vm)).schedule.ready = vm.schedule.ready ∧
          (stateOf (Vm.record id o vm)).schedule.waiting = vm.schedule.waiting ++ [(id, p)]) := by
  have hget := vm.schedule.get?_update id o.settle_id
  have hschedule := record_schedule vm id o
  cases o with
  | completed v | threw e | failed f | yields v =>
    rw [hschedule]
    exact ⟨hget, rfl, rfl, rfl, .inl ⟨nofun, rfl, rfl⟩⟩
  | awaits v =>
    simp only at hschedule
    rw [hschedule]
    rcases (vm.schedule.update id (Outcome.awaits v).settle).await_cases vm.world.heap id v with
      ⟨mode, hmode, heq⟩ | ⟨p, rfl, heq⟩
    · rw [heq]
      exact ⟨hget, rfl, rfl, rfl, .inr (.inl ⟨v, mode, rfl, hmode, rfl, rfl⟩)⟩
    · rw [heq]
      exact ⟨hget, rfl, rfl, rfl, .inr (.inr ⟨p, rfl, rfl, rfl⟩)⟩

theorem record_globals (vm : Vm σ) (id : TaskId) (o : Outcome) :
    (stateOf (Vm.record id o vm)).globals = vm.globals := by cases o <;> rfl

/-- A turn has ended. -/
theorem Sane.record {o : Outcome} {a : Activation σ}
    (h : Sane Ω P ⟨vm, some ⟨id, code, .halted o a⟩, log⟩) :
    Sane Ω P (.idle (stateOf (Vm.record id o (vm.leave id a))) log) := by
  obtain ⟨hid, t, c, hget, hmakes, -, hcode, hturn⟩ := h.turn _ rfl
  obtain ⟨hready, hwaiting⟩ := not_mem_queued.mp hid
  obtain ⟨hgets, hnext, hoptions, -, hqueue⟩ := record_spec (vm.leave id a) id o
  have hleave := Schedule.get?_update vm.schedule id (f := fun t => { t with frame := a.frame })
    fun _ => rfl
  generalize hvm : stateOf (Vm.record id o (vm.leave id a)) = vm' at hgets hnext hoptions hqueue ⊢
  let t' := o.settle { t with frame := a.frame }
  have hkind : t'.kind = t.kind := o.settle_kind _
  have hframe : t'.frame = a.frame := o.settle_frame _
  have hstate : t'.state = o.state := o.settle_state _
  have hmakes' : Makes Ω c t' := ⟨hmakes.1, hmakes.2, hkind.trans hmakes.3⟩
  have hget' : vm'.schedule.get? id = some t' := by
    rw [hgets, if_pos rfl, show (vm.leave id a).schedule.get? id = _ from hleave id, if_pos rfl,
      show vm.schedule.get? id = some t from hget]
    rfl
  have hhistory : (idle vm' log).history id = history ⟨vm, some ⟨id, code, .halted o a⟩, log⟩ id := rfl
  have hcapacity : vm'.options.stackCapacity = vm.options.stackCapacity := by
    rw [hoptions]
    rfl
  have hsession : ∀ v, o = .awaits v → ∃ s, Lives Ω P vm'.options.stackCapacity c s ∧
      s.control = .ended (.awaits v) ∧ t'.frame = s.frame ∧ s.trace = (idle vm' log).history id := by
    rintro v rfl
    obtain ⟨s, hlives, htrace, -, -, ⟨hs, hsame⟩ | ⟨_, _, _, _, habsurd, _⟩⟩ := hturn
    · exact ⟨s, hcapacity ▸ hlives, hs, hframe.trans hsame.symm, htrace⟩
    · cases habsurd
  have hawaiting : ∀ v, o = .awaits v → t'.state = .awaiting := by
    rintro v rfl
    exact hstate
  have hdue : ∀ v mode, o = .awaits v → Schedule.answer? a.world.heap v = some mode →
      Due Ω P (idle vm' log) id mode := by
    intro v mode ho hmode
    obtain ⟨a', rfl, ha⟩ := Schedule.accept_of_answer? hmode
    obtain ⟨s, hlives, hs, hframe, htrace⟩ := hsession v ho
    refine ⟨t', c, hget', hmakes', ?_⟩
    rw [← htrace]
    exact .awaited hlives hs hframe (hawaiting v ho) ha
  have hwaits : ∀ p, o = .awaits (.promise p) → Waits Ω P (idle vm' log) id p := fun p ho =>
    ⟨t', c, hget', hmakes', hsession _ ho, hawaiting _ ho⟩
  refine h.change id hnext hcapacity (fun id' hne => ?_) ?_ [] (List.append_nil _).symm ?_ ?_ ?_ ?_ ?_ Moment.no_turn
  · show vm'.schedule.get? id' = vm.schedule.get? id'
    rw [hgets, if_neg hne, show (vm.leave id a).schedule.get? id' = _ from hleave id', if_neg hne]
  · exact Option.isSome_iff_exists.mpr ⟨t, hget⟩
  · have hnodup : vm.schedule.queued.Nodup := h.queue
    have hnew : (id :: vm.schedule.queued).Nodup := List.nodup_cons.mpr ⟨hid, hnodup⟩
    show vm'.schedule.queued.Nodup
    unfold Schedule.queued at hnodup hnew ⊢
    rcases hqueue with ⟨-, hr, hw⟩ | ⟨_, mode, -, -, hr, hw⟩ | ⟨p, -, hr, hw⟩
    · rw [hr, hw]
      exact hnodup
    · rw [hr, hw, List.map_append, List.append_assoc]
      exact (List.perm_middle.nodup_iff).mpr hnew
    · rw [hr, hw, List.map_append, ← List.append_assoc]
      exact ((List.perm_append_singleton _ _).nodup_iff).mpr hnew
  · intro entry hentry
    change entry ∈ vm'.schedule.ready at hentry
    rcases hqueue with ⟨-, hr, -⟩ | ⟨v, mode, ho, hmode, hr, -⟩ | ⟨p, -, hr, -⟩
    · rw [hr] at hentry
      exact .inl ⟨hentry, hready entry hentry⟩
    · rw [hr] at hentry
      rcases List.mem_append.mp hentry with hentry | hentry
      · exact .inl ⟨hentry, hready entry hentry⟩
      · rw [List.mem_singleton.mp hentry]
        exact .inr (hdue v mode ho hmode)
    · rw [hr] at hentry
      exact .inl ⟨hentry, hready entry hentry⟩
  · intro entry hentry
    change entry ∈ vm'.schedule.waiting at hentry
    rcases hqueue with ⟨-, -, hw⟩ | ⟨_, _, -, -, -, hw⟩ | ⟨p, ho, -, hw⟩
    · rw [hw] at hentry
      exact .inl ⟨hentry, hwaiting entry hentry⟩
    · rw [hw] at hentry
      exact .inl ⟨hentry, hwaiting entry hentry⟩
    · rw [hw] at hentry
      rcases List.mem_append.mp hentry with hentry | hentry
      · exact .inl ⟨hentry, hwaiting entry hentry⟩
      · rw [List.mem_singleton.mp hentry]
        exact .inr (hwaits p ho)
  · rintro _ ⟨⟩
    rfl
  · intro _ t'' hget''
    obtain rfl : t' = t'' := Option.some.inj (hget'.symm.trans hget'')
    refine ⟨c, hmakes', ?_⟩
    rw [hhistory, show (idle vm' log).vm.options.stackCapacity = _ from hcapacity]
    refine hturn.life hframe ?_
    rw [hstate]
    exact .state o

/-- A call that is created: a function of the module that was found by its name. -/
theorem spawn_eq_ok {m : Module} {name : String} {args : List Value}
    (h : Vm.spawn m name args vm = .ok id vm') :
    ∃ c : Call, c.unit = m ∧ c.args = args ∧ c.function.name = name ∧ id = ⟨vm.nextTask⟩ ∧
      vm'.nextTask = vm.nextTask + 1 ∧ vm'.options = vm.options ∧
      (∃ t, t.state = .created ∧ t.kind = c.function.kind ∧
        t.frame = c.first vm.options.stackCapacity ∧
        ∀ id', vm'.schedule.get? id' = if id' = id then some t else vm.schedule.get? id') ∧
      vm'.schedule.ready = vm.schedule.ready ++
        (if c.function.kind.isGenerator then [] else [(id, .start)]) ∧
      vm'.schedule.waiting = vm.schedule.waiting := by
  unfold Vm.spawn at h
  cases hindex : m.functions.findIdx? (·.name == name) with
  | none =>
    simp only [hindex] at h
    cases h
  | some index =>
    cases hf : m.function? name with
    | none =>
      simp only [hindex, hf] at h
      cases h
    | some f =>
      have hfound : m.functions[index]? = some f := by
        have hfind : m.functions.find? (·.name == name) = some f := hf
        rwa [List.find?_eq_bind_findIdx?_getElem?, hindex] at hfind
      have hname : f.name = name := by simpa using List.find?_some hf
      let c : Call := ⟨m, index, f, args, hfound⟩
      let t := Task.create ⟨vm.nextTask⟩ f (c.first vm.options.stackCapacity)
      have hget := Schedule.get?_insert (s := vm.schedule) t
      simp only [hindex, hf] at h
      cases hkind : f.kind.isGenerator with
      | true =>
        simp only [hkind] at h
        cases h
        refine ⟨c, rfl, rfl, hname, rfl, rfl, rfl, ⟨t, rfl, rfl, rfl, hget⟩, ?_, rfl⟩
        rw [if_pos hkind, List.append_nil]
        rfl
      | false =>
        simp only [hkind] at h
        cases h
        refine ⟨c, rfl, rfl, hname, rfl, rfl, rfl, ⟨t, rfl, rfl, rfl, hget⟩, ?_, rfl⟩
        rw [if_neg (by rw [hkind]; nofun)]
        rfl

/-- The function that is called is the first one of this name. -/
theorem spawn_index {m : Module} {name : String} {args : List Value} (h : Vm.spawn m name args vm = .ok id vm') :
    ∃ index, m.functions.findIdx? (·.name == name) = some index ∧
      ∀ t, vm'.schedule.get? id = some t → t.frame.functionIndex = index := by
  unfold Vm.spawn at h
  cases hindex : m.functions.findIdx? (·.name == name) with
  | none =>
    simp only [hindex] at h
    cases h
  | some index =>
    refine ⟨index, rfl, fun t ht => ?_⟩
    cases hf : m.function? name with
    | none =>
      simp only [hindex, hf] at h
      cases h
    | some f =>
      simp only [hindex, hf] at h
      let t' := Task.create ⟨vm.nextTask⟩ f (Frame.start m index args vm.options.stackCapacity)
      have hget : (vm.schedule.insert t').get? ⟨vm.nextTask⟩ = some t' :=
        (Schedule.get?_insert t' ⟨vm.nextTask⟩).trans (if_pos rfl)
      cases hkind : f.kind.isGenerator <;> simp only [hkind] at h <;> cases h <;>
        exact (Option.some.inj (hget.symm.trans ht)) ▸ rfl

/-- Calling a function changes neither the world nor the globals. -/
theorem spawn_surroundings {m : Module} {name : String} {args : List Value}
    (h : Vm.spawn m name args vm = .ok id vm') : vm'.world = vm.world ∧ vm'.globals = vm.globals := by
  unfold Vm.spawn at h
  cases hindex : m.functions.findIdx? (·.name == name) with
  | none =>
    simp only [hindex] at h
    cases h
  | some index =>
    cases hf : m.function? name with
    | none =>
      simp only [hindex, hf] at h
      cases h
    | some f =>
      simp only [hindex, hf] at h
      cases hkind : f.kind.isGenerator <;> simp only [hkind] at h <;> cases h <;> exact ⟨rfl, rfl⟩

/-- A task is created. -/
theorem Sane.spawn {m : Module} {name : String} {args : List Value} (h : Sane Ω P (.idle vm log))
    (hm : Ω.loaded m) (hargs : ∀ v ∈ args, Ω.supplies v) (hdone : Vm.spawn m name args vm = .ok id vm') :
    Sane Ω P (.idle vm' log) := by
  obtain ⟨c, hunit, rfl, -, rfl, hnext, hoptions, ⟨t, hstate, hkind, hframe, hget⟩, hready, hwaiting⟩ :=
    spawn_eq_ok hdone
  have hnew : vm.schedule.get? ⟨vm.nextTask⟩ = none := h.get?_next
  have hmakes : Makes Ω c t := ⟨hunit ▸ hm, hargs, hkind⟩
  have hhistory : (Moment.idle vm' log).history ⟨vm.nextTask⟩ = [] := h.history_next
  have hagree : ∀ id', id' ≠ ⟨vm.nextTask⟩ → Agree (.idle vm log) (.idle vm' log) id' := fun id' hne =>
    ⟨by rw [show (Moment.idle vm' log).vm.schedule.get? id' = _ from hget id', if_neg hne]; rfl, rfl,
      congrArg VmOptions.stackCapacity hoptions⟩
  have hknown : ∀ {id'}, (vm.schedule.get? id').isSome → id' ≠ ⟨vm.nextTask⟩ := by
    rintro id' hsome rfl
    rw [hnew] at hsome
    cases hsome
  have hfresh : Life Ω P (Moment.idle vm' log).vm.options.stackCapacity c t [] :=
    .fresh (by rw [hframe]; exact congrArg _ (congrArg VmOptions.stackCapacity hoptions.symm)) (.inl hstate)
  refine ⟨?_, ?_, ?_, ?_, ?_, ?_, Moment.no_turn⟩
  · intro id' hid'
    change (vm'.schedule.get? id').isSome at hid'
    change id'.number < vm'.nextTask
    rw [hnext]
    rw [hget] at hid'
    split at hid'
    · rename_i heq
      rw [heq]
      exact Nat.lt_succ_self _
    · exact Nat.lt_succ_of_lt (h.below id' hid')
  · intro entry hentry
    change entry.1.number < vm'.nextTask
    rw [hnext]
    exact Nat.lt_succ_of_lt (h.logged entry hentry)
  · have hnodup : vm.schedule.queued.Nodup := h.queue
    have hid : (⟨vm.nextTask⟩ : TaskId) ∉ vm.schedule.queued := by
      rw [not_mem_queued]
      exact ⟨fun entry hentry => hknown (h.due entry hentry).isSome,
        fun entry hentry => hknown (h.parked entry hentry).isSome⟩
    show vm'.schedule.queued.Nodup
    unfold Schedule.queued at hnodup hid ⊢
    rw [hready, hwaiting]
    split
    · rwa [List.append_nil]
    · rw [List.map_append, List.append_assoc]
      exact (List.perm_middle.nodup_iff).mpr (List.nodup_cons.mpr ⟨hid, hnodup⟩)
  · intro entry hentry
    change entry ∈ vm'.schedule.ready at hentry
    rw [hready] at hentry
    rcases List.mem_append.mp hentry with hentry | hentry
    · have hdue := h.due entry hentry
      exact hdue.agree (hagree _ (hknown hdue.isSome))
    · split at hentry
      · cases hentry
      · rename_i hkind'
        rw [List.mem_singleton.mp hentry]
        refine ⟨t, c, (hget _).trans (if_pos rfl), hmakes, ?_⟩
        rw [hhistory]
        refine .start (by rw [hframe]; exact congrArg _ (congrArg VmOptions.stackCapacity hoptions.symm))
          (.inl ⟨hstate, ?_⟩)
        rw [hkind]
        exact Bool.eq_false_iff.mpr hkind'
  · intro entry hentry
    change entry ∈ vm'.schedule.waiting at hentry
    rw [hwaiting] at hentry
    have hparked := h.parked entry hentry
    exact hparked.agree (hagree _ (hknown hparked.isSome))
  · intro id' _
    by_cases hid' : id' = ⟨vm.nextTask⟩
    · rw [hid']
      intro t' ht'
      obtain rfl : t = t' := Option.some.inj (((hget _).trans (if_pos rfl)).symm.trans ht')
      refine ⟨c, hmakes, ?_⟩
      rw [hhistory]
      exact hfresh
    · exact (h.resting id' Moment.no_turn).agree (hagree id' hid')

/-- A generator that is not running is not queued. -/
theorem Sane.not_queued {t : Task} (h : Sane Ω P (.idle vm log)) (hget : vm.schedule.get? id = some t)
    (hkind : t.kind.isGenerator = true) (hrunning : t.state ≠ .running) (hawaiting : t.state ≠ .awaiting) :
    id ∉ vm.schedule.queued := by
  rw [not_mem_queued]
  refine ⟨?_, ?_⟩
  · rintro ⟨_, mode⟩ hentry rfl
    obtain ⟨t', c, hget', -, htakes⟩ := h.due _ hentry
    obtain rfl : t = t' := Option.some.inj (hget.symm.trans hget')
    rcases htakes.state with h | h | ⟨-, h⟩
    · exact hrunning h
    · exact hawaiting h
    · simp [hkind] at h
  · rintro ⟨_, promise⟩ hentry rfl
    obtain ⟨t', c, hget', -, hparked⟩ := h.parked _ hentry
    obtain rfl : t = t' := Option.some.inj (hget.symm.trans hget')
    exact hawaiting hparked.state

/-- A generator is prepared: it is queued again, or closed before it was started, or left
as it is. -/
theorem prepareGenerator_cases {t : Task} {mode : Resume} (hid : t.id = id)
    (h : Vm.prepareGenerator t mode vm = .ok () vm') :
    (∃ state, (t.state = .created ∧ (∃ v, mode = .ret v ∧ state = .completed v) ∨
        t.state = .created ∧ ∃ e, mode = .throw e ∧ state = .threw e) ∧
      vm' = { vm with schedule := vm.schedule.update id fun t => { t with state, status := state.status } }) ∨
    (∃ mode' g, t.Revives mode' g ∧ t.refusal mode = [] ∧
      (∀ v, mode'.value? = some v → mode.value? = some v ∨ v = .undefined) ∧
      vm' = { vm with schedule := (vm.schedule.update id g).enqueue id mode' }) ∨
    vm' = vm ∧ t.refusal mode = [] := by
  subst hid
  unfold Vm.prepareGenerator at h
  cases hstate : t.state with
  | created =>
    cases mode with
    | ret v =>
      rw [hstate] at h
      cases h
      refine .inl ⟨.completed v, .inl ⟨rfl, v, rfl, rfl⟩, ?_⟩
      exact congrArg (fun schedule => { vm with schedule }) (vm.schedule.update_update t.id
        (f := fun t => { t with state := .completed v }) (fun _ => rfl) _)
    | throw e =>
      rw [hstate] at h
      cases h
      refine .inl ⟨.threw e, .inr ⟨rfl, e, rfl, rfl⟩, ?_⟩
      exact congrArg (fun schedule => { vm with schedule }) (vm.schedule.update_update t.id
        (f := fun t => { t with state := .threw e }) (fun _ => rfl) _)
    | start | next v =>
      rw [hstate] at h
      cases h
      exact .inr (.inl ⟨.start, _, .start hstate, by simp [Task.refusal, hstate], nofun, rfl⟩)
  | yielded v =>
    have hnone : ∀ mode, t.refusal mode = [] := fun mode => by simp [Task.refusal, hstate]
    have hqueue (mode' : Resume) : ((vm.schedule.update t.id fun t => { t with state := .running }).update t.id
        fun t => { t with status := .pending }).enqueue t.id mode' =
        (vm.schedule.update t.id fun t => { t with state := .running, status := .pending }).enqueue t.id mode' :=
      congrArg (Schedule.enqueue · t.id mode') (vm.schedule.update_update t.id
        (f := fun t => { t with state := .running }) (fun _ => rfl) _)
    rw [hstate] at h
    cases h
    refine .inr (.inl ⟨_, _, ?_, hnone _, ?_, congrArg (fun schedule => { vm with schedule }) (hqueue _)⟩)
    · cases mode with
      | start => exact .again (.next .undefined) hstate
      | next w => exact .again (.next w) hstate
      | throw e => exact .again (.throw e) hstate
      | ret w => exact .again (.ret w) hstate
    · cases mode with
      | start => exact fun w hw => .inr (Option.some.inj hw).symm
      | next w | throw w | ret w => exact fun _ hw => .inl hw
  | running | awaiting =>
    rw [hstate] at h
    cases h
  | completed v | threw e | failed =>
    rw [hstate] at h
    cases h
    exact .inr (.inr ⟨rfl, by simp [Task.refusal, hstate]⟩)

/-- A generator is prepared to be resumed. -/
theorem Sane.prepare {t : Task} {mode : Resume} (h : Sane Ω P (.idle vm log))
    (hget : vm.schedule.get? id = some t) (hkind : t.kind.isGenerator = true)
    (hdone : Vm.prepareGenerator t mode vm = .ok () vm') :
    Sane Ω P (.idle vm' (log ++ id.events (t.refusal mode))) := by
  obtain ⟨c, hmakes, hlife⟩ := h.resting id Moment.no_turn t hget
  have hknown : (vm.schedule.get? id).isSome := Option.isSome_iff_exists.mpr ⟨t, hget⟩
  rcases prepareGenerator_cases (Schedule.id_of_get? hget) hdone with
    ⟨state, hstate, rfl⟩ | ⟨mode', g, hrevives, hrefusal, -, rfl⟩ | ⟨rfl, hnone⟩
  · have hcreated : t.state = .created := by
      rcases hstate with ⟨hstate, -⟩ | ⟨hstate, -⟩ <;> exact hstate
    obtain ⟨hframe, hempty⟩ := hlife.of_created hcreated
    have hqueued := h.not_queued hget hkind (by rw [hcreated]; nofun) (by rw [hcreated]; nofun)
    obtain ⟨hready, hwaiting⟩ := not_mem_queued.mp hqueued
    have hupdate := Schedule.get?_update vm.schedule id
      (f := fun t => { t with state, status := state.status }) fun _ => rfl
    refine h.change id rfl rfl (fun id' hne => (hupdate id').trans (if_neg hne)) hknown _ rfl h.queue
      (fun entry hentry => .inl ⟨hentry, hready entry hentry⟩)
      (fun entry hentry => .inl ⟨hentry, hwaiting entry hentry⟩) Moment.no_turn ?_ Moment.no_turn
    intro _ t' ht'
    have ht := (hupdate id).trans ((if_pos rfl).trans (congrArg _ hget))
    obtain rfl := Option.some.inj (ht.symm.trans ht')
    refine ⟨c, ⟨hmakes.1, hmakes.2, hmakes.3⟩, ?_⟩
    have hhistory := history_append log id (t.refusal mode) id
    rw [if_pos rfl, show id.history log = [] from hempty, List.nil_append] at hhistory
    rw [show (Moment.idle _ _).history id = _ from hhistory]
    rcases hstate with ⟨-, v, rfl, rfl⟩ | ⟨-, e, rfl, rfl⟩
    · simp only [Task.refusal, hcreated]
      exact .closed hframe rfl
    · simp only [Task.refusal, hcreated]
      exact .refused hframe rfl
  · have hidle : t.state ≠ .running ∧ t.state ≠ .awaiting := by
      cases hrevives with
      | start hstate | again _ hstate => simp [hstate]
    have hqueued := h.not_queued hget hkind hidle.1 hidle.2
    obtain ⟨hready, hwaiting⟩ := not_mem_queued.mp hqueued
    have hupdate := Schedule.get?_update vm.schedule id hrevives.id
    have ht := (hupdate id).trans ((if_pos rfl).trans (congrArg _ hget))
    rw [hrefusal, TaskId.events, List.map_nil, List.append_nil]
    have hmakes' : Makes Ω c (g t) := ⟨hmakes.1, hmakes.2, (hrevives.kind t).trans hmakes.3⟩
    have hlives : Life Ω P vm.options.stackCapacity c (g t) ((Moment.idle vm log).history id) ∧
        Takes Ω P vm.options.stackCapacity c (g t) ((Moment.idle vm log).history id) mode' := by
      cases hrevives with
      | start hcreated =>
        obtain ⟨hframe, hempty⟩ := hlife.of_created hcreated
        rw [hempty]
        exact ⟨.fresh hframe (.inr rfl), .start hframe (.inr rfl)⟩
      | again a hyielded =>
        obtain ⟨s, hlives, hs, hframe, htrace⟩ := hlife.of_yielded hyielded
        rw [← htrace]
        exact ⟨.stopped hlives hs hframe .resumed, .yielded hlives hs hframe rfl⟩
    refine h.change id rfl rfl (fun id' hne => (hupdate id').trans (if_neg hne)) hknown []
      (List.append_nil _).symm ?_ ?_ (fun entry hentry => .inl ⟨hentry, hwaiting entry hentry⟩) Moment.no_turn
      ?_ Moment.no_turn
    · have hnodup : vm.schedule.queued.Nodup := h.queue
      unfold Schedule.queued at hnodup hqueued
      show ((vm.schedule.ready ++ [(id, mode')]).map Prod.fst ++ vm.schedule.waiting.map Prod.fst).Nodup
      rw [List.map_append, List.append_assoc]
      exact (List.perm_middle.nodup_iff).mpr (List.nodup_cons.mpr ⟨hqueued, hnodup⟩)
    · intro entry hentry
      rcases List.mem_append.mp hentry with hentry | hentry
      · exact .inl ⟨hentry, hready entry hentry⟩
      · rw [List.mem_singleton.mp hentry]
        exact .inr ⟨_, c, ht, hmakes', hlives.2⟩
    · intro _ t' ht'
      obtain rfl := Option.some.inj (ht.symm.trans ht')
      exact ⟨c, hmakes', hlives.1⟩
  · rw [hnone, TaskId.events, List.map_nil, List.append_nil]
    exact h

/-- Tasks whose promises have settled are queued. -/
theorem Sane.promote (h : Sane Ω P (.idle vm log)) :
    Sane Ω P (.idle { vm with schedule := (vm.schedule.promote vm.world.heap).2 } log) := by
  have hqueued := vm.schedule.queued_promote vm.world.heap
  have heq := vm.schedule.promote_eq vm.world.heap
  generalize (vm.schedule.promote vm.world.heap).2 = schedule at hqueued heq
  have hagree : ∀ id, Agree (.idle vm log) (.idle { vm with schedule } log) id := fun id =>
    ⟨by rw [heq]; rfl, rfl, rfl⟩
  refine ⟨?_, h.logged, hqueued.nodup_iff.mpr h.queue, ?_, ?_, ?_, Moment.no_turn⟩
  · intro id hid
    rw [(hagree id).task] at hid
    exact h.below id hid
  · intro entry hentry
    have hentry : entry ∈ schedule.ready := hentry
    rw [heq] at hentry
    rcases List.mem_append.mp hentry with hentry | hentry
    · exact (h.due entry hentry).agree (hagree _)
    · obtain ⟨⟨id, promise⟩, hparked, hmode⟩ := List.mem_filterMap.mp hentry
      obtain ⟨mode, hanswer, rfl⟩ := Option.map_eq_some_iff.mp hmode
      obtain ⟨t, c, hget, hmakes, ⟨s, hlives, hs, hframe, htrace⟩, hstate⟩ := h.parked _ hparked
      have hdue : Due Ω P (.idle vm log) id mode := by
        refine ⟨t, c, hget, hmakes, ?_⟩
        obtain ⟨a, rfl, ha⟩ := Schedule.accept_of_answer? (v := .promise promise) hanswer
        rw [← htrace]
        exact .awaited hlives hs hframe hstate ha
      exact hdue.agree (hagree _)
  · intro entry hentry
    have hentry : entry ∈ schedule.waiting := hentry
    rw [heq] at hentry
    exact (h.parked entry (List.mem_filter.mp hentry).1).agree (hagree _)
  · exact fun id _ => (h.resting id Moment.no_turn).agree (hagree _)

/-- The host changes the world and the globals. -/
theorem Sane.surroundings {world : World σ} {globals : Globals} (h : Sane Ω P (.idle vm log)) :
    Sane Ω P (.idle { vm with world, globals } log) := by
  have hagree : ∀ id, Agree (.idle vm log) (.idle { vm with world, globals } log) id := fun _ =>
    ⟨rfl, rfl, rfl⟩
  exact ⟨h.below, h.logged, h.queue, fun entry hentry => (h.due entry hentry).agree (hagree _),
    fun entry hentry => (h.parked entry hentry).agree (hagree _),
    fun id _ => (h.resting id Moment.no_turn).agree (hagree _), Moment.no_turn⟩

/-- Every step leaves a machine in order. -/
theorem Sane.step {μ μ' : Moment σ} (h : Sane Ω P μ) (hfit : Fit P μ) (hstep : Step Ω μ μ') :
    Sane Ω P μ' := by
  cases hstep with
  | spawn loaded supplied done => exact h.spawn loaded supplied done
  | surroundings => exact h.surroundings
  | prepare _ found generator done => exact h.prepare found generator done
  | promote => exact h.promote
  | begin first found function => exact h.begin hfit first found function
  | instruct =>
    refine h.goOn _ _ rfl rfl rfl rfl ?_
    rintro c rfl es hturn
    exact hturn.instruct
  | @exhaust vm log id code pc b a hb =>
    have hgo := h.goOn [] (.halted (.failed (.budgetExceeded b)) (a.keepIp pc)) rfl rfl rfl rfl
      fun c _ es hturn => by
        rw [List.append_nil]
        exact hturn.exhaust (Option.filter_eq_some_iff.mp hb).1
    rwa [TaskId.events, List.map_nil, List.append_nil] at hgo
  | record => exact h.record

/-- A machine is in order at every moment. -/
theorem Reached.sane {μ : Moment σ} (h : Reached Ω μ) : Sane Ω (fun _ _ _ => True) μ := by
  obtain ⟨options, world, -, h⟩ := h
  induction h with
  | refl => exact .create options world
  | tail _ hstep ih => exact ih.step (fun _ _ _ => trivial) hstep

end Moment
end ResourceMachine
