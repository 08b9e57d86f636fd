/-
# What is counted

A machine counts the tasks that were created, their awaits and the values that they handed
out, and each turn that ends with a result or with an exception. Each step moves a count
just as it moves what the tasks themselves show, with one exception: a generator that the
host closes, or into which it throws, before it was started is finished without a turn, and
that is not counted. So the counts of finished tasks fall short by the number of such
generators, which the log tells apart: nothing but that resumption ever happens to them.

Key definitions: `Closed`, `Refused`, `Tally`, `Tally.Fair`.
Key theorems: `Tally.Fair.counts`, `Moment.Reached.stats_counted`.
-/
import ResourceMachine.Proofs.Resumption
import ResourceMachine.Proofs.TaskInvariant

namespace ResourceMachine

variable {σ : Type}

/-! ### What happens first -/

/-- What happens first is no resumption. -/
def Unprompted (es : List Event) : Prop := ∀ a, es.head? ≠ some (.resume a)

theorem Unprompted.nil : Unprompted [] := nofun

theorem Unprompted.append {es es' : List Event} (h : Unprompted es) (h' : es = [] → Unprompted es') :
    Unprompted (es ++ es') := by
  cases es with
  | nil => exact h' rfl
  | cons e es => exact h

theorem Unprompted.of_not_mem {es : List Event} (h : ∀ a, .resume a ∉ es) : Unprompted es :=
  fun a ha => h a (List.mem_of_mem_head? ha)

namespace Session

variable {host : Host σ} {code : Bytes} {k : Nat} {s s' : Session σ}

/-- A call is resumed only where it was suspended. -/
theorem unprompted_step (h : s.step host code = some s') (hs : Unprompted s.trace) :
    Unprompted s'.trace := by
  unfold step at h
  split at h
  · cases h
  · rename_i pc hcontrol
    obtain rfl := Option.some.inj h
    have hacts : Unprompted (s.trace ++ Activation.events ⟨host, s.globals⟩ code pc ⟨s.frame, s.world⟩) :=
      hs.append fun _ => .of_not_mem fun a => Activation.resume_not_mem_events a
    cases hstep : Activation.step ⟨host, s.globals⟩ code pc ⟨s.frame, s.world⟩ with
    | running pc' a => exact hacts
    | halted o a =>
      match ho : o.suspension?, hscript : s.script with
      | some p, r :: rest =>
        have hsuspended := Activation.events_of_suspended hstep ho
        simp only [proceed, halt, ho, update, reply, route_trace]
        exact hacts.append fun hnil => by simp [hsuspended] at hnil
      | none, _ | some _, [] =>
        simp only [proceed, halt, ho, update]
        exact hacts

theorem unprompted_steps (h : Steps host code k s s') (hs : Unprompted s.trace) :
    Unprompted s'.trace := by
  induction h with
  | refl => exact hs
  | step head _ ih => exact ih (unprompted_step head hs)

end Session

/-- A generator was closed before it was started: nothing else ever happened to it. -/
def Closed (es : List Event) : Bool :=
  match es with
  | [.resume (.ret _)] => true
  | _ => false

/-- An exception was thrown into a generator before it was started. -/
def Refused (es : List Event) : Bool :=
  match es with
  | [.resume (.throw _)] => true
  | _ => false

theorem Unprompted.not_closed {es : List Event} (h : Unprompted es) : Closed es = false := by
  unfold Closed
  split
  · exact absurd rfl (h _)
  · rfl

theorem Unprompted.not_refused {es : List Event} (h : Unprompted es) : Refused es = false := by
  unfold Refused
  split
  · exact absurd rfl (h _)
  · rfl

namespace Moment

variable {Ω : Surroundings σ} {μ : Moment σ} {id : TaskId} {t : Task}

/-- Nothing happened to a task that is only created. -/
theorem Sane.created {P : Resume → World σ → Globals → Prop} (h : Sane Ω P μ)
    (hget : μ.vm.schedule.get? id = some t) (hstate : t.state = .created) : μ.history id = [] := by
  have hturn : ∀ turn, μ.turn = some turn → turn.id ≠ id := by
    rintro turn hturn rfl
    obtain ⟨-, t', c, hget', -, hrunning, -⟩ := h.turn turn hturn
    obtain rfl : t = t' := Option.some.inj (hget.symm.trans hget')
    cases hstate.symm.trans hrunning
  obtain ⟨c, -, hlife⟩ := h.resting id hturn t hget
  exact (hlife.of_created hstate).2

/-- What a task had a part in begins with no resumption, unless it was finished before it was
started. -/
theorem Sane.unprompted {P : Resume → World σ → Globals → Prop} (h : Sane Ω P μ)
    (hget : μ.vm.schedule.get? id = some t) : Unprompted (μ.history id) ∨
      (∃ v, t.state = .completed v ∧ μ.history id = [.resume (.ret v)]) ∨
      ∃ e, t.state = .threw e ∧ μ.history id = [.resume (.throw e)] := by
  obtain ⟨c, -, ⟨-, hunstarted⟩ | ⟨s, ⟨k, world, globals, script, -, -, hrun, -⟩, hshows⟩⟩ := h.task hget
  · generalize μ.history id = es at hunstarted
    cases hunstarted with
    | fresh => exact .inl .nil
    | closed state => exact .inr (.inl ⟨_, state, rfl⟩)
    | refused state => exact .inr (.inr ⟨_, state, rfl⟩)
  · rw [← hshows.trace]
    exact .inl (Session.unprompted_steps hrun .nil)

theorem Sane.unprompted_of_running {P : Resume → World σ → Globals → Prop} (h : Sane Ω P μ)
    (hget : μ.vm.schedule.get? id = some t) (hstate : t.state = .running) : Unprompted (μ.history id) := by
  rcases h.unprompted hget with hes | ⟨v, hcompleted, -⟩ | ⟨e, hthrew, -⟩
  · exact hes
  · cases hstate.symm.trans hcompleted
  · cases hstate.symm.trans hthrew

theorem Sane.returned_of_closed {P : Resume → World σ → Globals → Prop} (h : Sane Ω P μ)
    (hget : μ.vm.schedule.get? id = some t) (hclosed : Closed (μ.history id) = true) :
    t.state.returned?.isSome = true := by
  rcases h.unprompted hget with hes | ⟨v, hcompleted, -⟩ | ⟨e, -, hes⟩
  · rw [hes.not_closed] at hclosed
    cases hclosed
  · rw [hcompleted]
    rfl
  · rw [hes] at hclosed
    cases hclosed

theorem Sane.thrown_of_refused {P : Resume → World σ → Globals → Prop} (h : Sane Ω P μ)
    (hget : μ.vm.schedule.get? id = some t) (hrefused : Refused (μ.history id) = true) :
    t.state.thrown?.isSome = true := by
  rcases h.unprompted hget with hes | ⟨v, -, hes⟩ | ⟨e, hthrew, -⟩
  · rw [hes.not_refused] at hrefused
    cases hrefused
  · rw [hes] at hrefused
    cases hrefused
  · rw [hthrew]
    rfl

end Moment

/-! ### Counts -/

/-- A count, and what each task adds to it. -/
structure Tally where
  counter : VmStats → Nat
  share : Task → List Event → Nat

/-- A count that moves as the shares of the tasks do. -/
structure Tally.Fair (τ : Tally) : Prop where
  zero : τ.counter .zero = 0
  spawned : ∀ s, τ.counter { s with tasksSpawned := s.tasksSpawned + 1 } = τ.counter s
  created : ∀ t, t.state = .created → t.awaitCount = 0 → t.yieldCount = 0 → τ.share t [] = 0
  becomes : ∀ {t t' s s' es es'}, t.Becomes s es' s' t' → (t.state = .created → es = []) →
    (t.state = .running → Unprompted es) →
    τ.counter s' + τ.share t es = τ.counter s + τ.share t' (es ++ es')

namespace Tally

/-- Turns that ended with a result: one for each task that has returned, but for generators
that were closed before they were started. -/
def completed : Tally :=
  ⟨VmStats.tasksCompleted, fun t es => if t.state.returned?.isSome && !Closed es then 1 else 0⟩

/-- Turns that ended with an exception: one for each task that has thrown, but for generators
into which it was thrown before they were started. -/
def threw : Tally :=
  ⟨VmStats.tasksThrew, fun t es => if t.state.thrown?.isSome && !Refused es then 1 else 0⟩

/-- Awaits, of all tasks. -/
def awaits : Tally := ⟨VmStats.awaits, fun t _ => t.awaitCount⟩

/-- Values that were handed out, by all tasks. -/
def yields : Tally := ⟨VmStats.yields, fun t _ => t.yieldCount⟩

theorem awaits_fair : awaits.Fair where
  zero := rfl
  spawned _ := rfl
  created _ _ h _ := h
  becomes h _ _ := by
    cases h with
    | ends o =>
      cases o with
      | awaits v =>
        simp only [awaits, Outcome.count, Outcome.settle, Task.recordAwait]
        omega
      | _ => rfl
    | queued revives => cases revives <;> rfl
    | _ => rfl

theorem yields_fair : yields.Fair where
  zero := rfl
  spawned _ := rfl
  created _ _ _ h := h
  becomes h _ _ := by
    cases h with
    | ends o =>
      cases o with
      | yields v =>
        simp only [yields, Outcome.count, Outcome.settle, Task.recordYield]
        omega
      | _ => rfl
    | queued revives => cases revives <;> rfl
    | _ => rfl

theorem completed_fair : completed.Fair where
  zero := rfl
  spawned _ := rfl
  created t h _ _ := by simp [completed, h, TaskState.returned?]
  becomes {t t' s s' es es'} h hcreated hunprompted := by
    cases h with
    | closed v state => simp [completed, state, hcreated state, TaskState.returned?, Closed]
    | refused e state => simp [completed, state, TaskState.returned?]
    | queued revives =>
      cases revives with
      | start state | again _ state => simp [completed, state, TaskState.returned?]
    | begins mode state =>
      rcases state with state | state | ⟨state, -⟩ <;> simp [completed, state, TaskState.returned?]
    | acts state => simp [completed, state, TaskState.returned?]
    | ends o frame state =>
      have hclosed : Closed es = false := (hunprompted state).not_closed
      cases o <;>
        simp [completed, state, hclosed, Outcome.count, Outcome.settle, Outcome.state, TaskState.returned?]

theorem threw_fair : threw.Fair where
  zero := rfl
  spawned _ := rfl
  created t h _ _ := by simp [threw, h, TaskState.thrown?]
  becomes {t t' s s' es es'} h hcreated hunprompted := by
    cases h with
    | closed v state => simp [threw, state, TaskState.thrown?]
    | refused e state => simp [threw, state, hcreated state, TaskState.thrown?, Refused]
    | queued revives =>
      cases revives with
      | start state | again _ state => simp [threw, state, TaskState.thrown?]
    | begins mode state =>
      rcases state with state | state | ⟨state, -⟩ <;> simp [threw, state, TaskState.thrown?]
    | acts state => simp [threw, state, TaskState.thrown?]
    | ends o frame state =>
      have hrefused : Refused es = false := (hunprompted state).not_refused
      cases o <;>
        simp [threw, state, hrefused, Outcome.count, Outcome.settle, Outcome.state, TaskState.thrown?]

/-- What was counted is what the tasks that there are add up to. -/
def Counts (τ : Tally) (μ : Moment σ) : Prop :=
  τ.counter μ.vm.stats = (μ.vm.schedule.tasks.map fun t => τ.share t (μ.history t.id)).sum

theorem Fair.changes {τ : Tally} {Ω : Surroundings σ} {P : Resume → World σ → Globals → Prop}
    {μ μ' : Moment σ} (hτ : τ.Fair) (h : τ.Counts μ) (hsane : Moment.Sane Ω P μ)
    (hnumbered : Moment.Numbered μ) (hchanges : Moment.Changes μ μ') : τ.Counts μ' := by
  unfold Counts at h ⊢
  cases hchanges with
  | nothing tasks next stats log =>
    have hhistory (id : TaskId) : μ'.history id = μ.history id := congrArg id.history log
    simp only [tasks, stats, hhistory]
    exact h
  | @adds t id created _ awaitCount yieldCount tasks next stats log =>
    have hhistory (id : TaskId) : μ'.history id = μ.history id := congrArg id.history log
    have hnew : μ.history t.id = [] := id ▸ hsane.history_next
    simp only [tasks, Schedule.tasks_insert (id ▸ hnumbered.next_not_mem), stats, hτ.spawned, hhistory,
      List.map_append, List.map_singleton, List.sum_append, List.sum_singleton, hnew,
      hτ.created t created awaitCount yieldCount, Nat.add_zero]
    exact h
  | @alters t f es found becomes id tasks next log =>
    have hhistory (id' : TaskId) : μ'.history id' = μ.history id' ++ if id' = t.id then es else [] := by
      rw [Moment.history, log, Moment.history_append]
      rfl
    have hsum := Schedule.sum_update (fun t => τ.share t (μ.history t.id))
      (fun t => τ.share t (μ'.history t.id)) f hnumbered.nodup found fun t' hne => by
        rw [hhistory, if_neg hne, List.append_nil]
    have hshare := hτ.becomes becomes (hsane.created found) (hsane.unprompted_of_running found)
    simp only [hhistory, id, if_pos] at hsum
    simp only [tasks, hhistory]
    omega

theorem Fair.counts {τ : Tally} {Ω : Surroundings σ} {μ : Moment σ} (hτ : τ.Fair) (h : Moment.Reached Ω μ) :
    τ.Counts μ := by
  obtain ⟨options, world, hallowed, h⟩ := h
  induction h with
  | refl => exact hτ.zero
  | tail hleads hstep ih =>
    have hreached : Moment.Reached Ω _ := ⟨options, world, hallowed, hleads⟩
    exact hτ.changes ih hreached.sane hreached.numbered (hstep.changes hreached.sane)

end Tally

namespace Moment

variable {Ω : Surroundings σ} {μ : Moment σ} {vm : Vm σ} {log : List (TaskId × Event)}

theorem Reached.spawned_eq (h : Reached Ω μ) : μ.vm.stats.tasksSpawned = μ.vm.schedule.tasks.length := by
  rw [h.numbered.length_eq]
  obtain ⟨options, world, hallowed, h⟩ := h
  induction h with
  | refl => rfl
  | tail hleads hstep ih =>
    have hreached : Reached Ω _ := ⟨options, world, hallowed, hleads⟩
    cases hstep.changes hreached.sane with
    | nothing _ next stats => rw [next, stats, ih]
    | adds _ _ _ _ _ _ next stats => rw [next, stats, ih]
    | alters _ becomes _ _ next =>
      rw [next, ← ih]
      exact becomes.spawned_eq

/-- What satisfies one of two properties either satisfies the other as well or does not. -/
theorem sum_ite_add_countP {α : Type} {p q : α → Bool} : ∀ {l : List α}, (∀ x ∈ l, q x = true → p x = true) →
    (l.map fun x => if p x && !q x then 1 else 0).sum + l.countP q = l.countP p
  | [], _ => rfl
  | x :: l, h => by
    have hrest := sum_ite_add_countP fun y hy => h y (List.mem_cons_of_mem _ hy)
    have hx := h x List.mem_cons_self
    simp only [List.map_cons, List.sum_cons, List.countP_cons]
    cases hp : p x <;> cases hq : q x <;> simp_all <;> omega

/-- **What is counted, tasks show.** As many tasks were created as there are, and their awaits
and what they handed out add up. Each task that has returned or thrown was counted, except
for generators that were closed, or had an exception thrown into them, before they were
started: the counts are those of the tasks just if there are none of these. -/
theorem Reached.stats_counted (h : Reached Ω (.idle vm log)) :
    vm.stats.tasksSpawned = vm.schedule.tasks.length ∧
    vm.stats.awaits = (vm.schedule.tasks.map Task.awaitCount).sum ∧
    vm.stats.yields = (vm.schedule.tasks.map Task.yieldCount).sum ∧
    vm.stats.tasksCompleted + vm.schedule.tasks.countP (fun t => Closed (t.id.history log)) =
      vm.schedule.tasks.countP (·.state.returned?.isSome) ∧
    vm.stats.tasksThrew + vm.schedule.tasks.countP (fun t => Refused (t.id.history log)) =
      vm.schedule.tasks.countP (·.state.thrown?.isSome) ∧
    (vm.stats.tasksCompleted = vm.schedule.tasks.countP (·.state.returned?.isSome) ∧
        vm.stats.tasksThrew = vm.schedule.tasks.countP (·.state.thrown?.isSome) ↔
      ∀ t ∈ vm.schedule.tasks, Closed (t.id.history log) = false ∧ Refused (t.id.history log) = false) := by
  have hget {t : Task} (ht : t ∈ vm.schedule.tasks) : vm.schedule.get? t.id = some t :=
    Schedule.get?_of_mem h.numbered.nodup ht
  have hcompleted : vm.stats.tasksCompleted + _ = _ := (congrArg (· + _) (Tally.completed_fair.counts h)).trans
    (sum_ite_add_countP (q := fun t => Closed (t.id.history log)) fun t ht =>
      h.sane.returned_of_closed (hget ht))
  have hthrew : vm.stats.tasksThrew + _ = _ := (congrArg (· + _) (Tally.threw_fair.counts h)).trans
    (sum_ite_add_countP (q := fun t => Refused (t.id.history log)) fun t ht =>
      h.sane.thrown_of_refused (hget ht))
  refine ⟨h.spawned_eq, Tally.awaits_fair.counts h, Tally.yields_fair.counts h, hcompleted, hthrew, ?_⟩
  have hnone : (∀ t ∈ vm.schedule.tasks, Closed (t.id.history log) = false ∧
      Refused (t.id.history log) = false) ↔
      vm.schedule.tasks.countP (fun t => Closed (t.id.history log)) = 0 ∧
      vm.schedule.tasks.countP (fun t => Refused (t.id.history log)) = 0 := by
    simp only [List.countP_eq_zero, Bool.not_eq_true, ← forall_and]
  rw [hnone]
  omega

/-- A generator that is resumed after it has handed out its value returns, and is counted. -/
theorem Reached.stats_counted_yielder : ∃ (Ω : Surroundings Console) (vm : Vm Console)
    (log : List (TaskId × Event)), Ω.host = Console.call ∧ Reached Ω (.idle vm log) ∧
    vm.stats.yields = 1 ∧ vm.stats.tasksCompleted = 1 ∧
    (∀ t ∈ vm.schedule.tasks, Closed (t.id.history log) = false ∧ Refused (t.id.history log) = false) ∧
    vm.stats.tasksCompleted = vm.schedule.tasks.countP (·.state.returned?.isSome) := by
  let Ω : Surroundings Console := .any Console.call
  have htrial : (trial Ω.host .standard ⟨Heap.empty, Console.empty⟩ [] [yielder] "g" []
      [.resume ⟨0⟩ .start, .run 20, .resume ⟨0⟩ (.next .null), .run 20]).any (fun μ => μ.turn.isNone &&
        (μ.vm.stats.yields == 1 && μ.vm.stats.tasksCompleted == 1 &&
          μ.vm.schedule.tasks.all fun t => !Closed (μ.history t.id) && !Refused (μ.history t.id))) = true := by
    decide +kernel
  obtain ⟨⟨vm, turn, log⟩, htrial, hμ⟩ := (Option.any_eq_true _ _).mp htrial
  simp only [Bool.and_eq_true, beq_iff_eq, List.all_eq_true, Bool.not_eq_true'] at hμ
  obtain ⟨hturn, ⟨hyields, hcompleted⟩, hstarted⟩ := hμ
  obtain rfl : turn = none := Option.isNone_iff_eq_none.mp hturn
  have hreached : Reached Ω (.idle vm log) := .of_trial trivial trivial (fun _ _ => trivial)
    (fun _ _ => trivial) (fun _ _ _ _ _ => trivial) htrial
  obtain ⟨-, -, -, -, -, hagree⟩ := Reached.stats_counted hreached
  exact ⟨Ω, vm, log, rfl, hreached, hyields, hcompleted, hstarted, (hagree.mpr hstarted).1⟩

/-- A generator that is closed before it was started has returned, but is not counted. -/
theorem Operated.uncounted : ∃ (Ω : Surroundings Console) (vm : Vm Console), Ω.host = Console.call ∧
    Operated Ω vm ∧ vm.stats.tasksCompleted = 0 ∧
    vm.schedule.tasks.countP (·.state.returned?.isSome) = 1 := by
  let Ω : Surroundings Console := .any Console.call
  let vm₀ : Vm Console := .create .standard ⟨Heap.empty, Console.empty⟩
  have hrun : (Module.compile "m" [yielder]).toOption.any (fun m =>
      endsIn (fun vm => vm.stats.tasksCompleted == 0 &&
          vm.schedule.tasks.countP (·.state.returned?.isSome) == 1)
        ((Vm.spawn m "g" [] >>= fun id => Vm.resumeGenerator Ω.host 1 id (.ret (.int 1))) vm₀)) = true := by
    decide +kernel
  obtain ⟨m, -, hm⟩ := (Option.any_eq_true _ _).mp hrun
  obtain ⟨status, vm₂, hends, hcounts⟩ := exists_of_endsIn hm
  obtain ⟨id, vm₁, hspawn, hresume⟩ := bind_eq_ok.mp hends
  rw [Bool.and_eq_true, beq_iff_eq, beq_iff_eq] at hcounts
  have hcreated : Operated Ω vm₀ := .create trivial
  have hspawned : Operated Ω vm₁ := .spawn hcreated trivial (fun _ _ => trivial) (by rw [hspawn]; rfl)
  exact ⟨Ω, vm₂, rfl, .resumeGenerator hspawned (fun _ _ => trivial) (by rw [hresume]; rfl), hcounts⟩

end Moment

end ResourceMachine
