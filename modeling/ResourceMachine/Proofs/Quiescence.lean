/-
# Machines that are idle

Running until idle stops only where nothing can go on by itself: nothing is queued, what is
parked waits for promises that are pending, and every task is finished, waits for one of
these, or is a generator that the host has not started or that has handed out a value. As
long as none of the promises settles, to run once more does nothing, whatever else the host
does to the world and to the globals.

Key definitions: `Task.Idle`, `Schedule.Stalled`.
Key theorems: `Schedule.Stalled.runUntilIdle_eq`, `Moment.Reached.quiescent`.
-/
import ResourceMachine.Proofs.Scheduling

namespace ResourceMachine

variable {σ : Type}

/-! ### Idle machines -/

/-- A task that is not going to do anything unless a promise settles, or it is resumed. -/
inductive Task.Idle (s : Schedule) (heap : Heap) (t : Task) : Prop
  | finished (state : t.state.isFinished = true)
  | yielded {v : Value} (state : t.state = .yielded v)
  | created (state : t.state = .created) (generator : t.kind.isGenerator = true)
  | awaiting {p : Nat} (state : t.state = .awaiting) (once : s.waiting.filter (·.1 = t.id) = [(t.id, p)])
      (pending : heap.settlement p = .pending)

/-- Nothing is queued, and what is parked waits for promises that are pending. -/
structure Schedule.Stalled (s : Schedule) (heap : Heap) : Prop where
  ready : s.ready = []
  pending : ∀ entry ∈ s.waiting, heap.settlement entry.2 = .pending

namespace Schedule

variable {s : Schedule} {heap : Heap} {id : TaskId} {p : Nat}

theorem Stalled.promote_eq (h : s.Stalled heap) : s.promote heap = (0, s) := by
  have hnone : ∀ entry ∈ s.waiting, continuation? (heap.settlement entry.2) = none := fun entry hentry => by
    rw [h.pending entry hentry]
    rfl
  refine Prod.ext ?_ ?_
  · rw [promote, promoteAll_count, List.countP_eq_zero]
    intro entry hentry
    simp [hnone entry hentry]
  · have hwoken : s.waiting.filterMap (fun entry =>
        (continuation? (heap.settlement entry.2)).map fun mode => (entry.1, mode)) = [] :=
      List.filterMap_eq_nil_iff.mpr fun entry hentry => by rw [hnone entry hentry]; rfl
    have hparked : s.waiting.filter (fun entry => (continuation? (heap.settlement entry.2)).isNone) =
        s.waiting := List.filter_eq_self.mpr fun entry hentry => by rw [hnone entry hentry]; rfl
    rw [Schedule.promote_eq, hwoken, hparked, List.append_nil]

/-- Where nothing can go on, running until idle does nothing. -/
theorem Stalled.runUntilIdle_eq {vm : Vm σ} (h : vm.schedule.Stalled vm.world.heap) (host : Host σ)
    (fuel : Nat) : Vm.runUntilIdle host (fuel + 1) vm = .ok () vm := by
  have hpop : vm.schedule.popReady = none := by rw [popReady, h.ready]
  rw [Moment.runUntilIdle_promote hpop, h.promote_eq]
  rfl

/-- What is parked once is parked with one promise. -/
theorem filter_waiting (hqueue : s.queued.Nodup) (h : (id, p) ∈ s.waiting) :
    s.waiting.filter (·.1 = id) = [(id, p)] := by
  have hnodup : (s.waiting.map Prod.fst).Nodup := (List.nodup_append.mp hqueue).2.1
  obtain ⟨l, r, hsplit⟩ := List.append_of_mem h
  rw [hsplit, List.map_append, List.map_cons] at hnodup
  obtain ⟨hnew, -⟩ := List.nodup_cons.mp (List.perm_middle.nodup_iff.mp hnodup)
  have hother : ∀ entry ∈ l ++ r, ¬ entry.1 = id := by
    intro entry hentry heq
    rw [← List.map_append] at hnew
    have hmem : entry.1 ∈ (l ++ r).map Prod.fst := List.mem_map_of_mem hentry
    rw [heq] at hmem
    exact hnew hmem
  rw [hsplit, List.filter_append, List.filter_cons_of_pos (by simp),
    List.filter_eq_nil_iff.mpr fun entry hentry => by simpa using hother entry (List.mem_append_left _ hentry),
    List.filter_eq_nil_iff.mpr fun entry hentry => by simpa using hother entry (List.mem_append_right _ hentry)]
  rfl

end Schedule

namespace Moment

variable {Ω : Surroundings σ} {vm vm' : Vm σ} {log : List (TaskId × Event)}

/-- Every task of a machine that is stalled is idle. -/
theorem Reached.idle_of_stalled (h : Reached Ω (.idle vm log)) (hstalled : vm.schedule.Stalled vm.world.heap)
    {t : Task} (ht : t ∈ vm.schedule.tasks) : t.Idle vm.schedule vm.world.heap := by
  have hget : vm.schedule.get? t.id = some t := Schedule.get?_of_mem h.numbered.nodup ht
  cases hstanding : t.standing with
  | true =>
    obtain ⟨past, hcourse⟩ := h.course
    have hqueued : t.id ∈ vm.schedule.queued := by
      rcases hcourse.scheduled_of.standing t.id t hget hstanding with hmem | ⟨_, habsurd, _⟩
      · exact hmem
      · cases habsurd
    rw [Schedule.queued, hstalled.ready, List.map_nil, List.nil_append] at hqueued
    obtain ⟨⟨id, p⟩, hentry, hid⟩ := List.mem_map.mp hqueued
    obtain rfl : id = t.id := hid
    obtain ⟨t', c, hget', -, hparked⟩ := h.sane.parked _ hentry
    obtain rfl : t = t' := Option.some.inj (hget.symm.trans hget')
    exact .awaiting hparked.state (Schedule.filter_waiting h.sane.queue hentry)
      (hstalled.pending _ hentry)
  | false =>
    unfold Task.standing at hstanding
    cases hstate : t.state with
    | running | awaiting => simp [hstate] at hstanding
    | created => exact .created hstate (by simpa [hstate] using hstanding)
    | yielded v => exact .yielded hstate
    | completed | threw | failed => exact .finished (by rw [hstate]; rfl)

/-- **Running until idle comes to rest.** Where it ends, nothing is queued, parked promises
are pending, and every task is idle. To run again does nothing, as long as these promises
are pending: not even with other host functions, another world and other globals. -/
theorem Reached.quiescent {fuel : Nat} (h : Reached Ω (.idle vm log))
    (hrun : Vm.runUntilIdle Ω.host fuel vm = .ok () vm') :
    vm'.schedule.ready = [] ∧
    (∀ entry ∈ vm'.schedule.waiting, vm'.world.heap.settlement entry.2 = .pending) ∧
    (∀ t ∈ vm'.schedule.tasks, t.Idle vm'.schedule vm'.world.heap) ∧
    (∀ (host : Host σ) (more : Nat), Vm.runUntilIdle host (more + 1) vm' = .ok () vm') ∧
    ∀ (host : Host σ) (more : Nat) (world : World σ) (globals : Globals),
      (∀ entry ∈ vm'.schedule.waiting, world.heap.settlement entry.2 = .pending) →
      Vm.runUntilIdle host (more + 1) { vm' with world, globals } = .ok () { vm' with world, globals } := by
  obtain ⟨hready, hpending⟩ := runUntilIdle_settled hrun
  have hstalled : vm'.schedule.Stalled vm'.world.heap := ⟨hready, hpending⟩
  have hgets : Gets Ω (.idle vm log) (Vm.runUntilIdle Ω.host fuel vm) := runUntilIdle_gets h
  rw [hrun] at hgets
  obtain ⟨log', hleads⟩ := hgets
  refine ⟨hready, hpending, fun t ht => (h.leads hleads).idle_of_stalled hstalled ht,
    hstalled.runUntilIdle_eq, fun host more world globals hworld => ?_⟩
  let vm'' : Vm σ := { vm' with world, globals }
  have hstalled' : vm''.schedule.Stalled vm''.world.heap := ⟨hready, hworld⟩
  exact hstalled'.runUntilIdle_eq host more

/-- A function that awaits a promise which is pending comes to rest there. -/
theorem Reached.quiescent_waiter : ∃ (Ω : Surroundings Console) (vm vm' : Vm Console)
    (log : List (TaskId × Event)), Ω.host = Console.call ∧ Reached Ω (.idle vm log) ∧
    vm.schedule.ready.length = 1 ∧ Vm.runUntilIdle Ω.host 20 vm = .ok () vm' ∧
    vm'.schedule.waiting = [(⟨0⟩, 0)] ∧ vm'.schedule.ready = [] ∧
    (∀ t ∈ vm'.schedule.tasks, t.Idle vm'.schedule vm'.world.heap) ∧
    Vm.runUntilIdle Ω.host 1 vm' = .ok () vm' := by
  let Ω : Surroundings Console := .any Console.call
  have htrial : (trial Ω.host .standard ⟨{ Heap.empty with promises := #[.pending] }, Console.empty⟩ []
      [waiter] "f" [.promise 0] []).any (fun μ => μ.turn.isNone && μ.vm.schedule.ready.length == 1 &&
        match Vm.runUntilIdle Ω.host 20 μ.vm with
        | .ok () vm' => vm'.schedule.waiting == [(⟨0⟩, 0)]
        | .error _ _ => false) = true := by
    decide +kernel
  obtain ⟨⟨vm, turn, log⟩, htrial, hμ⟩ := (Option.any_eq_true _ _).mp htrial
  simp only [Bool.and_eq_true] at hμ
  obtain ⟨⟨hturn, hlength⟩, hrun⟩ := hμ
  obtain rfl : turn = none := Option.isNone_iff_eq_none.mp hturn
  have hreached : Reached Ω (.idle vm log) := .of_trial trivial trivial (fun _ _ => trivial)
    (fun _ _ => trivial) (by simp) htrial
  cases hvm : Vm.runUntilIdle Ω.host 20 vm with
  | error stop vm' => simp [hvm] at hrun
  | ok u vm' =>
    simp only [hvm, beq_iff_eq] at hrun
    obtain ⟨hready, -, hidle, hagain, -⟩ := Reached.quiescent hreached hvm
    exact ⟨Ω, vm, vm', log, rfl, hreached, by simpa using hlength, hvm, hrun, hready, hidle,
      hagain Ω.host 0⟩

end Moment
end ResourceMachine
