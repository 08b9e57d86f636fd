/-
# A call that is made alone

Where nobody else is and the host only lets things run, a call goes on as long as it can:
after an await as soon as it is known what this comes to. So what it does is determined by
where it starts. Among other tasks a call does not do anything else as long as they leave
alone what it holds: whatever happens in the machine, its task stands where the lone call
does, or the lone call has gone on with it.

Key definitions: `Progress.next`, `Progress.Runs`, `Moment.Mirrors`.
Key theorems: `Progress.Runs.unique`, `Moment.Mirrors.untouched`, `Moment.Mirrors.begin`,
`Moment.Mirrors.instruct`, `Moment.Mirrors.record`.
-/
import ResourceMachine.Proofs.Mirroring
import ResourceMachine.Proofs.Stages

namespace ResourceMachine

variable {σ : Type} {env : Env σ} {code : Bytes}

/-! ### Lone calls -/

namespace Progress

/-- How a lone call goes on, and what happens. -/
def next (env : Env σ) (code : Bytes) : Progress σ → Option (Progress σ × List Event)
  | running pc a => some (a.step env code pc, a.events env code pc)
  | halted (.awaits v) a => (Schedule.answer? a.world.heap v).map fun mode =>
      (a.routed (a.frame.resume mode), mode.events)
  | halted _ _ => none

/-- What happens on the way of a lone call from one place to another. -/
inductive Runs (env : Env σ) (code : Bytes) : Progress σ → List Event → Progress σ → Prop
  | refl {p : Progress σ} : Runs env code p [] p
  | head {p p' q : Progress σ} {es es' : List Event} (first : p.next env code = some (p', es))
      (rest : Runs env code p' es' q) : Runs env code p (es ++ es') q

namespace Runs

variable {p q q' : Progress σ} {es es' : List Event}

theorem snoc (h : Runs env code p es q) (hnext : q.next env code = some (q', es')) :
    Runs env code p (es ++ es') q' := by
  induction h with
  | refl => simpa using head hnext .refl
  | head first _ ih =>
    rw [List.append_assoc]
    exact head first (ih hnext)

/-- Lone calls that start at the same place end at the same place, and the same happens. -/
theorem unique (h : Runs env code p es q) (hq : q.next env code = none) (h' : Runs env code p es' q')
    (hq' : q'.next env code = none) : es = es' ∧ q = q' := by
  induction h generalizing es' with
  | refl =>
    cases h' with
    | refl => exact ⟨rfl, rfl⟩
    | head first => cases hq.symm.trans first
  | head first _ ih =>
    cases h' with
    | refl => cases hq'.symm.trans first
    | head first' rest' =>
      obtain ⟨rfl, rfl⟩ := Prod.mk.inj (Option.some.inj (first.symm.trans first'))
      obtain ⟨rfl, rfl⟩ := ih hq rest'
      exact ⟨rfl, rfl⟩

end Runs

end Progress

variable {ρ ρ' base : Pairing}

/-- What happens when a call is resumed is told alike. -/
theorem Resume.Alike.events {mode mode' : Resume} (h : mode.Alike ρ mode') :
    Event.AllAlike ρ mode.events mode'.events := by
  cases h with
  | start => exact .nil
  | next hv => exact .cons (.resume (.next hv)) .nil
  | throw he => exact .cons (.resume (.throw he)) .nil
  | ret hv => exact .cons (.resume (.ret hv)) .nil

/-- What is awaited comes to the same in heaps that are alike. -/
theorem Schedule.answer?_alike {h h' : Heap} (hh : Heap.Alike ρ h h') {v w : Value} (hvw : v.Alike ρ w) :
    Option.Rel (Resume.Alike ρ) (answer? h v) (answer? h' w) := by
  have hsame := hvw
  cases hvw with
  | @promise a b hab =>
    have hsettlement := hh.settlements hab
    simp only [answer?]
    generalize h.settlement a = s at hsettlement ⊢
    generalize h'.settlement b = s' at hsettlement ⊢
    cases hsettlement with
    | pending => exact .none
    | fulfilled hv => exact .some (.next hv)
    | rejected he => exact .some (.throw he)
  | @primitive v hv =>
    cases v
    case promise => cases hv
    all_goals exact .some (.next hsame)
  | _ => exact .some (.next hsame)

theorem Schedule.answer?_eq_some {h h' : Heap} (hh : Heap.Alike ρ h h') {v w : Value} (hvw : v.Alike ρ w)
    {mode : Resume} (hv : answer? h v = some mode) : ∃ mode', answer? h' w = some mode' ∧ mode.Alike ρ mode' := by
  have hboth := answer?_alike hh hvw
  rw [hv] at hboth
  match answer? h' w, hboth with
  | some mode', .some hmode => exact ⟨mode', rfl, hmode⟩

/-- The function that a frame of a call runs. -/
theorem Call.function?_of_setup (c : Call) {capacity : Nat} {f : Frame}
    (h : f.setup = (c.unit, c.index, capacity)) : f.function? = some c.function := by
  rw [Frame.function?, show f.unit = c.unit from congrArg Prod.fst h,
    show f.functionIndex = c.index from congrArg (fun x => x.2.1) h]
  exact c.found

/-- Frames of the same function find it alike. -/
theorem Frame.Alike.function?_eq {f g : Frame} (h : f.Alike ρ g) : f.function? = g.function? := by
  rw [Frame.function?, Frame.function?, h.unit, h.index]

theorem Activation.activation_routed (a : Activation σ) (r : Route × Frame) :
    (a.routed r).activation = { a with frame := r.2 } := by
  obtain ⟨_ | _, _⟩ := r <;> rfl

/-! ### Tasks and lone calls -/

namespace Moment

section

variable (c : Call) (capacity : Nat) (ρ : Pairing) (id : TaskId)

/-- A task stands where a lone call does. -/
inductive Mirrors : Moment σ → Progress σ → Prop
  | created {μ : Moment σ} {t : Task} {world : World σ} (away : Away id μ)
      (found : μ.vm.schedule.get? id = some t) (state : t.state = .created ∨ t.state = .running)
      (alike : (⟨t.frame, μ.world⟩ : Activation σ).Alike ρ ⟨c.first capacity, world⟩)
      (ready : ∀ mode, (id, mode) ∈ μ.vm.schedule.ready → mode = .start)
      (waiting : ∀ promise, (id, promise) ∉ μ.vm.schedule.waiting) :
      Mirrors μ (.running 0 ⟨c.first capacity, world⟩)
  | stopped {μ : Moment σ} {t : Task} {o o' : Outcome} {b : Activation σ} (away : Away id μ)
      (found : μ.vm.schedule.get? id = some t) (state : t.state = o.state) (same : o.Alike ρ o')
      (alike : (⟨t.frame, μ.world⟩ : Activation σ).Alike ρ b)
      (setup : b.frame.setup = (c.unit, c.index, capacity))
      (ready : ∀ mode, (id, mode) ∈ μ.vm.schedule.ready → ∃ w mode', o' = .awaits w ∧
        Schedule.answer? b.world.heap w = some mode' ∧ mode.Alike ρ mode')
      (waiting : ∀ promise, (id, promise) ∈ μ.vm.schedule.waiting → o = .awaits (.promise promise)) :
      Mirrors μ (.halted o' b)
  | works {vm : Vm σ} {log : List (TaskId × Event)} {p q : Progress σ} (alike : p.Alike ρ q)
      (setup : q.activation.frame.setup = (c.unit, c.index, capacity)) :
      Mirrors ⟨vm, some ⟨id, c.function.code, p⟩, log⟩ q

end

variable {c : Call} {capacity : Nat} {id : TaskId} {μ μ' : Moment σ} {vm : Vm σ}
  {log log' : List (TaskId × Event)} {q : Progress σ} {Ω : Surroundings σ}
  {P : Resume → World σ → Globals → Prop}

theorem Mirrors.heap_alike (h : Mirrors c capacity ρ id μ q) :
    Heap.Alike ρ μ.world.heap q.activation.world.heap := by
  cases h with
  | created _ _ _ alike | stopped _ _ _ _ alike => exact alike.heap
  | works alike =>
    cases alike with
    | running _ alike | halted _ alike => exact alike.heap

/-- A task to which nothing happens stays where it is, as long as nothing happens to what it
holds. -/
theorem Mirrors.untouched (h : Mirrors c capacity ρ id μ q) (haway : Away id μ) (hu : Untouched id μ μ')
    (hheap : Heap.Alike ρ μ'.world.heap q.activation.world.heap) :
    Mirrors c capacity ρ id μ' q := by
  cases h with
  | created _ found state alike ready waiting =>
    exact .created hu.away (hu.task.trans found) state ⟨alike.frame, hheap⟩
      (fun mode hm => ready mode (hu.ready mode hm)) fun p hp => waiting p (hu.waiting p hp)
  | stopped _ found state same alike setup ready waiting =>
    exact .stopped hu.away (hu.task.trans found) state same ⟨alike.frame, hheap⟩ setup
      (fun mode hm => ready mode (hu.ready mode hm)) fun p hp => waiting p (hu.waiting p hp)
  | works => exact absurd rfl (haway _ rfl)

/-- The turn of a task begins: so does the lone call, or it goes on with the same answer. -/
theorem Mirrors.begin (env : Env σ) {mode : Resume} {t : Task} {f : Function} {vm' : Vm σ}
    (h : Mirrors c capacity ρ id (idle vm log) q) (hfirst : (id, mode) ∈ vm.schedule.ready)
    (hget : vm.schedule.get? id = some t) (hfunction : t.frame.function? = some f) :
    (Activation.routed ⟨t.frame, vm.world⟩ (t.frame.resume mode)).Failed ∨
      ∃ q' es', (∀ {p es}, Progress.Runs env c.function.code p es q →
          Progress.Runs env c.function.code p (es ++ es') q') ∧
        q'.activation.world = q.activation.world ∧ Event.AllAlike ρ mode.events es' ∧
        Mirrors c capacity ρ id ⟨vm', some ⟨id, f.code,
          Activation.routed ⟨t.frame, vm.world⟩ (t.frame.resume mode)⟩, log'⟩ q' := by
  cases h with
  | @created _ t' world _ found _ alike ready =>
    obtain rfl : t = t' := Option.some.inj (hget.symm.trans found)
    obtain rfl := ready mode hfirst
    have hsetup : (c.first capacity).setup = (c.unit, c.index, capacity) := c.setup_first capacity
    obtain rfl : f = c.function := Option.some.inj
      (hfunction.symm.trans (alike.frame.function?_eq.trans (c.function?_of_setup hsetup)))
    have hip : t.frame.ip = 0 := alike.frame.ip
    refine .inr ⟨_, [], fun hruns => by rwa [List.append_nil], rfl, .nil, ?_⟩
    rw [Frame.resume, hip]
    exact .works (.running 0 alike) hsetup
  | @stopped _ t' o o' b _ found _ _ alike setup ready =>
    obtain rfl : t = t' := Option.some.inj (hget.symm.trans found)
    obtain ⟨w, mode', rfl, hanswer, hmode⟩ := ready mode hfirst
    obtain rfl : f = c.function := Option.some.inj
      (hfunction.symm.trans (alike.frame.function?_eq.trans (c.function?_of_setup setup)))
    refine (alike.routed (alike.frame.resume hmode)).imp_right fun hsame => ?_
    have hnext : Progress.next env c.function.code (.halted (.awaits w) b) =
        some (b.routed (b.frame.resume mode'), mode'.events) := by
      rw [Progress.next, hanswer]
      rfl
    refine ⟨_, _, fun hruns => hruns.snoc hnext, ?_, hmode.events, .works hsame ?_⟩
    · rw [Activation.activation_routed]
      rfl
    · rw [Activation.activation_routed]
      exact (Frame.setup_resume mode').trans setup

/-- A task that has its turn executes an instruction, and so does the lone call. -/
theorem Mirrors.instruct {pc : Nat} {a : Activation σ}
    (h : Mirrors c capacity ρ id ⟨vm, some ⟨id, code, .running pc a⟩, log⟩ q) (henv : env.Common base)
    (hbase : base ≤ ρ) :
    (a.step env code pc).Failed ∨ ∃ ρ' q' es', q.next env c.function.code = some (q', es') ∧
      ρ.Grows a.world.heap q.activation.world.heap ρ' (a.step env code pc).activation.world.heap
        q'.activation.world.heap ∧
      Event.AllAlike ρ' (a.events env code pc) es' ∧
      ∀ {vm' : Vm σ} {log' : List (TaskId × Event)},
        Mirrors c capacity ρ' id ⟨vm', some ⟨id, code, a.step env code pc⟩, log'⟩ q' := by
  cases h with
  | works alike setup =>
    cases alike with
    | @running _ b _ alike =>
      have hstep : (a.step env c.function.code pc).Failed ∨ _ := alike.step henv hbase
      refine hstep.imp_right ?_
      rintro ⟨ρ', hgrows, hsame, hevents⟩
      exact ⟨ρ', _, _, rfl, hgrows, hevents, .works hsame (Activation.setup_step.trans setup)⟩
  | created away | stopped away => exact absurd rfl (away _ rfl)

/-- The turn of a task has ended: the lone call has halted, and awaits the same. -/
theorem Mirrors.record {o : Outcome} {a : Activation σ}
    (h : Mirrors c capacity ρ id ⟨vm, some ⟨id, code, .halted o a⟩, log⟩ q)
    (hsane : Sane Ω P ⟨vm, some ⟨id, code, .halted o a⟩, log⟩) :
    Mirrors c capacity ρ id (idle (stateOf (Vm.record id o (vm.leave id a))) log) q := by
  obtain ⟨⟨t, hget, hframe, hstate⟩, hworld, hready, hwaiting⟩ := hsane.recorded
  cases h with
  | works alike setup =>
    cases alike with
    | halted same alike =>
      refine .stopped away_idle hget hstate same ⟨hframe ▸ alike.frame, ?_⟩ setup (fun mode hmode => ?_)
        hwaiting
      · show Heap.Alike ρ (stateOf (Vm.record id o (vm.leave id a))).world.heap _
        rw [hworld]
        exact alike.heap
      · obtain ⟨v, rfl, hanswer⟩ := hready mode hmode
        cases same with
        | @awaits _ w hvw =>
          obtain ⟨mode', hanswer', hmode⟩ := Schedule.answer?_eq_some alike.heap hvw hanswer
          exact ⟨w, mode', rfl, hanswer', hmode⟩
  | created away | stopped away => exact absurd rfl (away _ rfl)

/-- Promises that have settled put their tasks into the queue. -/
theorem Mirrors.promote (h : Mirrors c capacity ρ id (idle vm log) q) :
    Mirrors c capacity ρ id (idle { vm with schedule := (vm.schedule.promote vm.world.heap).2 } log) q := by
  cases h with
  | created _ found state alike ready waiting =>
    refine .created away_idle (get?_promote.trans found) state alike (fun mode hmode => ?_)
      fun p hp => waiting p (mem_waiting_promote hp)
    rcases mem_ready_promote hmode with hmode | ⟨promise, hmem, -⟩
    · exact ready mode hmode
    · exact absurd hmem (waiting promise)
  | stopped _ found state same alike setup ready waiting =>
    refine .stopped away_idle (get?_promote.trans found) state same alike setup (fun mode hmode => ?_)
      fun p hp => waiting p (mem_waiting_promote hp)
    rcases mem_ready_promote hmode with hmode | ⟨promise, hmem, hanswer⟩
    · exact ready mode hmode
    · obtain rfl := waiting promise hmem
      cases same with
      | @awaits _ w hvw =>
        obtain ⟨mode', hanswer', hmode⟩ := Schedule.answer?_eq_some alike.heap hvw hanswer
        exact ⟨w, mode', rfl, hanswer', hmode⟩

end Moment
end ResourceMachine
