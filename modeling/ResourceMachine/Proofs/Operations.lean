/-
# The operations of a machine, step by step

Running until idle gets nowhere but where single steps get: turn by turn, and in each
turn instruction by instruction. If it fails, it does so with the fault of a turn that
has just come to its end.

Key definitions: `Moment.Gets`, `Moment.Operated`.
Key theorems: `Moment.execute_gets`, `Moment.runUntilIdle_turns`, `Moment.runUntilIdle_gets`,
`Moment.resumeGenerator_gets`, `Moment.run_gets`, `Moment.Operated.reached`.
-/
import ResourceMachine.Proofs.ScheduleInvariant

namespace ResourceMachine

namespace Moment

variable {σ : Type} {Ω : Surroundings σ} {vm vm' : Vm σ} {log : List (TaskId × Event)} {id : TaskId}
  {code : Bytes} {μ μ' : Moment σ}

theorem Reached.leads {μ μ' : Moment σ} (h : Reached Ω μ) (hleads : Leads Ω μ μ') : Reached Ω μ' := by
  obtain ⟨options, world, hworld, h⟩ := h
  exact ⟨options, world, hworld, h.trans hleads⟩

/-- No step changes the options of a machine. -/
theorem Step.options_eq (h : Step Ω μ μ') : μ'.vm.options = μ.vm.options := by
  cases h with
  | spawn _ _ done =>
    obtain ⟨_, -, -, -, -, -, hoptions, -⟩ := spawn_eq_ok done
    exact hoptions
  | prepare _ found _ done =>
    rcases prepareGenerator_cases (Schedule.id_of_get? found) done with
      ⟨_, -, rfl⟩ | ⟨_, _, -, -, -, rfl⟩ | ⟨rfl, -⟩
    all_goals rfl
  | @record vm _ id _ o a =>
    obtain ⟨-, -, hoptions, -⟩ := record_spec (vm.leave id a) id o
    exact hoptions
  | _ => rfl

theorem Leads.options_eq (h : Leads Ω μ μ') : μ'.vm.options = μ.vm.options := by
  induction h with
  | refl => rfl
  | tail _ hstep ih => exact hstep.options_eq.trans ih

/-- Nothing but what a machine does by itself, while the host does nothing. -/
theorem Step.of_handsOff (h : Step (.handsOff Ω.host) μ μ') : Step Ω μ μ' := by
  cases h with
  | spawn loaded => exact loaded.elim
  | surroundings allowed => exact allowed.elim
  | prepare supplied found generator done =>
    exact .prepare (fun v hv => (supplied v hv).elim) found generator done
  | promote => exact .promote
  | begin first found function => exact .begin first found function
  | instruct affordable => exact .instruct affordable
  | exhaust exhausted => exact .exhaust exhausted
  | record => exact .record

theorem Leads.of_handsOff (h : Leads (.handsOff Ω.host) μ μ') : Leads Ω μ μ' :=
  Relation.ReflTransGen.mono (fun _ _ => Step.of_handsOff) _ _ h

/-- A run goes on instruction by instruction until it halts. -/
theorem runFrom_leads : ∀ {fuel pc : Nat} {vm : Vm σ} {a : Activation σ} {log : List (TaskId × Event)}
    {halt : Halt σ},
    Activation.runFrom ⟨Ω.host, vm.globals⟩ code vm.options.stepBudget fuel vm.stats.steps pc a = some halt →
    ∃ log', Leads Ω ⟨vm, some ⟨id, code, .running pc a⟩, log⟩
      ⟨{ vm with stats := { vm.stats with steps := halt.steps } },
        some ⟨id, code, .halted halt.outcome halt.activation⟩, log'⟩
  | 0, _, _, _, _, _, h => by cases h
  | fuel + 1, pc, vm, a, log, halt, h => by
    rw [Activation.runFrom] at h
    cases hbudget : Activation.exhausted? vm.options.stepBudget vm.stats.steps with
    | some b =>
      rw [hbudget] at h
      cases h
      exact ⟨log, .single (.exhaust hbudget)⟩
    | none =>
      rw [hbudget] at h
      have hstep : Step Ω ⟨vm, some ⟨id, code, .running pc a⟩, log⟩ _ := .instruct hbudget
      cases hp : a.step ⟨Ω.host, vm.globals⟩ code pc with
      | running pc' a' =>
        simp only [hp] at h
        rw [hp] at hstep
        obtain ⟨log', hleads⟩ := runFrom_leads (show Activation.runFrom ⟨Ω.host, vm.tally.globals⟩ code
          vm.tally.options.stepBudget fuel vm.tally.stats.steps _ _ = some halt from h)
        exact ⟨log', .head hstep hleads⟩
      | halted o a' =>
        simp only [hp] at h
        rw [hp] at hstep
        cases h
        exact ⟨_, .single hstep⟩

/-- How far an operation has got that started at this moment: to where the machine is
between turns, also if it was refused, or to a turn that ended with the fault that the
operation fails with. -/
def Gets {α : Type} (Ω : Surroundings σ) (μ : Moment σ) : EStateM.Result Stop (Vm σ) α → Prop
  | .ok _ vm' => ∃ log', Leads Ω μ (idle vm' log')
  | .error .outOfFuel _ => True
  | .error (.error (.fault f)) vm' => ∃ vm₁ id code a log',
      Leads Ω μ ⟨vm₁, some ⟨id, code, .halted (.failed f) a⟩, log'⟩ ∧
        vm' = stateOf (Vm.record id (.failed f) (vm₁.leave id a))
  | .error (.error _) vm' => ∃ log', Leads Ω μ (idle vm' log')

/-- An operation that goes on after another one gets as far from where that one started. -/
theorem Gets.head {α : Type} {μ μ' : Moment σ} {x : EStateM.Result Stop (Vm σ) α} (h : Gets Ω μ' x)
    (hleads : Leads Ω μ μ') : Gets Ω μ x := by
  unfold Gets at h ⊢
  split at h
  · obtain ⟨log', h⟩ := h
    exact ⟨log', hleads.trans h⟩
  · trivial
  · obtain ⟨vm₁, id, code, a, log', h, hvm⟩ := h
    exact ⟨vm₁, id, code, a, log', hleads.trans h, hvm⟩
  · rename_i e _ hne
    obtain ⟨log', h⟩ := h
    cases e with
    | fault f => exact absurd rfl (hne f)
    | _ => exact ⟨log', hleads.trans h⟩

theorem Gets.of_handsOff {α : Type} {μ : Moment σ} {x : EStateM.Result Stop (Vm σ) α}
    (h : Gets (.handsOff Ω.host) μ x) : Gets Ω μ x := by
  unfold Gets at h ⊢
  split at h
  · obtain ⟨log', h⟩ := h
    exact ⟨log', h.of_handsOff⟩
  · trivial
  · obtain ⟨vm₁, id, code, a, log', h, hvm⟩ := h
    exact ⟨vm₁, id, code, a, log', h.of_handsOff, hvm⟩
  · rename_i e _ hne
    obtain ⟨log', h⟩ := h
    cases e with
    | fault f => exact absurd rfl (hne f)
    | _ => exact ⟨log', h.of_handsOff⟩

theorem Gets.error {α β : Type} {μ : Moment σ} {stop : Stop} {vm : Vm σ}
    (h : Gets Ω μ (.error stop vm : EStateM.Result Stop (Vm σ) α)) :
    Gets Ω μ (.error stop vm : EStateM.Result Stop (Vm σ) β) := by
  rcases stop with (_ | _ | _ | _ | _ | _) | _ <;> exact h

/-- An operation in two parts. -/
theorem Gets.bind {α β : Type} {μ : Moment σ} {m : VmM σ α} {k : α → VmM σ β} {vm : Vm σ}
    (h : Gets Ω μ (m vm)) (hk : ∀ a vm' log', Leads Ω μ (idle vm' log') → Gets Ω μ (k a vm')) :
    Gets Ω μ ((m >>= k) vm) := by
  show Gets Ω μ (EStateM.bind m k vm)
  unfold EStateM.bind
  match hx : m vm, h with
  | .ok a vm', ⟨log', h⟩ => exact hk a vm' log' h
  | .error _ _, h => exact h.error

/-- Recording the end of a turn fails where the turn failed. -/
theorem record_gets {μ : Moment σ} {o : Outcome} {a : Activation σ}
    (h : Leads Ω μ ⟨vm, some ⟨id, code, .halted o a⟩, log⟩) :
    Gets Ω μ (Vm.record id o (vm.leave id a)) := by
  have hrecord := h.tail .record
  cases o with
  | failed f => exact ⟨vm, id, code, a, log, h, rfl⟩
  | completed v | threw e | awaits v | yields v => exact ⟨log, hrecord⟩

/-- The turn of a task is a run of its frame. -/
theorem execute_eq {host : Host σ} {fuel : Nat} {mode : Resume} {t : Task}
    (hget : vm.schedule.get? id = some t) :
    Vm.execute host fuel id mode vm =
      let vm₁ := { vm with schedule := vm.schedule.update id fun t => { t with state := .running } }
      match Activation.run ⟨host, vm.globals⟩ vm.options.stepBudget fuel vm.stats.steps mode
          ⟨t.frame, vm.world⟩ with
      | none => .error .outOfFuel vm₁
      | some halt =>
        Vm.record id halt.outcome (Vm.leave { vm₁ with stats := { vm.stats with steps := halt.steps } } id
          halt.activation) := by
  have htask : (Vm.task id : VmM σ Task) vm = .ok t vm := by
    simp only [Vm.task, bind, EStateM.bind, get_apply, hget]
    rfl
  unfold Vm.execute
  simp only [bind, EStateM.bind, htask]
  simp only [Vm.setState, Vm.updateTask, Vm.onSchedule, get_apply]
  cases Activation.run ⟨host, vm.globals⟩ vm.options.stepBudget fuel vm.stats.steps mode
    ⟨t.frame, vm.world⟩ <;> rfl

/-- A turn is a number of steps, in which the host does nothing. -/
theorem execute_gets {fuel : Nat} {mode : Resume} {schedule : Schedule} (h : Reached Ω (idle vm log))
    (hpop : vm.schedule.popReady = some ((id, mode), schedule)) :
    Gets (.handsOff Ω.host) (idle vm log) (Vm.execute Ω.host fuel id mode { vm with schedule }) := by
  obtain ⟨options, globals, ⟨tasks, ready, waiting⟩, stats, nextTask, world⟩ := vm
  cases ready with
  | nil => cases hpop
  | cons entry rest =>
    cases hpop
    obtain ⟨t, c, hget, -, htakes⟩ := h.sane.due (id, mode) List.mem_cons_self
    have hfound : (Schedule.mk tasks rest waiting).get? id = some t := hget
    have hsetup := htakes.setup
    have hfunction : t.frame.function? = some c.function := by
      rw [Frame.function?, show t.frame.unit = c.unit from congrArg Prod.fst hsetup,
        show t.frame.functionIndex = c.index from congrArg (fun x => x.2.1) hsetup]
      exact c.found
    have hbegin : Step (.handsOff Ω.host)
        (idle ⟨options, globals, ⟨tasks, (id, mode) :: rest, waiting⟩, stats, nextTask, world⟩ log) _ :=
      .begin rfl hfound hfunction
    show Gets _ _ (Vm.execute Ω.host fuel id mode
      ⟨options, globals, ⟨tasks, rest, waiting⟩, stats, nextTask, world⟩)
    rw [execute_eq hfound]
    simp only [Activation.run, hfunction]
    rcases hresume : t.frame.resume mode with ⟨route, frame⟩
    rw [hresume] at hbegin
    cases route with
    | escaped o => exact record_gets (.single hbegin)
    | goto pc =>
      simp only
      cases hrun : Activation.runFrom ⟨Ω.host, globals⟩ c.function.code options.stepBudget fuel
          stats.steps pc ⟨frame, world⟩ with
      | none => trivial
      | some halt =>
        let vm : Vm σ := ⟨options, globals, (Schedule.mk tasks rest waiting).update id fun t =>
          { t with state := .running }, stats, nextTask, world⟩
        obtain ⟨log', hleads⟩ : ∃ log', Leads (.handsOff Ω.host)
            ⟨vm, some ⟨id, c.function.code, .running pc ⟨frame, world⟩⟩, log ++ id.events mode.events⟩
            ⟨{ vm with stats := { vm.stats with steps := halt.steps } },
              some ⟨id, c.function.code, .halted halt.outcome halt.activation⟩, log'⟩ := runFrom_leads hrun
        exact record_gets (.head hbegin hleads)

/-- While a task is queued, it is given its turn. -/
theorem runUntilIdle_turn {host : Host σ} {fuel : Nat} {mode : Resume} {schedule : Schedule}
    (hpop : vm.schedule.popReady = some ((id, mode), schedule)) :
    Vm.runUntilIdle host (fuel + 1) vm =
      EStateM.bind (Vm.execute host fuel id mode) (fun _ => Vm.runUntilIdle host fuel)
        { vm with schedule } := by
  rw [Vm.runUntilIdle]
  simp only [bind, EStateM.bind, get_apply, hpop]
  rfl

/-- Where no task is queued, those are whose promises have settled. -/
theorem runUntilIdle_promote {host : Host σ} {fuel : Nat} (hpop : vm.schedule.popReady = none) :
    Vm.runUntilIdle host (fuel + 1) vm =
      let vm' := { vm with schedule := (vm.schedule.promote vm.world.heap).2 }
      if (vm.schedule.promote vm.world.heap).1 = 0 then .ok () vm'
      else Vm.runUntilIdle host fuel vm' := by
  rw [Vm.runUntilIdle]
  simp only [bind, EStateM.bind, get_apply, hpop]
  simp only [Vm.onSchedule]
  split
  · rfl
  · rfl

/-- Running until idle is a number of turns, between which the host does nothing. -/
theorem runUntilIdle_turns : ∀ {fuel : Nat} {vm : Vm σ} {log : List (TaskId × Event)},
    Reached Ω (idle vm log) → Gets (.handsOff Ω.host) (idle vm log) (Vm.runUntilIdle Ω.host fuel vm)
  | 0, _, _, _ => trivial
  | fuel + 1, vm, log, h => by
    cases hpop : vm.schedule.popReady with
    | some next =>
      obtain ⟨⟨id, mode⟩, schedule⟩ := next
      rw [runUntilIdle_turn hpop]
      exact (execute_gets h hpop).bind fun _ _ _ hleads =>
        (runUntilIdle_turns (h.leads hleads.of_handsOff)).head hleads
    | none =>
      have hpromote : Leads (.handsOff Ω.host) (idle vm log)
          (idle { vm with schedule := (vm.schedule.promote vm.world.heap).2 } log) := .single .promote
      rw [runUntilIdle_promote hpop]
      split
      · exact ⟨log, hpromote⟩
      · exact (runUntilIdle_turns (h.leads hpromote.of_handsOff)).head hpromote

/-- Running until idle gets where single steps get. -/
theorem runUntilIdle_gets {fuel : Nat} (h : Reached Ω (idle vm log)) :
    Gets Ω (idle vm log) (Vm.runUntilIdle Ω.host fuel vm) := (runUntilIdle_turns h).of_handsOff

/-- Looking up a task that is there, or is not. -/
theorem task_eq_ok {t : Task} (hget : vm.schedule.get? id = some t) :
    (Vm.task id : VmM σ Task) vm = .ok t vm := by
  simp only [Vm.task, bind, EStateM.bind, get_apply, hget]
  rfl

theorem task_eq_error (hget : vm.schedule.get? id = none) :
    (Vm.task id : VmM σ Task) vm = .error (.error (.taskNotFound id)) vm := by
  simp only [Vm.task, bind, EStateM.bind, get_apply, hget]
  rfl

theorem status_eq_ok {t : Task} (hget : vm.schedule.get? id = some t) :
    (Vm.status id : VmM σ TaskStatus) vm = .ok t.status vm := by
  simp only [Vm.status, bind, EStateM.bind, task_eq_ok hget]
  rfl

theorem task_gets {μ : Moment σ} (h : Leads Ω μ (idle vm log)) : Gets Ω μ ((Vm.task id : VmM σ Task) vm) := by
  cases hget : vm.schedule.get? id with
  | none =>
    rw [task_eq_error hget]
    exact ⟨log, h⟩
  | some t =>
    rw [task_eq_ok hget]
    exact ⟨log, h⟩

theorem status_gets {μ : Moment σ} (h : Leads Ω μ (idle vm log)) :
    Gets Ω μ ((Vm.status id : VmM σ TaskStatus) vm) :=
  (task_gets h).bind fun _ _ _ h => ⟨_, h⟩

/-- A generator that is resumed runs with the others until they are idle. -/
theorem resumeGenerator_gets {fuel : Nat} {mode : Resume} (h : Reached Ω (idle vm log))
    (hmode : ∀ v, mode.value? = some v → Ω.supplies v) :
    Gets Ω (idle vm log) (Vm.resumeGenerator Ω.host fuel id mode vm) := by
  show Gets Ω _ (EStateM.bind (Vm.task id) _ vm)
  unfold EStateM.bind
  cases hget : vm.schedule.get? id with
  | none =>
    rw [task_eq_error hget]
    exact ⟨log, .refl⟩
  | some t =>
    rw [task_eq_ok hget]
    simp only
    cases hkind : t.kind.isGenerator with
    | false => exact ⟨log, .refl⟩
    | true =>
      have hprepare : Gets Ω (idle vm log) (Vm.prepareGenerator t mode vm) := by
        cases hx : Vm.prepareGenerator t mode vm with
        | ok u vm' => exact ⟨_, .single (.prepare hmode hget hkind hx)⟩
        | error stop vm' =>
          unfold Vm.prepareGenerator at hx
          cases hstate : t.state <;> cases mode <;> rw [hstate] at hx <;> cases hx <;>
            exact ⟨log, .refl⟩
      exact hprepare.bind fun _ _ _ hleads =>
        ((runUntilIdle_gets (h.leads hleads)).head hleads).bind fun _ _ _ hleads => status_gets hleads

/-- A task is created, or is not where there is no such function. -/
theorem spawn_gets {m : Module} {name : String} {args : List Value} (hm : Ω.loaded m)
    (hargs : ∀ v ∈ args, Ω.supplies v) : Gets Ω (idle vm log) (Vm.spawn m name args vm) := by
  cases hx : Vm.spawn m name args vm with
  | ok id vm' => exact ⟨log, .single (.spawn hm hargs hx)⟩
  | error stop vm' =>
    unfold Vm.spawn at hx
    cases hindex : m.functions.findIdx? (·.name == name) with
    | none =>
      simp only [hindex] at hx
      cases hx
      exact ⟨log, .refl⟩
    | some index =>
      cases hf : m.function? name with
      | none =>
        simp only [hindex, hf] at hx
        cases hx
        exact ⟨log, .refl⟩
      | some f =>
        -- a function that is found can be called
        simp only [hindex, hf] at hx
        cases hkind : f.kind.isGenerator <;> simp only [hkind] at hx <;> cases hx

/-- A call that is run to its end, as far as it gets without the host. -/
theorem run_gets {fuel : Nat} {m : Module} {name : String} {args : List Value}
    (h : Reached Ω (idle vm log)) (hm : Ω.loaded m) (hargs : ∀ v ∈ args, Ω.supplies v) :
    Gets Ω (idle vm log) (Vm.run Ω.host fuel m name args vm) :=
  (spawn_gets hm hargs).bind fun _ _ _ hleads =>
    ((runUntilIdle_gets (h.leads hleads)).head hleads).bind fun _ _ _ hleads => status_gets hleads

/-! ### Sequences of operations -/

/-- What an operation leaves behind that comes to its end, be it with an error. -/
def Leaves {α : Type} (vm' : Vm σ) : EStateM.Result Stop (Vm σ) α → Prop
  | .ok _ vm => vm' = vm
  | .error (.error _) vm => vm' = vm
  | .error .outOfFuel _ => False

/-- What an operation leaves behind is a machine between turns. -/
theorem Gets.leads {α : Type} {μ : Moment σ} {x : EStateM.Result Stop (Vm σ) α} (h : Gets Ω μ x)
    (hx : Leaves vm' x) : ∃ log', Leads Ω μ (idle vm' log') := by
  unfold Leaves at hx
  split at hx
  · rw [hx]
    exact h
  · rename_i e vm
    rw [hx]
    cases e with
    | fault f =>
      obtain ⟨vm₁, id, code, a, log', hleads, rfl⟩ := h
      exact ⟨log', hleads.tail .record⟩
    | _ => exact h
  · cases hx

/-- The machines that a host comes by with operations that come to an end. -/
inductive Operated (Ω : Surroundings σ) : Vm σ → Prop
  | create {options : VmOptions} {world : World σ} (allowed : Ω.allows world []) :
      Operated Ω (Vm.create options world)
  | surroundings {vm : Vm σ} {world : World σ} {globals : Globals} (earlier : Operated Ω vm)
      (allowed : Ω.allows world globals) : Operated Ω { vm with world, globals }
  | spawn {vm vm' : Vm σ} {m : Module} {name : String} {args : List Value} (earlier : Operated Ω vm)
      (loaded : Ω.loaded m) (supplied : ∀ v ∈ args, Ω.supplies v)
      (leaves : Leaves vm' (Vm.spawn m name args vm)) : Operated Ω vm'
  | run {vm vm' : Vm σ} {fuel : Nat} {m : Module} {name : String} {args : List Value}
      (earlier : Operated Ω vm) (loaded : Ω.loaded m) (supplied : ∀ v ∈ args, Ω.supplies v)
      (leaves : Leaves vm' (Vm.run Ω.host fuel m name args vm)) : Operated Ω vm'
  | runUntilIdle {vm vm' : Vm σ} {fuel : Nat} (earlier : Operated Ω vm)
      (leaves : Leaves vm' (Vm.runUntilIdle Ω.host fuel vm)) : Operated Ω vm'
  | resumeGenerator {vm vm' : Vm σ} {fuel : Nat} {id : TaskId} {mode : Resume}
      (earlier : Operated Ω vm) (supplied : ∀ v, mode.value? = some v → Ω.supplies v)
      (leaves : Leaves vm' (Vm.resumeGenerator Ω.host fuel id mode vm)) : Operated Ω vm'

/-- Operations get a machine nowhere but to moments that are reached step by step. -/
theorem Operated.reached (h : Operated Ω vm) : ∃ log, Reached Ω (idle vm log) := by
  have hnext : ∀ {α : Type} {vm vm' : Vm σ} {x : EStateM.Result Stop (Vm σ) α},
      (∃ log, Reached Ω (idle vm log)) → (∀ log, Reached Ω (idle vm log) → Gets Ω (idle vm log) x) →
      Leaves vm' x → ∃ log, Reached Ω (idle vm' log) := by
    rintro α vm vm' x ⟨log, hreached⟩ hgets hleaves
    obtain ⟨log', hleads⟩ := (hgets log hreached).leads hleaves
    exact ⟨log', hreached.leads hleads⟩
  induction h with
  | create allowed => exact ⟨[], _, _, allowed, .refl⟩
  | surroundings _ allowed ih =>
    obtain ⟨log, hreached⟩ := ih
    exact ⟨log, hreached.leads (.single (.surroundings allowed))⟩
  | spawn _ loaded supplied leaves ih =>
    exact hnext ih (fun _ _ => spawn_gets loaded supplied) leaves
  | run _ loaded supplied leaves ih => exact hnext ih (fun _ h => run_gets h loaded supplied) leaves
  | runUntilIdle _ leaves ih => exact hnext ih (fun _ h => runUntilIdle_gets h) leaves
  | resumeGenerator _ supplied leaves ih =>
    exact hnext ih (fun _ h => resumeGenerator_gets h supplied) leaves

end Moment
end ResourceMachine
