/-
# Budgets

Where instructions are paid for out of a budget, every operation of a machine comes to its
end, whatever code its tasks run and whatever the host does: a loop in the code pays for
each round; and a turn that pays for nothing, having been left without an instruction, is
one that ends its task, so what is queued and parked gets less. No more is ever paid than
the budget, and nothing fails for want of budget before all of it is paid.

The measure of what is left to do is made of what is left of the budget, of what is queued
or parked, and of what is parked, in this order: an instruction takes from the first, a turn
without one from the second, and waking a task from the third (`Vm.Less`).

Key definitions: `Vm.Ends`, `Vm.Returns`, `Vm.Less`, `Moment.Paid`, `Moment.Overruns`.
Key theorems: `Activation.runFrom_halts`, `Vm.execute_spends`, `Vm.runUntilIdle_returns`,
`Moment.Step.paid`, `Moment.budget_bounds`.
-/
import ResourceMachine.Proofs.Operations
import ResourceMachine.Proofs.StackEffect

namespace ResourceMachine

variable {σ α β : Type}

/-! ### One run -/

namespace Outcome

/-- The budget for want of which a run failed. -/
def overrun? : Outcome → Option Nat
  | failed (.budgetExceeded b) => some b
  | _ => none

theorem IsEscape.overrun? : ∀ {o : Outcome}, o.IsEscape → o.overrun? = none
  | completed _, _ | threw _, _ | failed .stackOverflow, _ => rfl

theorem overrun?_failed {f : Fault} (h : ∀ b, f ≠ .budgetExceeded b) : (failed f).overrun? = none := by
  cases f with
  | budgetExceeded b => exact absurd rfl (h b)
  | _ => rfl

end Outcome

namespace Activation

variable {env : Env σ} {code : Bytes} {pc : Nat} {a a' : Activation σ} {o : Outcome}

theorem exhausted?_some {B steps : Nat} (h : B ≤ steps) : exhausted? (some B) steps = some B := by
  simp [exhausted?, h]

theorem exhausted?_none {B steps : Nat} (h : steps < B) : exhausted? (some B) steps = none := by
  simp [exhausted?, h]

theorem of_exhausted? {B b steps : Nat} (h : exhausted? (some B) steps = some b) :
    b = B ∧ B ≤ steps := by
  by_cases hle : B ≤ steps
  · rw [exhausted?_some hle] at h
    exact ⟨(Option.some.inj h).symm, hle⟩
  · rw [exhausted?_none (Nat.lt_of_not_le hle)] at h
    cases h

/-- The machine leaves the budget to the run: no instruction fails for want of it. -/
theorem overrun?_step (h : a.step env code pc = .halted o a') : o.overrun? = none := by
  unfold step at h
  split at h
  · rename_i e _
    cases h
    cases e <;> rfl
  split at h
  · rename_i e _
    cases h
    cases e <;> rfl
  rename_i i _
  have hkeeps := @Exec.instr_shifts _ env code.size (pc + i.size) _ _ i a rfl rfl
  unfold perform at h
  cases hexec : Exec.instr env code.size (pc + i.size) i a with
  | error e a₁ =>
    rw [hexec] at h hkeeps
    cases h
    refine Outcome.overrun?_failed ?_
    rintro b rfl
    exact hkeeps.2
  | ok next a₁ =>
    rw [hexec] at h
    cases next with
    | goto pc' => cases h
    | await v | yield v | ret v =>
      cases h
      rfl
    | throw e =>
      simp only [follow, throw] at h
      split at h
      · cases h
      · rename_i hunwind
        cases h
        exact (Frame.isEscape_unwindThrough (congrArg Prod.fst hunwind)).overrun?

/-- **A run that is paid for comes to its end**: at once, for want of budget, or after it
has paid for an instruction. -/
theorem runFrom_halts (env : Env σ) (code : Bytes) (B : Nat) : ∀ (left steps pc : Nat)
    (a : Activation σ), B - steps ≤ left → ∃ halt : Halt σ,
      (∀ fuel, left < fuel → runFrom env code (some B) fuel steps pc a = some halt) ∧
        ((∃ b, halt.outcome = .failed (.budgetExceeded b)) ∨ steps < halt.steps ∧ steps < B) := by
  intro left
  induction left with
  | zero =>
    intro steps pc a hleft
    refine ⟨⟨.failed (.budgetExceeded B), steps, a.keepIp pc⟩, fun fuel hfuel => ?_, .inl ⟨B, rfl⟩⟩
    obtain ⟨fuel, rfl⟩ := Nat.exists_eq_add_one_of_ne_zero (Nat.ne_of_gt hfuel)
    rw [runFrom, exhausted?_some (by omega)]
  | succ left ih =>
    intro steps pc a hleft
    by_cases hspent : B ≤ steps
    · refine ⟨⟨.failed (.budgetExceeded B), steps, a.keepIp pc⟩, fun fuel hfuel => ?_, .inl ⟨B, rfl⟩⟩
      obtain ⟨fuel, rfl⟩ := Nat.exists_eq_add_one_of_ne_zero (Nat.ne_of_gt (Nat.zero_lt_of_lt hfuel))
      rw [runFrom, exhausted?_some hspent]
    have hlt : steps < B := Nat.lt_of_not_le hspent
    cases hstep : a.step env code pc with
    | halted o a' =>
      refine ⟨⟨o, steps + 1, a'⟩, fun fuel hfuel => ?_, .inr ⟨Nat.lt_succ_self steps, hlt⟩⟩
      obtain ⟨fuel, rfl⟩ := Nat.exists_eq_add_one_of_ne_zero (Nat.ne_of_gt (Nat.zero_lt_of_lt hfuel))
      rw [runFrom, exhausted?_none hlt]
      simp only [hstep]
    | running pc' a' =>
      obtain ⟨halt, hruns, hhalt⟩ := ih (steps + 1) pc' a' (by omega)
      refine ⟨halt, fun fuel hfuel => ?_, ?_⟩
      · obtain ⟨fuel, rfl⟩ := Nat.exists_eq_add_one_of_ne_zero (Nat.ne_of_gt (Nat.zero_lt_of_lt hfuel))
        rw [runFrom, exhausted?_none hlt]
        simp only [hstep]
        exact hruns fuel (by omega)
      · rcases hhalt with hfailed | ⟨hmore, -⟩
        · exact .inl hfailed
        · exact .inr ⟨by omega, hlt⟩

/-- A run that was given its turn fails, pays, or ends its task without an instruction. -/
theorem run_halts (env : Env σ) (B steps : Nat) (mode : Resume) (a : Activation σ) :
    ∃ n, ∃ halt : Halt σ, (∀ fuel, n ≤ fuel → run env (some B) fuel steps mode a = some halt) ∧
      ((∃ f, halt.outcome = .failed f) ∨ steps < halt.steps ∧ steps < B ∨
        halt.steps = steps ∧ halt.outcome.suspension? = none) := by
  unfold run
  cases a.frame.function? with
  | none => exact ⟨0, _, fun _ _ => rfl, .inl ⟨_, rfl⟩⟩
  | some f =>
    cases hresume : a.frame.resume mode with
    | mk route frame =>
      cases route with
      | escaped o =>
        have hescape := Frame.isEscape_resume (congrArg Prod.fst hresume)
        exact ⟨0, _, fun _ _ => rfl, .inr (.inr ⟨rfl, hescape.suspension?⟩)⟩
      | goto pc =>
        obtain ⟨halt, hruns, hhalt⟩ := runFrom_halts env f.code B (B - steps) steps pc
          { a with frame } (Nat.le_refl _)
        refine ⟨B - steps + 1, halt, fun fuel hfuel => hruns fuel (by omega), ?_⟩
        rcases hhalt with ⟨b, hb⟩ | hpaid
        · exact .inl ⟨_, hb⟩
        · exact .inr (.inl hpaid)

end Activation

/-! ### One turn -/

/-- An operation comes to its end, if only with an error. -/
def Vm.Ends (x : EStateM.Result Stop (Vm σ) α) : Prop := ∃ vm', Moment.Leaves vm' x

/-- An operation that is given enough fuel comes to its end, and to the same end with more. -/
def Vm.Returns (op : Nat → VmM σ α) (vm : Vm σ) : Prop :=
  ∃ n x, (∀ fuel, n ≤ fuel → op fuel vm = x) ∧ Vm.Ends x

namespace Schedule

theorem length_popReady {s s' : Schedule} {next : TaskId × Resume}
    (h : s.popReady = some (next, s')) : s'.queued.length < s.queued.length := by
  obtain ⟨tasks, ready, waiting⟩ := s
  cases ready with
  | nil => cases h
  | cons first rest =>
    cases h
    simp [queued]

/-- A task that is woken is parked no longer. -/
theorem length_promote (s : Schedule) (heap : Heap) :
    (s.promote heap).2.waiting.length + (s.promote heap).1 = s.waiting.length := by
  have hcount : s.waiting.length = _ := List.length_eq_countP_add_countP
    fun entry => (continuation? (heap.settlement entry.2)).isSome
  rw [promote_eq, promote, promoteAll_count, hcount, ← List.countP_eq_length_filter, Nat.add_comm]
  simp only [← Option.not_isSome, Bool.decide_coe, decide_not]

end Schedule

namespace Vm

variable {vm vm' : Vm σ} {host : Host σ} {id : TaskId} {o : Outcome} {B : Nat}

/-- Recording how a turn ended changes no count of instructions. -/
theorem steps_record (id : TaskId) (o : Outcome) (vm : Vm σ) :
    (stateOf (record id o vm)).stats.steps = vm.stats.steps := by
  cases o <;> rfl

/-- Recording fails where the turn failed. -/
theorem record_cases (id : TaskId) (o : Outcome) (vm : Vm σ) :
    (∃ f, o = .failed f ∧
      record id o vm = .error (.error (.fault f)) (stateOf (record id o vm))) ∨
    record id o vm = .ok () (stateOf (record id o vm)) := by
  cases o with
  | failed f => exact .inl ⟨f, rfl, rfl⟩
  | _ => exact .inr rfl

/-- The end of a task queues nothing. -/
theorem queued_record (h : o.suspension? = none) :
    (stateOf (record id o vm)).schedule.queued = vm.schedule.queued := by
  obtain ⟨-, -, -, -, hrecord⟩ := Moment.record_spec vm id o
  unfold Schedule.queued
  rcases hrecord with ⟨-, hready, hwaiting⟩ | ⟨v, mode, rfl, -⟩ | ⟨p, rfl, -⟩
  · rw [hready, hwaiting]
  · cases h
  · cases h

/-- What is left to do: of the budget, of what is queued or parked, and of what is parked. -/
def left (B : Nat) (vm : Vm σ) : Nat × Nat × Nat :=
  (B - vm.stats.steps, vm.schedule.queued.length, vm.schedule.waiting.length)

/-- One machine has less left to do than another one. -/
def Less (B : Nat) : Vm σ → Vm σ → Prop :=
  InvImage (Prod.Lex (· < ·) (Prod.Lex (· < ·) (· < ·))) (left B)

theorem less_wf (B : Nat) : WellFounded (Less B : Vm σ → Vm σ → Prop) :=
  InvImage.wf (left B) (Prod.lex Nat.lt_wfRel (Prod.lex Nat.lt_wfRel Nat.lt_wfRel)).wf

/-- What is left when a task has had its turn: it has paid for an instruction, or it is over. -/
def Spends (B : Nat) (vm vm' : Vm σ) : Prop :=
  vm'.options = vm.options ∧
    (vm.stats.steps < vm'.stats.steps ∧ vm.stats.steps < B ∨
      vm'.stats.steps = vm.stats.steps ∧ vm'.schedule.queued = vm.schedule.queued)

/-- A turn comes to its end. -/
theorem execute_spends (host : Host σ) (id : TaskId) (mode : Resume) (vm : Vm σ)
    (hbudget : vm.options.stepBudget = some B) :
    ∃ n x, (∀ fuel, n ≤ fuel → execute host fuel id mode vm = x) ∧ Vm.Ends x ∧
      ∀ vm', x = .ok () vm' → Spends B vm vm' := by
  cases hget : vm.schedule.get? id with
  | none =>
    refine ⟨0, .error (.error (.taskNotFound id)) vm, fun fuel _ => ?_, ⟨vm, rfl⟩, fun _ h => by cases h⟩
    show EStateM.bind (task id) _ vm = _
    rw [EStateM.bind, Moment.task_eq_error hget]
  | some t =>
    obtain ⟨n, halt, hruns, hhalt⟩ := Activation.run_halts ⟨host, vm.globals⟩ B vm.stats.steps mode
      ⟨t.frame, vm.world⟩
    let vm₁ : Vm σ := leave { vm with
      schedule := vm.schedule.update id fun t => { t with state := .running }
      stats := { vm.stats with steps := halt.steps } } id halt.activation
    have hqueued : vm₁.schedule.queued = vm.schedule.queued := rfl
    refine ⟨n, record id halt.outcome vm₁, fun fuel hfuel => ?_, ?_, fun vm' hvm' => ?_⟩
    · rw [Moment.execute_eq hget, hbudget, hruns fuel hfuel]
    · rcases record_cases id halt.outcome vm₁ with ⟨f, -, hrecord⟩ | hrecord
      · exact ⟨_, by rw [hrecord]; rfl⟩
      · exact ⟨_, by rw [hrecord]; rfl⟩
    · obtain rfl : stateOf (record id halt.outcome vm₁) = vm' := by rw [hvm']; rfl
      obtain ⟨-, -, hoptions, -⟩ := Moment.record_spec vm₁ id halt.outcome
      refine ⟨hoptions, ?_⟩
      rw [steps_record]
      rcases hhalt with ⟨f, hf⟩ | hpaid | ⟨hsteps, hends⟩
      · rw [hf] at hvm'
        cases hvm'
      · exact .inl hpaid
      · exact .inr ⟨hsteps, (queued_record hends).trans hqueued⟩

/-! ### Operations -/

namespace Returns

theorem of_total {op : VmM σ α} {x : EStateM.Result Stop (Vm σ) α} (h : op vm = x) (hx : Ends x) :
    Returns (fun _ => op) vm := ⟨0, x, fun _ _ => h, hx⟩

/-- An operation in two parts. -/
theorem bind {op : Nat → VmM σ α} {next : Nat → α → VmM σ β} (h : Returns op vm)
    (hnext : ∀ n a vm', op n vm = .ok a vm' → Returns (fun fuel => next fuel a) vm') :
    Returns (fun fuel => op fuel >>= next fuel) vm := by
  obtain ⟨n, x, hop, vm₁, hends⟩ := h
  cases x with
  | error stop vm' =>
    refine ⟨n, .error stop vm', fun fuel hfuel => ?_, vm₁, by cases stop <;> exact hends⟩
    show EStateM.bind (op fuel) (next fuel) vm = _
    rw [EStateM.bind, hop fuel hfuel]
  | ok a vm' =>
    obtain ⟨n', y, hrest, hy⟩ := hnext n a vm' (hop n (Nat.le_refl n))
    refine ⟨max n n', y, fun fuel hfuel => ?_, hy⟩
    show EStateM.bind (op fuel) (next fuel) vm = _
    rw [EStateM.bind, hop fuel (by omega)]
    exact hrest fuel (by omega)

end Returns

/-- A turn leaves less to do. -/
theorem Spends.less {next : TaskId × Resume} {schedule : Schedule}
    (hpop : vm.schedule.popReady = some (next, schedule)) (h : Spends B { vm with schedule } vm') :
    Less B vm' vm := by
  rcases h.2 with ⟨hmore, hlt⟩ | ⟨hsame, hqueued⟩
  · have hlt : vm.stats.steps < B := hlt
    have hmore : vm.stats.steps < vm'.stats.steps := hmore
    exact .left _ _ (by omega)
  · have hsame : vm'.stats.steps = vm.stats.steps := hsame
    have hless := Schedule.length_popReady hpop
    rw [← show vm'.schedule.queued = schedule.queued from hqueued] at hless
    show Prod.Lex _ _ (B - vm'.stats.steps, _) _
    rw [hsame]
    exact .right _ (.left _ _ hless)

/-- Waking a task leaves less to do. -/
theorem less_promote (hwoken : (vm.schedule.promote vm.world.heap).1 ≠ 0) :
    Less B { vm with schedule := (vm.schedule.promote vm.world.heap).2 } vm := by
  have hqueued := (vm.schedule.queued_promote vm.world.heap).length_eq
  have hparked := vm.schedule.length_promote vm.world.heap
  show Prod.Lex _ _ (B - vm.stats.steps, (vm.schedule.promote vm.world.heap).2.queued.length, _) _
  have hless : (vm.schedule.promote vm.world.heap).2.waiting.length < vm.schedule.waiting.length := by
    omega
  rw [hqueued]
  exact .right _ (.right _ hless)

/-- **Running until idle comes to its end.** -/
theorem runUntilIdle_returns (host : Host σ) (vm : Vm σ) (hbudget : vm.options.stepBudget = some B) :
    Returns (runUntilIdle host) vm := by
  induction vm using (less_wf B).induction with
  | _ vm ih =>
  cases hpop : vm.schedule.popReady with
  | some next =>
    obtain ⟨⟨id, mode⟩, schedule⟩ := next
    obtain ⟨n, x, hturn, hends, hspends⟩ := execute_spends host id mode { vm with schedule } hbudget
    cases x with
    | error stop vm' =>
      refine ⟨n + 1, .error stop vm', fun fuel hfuel => ?_, hends⟩
      obtain ⟨fuel, rfl⟩ := Nat.exists_eq_add_one_of_ne_zero (Nat.ne_of_gt (Nat.zero_lt_of_lt hfuel))
      rw [Moment.runUntilIdle_turn hpop, EStateM.bind, hturn fuel (Nat.le_of_succ_le_succ hfuel)]
    | ok u vm' =>
      have hspent := hspends vm' rfl
      obtain ⟨n', y, hrest, hy⟩ := ih vm' (hspent.less hpop) (by rw [hspent.1]; exact hbudget)
      refine ⟨max n n' + 1, y, fun fuel hfuel => ?_, hy⟩
      obtain ⟨fuel, rfl⟩ := Nat.exists_eq_add_one_of_ne_zero (Nat.ne_of_gt (Nat.zero_lt_of_lt hfuel))
      rw [Moment.runUntilIdle_turn hpop, EStateM.bind, hturn fuel (by omega)]
      exact hrest fuel (by omega)
  | none =>
    by_cases hwoken : (vm.schedule.promote vm.world.heap).1 = 0
    · refine ⟨1, .ok () { vm with schedule := (vm.schedule.promote vm.world.heap).2 },
        fun fuel hfuel => ?_, _, rfl⟩
      obtain ⟨fuel, rfl⟩ := Nat.exists_eq_add_one_of_ne_zero (Nat.ne_of_gt hfuel)
      rw [Moment.runUntilIdle_promote hpop]
      exact if_pos hwoken
    · obtain ⟨n, y, hrest, hy⟩ := ih _ (less_promote hwoken) hbudget
      refine ⟨n + 1, y, fun fuel hfuel => ?_, hy⟩
      obtain ⟨fuel, rfl⟩ := Nat.exists_eq_add_one_of_ne_zero (Nat.ne_of_gt (Nat.zero_lt_of_lt hfuel))
      rw [Moment.runUntilIdle_promote hpop]
      exact (if_neg hwoken).trans (hrest fuel (Nat.le_of_succ_le_succ hfuel))

/-- Spawning a task executes nothing. -/
theorem spawn_cases (m : Module) (name : String) (args : List Value) (vm : Vm σ) :
    spawn m name args vm = .error (.error (.functionNotFound name)) vm ∨
      ∃ vm', spawn m name args vm = .ok ⟨vm.nextTask⟩ vm' ∧ vm'.stats.steps = vm.stats.steps := by
  unfold spawn
  cases m.functions.findIdx? (·.name == name) with
  | none => exact .inl rfl
  | some index =>
    cases m.function? name with
    | none => exact .inl rfl
    | some f =>
      refine .inr ?_
      simp only
      cases f.kind.isGenerator with
      | false => exact ⟨_, rfl, rfl⟩
      | true => exact ⟨_, rfl, rfl⟩

theorem spawn_ends (m : Module) (name : String) (args : List Value) (vm : Vm σ) :
    Ends (spawn m name args vm) := by
  rcases spawn_cases m name args vm with h | ⟨vm', h, -⟩
  · exact ⟨vm, by rw [h]; rfl⟩
  · exact ⟨vm', by rw [h]; rfl⟩

theorem task_ends (id : TaskId) (vm : Vm σ) : Ends ((task id : VmM σ Task) vm) := by
  cases hget : vm.schedule.get? id with
  | none => exact ⟨vm, by rw [Moment.task_eq_error hget]; rfl⟩
  | some t => exact ⟨vm, by rw [Moment.task_eq_ok hget]; rfl⟩

theorem prepareGenerator_ends (t : Task) (mode : Resume) (vm : Vm σ) :
    Ends (prepareGenerator t mode vm) := by
  unfold prepareGenerator
  cases t.state <;> cases mode <;> exact ⟨_, rfl⟩

theorem status_returns (id : TaskId) (vm : Vm σ) : Returns (fun _ => (status id : VmM σ TaskStatus)) vm :=
  (Returns.of_total rfl (task_ends id vm)).bind fun _ _ _ _ => .of_total rfl ⟨_, rfl⟩

/-- Calling a function and running until idle comes to its end. -/
theorem run_returns (host : Host σ) (m : Module) (name : String) (args : List Value) (vm : Vm σ)
    (hbudget : vm.options.stepBudget = some B) :
    Returns (fun fuel => run host fuel m name args) vm := by
  refine (Returns.of_total rfl (spawn_ends m name args vm)).bind fun _ id vm' hspawn => ?_
  obtain ⟨_, -, -, -, -, -, hoptions, -⟩ := Moment.spawn_eq_ok hspawn
  exact (runUntilIdle_returns host vm' (by rw [hoptions]; exact hbudget)).bind fun _ _ vm'' _ =>
    status_returns id vm''

/-- Resuming a generator and running until idle comes to its end. -/
theorem resumeGenerator_returns (host : Host σ) (id : TaskId) (mode : Resume) (vm : Vm σ)
    (hbudget : vm.options.stepBudget = some B) :
    Returns (fun fuel => resumeGenerator host fuel id mode) vm := by
  refine (Returns.of_total rfl (task_ends id vm)).bind fun _ t vm' htask => ?_
  obtain rfl : vm' = vm := by
    cases hget : vm.schedule.get? id with
    | none =>
      rw [Moment.task_eq_error hget] at htask
      cases htask
    | some t =>
      rw [Moment.task_eq_ok hget] at htask
      cases htask
      rfl
  cases hkind : t.kind.isGenerator with
  | false => exact .of_total rfl ⟨vm', rfl⟩
  | true =>
    refine (Returns.of_total rfl (prepareGenerator_ends t mode vm')).bind fun _ _ vm'' hprepare => ?_
    have hoptions : vm''.options = vm'.options := by
      rcases Moment.prepareGenerator_cases rfl hprepare with
        ⟨_, -, rfl⟩ | ⟨_, _, -, -, -, rfl⟩ | ⟨rfl, -⟩
      all_goals rfl
    exact (runUntilIdle_returns host vm'' (by rw [hoptions]; exact hbudget)).bind fun _ _ vm₃ _ =>
      status_returns id vm₃

end Vm

/-! ### What is paid -/

namespace Moment

variable {Ω : Surroundings σ} {μ μ' : Moment σ} {B : Nat}

/-- No more is paid than the budget, and all of it where a turn has failed for want of it. -/
structure Paid (B : Nat) (μ : Moment σ) : Prop where
  steps : μ.vm.stats.steps ≤ B
  overrun : ∀ id code o a b, μ.turn = some ⟨id, code, .halted o a⟩ → o.overrun? = some b →
    b = B ∧ μ.vm.stats.steps = B

/-- Between turns, no turn has failed. -/
theorem Paid.idle {vm : Vm σ} {log : List (TaskId × Event)} (h : vm.stats.steps ≤ B) :
    Paid B (.idle vm log) := ⟨h, fun _ _ _ _ _ => idle_turn⟩

/-- What a single step pays. -/
theorem Step.paid (hbudget : μ.vm.options.stepBudget = some B) (hpaid : Paid B μ) (h : Step Ω μ μ') :
    Paid B μ' := by
  cases h with
  | @spawn vm vm' _ m name args id _ _ done =>
    rcases Vm.spawn_cases m name args vm with h | ⟨vm₁, h, hsteps⟩
    · cases h.symm.trans done
    · cases h.symm.trans done
      exact .idle (Nat.le_trans (Nat.le_of_eq hsteps) hpaid.steps)
  | surroundings | promote => exact .idle hpaid.steps
  | prepare _ found _ done =>
    refine .idle ?_
    rcases prepareGenerator_cases (Schedule.id_of_get? found) done with
      ⟨_, -, rfl⟩ | ⟨_, _, -, -, -, rfl⟩ | ⟨rfl, -⟩
    all_goals exact hpaid.steps
  | @record vm _ id _ o a =>
    exact .idle (Nat.le_trans (Nat.le_of_eq (Vm.steps_record id o (vm.leave id a))) hpaid.steps)
  | @begin vm _ id mode schedule t f =>
    refine ⟨hpaid.steps, fun _ _ o a b hturn hover => ?_⟩
    have hrouted := congrArg Turn.progress (Option.some.inj hturn)
    cases hresume : t.frame.resume mode with
    | mk route frame =>
      simp only [hresume, Activation.routed] at hrouted
      cases route with
      | goto pc => cases hrouted
      | escaped o' =>
        cases hrouted
        rw [(Frame.isEscape_resume (congrArg Prod.fst hresume)).overrun?] at hover
        cases hover
  | instruct affordable =>
    rename_i vm log id code pc a
    have hlt : vm.stats.steps < B := by
      refine Nat.lt_of_not_le fun hle => ?_
      rw [show vm.options.stepBudget = some B from hbudget, Activation.exhausted?_some hle] at affordable
      cases affordable
    refine ⟨hlt, fun _ _ o a' b hturn hover => ?_⟩
    have hstep := congrArg Turn.progress (Option.some.inj hturn)
    rw [Activation.overrun?_step hstep] at hover
    cases hover
  | exhaust exhausted =>
    rename_i vm log id code pc b a
    rw [show vm.options.stepBudget = some B from hbudget] at exhausted
    obtain ⟨rfl, hle⟩ := Activation.of_exhausted? exhausted
    refine ⟨hpaid.steps, fun _ _ o a' b' hturn hover => ?_⟩
    cases hturn
    exact ⟨(Option.some.inj hover).symm, Nat.le_antisymm hpaid.steps hle⟩

theorem Leads.paid (hbudget : μ.vm.options.stepBudget = some B) (hpaid : Paid B μ)
    (h : Leads Ω μ μ') : Paid B μ' := by
  induction h with
  | refl => exact hpaid
  | tail hleads hstep ih => exact hstep.paid (by rw [Leads.options_eq hleads]; exact hbudget) ih

/-- What is paid in whatever a machine goes through. -/
theorem Reached.paid (hbudget : μ.vm.options.stepBudget = some B) (h : Reached Ω μ) : Paid B μ := by
  obtain ⟨options, world, -, hleads⟩ := h
  rw [hleads.options_eq] at hbudget
  exact hleads.paid hbudget (.idle (Nat.zero_le B))

variable {vm vm' : Vm σ} {b : Nat} {host : Host σ}

/-- An operation fails for want of budget. -/
inductive Overruns (host : Host σ) (b : Nat) (vm vm' : Vm σ) : Prop
  | run {fuel : Nat} {m : Module} {name : String} {args : List Value}
      (done : Vm.run host fuel m name args vm = .error (.error (.fault (.budgetExceeded b))) vm')
  | runUntilIdle {fuel : Nat}
      (done : Vm.runUntilIdle host fuel vm = .error (.error (.fault (.budgetExceeded b))) vm')
  | resumeGenerator {fuel : Nat} {id : TaskId} {mode : Resume}
      (done : Vm.resumeGenerator host fuel id mode vm =
        .error (.error (.fault (.budgetExceeded b))) vm')

theorem Reached.paid_gets (hbudget : μ.vm.options.stepBudget = some B) (h : Reached Ω μ)
    (hgets : Gets Ω μ
      (.error (.error (.fault (.budgetExceeded b))) vm' : EStateM.Result Stop (Vm σ) α)) :
    b = B ∧ vm'.stats.steps = B := by
  obtain ⟨vm₁, id, code, a, log', hleads, rfl⟩ := hgets
  have hpaid := (h.leads hleads).paid (by rw [hleads.options_eq]; exact hbudget)
  obtain ⟨hb, hsteps⟩ := hpaid.overrun _ _ _ _ b rfl rfl
  exact ⟨hb, (Vm.steps_record id _ (vm₁.leave id a)).trans hsteps⟩

/-- **The budget bounds every run.** On a machine with a budget, whatever code its tasks
execute and whatever the host does: every operation comes to its end; a machine that a host
comes by has executed no more instructions than the budget, nor has it at any moment in
between; and an operation or a turn fails for want of budget only when all of it is paid. -/
theorem budget_bounds (hbudget : vm.options.stepBudget = some B) :
    ((∀ m name args, Vm.Returns (fun fuel => Vm.run host fuel m name args) vm) ∧
      Vm.Returns (Vm.runUntilIdle host) vm ∧
      ∀ id mode, Vm.Returns (fun fuel => Vm.resumeGenerator host fuel id mode) vm) ∧
    (Operated (.any host) vm → vm.stats.steps ≤ B ∧
      ∀ b vm', Overruns host b vm vm' → b = B ∧ vm'.stats.steps = B) ∧
    ∀ turn log, Reached (.any host) ⟨vm, turn, log⟩ → vm.stats.steps ≤ B ∧
      ∀ id code b a, turn = some ⟨id, code, .halted (.failed (.budgetExceeded b)) a⟩ →
        b = B ∧ vm.stats.steps = B := by
  refine ⟨⟨fun m name args => ?_, ?_, fun id mode => ?_⟩, fun hoperated => ?_, fun turn log h => ?_⟩
  · exact Vm.run_returns host m name args vm hbudget
  · exact Vm.runUntilIdle_returns host vm hbudget
  · exact Vm.resumeGenerator_returns host id mode vm hbudget
  · obtain ⟨log, h⟩ := hoperated.reached
    refine ⟨(h.paid hbudget).steps, fun b vm' hoverruns => ?_⟩
    cases hoverruns with
    | run done =>
      exact h.paid_gets hbudget (done ▸ run_gets (Ω := .any host) h trivial fun _ _ => trivial)
    | runUntilIdle done => exact h.paid_gets hbudget (done ▸ runUntilIdle_gets h)
    | resumeGenerator done =>
      exact h.paid_gets hbudget (done ▸ resumeGenerator_gets (Ω := .any host) h fun _ _ => trivial)
  · have hpaid := h.paid hbudget
    refine ⟨hpaid.steps, fun id code b a hturn => ?_⟩
    exact hpaid.overrun id code _ a b hturn rfl

/-- A module with a function that jumps to where it stands. -/
def spinner : Module := { Module.named "m" with
  functions := [⟨"f", .normal, 0, 0, 0, (Instr.jmp (-5)).encode⟩] }

/-- A machine on which three instructions may be executed. -/
def threeSteps : Vm Unit := .create ⟨0, some 3⟩ ⟨.empty, ()⟩

/-- The budget for want of which an operation failed. -/
def overrun? : EStateM.Result Stop (Vm σ) α → Option Nat
  | .error (.error (.fault (.budgetExceeded b))) _ => some b
  | _ => none

theorem of_overrun? {x : EStateM.Result Stop (Vm σ) α} (h : overrun? x = some b) :
    ∃ vm', x = .error (.error (.fault (.budgetExceeded b))) vm' := by
  unfold overrun? at h
  split at h
  · cases h
    exact ⟨_, rfl⟩
  · cases h

theorem budget_bounds_spinner : ∃ host : Host Unit, ∃ b vm', Overruns host b threeSteps vm' ∧
    b = 3 ∧ vm'.stats.steps = 3 := by
  let host : Host Unit := fun _ _ _ => pure .undefined
  obtain ⟨vm', hrun⟩ := of_overrun? (x := Vm.run host 5 spinner "f" [] threeSteps) (b := 3)
    (by decide +kernel)
  obtain ⟨-, hoperated, -⟩ := @budget_bounds _ 3 threeSteps host rfl
  exact ⟨host, 3, vm', .run hrun, (hoperated (.create trivial)).2 3 vm' (.run hrun)⟩

end Moment
end ResourceMachine
