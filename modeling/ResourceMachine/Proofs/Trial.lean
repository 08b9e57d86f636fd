/-
# Trials

A machine can be tried out: what happens between the moves of a host is determined
(`Moment.next`), so that the moment to which a host gets with its moves can be computed.

Verification finds nothing in functions that were compiled, so a trial can do without it
(`Moment.trial_eq`).

Key definitions: `Moment.next`, `Move`, `Moment.trial`, `Moment.rehearsal`.
Key theorems: `Moment.Reached.of_trial`, `Moment.trial_eq`.
-/
import ResourceMachine.Proofs.Acceptance
import ResourceMachine.Proofs.Moment

namespace ResourceMachine

/-- What a host does with a machine: it lets it make a number of steps, or resumes a
generator. -/
inductive Move where
  | run (steps : Nat)
  | resume (id : TaskId) (mode : Resume)

/-! ### What can be seen of a moment -/

namespace TaskState

/-- What a task has come to that has returned. -/
def returned? : TaskState → Option Value
  | completed v => some v
  | _ => none

/-- What a task has thrown. -/
def thrown? : TaskState → Option Value
  | threw e => some e
  | _ => none

theorem completed_of_returned? {st : TaskState} {v : Value} (h : st.returned? = some v) :
    st = completed v := by
  cases st <;> cases h
  rfl

theorem threw_of_thrown? {st : TaskState} {e : Value} (h : st.thrown? = some e) : st = threw e := by
  cases st <;> cases h
  rfl

end TaskState

namespace Moment

variable {σ : Type} {Ω : Surroundings σ}

/-- The fault that a turn has failed with. -/
def fault? (μ : Moment σ) : Option Fault :=
  match μ.turn with
  | some ⟨_, _, .halted (.failed f) _⟩ => some f
  | _ => none

theorem turn_of_fault? {μ : Moment σ} {f : Fault} (h : μ.fault? = some f) :
    ∃ id code a, μ.turn = some ⟨id, code, .halted (.failed f) a⟩ := by
  unfold fault? at h
  split at h
  · cases h
    exact ⟨_, _, _, ‹_›⟩
  · cases h

/-! ### Moves -/

/-- What happens next if the host does nothing. -/
def next (host : Host σ) (μ : Moment σ) : Moment σ :=
  match μ with
  | ⟨vm, some ⟨id, code, .running pc a⟩, log⟩ =>
    match Activation.exhausted? vm.options.stepBudget vm.stats.steps with
    | some b => ⟨vm, some ⟨id, code, .halted (.failed (.budgetExceeded b)) (a.keepIp pc)⟩, log⟩
    | none =>
      ⟨vm.tally, some ⟨id, code, a.step ⟨host, vm.globals⟩ code pc⟩,
        log ++ id.events (a.events ⟨host, vm.globals⟩ code pc)⟩
  | ⟨vm, some ⟨id, _, .halted o a⟩, log⟩ => idle (stateOf (Vm.record id o (vm.leave id a))) log
  | ⟨vm, none, log⟩ =>
    match vm.schedule.popReady with
    | none => idle { vm with schedule := (vm.schedule.promote vm.world.heap).2 } log
    | some ((id, mode), schedule) =>
      match schedule.get? id with
      | none => ⟨vm, none, log⟩
      | some t =>
        match t.frame.function? with
        | none => ⟨vm, none, log⟩
        | some f =>
          ⟨{ vm with schedule := schedule.update id fun t => { t with state := .running } },
            some ⟨id, f.code, Activation.routed ⟨t.frame, vm.world⟩ (t.frame.resume mode)⟩,
            log ++ id.events mode.events⟩

theorem next_leads (μ : Moment σ) : Leads Ω μ (next Ω.host μ) := by
  unfold next
  split
  · split
    · exact .single (.exhaust ‹_›)
    · exact .single (.instruct ‹_›)
  · exact .single .record
  · split
    · exact .single .promote
    · split
      · exact .refl
      · split
        · exact .refl
        · exact .single (.begin ‹_› ‹_› ‹_›)

/-- The moment after some steps. -/
def run (host : Host σ) : Nat → Moment σ → Moment σ
  | 0, μ => μ
  | n + 1, μ => run host n (next host μ)

theorem run_leads : ∀ (n : Nat) (μ : Moment σ), Leads Ω μ (run Ω.host n μ)
  | 0, _ => .refl
  | n + 1, μ => (next_leads μ).trans (run_leads n _)

/-- The moment after a move. One that is refused has no effect. -/
def move (host : Host σ) (μ : Moment σ) : Move → Moment σ
  | .run n => run host n μ
  | .resume id mode =>
    match μ with
    | ⟨vm, some turn, log⟩ => ⟨vm, some turn, log⟩
    | ⟨vm, none, log⟩ =>
      match vm.schedule.get? id with
      | none => ⟨vm, none, log⟩
      | some t =>
        match t.kind.isGenerator, Vm.prepareGenerator t mode vm with
        | true, .ok () vm' => idle vm' (log ++ id.events (t.refusal mode))
        | _, _ => ⟨vm, none, log⟩

theorem move_leads {m : Move} (μ : Moment σ)
    (hm : ∀ id mode v, m = .resume id mode → mode.value? = some v → Ω.supplies v) :
    Leads Ω μ (move Ω.host μ m) := by
  cases m with
  | run n => exact run_leads n μ
  | resume id mode =>
    simp only [move]
    split
    · exact .refl
    · split
      · exact .refl
      · split
        · exact .single (.prepare (fun v => hm id mode v rfl) ‹_› ‹_› ‹_›)
        · exact .refl

/-- The moment to which a host gets that compiles declarations, calls one of the functions
on a new machine with these globals, and makes some moves. -/
def trial (host : Host σ) (options : VmOptions) (world : World σ) (globals : Globals)
    (ds : List Declaration) (name : String) (args : List Value) (moves : List Move) : Option (Moment σ) :=
  match Module.compile "m" ds with
  | .error _ => none
  | .ok m =>
    match Vm.spawn m name args { Vm.create options world with globals } with
    | .error _ _ => none
    | .ok _ vm => some (moves.foldl (move host) (idle vm []))

/-- A trial in which what was compiled is not verified. -/
def rehearsal (host : Host σ) (options : VmOptions) (world : World σ) (globals : Globals)
    (ds : List Declaration) (name : String) (args : List Value) (moves : List Move) : Option (Moment σ) :=
  match (Module.named "m").compileAll ds with
  | .error _ => none
  | .ok m =>
    match Vm.spawn m name args { Vm.create options world with globals } with
    | .error _ _ => none
    | .ok _ vm => some (moves.foldl (move host) (idle vm []))

/-- To verify what was compiled makes no difference. -/
theorem trial_eq {host : Host σ} {options : VmOptions} {world : World σ} {globals : Globals}
    {ds : List Declaration} {name : String} {args : List Value} {moves : List Move}
    (hnodes : Declaration.nodesAll ds < 2147483648) :
    trial host options world globals ds name args moves =
      rehearsal host options world globals ds name args moves := by
  unfold trial rehearsal
  cases hall : (Module.named "m").compileAll ds with
  | error x =>
    have hcompile : Module.compile "m" ds = .error x := by
      unfold Module.compile
      rw [hall]
      rfl
    rw [hcompile]
  | ok m => rw [Module.compile_of_compileAll hall hnodes]

/-- A trial reaches the moment to which it gets. -/
theorem Reached.of_trial {options : VmOptions} {world : World σ} {globals : Globals}
    {ds : List Declaration} {name : String} {args : List Value} {moves : List Move} {μ : Moment σ}
    (hnew : Ω.allows world []) (hglobals : Ω.allows world globals)
    (hloaded : ∀ m, Module.compile "m" ds = .ok m → Ω.loaded m) (hargs : ∀ v ∈ args, Ω.supplies v)
    (hmoves : ∀ id mode v, Move.resume id mode ∈ moves → mode.value? = some v → Ω.supplies v)
    (h : trial Ω.host options world globals ds name args moves = some μ) : Reached Ω μ := by
  unfold trial at h
  split at h
  · cases h
  · rename_i m hm
    split at h
    · cases h
    · rename_i vm hvm
      refine ⟨options, world, hnew, .head (.surroundings hglobals) (.head (.spawn (hloaded m hm) hargs hvm) ?_)⟩
      rw [← Option.some.inj h]
      generalize idle vm [] = μ₀
      clear h
      induction moves generalizing μ₀ with
      | nil => exact .refl
      | cons m ms ih =>
        have hhead := move_leads (m := m) μ₀ fun id mode v heq => hmoves id mode v (heq ▸ List.mem_cons_self)
        exact hhead.trans (ih (fun id mode v hmem => hmoves id mode v (List.mem_cons_of_mem _ hmem)) _)

end Moment
end ResourceMachine
