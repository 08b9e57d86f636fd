/-
# The life of a task

A task, from the turn in which it starts to the one in which it ends, is one session: the
session of its call, with a reply for each time that it was resumed (`Lives`). What the
task had a part in is the trace of that session. A task that is queued or parked is
suspended or was never started (`Takes`, `Parked`), so that a turn always begins where the
last one of the same task stopped (`Takes.begin`).

Key definitions: `Call`, `Lives`, `Life`, `Takes`, `InTurn`.
Key theorems: `Lives.resume`, `Takes.begin`, `InTurn.instruct`, `InTurn.life`.
-/
import ResourceMachine.Proofs.Capacity
import ResourceMachine.Proofs.Moment

namespace ResourceMachine

/-! ### Sessions with one more reply -/

namespace Session

variable {σ : Type} {host : Host σ} {code : Bytes} {s s' : Session σ}

/-- The session of a call that gets one more reply: at once, if it waits for one. -/
def supply (s : Session σ) (r : Reply σ) : Session σ :=
  let later := { s with script := s.script ++ [r] }
  match s.control with
  | .running _ => later
  | .ended o =>
    match o.suspension?, s.script with
    | some p, [] => s.reply p r []
    | _, _ => later

theorem supply_halt (s : Session σ) (r : Reply σ) (o : Outcome) :
    ({ s with script := s.script ++ [r] } : Session σ).halt o = (s.halt o).supply r := by
  obtain ⟨control, frame, world, globals, script, trace⟩ := s
  match ho : o.suspension?, script with
  | none, script => simp only [halt, ho, supply]
  | some p, [] =>
    simp only [halt, ho, supply, List.nil_append]
    rfl
  | some p, r' :: rest =>
    simp only [halt, ho, List.cons_append]
    match hx : frame.resume (p.accept r'.answer).mode with
    | (.goto pc, f) =>
      simp only [reply, hx, route, supply]
    | (.escaped o', f) =>
      have ho' : o'.suspension? = none := (Frame.isEscape_resume (by rw [hx])).suspension?
      simp only [reply, hx, route, supply, ho']

theorem supply_step {r : Reply σ} (hs : s.supply r = { s with script := s.script ++ [r] })
    (h : s.step host code = some s') : (s.supply r).step host code = some (s'.supply r) := by
  rw [hs]
  obtain ⟨control, frame, world, globals, script, trace⟩ := s
  cases control with
  | ended o => cases h
  | running pc =>
    have hs' := Option.some.inj h
    refine congrArg some ?_
    rw [← hs']
    match hx : Activation.step ⟨host, globals⟩ code pc ⟨frame, world⟩ with
    | .running pc' a =>
      simp only [proceed, supply, update]
    | .halted o a =>
      simp only [proceed, ← supply_halt]
      rfl

end Session

theorem Steps.supply {σ : Type} {host : Host σ} {code : Bytes} {k : Nat} {s s' : Session σ}
    {r : Reply σ} (h : Steps host code k s s') {pc : Nat} (hs : s.control = .running pc) :
    Steps host code k (s.supply r) (s'.supply r) := by
  induction h generalizing pc with
  | refl => exact .refl _
  | @step k s s₁ s' head tail ih =>
    have hlater : s.supply r = { s with script := s.script ++ [r] } := by simp only [Session.supply, hs]
    have hhead := Session.supply_step hlater head
    cases hs₁ : s₁.control with
    | running pc' => exact .step hhead (ih hs₁)
    | ended o =>
      obtain ⟨rfl, rfl⟩ := tail.of_ended hs₁
      exact .single hhead

theorem Steps.snoc {σ : Type} {host : Host σ} {code : Bytes} {k : Nat} {s s' s'' : Session σ}
    (h : Steps host code k s s') (hstep : s'.step host code = some s'') :
    Steps host code (k + 1) s s'' := h.trans (.single hstep)

/-! ### Calls -/

/-- A call of a function of a module. -/
structure Call where
  unit : Module
  index : Nat
  function : Function
  args : List Value
  found : unit.functions[index]? = some function

namespace Call

/-- The frame at its entry. -/
def first (c : Call) (capacity : Nat) : Frame := Frame.start c.unit c.index c.args capacity

theorem setup_first (c : Call) (capacity : Nat) :
    (c.first capacity).setup = (c.unit, c.index, capacity) := rfl

end Call

section

variable {σ : Type} (Ω : Surroundings σ) (P : Resume → World σ → Globals → Prop) (capacity : Nat)

/-- A session of a call that has used up its replies. The call was entered, and resumed
each time, where `P` holds. -/
def Lives (c : Call) (s : Session σ) : Prop :=
  ∃ k world globals script, P .start world globals ∧
    (∀ r ∈ script, P r.answer.mode r.world r.globals) ∧
    Steps Ω.host c.function.code k (.start (c.first capacity) world globals script) s ∧ s.script = []

/-- The state of a task whose last turn has ended so. A generator that handed out a value
is running again when it is to be resumed. -/
inductive After : Outcome → TaskState → Prop
  | completed {v : Value} : After (.completed v) (.completed v)
  | threw {e : Value} : After (.threw e) (.threw e)
  | awaits {v : Value} : After (.awaits v) .awaiting
  | yields {v : Value} : After (.yields v) (.yielded v)
  | resumed {v : Value} : After (.yields v) .running
  | failed {f : Fault} : After (.failed f) .failed

/-- What a host is to see of a task in this state. -/
def TaskState.status : TaskState → TaskStatus
  | .created | .running | .awaiting | .failed => .pending
  | .yielded v => .yielded v
  | .completed v => .returned v
  | .threw e => .threw e

/-- The state in which a turn that ended so leaves its task. -/
def Outcome.state : Outcome → TaskState
  | .completed v => .completed v
  | .threw e => .threw e
  | .awaits _ => .awaiting
  | .yields v => .yielded v
  | .failed _ => .failed

theorem After.state (o : Outcome) : After o o.state := by
  cases o with
  | completed v => exact .completed
  | threw e => exact .threw
  | awaits v => exact .awaits
  | yields v => exact .yields
  | failed f => exact .failed

namespace Outcome

/-- What an outcome makes of the task whose turn it ends. What a host sees of it changes where
the outcome has a value to show. -/
def settle (o : Outcome) (t : Task) : Task :=
  match o with
  | .awaits _ => { t.recordAwait with state := o.state }
  | .yields v => { t.recordYield with state := o.state, status := .yielded v }
  | .completed v => { t with state := o.state, status := .returned v }
  | .threw e => { t with state := o.state, status := .threw e }
  | .failed _ => { t with state := o.state }

variable (o : Outcome) (t : Task)

theorem settle_id : (o.settle t).id = t.id := by cases o <;> rfl

theorem settle_kind : (o.settle t).kind = t.kind := by cases o <;> rfl

theorem settle_frame : (o.settle t).frame = t.frame := by cases o <;> rfl

theorem settle_state : (o.settle t).state = o.state := by cases o <;> rfl

end Outcome

/-- How a generator that is resumed is queued, and what becomes of it. One that had handed out
a value shows it no longer. -/
inductive Task.Revives (t : Task) : Resume → (Task → Task) → Prop
  | start (state : t.state = .created) : Revives t .start fun t => { t with state := .running }
  | again {v : Value} (a : Answer) (state : t.state = .yielded v) :
      Revives t a.mode fun t => { t with state := .running, status := .pending }

namespace Task.Revives

variable {t : Task} {mode : Resume} {g : Task → Task}

theorem id (h : t.Revives mode g) (u : Task) : (g u).id = u.id := by cases h <;> rfl

theorem kind (h : t.Revives mode g) (u : Task) : (g u).kind = u.kind := by cases h <;> rfl

theorem frame (h : t.Revives mode g) (u : Task) : (g u).frame = u.frame := by cases h <;> rfl

theorem running (h : t.Revives mode g) (u : Task) : (g u).state = .running := by cases h <;> rfl

end Task.Revives

/-- What a task that does not have its turn had a part in. -/
inductive Life (c : Call) (t : Task) : List Event → Prop
  | fresh (frame : t.frame = c.first capacity) (state : t.state = .created ∨ t.state = .running) :
      Life c t []
  | closed {v : Value} (frame : t.frame = c.first capacity) (state : t.state = .completed v) :
      Life c t [.resume (.ret v)]
  | refused {e : Value} (frame : t.frame = c.first capacity) (state : t.state = .threw e) :
      Life c t [.resume (.throw e)]
  | stopped {s : Session σ} {o : Outcome} (lives : Lives Ω P capacity c s)
      (ended : s.control = .ended o) (frame : t.frame = s.frame) (state : After o t.state) :
      Life c t s.trace
  | exhausted {s : Session σ} {pc : Nat} (lives : Lives Ω P capacity c s)
      (running : s.control = .running pc) (setup : t.frame.setup = s.frame.setup)
      (state : t.state = .failed) : Life c t s.trace

/-- How a task that is queued or parked can be resumed. -/
inductive Takes (c : Call) (t : Task) : List Event → Resume → Prop
  | start (frame : t.frame = c.first capacity)
      (state : t.state = .created ∧ t.kind.isGenerator = false ∨ t.state = .running) :
      Takes c t [] .start
  | awaited {s : Session σ} {v : Value} {a : Answer} (lives : Lives Ω P capacity c s)
      (ended : s.control = .ended (.awaits v)) (frame : t.frame = s.frame) (state : t.state = .awaiting)
      (accepts : (Suspension.await v).accept a = a) : Takes c t s.trace a.mode
  | yielded {s : Session σ} {v : Value} {a : Answer} (lives : Lives Ω P capacity c s)
      (ended : s.control = .ended (.yields v)) (frame : t.frame = s.frame) (state : t.state = .running) :
      Takes c t s.trace a.mode

/-- A task that waits for a promise. -/
structure Parked (c : Call) (t : Task) (es : List Event) (promise : Nat) : Prop where
  session : ∃ s, Lives Ω P capacity c s ∧ s.control = .ended (.awaits (.promise promise)) ∧
    t.frame = s.frame ∧ s.trace = es
  state : t.state = .awaiting

/-- A session stands where a run does, which may be at the end of its budget. -/
def Session.At (s : Session σ) (budget : Option Nat) : Progress σ → Prop
  | .running pc a => s.control = .running pc ∧ s.frame = a.frame ∧ s.world = a.world
  | .halted o a => s.world = a.world ∧
      (s.control = .ended o ∧ s.frame = a.frame ∨
        ∃ pc b, s.control = .running pc ∧ budget = some b ∧ o = .failed (.budgetExceeded b) ∧
          a.frame.setup = s.frame.setup)

/-- A task that has its turn: its session stands where its run does. -/
def InTurn (options : VmOptions) (c : Call) (globals : Globals) (p : Progress σ) (es : List Event) :
    Prop :=
  ∃ s, Lives Ω P options.stackCapacity c s ∧ s.trace = es ∧ s.globals = globals ∧
    s.At options.stepBudget p

/-- A task and the call that it makes. -/
structure Makes (c : Call) (t : Task) : Prop where
  loaded : Ω.loaded c.unit
  supplied : ∀ v ∈ c.args, Ω.supplies v
  kind_eq : t.kind = c.function.kind

end

/-! ### One session -/

section

variable {σ : Type} {Ω : Surroundings σ} {P : Resume → World σ → Globals → Prop} {capacity : Nat}
  {options : VmOptions} {c : Call} {s s' : Session σ} {world : World σ} {globals : Globals}

namespace Lives

theorem start (h : P .start world globals) :
    Lives Ω P capacity c (.start (c.first capacity) world globals []) :=
  ⟨0, world, globals, [], h, nofun, .refl _, rfl⟩

theorem setup (h : Lives Ω P capacity c s) : s.frame.setup = (c.unit, c.index, capacity) := by
  obtain ⟨k, world, globals, script, -, -, hrun, -⟩ := h
  exact hrun.setup

theorem script_nil (h : Lives Ω P capacity c s) : s.script = [] := by
  obtain ⟨_, _, _, _, -, -, -, hscript⟩ := h
  exact hscript

theorem step (h : Lives Ω P capacity c s) (hstep : s.step Ω.host c.function.code = some s') :
    Lives Ω P capacity c s' := by
  obtain ⟨k, world, globals, script, hP, hscript, hrun, hnil⟩ := h
  refine ⟨k + 1, world, globals, script, hP, hscript, hrun.snoc hstep, ?_⟩
  unfold Session.step at hstep
  split at hstep
  · cases hstep
  · rename_i pc _
    rw [← Option.some.inj hstep]
    cases Activation.step ⟨Ω.host, s.globals⟩ c.function.code pc ⟨s.frame, s.world⟩ with
    | running pc' a => exact hnil
    | halted o a =>
      simp only [Session.proceed, Session.halt, Session.update, hnil]
      cases o.suspension? <;> rfl

/-- A call that was suspended goes on with the next reply. -/
theorem resume {o : Outcome} {p : Suspension} {a : Answer} (h : Lives Ω P capacity c s)
    (hs : s.control = .ended o) (ho : o.suspension? = some p) (hP : P a.mode world globals) :
    Lives Ω P capacity c (s.reply p ⟨a, world, globals⟩ []) := by
  obtain ⟨k, world₀, globals₀, script, hP₀, hscript, hrun, hnil⟩ := h
  have hsupply := hrun.supply (r := ⟨a, world, globals⟩)
    (show _ = Control.running (c.first capacity).ip from rfl)
  refine ⟨k, world₀, globals₀, script ++ [⟨a, world, globals⟩], hP₀, ?_, ?_, ?_⟩
  · intro r hr
    rcases List.mem_append.mp hr with hr | hr
    · exact hscript r hr
    · rw [List.mem_singleton.mp hr]
      exact hP
  · have heq : s.supply ⟨a, world, globals⟩ = s.reply p ⟨a, world, globals⟩ [] := by
      simp only [Session.supply, hs, ho, hnil]
    rwa [heq] at hsupply
  · show (Session.route _ (s.frame.resume (p.accept a).mode)).script = []
    rcases s.frame.resume (p.accept a).mode with ⟨_ | _, f⟩ <;> rfl

end Lives

/-- A task that can be resumed runs the function of its call. -/
theorem Takes.setup {t : Task} {es : List Event} {mode : Resume}
    (h : Takes Ω P capacity c t es mode) : t.frame.setup = (c.unit, c.index, capacity) := by
  cases h with
  | start frame => rw [frame, c.setup_first]
  | awaited lives _ frame | yielded lives _ frame => rw [frame, lives.setup]

theorem Takes.state {t : Task} {es : List Event} {mode : Resume} (h : Takes Ω P capacity c t es mode) :
    t.state = .running ∨ t.state = .awaiting ∨ t.state = .created ∧ t.kind.isGenerator = false := by
  cases h with
  | start _ state =>
    rcases state with h | h
    · exact .inr (.inr h)
    · exact .inl h
  | awaited _ _ _ state => exact .inr (.inl state)
  | yielded _ _ _ state => exact .inl state

theorem Life.setup {t : Task} {es : List Event} (h : Life Ω P capacity c t es) :
    t.frame.setup = (c.unit, c.index, capacity) := by
  cases h with
  | fresh frame | closed frame | refused frame => rw [frame, c.setup_first]
  | stopped lives _ frame => rw [frame, lives.setup]
  | exhausted lives _ setup => rw [setup, lives.setup]

/-- A created task was not started. -/
theorem Life.of_created {t : Task} {es : List Event} (h : Life Ω P capacity c t es)
    (hstate : t.state = .created) : t.frame = c.first capacity ∧ es = [] := by
  cases h with
  | fresh frame => exact ⟨frame, rfl⟩
  | closed _ state | refused _ state | exhausted _ _ _ state => simp [hstate] at state
  | stopped _ _ _ state =>
    rw [hstate] at state
    cases state

/-- A generator that has handed out a value is suspended there. -/
theorem Life.of_yielded {t : Task} {es : List Event} {v : Value} (h : Life Ω P capacity c t es)
    (hstate : t.state = .yielded v) : ∃ s, Lives Ω P capacity c s ∧
      s.control = .ended (.yields v) ∧ t.frame = s.frame ∧ s.trace = es := by
  cases h with
  | fresh _ state => simp [hstate] at state
  | closed _ state | refused _ state | exhausted _ _ _ state => simp [hstate] at state
  | stopped lives ended frame state =>
    rw [hstate] at state
    cases state
    exact ⟨_, lives, ended, frame, rfl⟩

/-- A routed session stands where the run of the frame does. -/
theorem Session.at_route {s : Session σ} {a : Activation σ} {budget : Option Nat}
    (h : s.world = a.world) (r : Route × Frame) : (s.route r).At budget (a.routed r) := by
  match r with
  | (.goto pc, f) => exact ⟨rfl, rfl, h⟩
  | (.escaped o, f) => exact ⟨h, .inl ⟨rfl, rfl⟩⟩

/-- A task that is resumed has its turn. -/
theorem Takes.begin {t : Task} {es : List Event} {mode : Resume}
    (h : Takes Ω P options.stackCapacity c t es mode) (hP : P mode world globals) :
    InTurn Ω P options c globals (Activation.routed ⟨t.frame, world⟩ (t.frame.resume mode))
      (es ++ mode.events) := by
  cases h with
  | start frame =>
    rw [frame]
    exact ⟨_, .start hP, rfl, rfl, rfl, rfl, rfl⟩
  | @awaited s v a lives ended frame state accepts =>
    refine ⟨_, lives.resume ended rfl hP, ?_, ?_, ?_⟩
    · rw [Session.reply, Session.route_trace, accepts]
      cases a <;> rfl
    · show (Session.route _ (s.frame.resume ((Suspension.await v).accept a).mode)).globals = globals
      rcases s.frame.resume ((Suspension.await v).accept a).mode with ⟨_ | _, f⟩ <;> rfl
    · rw [frame, Session.reply, accepts]
      exact Session.at_route rfl _
  | @yielded s v a lives ended frame state =>
    refine ⟨_, lives.resume ended rfl hP, ?_, ?_, ?_⟩
    · rw [Session.reply, Session.route_trace]
      cases a <;> rfl
    · show (Session.route _ (s.frame.resume ((Suspension.yield v).accept a).mode)).globals = globals
      rcases s.frame.resume ((Suspension.yield v).accept a).mode with ⟨_ | _, f⟩ <;> rfl
    · rw [frame, Session.reply]
      exact Session.at_route rfl _

/-- A task that has its turn executes an instruction. -/
theorem InTurn.instruct {pc : Nat} {a : Activation σ} {es : List Event}
    (h : InTurn Ω P options c globals (.running pc a) es) :
    InTurn Ω P options c globals (a.step ⟨Ω.host, globals⟩ c.function.code pc)
      (es ++ a.events ⟨Ω.host, globals⟩ c.function.code pc) := by
  obtain ⟨s, hlives, rfl, rfl, hpc, hframe, hworld⟩ := h
  obtain ⟨control, frame, world, globals, script, trace⟩ := s
  obtain ⟨f, w⟩ := a
  cases hpc
  cases hframe
  cases hworld
  have hnil : script = [] := hlives.script_nil
  subst hnil
  refine ⟨_, hlives.step rfl, ?_, ?_, ?_⟩
  all_goals
    generalize Activation.step ⟨Ω.host, globals⟩ c.function.code pc ⟨frame, world⟩ = p
    match p with
    | .running pc' a' => first | rfl | exact ⟨rfl, rfl, rfl⟩
    | .halted o a' =>
      simp only [Session.proceed, Session.halt, Session.update]
      cases o.suspension? <;> first | rfl | exact ⟨rfl, .inl ⟨rfl, rfl⟩⟩

/-- The budget ends a turn. -/
theorem InTurn.exhaust {pc b : Nat} {a : Activation σ} {es : List Event}
    (h : InTurn Ω P options c globals (.running pc a) es) (hb : options.stepBudget = some b) :
    InTurn Ω P options c globals (.halted (.failed (.budgetExceeded b)) (a.keepIp pc)) es := by
  obtain ⟨s, hlives, htrace, hglobals, hpc, hframe, hworld⟩ := h
  exact ⟨s, hlives, htrace, hglobals, hworld, .inr ⟨pc, b, hpc, hb, rfl, by rw [hframe]; rfl⟩⟩

/-- A task whose turn has ended lives on. -/
theorem InTurn.life {o : Outcome} {a : Activation σ} {es : List Event} {t : Task}
    (h : InTurn Ω P options c globals (.halted o a) es) (hframe : t.frame = a.frame)
    (hstate : After o t.state) : Life Ω P options.stackCapacity c t es := by
  obtain ⟨s, hlives, rfl, -, -, ⟨hs, hsame⟩ | ⟨pc, b, hs, -, rfl, hsetup⟩⟩ := h
  · exact .stopped hlives hs (hframe.trans hsame.symm) hstate
  · refine .exhausted hlives hs (by rw [hframe, hsetup]) ?_
    generalize t.state = st at hstate
    cases hstate
    rfl

end

end ResourceMachine
