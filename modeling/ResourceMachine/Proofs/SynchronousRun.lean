/-
# Runs of synchronous functions

A machine on which nothing has happened runs a function that was compiled and is not
async and no generator just as evaluation says: the run ends if a call of the function
does, with the same status, in the same world, and after the same events; and otherwise
goes on for ever, doing one by one what the call does (`Module.run_compiled`).

Key definitions: `Activation.eventsFrom`, `Vm.fresh`, `Vm.eventsOfRun`, `Vm.EndsRun`,
`Declaration.EndsCall`, `Call.Named`.
Key theorems: `Call.Calls.endsCall_of_endsRun`, `Call.Calls.endsRun_of_endsCall`,
`Call.Calls.exhaustsRun_iff`, `Module.run_compiled`.
-/
import ResourceMachine.Host.Scripted
import ResourceMachine.Proofs.TaskInvariant
import Mathlib.Data.List.Nodup

namespace ResourceMachine

variable {σ : Type}

/-! ### What happens in a run -/

/-- What happens in a run of at most `fuel` instructions from `pc` on. -/
def Activation.eventsFrom (env : Env σ) (code : Bytes) : (fuel pc : Nat) → Activation σ → List Event
  | 0, _, _ => []
  | fuel + 1, pc, a =>
    a.events env code pc ++
      match a.step env code pc with
      | .running pc' a' => eventsFrom env code fuel pc' a'
      | .halted _ _ => []

/-- A session stands where a run without a budget has come to its end, or has used up its fuel. -/
def Session.HasRun (s : Session σ) (k fuel : Nat) : Option (Halt σ) → Prop
  | some halt => s.control = .ended halt.outcome ∧ s.world = halt.activation.world
  | none => k = fuel ∧ ∃ pc, s.control = .running pc

/-- A session without replies stops for good where its run does. -/
theorem Session.halt_nil {s : Session σ} (h : s.script = []) (o : Outcome) :
    s.halt o = { s with control := .ended o } := by
  unfold halt
  rw [h]
  cases o.suspension? <;> rfl

/-- A session gets as far as a run does that has no budget, and so does what happens in it. -/
theorem Session.runFrom (host : Host σ) (code : Bytes) : ∀ (fuel steps : Nat) {pc : Nat} {s : Session σ},
    s.control = .running pc → s.script = [] →
    ∃ k s', Steps host code k s s' ∧
      s'.trace = s.trace ++ Activation.eventsFrom ⟨host, s.globals⟩ code fuel pc ⟨s.frame, s.world⟩ ∧
      s'.HasRun k fuel
        (Activation.runFrom ⟨host, s.globals⟩ code none fuel steps pc ⟨s.frame, s.world⟩)
  | 0, _, pc, s, hs, _ => ⟨0, s, .refl s, (List.append_nil _).symm, rfl, pc, hs⟩
  | fuel + 1, steps, pc, s, hs, hscript => by
    let env : Env σ := ⟨host, s.globals⟩
    let a : Activation σ := ⟨s.frame, s.world⟩
    let t : Session σ := { s with trace := s.trace ++ a.events env code pc }
    have hstep : s.step host code = some (t.proceed (a.step env code pc)) := by
      rw [Session.step, hs]
      rfl
    cases hp : a.step env code pc with
    | running pc' a' =>
      have hrest : Activation.runFrom env code none (fuel + 1) steps pc a =
          Activation.runFrom env code none fuel (steps + 1) pc' a' := by
        simp only [Activation.runFrom, Activation.exhausted?, Option.filter_none, hp]
      have hevents : Activation.eventsFrom env code (fuel + 1) pc a =
          a.events env code pc ++ Activation.eventsFrom env code fuel pc' a' := by
        simp only [Activation.eventsFrom, hp]
      rw [hp] at hstep
      obtain ⟨k, s', hrun, htrace, hend⟩ := runFrom host code fuel (steps + 1)
        (s := t.update (.running pc') a') rfl hscript
      rw [hrest, hevents]
      refine ⟨k + 1, s', .step hstep hrun, htrace.trans (List.append_assoc ..), ?_⟩
      change s'.HasRun k fuel (Activation.runFrom env code none fuel (steps + 1) pc' a') at hend
      cases hhalt : Activation.runFrom env code none fuel (steps + 1) pc' a' with
      | some halt =>
        rw [hhalt] at hend
        exact hend
      | none =>
        rw [hhalt] at hend
        exact ⟨congrArg (· + 1) hend.1, hend.2⟩
    | halted o a' =>
      have hrest : Activation.runFrom env code none (fuel + 1) steps pc a = some ⟨o, steps + 1, a'⟩ := by
        simp only [Activation.runFrom, Activation.exhausted?, Option.filter_none, hp]
      have hevents : Activation.eventsFrom env code (fuel + 1) pc a = a.events env code pc := by
        simp only [Activation.eventsFrom, hp, List.append_nil]
      rw [hp, Session.proceed, halt_nil (s := t.update (.ended o) a') hscript] at hstep
      rw [hrest, hevents]
      exact ⟨1, _, .single hstep, rfl, rfl, rfl⟩

namespace Outcome

/-- What is seen of a task whose call has ended so. -/
def status? : Outcome → Option TaskStatus
  | completed v => some (.returned v)
  | threw e => some (.threw e)
  | _ => none

end Outcome

/-! ### Machines on which nothing has happened -/

namespace Vm

/-- A machine without a budget, on which there are no tasks. -/
def fresh (capacity : Nat) (world : World σ) (globals : Globals) : Vm σ :=
  { create ⟨capacity, none⟩ world with globals }

variable {m : Module} {name : String}

/-- What happens in a run of a function on a fresh machine: it is called from its entry. -/
def eventsOfRun (host : Host σ) (capacity : Nat) (world : World σ) (globals : Globals) (m : Module)
    (name : String) (args : List Value) : Nat → List Event
  | 0 => []
  | fuel + 1 =>
    match m.functions.findIdx? (·.name == name), m.function? name with
    | some index, some f =>
      Activation.eventsFrom ⟨host, globals⟩ f.code fuel 0 ⟨.start m index args capacity, world⟩
    | _, _ => []

/-- A run on a fresh machine ends with a status, in a world, after these events. -/
def EndsRun (host : Host σ) (capacity : Nat) (world : World σ) (globals : Globals) (m : Module)
    (name : String) (args : List Value) (status : TaskStatus) (world' : World σ) (es : List Event) : Prop :=
  ∃ fuel vm', run host fuel m name args (fresh capacity world globals) = .ok status vm' ∧
    vm'.world = world' ∧ eventsOfRun host capacity world globals m name args fuel = es

/-- A run on a fresh machine is out of fuel. -/
def ExhaustsRun (host : Host σ) (capacity : Nat) (world : World σ) (globals : Globals) (m : Module)
    (name : String) (args : List Value) (fuel : Nat) : Prop :=
  ∃ vm', run host fuel m name args (fresh capacity world globals) = .error .outOfFuel vm'

/-- On a fresh machine, running a function is one turn. -/
theorem run_fresh (host : Host σ) (capacity : Nat) (world : World σ) (globals : Globals)
    (args : List Value) (fuel : Nat) {index : Nat} {f : Function}
    (hindex : m.functions.findIdx? (·.name == name) = some index) (hf : m.function? name = some f)
    (hfound : m.functions[index]? = some f) (hkind : f.kind.isGenerator = false) :
    match Activation.runFrom ⟨host, globals⟩ f.code none fuel 0 0
      ⟨.start m index args capacity, world⟩ with
    | none => ExhaustsRun host capacity world globals m name args (fuel + 1)
    | some halt => ∀ status, halt.outcome.status? = some status →
        ∃ vm', run host (fuel + 1) m name args (fresh capacity world globals) = .ok status vm' ∧
          vm'.world = halt.activation.world := by
  let t : Task := .create ⟨0⟩ f (.start m index args capacity)
  let vm : Vm σ :=
    { fresh capacity world globals with
      nextTask := 1
      schedule := ⟨[t], [(⟨0⟩, .start)], []⟩
      stats := { VmStats.zero with tasksSpawned := 1 } }
  have hspawn : spawn m name args (fresh capacity world globals) = .ok ⟨0⟩ vm := by
    unfold spawn
    simp only [hindex, hf, hkind]
    rfl
  have hrun : run host (fuel + 1) m name args (fresh capacity world globals) =
      EStateM.bind (runUntilIdle host (fuel + 1)) (fun _ => status ⟨0⟩) vm := by
    unfold run
    simp only [bind, EStateM.bind, hspawn]
  have hturn : runUntilIdle host (fuel + 1) vm =
      EStateM.bind (execute host fuel ⟨0⟩ .start) (fun _ => runUntilIdle host fuel)
        { vm with schedule := ⟨[t], [], []⟩ } := Moment.runUntilIdle_turn rfl
  have hget : (Schedule.mk [t] [] []).get? ⟨0⟩ = some t := rfl
  have hfunction : t.frame.function? = some f := hfound
  have hexecute : execute host fuel ⟨0⟩ .start { vm with schedule := ⟨[t], [], []⟩ } = _ :=
    Moment.execute_eq hget
  rw [Activation.run, hfunction] at hexecute
  change _ =
    match Activation.runFrom ⟨host, globals⟩ f.code none fuel 0 0 ⟨.start m index args capacity, world⟩ with
    | none => _
    | some halt => _ at hexecute
  unfold ExhaustsRun
  rw [hrun]
  simp only [EStateM.bind, hturn, hexecute]
  cases hhalt : Activation.runFrom ⟨host, globals⟩ f.code none fuel 0 0
    ⟨.start m index args capacity, world⟩ with
  | none => exact ⟨_, rfl⟩
  | some halt =>
    obtain ⟨o, steps, a⟩ := halt
    intro status hstatus
    -- the turn took fuel, so there is some left to find the queue empty
    cases fuel with
    | zero => cases hhalt
    | succ fuel => cases o <;> cases hstatus <;> exact ⟨_, rfl, rfl⟩

end Vm

namespace Declaration

/-- A call ends with a status, in a world, after these events. -/
def EndsCall (d : Declaration) (host : Host σ) (world : World σ) (globals : Globals) (args : List Value)
    (status : TaskStatus) (world' : World σ) (es : List Event) : Prop :=
  ∃ n o S, d.run host n args (.initial world globals []) = (some o, S) ∧ o.status? = some status ∧
    S.world = world' ∧ S.trace = es

end Declaration

/-! ### Calls of compiled functions -/

/-- The function that a declaration was compiled to is called by its name. -/
theorem Module.Built.calls {ds : List Declaration} {m : Module} {d : Declaration} {c : Call}
    (h : Built ds m) (hsize : m.constants.size ≤ 4294967296) (hd : d ∈ ds) (hnodes : d.nodes ≤ 2147483647)
    (hunit : c.unit = m) (hname : c.function.name = d.name) : c.Calls d := by
  subst hunit
  obtain ⟨d', hd', hf⟩ := exists_left_of_forall₂ h.compiled (List.mem_of_getElem? c.found)
  obtain rfl : d' = d := by
    exact List.inj_on_of_nodup_map h.distinct hd' hd (hf.name_eq.symm.trans hname)
  exact ⟨hsize, hf.laid _ hsize (.refl _), hf.paramCount_eq, hf.kind_eq, hnodes⟩

/-- Nothing is assumed of a call, except that a synchronous one is never suspended. -/
def neverSuspended (σ : Type) : Invariant σ where
  fine _ := True
  holds _ _ := True
  left p _ := p = none

theorem neverSuspended_lawful (host : Host σ) : (neverSuspended σ).Lawful host .normal true where
  plain _ _ := trivial
  global _ _ := trivial
  fresh _ _ := trivial
  raise _ _ _ _ := trivial
  caught _ _ _ := ⟨trivial, trivial⟩
  fuel _ := rfl
  call _ _ _ := ⟨fun _ _ => trivial, trivial⟩
  setRval _ _ _ := trivial
  returns _ _ := trivial
  stop {_ _ p} hp _ _ := by cases p <;> cases hp.1
  next _ _ _ _ _ := ⟨trivial, trivial⟩
  throw _ _ _ _ _ _ := trivial
  close _ _ _ _ _ := trivial
  iterate _ _ := trivial
  nextItem _ _ := ⟨fun _ _ => trivial, trivial⟩
  closeIterator _ _ := ⟨fun _ _ => trivial, trivial⟩
  openScope _ := trivial
  closeScope _ _ := trivial
  register _ _ _ _ _ := trivial
  take _ _ _ _ := trivial
  dispose _ _ _ := ⟨fun _ _ => trivial, trivial⟩
  skip _ _ := trivial
  done _ := trivial

/-- A call of a synchronous function returns, throws or is out of fuel. -/
theorem Declaration.run_normal {d : Declaration} (hkind : d.kind = .normal) (hd : d.Valid) (host : Host σ)
    (n : Nat) (args : List Value) (world : World σ) (globals : Globals) :
    ∀ o, (d.run host n args (.initial world globals [])).1 = some o → ∃ status, o.status? = some status := by
  intro o ho
  have hkept : (neverSuspended σ).HoldsOf (d.run host n args (.initial world globals [])) :=
    Declaration.run_kept (hkind ▸ neverSuspended_lawful host) n hd (.inl rfl) (fun _ _ => trivial)
      trivial rfl
  generalize d.run host n args (.initial world globals []) = r at hkept ho
  obtain ⟨out, S⟩ := r
  cases ho
  cases o with
  | completed v => exact ⟨_, rfl⟩
  | threw e => exact ⟨_, rfl⟩
  | awaits v | yields v => cases hkept
  | failed f => exact hkept.elim

section

variable {host : Host σ} {capacity : Nat} {world : World σ} {globals : Globals} {c : Call} {d : Declaration}

/-- The session of a call gets as far as a run of it does. -/
theorem Call.runFrom (c : Call) (host : Host σ) (capacity : Nat) (world : World σ) (globals : Globals)
    (fuel : Nat) :
    ∃ k s', Steps host c.function.code k (.start (c.first capacity) world globals []) s' ∧
      s'.trace = Activation.eventsFrom ⟨host, globals⟩ c.function.code fuel 0 ⟨c.first capacity, world⟩ ∧
      s'.HasRun k fuel (Activation.runFrom ⟨host, globals⟩ c.function.code none fuel 0 0
        ⟨c.first capacity, world⟩) := by
  obtain ⟨k, s', hrun, htrace, hend⟩ := Session.runFrom host c.function.code fuel 0
    (s := .start (c.first capacity) world globals []) rfl rfl
  exact ⟨k, s', hrun, htrace.trans (List.nil_append _), hend⟩

/-- A run of a call that has ended has ended as a call of its declaration does. -/
theorem Call.Calls.run_ended (hc : c.Calls d) (hroom : c.function.maxStack ≤ capacity) {fuel : Nat}
    {halt : Halt σ} (h : Activation.runFrom ⟨host, globals⟩ c.function.code none fuel 0 0
      ⟨c.first capacity, world⟩ = some halt) :
    ∃ n S, d.run host n c.args (.initial world globals []) = (some halt.outcome, S) ∧
      S.world = halt.activation.world ∧
      S.trace = Activation.eventsFrom ⟨host, globals⟩ c.function.code fuel 0 ⟨c.first capacity, world⟩ := by
  obtain ⟨k, s', hrun, htrace, hend⟩ := c.runFrom host capacity world globals fuel
  rw [h] at hend
  obtain ⟨S, spot, hcall, rfl, -⟩ := (hc.entered host hroom world globals []).ended_eq hrun hend.1
  exact ⟨k + 1, S, hcall, hend.2, htrace⟩

/-- A call that has ended has ended as a run of it does. -/
theorem Call.Calls.run_of_ended (hc : c.Calls d) (hroom : c.function.maxStack ≤ capacity) {n : Nat}
    {o : Outcome} {S : CallState σ} (h : d.run host n c.args (.initial world globals []) = (some o, S)) :
    ∃ fuel halt, Activation.runFrom ⟨host, globals⟩ c.function.code none fuel 0 0
        ⟨c.first capacity, world⟩ = some halt ∧ halt.outcome = o ∧ halt.activation.world = S.world ∧
      Activation.eventsFrom ⟨host, globals⟩ c.function.code fuel 0 ⟨c.first capacity, world⟩ = S.trace := by
  obtain ⟨k, s, hrun, hends⟩ := (hc.entered host hroom world globals []).follows n
  change Setting.Ends _ n (d.run host n c.args (.initial world globals [])) k s at hends
  rw [h] at hends
  obtain ⟨spot, rfl, -⟩ := hends
  obtain ⟨j, s', hrun', htrace, hend⟩ := c.runFrom host capacity world globals k
  cases hhalt : Activation.runFrom ⟨host, globals⟩ c.function.code none k 0 0 ⟨c.first capacity, world⟩ with
  | none =>
    rw [hhalt] at hend
    obtain ⟨rfl, pc, hpc⟩ := hend
    obtain rfl := Steps.unique hrun hrun'
    cases hpc
  | some halt =>
    rw [hhalt] at hend
    obtain ⟨hcontrol, hworld⟩ := hend
    have heq : s' = (hc.setting host capacity hroom).ended spot o S := by
      rcases Nat.le_total j k with hjk | hkj
      · exact ((hrun'.split hrun hjk).of_ended hcontrol).2.symm
      · exact ((Steps.split hrun hrun' hkj).of_ended rfl).2
    subst heq
    cases hcontrol
    exact ⟨k, halt, hhalt, rfl, hworld.symm, htrace.symm⟩

/-- What happens in a run of a call is a part of what happens in a call. -/
theorem Call.Calls.eventsFrom_le (hc : c.Calls d) (hroom : c.function.maxStack ≤ capacity) (fuel : Nat) :
    ∃ n, Activation.eventsFrom ⟨host, globals⟩ c.function.code fuel 0 ⟨c.first capacity, world⟩ <+:
      (d.run host n c.args (.initial world globals [])).2.trace := by
  obtain ⟨k, s', hrun, htrace, -⟩ := c.runFrom host capacity world globals fuel
  exact ⟨k + 1, htrace ▸ (hc.entered host hroom world globals []).trace_le hrun⟩

/-- What happens in a call happens in a run of it. -/
theorem Call.Calls.le_eventsFrom (hc : c.Calls d) (hroom : c.function.maxStack ≤ capacity) (n : Nat) :
    ∃ fuel, (d.run host n c.args (.initial world globals [])).2.trace <+:
      Activation.eventsFrom ⟨host, globals⟩ c.function.code fuel 0 ⟨c.first capacity, world⟩ := by
  obtain ⟨k, s, hrun, hends⟩ := (hc.entered host hroom world globals []).follows n
  have hlast : s.trace = (d.run host n c.args (.initial world globals [])).2.trace := by
    change Setting.Ends _ n (d.run host n c.args (.initial world globals [])) k s at hends
    generalize d.run host n c.args (.initial world globals []) = r at hends
    match r, hends with
    | (some o, S), ⟨spot, hs, _⟩ => rw [hs]; rfl
    | (none, S), ⟨_, spot, hs⟩ => rw [hs]; rfl
  obtain ⟨j, s', hrun', htrace, hend⟩ := c.runFrom host capacity world globals k
  refine ⟨k, ?_⟩
  rw [← hlast, ← htrace]
  rcases Nat.le_total k j with hkj | hjk
  · exact (Steps.split hrun hrun' hkj).trace
  · cases hhalt : Activation.runFrom ⟨host, globals⟩ c.function.code none k 0 0
      ⟨c.first capacity, world⟩ with
    | none =>
      rw [hhalt] at hend
      obtain ⟨rfl, -⟩ := hend
      obtain rfl := Steps.unique hrun hrun'
      exact List.prefix_refl _
    | some halt =>
      rw [hhalt] at hend
      exact ((hrun'.split hrun hjk).of_ended hend.1).2 ▸ List.prefix_refl _

end

/-! ### Runs by name -/

/-- A call of the function that has a name and is no generator: a run of that name is a run
of this call. -/
structure Call.Named (c : Call) (name : String) : Prop where
  findIdx? : c.unit.functions.findIdx? (·.name == name) = some c.index
  function? : c.unit.function? name = some c.function
  notGenerator : c.function.kind.isGenerator = false

/-- A declaration is found under its name in the module that it was compiled into. -/
theorem Module.Built.exists_named {ds : List Declaration} {m : Module} {d : Declaration} (h : Built ds m)
    (hsize : m.constants.size ≤ 4294967296) (hd : d ∈ ds) (hnodes : d.nodes ≤ 2147483647)
    (hkind : d.kind = .normal) (args : List Value) :
    ∃ c : Call, c.unit = m ∧ c.args = args ∧ c.function ∈ m.functions ∧ c.function.name = d.name ∧
      c.Calls d ∧ c.Named d.name := by
  obtain ⟨f, hf⟩ : ∃ f, m.function? d.name = some f := by
    rw [← Option.isSome_iff_exists, Module.function?, List.find?_isSome]
    have hmem : d.name ∈ m.functions.map Function.name := by
      rw [h.names_eq]
      exact List.mem_map_of_mem hd
    obtain ⟨f, hf, hname⟩ := List.mem_map.mp hmem
    exact ⟨f, hf, beq_iff_eq.mpr hname⟩
  obtain ⟨index, hindex, hfound⟩ : ∃ index, m.functions.findIdx? (·.name == d.name) = some index ∧
      m.functions[index]? = some f := by
    have hfind : m.functions.find? (·.name == d.name) = some f := hf
    rw [List.find?_eq_bind_findIdx?_getElem?] at hfind
    exact Option.bind_eq_some_iff.mp hfind
  have hname : f.name = d.name := by simpa using List.find?_some hf
  have hc : Call.Calls ⟨m, index, f, args, hfound⟩ d := h.calls hsize hd hnodes rfl hname
  have hgenerator : f.kind.isGenerator = false := by
    rw [show f.kind = d.kind from hc.kind_eq, hkind]
    rfl
  exact ⟨⟨m, index, f, args, hfound⟩, rfl, rfl, List.mem_of_getElem? hfound, hname, hc,
    ⟨hindex, hf, hgenerator⟩⟩

section

variable {host : Host σ} {capacity : Nat} {world : World σ} {globals : Globals} {c : Call} {d : Declaration}
  {name : String} {fuel : Nat}

namespace Call.Named

theorem eventsOfRun_succ (h : c.Named name) (fuel : Nat) :
    Vm.eventsOfRun host capacity world globals c.unit name c.args (fuel + 1) =
      Activation.eventsFrom ⟨host, globals⟩ c.function.code fuel 0 ⟨c.first capacity, world⟩ := by
  simp only [Vm.eventsOfRun, h.findIdx?, h.function?]
  rfl

theorem exhausts_zero (h : c.Named name) :
    Vm.ExhaustsRun host capacity world globals c.unit name c.args 0 := by
  unfold Vm.ExhaustsRun Vm.run Vm.spawn
  simp only [h.findIdx?, h.function?, h.notGenerator]
  exact ⟨_, rfl⟩

/-- A run by name makes one turn, in which the call is run. -/
theorem exhausts_succ (h : c.Named name) (hrun : Activation.runFrom ⟨host, globals⟩ c.function.code none
      fuel 0 0 ⟨c.first capacity, world⟩ = none) :
    Vm.ExhaustsRun host capacity world globals c.unit name c.args (fuel + 1) := by
  have hturn := Vm.run_fresh host capacity world globals c.args fuel h.findIdx? h.function? c.found
    h.notGenerator
  change match Activation.runFrom ⟨host, globals⟩ c.function.code none fuel 0 0
    ⟨c.first capacity, world⟩ with | none => _ | some halt => _ at hturn
  rwa [hrun] at hturn

theorem run_succ (h : c.Named name) {halt : Halt σ} (hrun : Activation.runFrom ⟨host, globals⟩
      c.function.code none fuel 0 0 ⟨c.first capacity, world⟩ = some halt) {status : TaskStatus}
    (hstatus : halt.outcome.status? = some status) :
    ∃ vm', Vm.run host (fuel + 1) c.unit name c.args (Vm.fresh capacity world globals) =
      .ok status vm' ∧ vm'.world = halt.activation.world := by
  have hturn := Vm.run_fresh host capacity world globals c.args fuel h.findIdx? h.function? c.found
    h.notGenerator
  change match Activation.runFrom ⟨host, globals⟩ c.function.code none fuel 0 0
    ⟨c.first capacity, world⟩ with | none => _ | some halt => _ at hturn
  rw [hrun] at hturn
  exact hturn status hstatus

end Call.Named

namespace Call.Calls

/-- A run by name that has ended has ended as a call of the declaration does. -/
theorem endsCall_of_endsRun (hc : c.Calls d) (hn : c.Named name) (hkind : d.kind = .normal)
    (hroom : c.function.maxStack ≤ capacity) {status : TaskStatus} {world' : World σ} {es : List Event}
    (h : Vm.EndsRun host capacity world globals c.unit name c.args status world' es) :
    d.EndsCall host world globals c.args status world' es := by
  obtain ⟨fuel, vm', hvm, rfl, rfl⟩ := h
  cases fuel with
  | zero =>
    obtain ⟨_, hzero⟩ := hn.exhausts_zero
    cases hvm.symm.trans hzero
  | succ fuel =>
    cases hhalt : Activation.runFrom ⟨host, globals⟩ c.function.code none fuel 0 0
      ⟨c.first capacity, world⟩ with
    | none =>
      obtain ⟨_, hexhausts⟩ := hn.exhausts_succ hhalt
      cases hvm.symm.trans hexhausts
    | some halt =>
      obtain ⟨n, S, hcall, hworld, htrace⟩ := hc.run_ended hroom hhalt
      obtain ⟨status', ho⟩ := Declaration.run_normal hkind hc.laid.valid host n c.args world globals
        halt.outcome (congrArg Prod.fst hcall)
      obtain ⟨_, hvm', hworld'⟩ := hn.run_succ hhalt ho
      cases hvm.symm.trans hvm'
      exact ⟨n, halt.outcome, S, hcall, ho, hworld.trans hworld'.symm,
        htrace.trans (hn.eventsOfRun_succ fuel).symm⟩

/-- A call of the declaration that has ended has ended as a run by name does. -/
theorem endsRun_of_endsCall (hc : c.Calls d) (hn : c.Named name) (hroom : c.function.maxStack ≤ capacity)
    {status : TaskStatus} {world' : World σ} {es : List Event}
    (h : d.EndsCall host world globals c.args status world' es) :
    Vm.EndsRun host capacity world globals c.unit name c.args status world' es := by
  obtain ⟨n, o, S, hcall, ho, rfl, rfl⟩ := h
  obtain ⟨fuel, halt, hhalt, rfl, hworld, htrace⟩ := hc.run_of_ended hroom hcall
  obtain ⟨vm', hvm, hworld'⟩ := hn.run_succ hhalt ho
  exact ⟨fuel + 1, vm', hvm, hworld'.trans hworld, (hn.eventsOfRun_succ fuel).trans htrace⟩

/-- A run by name goes on for ever if and only if the call does. -/
theorem exhaustsRun_iff (hc : c.Calls d) (hn : c.Named name) (hkind : d.kind = .normal)
    (hroom : c.function.maxStack ≤ capacity) :
    (∀ fuel, Vm.ExhaustsRun host capacity world globals c.unit name c.args fuel) ↔
      ∀ n, (d.run host n c.args (.initial world globals [])).1 = none := by
  constructor
  · intro h n
    by_contra hne
    obtain ⟨o, ho⟩ := Option.ne_none_iff_exists'.mp hne
    obtain ⟨status, hs⟩ := Declaration.run_normal hkind hc.laid.valid host n c.args world globals o ho
    obtain ⟨fuel, vm', hvm, -⟩ :=
      hc.endsRun_of_endsCall hn hroom ⟨n, o, _, Prod.ext ho rfl, hs, rfl, rfl⟩
    obtain ⟨_, hvm'⟩ := h fuel
    cases hvm.symm.trans hvm'
  · intro h fuel
    cases fuel with
    | zero => exact hn.exhausts_zero
    | succ fuel =>
      cases hhalt : Activation.runFrom ⟨host, globals⟩ c.function.code none fuel 0 0
        ⟨c.first capacity, world⟩ with
      | none => exact hn.exhausts_succ hhalt
      | some halt =>
        obtain ⟨n, S, hcall, -⟩ := hc.run_ended hroom hhalt
        cases (h n).symm.trans (congrArg Prod.fst hcall)

end Call.Calls

end

/-- **Compiled synchronous functions do what their syntax says.** A run on a fresh machine
ends, and how, in which world and after which host calls and iterator steps, as a call of
the declaration does; one that goes on for ever does what the call does for ever. -/
theorem Module.run_compiled {name : String} {ds : List Declaration} {m : Module} {d : Declaration}
    (hcompile : Module.compile name ds = .ok m) (hnodes : Declaration.nodesAll ds < 2147483648)
    (hd : d ∈ ds) (hkind : d.kind = .normal) {capacity : Nat}
    (hroom : ∀ f ∈ m.functions, f.name = d.name → f.maxStack ≤ capacity) (host : Host σ)
    (world : World σ) (globals : Globals) (args : List Value) :
    (∀ status world' es, Vm.EndsRun host capacity world globals m d.name args status world' es ↔
      d.EndsCall host world globals args status world' es) ∧
    ((∀ fuel, Vm.ExhaustsRun host capacity world globals m d.name args fuel) ↔
      ∀ n, (d.run host n args (.initial world globals [])).1 = none) ∧
    (∀ fuel, ∃ n, Vm.eventsOfRun host capacity world globals m d.name args fuel <+:
      (d.run host n args (.initial world globals [])).2.trace) ∧
    ∀ n, ∃ fuel, (d.run host n args (.initial world globals [])).2.trace <+:
      Vm.eventsOfRun host capacity world globals m d.name args fuel := by
  obtain ⟨hbuilt, -, hsize⟩ := Module.compile_built hcompile hnodes
  have hle := Declaration.nodes_le_nodesAll hd
  obtain ⟨c, rfl, rfl, hmem, hname, hc, hn⟩ := hbuilt.exists_named (by omega) hd (by omega) hkind args
  have hroom : c.function.maxStack ≤ capacity := hroom c.function hmem hname
  refine ⟨fun status world' es => ⟨hc.endsCall_of_endsRun hn hkind hroom, hc.endsRun_of_endsCall hn hroom⟩,
    hc.exhaustsRun_iff hn hkind hroom, fun fuel => ?_, fun n => ?_⟩
  · cases fuel with
    | zero => exact ⟨0, List.nil_prefix⟩
    | succ fuel =>
      rw [hn.eventsOfRun_succ]
      exact hc.eventsFrom_le hroom fuel
  · obtain ⟨fuel, h⟩ := hc.le_eventsFrom hroom n
    refine ⟨fuel + 1, ?_⟩
    rw [hn.eventsOfRun_succ]
    exact h

/-- A function that returns what a global makes of its argument. -/
def applied : Declaration := ⟨"f", .normal, ["x"], [.ret (some (.call (.global "g") [.binding "x"]))]⟩

theorem Module.run_compiled_applied : ∃ m, Module.compile "m" [applied] = .ok m ∧
    Declaration.nodesAll [applied] < 2147483648 ∧ applied ∈ [applied] ∧ applied.kind = .normal ∧
    (∀ f ∈ m.functions, f.name = applied.name → f.maxStack ≤ 16) ∧
    ∀ world globals args status world' es,
      Vm.EndsRun Console.call 16 world globals m "f" args status world' es ↔
        applied.EndsCall Console.call world globals args status world' es := by
  have hcompile : (Module.compile "m" [applied]).toOption.any
      (fun m => m.functions.all fun f => decide (f.maxStack ≤ 16)) = true := by
    decide +kernel
  obtain ⟨m, hm, hroom⟩ := (Option.any_eq_true _ _).mp hcompile
  have hm : Module.compile "m" [applied] = .ok m := by
    cases h : Module.compile "m" [applied] <;> rw [h] at hm <;> cases hm
    rfl
  have hroom : ∀ f ∈ m.functions, f.name = applied.name → f.maxStack ≤ 16 := fun f hf _ =>
    of_decide_eq_true (List.all_eq_true.mp hroom f hf)
  have hnodes : Declaration.nodesAll [applied] < 2147483648 := by decide
  exact ⟨m, hm, hnodes, List.mem_cons_self, rfl, hroom, fun world globals args =>
    (Module.run_compiled hm hnodes List.mem_cons_self rfl hroom Console.call world globals args).1⟩

end ResourceMachine
