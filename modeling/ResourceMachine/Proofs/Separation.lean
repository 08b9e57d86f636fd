/-
# Tasks do not interfere

A task does what it does alone, whoever else is there: where the functions of a host are
pure and nobody can get at an iterator of somebody else, all that a task can tell, and all
that can be told of it, is up to the numbers of new entities what it is on a machine of its
own. Each task of a machine runs in parallel with a lone call, and no turn of one disturbs
what another one holds.

Key definitions: `Moment.Failing`, `Moment.Parallels`, `Moment.Separate`, `Vm.spawnAll`,
`Moment.Performs`.
Key theorems: `Moment.Separate.step`, `Moment.Performs.lone`, `Moment.Performs.separate`.
-/
import Mathlib.Logic.Function.Basic
import ResourceMachine.Proofs.Faults
import ResourceMachine.Proofs.Quiescence
import ResourceMachine.Proofs.Resumption
import ResourceMachine.Proofs.Solitude

namespace ResourceMachine

variable {σ : Type}

namespace Moment

variable {Ω : Surroundings σ} {host : Host σ} {globals : Globals} {vm vm' : Vm σ}
  {log log' : List (TaskId × Event)} {id : TaskId} {μ μ' : Moment σ}

/-! ### Failures -/

/-- A task has failed, or is about to. -/
def Failing (μ : Moment σ) : Prop :=
  (∃ turn, μ.turn = some turn ∧ turn.progress.Failed) ∨
    ∃ id t, μ.vm.schedule.get? id = some t ∧ t.state = .failed

/-- A failure is for good. -/
theorem Reached.failing (h : Reached Ω μ) (hfailing : μ.Failing) (hstep : Step Ω μ μ') : μ'.Failing := by
  rcases hfailing with ⟨⟨id, code, p⟩, hturn, f, a, hp⟩ | ⟨id, t, hget, hstate⟩
  · obtain rfl : p = .halted (.failed f) a := hp
    cases hstep with
    | record =>
      cases hturn
      obtain ⟨⟨t, hget, -, hstate⟩, -⟩ := h.sane.recorded
      exact .inr ⟨id, t, hget, hstate⟩
    | _ => cases hturn
  · exact .inr ⟨id, t, (h.finished (.single hstep) hget (by rw [hstate]; rfl)).1, hstate⟩

/-- Recording the end of a turn succeeds where the turn has not failed. -/
theorem record_eq_ok {o : Outcome} (h : Vm.record id o vm = .ok () vm') :
    vm' = stateOf (Vm.record id o vm) ∧ o.state ≠ .failed := by
  refine ⟨by rw [h]; rfl, ?_⟩
  cases o with
  | failed f => cases h
  | _ => nofun

/-- A turn that succeeds leaves no task failed that was not. -/
theorem execute_unfailing {fuel : Nat} {mode : Resume} (hdone : Vm.execute host fuel id mode vm = .ok () vm')
    (hfine : ∀ id t, vm.schedule.get? id = some t → t.state ≠ .failed) :
    ∀ id t, vm'.schedule.get? id = some t → t.state ≠ .failed := by
  cases hget : vm.schedule.get? id with
  | none =>
    unfold Vm.execute at hdone
    simp only [bind, EStateM.bind, task_eq_error hget] at hdone
    cases hdone
  | some t =>
    rw [execute_eq hget] at hdone
    simp only at hdone
    split at hdone
    · cases hdone
    · rename_i halt _
      obtain ⟨rfl, hstate⟩ := record_eq_ok hdone
      obtain ⟨hgets, -⟩ := record_spec (Vm.leave _ id halt.activation) id halt.outcome
      intro id' t' ht'
      rw [hgets] at ht'
      split at ht'
      · obtain ⟨t₀, -, rfl⟩ := Option.map_eq_some_iff.mp ht'
        rw [halt.outcome.settle_state t₀]
        exact hstate
      · rename_i hne
        refine hfine id' t' ?_
        have hrunning := Schedule.get?_update vm.schedule id (f := fun t => { t with state := .running })
          (fun _ => rfl) id'
        have hleave := Schedule.get?_update (vm.schedule.update id fun t => { t with state := .running }) id
          (f := fun t => { t with frame := halt.activation.frame }) (fun _ => rfl) id'
        exact ((hleave.trans (if_neg hne)).trans (hrunning.trans (if_neg hne))).symm.trans ht'

/-- Where running until idle succeeds, no task has failed meanwhile. -/
theorem runUntilIdle_unfailing : ∀ {fuel : Nat} {vm vm' : Vm σ}, Vm.runUntilIdle host fuel vm = .ok () vm' →
    (∀ id t, vm.schedule.get? id = some t → t.state ≠ .failed) →
    ∀ id t, vm'.schedule.get? id = some t → t.state ≠ .failed
  | 0, _, _, h, _ => by cases h
  | fuel + 1, vm, vm', h, hfine => by
    cases hpop : vm.schedule.popReady with
    | none =>
      rw [runUntilIdle_promote hpop] at h
      have hfine' : ∀ id t, (vm.schedule.promote vm.world.heap).2.get? id = some t → t.state ≠ .failed :=
        fun id t ht => hfine id t (get?_promote.symm.trans ht)
      simp only at h
      split at h
      · cases h
        exact hfine'
      · exact runUntilIdle_unfailing h hfine'
    | some next =>
      obtain ⟨⟨id, mode⟩, schedule⟩ := next
      rw [runUntilIdle_turn hpop] at h
      unfold EStateM.bind at h
      cases hturn : Vm.execute host fuel id mode { vm with schedule } with
      | error stop vm₁ =>
        rw [hturn] at h
        cases h
      | ok u vm₁ =>
        rw [hturn] at h
        refine runUntilIdle_unfailing h (execute_unfailing hturn fun id t ht => hfine id t ?_)
        exact (get?_congr (popReady_eq_some hpop).2 id).symm.trans ht

/-- While the host does nothing, no task is created, and none changes its kind. -/
theorem Step.kind_eq (h : Step (.handsOff host) μ μ') (id : TaskId) :
    (μ'.vm.schedule.get? id).map Task.kind = (μ.vm.schedule.get? id).map Task.kind := by
  have hupdate (s : Schedule) (id' : TaskId) (f : Task → Task) (hid : ∀ t, (f t).id = t.id)
      (hkind : ∀ t, (f t).kind = t.kind) : ((s.update id' f).get? id).map Task.kind = (s.get? id).map Task.kind := by
    rw [Schedule.get?_update s id' hid]
    split
    · cases s.get? id with
      | none => rfl
      | some t => exact congrArg some (hkind t)
    · rfl
  cases h with
  | spawn loaded => exact loaded.elim
  | surroundings allowed => exact allowed.elim
  | prepare _ found _ done =>
    rcases prepareGenerator_cases (Schedule.id_of_get? found) done with
      ⟨_, -, rfl⟩ | ⟨_, g, hrevives, -, -, rfl⟩ | ⟨rfl, -⟩
    · exact hupdate _ _ _ (fun _ => rfl) fun _ => rfl
    · exact hupdate _ _ g hrevives.id hrevives.kind
    · rfl
  | promote => exact congrArg (Option.map Task.kind) get?_promote
  | @begin vm _ id' _ schedule _ _ first =>
    exact (hupdate schedule id' (fun t => { t with state := .running }) (fun _ => rfl) fun _ => rfl).trans
      (congrArg (Option.map Task.kind) (get?_congr (popReady_eq_some first).2 id))
  | instruct | exhaust => rfl
  | @record vm _ id' _ o a =>
    refine Eq.trans ?_ (hupdate vm.schedule id' (fun t => { t with frame := a.frame }) (fun _ => rfl) fun _ => rfl)
    exact (congrArg (Option.map Task.kind) (get?_congr (record_table (vm.leave id' a) id' o).1 id)).trans
      (hupdate (vm.leave id' a).schedule id' o.settle o.settle_id o.settle_kind)

/-- While the host does nothing, the globals stay as they are. -/
theorem Step.globals_eq (h : Step (.handsOff host) μ μ') : μ'.vm.globals = μ.vm.globals := by
  cases h with
  | spawn loaded => exact loaded.elim
  | surroundings allowed => exact allowed.elim
  | prepare _ found _ done =>
    rcases prepareGenerator_cases (Schedule.id_of_get? found) done with
      ⟨_, -, rfl⟩ | ⟨_, _, -, -, -, rfl⟩ | ⟨rfl, -⟩
    all_goals rfl
  | @record vm _ id _ o a => exact record_globals (vm.leave id a) id o
  | _ => rfl

/-! ### One task -/

section

variable (env : Env σ) (base : Pairing) (world : World σ) (capacity : Nat)

/-- A task has done what a lone call has done that started in the same world. They share
what is known from the start, and apart from that each has entities of its own. -/
def Parallels (c : Call) (ρ : Pairing) (id : TaskId) (μ : Moment σ) : Prop :=
  ∃ es q, Progress.Runs env c.function.code (.running 0 ⟨c.first capacity, world⟩) es q ∧
    Mirrors c capacity ρ id μ q ∧ Event.AllAlike ρ (μ.history id) es ∧
    base.Grows world.heap world.heap ρ μ.world.heap q.activation.world.heap

/-- Every task runs in parallel with a lone call, and no two hold the same iterator. -/
structure Separate (calls : TaskId → Call) (ρ : TaskId → Pairing) (μ : Moment σ) : Prop where
  globals : μ.vm.globals = env.globals
  normal : ∀ id t, μ.vm.schedule.get? id = some t → t.kind.isGenerator = false
  parallel : ∀ id, (μ.vm.schedule.get? id).isSome → Parallels env base world capacity (calls id) (ρ id) id μ
  apart : ∀ id id', (μ.vm.schedule.get? id).isSome → (μ.vm.schedule.get? id').isSome → id ≠ id' →
    ∀ a b b', ρ id .iterator a b → ¬ ρ id' .iterator a b'

end

section

variable {env : Env σ} {base : Pairing} {world : World σ} {capacity : Nat} {calls : TaskId → Call}
  {ρ : TaskId → Pairing} {P : Resume → World σ → Globals → Prop}

/-- What happens to one task disturbs no other one, if it only changes iterators that this
task holds. -/
theorem Separate.change (h : Separate env base world capacity calls ρ μ)
    (hbase : ∀ a b, ¬ base .iterator a b) (hstep : Step (.handsOff host) μ μ')
    (hknown : (μ.vm.schedule.get? id).isSome) {es : List Event} (hlog : μ'.log = μ.log ++ id.events es)
    (haway : ∀ id', id' ≠ id → Away id' μ) (hother : ∀ id', id' ≠ id → Untouched id' μ μ')
    (hgrows : Heap.Outgrows (fun a => ∃ b, ρ id .iterator a b) μ.world.heap μ'.world.heap) {τ : Pairing}
    (hfresh : ∀ a b, τ .iterator a b → ρ id .iterator a b ∨ μ.world.heap.extent .iterator ≤ a)
    (hself : Parallels env base world capacity (calls id) τ id μ') :
    Separate env base world capacity calls (Function.update ρ id τ) μ' := by
  have hsome : ∀ {id'}, (μ'.vm.schedule.get? id').isSome → (μ.vm.schedule.get? id').isSome := by
    intro id' hid'
    have hkind := congrArg Option.isSome (hstep.kind_eq id')
    rwa [Option.isSome_map, Option.isSome_map, hid', eq_comm] at hkind
  have hbound : ∀ {id' a b}, (μ.vm.schedule.get? id').isSome → ρ id' .iterator a b →
      a < μ.world.heap.extent .iterator := by
    intro id' a b hid' hab
    obtain ⟨_, _, -, hmirrors, -⟩ := h.parallel id' hid'
    exact (hmirrors.heap_alike.known hab).1
  refine ⟨hstep.globals_eq.trans h.globals, fun id' t ht => ?_, fun id' hid' => ?_,
    fun id₁ id₂ hid₁ hid₂ hne a b b' hab hab' => ?_⟩
  · have hkind := hstep.kind_eq id'
    rw [ht] at hkind
    obtain ⟨t', ht', hkind⟩ := Option.map_eq_some_iff.mp hkind.symm
    rw [← hkind]
    exact h.normal id' t' ht'
  · by_cases hid : id' = id
    · subst hid
      rwa [Function.update_self]
    · rw [Function.update_of_ne hid]
      obtain ⟨es', q, hruns, hmirrors, hevents, hgrown⟩ := h.parallel id' (hsome hid')
      refine ⟨es', q, hruns, hmirrors.untouched (haway id' hid) (hother id' hid) ?_, ?_, hgrown.outgrow hgrows ?_⟩
      · exact hmirrors.heap_alike.outgrow hgrows fun a b hab ⟨b', hab'⟩ =>
          h.apart id' id (hsome hid') hknown hid a b b' hab hab'
      · rwa [history, hlog, history_append, if_neg hid, List.append_nil]
      · rintro a ⟨b, hab⟩
        obtain ⟨_, _, -, -, -, hgrown'⟩ := h.parallel id hknown
        exact ((hgrown'.fresh hab).resolve_left (hbase a b)).1
  · by_cases h₁ : id₁ = id
    · subst h₁
      rw [Function.update_self] at hab
      rw [Function.update_of_ne (Ne.symm hne)] at hab'
      rcases hfresh a b hab with hab | hle
      · exact h.apart id₁ id₂ (hsome hid₁) (hsome hid₂) hne a b b' hab hab'
      · exact absurd (hbound (hsome hid₂) hab') (Nat.not_lt.mpr hle)
    · rw [Function.update_of_ne h₁] at hab
      by_cases h₂ : id₂ = id
      · subst h₂
        rw [Function.update_self] at hab'
        rcases hfresh a b' hab' with hab' | hle
        · exact h.apart id₁ id₂ (hsome hid₁) (hsome hid₂) hne a b b' hab hab'
        · exact absurd (hbound (hsome hid₁) hab) (Nat.not_lt.mpr hle)
      · rw [Function.update_of_ne h₂] at hab'
        exact h.apart id₁ id₂ (hsome hid₁) (hsome hid₂) hne a b b' hab hab'

/-- The turn of a task begins. -/
theorem Separate.begin {mode : Resume} {schedule : Schedule} {t : Task} {f : Function}
    (h : Separate env base world capacity calls ρ (idle vm log)) (hbase : ∀ a b, ¬ base .iterator a b)
    (first : vm.schedule.popReady = some ((id, mode), schedule)) (found : schedule.get? id = some t)
    (function : t.frame.function? = some f)
    (hfine : ¬ (Activation.routed ⟨t.frame, vm.world⟩ (t.frame.resume mode)).Failed) :
    ∃ ρ', Separate env base world capacity calls ρ'
      ⟨{ vm with schedule := schedule.update id fun t => { t with state := .running } },
        some ⟨id, f.code, Activation.routed ⟨t.frame, vm.world⟩ (t.frame.resume mode)⟩,
        log ++ id.events mode.events⟩ := by
  obtain ⟨hready, htasks⟩ := popReady_eq_some first
  have hget : vm.schedule.get? id = some t := (get?_congr htasks id).symm.trans found
  have hknown : (vm.schedule.get? id).isSome := by rw [hget]; rfl
  obtain ⟨es, q, hruns, hmirrors, hevents, hgrown⟩ := h.parallel id hknown
  have hfirst : (id, mode) ∈ vm.schedule.ready := hready ▸ List.mem_cons_self
  rcases hmirrors.begin env hfirst hget function with hfailed | ⟨q', es', hgo, hworld, hsame, hmirrors'⟩
  · exact absurd hfailed hfine
  have hstep : Step (.handsOff env.host) (idle vm log) _ := .begin first found function
  have hkept : (Activation.routed ⟨t.frame, vm.world⟩ (t.frame.resume mode)).activation.world = vm.world := by
    rw [Activation.activation_routed]
  refine ⟨_, h.change hbase hstep hknown rfl (fun _ _ => away_idle)
    (fun id' hne => .begin hne first rfl) (τ := ρ id) ?_ (fun _ _ => .inl)
    ⟨_, q', hgo hruns, hmirrors', ?_, ?_⟩⟩
  · show Heap.Outgrows _ vm.world.heap (Progress.activation _).world.heap
    rw [hkept]
    exact .refl _ _
  · rw [history, history_append, if_pos rfl]
    exact List.rel_append hevents hsame
  · show base.Grows _ _ _ (Progress.activation _).world.heap _
    rw [hkept, hworld]
    exact hgrown

/-- A task that has its turn executes an instruction. -/
theorem Separate.instruct {code : Bytes} {pc : Nat} {a : Activation σ}
    (h : Separate ⟨host, vm.globals⟩ base world capacity calls ρ ⟨vm, some ⟨id, code, .running pc a⟩, log⟩)
    (hbase : ∀ a b, ¬ base .iterator a b) (henv : Env.Common ⟨host, vm.globals⟩ base)
    (hknown : (vm.schedule.get? id).isSome)
    (hstep : Step (.handsOff host) ⟨vm, some ⟨id, code, .running pc a⟩, log⟩ ⟨vm.tally,
      some ⟨id, code, a.step ⟨host, vm.globals⟩ code pc⟩, log ++ id.events (a.events ⟨host, vm.globals⟩ code pc)⟩)
    (hfine : ¬ (a.step ⟨host, vm.globals⟩ code pc).Failed) :
    ∃ ρ', Separate ⟨host, vm.globals⟩ base world capacity calls ρ' ⟨vm.tally,
      some ⟨id, code, a.step ⟨host, vm.globals⟩ code pc⟩,
      log ++ id.events (a.events ⟨host, vm.globals⟩ code pc)⟩ := by
  obtain ⟨es, q, hruns, hmirrors, hevents, hgrown⟩ := h.parallel id hknown
  rcases hmirrors.instruct henv hgrown.le with hfailed | ⟨τ, q', es', hnext, hgrows, hsame, hmirrors'⟩
  · exact absurd hfailed hfine
  refine ⟨_, h.change hbase hstep hknown rfl (fun id' hne => away_of_ne hne)
    (fun id' hne => .of_eq (away_of_ne hne) rfl) hgrows.left (fun a b hab => (hgrows.fresh hab).imp_right And.left)
    ⟨_, q', hruns.snoc hnext, hmirrors', ?_, hgrown.trans hgrows⟩⟩
  rw [history, history_append, if_pos rfl]
  exact List.rel_append (hevents.mono hgrows.le) hsame

/-- The turn of a task has ended. -/
theorem Separate.record {code : Bytes} {o : Outcome} {a : Activation σ}
    (h : Separate env base world capacity calls ρ ⟨vm, some ⟨id, code, .halted o a⟩, log⟩)
    (hbase : ∀ a b, ¬ base .iterator a b) (hsane : Sane Ω P ⟨vm, some ⟨id, code, .halted o a⟩, log⟩) :
    ∃ ρ', Separate env base world capacity calls ρ'
      (idle (stateOf (Vm.record id o (vm.leave id a))) log) := by
  obtain ⟨-, t, -, hget, -⟩ := hsane.turn _ rfl
  have hknown : (vm.schedule.get? id).isSome := by
    rw [show vm.schedule.get? id = some t from hget]
    rfl
  obtain ⟨es, q, hruns, hmirrors, hevents, hgrown⟩ := h.parallel id hknown
  have hstep : Step (.handsOff env.host) ⟨vm, some ⟨id, code, .halted o a⟩, log⟩ _ := .record
  have hworld : (idle (stateOf (Vm.record id o (vm.leave id a))) log).world = a.world := hsane.recorded.2.1
  have hlog : log = log ++ id.events [] := (List.append_nil log).symm
  refine ⟨_, h.change hbase hstep hknown hlog (fun id' hne => away_of_ne hne) (fun id' hne => .record hne)
    (τ := ρ id) ?_ (fun _ _ => .inl) ⟨es, q, hruns, hmirrors.record hsane, hevents, ?_⟩⟩
  · rw [hworld]
    exact .refl _ _
  · rw [hworld]
    exact hgrown

/-- Promises that have settled put their tasks into the queue. -/
theorem Separate.promote (h : Separate env base world capacity calls ρ (idle vm log)) :
    Separate env base world capacity calls ρ
      (idle { vm with schedule := (vm.schedule.promote vm.world.heap).2 } log) := by
  have hget (id : TaskId) : (vm.schedule.promote vm.world.heap).2.get? id = vm.schedule.get? id := get?_promote
  refine ⟨h.globals, fun id t ht => h.normal id t ((hget id).symm.trans ht), fun id hid => ?_,
    fun id id' hid hid' => h.apart id id' (hget id ▸ hid) (hget id' ▸ hid')⟩
  obtain ⟨es, q, hruns, hmirrors, hevents, hgrown⟩ := h.parallel id (hget id ▸ hid)
  exact ⟨es, q, hruns, hmirrors.promote, hevents, hgrown⟩

/-- **Whatever happens, every task runs in parallel with a lone call**, as long as none fails. -/
theorem Separate.step (h : Separate ⟨host, globals⟩ base world capacity calls ρ μ) (hsane : Sane Ω P μ)
    (hbase : ∀ a b, ¬ base .iterator a b) (henv : Env.Common ⟨host, globals⟩ base)
    (hstep : Step (.handsOff host) μ μ') (hfine : ¬ μ'.Failing) :
    ∃ ρ', Separate ⟨host, globals⟩ base world capacity calls ρ' μ' := by
  obtain rfl : μ.vm.globals = globals := h.globals
  have hturn : ∀ turn, μ.turn = some turn → (μ.vm.schedule.get? turn.id).isSome := fun turn heq => by
    obtain ⟨-, t, -, hget, -⟩ := hsane.turn turn heq
    rw [hget]
    rfl
  cases hstep with
  | spawn loaded => exact loaded.elim
  | surroundings allowed => exact allowed.elim
  | prepare _ found generator => cases generator.symm.trans (h.normal _ _ found)
  | promote => exact ⟨ρ, h.promote⟩
  | begin first found function =>
    exact h.begin hbase first found function fun hfailed => hfine (.inl ⟨_, rfl, hfailed⟩)
  | instruct affordable =>
    exact h.instruct hbase henv (hturn _ rfl) (.instruct affordable)
      fun hfailed => hfine (.inl ⟨_, rfl, hfailed⟩)
  | exhaust => exact absurd (.inl ⟨_, rfl, _, _, rfl⟩) hfine
  | record => exact h.record hbase hsane

/-- So it is at every moment to which a machine gets by itself. -/
theorem Separate.leads (h : Separate ⟨host, globals⟩ base world capacity calls ρ μ) (hμ : Reached (.any host) μ)
    (hbase : ∀ a b, ¬ base .iterator a b) (henv : Env.Common ⟨host, globals⟩ base)
    (hleads : Leads (.handsOff host) μ μ') (hfine : ¬ μ'.Failing) :
    ∃ ρ', Separate ⟨host, globals⟩ base world capacity calls ρ' μ' := by
  induction hleads with
  | refl => exact ⟨ρ, h⟩
  | @tail μ₁ μ₂ hearlier hstep ih =>
    have hreached : Reached (.any host) μ₁ := hμ.leads (Leads.of_handsOff (Ω := .any host) hearlier)
    have hstep' : Step (.any host) μ₁ μ₂ := Step.of_handsOff (Ω := .any host) hstep
    obtain ⟨ρ', h'⟩ := ih fun hfailing => hfine (hreached.failing hfailing hstep')
    exact h'.step hreached.sane hbase henv hstep hfine

end

end Moment

/-! ### Several calls -/

/-- A call that a host asks for. -/
structure Request where
  unit : Module
  name : String
  args : List Value

namespace Request

/-- The call that is made: of the first function of the name. -/
structure Names (r : Request) (c : Call) : Prop where
  unit : c.unit = r.unit
  args : c.args = r.args
  index : r.unit.functions.findIdx? (·.name == r.name) = some c.index

theorem Names.unique {r : Request} {c c' : Call} (h : r.Names c) (h' : r.Names c') : c = c' := by
  obtain ⟨unit, index, f, args, found⟩ := c
  obtain ⟨unit', index', f', args', found'⟩ := c'
  obtain ⟨rfl, rfl, hindex⟩ := h
  obtain ⟨hunit, hargs, hindex'⟩ := h'
  simp only at hunit hargs hindex hindex'
  subst hunit hargs
  obtain rfl : index = index' := Option.some.inj (hindex.symm.trans hindex')
  obtain rfl : f = f' := Option.some.inj (found.symm.trans found')
  rfl

/-- A call of a function that hands out no values, with arguments that are known from the
start. -/
structure Plain (r : Request) (base : Pairing) : Prop where
  args : ∀ v ∈ r.args, v.Alike base v
  normal : ∀ f, r.unit.function? r.name = some f → f.kind.isGenerator = false

end Request

/-- Create a task for each of several calls, one after the other. -/
def Vm.spawnAll : List Request → VmM σ (List TaskId)
  | [] => pure []
  | r :: rs => do
    let id ← spawn r.unit r.name r.args
    let ids ← spawnAll rs
    pure (id :: ids)

/-- Frames at the entry of a function are alike if the arguments are, with the same room or
with more. -/
theorem Call.first_alike {ρ : Pairing} (c : Call) {m n : Nat} (hle : m ≤ n) (hargs : ∀ v ∈ c.args, v.Alike ρ v) :
    (c.first m).Alike ρ (c.first n) := by
  refine ⟨rfl, rfl, rfl, hle, .nil, fun k => ?_, .undefined, rfl, .nil⟩
  show Option.Rel _ (c.first m).locals[k]? (c.first m).locals[k]?
  cases hk : (c.first m).locals[k]? with
  | none => exact .none
  | some v =>
    rw [Call.first, Frame.start, Frame.initialLocals, List.getElem?_toArray] at hk
    refine .some ?_
    rcases List.mem_append.mp (List.mem_of_getElem? hk) with hmem | hmem
    · exact hargs v (List.mem_of_mem_take hmem)
    · rw [List.eq_of_mem_replicate hmem]
      exact .undefined

namespace Moment

variable {host : Host σ} {globals : Globals} {vm vm' : Vm σ} {id : TaskId} {env : Env σ} {base : Pairing}
  {world : World σ} {capacity : Nat} {calls : TaskId → Call} {ρ : TaskId → Pairing} {Ω : Surroundings σ}
  {P : Resume → World σ → Globals → Prop} {r : Request}

/-- A task is created. -/
theorem Separate.spawn (h : Separate env base world capacity calls ρ (idle vm []))
    (hsane : Sane Ω P (idle vm [])) (hbase : ∀ a b, ¬ base .iterator a b)
    (hclosed : Heap.Alike base world.heap world.heap) (hworld : vm.world = world)
    (hroom : vm.options.stackCapacity ≤ capacity) (hplain : r.Plain base)
    (hdone : Vm.spawn r.unit r.name r.args vm = .ok id vm') :
    ∃ c, r.Names c ∧ Separate env base world capacity (Function.update calls id c) (Function.update ρ id base)
      (idle vm' []) := by
  obtain ⟨c, hunit, hargs, hname, hid, -, hoptions, ⟨t, hstate, hkind, hframe, hget⟩, -⟩ := spawn_eq_ok hdone
  obtain ⟨index, hindex, hat⟩ := spawn_index hdone
  obtain ⟨hworld', hglobals⟩ := spawn_surroundings hdone
  obtain ⟨hready, hwaiting⟩ := hsane.spawned hdone
  have hfound : vm'.schedule.get? id = some t := (hget id).trans (if_pos rfl)
  have hnames : r.Names c := by
    refine ⟨hunit, hargs, hindex.trans (congrArg some ?_)⟩
    rw [← hat t hfound, hframe]
    rfl
  have hfunction : r.unit.function? r.name = some c.function := by
    rw [Module.function?, List.find?_eq_bind_findIdx?_getElem?, hnames.index, ← hunit]
    exact c.found
  have hold : ∀ {id'}, id' ≠ id → (vm'.schedule.get? id').isSome → (vm.schedule.get? id').isSome := by
    intro id' hne hid'
    rwa [hget id', if_neg hne] at hid'
  have hheap : (idle vm' []).world = world := hworld'.trans hworld
  refine ⟨c, hnames, hglobals.trans h.globals, fun id' t' ht' => ?_, fun id' hid' => ?_,
    fun id₁ id₂ hid₁ hid₂ hne a b b' hab hab' => ?_⟩
  · rw [show (idle vm' []).vm.schedule.get? id' = _ from hget id'] at ht'
    split at ht'
    · cases ht'
      rw [hkind]
      exact hplain.normal _ hfunction
    · exact h.normal id' t' ht'
  · by_cases hne : id' = id
    · subst hne
      rw [Function.update_self, Function.update_self]
      refine ⟨[], _, .refl, .created away_idle hfound (.inl hstate) ⟨?_, hheap ▸ hclosed⟩ hready hwaiting, .nil, ?_⟩
      · rw [hframe]
        exact c.first_alike hroom fun v hv => hplain.args v (hargs ▸ hv)
      · rw [hheap]
        exact .refl _ _ _
    · rw [Function.update_of_ne hne, Function.update_of_ne hne]
      obtain ⟨es, q, hruns, hmirrors, hevents, hgrown⟩ := h.parallel id' (hold hne hid')
      have hsame : (idle vm' []).world = (idle vm []).world := hworld'
      refine ⟨es, q, hruns, hmirrors.untouched away_idle (.of_spawn ?_ hsane hdone) ?_, hevents, ?_⟩
      · exact Option.isSome_iff_exists.mp (hold hne hid')
      · exact hsame ▸ hmirrors.heap_alike
      · exact hsame ▸ hgrown
  · by_cases h₁ : id₁ = id
    · subst h₁
      rw [Function.update_self] at hab
      exact hbase a b hab
    · by_cases h₂ : id₂ = id
      · subst h₂
        rw [Function.update_self] at hab'
        exact hbase a b' hab'
      · rw [Function.update_of_ne h₁] at hab
        rw [Function.update_of_ne h₂] at hab'
        exact h.apart id₁ id₂ (hold h₁ hid₁) (hold h₂ hid₂) hne a b b' hab hab'

/-- To call several functions is to call one after the other. -/
theorem spawnAll_leads {log : List (TaskId × Event)} :
    ∀ {rs : List Request} {ids : List TaskId} {vm vm' : Vm σ}, Vm.spawnAll rs vm = .ok ids vm' →
      (∀ r ∈ rs, Ω.loaded r.unit ∧ ∀ v ∈ r.args, Ω.supplies v) → Leads Ω (idle vm log) (idle vm' log)
  | [], _, _, _, hdone, _ => by
    cases hdone
    exact .refl
  | r :: rs, ids, vm, vm', hdone, hall => by
    obtain ⟨id, vm₁, hspawn, hdone⟩ := bind_eq_ok.mp hdone
    obtain ⟨ids', vm₂, hrest, hdone⟩ := bind_eq_ok.mp hdone
    cases hdone
    obtain ⟨hloaded, hsupplied⟩ := hall r List.mem_cons_self
    exact .head (.spawn hloaded hsupplied hspawn)
      (spawnAll_leads hrest fun r hr => hall r (List.mem_cons_of_mem _ hr))

/-- Several tasks are created. -/
theorem Separate.spawnAll (hbase : ∀ a b, ¬ base .iterator a b) (hclosed : Heap.Alike base world.heap world.heap) :
    ∀ {rs : List Request} {ids : List TaskId} {vm vm' : Vm σ} {calls : TaskId → Call} {ρ : TaskId → Pairing},
      Separate env base world capacity calls ρ (idle vm []) → Reached Ω (idle vm []) →
      (∀ r ∈ rs, Ω.loaded r.unit ∧ (∀ v ∈ r.args, Ω.supplies v) ∧ r.Plain base) → vm.world = world →
      vm.options.stackCapacity ≤ capacity → Vm.spawnAll rs vm = .ok ids vm' →
      ∃ calls' ρ', Separate env base world capacity calls' ρ' (idle vm' []) ∧
        (∀ id, (vm.schedule.get? id).isSome → (vm'.schedule.get? id).isSome ∧ calls' id = calls id) ∧
        List.Forall₂ (fun r id => (vm'.schedule.get? id).isSome ∧ r.Names (calls' id)) rs ids
  | [], _, vm, vm', calls, ρ, h, hreached, _, _, _, hdone => by
    cases hdone
    exact ⟨calls, ρ, h, fun _ hid => ⟨hid, rfl⟩, .nil⟩
  | r :: rs, ids, vm, vm', calls, ρ, h, hreached, hall, hworld, hroom, hdone => by
    obtain ⟨id, vm₁, hspawn, hdone⟩ := bind_eq_ok.mp hdone
    obtain ⟨ids', vm₂, hrest, hdone⟩ := bind_eq_ok.mp hdone
    cases hdone
    obtain ⟨hloaded, hsupplied, hplain⟩ := hall r List.mem_cons_self
    obtain ⟨c, hnames, h₁⟩ := h.spawn hreached.sane hbase hclosed hworld hroom hplain hspawn
    have hreached₁ : Reached Ω (idle vm₁ []) := hreached.leads (.single (.spawn hloaded hsupplied hspawn))
    obtain ⟨-, -, -, -, hid, -, hoptions, ⟨t, -, -, -, hget⟩, -⟩ := spawn_eq_ok hspawn
    obtain ⟨calls', ρ', h₂, hkept, hids⟩ := Separate.spawnAll hbase hclosed h₁ hreached₁
      (fun r hr => hall r (List.mem_cons_of_mem _ hr)) ((spawn_surroundings hspawn).1.trans hworld)
      (hoptions ▸ hroom) hrest
    have hfound : (vm₁.schedule.get? id).isSome := by
      rw [(hget id).trans (if_pos rfl)]
      rfl
    refine ⟨calls', ρ', h₂, fun id' hid' => ?_, .cons ⟨(hkept id hfound).1, ?_⟩ hids⟩
    · have hne : id' ≠ id := by
        rintro rfl
        rw [hid, show vm.schedule.get? ⟨vm.nextTask⟩ = none from hreached.sane.get?_next] at hid'
        cases hid'
      have hid₁ : (vm₁.schedule.get? id').isSome := by rwa [hget id', if_neg hne]
      refine ⟨(hkept id' hid₁).1, (hkept id' hid₁).2.trans ?_⟩
      rw [Function.update_of_ne hne]
    · rw [(hkept id hfound).2, Function.update_self]
      exact hnames

end Moment

/-! ### What is seen of a task -/

/-- What is seen of tasks is alike. -/
inductive TaskStatus.Alike (ρ : Pairing) : TaskStatus → TaskStatus → Prop
  | pending : Alike ρ .pending .pending
  | yielded {v w : Value} (h : v.Alike ρ w) : Alike ρ (.yielded v) (.yielded w)
  | returned {v w : Value} (h : v.Alike ρ w) : Alike ρ (.returned v) (.returned w)
  | threw {v w : Value} (h : v.Alike ρ w) : Alike ρ (.threw v) (.threw w)

theorem TaskStatus.Alike.join {ρ τ : Pairing} {s t u : TaskStatus} (h : s.Alike ρ u) (h' : t.Alike τ u) :
    s.Alike (ρ.join τ) t := by
  cases h with
  | pending => cases h'; exact .pending
  | yielded h => cases h' with | yielded h' => exact .yielded (h.join h')
  | returned h => cases h' with | returned h' => exact .returned (h.join h')
  | threw h => cases h' with | threw h' => exact .threw (h.join h')

theorem Outcome.Alike.status {ρ : Pairing} {o o' : Outcome} (h : o.Alike ρ o') :
    o.state.status.Alike ρ o'.state.status := by
  cases h with
  | completed h => exact .returned h
  | threw h => exact .threw h
  | awaits h => exact .pending
  | yields h => exact .yielded h

/-- What would be seen of a lone call. -/
def Progress.status : Progress σ → TaskStatus
  | .running _ _ => .pending
  | .halted o _ => o.state.status

/-- The entities of a kind, each of which stands for itself. -/
def Pairing.still (K : Realm → Nat → Prop) : Pairing := fun realm a b => K realm a ∧ a = b

/-- What is known to all from the start: entities that hold only one another, none of them
an iterator. They are all that globals hold, and host functions are pure if they know of
these. -/
structure Commons (host : Host σ) (globals : Globals) (world : World σ) (K : Realm → Nat → Prop) : Prop where
  closed : Heap.Alike (.still K) world.heap world.heap
  iterators : ∀ a, ¬ K .iterator a
  globals : ∀ name v, globals.get? name = some v → v.Alike (.still K) v
  host : host.Pure (.still K)

namespace Moment

variable {host : Host σ} {options options' : VmOptions} {globals : Globals} {world : World σ}
  {K : Realm → Nat → Prop} {rs : List Request} {ids : List TaskId} {vm vm' : Vm σ}
  {log log' : List (TaskId × Event)} {r : Request} {id id' : TaskId}

/-- A task that stands where a lone call does has not failed. -/
theorem Mirrors.unfailed {c : Call} {capacity : Nat} {ρ : Pairing} {q : Progress σ} {t : Task}
    (h : Mirrors c capacity ρ id (idle vm log) q) (hget : vm.schedule.get? id = some t) :
    t.state ≠ .failed := by
  cases h with
  | @created _ t' _ _ found state =>
    obtain rfl : t = t' := Option.some.inj (hget.symm.trans found)
    rcases state with state | state <;> rw [state] <;> nofun
  | @stopped _ t' _ _ _ _ found state same =>
    obtain rfl : t = t' := Option.some.inj (hget.symm.trans found)
    rw [state]
    cases same <;> nofun

/-- A task of a machine that is idle stands where a lone call has come to its end. -/
theorem Mirrors.ended {env : Env σ} {c : Call} {capacity : Nat} {ρ : Pairing} {q : Progress σ} {t : Task}
    (h : Mirrors c capacity ρ id (idle vm log) q) (hget : vm.schedule.get? id = some t)
    (hnormal : t.kind.isGenerator = false) (hidle : t.Idle vm.schedule vm.world.heap) :
    q.next env c.function.code = none ∧ t.state.status.Alike ρ q.status := by
  cases h with
  | @created _ t' _ _ found state =>
    obtain rfl : t = t' := Option.some.inj (hget.symm.trans found)
    rcases hidle with hstate | hstate | ⟨-, hkind⟩ | hstate
    · rcases state with state | state <;> rw [state] at hstate <;> cases hstate
    · rcases state with state | state <;> cases state.symm.trans hstate
    · cases hnormal.symm.trans hkind
    · rcases state with state | state <;> cases state.symm.trans hstate
  | @stopped _ t' o o' b _ found state same alike _ _ waiting =>
    obtain rfl : t = t' := Option.some.inj (hget.symm.trans found)
    refine ⟨?_, by rw [state]; exact same.status⟩
    cases same with
    | completed | threw | yields => rfl
    | @awaits v w hvw =>
      rcases hidle with hstate | hstate | ⟨hstate, -⟩ | ⟨-, once, pending⟩
      · rw [state] at hstate
        cases hstate
      · cases state.symm.trans hstate
      · cases state.symm.trans hstate
      · rename_i p
        have hparked : (t.id, p) ∈ vm.schedule.waiting := by
          refine List.mem_of_mem_filter (p := fun entry => entry.1 = t.id) ?_
          rw [once]
          exact List.mem_cons_self
        have hid : t.id = id := Schedule.id_of_get? hget
        cases waiting p (hid ▸ hparked)
        cases hvw with
        | primitive hv => cases hv
        | promise hab =>
          have hsettled := alike.heap.settlements hab
          rw [show (⟨t.frame, (idle vm log).world⟩ : Activation σ).world.heap.settlement p = _ from pending]
            at hsettled
          simp only [Progress.next, Schedule.answer?]
          generalize b.world.heap.settlement _ = s at hsettled
          cases hsettled
          rfl

/-- Functions are called one after the other on a new machine, and it runs until it is idle;
meanwhile this happens. -/
def Performs (host : Host σ) (options : VmOptions) (globals : Globals) (world : World σ) (rs : List Request)
    (ids : List TaskId) (vm : Vm σ) (log : List (TaskId × Event)) : Prop :=
  ∃ vm₁ fuel, Vm.spawnAll rs { Vm.create options world with globals } = .ok ids vm₁ ∧
    Vm.runUntilIdle host fuel vm₁ = .ok () vm ∧ Leads (.handsOff host) (idle vm₁ []) (idle vm log)

theorem reached_create (Ω : Surroundings σ) (hallows : ∀ world globals, Ω.allows world globals) :
    Reached Ω (idle { Vm.create options world with globals } []) :=
  ⟨options, world, hallows _ _, .single (.surroundings (hallows _ _))⟩

/-- What is performed is a number of turns. -/
theorem performs_of_ok {vm₁ : Vm σ} {fuel : Nat}
    (hspawn : Vm.spawnAll rs { Vm.create options world with globals } = .ok ids vm₁)
    (hrun : Vm.runUntilIdle host fuel vm₁ = .ok () vm) :
    ∃ log, Performs host options globals world rs ids vm log := by
  have hreached : Reached (.any host) (idle vm₁ []) :=
    (reached_create _ fun _ _ => trivial).leads (spawnAll_leads hspawn fun _ _ => ⟨trivial, fun _ _ => trivial⟩)
  have hgets : Gets (.handsOff host) (idle vm₁ []) (Vm.runUntilIdle host fuel vm₁) :=
    runUntilIdle_turns (Ω := .any host) hreached
  rw [hrun] at hgets
  obtain ⟨log, hleads⟩ := hgets
  exact ⟨log, vm₁, fuel, hspawn, hrun, hleads⟩

/-- **Running until idle does nothing but succeed, if it returns**, where compiled functions
were called, with room for all of them and without a budget. -/
theorem performs_of_returns {vm₁ : Vm σ} {fuel : Nat}
    (hspawn : Vm.spawnAll rs { Vm.create options world with globals } = .ok ids vm₁)
    (hcompiled : ∀ r ∈ rs, Compiles r.unit) (hbudget : options.stepBudget = none)
    (hroom : ∀ r ∈ rs, ∀ f ∈ r.unit.functions, f.maxStack ≤ options.stackCapacity)
    (hreturns : Leaves vm (Vm.runUntilIdle host fuel vm₁)) :
    ∃ log, Performs host options globals world rs ids vm log := by
  let Ω : Surroundings σ := ⟨host, fun m => ∃ r ∈ rs, r.unit = m, fun _ => True, fun _ _ => True⟩
  have hleads : Leads Ω (idle { Vm.create options world with globals } []) (idle vm₁ []) :=
    spawnAll_leads hspawn fun r hr => ⟨⟨r, hr, rfl⟩, fun _ _ => trivial⟩
  have hreached : Reached Ω (idle vm₁ []) := (reached_create Ω fun _ _ => trivial).leads hleads
  cases hrun : Vm.runUntilIdle host fuel vm₁ with
  | ok u vm' =>
    rw [hrun] at hreturns
    obtain rfl : vm = vm' := hreturns
    exact performs_of_ok hspawn hrun
  | error stop vm' =>
    cases stop with
    | outOfFuel =>
      rw [hrun] at hreturns
      exact hreturns.elim
    | error e =>
      -- what it fails with is a fault of a turn, for want of budget or of room
      obtain ⟨f, rfl⟩ := runUntilIdle_fails hreached (show Vm.runUntilIdle Ω.host fuel vm₁ = _ from hrun)
      have hloaded : ∀ m, Ω.loaded m → Compiles m := by
        rintro m ⟨r, hr, rfl⟩
        exact hcompiled r hr
      have hoptions : vm₁.options = options := hleads.options_eq
      rcases hreached.bearable hloaded (.runUntilIdle hrun) with ⟨b, hb, -⟩ | ⟨-, m, ⟨r, hr, rfl⟩, g, hg, hless⟩
      · rw [show (idle vm₁ []).vm.options = options from hoptions, hbudget] at hb
        cases hb
      · rw [show (idle vm₁ []).vm.options = options from hoptions] at hless
        exact absurd (hroom r hr g hg) (Nat.not_le.mpr hless)

/-- Every task of a machine on which functions were called does what its call does alone. -/
theorem Performs.lone (h : Performs host options globals world rs ids vm log)
    (hcommons : Commons host globals world K) (hplain : ∀ r ∈ rs, r.Plain (.still K)) {capacity : Nat}
    (hroom : options.stackCapacity ≤ capacity) (hid : (r, id) ∈ rs.zip ids) :
    ∃ c ρ es q t, r.Names c ∧
      Progress.Runs ⟨host, globals⟩ c.function.code (.running 0 ⟨c.first capacity, world⟩) es q ∧
      q.next ⟨host, globals⟩ c.function.code = none ∧ Event.AllAlike ρ (id.history log) es ∧
      vm.schedule.get? id = some t ∧ t.status.Alike ρ q.status ∧ ρ.OneToOne ∧
      Pairing.Grows (.still K) world.heap world.heap ρ vm.world.heap q.activation.world.heap := by
  obtain ⟨vm₁, fuel, hspawn, hrun, hleads⟩ := h
  let vm₀ : Vm σ := { Vm.create options world with globals }
  have hbase : ∀ a b, ¬ Pairing.still K .iterator a b := fun a b hab => hcommons.iterators a hab.1
  have hreached₀ : Reached (.any host) (idle vm₀ []) := reached_create _ fun _ _ => trivial
  have hnone (c : Call) : Separate ⟨host, globals⟩ (.still K) world capacity (fun _ => c)
      (fun _ => .still K) (idle vm₀ []) := ⟨rfl, nofun, nofun, nofun⟩
  obtain ⟨c₀⟩ : Nonempty Call := by
    cases rs with
    | nil => cases hid
    | cons r rs =>
      obtain ⟨id, vm₂, hfirst, -⟩ := bind_eq_ok.mp hspawn
      obtain ⟨c, -⟩ := spawn_eq_ok hfirst
      exact ⟨c⟩
  obtain ⟨calls, ρ₁, h₁, -, hids⟩ := (hnone c₀).spawnAll hbase hcommons.closed hreached₀
    (fun r hr => ⟨trivial, fun _ _ => trivial, hplain r hr⟩) rfl hroom hspawn
  have hreached₁ : Reached (.any host) (idle vm₁ []) :=
    hreached₀.leads (spawnAll_leads hspawn fun _ _ => ⟨trivial, fun _ _ => trivial⟩)
  have hleads' : Leads (.any host) (idle vm₁ []) (idle vm log) := Leads.of_handsOff (Ω := .any host) hleads
  have hfresh : ∀ id t, vm₁.schedule.get? id = some t → t.state ≠ .failed := fun id t hget => by
    obtain ⟨_, _, -, hmirrors, -⟩ := h₁.parallel id (Option.isSome_iff_exists.mpr ⟨t, hget⟩)
    exact hmirrors.unfailed hget
  have hfine : ¬ (idle vm log).Failing := by
    rintro (⟨_, hturn, -⟩ | ⟨id, t, hget, hstate⟩)
    · cases hturn
    · exact runUntilIdle_unfailing hrun hfresh id t hget hstate
  obtain ⟨ρ₂, h₂⟩ := h₁.leads hreached₁ hbase ⟨hcommons.host, hcommons.globals⟩ hleads hfine
  obtain ⟨hknown, hnames⟩ := List.forall₂_zip hids hid
  obtain ⟨t, hget⟩ := Option.isSome_iff_exists.mp (hreached₁.kept hleads' hknown)
  obtain ⟨es, q, hruns, hmirrors, hevents, hgrown⟩ := h₂.parallel id (Option.isSome_iff_exists.mpr ⟨t, hget⟩)
  obtain ⟨hready, hpending⟩ := runUntilIdle_settled hrun
  have hidle : t.Idle vm.schedule vm.world.heap :=
    (hreached₁.leads hleads').idle_of_stalled ⟨hready, hpending⟩ (Schedule.mem_of_get? hget)
  obtain ⟨hends, hstatus⟩ : q.next ⟨host, globals⟩ (calls id).function.code = none ∧ _ :=
    hmirrors.ended hget (h₂.normal id t hget) hidle
  rw [← (hreached₁.leads hleads').status_eq hget] at hstatus
  exact ⟨calls id, ρ₂ id, es, q, t, hnames, hruns, hends, hevents, hget, hstatus, hmirrors.heap_alike.oneToOne, hgrown⟩

/-- **Tasks do not interfere.** Functions are called on a machine, and it runs until it is
idle; and so does another machine in the same world, on which nobody but one of them is
called. Up to the numbers of entities that are new, the same happens to the task, and the
same is seen of it. -/
theorem Performs.separate (hcommons : Commons host globals world K) (hplain : ∀ r ∈ rs, r.Plain (.still K))
    (h : Performs host options globals world rs ids vm log) (hid : (r, id) ∈ rs.zip ids)
    (h' : Performs host options' globals world [r] [id'] vm' log') :
    ∃ ρ : Pairing, .still K ≤ ρ ∧ ρ.OneToOne ∧
      (∀ realm a b, ρ realm a b → Pairing.still K realm a b ∨
        world.heap.extent realm ≤ a ∧ world.heap.extent realm ≤ b) ∧
      Event.AllAlike ρ (id.history log) (id'.history log') ∧
      ∃ t t', vm.schedule.get? id = some t ∧ vm'.schedule.get? id' = some t' ∧ t.status.Alike ρ t'.status := by
  let capacity := max options.stackCapacity options'.stackCapacity
  have hplain' : ∀ r' ∈ [r], r'.Plain (.still K) := fun r' hr' => by
    rw [List.mem_singleton.mp hr']
    exact hplain r (List.of_mem_zip hid).1
  obtain ⟨c, ρ, es, q, t, hnames, hruns, hends, hevents, hget, hstatus, hone, hgrown⟩ :=
    h.lone hcommons hplain (show options.stackCapacity ≤ capacity from Nat.le_max_left _ _) hid
  obtain ⟨c', ρ', es', q', t', hnames', hruns', hends', hevents', hget', hstatus', hone', hgrown'⟩ :=
    h'.lone hcommons hplain' (show options'.stackCapacity ≤ capacity from Nat.le_max_right _ _)
      List.mem_cons_self
  -- both calls are the same, and so is all that they do alone
  obtain rfl := hnames.unique hnames'
  obtain ⟨rfl, rfl⟩ := hruns.unique hends hruns' hends'
  refine ⟨ρ.join ρ', fun realm a b hab => ⟨b, hgrown.le _ _ _ hab, ?_⟩, hone.join hone', ?_,
    hevents.join hevents', t, t', hget, hget', hstatus.join hstatus'⟩
  · obtain ⟨ha, rfl⟩ := hab
    exact hgrown'.le _ _ _ ⟨ha, rfl⟩
  · rintro realm a b ⟨d, had, hbd⟩
    rcases hgrown.fresh had with ⟨ha, rfl⟩ | ⟨ha, hd⟩
    · rcases hgrown'.fresh hbd with ⟨hb, rfl⟩ | ⟨-, hd⟩
      · exact .inl ⟨ha, rfl⟩
      · exact absurd (hcommons.closed.known ⟨ha, rfl⟩).1 (Nat.not_lt.mpr hd)
    · rcases hgrown'.fresh hbd with ⟨hb, rfl⟩ | ⟨hb, -⟩
      · exact absurd (hcommons.closed.known ⟨hb, rfl⟩).1 (Nat.not_lt.mpr hd)
      · exact .inr ⟨ha, hb⟩

/-- A function that shows the host an error, awaits something, and throws another error. -/
def lost : Declaration := ⟨"f", .async, [],
  [.tryCatch [.expr (.global "x")] (some "e") [.expr (.call (.global "g") [.binding "e"])],
    .expr (.await (.global "p")), .expr (.global "x")]⟩

/-- What calls of functions without arguments come to, if they come to an end. -/
def performance (host : Host σ) (globals : Globals) (m : Module) (names : List String) (world : World σ)
    (fuel : Nat) : Option (List TaskId × Vm σ) :=
  match Vm.spawnAll (names.map fun name => ⟨m, name, []⟩) { Vm.create .standard world with globals } with
  | .error _ _ => none
  | .ok ids vm =>
    match Vm.runUntilIdle host fuel vm with
    | .error .outOfFuel _ => none
    | .error (.error _) vm | .ok () vm => some (ids, vm)

theorem performs_of_performance {m : Module} {names : List String} {fuel : Nat} (hm : Compiles m)
    (hroom : ∀ f ∈ m.functions, f.maxStack ≤ VmOptions.standard.stackCapacity)
    (h : performance host globals m names world fuel = some (ids, vm)) :
    ∃ log, Performs host .standard globals world (names.map fun name => ⟨m, name, []⟩) ids vm log := by
  have hunit : ∀ r ∈ names.map fun name => (⟨m, name, []⟩ : Request), r.unit = m := fun r hr => by
    obtain ⟨_, -, rfl⟩ := List.mem_map.mp hr
    rfl
  have hreturns {vm₁ : Vm σ} {ids₁ : List TaskId} (hspawn : Vm.spawnAll (names.map fun name => ⟨m, name, []⟩)
      { Vm.create .standard world with globals } = .ok ids₁ vm₁) (hleaves : Leaves vm (Vm.runUntilIdle host fuel vm₁)) :
      ∃ log, Performs host .standard globals world (names.map fun name => ⟨m, name, []⟩) ids₁ vm log :=
    performs_of_returns hspawn (fun r hr => (hunit r hr).symm ▸ hm) rfl
      (fun r hr => (hunit r hr).symm ▸ hroom) hleaves
  unfold performance at h
  split at h
  · cases h
  · split at h
    · cases h
    · rename_i heq
      cases h
      exact hreturns ‹_› (by rw [heq]; rfl)
    · rename_i heq
      cases h
      exact hreturns ‹_› (by rw [heq]; rfl)

/-- The number of the error that a task has thrown. -/
def thrown? (vm : Vm σ) (id : TaskId) : Option Nat :=
  match (vm.schedule.get? id).map Task.status with
  | some (.threw (.error n _ _)) => some n
  | _ => none

/-- Two tasks take turns, so their errors alternate. On a machine of its own, the second task
makes the first two errors, and that is all the difference. -/
theorem Performs.separate_lost : ∃ (host : Host Unit) (globals : Globals) (world : World Unit)
    (K : Realm → Nat → Prop) (r : Request) (vm vm' : Vm Unit) (log log' : List (TaskId × Event)) (ρ : Pairing)
    (t t' : Task), Module.compile "m" [lost] = .ok r.unit ∧ r.name = "f" ∧
    Commons host globals world K ∧ r.Plain (.still K) ∧
    Performs host .standard globals world [r, r] [⟨0⟩, ⟨1⟩] vm log ∧
    Performs host .standard globals world [r] [⟨0⟩] vm' log' ∧
    thrown? vm ⟨0⟩ = some 2 ∧ thrown? vm ⟨1⟩ = some 3 ∧ thrown? vm' ⟨0⟩ = some 1 ∧
    Event.AllAlike ρ (TaskId.history ⟨1⟩ log) (TaskId.history ⟨0⟩ log') ∧ vm.schedule.get? ⟨1⟩ = some t ∧
    vm'.schedule.get? ⟨0⟩ = some t' ∧ t.status.Alike ρ t'.status := by
  let host : Host Unit := .ofAnswer fun _ _ args => .ok (args.headD .undefined)
  let globals : Globals := [("g", .function (.host ⟨0, "g"⟩)), ("p", .promise 0)]
  let world : World Unit := ⟨{ Heap.empty with promises := #[.fulfilled (.int 7)] }, ()⟩
  let K : Realm → Nat → Prop := fun realm a => realm = .promise ∧ a = 0
  have hcheck : (Module.compile "m" [lost]).toOption.any (fun m =>
      (performance host globals m ["f", "f"] world 100).any fun both =>
        (performance host globals m ["f"] world 100).any fun alone =>
          m.functions.all (fun f => !f.kind.isGenerator && f.maxStack ≤ VmOptions.standard.stackCapacity) &&
            both.1 == [⟨0⟩, ⟨1⟩] && alone.1 == [⟨0⟩] && thrown? both.2 ⟨0⟩ == some 2 &&
            thrown? both.2 ⟨1⟩ == some 3 && thrown? alone.2 ⟨0⟩ == some 1) = true := by
    decide +kernel
  have hcommons : Commons host globals world K := by
    refine ⟨⟨?_, ?_, ?_, ?_, ?_⟩, ?_, ?_, Host.pure_of_answer fun _ {_ _ _ _ _} _ _ _ hargs => ?_⟩
    · rintro _ _ _ ⟨⟨rfl, rfl⟩, rfl⟩
      exact ⟨Nat.zero_lt_one, Nat.zero_lt_one⟩
    · rintro realm a b a' b' ⟨-, rfl⟩ ⟨-, rfl⟩
      rfl
    · rintro _ _ ⟨⟨h, -⟩, -⟩
      cases h
    · rintro _ _ ⟨⟨-, rfl⟩, rfl⟩
      exact .fulfilled (.primitive rfl)
    · rintro _ _ ⟨⟨h, -⟩, -⟩
      cases h
    · rintro _ ⟨h, -⟩
      cases h
    · intro name v hv
      obtain ⟨before, after, heq, -⟩ := List.lookup_eq_some_iff.mp hv
      have hmem : (name, v) ∈ globals := heq ▸ List.mem_append_right _ List.mem_cons_self
      rcases List.mem_cons.mp hmem with hg | hp
      · cases hg
        exact .function (.host _)
      · cases List.mem_singleton.mp hp
        exact .promise ⟨⟨rfl, rfl⟩, rfl⟩
    · cases hargs with
      | nil => exact .ok .undefined
      | cons h _ => exact .ok h
  obtain ⟨m, hm, hcheck⟩ := (Option.any_eq_true _ _).mp hcheck
  obtain ⟨⟨ids, vm⟩, hboth, hcheck⟩ := (Option.any_eq_true _ _).mp hcheck
  obtain ⟨⟨ids', vm'⟩, halone, hcheck⟩ := (Option.any_eq_true _ _).mp hcheck
  simp only [Bool.and_eq_true, beq_iff_eq] at hcheck
  obtain ⟨⟨⟨⟨⟨hfunctions, rfl⟩, rfl⟩, hfirst⟩, hsecond⟩, hlone⟩ := hcheck
  have hm : Module.compile "m" [lost] = .ok m := ok_of_toOption hm
  have hfunction : ∀ f ∈ m.functions, f.kind.isGenerator = false ∧ f.maxStack ≤ VmOptions.standard.stackCapacity :=
    fun f hf => by simpa using List.all_eq_true.mp hfunctions f hf
  have hplain : Request.Plain ⟨m, "f", []⟩ (.still K) :=
    ⟨fun v hv => absurd hv List.not_mem_nil, fun f hf => (hfunction f (List.mem_of_find?_eq_some hf)).1⟩
  have hcompiles : Compiles m := ⟨"m", [lost], hm, by decide⟩
  obtain ⟨log, hlog⟩ := performs_of_performance hcompiles (fun f hf => (hfunction f hf).2) hboth
  obtain ⟨log', hlog'⟩ := performs_of_performance hcompiles (fun f hf => (hfunction f hf).2) halone
  obtain ⟨ρ, -, -, -, hevents, t, t', ht, ht', hstatus⟩ := Performs.separate hcommons
    (by simpa using hplain) hlog (List.mem_cons_of_mem _ List.mem_cons_self) hlog'
  exact ⟨host, globals, world, K, ⟨m, "f", []⟩, vm, vm', log, log', ρ, t, t', hm, rfl, hcommons, hplain, hlog, hlog',
    hfirst, hsecond, hlone, hevents, ht, ht', hstatus⟩

end Moment
end ResourceMachine
