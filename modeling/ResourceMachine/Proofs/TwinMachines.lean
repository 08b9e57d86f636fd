/-
# Machines that cannot be told apart

Two machines are bisimilar if, whatever a host does with them, it does not find out which is
which: where one has a task, the other one has a task of the same kind that is in the same state;
what is handed in alike is dealt with alike; a turn of one is answered by a turn of the other in
which what can be seen is alike, also if it never ends; and the machines are bisimilar then.

Modules are twins if their functions run side by side, wherever they are called alike. Machines
on which nothing was defined are bisimilar, if what is loaded into one is a twin of what is loaded
into the other (`Moment.bisimilar_of_twins`).

Key definitions: `Module.Twins`, `Moment.Bisimulation`, `Moment.Bisimilar`, `Moment.Beside`.
Key theorems: `Moment.Beside.turn`, `Moment.bisimilar_of_twins`.
-/
import ResourceMachine.Proofs.Separation
import ResourceMachine.Proofs.TwinTurns

namespace ResourceMachine

variable {σ : Type} {host : Host σ} {same : Pairing → σ → σ → Prop} {ρ τ : Pairing}

/-! ### Logs -/

theorem Event.SeenAlike.of_append {es es' fs fs' : List Event} (h : Event.SeenAlike ρ (es ++ fs) (es' ++ fs'))
    (hes : Event.SeenAlike τ es es') : Event.SeenAlike ρ fs fs' := by
  unfold Event.SeenAlike at h
  rw [List.filter_append, List.filter_append] at h
  have hdrop := List.forall₂_drop (es.filter Event.isVisible).length h
  rwa [List.drop_left, hes.length_eq, List.drop_left] at hdrop

/-- What can be seen in logs is alike, and of the same tasks. -/
abbrev Moment.LogAlike (ρ : Pairing) (log log' : List (TaskId × Event)) : Prop :=
  List.Forall₂ (fun x y => x.1 = y.1 ∧ x.2.Alike ρ y.2) (log.filter fun x => x.2.isVisible)
    (log'.filter fun x => x.2.isVisible)

theorem Moment.LogAlike.mono (h : ρ ≤ τ) {log log' : List (TaskId × Event)} (hlog : LogAlike ρ log log') :
    LogAlike τ log log' := hlog.imp fun _ _ hx => ⟨hx.1, hx.2.mono h⟩

/-- A task has a part in more events. -/
theorem Moment.LogAlike.append {log log' : List (TaskId × Event)} (hlog : LogAlike ρ log log') (id : TaskId)
    {es es' : List Event} (hes : Event.SeenAlike ρ es es') :
    LogAlike ρ (log ++ id.events es) (log' ++ id.events es') := by
  have hevents (es : List Event) : (id.events es).filter (fun x => x.2.isVisible) =
      id.events (es.filter Event.isVisible) := by
    rw [TaskId.events, TaskId.events, List.filter_map]
    rfl
  unfold LogAlike
  rw [List.filter_append, List.filter_append, hevents, hevents]
  refine List.rel_append hlog ?_
  rw [TaskId.events, TaskId.events, List.forall₂_map_left_iff, List.forall₂_map_right_iff]
  exact hes.imp fun _ _ he => ⟨rfl, he⟩

/-- What a task is told when it is resumed is not seen. -/
theorem Resume.events_seen (mode : Resume) : mode.events.filter Event.isVisible = [] := by
  cases mode <;> rfl

/-! ### Bisimilar machines -/

/-- Tasks are in the same state. -/
inductive TaskState.Alike (ρ : Pairing) : TaskState → TaskState → Prop
  | created : Alike ρ .created .created
  | running : Alike ρ .running .running
  | awaiting : Alike ρ .awaiting .awaiting
  | yielded {v w : Value} (h : v.Alike ρ w) : Alike ρ (.yielded v) (.yielded w)
  | completed {v w : Value} (h : v.Alike ρ w) : Alike ρ (.completed v) (.completed w)
  | threw {v w : Value} (h : v.Alike ρ w) : Alike ρ (.threw v) (.threw w)

theorem TaskState.Alike.mono (h : ρ ≤ τ) {s s' : TaskState} (hs : s.Alike ρ s') : s.Alike τ s' := by
  cases hs with
  | created => exact .created
  | running => exact .running
  | awaiting => exact .awaiting
  | yielded hv => exact .yielded (hv.mono h)
  | completed hv => exact .completed (hv.mono h)
  | threw hv => exact .threw (hv.mono h)

theorem TaskState.Alike.status {s s' : TaskState} (h : s.Alike ρ s') : s.status.Alike ρ s'.status := by
  cases h with
  | created | running | awaiting => exact .pending
  | yielded hv => exact .yielded hv
  | completed hv => exact .returned hv
  | threw hv => exact .threw hv

theorem Outcome.Alike.state {o o' : Outcome} (h : o.Alike ρ o') : o.state.Alike ρ o'.state := by
  cases h with
  | completed hv => exact .completed hv
  | threw hv => exact .threw hv
  | awaits hv => exact .awaiting
  | yields hv => exact .yielded hv

/-- The counters, but for the instructions. -/
def VmStats.events (s : VmStats) : VmStats := { s with steps := 0 }

namespace Moment

/-- What is seen of two machines between turns is alike: the world, the globals, the log, the
counters, and of each task its kind, its state, its status and whether it is queued or parked. -/
structure SeenAlike (same : Pairing → σ → σ → Prop) (ρ : Pairing) (μ μ' : Moment σ) : Prop where
  world : World.Renumbered same ρ μ.vm.world μ'.vm.world
  globals : Value.EntriesAlike ρ μ.vm.globals μ'.vm.globals
  log : LogAlike ρ μ.log μ'.log
  stats : μ.vm.stats.events = μ'.vm.stats.events
  tasks : ∀ id, Option.Rel (fun t t' => t.kind = t'.kind ∧ t.state.Alike ρ t'.state ∧ t.status.Alike ρ t'.status)
    (μ.vm.schedule.get? id) (μ'.vm.schedule.get? id)
  ready : μ.vm.schedule.ready.map Prod.fst = μ'.vm.schedule.ready.map Prod.fst
  waiting : μ.vm.schedule.waiting = μ'.vm.schedule.waiting

/-- The turns that are next never end, and what can be seen in them is alike. -/
def Unending (host : Host σ) (ρ : Pairing) (μ μ' : Moment σ) : Prop :=
  ∀ n, ∃ τ ν ν', ρ ≤ τ ∧ Under host μ ν ∧ Under host μ' ν' ∧ μ.vm.stats.steps + n ≤ ν.vm.stats.steps ∧
    μ'.vm.stats.steps + n ≤ ν'.vm.stats.steps ∧ LogAlike τ ν.log ν'.log

/-- A relation between machines that no operation leaves, and within which all that can be seen
is alike. What is loaded into one machine stands to what is loaded into the other as `loads` says. -/
structure Bisimulation (host : Host σ) (same : Pairing → σ → σ → Prop) (loads : Module → Module → Prop)
    (R : Pairing → Moment σ → Moment σ → Prop) : Prop where
  seen : ∀ {ρ μ μ'}, R ρ μ μ' → μ.SeenAlike same ρ μ'
  surroundings : ∀ {ρ τ μ μ' world world' globals globals'}, R ρ μ μ' → ρ ≤ τ → World.Renumbered same τ world world' →
    Value.EntriesAlike τ globals globals' →
    R τ (idle { μ.vm with world, globals } μ.log) (idle { μ'.vm with world := world', globals := globals' } μ'.log)
  spawn : ∀ {ρ μ μ' m m' args args'} (name : String), R ρ μ μ' → loads m m' → Value.AllAlike ρ args args' →
    (∃ stop, Vm.spawn m name args μ.vm = .error stop μ.vm ∧ Vm.spawn m' name args' μ'.vm = .error stop μ'.vm) ∨
    ∃ id vm vm', Vm.spawn m name args μ.vm = .ok id vm ∧ Vm.spawn m' name args' μ'.vm = .ok id vm' ∧
      R ρ (idle vm μ.log) (idle vm' μ'.log)
  prepare : ∀ {ρ μ μ' id t t' mode mode'}, R ρ μ μ' → μ.vm.schedule.get? id = some t →
    μ'.vm.schedule.get? id = some t' → t.kind.isGenerator = true → Resume.Alike ρ mode mode' →
    (∃ stop, Vm.prepareGenerator t mode μ.vm = .error stop μ.vm ∧
      Vm.prepareGenerator t' mode' μ'.vm = .error stop μ'.vm) ∨
    ∃ vm vm', Vm.prepareGenerator t mode μ.vm = .ok () vm ∧ Vm.prepareGenerator t' mode' μ'.vm = .ok () vm' ∧
      R ρ (idle vm (μ.log ++ id.events (t.refusal mode))) (idle vm' (μ'.log ++ id.events (t'.refusal mode')))
  promote : ∀ {ρ μ μ'}, R ρ μ μ' →
    (μ.vm.schedule.promote μ.vm.world.heap).1 = (μ'.vm.schedule.promote μ'.vm.world.heap).1 ∧
    R ρ (idle { μ.vm with schedule := (μ.vm.schedule.promote μ.vm.world.heap).2 } μ.log)
      (idle { μ'.vm with schedule := (μ'.vm.schedule.promote μ'.vm.world.heap).2 } μ'.log)
  turn : ∀ {ρ μ μ'}, R ρ μ μ' → μ.vm.schedule.ready = [] ∧ μ'.vm.schedule.ready = [] ∨
    (∃ τ ν ν', ρ ≤ τ ∧ Turned host μ ν ∧ Turned host μ' ν' ∧ R τ ν ν') ∨ Unending host ρ μ μ'

/-- No host can tell two machines apart. -/
def Bisimilar (host : Host σ) (same : Pairing → σ → σ → Prop) (loads : Module → Module → Prop) (ρ : Pairing)
    (μ μ' : Moment σ) : Prop := ∃ R, Bisimulation host same loads R ∧ R ρ μ μ'

end Moment

/-! ### Tasks -/

/-- Calls run side by side wherever they are entered alike. -/
structure Call.Twin (host : Host σ) (same : Pairing → σ → σ → Prop) (room room' : Nat) (ρ : Pairing)
    (c c' : Call) : Prop where
  kind : c.function.kind = c'.function.kind
  alongside : ∀ {τ world world' globals globals'}, ρ ≤ τ → World.Renumbered same τ world world' →
    Value.EntriesAlike τ globals globals' → ∀ n,
      Entry.Alongside host same ⟨c, room, world, globals⟩ ⟨c', room', world', globals'⟩ n τ [] []

theorem Call.Twin.mono {room room' : Nat} {c c' : Call} (h : ρ ≤ τ) (hc : c.Twin host same room room' ρ c') :
    c.Twin host same room room' τ c' := ⟨hc.kind, fun hτ => hc.alongside (h.trans hτ)⟩

namespace Task

variable {t t' u u' : Task} {p p' : Suspension} {mode mode' : Resume}

/-- Tasks that have not been started, of calls that are twins. -/
inductive Fresh (host : Host σ) (same : Pairing → σ → σ → Prop) (ρ : Pairing) (t t' : Task) : Prop
  | intro {c c' : Call} {room room' : Nat} (twin : c.Twin host same room room' ρ c') (frame : t.frame = c.first room)
      (frame' : t'.frame = c'.first room') : Fresh host same ρ t t'

/-- Tasks of calls that have stopped, and run on side by side whatever replies they get. -/
inductive Stopped (host : Host σ) (same : Pairing → σ → σ → Prop) (ρ : Pairing) (p p' : Suspension) (t t' : Task) : Prop
  | intro {e e' : Entry σ} {script script' : List (Reply σ)} {s s' : Session σ} (left : e.Comes host script s p.outcome)
      (right : e'.Comes host script' s' p'.outcome) (asks : Event.Alike ρ (.suspend p) (.suspend p'))
      (seen : Event.SeenAlike ρ s.trace s'.trace) (frame : t.frame = s.frame) (frame' : t'.frame = s'.frame)
      (next : ∀ n {τ r r'}, ρ ≤ τ → Reply.Alike same τ r r' →
        e.Alongside host same e' n τ (script ++ [r]) (script' ++ [r'])) : Stopped host same ρ p p' t t'

/-- Tasks that are resumed alike. -/
inductive Due (host : Host σ) (same : Pairing → σ → σ → Prop) (ρ : Pairing) (t t' : Task) : Resume → Resume → Prop
  | start (fresh : Fresh host same ρ t t') : Due host same ρ t t' .start .start
  | answer {p p' : Suspension} {a a' : Answer} (stopped : Stopped host same ρ p p' t t') (accepts : p.accept a = a)
      (accepts' : p'.accept a' = a') (alike : a.mode.Alike ρ a'.mode) : Due host same ρ t t' a.mode a'.mode

/-- Tasks that cannot be told apart between their turns. -/
structure Beside (host : Host σ) (same : Pairing → σ → σ → Prop) (ρ : Pairing) (t t' : Task) : Prop where
  kind : t.kind = t'.kind
  state : t.state.Alike ρ t'.state
  created : t.state = .created → Fresh host same ρ t t'
  yielded : ∀ v v', t.state = .yielded v → t'.state = .yielded v' → Stopped host same ρ (.yield v) (.yield v') t t'

theorem Fresh.mono (h : ρ ≤ τ) (ht : Fresh host same ρ t t') : Fresh host same τ t t' := by
  obtain ⟨twin, frame, frame'⟩ := ht
  exact ⟨twin.mono h, frame, frame'⟩

theorem Stopped.mono (h : ρ ≤ τ) (ht : Stopped host same ρ p p' t t') : Stopped host same τ p p' t t' := by
  obtain ⟨left, right, asks, seen, frame, frame', next⟩ := ht
  exact ⟨left, right, asks.mono h, seen.mono h, frame, frame', fun n _ _ _ hτ => next n (h.trans hτ)⟩

theorem Due.mono (h : ρ ≤ τ) (ht : Due host same ρ t t' mode mode') : Due host same τ t t' mode mode' := by
  cases ht with
  | start fresh => exact .start (fresh.mono h)
  | answer stopped accepts accepts' alike => exact .answer (stopped.mono h) accepts accepts' (alike.mono h)

theorem Beside.mono (h : ρ ≤ τ) (ht : Beside host same ρ t t') : Beside host same τ t t' :=
  ⟨ht.kind, ht.state.mono h, fun hstate => (ht.created hstate).mono h,
    fun v v' hv hv' => (ht.yielded v v' hv hv').mono h⟩

/-- Only the frame counts. -/
theorem Fresh.congr (h : Fresh host same ρ t t') (hu : u.frame = t.frame) (hu' : u'.frame = t'.frame) :
    Fresh host same ρ u u' := by
  obtain ⟨twin, frame, frame'⟩ := h
  exact ⟨twin, hu.trans frame, hu'.trans frame'⟩

theorem Stopped.congr (h : Stopped host same ρ p p' t t') (hu : u.frame = t.frame) (hu' : u'.frame = t'.frame) :
    Stopped host same ρ p p' u u' := by
  obtain ⟨left, right, asks, seen, frame, frame', next⟩ := h
  exact ⟨left, right, asks, seen, hu.trans frame, hu'.trans frame', next⟩

theorem Due.congr (h : Due host same ρ t t' mode mode') (hu : u.frame = t.frame) (hu' : u'.frame = t'.frame) :
    Due host same ρ u u' mode mode' := by
  cases h with
  | start fresh => exact .start (fresh.congr hu hu')
  | answer stopped accepts accepts' alike => exact .answer (stopped.congr hu hu') accepts accepts' alike

/-- Where tasks are resumed alike, the sessions of their calls go on side by side. -/
theorem Due.resumes (h : Due host same ρ t t' mode mode') {world world' : World σ} {globals globals' : Globals}
    (hworld : World.Renumbered same ρ world world') (hglobals : Value.EntriesAlike ρ globals globals') :
    ∃ e e' script script' s s', t.Resumes host mode world globals e script s ∧
      t'.Resumes host mode' world' globals' e' script' s' ∧ Event.SeenAlike ρ s.trace s'.trace ∧
      ∀ n, e.Alongside host same e' n ρ script script' := by
  cases h with
  | start fresh =>
    obtain ⟨twin, frame, frame'⟩ := fresh
    have hstarts {t : Task} {c : Call} {room : Nat} (world : World σ) (globals : Globals)
        (hframe : t.frame = c.first room) :
        t.Resumes host .start world globals ⟨c, room, world, globals⟩ [] (.start (c.first room) world globals []) := by
      refine ⟨⟨0, .refl _⟩, ⟨rfl, rfl⟩, ?_, ?_⟩
      · rw [hframe]
        rfl
      · rw [hframe]
        exact c.function?_of_setup (c.setup_first room)
    exact ⟨_, _, _, _, _, _, hstarts world globals frame, hstarts world' globals' frame', .nil,
      fun n => twin.alongside (le_refl _) hworld hglobals n⟩
  | @answer p p' a a' stopped accepts accepts' alike =>
    obtain ⟨left, right, asks, seen, frame, frame', next⟩ := stopped
    have hgoesOn {t : Task} {e : Entry σ} {script : List (Reply σ)} {s : Session σ} {p : Suspension} {a : Answer}
        (world : World σ) (globals : Globals) (hcomes : e.Comes host script s p.outcome) (hframe : t.frame = s.frame)
        (haccepts : p.accept a = a) :
        t.Resumes host a.mode world globals e (script ++ [⟨a, world, globals⟩]) (s.reply p ⟨a, world, globals⟩ []) := by
      refine ⟨hcomes.reply _, Session.bare_reply s p _, ?_, ?_⟩
      · rw [Session.reply, Session.progress_route, haccepts, hframe]
      · rw [hframe]
        obtain ⟨-, k, hk⟩ := hcomes
        exact e.call.function?_of_setup hk.setup
    refine ⟨_, _, _, _, _, _, hgoesOn world globals left frame accepts, hgoesOn world' globals' right frame' accepts',
      ?_, fun n => next n (le_refl _) ⟨alike, hworld, hglobals⟩⟩
    rw [Session.reply, Session.route_trace, Session.reply, Session.route_trace]
    refine seen.append (Event.Alike.resume ?_).seen
    show Resume.Alike ρ (p.accept a).mode (p'.accept a').mode
    rwa [accepts, accepts']

end Task

/-! ### Schedules -/

namespace Schedule

theorem optionRel_imp {α β : Type} {R Q : α → β → Prop} {a : Option α} {b : Option β} (h : Option.Rel R a b)
    (hRQ : ∀ x y, R x y → Q x y) : Option.Rel Q a b := by
  cases h with
  | none => exact .none
  | some hxy => exact .some (hRQ _ _ hxy)

/-- Schedules of tasks that cannot be told apart. -/
structure Beside (host : Host σ) (same : Pairing → σ → σ → Prop) (ρ : Pairing) (s s' : Schedule) : Prop where
  tasks : ∀ id, Option.Rel (Task.Beside host same ρ) (s.get? id) (s'.get? id)
  ready : List.Forall₂ (fun x y => x.1 = y.1 ∧ ∃ t t', s.get? x.1 = some t ∧ s'.get? x.1 = some t' ∧
    Task.Due host same ρ t t' x.2 y.2) s.ready s'.ready
  waiting : s.waiting = s'.waiting
  parked : ∀ x ∈ s.waiting, ∃ t t', s.get? x.1 = some t ∧ s'.get? x.1 = some t' ∧
    Task.Stopped host same ρ (.await (.promise x.2)) (.await (.promise x.2)) t t'

variable {s s' u u' : Schedule} {id : TaskId}

theorem Beside.mono (h : ρ ≤ τ) (hs : s.Beside host same ρ s') : s.Beside host same τ s' where
  tasks id := optionRel_imp (hs.tasks id) fun _ _ ht => ht.mono h
  ready := hs.ready.imp fun _ _ hx => by
    obtain ⟨heq, t, t', ht, ht', hdue⟩ := hx
    exact ⟨heq, t, t', ht, ht', hdue.mono h⟩
  waiting := hs.waiting
  parked x hx := by
    obtain ⟨t, t', ht, ht', hstopped⟩ := hs.parked x hx
    exact ⟨t, t', ht, ht', hstopped.mono h⟩

/-- One task that was neither queued nor parked is changed on both sides, and may be queued or
parked then. -/
theorem Beside.alter (h : s.Beside host same ρ s') (hid : id ∉ s.queued) {t t' : Task}
    (ht : t.Beside host same ρ t') (hget : ∀ id', u.get? id' = if id' = id then some t else s.get? id')
    (hget' : ∀ id', u'.get? id' = if id' = id then some t' else s'.get? id') (modes modes' : List Resume)
    (promises : List Nat) (hready : u.ready = s.ready ++ modes.map fun mode => (id, mode))
    (hready' : u'.ready = s'.ready ++ modes'.map fun mode => (id, mode))
    (hmodes : List.Forall₂ (t.Due host same ρ t') modes modes')
    (hwaiting : u.waiting = s.waiting ++ promises.map fun p => (id, p))
    (hwaiting' : u'.waiting = s'.waiting ++ promises.map fun p => (id, p))
    (hpromises : ∀ p ∈ promises, t.Stopped host same ρ (.await (.promise p)) (.await (.promise p)) t') :
    u.Beside host same ρ u' := by
  obtain ⟨hidReady, hidWaiting⟩ := Moment.not_mem_queued.mp hid
  have hhere : u.get? id = some t := by rw [hget, if_pos rfl]
  have hhere' : u'.get? id = some t' := by rw [hget', if_pos rfl]
  refine ⟨fun id' => ?_, ?_, ?_, ?_⟩
  · rw [hget, hget']
    split
    · exact .some ht
    · exact h.tasks id'
  · rw [hready, hready']
    refine List.rel_append ?_ ?_
    · have hold := (List.forall₂_and_left _ _).mpr ⟨hidReady, h.ready⟩
      refine hold.imp fun x y hx => ?_
      obtain ⟨hne, heq, t₁, t₁', ht₁, ht₁', hdue⟩ := hx
      refine ⟨heq, t₁, t₁', ?_, ?_, hdue⟩
      · rw [hget, if_neg hne, ht₁]
      · rw [hget', if_neg hne, ht₁']
    · rw [List.forall₂_map_left_iff, List.forall₂_map_right_iff]
      exact hmodes.imp fun _ _ hdue => ⟨rfl, t, t', hhere, hhere', hdue⟩
  · rw [hwaiting, hwaiting', h.waiting]
  · rw [hwaiting]
    intro x hx
    rcases List.mem_append.mp hx with hx | hx
    · obtain ⟨t₁, t₁', ht₁, ht₁', hstopped⟩ := h.parked x hx
      refine ⟨t₁, t₁', ?_, ?_, hstopped⟩
      · rw [hget, if_neg (hidWaiting x hx), ht₁]
      · rw [hget', if_neg (hidWaiting x hx), ht₁']
    · obtain ⟨p, hp, rfl⟩ := List.mem_map.mp hx
      exact ⟨t, t', hhere, hhere', hpromises p hp⟩

/-- The first task is taken from both queues. -/
theorem Beside.pop (h : s.Beside host same ρ s') (hnodup : s.queued.Nodup) :
    s.ready = [] ∧ s'.ready = [] ∨ ∃ id mode mode' u u' t t', s.popReady = some ((id, mode), u) ∧
      s'.popReady = some ((id, mode'), u') ∧ u.get? id = some t ∧ u'.get? id = some t' ∧
      t.Due host same ρ t' mode mode' ∧ id ∉ u.queued ∧ u.Beside host same ρ u' := by
  obtain ⟨tasks, ready, waiting⟩ := s
  obtain ⟨tasks', ready', waiting'⟩ := s'
  obtain ⟨htasks, hready, hwaiting, hparked⟩ := h
  cases hready with
  | nil => exact .inl ⟨rfl, rfl⟩
  | @cons x y rest rest' hx hrest =>
    obtain ⟨id, mode⟩ := x
    obtain ⟨id', mode'⟩ := y
    obtain ⟨rfl, t, t', ht, ht', hdue⟩ := hx
    have hid : (id :: (Schedule.mk tasks rest waiting).queued).Nodup := hnodup
    exact .inr ⟨id, mode, mode', ⟨tasks, rest, waiting⟩, ⟨tasks', rest', waiting'⟩, t, t', rfl, rfl, ht, ht', hdue,
      (List.nodup_cons.mp hid).1, htasks, hrest, hwaiting, hparked⟩

/-- A promise that has settled continues its task alike. -/
theorem continuation?_alike {st st' : Settlement} (h : st.Alike ρ st') :
    Option.Rel (fun mode mode' => ∃ a a', mode = Answer.mode a ∧ mode' = Answer.mode a' ∧ a.mode.Alike ρ a'.mode ∧
      ∀ p, (Suspension.await (.promise p)).accept a = a ∧ (Suspension.await (.promise p)).accept a' = a')
      (continuation? st) (continuation? st') := by
  cases h with
  | pending => exact .none
  | @fulfilled v w hv => exact .some ⟨.next v, .next w, rfl, rfl, .next hv, fun _ => ⟨rfl, rfl⟩⟩
  | @rejected v w hv => exact .some ⟨.throw v, .throw w, rfl, rfl, .throw hv, fun _ => ⟨rfl, rfl⟩⟩

/-- Tasks whose promises have settled are queued on both sides. -/
theorem Beside.promote (h : s.Beside host same ρ s') {heap heap' : Heap} (hheap : Heap.Renumbered ρ heap heap') :
    (s.promote heap).1 = (s'.promote heap').1 ∧ (s.promote heap).2.Beside host same ρ (s'.promote heap').2 := by
  have hsettled (p : Nat) := continuation?_alike (hheap.settlement p)
  have hsome (p : Nat) : (continuation? (heap.settlement p)).isSome = (continuation? (heap'.settlement p)).isSome := by
    have := hsettled p
    generalize continuation? (heap.settlement p) = x at this
    generalize continuation? (heap'.settlement p) = y at this
    cases this <;> rfl
  have hnone (p : Nat) : (continuation? (heap.settlement p)).isNone = (continuation? (heap'.settlement p)).isNone := by
    rw [← Option.not_isSome, ← Option.not_isSome, hsome]
  refine ⟨?_, ?_⟩
  · rw [Schedule.promote, promoteAll_count, Schedule.promote, promoteAll_count, ← h.waiting]
    exact List.countP_congr fun x _ => by rw [hsome]
  · rw [promote_eq, promote_eq, ← h.waiting]
    refine ⟨h.tasks, List.rel_append h.ready ?_, ?_, fun x hx => h.parked x (List.mem_of_mem_filter hx)⟩
    · have hsame : List.Forall₂ (fun x y => x = y ∧ x ∈ s.waiting) s.waiting s.waiting :=
        List.forall₂_same.mpr fun x hx => ⟨rfl, hx⟩
      refine List.rel_filterMap ?_ hsame
      rintro ⟨id, p⟩ _ ⟨rfl, hx⟩
      obtain ⟨t, t', ht, ht', hstopped⟩ := h.parked _ hx
      have hp := hsettled p
      show Option.Rel _ ((continuation? (heap.settlement p)).map _) ((continuation? (heap'.settlement p)).map _)
      generalize continuation? (heap.settlement p) = a at hp ⊢
      generalize continuation? (heap'.settlement p) = a' at hp ⊢
      cases hp with
      | none => exact .none
      | some hmode =>
        obtain ⟨a, a', rfl, rfl, halike, haccepts⟩ := hmode
        exact .some ⟨rfl, t, t', ht, ht', .answer hstopped (haccepts p).1 (haccepts p).2 halike⟩
    · exact List.filter_congr fun x _ => hnone x.2

/-- Tasks that await what is alike are queued or parked on both sides. -/
theorem await_alike {heap heap' : Heap} (hheap : Heap.Renumbered ρ heap heap') {v v' : Value} (hv : v.Alike ρ v')
    (s s' : Schedule) (id : TaskId) :
    (∃ a a', Resume.Alike ρ (Answer.mode a) (Answer.mode a') ∧ (Suspension.await v).accept a = a ∧
      (Suspension.await v').accept a' = a' ∧ s.await heap id v = s.enqueue id a.mode ∧
      s'.await heap' id v' = s'.enqueue id a'.mode) ∨
    ∃ p, v = .promise p ∧ v' = .promise p ∧ s.await heap id v = { s with waiting := s.waiting ++ [(id, p)] } ∧
      s'.await heap' id v' = { s' with waiting := s'.waiting ++ [(id, p)] } := by
  have hsame := hv
  cases hv with
  | @promise a b hab =>
    obtain rfl := hheap.promise_iff.mp hab
    have hsettled := continuation?_alike (hheap.settlement a)
    simp only [await]
    generalize continuation? (heap.settlement a) = x at hsettled ⊢
    generalize continuation? (heap'.settlement a) = y at hsettled ⊢
    cases hsettled with
    | none => exact .inr ⟨a, rfl, rfl, rfl, rfl⟩
    | some hmode =>
      obtain ⟨b, b', rfl, rfl, halike, haccepts⟩ := hmode
      exact .inl ⟨b, b', halike, (haccepts a).1, (haccepts a).2, rfl, rfl⟩
  | @primitive v hv =>
    cases v
    case promise => cases hv
    all_goals exact .inl ⟨.next _, .next _, .next hsame, rfl, rfl, rfl, rfl⟩
  | _ => exact .inl ⟨.next _, .next _, .next hsame, rfl, rfl, rfl, rfl⟩

end Schedule

/-! ### Machines -/

/-- Modules whose functions run side by side, wherever they are called alike. -/
structure Module.Twins (host : Host σ) (same : Pairing → σ → σ → Prop) (room room' : Nat) (m m' : Module) : Prop where
  names : m.functions.map Function.name = m'.functions.map Function.name
  calls : ∀ {ρ : Pairing} {c c' : Call}, c.unit = m → c'.unit = m' → c.index = c'.index →
    Value.AllAlike ρ c.args c'.args → c.Twin host same room room' ρ c'

namespace Moment

variable {room room' : Nat} {vm vm' : Vm σ} {log log' : List (TaskId × Event)} {id : TaskId}

/-- Machines between turns that cannot be told apart: their tasks run side by side. -/
structure Beside (host : Host σ) (same : Pairing → σ → σ → Prop) (room room' : Nat) (ρ : Pairing)
    (μ μ' : Moment σ) : Prop where
  reached : Reached (.any host) μ
  reached' : Reached (.any host) μ'
  idle : μ.turn = none
  idle' : μ'.turn = none
  options : μ.vm.options = ⟨room, none⟩
  options' : μ'.vm.options = ⟨room', none⟩
  world : World.Renumbered same ρ μ.vm.world μ'.vm.world
  globals : Value.EntriesAlike ρ μ.vm.globals μ'.vm.globals
  log : LogAlike ρ μ.log μ'.log
  stats : μ.vm.stats.events = μ'.vm.stats.events
  next : μ.vm.nextTask = μ'.vm.nextTask
  schedule : μ.vm.schedule.Beside host same ρ μ'.vm.schedule

/-! ### Spawning -/

/-- A machine that has created a task. -/
def spawned (vm : Vm σ) (c : Call) : Vm σ :=
  let t := Task.create ⟨vm.nextTask⟩ c.function (c.first vm.options.stackCapacity)
  let schedule := vm.schedule.insert t
  { vm with
    nextTask := vm.nextTask + 1
    schedule := if c.function.kind.isGenerator then schedule else schedule.enqueue t.id .start
    stats := { vm.stats with tasksSpawned := vm.stats.tasksSpawned + 1 } }

theorem spawn_found {m : Module} {name : String} {index : Nat} (h : m.functions.findIdx? (·.name == name) = some index)
    (args : List Value) (vm : Vm σ) : ∃ c : Call, c.unit = m ∧ c.index = index ∧ c.args = args ∧
      Vm.spawn m name args vm = .ok ⟨vm.nextTask⟩ (spawned vm c) := by
  have hfind : m.function? name = m.functions[index]? := by
    show m.functions.find? (·.name == name) = _
    rw [List.find?_eq_bind_findIdx?_getElem?, h]
    rfl
  obtain ⟨hlt, -⟩ := List.findIdx?_eq_some_iff_getElem.mp h
  obtain ⟨f, hf⟩ : ∃ f, m.functions[index]? = some f := ⟨_, List.getElem?_eq_getElem hlt⟩
  refine ⟨⟨m, index, f, args, hf⟩, rfl, rfl, rfl, ?_⟩
  unfold Vm.spawn
  rw [hf] at hfind
  simp only [h, hfind]
  unfold spawned
  cases f.kind.isGenerator <;> rfl

theorem spawn_not_found {m : Module} {name : String} (h : m.functions.findIdx? (·.name == name) = none)
    (args : List Value) (vm : Vm σ) :
    Vm.spawn m name args vm = .error (.error (.functionNotFound name)) vm := by
  unfold Vm.spawn
  simp only [h]
  rfl

theorem Sane.next_not_queued {Ω : Surroundings σ} {P : Resume → World σ → Globals → Prop}
    (h : Sane Ω P (.idle vm log)) : (⟨vm.nextTask⟩ : TaskId) ∉ vm.schedule.queued := by
  have hknown {id : TaskId} (hsome : (vm.schedule.get? id).isSome) : id ≠ ⟨vm.nextTask⟩ := by
    rintro rfl
    exact Nat.lt_irrefl _ (h.below _ hsome)
  exact not_mem_queued.mpr ⟨fun entry hentry => hknown (h.due entry hentry).isSome,
    fun entry hentry => hknown (h.parked entry hentry).isSome⟩

/-- Tasks are created on both sides. -/
theorem Beside.spawned (h : Beside host same room room' ρ (.idle vm log) (.idle vm' log')) {c c' : Call}
    (hc : c.Twin host same room room' ρ c') :
    (spawned vm c).schedule.Beside host same ρ (spawned vm' c').schedule := by
  have hroom : vm.options.stackCapacity = room := congrArg VmOptions.stackCapacity h.options
  have hroom' : vm'.options.stackCapacity = room' := congrArg VmOptions.stackCapacity h.options'
  have hnext : vm.nextTask = vm'.nextTask := h.next
  let t := Task.create ⟨vm.nextTask⟩ c.function (c.first vm.options.stackCapacity)
  let t' := Task.create ⟨vm'.nextTask⟩ c'.function (c'.first vm'.options.stackCapacity)
  have hfresh : t.Fresh host same ρ t' :=
    ⟨hc, congrArg c.first hroom, congrArg c'.first hroom'⟩
  have ht : t.Beside host same ρ t' := ⟨hc.kind, .created, fun _ => hfresh, fun v v' hv => by cases hv⟩
  let modes (c : Call) : List Resume := if c.function.kind.isGenerator then [] else [.start]
  have hget (vm : Vm σ) (c : Call) (id' : TaskId) : (Moment.spawned vm c).schedule.get? id' =
      if id' = ⟨vm.nextTask⟩ then some (Task.create ⟨vm.nextTask⟩ c.function (c.first vm.options.stackCapacity))
      else vm.schedule.get? id' := by
    unfold Moment.spawned
    simp only
    split <;> exact Schedule.get?_insert _ id'
  have hready (vm : Vm σ) (c : Call) : (Moment.spawned vm c).schedule.ready = vm.schedule.ready ++
      (modes c).map fun mode => (⟨vm.nextTask⟩, mode) := by
    unfold Moment.spawned modes
    simp only
    split
    · exact (List.append_nil _).symm
    · rfl
  have hwaiting (vm : Vm σ) (c : Call) : (Moment.spawned vm c).schedule.waiting = vm.schedule.waiting := by
    unfold Moment.spawned
    simp only
    split <;> rfl
  refine h.schedule.alter h.reached.sane.next_not_queued ht (hget vm c) ?_ (modes c) (modes c') [] (hready vm c) ?_ ?_
    ?_ ?_ ?_
  · rw [show (⟨vm.nextTask⟩ : TaskId) = ⟨vm'.nextTask⟩ by rw [hnext]]
    exact hget vm' c'
  · rw [show (⟨vm.nextTask⟩ : TaskId) = ⟨vm'.nextTask⟩ by rw [hnext]]
    exact hready vm' c'
  · unfold modes
    rw [hc.kind]
    split
    · exact .nil
    · exact .cons (.start hfresh) .nil
  · exact (hwaiting vm c).trans (List.append_nil _).symm
  · exact (hwaiting vm' c').trans (List.append_nil _).symm
  · simp

/-! ### Generators -/

/-- A schedule in which a task has another state, shows something else, and is queued like this. -/
def revised (s : Schedule) (id : TaskId) (state : TaskState) (see : TaskStatus → TaskStatus)
    (modes : List Resume) : Schedule :=
  { s.update id fun t => { t with state, status := see t.status } with
    ready := s.ready ++ modes.map fun mode => (id, mode) }

theorem revised_beside {s s' : Schedule} (h : s.Beside host same ρ s') (hid : id ∉ s.queued) {t t' : Task}
    (hget : s.get? id = some t) (hget' : s'.get? id = some t') {state state' : TaskState}
    (hstate : state.Alike ρ state') (hcreated : state ≠ .created) (hyielded : ∀ v, state ≠ .yielded v)
    (see see' : TaskStatus → TaskStatus) {modes modes' : List Resume}
    (hmodes : List.Forall₂ (Task.Due host same ρ t t') modes modes') :
    (revised s id state see modes).Beside host same ρ (revised s' id state' see' modes') := by
  have ht := h.tasks id
  rw [hget, hget'] at ht
  cases ht with
  | some ht =>
    have hnew : ({ t with state, status := see t.status } : Task).Beside host same ρ
        { t' with state := state', status := see' t'.status } :=
      ⟨ht.kind, hstate, fun h => absurd h hcreated, fun v _ hv => absurd hv (hyielded v)⟩
    have hupdate {s : Schedule} {t : Task} (state : TaskState) (see : TaskStatus → TaskStatus)
        (modes : List Resume) (hget : s.get? id = some t) (id' : TaskId) :
        (revised s id state see modes).get? id' =
          if id' = id then some { t with state, status := see t.status } else s.get? id' := by
      refine (Schedule.get?_update s id (f := fun t => { t with state, status := see t.status })
        (fun _ => rfl) id').trans ?_
      split
      · rename_i heq
        rw [heq, hget]
        rfl
      · rfl
    exact h.alter hid hnew (hupdate state see modes hget) (hupdate state' see' modes' hget') modes modes' [] rfl rfl
      (hmodes.imp fun _ _ hdue => hdue.congr rfl rfl) (List.append_nil _).symm (List.append_nil _).symm (by simp)

theorem refusal_seen (t : Task) (mode : Resume) : (t.refusal mode).filter Event.isVisible = [] := by
  unfold Task.refusal
  split <;> rfl

/-- The schedule when a generator was prepared to be resumed, unless it is busy. -/
def prepared? (s : Schedule) (id : TaskId) (t : Task) (mode : Resume) : Option Schedule :=
  match t.state, mode with
  | .created, .ret v => some (revised s id (.completed v) (fun _ => .returned v) [])
  | .created, .throw e => some (revised s id (.threw e) (fun _ => .threw e) [])
  | .created, _ => some (revised s id .running (fun status => status) [.start])
  | .yielded _, mode =>
    some (revised s id .running (fun _ => .pending) [(mode.answer?.getD (.next .undefined)).mode])
  | .running, _ | .awaiting, _ => none
  | .completed _, _ | .threw _, _ | .failed, _ => some s

theorem prepareGenerator_eq {t : Task} (hid : t.id = id) (mode : Resume) (vm : Vm σ) :
    Vm.prepareGenerator t mode vm =
      match prepared? vm.schedule id t mode with
      | some schedule => .ok () { vm with schedule }
      | none => .error (.error (.taskBusy id)) vm := by
  subst hid
  have hfinish (state : TaskState) (status : TaskStatus) : (Vm.finish t.id state status : VmM σ Unit) vm =
      .ok () { vm with schedule := revised vm.schedule t.id state (fun _ => status) [] } := by
    rw [revised, List.map_nil, List.append_nil, ← vm.schedule.update_update t.id
      (f := fun t => { t with state }) (fun _ => rfl) fun t => { t with status }]
    rfl
  have hqueue (mode : Resume) :
      (do Vm.setState t.id .running; Vm.setStatus t.id .pending; Vm.enqueue t.id mode : VmM σ Unit) vm =
        .ok () { vm with schedule := revised vm.schedule t.id .running (fun _ => .pending) [mode] } := by
    rw [revised, ← vm.schedule.update_update t.id (f := fun t => { t with state := .running })
      (fun _ => rfl) fun t => { t with status := .pending }]
    rfl
  unfold Vm.prepareGenerator prepared?
  cases t.state with
  | created =>
    cases mode with
    | ret v => exact hfinish _ _
    | throw e => exact hfinish _ _
    | start | next _ => rfl
  | yielded _ => cases mode <;> exact hqueue _
  | running | awaiting | completed _ | threw _ | failed => rfl

/-- Generators that were not run yet are closed alike, or started alike. -/
theorem prepared?_created {s s' : Schedule} (h : s.Beside host same ρ s') (hid : id ∉ s.queued) {t t' : Task}
    (hget : s.get? id = some t) (hget' : s'.get? id = some t') (hstate : t.state = .created)
    (hstate' : t'.state = .created) (hfresh : t.Fresh host same ρ t') {mode mode' : Resume}
    (hmode : mode.Alike ρ mode') :
    Option.Rel (Schedule.Beside host same ρ) (prepared? s id t mode) (prepared? s' id t' mode') := by
  unfold prepared?
  rw [hstate, hstate']
  cases hmode with
  | start | next _ =>
    exact .some (revised_beside h hid hget hget' .running nofun nofun _ _ (.cons (.start hfresh) .nil))
  | throw he => exact .some (revised_beside h hid hget hget' (.threw he) nofun nofun _ _ .nil)
  | ret hv => exact .some (revised_beside h hid hget hget' (.completed hv) nofun nofun _ _ .nil)

/-- Generators that have yielded go on alike. -/
theorem prepared?_yielded {s s' : Schedule} (h : s.Beside host same ρ s') (hid : id ∉ s.queued) {t t' : Task}
    (hget : s.get? id = some t) (hget' : s'.get? id = some t') {v v' : Value} (hstate : t.state = .yielded v)
    (hstate' : t'.state = .yielded v') (hstopped : t.Stopped host same ρ (.yield v) (.yield v') t')
    {mode mode' : Resume} (hmode : mode.Alike ρ mode') :
    Option.Rel (Schedule.Beside host same ρ) (prepared? s id t mode) (prepared? s' id t' mode') := by
  have hanswer : (mode.answer?.getD (.next .undefined)).mode.Alike ρ
      (mode'.answer?.getD (.next .undefined)).mode := by
    cases hmode with
    | start => exact .next .undefined
    | next hv => exact .next hv
    | throw he => exact .throw he
    | ret hv => exact .ret hv
  unfold prepared?
  rw [hstate, hstate']
  exact .some (revised_beside h hid hget hget' .running nofun nofun _ _
    (.cons (.answer hstopped rfl rfl hanswer) .nil))

/-- Generators are prepared alike. -/
theorem prepared?_beside {s s' : Schedule} (h : s.Beside host same ρ s') {t t' : Task}
    (hget : s.get? id = some t) (hget' : s'.get? id = some t')
    (hidle : t.state ≠ .running → t.state ≠ .awaiting → id ∉ s.queued) {mode mode' : Resume}
    (hmode : mode.Alike ρ mode') :
    Option.Rel (Schedule.Beside host same ρ) (prepared? s id t mode) (prepared? s' id t' mode') := by
  have hboth := h.tasks id
  rw [hget, hget'] at hboth
  cases hboth with
  | some ht =>
    have hstate := ht.state
    generalize hs : t.state = st at hstate hidle
    generalize hs' : t'.state = st' at hstate
    cases hstate with
    | created => exact prepared?_created h (hidle nofun nofun) hget hget' hs hs' (ht.created hs) hmode
    | yielded _ =>
      exact prepared?_yielded h (hidle nofun nofun) hget hget' hs hs' (ht.yielded _ _ hs hs') hmode
    | running | awaiting =>
      unfold prepared?
      rw [hs, hs']
      exact .none
    | completed _ | threw _ =>
      unfold prepared?
      rw [hs, hs']
      exact .some h

/-- A generator is resumed on both sides, or is busy on both. -/
theorem Beside.prepare (h : Beside host same room room' ρ (.idle vm log) (.idle vm' log')) {t t' : Task}
    {mode mode' : Resume} (hget : vm.schedule.get? id = some t) (hget' : vm'.schedule.get? id = some t')
    (hkind : t.kind.isGenerator = true) (hmode : mode.Alike ρ mode') :
    (∃ stop, Vm.prepareGenerator t mode vm = .error stop vm ∧ Vm.prepareGenerator t' mode' vm' = .error stop vm') ∨
    ∃ vm₁ vm₁', Vm.prepareGenerator t mode vm = .ok () vm₁ ∧ Vm.prepareGenerator t' mode' vm' = .ok () vm₁' ∧
      Beside host same room room' ρ (.idle vm₁ (log ++ id.events (t.refusal mode)))
        (.idle vm₁' (log' ++ id.events (t'.refusal mode'))) := by
  have hkind' : t'.kind.isGenerator = true := by
    have hboth : Option.Rel (Task.Beside host same ρ) (vm.schedule.get? id) (vm'.schedule.get? id) :=
      h.schedule.tasks id
    rw [hget, hget'] at hboth
    cases hboth with
    | some ht => rwa [← ht.kind]
  have hdone := prepareGenerator_eq (Schedule.id_of_get? hget) mode vm
  have hdone' := prepareGenerator_eq (Schedule.id_of_get? hget') mode' vm'
  have hboth : Option.Rel (Schedule.Beside host same ρ) (prepared? vm.schedule id t mode)
      (prepared? vm'.schedule id t' mode') :=
    prepared?_beside h.schedule hget hget' (h.reached.sane.not_queued hget hkind) hmode
  generalize prepared? vm.schedule id t mode = u at hboth hdone
  generalize prepared? vm'.schedule id t' mode' = u' at hboth hdone'
  cases hboth with
  | none => exact .inl ⟨_, hdone, hdone'⟩
  | some hschedule =>
    have hseen : Event.SeenAlike ρ (t.refusal mode) (t'.refusal mode') := by
      unfold Event.SeenAlike
      rw [refusal_seen, refusal_seen]
      exact .nil
    refine .inr ⟨_, _, hdone, hdone', ?_⟩
    exact { h with
      reached := h.reached.leads (.single (.prepare (fun _ _ => trivial) hget hkind hdone))
      reached' := h.reached'.leads (.single (.prepare (fun _ _ => trivial) hget' hkind' hdone'))
      log := h.log.append id hseen
      schedule := hschedule }

/-! ### Turns -/

/-- The machine in which the end of a turn is recorded. -/
def recorded (vm : Vm σ) (u : Schedule) (id : TaskId) (k : Nat) (o : Outcome) (a : Activation σ) : Vm σ :=
  stateOf (Vm.record id o ((Task.Resumes.machine vm u id k).leave id a))

section

variable {u u' : Schedule} {t t' : Task} {o o' : Outcome} {a a' : Activation σ} {k k' : Nat}

theorem recorded_get? (vm : Vm σ) (k : Nat) (o : Outcome) (a : Activation σ) (hget : u.get? id = some t) :
    ∃ t₁ : Task, t₁.kind = t.kind ∧ t₁.frame = a.frame ∧ t₁.state = o.state ∧
      ∀ id', (recorded vm u id k o a).schedule.get? id' = if id' = id then some t₁ else u.get? id' := by
  obtain ⟨hgets, -⟩ := record_spec ((Task.Resumes.machine vm u id k).leave id a) id o
  have hleave (id' : TaskId) : ((Task.Resumes.machine vm u id k).leave id a).schedule.get? id' =
      if id' = id then (u.get? id').map fun t => { t with state := .running, frame := a.frame } else u.get? id' := by
    rw [← u.get?_update id (f := fun t => { t with state := .running, frame := a.frame }) fun _ => rfl]
    exact congrArg (Schedule.get? · id') (u.update_update id (f := fun t => { t with state := .running })
      (fun _ => rfl) fun t => { t with frame := a.frame })
  refine ⟨o.settle { t with state := .running, frame := a.frame }, o.settle_kind _, o.settle_frame _,
    o.settle_state _, fun id' => (hgets id').trans ?_⟩
  rw [hleave]
  split
  · rename_i heq
    rw [heq, hget]
    rfl
  · rfl

/-- Ends of turns are recorded alike. -/
theorem recorded_beside (h : u.Beside host same ρ u') (hid : id ∉ u.queued) (hget : u.get? id = some t)
    (hget' : u'.get? id = some t') (hkind : t.kind = t'.kind) (ho : o.Alike ρ o')
    (hheap : Heap.Renumbered ρ a.world.heap a'.world.heap)
    (hstopped : ∀ {p p' : Suspension} {t t' : Task}, o = p.outcome → o' = p'.outcome → t.frame = a.frame →
      t'.frame = a'.frame → t.Stopped host same ρ p p' t') (vm vm' : Vm σ) (k k' : Nat) :
    (recorded vm u id k o a).schedule.Beside host same ρ (recorded vm' u' id k' o' a').schedule := by
  obtain ⟨t₁, hkind₁, hframe₁, hstate₁, hgets⟩ := recorded_get? vm k o a hget
  obtain ⟨t₁', hkind₁', hframe₁', hstate₁', hgets'⟩ := recorded_get? vm' k' o' a' hget'
  have ht : t₁.Beside host same ρ t₁' := by
    refine ⟨?_, ?_, fun hcreated => ?_, fun v v' hv hv' => ?_⟩
    · rw [hkind₁, hkind₁', hkind]
    · rw [hstate₁, hstate₁']
      exact ho.state
    · rw [hstate₁] at hcreated
      cases o <;> cases hcreated
    · rw [hstate₁] at hv
      rw [hstate₁'] at hv'
      have hyields {o : Outcome} {v : Value} (h : o.state = .yielded v) : o = (Suspension.yield v).outcome := by
        cases o <;> cases h
        rfl
      exact hstopped (hyields hv) (hyields hv') hframe₁ hframe₁'
  cases ho with
  | completed | threw | yields =>
    exact h.alter hid ht hgets hgets' [] [] [] (List.append_nil _).symm (List.append_nil _).symm .nil
      (List.append_nil _).symm (List.append_nil _).symm (by simp)
  | @awaits v v' hv =>
    have hawait (vm : Vm σ) (u : Schedule) (k : Nat) (v : Value) (a : Activation σ) :
        ∃ s : Schedule, s.ready = u.ready ∧ s.waiting = u.waiting ∧
          (recorded vm u id k (.awaits v) a).schedule = s.await a.world.heap id v :=
      ⟨((((Task.Resumes.machine vm u id k).leave id a).schedule.update id Task.recordAwait).update id fun t =>
        { t with state := .awaiting }), rfl, rfl, rfl⟩
    obtain ⟨s, hready, hwaiting, hs⟩ := hawait vm u k v a
    obtain ⟨s', hready', hwaiting', hs'⟩ := hawait vm' u' k' v' a'
    rcases Schedule.await_alike hheap hv s s' id with ⟨b, b', halike, haccepts, haccepts', hb, hb'⟩ |
      ⟨p, rfl, rfl, hp, hp'⟩
    · have hdue : t₁.Due host same ρ t₁' b.mode b'.mode :=
        .answer (hstopped rfl rfl hframe₁ hframe₁') haccepts haccepts' halike
      refine h.alter hid ht hgets hgets' [b.mode] [b'.mode] [] ?_ ?_ (.cons hdue .nil) ?_ ?_ (by simp)
      · rw [hs, hb, Schedule.enqueue, hready]
        rfl
      · rw [hs', hb', Schedule.enqueue, hready']
        rfl
      · rw [hs, hb, Schedule.enqueue, hwaiting]
        exact (List.append_nil _).symm
      · rw [hs', hb', Schedule.enqueue, hwaiting']
        exact (List.append_nil _).symm
    · refine h.alter hid ht hgets hgets' [] [] [p] ?_ ?_ .nil ?_ ?_ ?_
      · rw [hs, hp, hready]
        exact (List.append_nil _).symm
      · rw [hs', hp', hready']
        exact (List.append_nil _).symm
      · rw [hs, hp, hwaiting]
        rfl
      · rw [hs', hp', hwaiting']
        rfl
      · intro p' hp'
        rw [List.mem_singleton.mp hp']
        exact hstopped rfl rfl hframe₁ hframe₁'

/-- Turns that end alike are counted alike. -/
theorem recorded_stats (ho : o.Alike ρ o') (h : vm.stats.events = vm'.stats.events) :
    (recorded vm u id k o a).stats.events = (recorded vm' u' id k' o' a').stats.events := by
  have hcount {f : VmStats → VmStats} (hf : ∀ s s' : VmStats, s.events = s'.events → (f s).events = (f s').events)
      {j j' : Nat} : (f { vm.stats with steps := j }).events = (f { vm'.stats with steps := j' }).events := hf _ _ h
  cases ho with
  | completed =>
    refine hcount (f := fun s => { s with tasksCompleted := s.tasksCompleted + 1 }) fun s s' hs => ?_
    simp only [VmStats.events, VmStats.mk.injEq] at hs ⊢
    simp [hs]
  | threw =>
    refine hcount (f := fun s => { s with tasksThrew := s.tasksThrew + 1 }) fun s s' hs => ?_
    simp only [VmStats.events, VmStats.mk.injEq] at hs ⊢
    simp [hs]
  | awaits =>
    refine hcount (f := fun s => { s with awaits := s.awaits + 1 }) fun s s' hs => ?_
    simp only [VmStats.events, VmStats.mk.injEq] at hs ⊢
    simp [hs]
  | yields =>
    refine hcount (f := fun s => { s with yields := s.yields + 1 }) fun s s' hs => ?_
    simp only [VmStats.events, VmStats.mk.injEq] at hs ⊢
    simp [hs]

end

/-- **A turn of one machine is answered by a turn of the other one.** -/
theorem Beside.turn (h : Beside host same room room' ρ (.idle vm log) (.idle vm' log')) :
    vm.schedule.ready = [] ∧ vm'.schedule.ready = [] ∨
    (∃ τ ν ν', ρ ≤ τ ∧ Turned host (.idle vm log) ν ∧ Turned host (.idle vm' log') ν' ∧
      Beside host same room room' τ ν ν') ∨ Unending host ρ (.idle vm log) (.idle vm' log') := by
  have hschedule : vm.schedule.Beside host same ρ vm'.schedule := h.schedule
  have hworld : World.Renumbered same ρ vm.world vm'.world := h.world
  have hglobals : Value.EntriesAlike ρ vm.globals vm'.globals := h.globals
  rcases hschedule.pop h.reached.sane.queue with hempty | ⟨id, mode, mode', u, u', t, t', hpop, hpop', hget, hget',
    hdue, hid, hu⟩
  · exact .inl hempty
  right
  obtain ⟨e, e', script, script', s₀, s₀', hresumes, hresumes', hseen, halong⟩ := hdue.resumes hworld hglobals
  have hbudget : vm.options.stepBudget = none := congrArg VmOptions.stepBudget h.options
  have hbudget' : vm'.options.stepBudget = none := congrArg VmOptions.stepBudget h.options'
  -- what happens in the turn is what is new in the traces of the sessions
  have hnew {τ : Pairing} {s s' : Session σ} {es es' : List Event} (hle : ρ ≤ τ) (htrace : s.trace = s₀.trace ++ es)
      (htrace' : s'.trace = s₀'.trace ++ es') (hs : Event.SeenAlike τ s.trace s'.trace) :
      LogAlike τ (log ++ id.events (mode.events ++ es)) (log' ++ id.events (mode'.events ++ es')) := by
    rw [htrace, htrace'] at hs
    have hes := hs.of_append hseen
    refine (h.log.mono hle).append id ?_
    unfold Event.SeenAlike
    rwa [List.filter_append, List.filter_append, Resume.events_seen, Resume.events_seen]
  rcases Entry.Alongside.settle halong with hendless | ⟨s, s', o, o', τ, hsettled⟩
  · right
    intro n
    obtain ⟨k, hk⟩ := hresumes.gets
    obtain ⟨k', hk'⟩ := hresumes'.gets
    obtain ⟨s, s', τ, hle, hlasts, hlasts', hbeside⟩ := hendless (n + k + k')
    obtain ⟨j, hj, hrun⟩ := Entry.Lasts.onward (n := n) (hlasts.mono (by omega)) hk
    obtain ⟨j', hj', hrun'⟩ := Entry.Lasts.onward (n := n) (hlasts'.mono (by omega)) hk'
    obtain ⟨es, htrace, -, hunder⟩ := hresumes.under log hpop hget hbudget hrun
    obtain ⟨es', htrace', -, hunder'⟩ := hresumes'.under log' hpop' hget' hbudget' hrun'
    exact ⟨τ, _, _, hle, hunder, hunder', Nat.add_le_add_left hj _, Nat.add_le_add_left hj' _,
      hnew hle htrace htrace' hbeside.trace⟩
  · left
    obtain ⟨k, es, htrace, -, hturned⟩ := hresumes.turned log hpop hget hbudget hsettled.left
    obtain ⟨k', es', htrace', -, hturned'⟩ := hresumes'.turned log' hpop' hget' hbudget' hsettled.right
    obtain ⟨-, hnext, hoptions, hworld, -⟩ :=
      record_spec ((Task.Resumes.machine vm u id k).leave id ⟨s.frame, s.world⟩) id o
    obtain ⟨-, hnext', hoptions', hworld', -⟩ :=
      record_spec ((Task.Resumes.machine vm' u' id k').leave id ⟨s'.frame, s'.world⟩) id o'
    have hbeside := hsettled.beside
    have hkind : t.kind = t'.kind := by
      have ht := hu.tasks id
      rw [hget, hget'] at ht
      cases ht with
      | some ht => exact ht.kind
    refine ⟨τ, _, _, hsettled.le, hturned, hturned', ?_⟩
    refine ⟨h.reached.leads hturned.leads.of_handsOff, h.reached'.leads hturned'.leads.of_handsOff, rfl, rfl,
      hoptions.trans h.options, hoptions'.trans h.options', ?_, ?_, hnew hsettled.le htrace htrace' hbeside.trace,
      recorded_stats hsettled.alike h.stats, hnext.trans (h.next.trans hnext'.symm), ?_⟩
    · show World.Renumbered same τ (recorded vm u id k o ⟨s.frame, s.world⟩).world
        (recorded vm' u' id k' o' ⟨s'.frame, s'.world⟩).world
      rw [recorded, recorded, hworld, hworld']
      exact hbeside.world
    · show Value.EntriesAlike τ (recorded vm u id k o ⟨s.frame, s.world⟩).globals
        (recorded vm' u' id k' o' ⟨s'.frame, s'.world⟩).globals
      rw [recorded, recorded, record_globals, record_globals]
      exact hglobals.mono hsettled.le
    · refine recorded_beside (hu.mono hsettled.le) hid hget hget' hkind hsettled.alike hbeside.world.heap ?_ vm vm' k k'
      rintro p p' t t' rfl rfl hframe hframe'
      have hasks : Event.Alike τ (.suspend p) (.suspend p') := by
        have halike := hsettled.alike
        cases p <;> cases p' <;> cases halike
        · exact .await ‹_›
        · exact .yield ‹_›
      have hp : p.outcome.suspension?.isSome := by cases p <;> rfl
      exact ⟨hsettled.left, hsettled.right, hasks, hbeside.trace, hframe, hframe', fun n _ _ _ hτ hr =>
        hsettled.next hp n hτ hr⟩

/-! ### All together -/

theorem Beside.seen {μ μ' : Moment σ} (h : Beside host same room room' ρ μ μ') : μ.SeenAlike same ρ μ' where
  world := h.world
  globals := h.globals
  log := h.log
  stats := h.stats
  tasks id := by
    match hget : μ.vm.schedule.get? id, hget' : μ'.vm.schedule.get? id, h.schedule.tasks id with
    | none, none, .none => exact .none
    | some t, some t', .some ht =>
      refine .some ⟨ht.kind, ht.state, ?_⟩
      rw [h.reached.status_eq hget, h.reached'.status_eq hget']
      exact ht.state.status
  ready := by
    have hready := h.schedule.ready
    generalize μ.vm.schedule.ready = xs at hready
    generalize μ'.vm.schedule.ready = ys at hready
    induction hready with
    | nil => rfl
    | cons hx _ ih => rw [List.map_cons, List.map_cons, hx.1, ih]
  waiting := h.schedule.waiting

theorem Beside.exists_idle {μ μ' : Moment σ} (h : Beside host same room room' ρ μ μ') :
    μ = .idle μ.vm μ.log ∧ μ' = .idle μ'.vm μ'.log := by
  obtain ⟨vm, turn, log⟩ := μ
  obtain ⟨vm', turn', log'⟩ := μ'
  obtain rfl : turn = none := h.idle
  obtain rfl : turn' = none := h.idle'
  exact ⟨rfl, rfl⟩

/-- Machines whose tasks run side by side are bisimilar. -/
theorem bisimulation_beside {loads : Module → Module → Prop}
    (hloads : ∀ m m', loads m m' → m.Twins host same room room' m') :
    Bisimulation host same loads (Beside host same room room') where
  seen := Beside.seen
  surroundings {ρ τ μ μ' world world' globals globals'} h hle hworld hglobals := by
    obtain ⟨heq, heq'⟩ := h.exists_idle
    have hreached := h.reached
    have hreached' := h.reached'
    rw [heq] at hreached
    rw [heq'] at hreached'
    exact { h with
      reached := hreached.leads (.single (.surroundings trivial))
      reached' := hreached'.leads (.single (.surroundings trivial))
      idle := rfl
      idle' := rfl
      world := hworld
      globals := hglobals
      log := h.log.mono hle
      schedule := h.schedule.mono hle }
  spawn {ρ μ μ' m m' args args'} name h hm hargs := by
    obtain ⟨heq, heq'⟩ := h.exists_idle
    obtain ⟨vm, log, rfl⟩ : ∃ vm log, μ = .idle vm log := ⟨_, _, heq⟩
    obtain ⟨vm', log', rfl⟩ : ∃ vm' log', μ' = .idle vm' log' := ⟨_, _, heq'⟩
    have hindex (m : Module) : m.functions.findIdx? (·.name == name) =
        (m.functions.map Function.name).findIdx? (· == name) := by
      rw [List.findIdx?_map]
      rfl
    have hnames := (hloads m m' hm).names
    cases hfound : m.functions.findIdx? (·.name == name) with
    | none =>
      have hfound' : m'.functions.findIdx? (·.name == name) = none := by
        rw [hindex, ← hnames, ← hindex, hfound]
      exact .inl ⟨_, spawn_not_found hfound args vm, spawn_not_found hfound' args' vm'⟩
    | some index =>
      have hfound' : m'.functions.findIdx? (·.name == name) = some index := by
        rw [hindex, ← hnames, ← hindex, hfound]
      obtain ⟨c, hunit, hc, hcargs, hdone⟩ := spawn_found hfound args vm
      obtain ⟨c', hunit', hc', hcargs', hdone'⟩ := spawn_found hfound' args' vm'
      have htwin := (hloads m m' hm).calls (ρ := ρ) hunit hunit' (hc.trans hc'.symm) (by rwa [hcargs, hcargs'])
      have hnext : vm.nextTask = vm'.nextTask := h.next
      refine .inr ⟨_, _, _, hdone, by rw [hnext]; exact hdone', ?_⟩
      refine { h with
        reached := h.reached.leads (.single (.spawn trivial (fun _ _ => trivial) hdone))
        reached' := h.reached'.leads (.single (.spawn trivial (fun _ _ => trivial) hdone'))
        stats := ?_
        next := congrArg (· + 1) hnext
        schedule := h.spawned htwin }
      have hstats : vm.stats.events = vm'.stats.events := h.stats
      show VmStats.events { vm.stats with tasksSpawned := _ } = VmStats.events { vm'.stats with tasksSpawned := _ }
      simp only [VmStats.events, VmStats.mk.injEq] at hstats ⊢
      simp [hstats]
  prepare {ρ μ μ' id t t' mode mode'} h hget hget' hkind hmode := by
    obtain ⟨heq, heq'⟩ := h.exists_idle
    rw [heq, heq'] at h
    exact h.prepare hget hget' hkind hmode
  promote {ρ μ μ'} h := by
    obtain ⟨heq, heq'⟩ := h.exists_idle
    have hreached := h.reached
    have hreached' := h.reached'
    rw [heq] at hreached
    rw [heq'] at hreached'
    obtain ⟨hcount, hschedule⟩ := h.schedule.promote h.world.heap
    exact ⟨hcount, { h with
      reached := hreached.leads (.single .promote)
      reached' := hreached'.leads (.single .promote)
      idle := rfl
      idle' := rfl
      schedule := hschedule }⟩
  turn {ρ μ μ'} h := by
    obtain ⟨heq, heq'⟩ := h.exists_idle
    obtain ⟨vm, log, rfl⟩ : ∃ vm log, μ = .idle vm log := ⟨_, _, heq⟩
    obtain ⟨vm', log', rfl⟩ : ∃ vm' log', μ' = .idle vm' log' := ⟨_, _, heq'⟩
    exact h.turn

/-- **Machines into which twins are loaded are bisimilar**, if nothing was defined on them yet. -/
theorem bisimilar_of_twins {loads : Module → Module → Prop}
    (hloads : ∀ m m', loads m m' → m.Twins host same room room' m') {world world' : World σ}
    (hworld : World.Renumbered same ρ world world') :
    Bisimilar host same loads ρ (.idle (Vm.create ⟨room, none⟩ world) []) (.idle (Vm.create ⟨room', none⟩ world') []) :=
  ⟨_, bisimulation_beside hloads,
    { reached := ⟨_, _, trivial, .refl⟩
      reached' := ⟨_, _, trivial, .refl⟩
      idle := rfl
      idle' := rfl
      options := rfl
      options' := rfl
      world := hworld
      globals := .nil
      log := .nil
      stats := rfl
      next := rfl
      schedule := ⟨fun _ => .none, .nil, rfl, fun _ hx => by cases hx⟩ }⟩

end Moment

end ResourceMachine
