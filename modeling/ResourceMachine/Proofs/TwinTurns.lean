/-
# Turns and sessions

A turn of a task is a stretch of a session: it begins where the last reply has routed the call
to, makes its progress instruction by instruction, and is over where the session has stopped.
So what is known of the sessions of two calls that run side by side is known of their turns.

Key definitions: `Session.progress`, `Moment.Under`, `Moment.Turned`, `Task.Resumes`.
Key theorems: `Steps.under`, `Task.Resumes.under`, `Task.Resumes.turned`.
-/
import ResourceMachine.Proofs.Solitude
import ResourceMachine.Proofs.TwinSessions

namespace ResourceMachine

variable {σ : Type} {host : Host σ} {code : Bytes}

/-! ### Turns -/

namespace Moment

/-- A turn is under way that began at this moment. -/
inductive Under (host : Host σ) (μ : Moment σ) : Moment σ → Prop
  | begin {ν : Moment σ} (idle : μ.turn = none) (first : Step (.handsOff host) μ ν) (turn : ν.turn.isSome) :
      Under host μ ν
  | goOn {ν ν' : Moment σ} (earlier : Under host μ ν) (step : Step (.handsOff host) ν ν') (turn : ν'.turn.isSome) :
      Under host μ ν'

/-- The turn that began at one moment is over at the other. -/
def Turned (host : Host σ) (μ ν : Moment σ) : Prop :=
  ∃ ν₀, Under host μ ν₀ ∧ Step (.handsOff host) ν₀ ν ∧ ν.turn = none

theorem Under.leads {μ ν : Moment σ} (h : Under host μ ν) : Leads (.handsOff host) μ ν := by
  induction h with
  | begin _ first => exact .single first
  | goOn _ step _ ih => exact ih.tail step

theorem Turned.leads {μ ν : Moment σ} (h : Turned host μ ν) : Leads (.handsOff host) μ ν := by
  obtain ⟨ν₀, hunder, hstep, -⟩ := h
  exact hunder.leads.tail hstep

end Moment

/-! ### Sessions -/

namespace Session

/-- Where the run of a session stands. -/
def progress (s : Session σ) : Progress σ :=
  match s.control with
  | .running pc => .running pc ⟨s.frame, s.world⟩
  | .ended o => .halted o ⟨s.frame, s.world⟩

theorem progress_route (s : Session σ) (r : Route × Frame) :
    (s.route r).progress = Activation.routed ⟨s.frame, s.world⟩ r := by
  obtain ⟨_ | _, _⟩ := r <;> rfl

/-- A session that has used up its replies. -/
structure Bare (s : Session σ) (globals : Globals) : Prop where
  script : s.script = []
  globals : s.globals = globals

/-- Where there are no more replies, a session makes the progress of its run. -/
theorem progress_proceed {s : Session σ} {globals : Globals} (h : s.Bare globals) (p : Progress σ) :
    (s.proceed p).progress = p ∧ (s.proceed p).Bare globals ∧ (s.proceed p).trace = s.trace := by
  obtain ⟨control, frame, world, globals', script, trace⟩ := s
  obtain ⟨hscript, hglobals⟩ := h
  cases hscript
  cases p with
  | running pc a => exact ⟨rfl, ⟨rfl, hglobals⟩, rfl⟩
  | halted o a =>
    simp only [proceed, halt, update]
    cases o.suspension? <;> exact ⟨rfl, ⟨rfl, hglobals⟩, rfl⟩

/-- A session that gets its last reply has used up its replies. -/
theorem bare_reply (s : Session σ) (p : Suspension) (r : Reply σ) : (s.reply p r []).Bare r.globals := by
  unfold reply
  simp only
  obtain ⟨_ | _, _⟩ := s.frame.resume (p.accept r.answer).mode <;> exact ⟨rfl, rfl⟩

theorem reply_ended {s : Session σ} {p : Suspension} {r : Reply σ} {rest : List (Reply σ)} {o : Outcome}
    (h : (s.reply p r rest).control = .ended o) : o.suspension? = none := by
  unfold reply at h
  simp only at h
  cases hresume : s.frame.resume (p.accept r.answer).mode with
  | mk route f =>
    rw [hresume] at h
    cases route with
    | goto pc => cases h
    | escaped o' =>
      cases h
      exact (Frame.isEscape_resume (by rw [hresume])).suspension?

/-- A session that has stopped has used up its replies. -/
theorem halt_script {s : Session σ} {o o' : Outcome} (h : (s.halt o).control = .ended o')
    (ho : o'.suspension?.isSome) : (s.halt o).script = [] := by
  unfold halt at h ⊢
  cases hp : o.suspension? with
  | none =>
    simp only [hp] at h
    cases h
    rw [hp] at ho
    cases ho
  | some p =>
    cases hscript : s.script with
    | nil => simp only
    | cons r rest =>
      simp only [hp, hscript] at h
      rw [reply_ended h] at ho
      cases ho

end Session

/-- A session that has stopped has used up its replies. -/
theorem Steps.script_nil {k : Nat} {s s' : Session σ} {o : Outcome} (h : Steps host code k s s')
    (hs : s'.control = .ended o) (ho : o.suspension?.isSome) (hrunning : ∃ pc, s.control = .running pc) :
    s'.script = [] := by
  induction h with
  | refl =>
    obtain ⟨pc, hpc⟩ := hrunning
    rw [hpc] at hs
    cases hs
  | @step k s s₁ s' head tail ih =>
    cases hcontrol : s₁.control with
    | running pc => exact ih hs ⟨pc, hcontrol⟩
    | ended o' =>
      obtain ⟨rfl, rfl⟩ := tail.of_ended hcontrol
      obtain ⟨pc, hpc⟩ := hrunning
      unfold Session.step at head
      rw [hpc] at head
      rw [← Option.some.inj head] at hs ⊢
      generalize Activation.step _ code pc _ = p at hs
      cases p with
      | running pc' a => cases hs
      | halted o₁ a => exact Session.halt_script hs ho

/-- A turn makes the progress of a session. -/
theorem Steps.under {k : Nat} {s s' : Session σ} (h : Steps host code k s s') (vm : Vm σ) {id : TaskId}
    {log : List (TaskId × Event)} {μ : Moment σ} (hs : s.Bare vm.globals) (hbudget : vm.options.stepBudget = none)
    (hunder : Moment.Under host μ ⟨vm, some ⟨id, code, s.progress⟩, log⟩) :
    ∃ es, s'.trace = s.trace ++ es ∧ s'.Bare vm.globals ∧ Moment.Under host μ
      ⟨{ vm with stats := { vm.stats with steps := vm.stats.steps + k } }, some ⟨id, code, s'.progress⟩,
        log ++ id.events es⟩ := by
  induction h generalizing vm log with
  | refl => exact ⟨[], (List.append_nil _).symm, hs, by simpa [TaskId.events] using hunder⟩
  | @step k s s₁ s' head tail ih =>
    unfold Session.step at head
    split at head
    · cases head
    · rename_i pc hpc
      have hsame := Option.some.inj head
      let es := Activation.events ⟨host, s.globals⟩ code pc ⟨s.frame, s.world⟩
      have hbare : ({ s with trace := s.trace ++ es } : Session σ).Bare vm.globals := ⟨hs.script, hs.globals⟩
      obtain ⟨hprogress, hbare₁, htrace⟩ := Session.progress_proceed hbare
        (Activation.step ⟨host, s.globals⟩ code pc ⟨s.frame, s.world⟩)
      rw [hsame] at hprogress hbare₁ htrace
      have hrunning : s.progress = .running pc ⟨s.frame, s.world⟩ := by rw [Session.progress, hpc]
      rw [hrunning] at hunder
      have hstep : Moment.Step (.handsOff host) ⟨vm, some ⟨id, code, .running pc ⟨s.frame, s.world⟩⟩, log⟩
          ⟨vm.tally, some ⟨id, code, s₁.progress⟩, log ++ id.events es⟩ := by
        have haffordable : Activation.exhausted? vm.options.stepBudget vm.stats.steps = none := by
          rw [hbudget]
          rfl
        unfold es
        rw [hprogress, hs.globals]
        exact .instruct haffordable
      obtain ⟨es', htrace', hbare', hunder'⟩ := ih vm.tally hbare₁ hbudget (.goOn hunder hstep rfl)
      refine ⟨es ++ es', by rw [htrace', htrace, List.append_assoc], hbare', ?_⟩
      have hsteps : vm.tally.stats.steps + k = vm.stats.steps + (k + 1) := by
        show vm.stats.steps + 1 + k = _
        omega
      rw [hsteps] at hunder'
      have hevents : log ++ id.events (es ++ es') = log ++ id.events es ++ id.events es' := by
        simp [TaskId.events]
      rw [hevents]
      exact hunder'

/-! ### Calls that go on -/

namespace Entry

variable {e : Entry σ} {script : List (Reply σ)} {s s₀ : Session σ} {o : Outcome} {n k : Nat}

/-- A call comes to its end on the way that it is on. -/
theorem Comes.onward (h : e.Comes host script s o) (hk : e.Gets host script k s₀) :
    ∃ j, Steps host e.call.function.code j s₀ s := by
  obtain ⟨hs, j, hj⟩ := h
  rcases Nat.le_total k j with hle | hle
  · exact ⟨_, hk.split hj hle⟩
  · obtain ⟨-, rfl⟩ := (hj.split hk hle).of_ended hs
    exact ⟨0, .refl _⟩

/-- A call that lasts goes on as it did. -/
theorem Lasts.onward (h : e.Lasts host (n + k) script s) (hk : e.Gets host script k s₀) :
    ∃ j, n ≤ j ∧ Steps host e.call.function.code j s₀ s := by
  obtain ⟨⟨j, hj, hgets⟩, -⟩ := h
  exact ⟨j - k, by omega, hk.split hgets (by omega)⟩

theorem session_running (e : Entry σ) (script : List (Reply σ)) : ∃ pc, (e.session script).control = .running pc :=
  ⟨_, rfl⟩

/-- A call that has stopped goes on with one more reply. -/
theorem Comes.reply {p : Suspension} (h : e.Comes host script s p.outcome) (r : Reply σ) :
    ∃ k, e.Gets host (script ++ [r]) k (s.reply p r []) := by
  obtain ⟨hs, k, hk⟩ := h
  have hp : p.outcome.suspension? = some p := by cases p <;> rfl
  have hscript : s.script = [] := hk.script_nil hs (by rw [hp]; rfl) (e.session_running script)
  have hsupply := hk.supply (r := r) (show (e.session script).control = .running _ from rfl)
  have hsame : s.supply r = s.reply p r [] := by
    simp only [Session.supply, hs, hp, hscript]
  exact ⟨k, hsame ▸ hsupply⟩

end Entry

/-! ### Tasks that have their turn -/

/-- A task that is resumed so goes on where the session of a call has got to. -/
structure Task.Resumes (host : Host σ) (t : Task) (mode : Resume) (world : World σ) (globals : Globals)
    (e : Entry σ) (script : List (Reply σ)) (s : Session σ) : Prop where
  gets : ∃ k, e.Gets host script k s
  bare : s.Bare globals
  progress : s.progress = Activation.routed ⟨t.frame, world⟩ (t.frame.resume mode)
  function : t.frame.function? = some e.call.function

namespace Task.Resumes

variable {t : Task} {mode : Resume} {e : Entry σ} {script : List (Reply σ)} {s₀ s : Session σ}
  {vm : Vm σ} {id : TaskId} {schedule : Schedule}

/-- What a machine is while a task has its turn. -/
def machine (vm : Vm σ) (schedule : Schedule) (id : TaskId) (k : Nat) : Vm σ :=
  { vm with
    schedule := schedule.update id fun t => { t with state := .running }
    stats := { vm.stats with steps := vm.stats.steps + k } }

/-- The turn of a task is a stretch of the session. -/
theorem under (h : t.Resumes host mode vm.world vm.globals e script s₀) (log : List (TaskId × Event))
    (hpop : vm.schedule.popReady = some ((id, mode), schedule)) (hget : schedule.get? id = some t)
    (hbudget : vm.options.stepBudget = none) {k : Nat} (hrun : Steps host e.call.function.code k s₀ s) :
    ∃ es, s.trace = s₀.trace ++ es ∧ s.Bare vm.globals ∧ Moment.Under host (.idle vm log)
      ⟨machine vm schedule id k, some ⟨id, e.call.function.code, s.progress⟩,
        log ++ id.events (mode.events ++ es)⟩ := by
  have hbegin : Moment.Step (.handsOff host) (.idle vm log)
      ⟨machine vm schedule id 0, some ⟨id, e.call.function.code, s₀.progress⟩, log ++ id.events mode.events⟩ := by
    rw [h.progress]
    exact .begin hpop hget h.function
  obtain ⟨es, htrace, hbare, hunder⟩ := hrun.under (machine vm schedule id 0) h.bare hbudget
    (.begin rfl hbegin rfl)
  have hsteps : (machine vm schedule id 0).stats.steps + k = vm.stats.steps + k := rfl
  rw [hsteps] at hunder
  refine ⟨es, htrace, hbare, ?_⟩
  have hevents : log ++ id.events (mode.events ++ es) = log ++ id.events mode.events ++ id.events es := by
    simp [TaskId.events]
  rw [hevents]
  exact hunder

/-- The turn of a task is over where the session has ended or stopped. -/
theorem turned (h : t.Resumes host mode vm.world vm.globals e script s₀) (log : List (TaskId × Event))
    (hpop : vm.schedule.popReady = some ((id, mode), schedule)) (hget : schedule.get? id = some t)
    (hbudget : vm.options.stepBudget = none) {o : Outcome} (hcomes : e.Comes host script s o) :
    ∃ k es, s.trace = s₀.trace ++ es ∧ s.Bare vm.globals ∧ Moment.Turned host (.idle vm log)
      (.idle (stateOf (Vm.record id o ((machine vm schedule id k).leave id ⟨s.frame, s.world⟩)))
        (log ++ id.events (mode.events ++ es))) := by
  obtain ⟨k₀, hk₀⟩ := h.gets
  obtain ⟨k, hrun⟩ := hcomes.onward hk₀
  obtain ⟨es, htrace, hbare, hunder⟩ := h.under log hpop hget hbudget hrun
  refine ⟨k, es, htrace, hbare, _, hunder, ?_, rfl⟩
  have hprogress : s.progress = .halted o ⟨s.frame, s.world⟩ := by
    unfold Session.progress
    rw [hcomes.1]
  rw [hprogress]
  exact .record

end Task.Resumes

end ResourceMachine
