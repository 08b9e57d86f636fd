/-
# Suspended calls

A call that was suspended has said last what it waits for: only `AWAIT` and `YIELD` suspend,
and neither an exception that nothing handles nor a reply does. So a task that can be
resumed was never started, or has a part in events that end with its suspension.

Key definitions: `Session.Tells`.
Key theorems: `Activation.events_of_suspended`, `Lives.suspended`, `Takes.history`.
-/
import ResourceMachine.Proofs.StackEffect
import ResourceMachine.Proofs.TaskLife

namespace ResourceMachine

variable {σ : Type}

/-! ### Instructions -/

namespace Activation

variable {env : Env σ} {code : Bytes} {pc : Nat} {a a' : Activation σ} {o : Outcome} {p : Suspension}

theorem slots_of_popToRval {v : Value} (h : (Exec.popToRval : Exec σ Value) a = .ok v a') :
    ∃ rest, a.frame.stack.slots = v :: rest := by
  obtain ⟨⟨unit, index, ip, ⟨slots, capacity⟩, locals, rval, handlers, scopes⟩, world⟩ := a
  cases slots with
  | nil => cases h
  | cons w rest =>
    cases h
    exact ⟨rest, rfl⟩

/-- The last thing that a call does before it is suspended is to say what it waits for. -/
theorem events_of_suspended (h : a.step env code pc = .halted o a') (ho : o.suspension? = some p) :
    a.events env code pc = [.suspend p] := by
  unfold step at h
  cases hop : Instr.opcodeAt code pc with
  | error e =>
    rw [hop] at h
    cases h
    cases ho
  | ok op =>
    cases hoperands : Instr.ofOperandsAt code (pc + 1) op with
    | error e =>
      simp only [hop, hoperands] at h
      cases h
      cases ho
    | ok i =>
      simp only [hop, hoperands, perform] at h
      have hread : Instr.readAt code pc = .ok i := by simp [Instr.readAt, hop, hoperands, bind, Except.bind]
      have hkeeps := @Exec.instr_shifts σ env code.size (pc + i.size) a.frame.stack.slots.length
        a.frame.handlers i a rfl rfl
      unfold events raised
      rw [hread]
      cases hexec : Exec.instr env code.size (pc + i.size) i a with
      | error e a₁ =>
        simp only [hexec] at h
        cases h
        cases ho
      | ok next a₁ =>
        simp only [hexec] at h hkeeps ⊢
        cases next with
        | goto pc' => cases h
        | throw e =>
          simp only [follow, throw] at h
          split at h
          · cases h
          · rename_i outcome frame hunwind
            cases h
            cases ho.symm.trans (Frame.isEscape_unwindThrough (congrArg Prod.fst hunwind)).suspension?
        | ret v =>
          cases h
          cases ho
        | await v =>
          obtain ⟨-, -, rfl⟩ := hkeeps
          cases h
          cases ho
          obtain ⟨w, a₂, hpop, hw⟩ := bind_eq_ok.mp hexec
          cases hw
          obtain ⟨rest, hslots⟩ := slots_of_popToRval hpop
          rw [eventsOf_await, hslots]
          rfl
        | yield v =>
          obtain ⟨-, -, rfl⟩ := hkeeps
          cases h
          cases ho
          obtain ⟨w, a₂, hpop, hw⟩ := bind_eq_ok.mp hexec
          cases hw
          obtain ⟨rest, hslots⟩ := slots_of_popToRval hpop
          rw [eventsOf_yield, hslots]
          rfl

theorem resume_not_mem_eventsOf (x : Answer) (i : Instr) : .resume x ∉ a.eventsOf env code pc i := by
  cases i
  case call => rw [eventsOf_call]; split <;> simp
  case iterNext => rw [eventsOf_iterNext]; split <;> simp
  case iterClose => rw [eventsOf_iterClose]; split <;> simp
  case addDisposable =>
    rw [eventsOf_addDisposable]
    split
    · split <;> simp
    · simp
  case popDisposeScope => rw [eventsOf_popDisposeScope]; split <;> simp
  case await => rw [eventsOf_await]; split <;> simp
  case yield => rw [eventsOf_yield]; split <;> simp
  case setRval =>
    rw [eventsOf_setRval]
    split
    · split <;> simp
    · simp
  all_goals exact List.not_mem_nil

/-- An instruction resumes nothing. -/
theorem resume_not_mem_events (x : Answer) : .resume x ∉ a.events env code pc := by
  unfold events
  split
  · rename_i i _
    rw [List.mem_append, not_or]
    refine ⟨resume_not_mem_eventsOf x i, ?_⟩
    unfold raised
    split
    · split <;> simp
    · simp
  · simp

end Activation

/-! ### Sessions -/

namespace Session

variable {host : Host σ} {code : Bytes} {k : Nat} {s s' : Session σ}

/-- The last thing in the trace of a session that stopped to be resumed is what it waits
for. -/
def Tells (s : Session σ) : Prop := ∀ o p, s.control = .ended o → o.suspension? = some p →
  ∃ es, s.trace = es ++ [.suspend p]

theorem tells_of_running {p : Nat} (h : s.control = .running p) : s.Tells := by
  intro o p ho
  rw [h] at ho
  cases ho

theorem tells_reply (p : Suspension) (r : Reply σ) (rest : List (Reply σ)) :
    (s.reply p r rest).Tells := by
  unfold reply
  match hroute : s.frame.resume (p.accept r.answer).mode with
  | (.goto pc, frame) =>
    refine tells_of_running (p := pc) ?_
    simp only [hroute, route]
  | (.escaped outcome, frame) =>
    intro o q ho hq
    have hnone : outcome.suspension? = none := (Frame.isEscape_resume (congrArg Prod.fst hroute)).suspension?
    simp only [hroute, route] at ho
    cases ho
    cases hq.symm.trans hnone

theorem tells_halt {o : Outcome}
    (h : ∀ p, o.suspension? = some p → ∃ es, s.trace = es ++ [.suspend p]) : (s.halt o).Tells := by
  match ho : o.suspension?, hscript : s.script with
  | some p, r :: rest =>
    simp only [halt, ho, hscript]
    exact tells_reply p r rest
  | none, _ | some _, [] =>
    simp only [halt, ho, hscript]
    rintro _ q ⟨⟩ hq
    exact h q hq

theorem tells_step (h : s.step host code = some s') : s'.Tells := by
  unfold step at h
  split at h
  · cases h
  · rename_i pc hcontrol
    obtain rfl := Option.some.inj h
    cases hstep : Activation.step ⟨host, s.globals⟩ code pc ⟨s.frame, s.world⟩ with
    | running pc' a => exact tells_of_running (p := pc') rfl
    | halted o a =>
      exact tells_halt fun p hp => ⟨s.trace, congrArg _ (Activation.events_of_suspended hstep hp)⟩

theorem Tells.steps (hs : s.Tells) (h : Steps host code k s s') : s'.Tells := by
  induction h with
  | refl => exact hs
  | step head _ ih => exact ih (tells_step head)

end Session

section

variable {Ω : Surroundings σ} {P : Resume → World σ → Globals → Prop} {capacity : Nat} {c : Call}

/-- What a suspended call waits for is the last thing that happened to it. -/
theorem Lives.suspended {s : Session σ} {o : Outcome} {p : Suspension} (h : Lives Ω P capacity c s)
    (hs : s.control = .ended o) (ho : o.suspension? = some p) :
    ∃ es, s.trace = es ++ [.suspend p] := by
  obtain ⟨k, world, globals, script, -, -, hrun, -⟩ := h
  have hstart : (Session.start (c.first capacity) world globals script).Tells :=
    Session.tells_of_running rfl
  exact hstart.steps hrun o p hs ho

/-- A task that can be resumed was not started, or is suspended. -/
theorem Takes.history {t : Task} {es : List Event} {mode : Resume}
    (h : Takes Ω P capacity c t es mode) :
    es = [] ∧ mode.events = [] ∨
      ∃ es' p a, es = es' ++ [.suspend p] ∧ mode.events = [.resume a] ∧ mode = a.mode := by
  cases h with
  | start => exact .inl ⟨rfl, rfl⟩
  | @awaited s v a lives ended =>
    obtain ⟨es', hes⟩ := lives.suspended ended rfl
    exact .inr ⟨es', _, a, hes, by cases a <;> rfl, rfl⟩
  | @yielded s v a lives ended =>
    obtain ⟨es', hes⟩ := lives.suspended ended rfl
    exact .inr ⟨es', _, a, hes, by cases a <;> rfl, rfl⟩

end

end ResourceMachine
