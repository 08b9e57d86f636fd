/-
# Compiled code never faults

Whatever a host does with tasks of compiled functions, a turn fails only for want of
budget or for want of room, and for want of room only where there is less than some
function says it needs. No operation of the machine fails with another fault.

Key definitions: `Fault.Bearable`, `Moment.Fails`.
Key theorems: `Moment.Reached.bearable_turn`, `Moment.Reached.bearable`.
-/
import ResourceMachine.Host.Scripted
import ResourceMachine.Proofs.TaskEvaluation
import ResourceMachine.Proofs.Trial

namespace ResourceMachine

/-- What the turn of a task of a compiled function can fail with. -/
def Fault.Bearable {σ : Type} (f : Fault) (Ω : Surroundings σ) (options : VmOptions) : Prop :=
  (∃ b, options.stepBudget = some b ∧ f = .budgetExceeded b) ∨
    f = .stackOverflow ∧ ∃ m, Ω.loaded m ∧ ∃ g ∈ m.functions, options.stackCapacity < g.maxStack

namespace Moment

/-- A machine fails with a fault: a turn that is under way, or an operation of the host. -/
inductive Fails {σ : Type} (Ω : Surroundings σ) : Moment σ → Fault → Prop
  | turn {vm : Vm σ} {id : TaskId} {code : Bytes} {f : Fault} {a : Activation σ}
      {log : List (TaskId × Event)} : Fails Ω ⟨vm, some ⟨id, code, .halted (.failed f) a⟩, log⟩ f
  | runUntilIdle {vm vm' : Vm σ} {log : List (TaskId × Event)} {fuel : Nat} {f : Fault}
      (done : Vm.runUntilIdle Ω.host fuel vm = .error (.error (.fault f)) vm') : Fails Ω (idle vm log) f
  | resumeGenerator {vm vm' : Vm σ} {log : List (TaskId × Event)} {fuel : Nat} {f : Fault} {id : TaskId}
      {mode : Resume} (supplied : ∀ v, mode.value? = some v → Ω.supplies v)
      (done : Vm.resumeGenerator Ω.host fuel id mode vm = .error (.error (.fault f)) vm') :
      Fails Ω (idle vm log) f
  | run {vm vm' : Vm σ} {log : List (TaskId × Event)} {fuel : Nat} {f : Fault} {m : Module} {name : String}
      {args : List Value} (loaded : Ω.loaded m) (supplied : ∀ v ∈ args, Ω.supplies v)
      (done : Vm.run Ω.host fuel m name args vm = .error (.error (.fault f)) vm') : Fails Ω (idle vm log) f

variable {σ : Type} {Ω : Surroundings σ} {vm : Vm σ} {log : List (TaskId × Event)} {id : TaskId}
  {code : Bytes} {a : Activation σ} {f : Fault} {μ μ' : Moment σ}

/-- A turn fails for want of budget or of room only. -/
theorem Reached.bearable_turn (hloaded : ∀ m, Ω.loaded m → Compiles m)
    (h : Reached Ω ⟨vm, some ⟨id, code, .halted (.failed f) a⟩, log⟩) : f.Bearable Ω vm.options := by
  obtain ⟨-, t, c, -, hmakes, -, -, s, hlives, -, -, -, ⟨hs, -⟩ | ⟨_, b, -, hb, hf, -⟩⟩ := h.sane.turn _ rfl
  · obtain ⟨d, hd⟩ := (hloaded c.unit hmakes.loaded).calls
    obtain ⟨n, world, globals, script, -, -, hfollows⟩ := hlives.evaluation hd
    by_cases hf : f = .stackOverflow
    · refine .inr ⟨hf, c.unit, hmakes.loaded, c.function, List.mem_of_getElem? c.found, ?_⟩
      exact hfollows.overflow (by rw [hs, hf])
    · obtain ⟨hr, -⟩ := hfollows.ended _ hs fun heq => hf (Outcome.failed.inj heq)
      exact absurd hr (d.run_ne_failed _ _ _ _ _)
  · exact .inl ⟨b, hb, Outcome.failed.inj hf⟩

/-! ### Operations -/

/-- An operation that fails with a fault has got to a turn that failed so. -/
theorem Reached.bearable_gets {α : Type} {vm' : Vm σ} (hloaded : ∀ m, Ω.loaded m → Compiles m)
    (h : Reached Ω μ) (hgets : Gets Ω μ (.error (.error (.fault f)) vm' : EStateM.Result Stop (Vm σ) α)) :
    f.Bearable Ω μ.vm.options := by
  obtain ⟨vm₁, id, code, a, log', hleads, -⟩ := hgets
  have hturn := (h.leads hleads).bearable_turn hloaded
  rwa [← hleads.options_eq]

/-- **Compiled code never faults the machine.** Whatever has happened on a machine that
runs compiled functions, turns and operations fail for want of budget only, if there is a
budget, or for want of room, if there is less than a function says it needs. -/
theorem Reached.bearable (hloaded : ∀ m, Ω.loaded m → Compiles m) (h : Reached Ω μ)
    (hfails : Fails Ω μ f) : f.Bearable Ω μ.vm.options := by
  cases hfails with
  | turn => exact h.bearable_turn hloaded
  | runUntilIdle done => exact h.bearable_gets hloaded (done ▸ runUntilIdle_gets h)
  | resumeGenerator supplied done => exact h.bearable_gets hloaded (done ▸ resumeGenerator_gets h supplied)
  | run loaded supplied done => exact h.bearable_gets hloaded (done ▸ run_gets h loaded supplied)

/-- A function that waits for a value that is no promise. -/
def impatient : Declaration := ⟨"f", .async, [], [.expr (.await (.int 1))]⟩

/-- With a budget of two instructions, the function fails behind its `await`. -/
theorem Reached.bearable_impatient : ∃ Ω : Surroundings Console, ∃ μ f,
    (∀ m, Ω.loaded m ↔ Module.compile "m" [impatient] = .ok m) ∧ Reached Ω μ ∧ Fails Ω μ f ∧
    f.Bearable Ω μ.vm.options := by
  let Ω : Surroundings Console :=
    ⟨Console.call, fun m => Module.compile "m" [impatient] = .ok m, fun _ => True, fun _ _ => True⟩
  have htrial : (trial Ω.host ⟨8, some 2⟩ ⟨.empty, Console.empty⟩ [] [impatient] "f" [] [.run 6]).any
      (·.fault?.isSome) = true := by
    decide +kernel
  obtain ⟨μ, htrial, hμ⟩ := (Option.any_eq_true _ _).mp htrial
  obtain ⟨f, hfault⟩ := Option.isSome_iff_exists.mp hμ
  obtain ⟨id, code, a, hturn⟩ := turn_of_fault? hfault
  have hreached : Reached Ω μ := .of_trial trivial trivial (fun _ h => h) (by simp) (by simp) htrial
  have hloaded : ∀ m, Ω.loaded m → Compiles m := fun m hm => ⟨"m", [impatient], hm, by decide⟩
  obtain ⟨vm, turn, log⟩ := μ
  obtain rfl := hturn
  exact ⟨Ω, _, f, fun _ => .rfl, hreached, .turn, Reached.bearable hloaded hreached .turn⟩

end Moment
end ResourceMachine
