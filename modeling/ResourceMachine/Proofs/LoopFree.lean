/-
# Tasks that always finish

A task of a function without `while` is done in finitely many steps, however often it is
suspended and with whatever it is resumed. For the session of its call follows an evaluation
that comes to its end (`Declaration.call_total`), so from where it is entered it goes on only
finitely long, each time that it stops with whatever reply it gets (`Call.Calls.finite`). And
where a task is in its session is seen in the machine.

Key definitions: `Session.Finite`, `Stage.Finite`, `Moment.Endless`.
Key theorems: `Session.Finite.of_widen`, `Call.Calls.finite`, `Moment.Endless.finishes`.
-/
import ResourceMachine.Proofs.Stages
import ResourceMachine.Proofs.SynchronousRun
import ResourceMachine.Proofs.Termination
import ResourceMachine.Proofs.Trial

namespace ResourceMachine

variable {σ : Type}

/-! ### Sessions that go on only finitely long -/

namespace Session

/-- How a session goes on: by an instruction, or by a reply if it has stopped. -/
inductive Next (host : Host σ) (code : Bytes) : Session σ → Session σ → Prop
  | step {s s' : Session σ} (done : s.step host code = some s') : Next host code s s'
  | resume {s : Session σ} {p : Suspension} {r : Reply σ} (stopped : s.control = .ended p.outcome)
      (onward : s.world.Onward r.world) : Next host code s (s.reply p r [])

/-- A session that goes on only finitely long, with whatever replies. -/
abbrev Finite (host : Host σ) (code : Bytes) : Session σ → Prop :=
  Acc fun s' s => Next host code s s'

variable {host : Host σ} {code : Bytes} {s s' : Session σ} {k : Nat}

/-- A session that has ended for good goes on no more. -/
theorem Finite.of_over {o : Outcome} (hs : s.control = .ended o) (ho : o.suspension? = none) :
    Finite host code s := by
  refine ⟨_, fun s' h => ?_⟩
  cases h with
  | step done => simp [Session.step, hs] at done
  | @resume p _ stopped =>
    cases hs.symm.trans stopped
    cases p <;> cases ho

theorem Finite.head (h : Finite host code s') (hstep : s.step host code = some s') :
    Finite host code s := by
  refine ⟨_, fun s'' hnext => ?_⟩
  cases hnext with
  | step done =>
    cases hstep.symm.trans done
    exact h
  | resume stopped => simp [Session.step, stopped] at hstep

/-- A session is finite if what it gets to is. -/
theorem Finite.of_steps (hrun : Steps host code k s s') (h : Finite host code s') :
    Finite host code s := by
  induction hrun with
  | refl => exact h
  | step head _ ih => exact (ih h).head head

theorem Finite.steps (h : Finite host code s) (hrun : Steps host code k s s') :
    Finite host code s' := by
  induction hrun with
  | refl => exact h
  | step head _ ih => exact ih (h.inv (.step head))

/-- With more room a session goes on at least as long. -/
theorem Next.widen {c : Nat} (h : Next host code s s') (hc : s.frame.stack.capacity ≤ c) :
    s'.frame.stack.capacity = s.frame.stack.capacity ∧
      (Next host code (s.widen c) (s'.widen c) ∨ s'.Overflowed) := by
  cases h with
  | step done =>
    refine ⟨Frame.setup_capacity (setup_step done), ?_⟩
    rcases step_widen hc done with hwide | ⟨hover, -⟩
    · exact .inl (.step hwide)
    · exact .inr hover
  | @resume p r stopped onward =>
    refine ⟨Frame.setup_capacity (setup_reply p r []), ?_⟩
    rcases reply_widen hc p r [] with hover | hwide
    · exact .inr hover
    · rw [← hwide]
      exact .inl (.resume stopped onward)

theorem Finite.of_widen {c : Nat} (h : Finite host code (s.widen c))
    (hc : s.frame.stack.capacity ≤ c) : Finite host code s := by
  generalize hw : s.widen c = w at h
  induction h generalizing s with
  | intro w _ ih =>
    subst hw
    refine ⟨_, fun s' hnext => ?_⟩
    obtain ⟨hcapacity, hwide | hover⟩ := hnext.widen hc
    · exact ih _ hwide (by rwa [hcapacity]) rfl
    · exact Finite.of_over hover rfl

end Session

/-! ### Calls -/

/-- A call that is at its end has not stopped. -/
theorem Declaration.run_over {d : Declaration} {host : Host σ} {n : Nat} {args : List Value} {S T : CallState σ}
    {x : Except Value Value} (h : d.call host n args S = Eval.over x T) :
    ∃ o, o.suspension? = none ∧ d.run host n args S = (some o, T) := by
  unfold run
  rw [h]
  cases x with
  | ok v => exact ⟨_, rfl, rfl⟩
  | error e => cases e <;> exact ⟨_, rfl, rfl⟩

theorem Declaration.run_suspended {d : Declaration} {host : Host σ} {n : Nat} {args : List Value}
    {S T : CallState σ} {p : Suspension} (h : d.call host n args S = .error (.suspended p) T) :
    d.run host n args S = (some p.outcome, T) := by
  unfold run
  rw [h]

/-- A session that has stopped for want of a reply is finite if it is with any reply. -/
theorem Session.Finite.of_replies {host : Host σ} {code : Bytes} {s s₁ : Session σ} {p : Suspension} {k pc : Nat}
    (hrun : Steps host code k s s₁) (hs : s.control = .running pc) (hstopped : s₁.control = .ended p.outcome)
    (hnil : s₁.script = [])
    (hreplies : ∀ r : Reply σ, s₁.world.Onward r.world → Finite host code (s.supply r)) :
    Finite host code s := by
  refine Finite.of_steps hrun ⟨_, fun s' hnext => ?_⟩
  cases hnext with
  | step done => simp [Session.step, hstopped] at done
  | @resume p' r stopped onward =>
    have hp : p'.outcome.suspension? = some p' := by cases p' <;> rfl
    have hsupply : s₁.supply r = s₁.reply p' r [] := by simp only [supply, stopped, hp, hnil]
    rw [← hsupply]
    exact (hreplies r onward).steps (hrun.supply hs)

variable {c : Call} {d : Declaration}

/-- **The call of a function without `while` goes on only finitely long**, whatever it is
resumed with. -/
theorem Call.Calls.finite (hd : c.Calls d) {host : Host σ} (hhost : host.Onward)
    (hfree : Stmt.allLoopFree d.body = true) (capacity : Nat) (world : World σ) (globals : Globals) :
    Session.Finite host c.function.code (.start (c.first capacity) world globals []) := by
  let room := max capacity c.function.maxStack
  have hroom : c.function.maxStack ≤ room := Nat.le_max_right _ _
  refine Session.Finite.of_widen (c := room) ?_ (Nat.le_max_left _ _)
  let s (script : List (Reply σ)) : Session σ := .start (c.first room) world globals script
  have hentered := hd.entered host hroom world globals
  -- with any script that the evaluation has used up so far
  have hscripts : ∀ {Q : CallState σ → Prop} {F}, Finishes Q F → ∀ script,
      (F = fun more n => d.call host n c.args (.initial world globals (script ++ more))) →
      Session.Finite host c.function.code (s script) := by
    intro Q F hF
    induction hF with
    | ends fuel x T _ here =>
      rintro script rfl
      have hcall := here fuel (Nat.le_refl fuel) []
      simp only [List.append_nil] at hcall
      obtain ⟨o, ho, hresult⟩ := Declaration.run_over hcall
      obtain ⟨k, s', hrun, hends⟩ := (hentered script).follows fuel
      rw [show d.run (hd.setting host room hroom).host fuel c.args _ = _ from hresult] at hends
      obtain ⟨spot, rfl, -⟩ := hends
      exact .of_steps hrun (.of_over rfl ho)
    | asks fuel p T waits here _ ih =>
      rintro script rfl
      have hcall := here fuel (Nat.le_refl fuel)
      simp only [List.append_nil] at hcall
      have hresult := Declaration.run_suspended hcall
      obtain ⟨k, s', hrun, hends⟩ := (hentered script).follows fuel
      rw [show d.run (hd.setting host room hroom).host fuel c.args _ = _ from hresult] at hends
      obtain ⟨spot, rfl, -⟩ := hends
      refine .of_replies hrun rfl rfl waits fun r hr => ih r hr (script ++ [r]) ?_
      simp only [List.append_assoc, List.singleton_append]
  have htotal := Declaration.call_total hhost hfree c.args (.initial world globals [])
  exact hscripts htotal [] rfl

/-! ### Tasks -/

/-- A task that goes on only finitely long. -/
abbrev Stage.Finite (host : Host σ) (capacity : Nat) (c : Call) : Stage σ → Prop :=
  Acc fun x' x => Stage.Next host capacity c x x'

namespace Stage

variable {host : Host σ} {capacity : Nat}

theorem finite_gone : Finite host capacity c .gone := ⟨_, fun _ h => by cases h⟩

theorem finite_live {s : Session σ} (h : Session.Finite host c.function.code s) :
    Finite host capacity c (.live s) := by
  induction h with
  | intro s _ ih =>
    refine ⟨_, fun x' hnext => ?_⟩
    cases hnext with
    | step done => exact ih _ (.step done)
    | resume stopped onward => exact ih _ (.resume stopped onward)
    | exhausted => exact finite_gone

theorem finite_created (hd : c.Calls d) (hhost : host.Onward) (hfree : Stmt.allLoopFree d.body = true) :
    Finite host capacity c .created := by
  refine ⟨_, fun x' hnext => ?_⟩
  cases hnext with
  | start => exact finite_live (hd.finite hhost hfree _ _ _)
  | closed => exact finite_gone

end Stage

namespace Moment

variable {Ω : Surroundings σ} {run : Nat → Moment σ} {vm vm' : Vm σ} {log : List (TaskId × Event)}
  {id : TaskId}

/-- A machine at work for ever, while the host winds no iterator back. -/
structure Endless (Ω : Surroundings σ) (run : Nat → Moment σ) : Prop where
  step : ∀ n, Step Ω (run n) (run (n + 1))
  host : Ω.host.Onward
  world : ∀ n, (run n).turn = none → (run n).vm.world.Onward (run (n + 1)).vm.world

theorem Endless.reached (h : Endless Ω run) (hstart : Reached Ω (run 0)) : ∀ n, Reached Ω (run n)
  | 0 => hstart
  | n + 1 => (h.reached hstart n).leads (.single (h.step n))

/-- A task that goes on only finitely long has its turn only finitely long. -/
theorem Endless.away {capacity : Nat} {x : Stage σ} {n : Nat} (h : Endless Ω run) (hstart : Reached Ω (run 0))
    (hx : x.Finite Ω.host capacity c) (hbears : Bears capacity c id x (run n)) :
    ∃ N, ∀ m, N ≤ m → Away id (run m) := by
  induction hx generalizing n with
  | intro x _ ih =>
    have hstep : ∀ m, Bears capacity c id x (run m) → _ := fun m hm =>
      hm.step (h.reached hstart m).sane (h.step m) ((h.step m).onward h.host (h.world m))
    by_cases hmoves : ∃ m x', Stage.Next Ω.host capacity c x x' ∧ Bears capacity c id x' (run m)
    · obtain ⟨m, x', hnext, hbears'⟩ := hmoves
      exact ih x' hnext hbears'
    · -- the task stays where it is, and so it has no turn
      have hstays : ∀ i, Bears capacity c id x (run (n + i)) ∧ Away id (run (n + i + 1)) := by
        intro i
        have hgo : ∀ m, Bears capacity c id x (run m) →
            Away id (run (m + 1)) ∧ Bears capacity c id x (run (m + 1)) := fun m hm => by
          rcases hstep m hm with hstay | ⟨x', hnext, hbears'⟩
          · exact hstay
          · exact absurd ⟨m + 1, x', hnext, hbears'⟩ hmoves
        induction i with
        | zero => exact ⟨hbears, (hgo n hbears).1⟩
        | succ i ih =>
          have hlater := (hgo (n + i) ih.1).2
          exact ⟨hlater, (hgo (n + i + 1) hlater).1⟩
      refine ⟨n + 1, fun m hm => ?_⟩
      obtain ⟨i, rfl⟩ := Nat.exists_eq_add_of_le hm
      rw [Nat.add_right_comm]
      exact (hstays i).2

/-- **A task of a function without `while` always finishes.** However long a machine is at
work, with whatever the task and others are resumed, and however promises settle: only
finitely many instructions are executed for the task and it gets only finitely many turns,
since from some moment on it never has a turn again. -/
theorem Endless.finishes {m : Module} {name : String} {ds : List Declaration} {args : List Value}
    (h : Endless Ω run) (hreached : Reached Ω (idle vm log)) (hcompile : Module.compile name ds = .ok m)
    (hnodes : Declaration.nodesAll ds < 2147483648) (hd : d ∈ ds) (hfree : Stmt.allLoopFree d.body = true)
    (hloaded : Ω.loaded m) (hargs : ∀ v ∈ args, Ω.supplies v)
    (hspawn : Vm.spawn m d.name args vm = .ok id vm') (hstart : run 0 = idle vm' log) :
    ∃ N, ∀ n, N ≤ n → ∀ turn, (run n).turn = some turn → turn.id ≠ id := by
  obtain ⟨c, hunit, -, hname, hbears⟩ := Bears.of_spawn hreached.sane hspawn
  obtain ⟨hbuilt, -, hsize⟩ := Module.compile_built hcompile hnodes
  have hle := Declaration.nodes_le_nodesAll hd
  have hcalls : c.Calls d := hbuilt.calls (by omega) hd (by omega) hunit hname
  refine h.away (n := 0) ?_ (Stage.finite_created hcalls h.host hfree) (by rw [hstart]; exact hbears)
  rw [hstart]
  exact hreached.leads (.single (.spawn hloaded hargs hspawn))

/-! ### Machines that are left alone -/

/-- Where the host does nothing, something happens next nevertheless. -/
theorem Reached.next_step {μ : Moment σ} (h : Reached Ω μ) : Step Ω μ (next Ω.host μ) := by
  obtain ⟨vm, turn, log⟩ := μ
  match turn with
  | some ⟨id, code, .running pc a⟩ =>
    simp only [next]
    split
    · exact .exhaust ‹_›
    · exact .instruct ‹_›
  | some ⟨id, code, .halted o a⟩ => exact .record
  | none =>
    cases hpop : vm.schedule.popReady with
    | none =>
      simp only [next, hpop]
      exact .promote
    | some first =>
      obtain ⟨⟨id, mode⟩, schedule⟩ := first
      obtain ⟨t, f, hget, hfunction⟩ : ∃ t f, schedule.get? id = some t ∧ t.frame.function? = some f := by
        obtain ⟨options, globals, ⟨tasks, ready, waiting⟩, stats, nextTask, world⟩ := vm
        cases ready with
        | nil => cases hpop
        | cons entry rest =>
          cases hpop
          obtain ⟨t, c, hget, -, htakes⟩ := h.sane.due (id, mode) List.mem_cons_self
          have hsetup := htakes.setup
          refine ⟨t, c.function, hget, ?_⟩
          rw [Frame.function?, show t.frame.unit = c.unit from congrArg Prod.fst hsetup,
            show t.frame.functionIndex = c.index from congrArg (fun x => x.2.1) hsetup]
          exact c.found
      simp only [next, hpop, hget, hfunction]
      exact .begin hpop hget hfunction

theorem run_succ (host : Host σ) : ∀ (n : Nat) (μ : Moment σ),
    Moment.run host (n + 1) μ = next host (Moment.run host n μ)
  | 0, _ => rfl
  | n + 1, μ => run_succ host n (next host μ)

/-- What a machine does that is left alone has no end. -/
theorem Endless.of_run (hhost : Ω.host.Onward) {μ : Moment σ} (h : Reached Ω μ) :
    Endless Ω fun n => Moment.run Ω.host n μ where
  host := hhost
  step n := by
    rw [run_succ]
    exact (h.leads (run_leads n μ)).next_step
  world n hturn := by
    simp only [run_succ]
    generalize Moment.run Ω.host n μ = ν at hturn
    obtain ⟨vm, turn, log⟩ := ν
    obtain rfl : turn = none := hturn
    simp only [next]
    split
    · exact .refl _
    · split
      · exact .refl _
      · split <;> exact .refl _

/-- A function that waits for whatever it is given. -/
def waitingForAll : Declaration :=
  ⟨"f", .async, ["xs"], [.forOf none "x" none (.binding "xs") [.expr (.await (.binding "x"))]]⟩

theorem Endless.finishes_waitingForAll : ∃ m vm', Module.compile "m" [waitingForAll] = .ok m ∧
    Declaration.nodesAll [waitingForAll] < 2147483648 ∧ waitingForAll ∈ [waitingForAll] ∧
    Stmt.allLoopFree waitingForAll.body = true ∧
    Vm.spawn m "f" [.list 0 [.int 1, .int 2]] (Vm.create .standard ⟨.empty, ()⟩) = .ok ⟨0⟩ vm' ∧
    ∃ host : Host Unit, host.Onward ∧ Endless (.any host) (fun n => Moment.run host n (idle vm' [])) ∧
      ∃ N, ∀ n, N ≤ n → ∀ turn, (Moment.run host n (idle vm' [])).turn = some turn → turn.id ≠ ⟨0⟩ := by
  let vm : Vm Unit := .create .standard ⟨.empty, ()⟩
  let spawned (m : Module) : Bool :=
    match Vm.spawn m "f" [.list 0 [.int 1, .int 2]] vm with
    | .ok id _ => id.number == 0
    | .error _ _ => false
  have hcompile : (Module.compile "m" [waitingForAll]).toOption.any spawned = true := by
    decide +kernel
  obtain ⟨m, hm, hspawned⟩ := (Option.any_eq_true _ _).mp hcompile
  have hm : Module.compile "m" [waitingForAll] = .ok m := by
    cases h : Module.compile "m" [waitingForAll] <;> rw [h] at hm <;> cases hm
    rfl
  have hnodes : Declaration.nodesAll [waitingForAll] < 2147483648 := by decide
  let host : Host Unit := fun _ _ _ => pure .undefined
  have hhost : host.Onward := fun _ _ _ _ => .refl _
  have hreached : Reached (.any host) (idle vm []) := ⟨_, _, trivial, .refl⟩
  obtain ⟨vm', hspawn⟩ : ∃ vm', Vm.spawn m "f" [.list 0 [.int 1, .int 2]] vm = .ok ⟨0⟩ vm' := by
    simp only [spawned] at hspawned
    split at hspawned
    · rename_i id vm' h
      rw [h, ← show id = ⟨0⟩ from congrArg TaskId.mk (beq_iff_eq.mp hspawned)]
      exact ⟨vm', rfl⟩
    · cases hspawned
  have hrun := Endless.of_run (Ω := .any host) hhost
    (hreached.leads (.single (.spawn trivial (fun _ _ => trivial) hspawn)))
  exact ⟨m, vm', hm, hnodes, List.mem_cons_self, rfl, hspawn, host, hhost, hrun,
    hrun.finishes hreached hm hnodes List.mem_cons_self rfl trivial (fun _ _ => trivial) hspawn rfl⟩

end Moment
end ResourceMachine
