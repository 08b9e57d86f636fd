/-
# Tasks follow calls

What a task of a compiled function had a part in is a part of what happens in a call of
the function; and where the task stopped or ended, the call has stopped or ended just so
(`Lives.evaluation`). Of the faults of a machine, only an overflow can come out of such a
task, and that only where there is less room than the function says it needs.

Key definitions: `Call.Calls`, `Compiles`.
Key theorems: `Declaration.run_ne_failed`, `Lives.evaluation`.
-/
import ResourceMachine.Proofs.CallRun
import ResourceMachine.Proofs.Operations

namespace ResourceMachine

/-! ### Compiled modules -/

/-- A module that was compiled, from less syntax than a word can count. -/
def Compiles (m : Module) : Prop :=
  ∃ name ds, Module.compile name ds = .ok m ∧ Declaration.nodesAll ds < 2147483648

/-- A call of the function that a declaration was compiled to. -/
structure Call.Calls (c : Call) (d : Declaration) : Prop where
  few : c.unit.constants.size ≤ 4294967296
  laid : d.Laid (c.function.target c.unit.constants few)
  paramCount_eq : c.function.paramCount = d.params.length
  kind_eq : c.function.kind = d.kind
  nodes : d.nodes ≤ 2147483647

theorem exists_left_of_forall₂ {α β : Type} {R : α → β → Prop} {as : List α} {bs : List β} {b : β}
    (h : List.Forall₂ R as bs) (hb : b ∈ bs) : ∃ a ∈ as, R a b := by
  induction h with
  | nil => cases hb
  | @cons a b' _ _ hab _ ih =>
    rcases List.mem_cons.mp hb with rfl | hb
    · exact ⟨a, List.mem_cons_self, hab⟩
    · obtain ⟨a', ha', h⟩ := ih hb
      exact ⟨a', List.mem_cons_of_mem _ ha', h⟩

theorem Declaration.nodes_le_nodesAll {d : Declaration} : ∀ {ds : List Declaration}, d ∈ ds →
    d.nodes ≤ nodesAll ds
  | _ :: ds, h => by
    rw [nodesAll]
    rcases List.mem_cons.mp h with rfl | h
    · omega
    · have := nodes_le_nodesAll h
      omega

/-- Every function of a compiled module was compiled from a declaration. -/
theorem Compiles.calls {c : Call} (h : Compiles c.unit) : ∃ d, c.Calls d := by
  obtain ⟨name, ds, hcompile, hnodes⟩ := h
  obtain ⟨⟨-, hcompiled, -⟩, -, hsize⟩ := Module.compile_built hcompile hnodes
  obtain ⟨d, hd, hf⟩ := exists_left_of_forall₂ hcompiled (List.mem_of_getElem? c.found)
  have hle := Declaration.nodes_le_nodesAll hd
  have hsize : c.unit.constants.size ≤ 4294967296 := by omega
  exact ⟨d, hsize, hf.laid _ hsize (.refl _), hf.paramCount_eq, hf.kind_eq, by omega⟩

/-! ### Sessions of compiled functions -/

/-- A call ends, stops or runs out of fuel, but never faults. -/
theorem Declaration.run_ne_failed {σ : Type} (d : Declaration) (host : Host σ) (n : Nat) (args : List Value)
    (S : CallState σ) (f : Fault) : (d.run host n args S).1 ≠ some (.failed f) := by
  unfold run
  cases d.call host n args S with
  | ok v S' => nofun
  | error i S' =>
    cases i with
    | thrown e => cases e <;> nofun
    | suspended p => cases p <;> nofun
    | outOfFuel => nofun

section

variable {σ : Type} {Ω : Surroundings σ} {P : Resume → World σ → Globals → Prop} {capacity : Nat}
  {c : Call} {d : Declaration} {s : Session σ}

/-- The setting of a call with room for at least the operands that its function needs. -/
def Call.Calls.setting (h : c.Calls d) (host : Host σ) (room : Nat)
    (hroom : c.function.maxStack ≤ room) : Setting σ where
  host
  unit := c.unit
  index := c.index
  capacity := room
  target := c.function.target c.unit.constants h.few
  constants_eq := rfl
  maxStack_le := hroom

/-- A call is entered as its function says. -/
theorem Call.Calls.entered (h : c.Calls d) (host : Host σ) {room : Nat}
    (hroom : c.function.maxStack ≤ room) (world : World σ) (globals : Globals) (script : List (Reply σ)) :
    (h.setting host room hroom).Entered d c.args (.initial world globals script)
      (.start (c.first room) world globals script) where
  laid := h.laid
  nodes := h.nodes
  scopes := rfl
  session := by
    have hlocals : (c.first room).locals =
        Frame.initialLocals d.params.length c.function.localCount c.args := by
      simp only [Call.first, Frame.start, c.found, h.paramCount_eq]
    unfold Session.start Setting.session Setting.frame
    simp only [Call.first, Frame.start] at hlocals ⊢
    rw [hlocals]
    rfl

/-- A session that has done a part of what a call does, and has ended as the call has, or
for want of room. -/
structure Session.Follows (s : Session σ) (room : Nat) (c : Call) (r : Option Outcome × CallState σ) :
    Prop where
  trace : s.trace <+: r.2.trace
  ended : ∀ o, s.control = .ended o → o ≠ .failed .stackOverflow → r.1 = some o ∧
    s.trace = r.2.trace ∧ s.world = r.2.world ∧ s.frame.scopes = r.2.scopes ∧
      (o.suspension? = none → s.frame.handlers = [] ∧ r.2.scopes = [])
  overflow : s.control = .ended (.failed .stackOverflow) → room < c.function.maxStack

/-- A session that had room enough follows its call. -/
theorem Session.Follows.of_entered {κ : Setting σ} {s₀ : Session σ} {S : CallState σ} {k room room' : Nat}
    (hentered : κ.Entered d c.args S s₀) (hrun : κ.Runs k s₀ (s.widen room')) :
    s.Follows room c (d.run κ.host (k + 1) c.args S) where
  trace := (hentered.trace_le hrun :)
  ended o hs _ := by
    obtain ⟨S', spot, hr, hspot, hover⟩ := hentered.ended_eq hrun hs
    rw [hr]
    refine ⟨rfl, congrArg Session.trace hspot, congrArg Session.world hspot,
      congrArg (fun s => s.frame.scopes) hspot, fun ho => ?_⟩
    obtain ⟨hhandlers, hscopes⟩ := hover ho
    exact ⟨(congrArg (fun s => s.frame.handlers) hspot).trans hhandlers, hscopes⟩
  overflow hs := by
    obtain ⟨S', spot, hr, -⟩ := hentered.ended_eq hrun hs
    exact absurd (congrArg Prod.fst hr) (d.run_ne_failed _ _ _ _ _)

/-- What a task of a compiled function had a part in is a part of a call. -/
theorem Lives.evaluation (h : Lives Ω P capacity c s) (hd : c.Calls d) :
    ∃ n world globals script, P .start world globals ∧
      (∀ r ∈ script, P r.answer.mode r.world r.globals) ∧
      s.Follows capacity c (d.run Ω.host n c.args (.initial world globals script)) := by
  obtain ⟨k, world, globals, script, hP, hscript, hrun, -⟩ := h
  refine ⟨k + 1, world, globals, script, hP, hscript, ?_⟩
  let room := max capacity c.function.maxStack
  have hentered := hd.entered Ω.host (Nat.le_max_right capacity c.function.maxStack) world globals script
  have hwide := hrun.widen (c := room) (Nat.le_max_left capacity c.function.maxStack)
  rcases hwide with hwide | ⟨hover, s', hwide, htrace⟩
  · exact .of_entered hentered hwide
  · refine ⟨htrace.trans (hentered.trace_le hwide), ?_, ?_⟩
    · intro o hs ho
      rw [Session.Overflowed, hs] at hover
      exact absurd (Control.ended.inj hover) ho
    · -- with room enough, the session would not have overflowed
      intro hs
      refine Nat.lt_of_not_le fun hroom => ?_
      have hcall := hd.entered Ω.host hroom world globals script
      obtain ⟨S', spot, hr, -⟩ := hcall.ended_eq hrun hs
      exact d.run_ne_failed _ _ _ _ _ (congrArg Prod.fst hr)

end

end ResourceMachine
