/-
# The emitted pass

A pass that a scope emits disposes what the scope holds when the pass is run, as
`Eval.pass` tells: the last registered resource first, each exactly once, with an
await for every async one and those awaits made up for that are owed. This is so
wherever the pass stands in a finished function, in every function kind, for any
resources in the innermost scope and whatever their methods and the awaited values
come to. A scope that holds more resources than the machine can count is refused
before anything is disposed.

Key definitions: `Eval.Bounded`, `Setting.Passes`.
Key theorems: `Eval.pass_bounded`, `DisposalScope.pass_refines`.
-/
import ResourceMachine.Host.Scripted
import ResourceMachine.Proofs.PassRun
import ResourceMachine.Proofs.ScopeEmission

namespace ResourceMachine

variable {σ α β : Type}

/-! ### Evaluations without loops -/

/-- An evaluation that never runs out of fuel. -/
def Eval.Bounded (m : Eval σ α) : Prop := ∀ S S', m S ≠ .error .outOfFuel S'

namespace Eval
namespace Bounded

theorem pure (a : α) : Bounded (Pure.pure a : Eval σ α) := by
  intro S S' h
  cases h

theorem bind {m : Eval σ α} {f : α → Eval σ β} (hm : Bounded m) (hf : ∀ a, Bounded (f a)) :
    Bounded (m >>= f) := by
  intro S S' h
  change EStateM.bind m f S = _ at h
  unfold EStateM.bind at h
  cases hx : m S with
  | ok a T =>
    rw [hx] at h
    exact hf a T S' h
  | error i T =>
    rw [hx] at h
    cases h
    exact hm S S' hx

theorem attempt {m : Eval σ α} (hm : Bounded m) : Bounded (Eval.attempt m) := by
  intro S S' h
  unfold Eval.attempt at h
  cases hx : m S with
  | ok a T => simp [hx] at h
  | error i T =>
    cases i with
    | thrown e => simp [hx] at h
    | suspended p => simp [hx] at h
    | outOfFuel => exact hm S T hx

theorem onHeap (m : OnHeap Value α) : Bounded (Eval.onHeap m : Eval σ α) := by
  intro S S' h
  unfold Eval.onHeap at h
  cases hx : World.onHeap m S.world with
  | ok a w => simp [hx] at h
  | error e w => simp [hx] at h

end Bounded

theorem raiseNew_bounded (kind : ErrorKind) (message : String) :
    Bounded (raiseNew kind message : Eval σ α) :=
  .bind (.onHeap _) fun _ S S' h => by cases h

theorem callValue_bounded (host : Host σ) (origin : Origin) (callee receiver : Value)
    (args : List Value) : Bounded (callValue host origin callee receiver args) := by
  cases callee
  case function f =>
    intro S S' h
    simp only [callValue, callFunction] at h
    cases hr : (f.call host receiver args).settle S.world with
    | mk result world =>
      cases result with
      | ok v => simp [hr] at h
      | error e =>
        rw [hr] at h
        cases h
  all_goals exact raiseNew_bounded _ _

theorem await_bounded (v : Value) : Bounded (await v : Eval σ Value) := by
  refine .bind (fun S S' h => by cases h) fun _ S S' h => ?_
  unfold suspend at h
  cases hscript : S.script with
  | nil => simp [hscript] at h
  | cons r rest =>
    simp only [hscript] at h
    cases ha : (Suspension.await v).accept r.answer <;> simp [ha] at h

theorem tick_bounded : Bounded (tick : Eval σ Unit) := .bind (await_bounded _) fun _ => .pure _

theorem chain_bounded (u : Bool) (pending : Option Value) (e : Value) :
    Bounded (chain u pending e : Eval σ Value) := by
  rw [chain_eq]
  exact .onHeap _

variable (host : Host σ) (u : Bool)

theorem callMethod_bounded (r : Resource) (method : Value) (st : PassState) :
    Bounded (callMethod host u r method st) := by
  refine .bind (.attempt (callValue_bounded host _ _ _ _)) fun x => ?_
  cases x with
  | error e => exact .bind (chain_bounded _ _ _) fun _ => .pure _
  | ok v =>
    cases hr : r.hint with
    | sync => exact .pure st
    | async =>
      refine .bind (.attempt (await_bounded v)) fun y => ?_
      cases y with
      | ok _ => exact .pure _
      | error e => exact .bind (chain_bounded _ _ _) fun _ => .pure _

theorem disposeOne_bounded (r : Resource) (st : PassState) : Bounded (disposeOne host u r st) := by
  refine .bind ?_ fun st => ?_
  · unfold awaitBefore
    split
    · exact .bind tick_bounded fun _ => .pure _
    · exact .pure _
  · cases r.method? with
    | some method => exact callMethod_bounded host u r method st
    | none => exact .pure _

theorem disposeAll_bounded (rs : List Resource) (st : PassState) :
    Bounded (disposeAll host u rs st) := by
  induction rs generalizing st with
  | nil => exact .pure _
  | cons r rs ih => exact .bind (disposeOne_bounded host u r st) ih

/-- A pass comes to its end, if it is not stopped for want of replies. -/
theorem pass_bounded (kind : FunctionKind) (pending : Option Value) :
    Bounded (pass host kind pending) := by
  refine .bind (fun S S' h => by cases h) fun S₀ => .bind ?_ fun rs => ?_
  · intro S S' h
    cases hscopes : S.scopes with
    | nil =>
      simp only [takeResources, Bind.bind, EStateM.bind, get_apply, hscopes] at h
      cases h
    | cons c cs =>
      rw [takeResources_eq hscopes] at h
      exact (Bounded.onHeap _).bind (fun _ => (Bounded.onHeap _).bind fun _ => .pure _) _ S' h
  · refine .bind (disposeAll_bounded host _ _ _) fun st => .bind ?_ fun _ => ?_
    · unfold awaitAfter
      split
      · exact tick_bounded
      · exact .pure _
    · exact .bind (fun S S' h => by cases h) fun _ => .pure _

end Eval

/-! ### Passes wherever they stand -/

namespace Setting

variable {κ : Setting σ} {n p q d ip b : Nat} {stk : List Value} {L₀ : Array Value}
  {H : List Handler} {S : CallState σ} {s : PassSlots} {awaits : Bool} {pending : Option Value}
  {c : Capability} {cs : List Capability}

/-- From `s`, code does what a pass does and stands at `q` then. What is pending and
whether it is an exception lie on the operands `stk`; the innermost scope is empty,
and the other scopes, the handlers and the return slot are what they were. -/
def Passes (κ : Setting σ) (s : Session σ) (pending : Option Value) (S : CallState σ)
    (cs : List Capability) (q : Nat) (stk : List Value) (H : List Handler) : Prop :=
  match Eval.pass κ.host κ.target.kind pending S with
  | .ok pending' S' =>
    S'.scopes = .empty :: cs ∧ S'.rval = S.rval ∧ ∃ k ip L marks,
      (marks = [] ∨ marks = [.returns S.rval]) ∧
      κ.Runs k s (κ.session ⟨q, ip, .bool pending'.isSome :: pending'.getD .undefined :: stk, L, H⟩
        { S' with trace := S'.trace ++ marks })
  | .error (.suspended p) S' => ∃ k spot, κ.Runs k s (κ.ended spot p.outcome S')
  | .error _ _ => False

theorem pass_passes (hs : s.From b) (hsize : b + 8 ≤ L₀.size)
    (hlaid : κ.target.Pass s awaits (.ofPending pending) d p q) (hd : stk.length = d)
    (hscopes : S.scopes = c :: cs) (hfew : c.resources.length ≤ 2147483647)
    (hcovered : Covered awaits c.resources) :
    κ.Passes (κ.session ⟨p, ip, pending.toList ++ stk, L₀, H⟩ S) pending S cs q stk H := by
  have hsim : Sim κ 0 (κ.session ⟨p, ip, pending.toList ++ stk, L₀, H⟩ S) _ _ fun _ _ => False :=
    markedPass_sim hs hsize hlaid hd hscopes hfew hcovered
  obtain ⟨k, s', hrun, hlands⟩ := hsim
  have hscopes' : (stateOf (Eval.pass κ.host κ.target.kind pending S)).scopes = .empty :: cs :=
    Eval.pass_scopes κ.target.kind pending hscopes
  have hmarks : ∀ rval : Value, κ.target.marks awaits q rval = [] ∨
      κ.target.marks awaits q rval = [.returns rval] := by
    intro rval
    unfold Target.marks
    split
    · exact .inr rfl
    · exact .inl rfl
  unfold Passes
  change κ.Lands 0 _ _ (EStateM.bind (Eval.pass κ.host κ.target.kind pending) _ S) k s' at hlands
  unfold EStateM.bind at hlands
  cases hx : Eval.pass κ.host κ.target.kind pending S with
  | ok pending' S' =>
    rw [hx] at hlands hscopes'
    obtain ⟨spot, rfl, vs, -, ip', rfl⟩ := hlands
    exact ⟨hscopes', Eval.pass_rval hx, k, ip', _, _, hmarks S.rval, hrun⟩
  | error i S' =>
    rw [hx] at hlands
    cases i with
    | thrown e =>
      obtain ⟨-, -, hfalse⟩ := hlands
      exact hfalse
    | suspended p =>
      obtain ⟨spot, rfl⟩ := hlands
      exact ⟨k, spot, hrun⟩
    | outOfFuel => exact Eval.pass_bounded κ.host κ.target.kind pending S S' hx

/-- More resources than the machine counts are refused. -/
theorem pass_refused (hs : s.From b) (hsize : b + 8 ≤ L₀.size)
    (hlaid : κ.target.Pass s awaits (.ofPending pending) d p q) (hd : stk.length = d)
    (hscopes : S.scopes = c :: cs) (hmany : 2147483647 < c.resources.length) :
    ∃ k s', κ.Runs k (κ.session ⟨p, ip, pending.toList ++ stk, L₀, H⟩ S) s' ∧
      s'.control = .ended (.failed .tooManyResources) ∧ s'.trace = S.trace := by
  obtain ⟨m₁, m₂, hstart, -, -⟩ := hlaid
  obtain ⟨m, k, v₂, v₃, v₄, w₅, w₆, w₇, htake, hseeded, -⟩ := seedPass_run ip H S hs hsize hstart hd
  obtain ⟨m', htake, -⟩ := htake.cut [.takeDisposeCapability]
  obtain ⟨hhas, -, -, -, -⟩ := htake.single
  obtain ⟨vs, -, hvs⟩ := newResources_boxes c.resources S.world.heap
  let L₁ := overwrite L₀ b
    [.bool pending.isSome, pending.getD .undefined, v₂, v₃, v₄, w₅, w₆, w₇]
  have hexec : ∃ a, Exec.instr ⟨κ.host, S.globals⟩ κ.target.code.size
      (m + Instr.takeDisposeCapability.size) .takeDisposeCapability
      ⟨κ.frame ⟨m, ip, stk, L₁, H⟩ S, S.world⟩ = .error .tooManyResources a := by
    let heap := { S.world.heap with identities := S.world.heap.identities + c.resources.length }
    refine ⟨⟨{ κ.frame ⟨m, ip, stk, L₁, H⟩ S with scopes := .empty :: cs },
      ⟨heap, S.world.host⟩⟩, ?_⟩
    simp only [Exec.instr, Exec.takeCapability, Exec.onScope, Exec.frame, frame, bind, EStateM.bind,
      get_apply, pure, EStateM.pure, hscopes, Exec.onFrame, modify_apply, Exec.onHeap, World.onHeap,
      hvs, hmany, ↓reduceIte]
    rfl
  obtain ⟨a, hexec⟩ := hexec
  have hstep := step_session ⟨m, ip, stk, L₁, H⟩ S hhas
  simp only [Activation.perform, Activation.raised, hexec] at hstep
  exact ⟨_, _, hseeded.trans (.single hstep), rfl, List.append_nil _⟩

end Setting

/-! ### Passes that a scope emits -/

namespace DisposalScope

variable {κ : Setting σ} {O : List PendingJump} {scope scope' : DisposalScope} {e e' : Emitter}
  {u : Unit} {pending : Option Value} {stk : List Value} {L : Array Value}
  {S : CallState σ} {c : Capability} {cs : List Capability}

/-- **An emitted pass disposes the resources of its scope.** Let a scope emit a pass that
starts with nothing or with an exception pending. In every finished function that
continues the code emitted so far, a frame that gets to the pass with resources in its
innermost scope goes on as a pass is told to (`Eval.pass`), with the same calls, awaits
and replies in the same order, and stands behind the pass with what is pending then.
Only if there are more resources than can be counted, it fails before all that. -/
theorem pass_refines (hpass : pass (.ofPending pending) (scope, e) = .ok u (scope', e'))
    (hdepth : e.depth = (pending.toList ++ stk).length) (htidy : Tidy O e)
    (hslots : scope.Apart [] e.localCount.toNat) (hfits : Fits O e' κ.target)
    (hlocals : κ.target.localCount ≤ L.size) (hscopes : S.scopes = c :: cs)
    (hmethods : ∀ r ∈ c.resources, r.method?.isNone → r.hint = .async)
    (hawaits : ∀ r ∈ c.resources, r.hint = .async → scope.hasAwaitUsing = true)
    (ip : Nat) (H : List Handler) :
    let s := κ.session ⟨e.code.size, ip, pending.toList ++ stk, L, H⟩ S
    if c.resources.length ≤ 2147483647 then κ.Passes s pending S cs e'.code.size stk H
    else ∃ k s', κ.Runs k s s' ∧ s'.control = .ended (.failed .tooManyResources) ∧
      s'.trace = S.trace := by
  have hheight : e.depth = stk.length + (Seed.ofPending pending).values := by
    rw [hdepth]
    cases pending <;> simp [Seed.ofPending, Seed.values]
  obtain ⟨-, -, -, hlays⟩ := pass_lays (O := O) hpass hheight hslots (by simp [Scope.Bound])
  obtain ⟨-, slots, ⟨base, hs, hbase, -⟩, hlaid⟩ := hlays.fits htidy hfits
  have hsize : base + 8 ≤ L.size := Nat.le_trans hbase hlocals
  have hcovered : Covered scope.hasAwaitUsing c.resources := by
    intro hnone r hr
    have hsync : r.hint = .sync := by
      cases hhint : r.hint with
      | sync => rfl
      | async => simp [hawaits r hr hhint] at hnone
    refine ⟨hsync, ?_⟩
    cases hmethod : r.method? with
    | some f => rfl
    | none => simp [hmethods r hr (by rw [hmethod]; rfl)] at hsync
  intro s
  by_cases hfew : c.resources.length ≤ 2147483647
  · rw [if_pos hfew]
    exact Setting.pass_passes hs hsize hlaid rfl hscopes hfew hcovered
  · rw [if_neg hfew]
    exact Setting.pass_refused hs hsize hlaid rfl hscopes (by omega)

/-- A generator that is about to emit a pass over a scope with an `await using`, with
an exception on the operand stack. -/
def emitting : Emitter :=
  { name := "f", kind := .asyncGenerator, paramCount := 0, constants := .empty, code := #[]
    depth := 1, maxDepth := 1, localCount := 0, scopeDepth := 1 }

/-- A generator is closed in a scope with a value whose method is no function and, behind
that, an `await using` of `null`. -/
theorem pass_refines_emitting : ∃ scope' e', ∃ κ : Setting Console, ∃ S c,
    pass .thrown (⟨true, none, none⟩, emitting) = .ok () (scope', e') ∧ Tidy [] emitting ∧
    Fits [] e' κ.target ∧ κ.target.localCount ≤ 8 ∧ S.scopes = [c] ∧
    c.resources = [⟨.undefined, .sync, some (.int 1)⟩, ⟨.undefined, .async, none⟩] ∧
    κ.Passes (κ.session ⟨0, 0, [.closing], Array.replicate 8 .undefined, []⟩ S) (some .closing) S []
      e'.code.size [] [] := by
  have hemits : endsIn (fun s => s.2.localCount.toNat == 8 && s.2.constants.size == 0)
      (pass .thrown (⟨true, none, none⟩, emitting)) = true := by
    decide +kernel
  obtain ⟨u, ⟨scope', e'⟩, hpass, hcount⟩ := exists_of_endsIn hemits
  obtain ⟨hcount, hsize⟩ : e'.localCount.toNat = 8 ∧ e'.constants.size = 0 := by simpa using hcount
  let κ : Setting Console :=
    { host := Console.call, index := 0, capacity := e'.maxDepth
      unit := { Module.named "m" with constants := e'.constants }
      target := ⟨e'.code, e'.constants, e'.kind, e'.maxDepth, e'.localCount.toNat, by omega⟩
      constants_eq := rfl, maxStack_le := Nat.le_refl _ }
  let c : Capability := ⟨[⟨.undefined, .sync, some (.int 1)⟩, ⟨.undefined, .async, none⟩]⟩
  let S : CallState Console :=
    { CallState.initial ⟨.empty, Console.empty⟩ [] [] with scopes := [c] }
  have htidy : Tidy [] emitting := ⟨by simp, .nil, by rintro s i ⟨⟩⟩
  have hfits : Fits [] e' κ.target :=
    ⟨Nat.le_refl _, fun _ _ _ => rfl, rfl, Nat.le_refl _, Nat.le_refl _, fun _ _ h => h⟩
  have hmethods : ∀ r ∈ c.resources, r.method?.isNone → r.hint = .async := by
    simp [c, Record.method?, Value.isNullish]
  have hpass' : pass (.ofPending (some .closing)) (⟨true, none, none⟩, emitting) = .ok u (scope', e') :=
    hpass
  have hdepth : emitting.depth = ((some Value.closing).toList ++ ([] : List Value)).length := rfl
  have hlocals : κ.target.localCount ≤ (Array.replicate 8 Value.undefined).size := by simp [κ, hcount]
  have hscopes : S.scopes = c :: [] := rfl
  have hrefines := pass_refines hpass' hdepth htidy (by rintro _ ⟨⟩) hfits hlocals hscopes hmethods
    (fun _ _ _ => rfl) 0 []
  refine ⟨scope', e', κ, S, c, hpass, htidy, hfits, by simp [κ, hcount], rfl, rfl, ?_⟩
  rwa [if_pos (by decide)] at hrefines

end DisposalScope
end ResourceMachine
