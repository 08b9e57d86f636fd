/-
# Evaluations without the closing signal

In clean surroundings the closing signal is nowhere in a call but on its way out of a
generator: nothing of what happens contains it (`Event.Clean`), no binding holds it, and a
pass that it is pending in gives it up for the first exception that a method throws
(`chained`).

Key definitions: `cleanliness`, `Mood.Clean`, `Point.Clean`.
Key theorems: `cleanliness_lawful`, `Invariant.HoldsOf.clean`, `Declaration.trail_clean`.
-/
import ResourceMachine.Proofs.Cleanness
import ResourceMachine.Proofs.Trail

namespace ResourceMachine

variable {σ : Type} {kind : FunctionKind} {host : Host σ}

/-! ### The invariant -/

/-- The closing signal is on its way out of generators only. -/
def Value.Thrown (kind : FunctionKind) (e : Value) : Prop :=
  e.Clean ∨ e = .closing ∧ kind.isGenerator = true

/-- What is on its way out of a function is clean, or the signal on its way out of a
generator. -/
def Mood.Clean (kind : FunctionKind) : Mood → Prop
  | calm => True
  | returning v => v.Clean
  | throwing e => e.Thrown kind

/-- A pass that the signal may be pending in gives it up for an exception. -/
def Phase.Clean (kind : FunctionKind) : Phase → Prop
  | running m => m.Clean kind
  | disposing u rval m rs => m.Clean kind ∧ rval.Clean ∧ (∀ r ∈ rs, r.Clean) ∧
      (m.pending = some .closing → u = true)

/-- What can be seen of a call is clean. -/
structure CallState.Clean (S : CallState σ) : Prop where
  world : S.world.Clean
  globals : S.globals.Clean
  script : ∀ r ∈ S.script, r.answer.mode.Clean r.world r.globals
  trace : ∀ e ∈ S.trace, e.Clean
  rval : S.rval.Clean
  scopes : ∀ c ∈ S.scopes, ∀ r ∈ c.resources, r.Clean

namespace CallState.Clean

variable {S : CallState σ}

theorem log (h : S.Clean) {es : List Event} (hes : ∀ e ∈ es, e.Clean) : (S.log es).Clean :=
  { h with trace := fun e he => (List.mem_append.mp he).elim (h.trace e) (hes e) }

theorem logOne (h : S.Clean) {e : Event} (he : e.Clean) : (S.log [e]).Clean :=
  h.log (List.forall_mem_singleton.mpr he)

theorem withHeap (h : S.Clean) {heap : Heap} (hheap : heap.Clean) : (S.withHeap heap).Clean :=
  { h with world := hheap }

theorem answered (h : S.Clean) {p : Suspension} {r : Reply σ} {rest : List (Reply σ)}
    (hp : p.value.Clean) (hscript : S.script = r :: rest) :
    (S.answered p r rest).Clean ∧ (p.accept r.answer).value.Clean := by
  obtain ⟨hr, hrest⟩ := List.forall_mem_cons.mp (hscript ▸ h.script)
  have hanswer := Suspension.accept_clean hp (hr.value _ r.answer.value?_mode)
  refine ⟨⟨hr.world, hr.globals, hrest, ?_, h.rval, h.scopes⟩, hanswer⟩
  intro e he
  rcases List.mem_append.mp he with he | he
  · exact h.trace e he
  · rcases List.mem_cons.mp he with rfl | he
    · exact hp
    · rw [List.mem_singleton.mp he]
      exact hanswer

end CallState.Clean

/-- What is pending after an exception is clean. -/
theorem chained_clean {u : Bool} {e : Value} {pending : Option Value} (id : Nat) (he : e.Clean)
    (hpending : ∀ p, pending = some p → p.Thrown kind) (hu : pending = some .closing → u = true) :
    (chained u id e pending).Clean := by
  match pending with
  | none => exact he
  | some p =>
    rcases hpending p rfl with hp | ⟨rfl, -⟩
    · cases p
      case closing => exact absurd rfl hp.ne_closing
      all_goals exact .suppressed he hp
    · simp only [chained, hu rfl, ↓reduceIte]
      exact he

theorem Phase.Clean.thrown {φ : Phase} {e : Value} (h : φ.Clean kind) (id : Nat) (he : e.Clean) :
    (φ.thrown id e).Clean kind := by
  cases φ with
  | running m => exact .inl he
  | disposing u rval m rs =>
    obtain ⟨hm, hrval, hrs, hu⟩ := h
    have hpending : ∀ p, m.pending = some p → p.Thrown kind := by
      intro p hp
      cases m <;> cases hp
      exact hm
    have hchained := chained_clean id he hpending hu
    exact ⟨.inl hchained, hrval, hrs, fun h => absurd (Option.some.inj h) hchained.ne_closing⟩

/-- A call, what is on its way out and what it has still to dispose are clean. -/
def cleanliness (σ : Type) (kind : FunctionKind) : Invariant σ where
  fine := Value.Clean
  holds φ S := S.Clean ∧ φ.Clean kind
  left p S := S.Clean ∧ ∀ q, p = some q → q.value.Clean

/-- No part of an evaluation lets the closing signal out. -/
theorem cleanliness_lawful (kind : FunctionKind) (hhost : Host.Clean host) :
    (cleanliness σ kind).Lawful host kind true where
  plain _ h := .of_isPlain h
  global h hv := h.1.globals.get? hv
  fresh n h := ⟨h.1.withHeap (h.1.world.fresh n), h.2⟩
  raise id _ h he := ⟨h.1.logOne he, h.2.thrown id he⟩
  caught {S e} _ h he := by
    obtain ⟨h, hclean | ⟨rfl, hkind⟩⟩ := h
    · exact ⟨hclean, h, trivial⟩
    · rw [hkind] at he
      cases he
  fuel h := ⟨h.1, by rintro _ ⟨⟩⟩
  call {S f args result world} h hargs hcall := by
    obtain ⟨hresult, hworld⟩ := f.call_clean hhost .undefined hargs h.1.world hcall
    have hS : ({ S with world } : CallState σ).Clean := { h.1 with world := hworld }
    exact ⟨hresult, hS.logOne ⟨.undefined, hargs, hresult⟩, trivial⟩
  setRval _ h hv := ⟨{ h.1 with rval := hv }, h.2⟩
  returns h hv := ⟨{ h.1.logOne (e := .returns _) hv with rval := hv }, hv⟩
  stop {_ _ p} _ h hp := by
    refine ⟨h.1.logOne (e := .suspend p) hp, ?_⟩
    rintro _ ⟨⟩
    exact hp
  next {_ _ r _ v p} _ h hp hscript hv := by
    obtain ⟨hS, hanswer⟩ := h.1.answered hp hscript
    rw [hv] at hanswer
    exact ⟨hanswer, hS, h.2⟩
  throw {_ _ r _ e p} id _ h hp hscript he := by
    obtain ⟨hS, hanswer⟩ := h.1.answered hp hscript
    rw [he] at hanswer
    exact ⟨hS, h.2.thrown id hanswer⟩
  close {_ r _ v p} hkind h hp hscript hv := by
    obtain ⟨hS, hanswer⟩ := h.1.answered hp hscript
    rw [hv] at hanswer
    exact ⟨{ hS with rval := hanswer }, .inr ⟨rfl, hkind⟩⟩
  iterate h hv := ⟨h.1.withHeap (h.1.world.newIterator (.ofList hv.items)), h.2⟩
  nextItem {S id item c} h hnext := by
    obtain ⟨hitem, hcursor⟩ := (h.1.world.cursor id).next hnext
    exact ⟨hitem, (h.1.withHeap (h.1.world.setIterator id hcursor)).logOne (e := .next id item) hitem, h.2⟩
  closeIterator {S m id error c} h hclose := by
    obtain ⟨herror, hcursor⟩ := (h.1.world.cursor id).close hclose
    exact ⟨herror, (h.1.withHeap (h.1.world.setIterator id hcursor)).logOne (e := .close id error) herror, h.2⟩
  openScope h := ⟨{ h.1 with scopes := List.forall_mem_cons.mpr ⟨List.forall_mem_nil _, h.1.scopes⟩ }, h.2⟩
  closeScope {S m cs} h hscopes := by
    have hcs := List.forall_mem_cons.mp (hscopes ▸ h.1.scopes)
    exact ⟨{ h.1.logOne (e := .exitScope []) (List.forall_mem_nil _) with scopes := hcs.2 }, h.2⟩
  register {S r c cs} n h hv hr hscopes := by
    obtain ⟨hc, hcs⟩ := List.forall_mem_cons.mp (hscopes ▸ h.1.scopes)
    have hclean : r.Clean := by
      refine ⟨hv, fun m hm => ?_⟩
      rcases hr.method with ⟨f, hf⟩ | ⟨hnone, -⟩
      · rw [Option.some.inj (hm.symm.trans hf)]
        exact .function f
      · cases hm.symm.trans hnone
    refine ⟨{ (h.1.withHeap (h.1.world.fresh n)).logOne (e := .register r) hclean with scopes := ?_ }, h.2⟩
    refine List.forall_mem_cons.mpr ⟨fun r' hr' => ?_, hcs⟩
    rcases List.mem_append.mp hr' with hr' | hr'
    · exact hc r' hr'
    · rwa [List.mem_singleton.mp hr']
  take {S m c cs} u h hscopes hu := by
    obtain ⟨hc, hcs⟩ := List.forall_mem_cons.mp (hscopes ▸ h.1.scopes)
    refine ⟨{ h.1 with scopes := List.forall_mem_cons.mpr ⟨List.forall_mem_nil _, hcs⟩ }, h.2, h.1.rval,
      fun r hr => hc r (List.mem_reverse.mp hr), fun hclosing => ?_⟩
    have hm : m.Clean kind := h.2
    rw [hu (by rw [hclosing]; rfl)]
    cases m <;> cases hclosing
    rcases hm with hm | ⟨-, hkind⟩
    · exact absurd rfl hm.ne_closing
    · exact hkind
  dispose {S u rval m r rs f result world} h _ hcall := by
    obtain ⟨hS, hm, hrval, hrs, hu⟩ := h
    obtain ⟨hr, hrs⟩ := List.forall_mem_cons.mp hrs
    obtain ⟨hresult, hworld⟩ := f.call_clean hhost hr.value
      (fun _ h => absurd h List.not_mem_nil) hS.world hcall
    have hS : ({ S with world } : CallState σ).Clean := { hS with world := hworld }
    exact ⟨hresult, hS.logOne ⟨hr.value, List.forall_mem_nil _, hresult⟩, hm, hrval, hrs, hu⟩
  skip h _ := ⟨h.1, h.2.1, h.2.2.1, fun r hr => h.2.2.2.1 r (List.mem_cons_of_mem _ hr), h.2.2.2.2⟩
  done h := ⟨{ h.1 with rval := h.2.2.1 }, h.2.1⟩

/-! ### Calls -/

/-- The value that a call is left with, if any. -/
def Outcome.value? : Outcome → Option Value
  | completed v | threw v | awaits v | yields v => some v
  | failed _ => none

/-- What a call leaves behind is clean, and so is the value that it is left with. -/
theorem Invariant.HoldsOf.clean {r : Option Outcome × CallState σ}
    (h : (cleanliness σ kind).HoldsOf r) :
    r.2.Clean ∧ ∀ o v, r.1 = some o → o.value? = some v → v.Clean := by
  obtain ⟨o, S⟩ := r
  match o, h with
  | none, h => exact ⟨h.1, nofun⟩
  | some (.completed w), h =>
    rcases h with ⟨hS, hw⟩ | ⟨rfl, hS, -⟩
    · exact ⟨hS, by rintro _ _ ⟨⟩ ⟨⟩; exact hw⟩
    · exact ⟨hS, by rintro _ _ ⟨⟩ ⟨⟩; exact hS.rval⟩
  | some (.threw e), ⟨hne, hS, he⟩ =>
    refine ⟨hS, ?_⟩
    rintro _ _ ⟨⟩ ⟨⟩
    exact he.resolve_right fun h => hne h.1
  | some (.awaits w), ⟨hS, hw⟩ => exact ⟨hS, by rintro _ _ ⟨⟩ ⟨⟩; exact hw _ rfl⟩
  | some (.yields w), ⟨hS, hw⟩ => exact ⟨hS, by rintro _ _ ⟨⟩ ⟨⟩; exact hw _ rfl⟩

/-- A call that is entered in clean surroundings is clean. -/
theorem CallState.initial_clean {world : World σ} {globals : Globals} {script : List (Reply σ)}
    (hstart : Resume.start.Clean world globals)
    (hscript : ∀ r ∈ script, r.answer.mode.Clean r.world r.globals) :
    (CallState.initial world globals script).Clean :=
  ⟨hstart.world, hstart.globals, hscript, nofun, .undefined, nofun⟩

/-! ### Points -/

/-- At a statement and behind statements all bindings are clean; and an error that chaining
makes is clean. -/
def Point.Clean : Point → Prop
  | statement _ ρ | behind ρ => ∀ b ∈ ρ, b.2.Clean
  | chaining u pending e => ∀ id error older,
      chained u id e pending = .suppressed id error older → error.Clean ∧ older.Clean

theorem Value.Clean.of_suppressed {id : Nat} {error older : Value}
    (h : (Value.suppressed id error older).Clean) : error.Clean ∧ older.Clean := by
  cases h with
  | atom h => cases h
  | suppressed error older => exact ⟨error, older⟩

/-- Wherever a call comes to in clean surroundings, the point is clean. -/
theorem Declaration.trail_clean {d : Declaration} (hhost : Host.Clean host)
    (hd : d.Valid) {n : Nat} {args : List Value} (hargs : ∀ v ∈ args, v.Clean) {S : CallState σ}
    (hS : S.Clean) (hscopes : S.scopes = []) :
    (d.trail host n args).Meets S fun p _ => p.Clean := by
  intro p S' hp
  have hAt := Declaration.trail_kept (cleanliness_lawful d.kind hhost) n hd (.inl rfl) hargs
    ⟨hS, trivial⟩ hscopes p S' hp
  cases p with
  | statement s ρ => exact hAt.fine
  | behind ρ => exact hAt.1
  | chaining u pending e =>
    obtain ⟨rval, m, rs, rfl, hthrown⟩ := hAt
    intro id error older hchained
    obtain ⟨-, hclean | ⟨hclosing, -⟩, -⟩ := hthrown id
    · exact (hchained ▸ hclean).of_suppressed
    · cases hchained.symm.trans hclosing

end ResourceMachine
