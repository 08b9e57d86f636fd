/-
# Disposal without suspensions

Where all that a scope has registered is sync, leaving the scope is one step: methods are
called one after the other, nothing is waited for, and what is pending then is on its way.
That settles how such a scope is left, whichever way, and with whatever replies to come.

Key definitions: `Record.IsSync`, `Host.Unclosing`, `Exit.overtaken`.
Key theorems: `Eval.disposeAll_steady`, `Eval.disposeAll_unwrap`, `Eval.finish_steady`.
-/
import ResourceMachine.Proofs.TwinEvaluation

namespace ResourceMachine

variable {σ : Type} {host : Host σ} {kind : FunctionKind} {u u' : Bool}

/-- A resource with a method that is not awaited. -/
def Record.IsSync (r : Resource) : Prop := r.hint = .sync ∧ r.method?.isSome

/-- A host whose functions do not throw the signal that closes generators. -/
def Host.Unclosing (host : Host σ) : Prop :=
  ∀ {f receiver args w e w'}, host f receiver args w = .error e w' → e ≠ .closing

theorem Callable.call_ne_closing (hhost : host.Unclosing) {f : Callable} {receiver : Value} {args : List Value}
    {w w' : World σ} {e : Value} (h : f.call host receiver args w = .error e w') : e ≠ .closing := by
  cases f with
  | host f => exact hhost h
  | settling id f =>
    simp only [Callable.call] at h
    generalize Guest.settle (f.call host receiver []) w = r at h
    obtain ⟨_ | _, _⟩ := r <;> cases h

namespace CallState

/-- The call with numbers used up. -/
def used (S : CallState σ) (k : Nat) : CallState σ :=
  { S with world := { S.world with heap := { S.world.heap with identities := S.world.heap.identities + k } } }

theorem used_used (S : CallState σ) (j k : Nat) : (S.used j).used k = S.used (j + k) := by
  simp [used, Nat.add_assoc]

/-- The call where it has taken the resources out of its innermost scope. -/
def taken (S : CallState σ) (c : Capability) (cs : List Capability) : CallState σ :=
  { S.used (c.resources.length + 1) with scopes := .empty :: cs }

/-- The call where it has left an empty scope. -/
def outside (S : CallState σ) (k : Nat) (cs : List Capability) : CallState σ :=
  { S.used k with trace := S.trace ++ [.exitScope []], scopes := cs }

/-- What a call has done that nobody has seen: it has used up numbers, and has worked on its
scopes. -/
structure Unseen (S T : CallState σ) : Prop where
  world : ∃ k, T.world = (S.used k).world
  globals : T.globals = S.globals
  script : T.script = S.script
  trace : T.trace.filter Event.isVisible = S.trace.filter Event.isVisible
  rval : T.rval = S.rval

namespace Unseen

variable {S T U : CallState σ}

theorem refl (S : CallState σ) : S.Unseen S := ⟨⟨0, rfl⟩, rfl, rfl, rfl, rfl⟩

theorem trans (h : S.Unseen T) (h' : T.Unseen U) : S.Unseen U := by
  obtain ⟨j, hj⟩ := h.world
  obtain ⟨k, hk⟩ := h'.world
  refine ⟨⟨j + k, ?_⟩, h'.globals.trans h.globals, h'.script.trans h.script, h'.trace.trans h.trace,
    h'.rval.trans h.rval⟩
  rw [← used_used, hk]
  simp only [used, hj]

theorem taken (S : CallState σ) (c : Capability) (cs : List Capability) : S.Unseen (S.taken c cs) :=
  ⟨⟨_, rfl⟩, rfl, rfl, rfl, rfl⟩

theorem outside (S : CallState σ) (k : Nat) (cs : List Capability) : S.Unseen (S.outside k cs) :=
  ⟨⟨k, rfl⟩, rfl, rfl, by simp [CallState.outside, Event.isVisible], rfl⟩

theorem opened (S : CallState σ) (cs : List Capability) : S.Unseen { S with scopes := cs } :=
  ⟨⟨0, rfl⟩, rfl, rfl, rfl, rfl⟩

end Unseen

variable {same : Pairing → σ → σ → Prop} {ρ : Pairing} {K E : Alignment} {S S' T T' : CallState σ}

/-- What nobody has seen makes no difference. -/
theorem Alike.unseen (h : S.Alike same K ρ S') (hT : S.Unseen T) (hT' : S'.Unseen T')
    (hfits : E.fits ρ T.scopes T'.scopes) : T.Alike same E ρ T' := by
  obtain ⟨j, hj⟩ := hT.world
  obtain ⟨k, hk⟩ := hT'.world
  have hworld : World.Renumbered same ρ (S.used j).world (S'.used k).world := ⟨h.world.heap.use j k, h.world.host⟩
  refine ⟨⟨?_, ?_, ?_, ?_⟩, hT.script.trans h.script, hT'.script.trans h.script', hfits⟩
  · rwa [hj, hk]
  · rw [hT.globals, hT'.globals]
    exact h.globals
  · unfold Event.SeenAlike
    rw [hT.trace, hT'.trace]
    exact h.trace
  · rw [hT.rval, hT'.rval]
    exact h.rval

end CallState

namespace Eval

/-! ### Methods -/

/-- A function is called at once, whatever replies are to come. -/
theorem callValue_steady (host : Host σ) (origin : Origin) (callee receiver : Value) (args : List Value)
    (S : CallState σ) : ∃ r, ∃ T : CallState σ,
      (∀ s, callValue host origin callee receiver args (S.more s) = give r (T.more s)) ∧
      T.scopes = S.scopes ∧ T.rval = S.rval := by
  have hnone (kind : ErrorKind) (message : String) : ∃ r, ∃ T : CallState σ,
      (∀ s, (raiseNew kind message : Eval σ Value) (S.more s) = give r (T.more s)) ∧
        T.scopes = S.scopes ∧ T.rval = S.rval :=
    ⟨.error (.error S.world.heap.identities kind message),
      { S.used 1 with trace := S.trace ++ [.raise (.error S.world.heap.identities kind message)] },
      fun _ => rfl, rfl, rfl⟩
  cases callee
  case function f =>
    have hcall (s : List (Reply σ)) := callFunction_apply host origin f receiver args (S.more s)
    have hworld (s : List (Reply σ)) : (S.more s).world = S.world := rfl
    simp only [hworld] at hcall
    generalize f.call host receiver args S.world = x at hcall
    cases x with
    | ok v w =>
      exact ⟨.ok v, { S with world := w, trace := S.trace ++ [.call origin f receiver args (.ok v)] }, hcall, rfl, rfl⟩
    | error e w =>
      exact ⟨.error e, { S with
        world := w
        trace := S.trace ++ [.call origin f receiver args (.error e)] ++ [.raise e] }, hcall, rfl, rfl⟩
  all_goals exact hnone _ _

theorem callValue_ne_closing (hhost : host.Unclosing) {origin : Origin} {callee receiver : Value} {args : List Value}
    {S T : CallState σ} {e : Value} (h : callValue host origin callee receiver args S = .error (.thrown e) T) :
    e ≠ .closing := by
  have hnone (kind : ErrorKind) (message : String)
      (h : (raiseNew kind message : Eval σ Value) S = .error (.thrown e) T) : e ≠ .closing := by
    cases h
    simp
  cases callee
  case function f =>
    rw [show callValue host origin (.function f) receiver args = callFunction host origin f receiver args from rfl,
      callFunction_apply] at h
    split at h
    · cases h
    · cases h
      exact Callable.call_ne_closing hhost ‹_›
  all_goals exact hnone _ _ h

/-- What becomes pending, where that is the signal that closes a generator or nothing, or is
kept in a new error. -/
theorem chain_steady (u : Bool) (p : Option Value) (e : Value) (S : CallState σ) : ∃ v k,
    (∀ s, chain u p e (S.more s) = .ok v ((S.used k).more s)) ∧ (e ≠ .closing → v ≠ .closing) := by
  have hsuppressed (p : Value) : ∃ v k, (∀ s, (onHeap (Heap.newSuppressed e p) : Eval σ Value) (S.more s) =
      .ok v ((S.used k).more s)) ∧ (e ≠ .closing → v ≠ .closing) :=
    ⟨.suppressed S.world.heap.identities e p, 1, fun _ => rfl, by simp⟩
  have hpure : ∃ v k, (∀ s, (pure e : Eval σ Value) (S.more s) = .ok v ((S.used k).more s)) ∧
      (e ≠ .closing → v ≠ .closing) := ⟨e, 0, fun _ => rfl, id⟩
  cases p with
  | none => exact hpure
  | some p =>
    cases p
    case closing =>
      cases u with
      | true => exact hpure
      | false => exact hsuppressed _
    all_goals exact hsuppressed _

/-- The signal that closes a generator gives way, or not; what else is pending, never does. -/
theorem chain_unwrap {p : Option Value} (hp : p ≠ some .closing) (e : Value) :
    (chain u p e : Eval σ Value) = chain u' p e := by
  cases p with
  | none => rfl
  | some p =>
    cases p
    case closing => exact absurd rfl hp
    all_goals rfl

/-! ### Passes -/

theorem callMethod_unwrap (r : Resource) (method : Value) {st : PassState} (hp : st.pending ≠ some .closing) :
    callMethod host u r method st = callMethod host u' r method st := by
  have hchain : (chain u st.pending : Value → Eval σ Value) = chain u' st.pending :=
    funext fun e => chain_unwrap hp e
  unfold callMethod
  rw [hchain]

/-- A sync method is called at once, and may replace what is pending. -/
theorem callMethod_steady (host : Host σ) (u : Bool) {r : Resource} (hr : r.hint = .sync) (method : Value)
    (st : PassState)
    (S : CallState σ) : ∃ p, ∃ T : CallState σ,
      (∀ s, callMethod host u r method st (S.more s) = .ok { st with pending := p } (T.more s)) ∧
      T.scopes = S.scopes ∧ T.rval = S.rval ∧ (st.pending.isSome → p.isSome) ∧
      (host.Unclosing → st.pending ≠ some .closing → p ≠ some .closing) := by
  obtain ⟨result, T, hcall, hscopes, hrval⟩ := callValue_steady host .pass method r.value [] S
  cases result with
  | ok v =>
    refine ⟨st.pending, T, fun s => ?_, hscopes, hrval, id, fun _ => id⟩
    refine (attempt_bind_of_give (hcall s)).trans ?_
    simp only [hr]
    rfl
  | error e =>
    obtain ⟨p, k, hchain, hp⟩ := chain_steady u st.pending e T
    refine ⟨some p, T.used k, fun s => ?_, hscopes, hrval, fun _ => rfl, fun hhost _ hclosing => ?_⟩
    · exact (attempt_bind_of_give (hcall s)).trans ((bind_of_ok (hchain s)).trans rfl)
    · have hthrown := hcall []
      exact hp (callValue_ne_closing hhost hthrown) (Option.some.inj hclosing)

theorem disposeOne_sync {r : Resource} {method : Value} (hmethod : r.method? = some method) {st : PassState}
    (hst : st.needsAwait = false) : disposeOne host u r st = callMethod host u r method st := by
  unfold disposeOne awaitBefore
  rw [if_neg (by simp [hst]), pure_bind, hmethod]

/-- Sync resources are disposed at once. -/
theorem disposeAll_steady (host : Host σ) (u : Bool) : ∀ {rs : List Resource}, (∀ r ∈ rs, r.IsSync) →
    ∀ (st : PassState),
    st.needsAwait = false → ∀ S : CallState σ, ∃ p, ∃ T : CallState σ,
      (∀ s, disposeAll host u rs st (S.more s) = .ok { st with pending := p } (T.more s)) ∧
      T.scopes = S.scopes ∧ T.rval = S.rval ∧ (st.pending.isSome → p.isSome) ∧
      (host.Unclosing → st.pending ≠ some .closing → p ≠ some .closing)
  | [], _, st, _, S => ⟨st.pending, S, fun _ => rfl, rfl, rfl, id, fun _ => id⟩
  | r :: rs, hrs, st, hst, S => by
    obtain ⟨hr, hmethod⟩ := hrs r List.mem_cons_self
    obtain ⟨method, hmethod⟩ := Option.isSome_iff_exists.mp hmethod
    obtain ⟨p₁, T₁, hone, hscopes₁, hrval₁, hsome₁, hopen₁⟩ := callMethod_steady host u hr method st S
    obtain ⟨p, T, hall, hscopes, hrval, hsome, hopen⟩ := disposeAll_steady host u
      (fun r hr => hrs r (List.mem_cons_of_mem _ hr)) { st with pending := p₁ } hst T₁
    refine ⟨p, T, fun s => ?_, hscopes.trans hscopes₁, hrval.trans hrval₁, fun h => hsome (hsome₁ h),
      fun hhost h => hopen hhost (hopen₁ hhost h)⟩
    rw [disposeAll, disposeOne_sync hmethod hst]
    exact (bind_of_ok (hone s)).trans (hall s)

/-- Where the signal is not pending, it makes no difference whether it would give way. -/
theorem disposeAll_unwrap (hhost : host.Unclosing) : ∀ {rs : List Resource}, (∀ r ∈ rs, r.IsSync) →
    ∀ {st : PassState}, st.needsAwait = false → st.pending ≠ some .closing → ∀ S : CallState σ,
      disposeAll host u rs st S = disposeAll host u' rs st S
  | [], _, _, _, _, _ => rfl
  | r :: rs, hrs, st, hst, hp, S => by
    obtain ⟨hr, hmethod⟩ := hrs r List.mem_cons_self
    obtain ⟨method, hmethod⟩ := Option.isSome_iff_exists.mp hmethod
    obtain ⟨p₁, T₁, hone, -, -, -, hopen⟩ := callMethod_steady host u' hr method st S
    have hone := hone []
    rw [CallState.more_nil, CallState.more_nil] at hone
    rw [disposeAll, disposeAll, disposeOne_sync hmethod hst, disposeOne_sync hmethod hst, callMethod_unwrap r method hp,
      bind_of_ok hone, bind_of_ok hone]
    have hst₁ : ({ st with pending := p₁ } : PassState).needsAwait = false := hst
    exact disposeAll_unwrap hhost (fun r hr => hrs r (List.mem_cons_of_mem _ hr)) hst₁ (hopen hhost hp) T₁

theorem disposeAll_append (rs : List Resource) : ∀ (qs : List Resource) (st : PassState),
    disposeAll host u (qs ++ rs) st = disposeAll host u qs st >>= disposeAll host u rs
  | [], _ => rfl
  | q :: qs, st => by
    rw [List.cons_append, disposeAll, disposeAll, bind_assoc]
    exact congrArg (disposeOne host u q st >>= ·) (funext fun st => disposeAll_append rs qs st)

/-- A pass over sync resources is one disposal of them. -/
theorem pass_steady {S T : CallState σ} {c : Capability} {cs : List Capability} {pending p : Option Value}
    (h : S.scopes = c :: cs) (hrval : T.rval = S.rval)
    (hall : ∀ s, disposeAll host (kind.isGenerator && pending.isSome) c.resources.reverse ⟨pending, false, false⟩
      ((S.taken c cs).more s) = .ok ⟨p, false, false⟩ (T.more s)) (s : List (Reply σ)) :
    pass host kind pending (S.more s) = .ok p (T.more s) := by
  have htake : takeResources (S.more s) = .ok c.resources ((S.taken c cs).more s) :=
    takeResources_apply (S := S.more s) h
  refine (bind_of_ok (get_apply (S.more s))).trans ((bind_of_ok htake).trans ((bind_of_ok (hall s)).trans ?_))
  have hkept : (setRval S.rval : Eval σ Unit) (T.more s) = .ok () (T.more s) := by
    rw [← hrval]
    rfl
  exact (bind_of_ok (show awaitAfter ⟨p, false, false⟩ (T.more s) = .ok () (T.more s) from rfl)).trans
    ((bind_of_ok hkept).trans rfl)

/-- A pass over an empty scope changes nothing about what is pending. -/
theorem pass_of_empty {S : CallState σ} {cs : List Capability} (h : S.scopes = .empty :: cs) (p : Option Value)
    (s : List (Reply σ)) : pass host kind p (S.more s) = .ok p ((S.used 1).more s) := by
  refine pass_steady (T := S.used 1) h rfl (fun s => ?_) s
  have hsame : S.taken .empty cs = S.used 1 := by
    unfold CallState.taken
    rw [← h]
    rfl
  rw [hsame]
  rfl

end Eval

/-! ### How scopes are left -/

namespace Exit

/-- The exception that is pending where a scope is left so. -/
def pending? : Except Value Exit → Option Value
  | .ok _ => none
  | .error e => some e

/-- The exception that is pending in the end is on its way, or else what was before. -/
def overtaken (r : Except Value Exit) : Option Value → Except Value Exit
  | some e => .error e
  | none => r

end Exit

namespace Eval

/-- A scope in which all is sync is left at once. -/
theorem finish_steady (host : Host σ) (kind : FunctionKind) {S : CallState σ} {c : Capability}
    {cs : List Capability} (h : S.scopes = c :: cs) (hc : ∀ r ∈ c.resources, r.IsSync) (again : Bool) (r : Except Value Exit) :
    ∃ p, ∃ T : CallState σ, ∃ k,
      (∀ s, disposeAll host (kind.isGenerator && (Exit.pending? r).isSome) c.resources.reverse
        ⟨Exit.pending? r, false, false⟩ ((S.taken c cs).more s) = .ok ⟨p, false, false⟩ (T.more s)) ∧
      T.scopes = .empty :: cs ∧ T.rval = S.rval ∧ ((Exit.pending? r).isSome → p.isSome) ∧
      (host.Unclosing → Exit.pending? r ≠ some .closing → p ≠ some .closing) ∧
      ∀ s, finish host kind again r (S.more s) = give (Exit.overtaken r p) ((T.outside k cs).more s) := by
  obtain ⟨p, T, hall, hscopes, hrval, hsome, hopen⟩ := disposeAll_steady host
    (kind.isGenerator && (Exit.pending? r).isSome) (fun r hr => hc r (List.mem_reverse.mp hr))
    ⟨Exit.pending? r, false, false⟩ rfl (S.taken c cs)
  have hpass (s : List (Reply σ)) : pass host kind (Exit.pending? r) (S.more s) = .ok p (T.more s) :=
    pass_steady h hrval hall s
  have hagain (p : Option Value) (s : List (Reply σ)) : pass host kind p (T.more s) = .ok p ((T.used 1).more s) :=
    pass_of_empty hscopes p s
  have hclose (k : Nat) (s : List (Reply σ)) : closeScope ((T.used k).more s) = .ok () ((T.outside k cs).more s) :=
    closeScope_apply (S := (T.used k).more s) hscopes
  suffices hfinish : ∃ k, ∀ s, finish host kind again r (S.more s) =
      give (Exit.overtaken r p) ((T.outside k cs).more s) by
    obtain ⟨k, hfinish⟩ := hfinish
    exact ⟨p, T, k, hall, hscopes, hrval, hsome, hopen, hfinish⟩
  cases r with
  | error e =>
    obtain ⟨e', rfl⟩ := Option.isSome_iff_exists.mp (hsome rfl)
    refine ⟨0, fun s => ?_⟩
    have hthrow : leaveByThrow host kind e (S.more s) = .ok e' ((T.outside 0 cs).more s) :=
      (bind_of_ok (hpass s)).trans ((bind_of_ok (hclose 0 s)).trans rfl)
    exact (bind_of_ok hthrow).trans rfl
  | ok x =>
    cases p with
    | some e =>
      -- what the first pass has left pending, a second one finds nothing to add to
      refine ⟨1, fun s => ?_⟩
      have hleave : leave host kind (S.more s) = give (.error e) (T.more s) := (bind_of_ok (hpass s)).trans rfl
      have hthrow : leaveByThrow host kind e (T.more s) = .ok e ((T.outside 1 cs).more s) :=
        (bind_of_ok (hagain (some e) s)).trans ((bind_of_ok (hclose 1 s)).trans rfl)
      exact (attempt_bind_of_give hleave).trans ((bind_of_ok hthrow).trans rfl)
    | none =>
      refine ⟨if (again && x.isNormal) = true then 1 else 0, fun s => ?_⟩
      have hleave : leave host kind (S.more s) = give (.ok ()) (T.more s) := (bind_of_ok (hpass s)).trans rfl
      refine (attempt_bind_of_give hleave).trans ?_
      show (if (again && x.isNormal) = true then pass host kind (some .undefined) >>= fun _ => do closeScope; return x
          else do closeScope; return x : Eval σ Exit) (T.more s) = _
      split
      · exact (bind_of_ok (hagain _ s)).trans ((bind_of_ok (hclose 1 s)).trans rfl)
      · exact (bind_of_ok (hclose 0 s)).trans rfl

/-- An empty scope is left, and what was on its way goes on. -/
theorem finish_of_empty (host : Host σ) (kind : FunctionKind) {S : CallState σ} {cs : List Capability}
    (h : S.scopes = .empty :: cs) (again : Bool) (r : Except Value Exit) :
    ∃ k, ∀ s, finish host kind again r (S.more s) = give r ((S.outside k cs).more s) := by
  obtain ⟨p, T, k, hall, -, -, -, -, hfinish⟩ := finish_steady host kind h
    (fun _ h => absurd h List.not_mem_nil) again r
  have hend := hall []
  rw [CallState.more_nil, CallState.more_nil] at hend
  cases hend
  refine ⟨1 + k, fun s => (hfinish s).trans ?_⟩
  have hover : Exit.overtaken r (Exit.pending? r) = r := by cases r <;> rfl
  have houtside : (S.taken .empty cs).outside k cs = S.outside (1 + k) cs := by
    simp [CallState.taken, CallState.outside, CallState.used, Capability.empty, Nat.add_assoc]
  rw [hover, houtside]

end Eval
end ResourceMachine
