/-
# What is evaluated alike

Every statement is its own twin: executed alike, with bindings that are alike as far as it
reads them, it does what can be seen alike. That holds in scopes of any alignment, as long as
what it registers can be registered on both sides.

Key definitions: `Eval.finish`, `Bindings.Alike`, `Stmt.reads`, `Stmt.execThrough`, `Block.Twins`.
Key theorems: `Eval.pass_twins`, `Eval.finish_twins`, `Stmt.exec_twins`, `Block.twins_self`.
-/
import ResourceMachine.Proofs.Twins

namespace ResourceMachine

variable {σ α : Type} {same : Pairing → σ → σ → Prop} {ρ ρ' τ : Pairing}

/-! ### Scopes -/

namespace Eval

section

variable {host : Host σ} {K E : Alignment}

theorem openScope_twins (K' : Alignment)
    (h : ∀ {τ cs ds}, K.fits τ cs ds → K'.fits τ (.empty :: cs) (.empty :: ds)) :
    Twins same K K' E (fun _ _ _ => True) ρ (openScope : Eval σ Unit) openScope :=
  .of_give fun {τ _ _} _ hS => ⟨τ, .ok (), _, .ok (), _, le_refl _, fun _ => rfl, fun _ => rfl,
    .ok trivial (hS.withScopes (h hS.scopes))⟩

theorem openScope_inner : Twins same K K.inner E (fun _ _ _ => True) ρ (openScope : Eval σ Unit) openScope :=
  openScope_twins _ fun hfits => ⟨.empty, _, .empty, _, rfl, rfl, .nil, hfits⟩

theorem closeScope_apply {S : CallState σ} {c : Capability} {cs : List Capability} (h : S.scopes = c :: cs) :
    closeScope S = .ok () { S with trace := S.trace ++ [.exitScope c.resources], scopes := cs } := by
  simp only [closeScope, bind, EStateM.bind, get_apply, h, log, modify_apply]

theorem closeScope_twins :
    Twins same K.inner K E (fun _ _ _ => True) ρ (closeScope : Eval σ Unit) closeScope := by
  refine .of_give fun {τ S S'} _ hS => ?_
  obtain ⟨c, cs, d, ds, hcs, hds, hcd, hfits⟩ := hS.scopes
  have hleft (s : List (Reply σ)) := closeScope_apply (S := S.more s) hcs
  have hright (s : List (Reply σ)) := closeScope_apply (S := S'.more s) hds
  have hseen := (Event.Alike.exitScope hcd).seen
  exact ⟨τ, .ok (), { S with trace := S.trace ++ [.exitScope c.resources], scopes := cs }, .ok (),
    { S' with trace := S'.trace ++ [.exitScope d.resources], scopes := ds }, le_refl _, hleft, hright,
    .ok trivial ((hS.withTrace hseen).withScopes hfits)⟩

/-- A resource is added to the innermost scope. -/
theorem add_apply (r : Resource) {S : CallState σ} {c : Capability} {cs : List Capability} (h : S.scopes = c :: cs) :
    (modify fun S : CallState σ =>
      match S.scopes with
      | c :: outer => { S with scopes := c.add r :: outer }
      | [] => S : Eval σ Unit) S = .ok () { S with scopes := c.add r :: cs } := by
  simp only [modify_apply, h]

/-- What is registered on both sides is alike. -/
theorem register_twins (hhost : host.Blind same) {hint : Hint} (hK : K.Registers hint) {v v' : Value}
    (hv : v.Alike ρ v') :
    Twins same K K K (fun _ _ _ => True) ρ (register v hint : Eval σ Unit) (register v' hint) := by
  have hcreate := (onHeap_twins (K := K) hhost fun _ hτ => createResource_tandem (hv.mono hτ) hint).and_left
    (I := fun r => ∀ s, r = some s → s.hint = hint ∧ (hint = .sync → s.method?.isSome)) fun S r T h s hs => by
      rw [onHeap_apply, hs] at h
      split at h
      · cases h
        exact createResource_covered ‹_›
      · cases h
  refine hcreate.attempt_bind (fun τ r r' _ ⟨hr, hcovered⟩ => ?_) fun _ _ _ _ he => signal_twins he
  cases hr with
  | none => exact .pure fun _ _ => trivial
  | @some r r' hr =>
    obtain ⟨hhint, hmethod⟩ := hcovered r rfl
    refine (log_twins (Event.Alike.register hr).seen).bind fun τ' _ _ hτ' _ => .of_give fun {χ S S'} hχ hS => ?_
    obtain ⟨c, cs, d, ds, hcs, hds, hfits⟩ := hK hS.scopes (hr.mono (hτ'.trans hχ)) hhint hmethod
    have hleft (s : List (Reply σ)) := add_apply r (S := S.more s) hcs
    have hright (s : List (Reply σ)) := add_apply r' (S := S'.more s) hds
    exact ⟨χ, .ok (), { S with scopes := c.add r :: cs }, .ok (), { S' with scopes := d.add r' :: ds }, le_refl _,
      hleft, hright, .ok trivial (hS.withScopes hfits)⟩

/-- What is taken out of scopes on both sides is alike. -/
theorem takeResources_twins :
    Twins same K.inner K.inner E (fun ρ => List.Forall₂ (Record.Alike ρ)) ρ
      (takeResources : Eval σ (List Resource)) takeResources := by
  refine .of_give fun {τ S S'} _ hS => ?_
  obtain ⟨c, cs, d, ds, hcs, hds, hcd, hfits⟩ := hS.scopes
  have hleft (s : List (Reply σ)) := takeResources_apply (S := S.more s) hcs
  have hright (s : List (Reply σ)) := takeResources_apply (S := S'.more s) hds
  have hheap := hS.world.heap.use (c.resources.length + 1) (d.resources.length + 1)
  have hworlds : World.Renumbered same τ ⟨_, S.world.host⟩ ⟨_, S'.world.host⟩ := ⟨hheap, hS.world.host⟩
  have hscopes : K.inner.fits τ (.empty :: cs) (.empty :: ds) := ⟨.empty, cs, .empty, ds, rfl, rfl, .nil, hfits⟩
  have hcalls := (hS.withWorld (le_refl _) hworlds).withScopes hscopes
  refine ⟨τ, .ok _, _, .ok _, _, le_refl _, ?_, ?_, .ok hcd hcalls⟩
  · exact hleft
  · exact hright

/-! ### Disposal -/

/-- Passes have got equally far. -/
structure PassState.Alike (ρ : Pairing) (st st' : PassState) : Prop where
  pending : Option.Rel (Value.Alike ρ) st.pending st'.pending
  needsAwait : st.needsAwait = st'.needsAwait
  hasAwaited : st.hasAwaited = st'.hasAwaited

theorem PassState.Alike.mono {st st' : PassState} (h : st.Alike ρ st') (hle : ρ ≤ τ) : st.Alike τ st' :=
  ⟨Value.optAlike_mono hle h.pending, h.needsAwait, h.hasAwaited⟩

theorem method?_alike {r r' : Resource} (h : r.Alike ρ r') :
    Option.Rel (Value.Alike ρ) r.method? r'.method? := by
  obtain ⟨_, _, method⟩ := r
  obtain ⟨_, _, method'⟩ := r'
  obtain ⟨-, -, hmethod⟩ := h
  unfold Record.method?
  cases hmethod with
  | none => exact .none
  | some hm =>
    rw [Option.filter_some, Option.filter_some, hm.isNullish_eq]
    split
    · exact .some hm
    · exact .none

theorem chain_twins (hhost : host.Blind same) (u : Bool) {p p' : Option Value}
    (hp : Option.Rel (Value.Alike ρ) p p') {e e' : Value} (he : e.Alike ρ e') :
    Twins same K K E Value.Alike ρ (chain u p e : Eval σ Value) (chain u p' e') := by
  have hsuppressed {p p' : Value} (hp : p.Alike ρ p') : Twins same K K E Value.Alike ρ
      (onHeap (Heap.newSuppressed e p) : Eval σ Value) (onHeap (Heap.newSuppressed e' p')) :=
    onHeap_twins_ok hhost fun _ hτ => Heap.newSuppressed_tandem (he.mono hτ) (hp.mono hτ)
  cases hp with
  | none => exact .pure fun _ hτ => he.mono hτ
  | @some p p' hp =>
    have hkept := hp
    cases hp with
    | primitive hv =>
      cases p
      case closing =>
        cases u with
        | true => exact .pure fun _ hτ => he.mono hτ
        | false => exact hsuppressed hkept
      all_goals exact hsuppressed hkept
    | _ => exact hsuppressed hkept

theorem callMethod_twins (hhost : host.Blind same) (u : Bool) {r r' : Resource} (hr : r.Alike ρ r')
    {method method' : Value} (hmethod : method.Alike ρ method') {st st' : PassState} (hst : st.Alike ρ st') :
    Twins same K K E PassState.Alike ρ (callMethod host u r method st) (callMethod host u r' method' st') := by
  have hchained {τ : Pairing} {e e' : Value} (hτ : ρ ≤ τ) (he : e.Alike τ e') {awaited awaited' : Bool}
      (hawaited : awaited = awaited') : Twins same K K E PassState.Alike τ
      (do return { st with pending := some (← chain u st.pending e), hasAwaited := awaited } : Eval σ PassState)
      (do return { st' with pending := some (← chain u st'.pending e'), hasAwaited := awaited' }) :=
    (chain_twins hhost u (hst.mono hτ).pending he).bind fun χ _ _ _ hp => .pure fun _ hχ =>
      ⟨.some (hp.mono hχ), hst.needsAwait, hawaited⟩
  unfold callMethod
  refine (callValue_twins hhost .pass hmethod hr.value .nil).attempt_bind (fun τ v v' hτ hv => ?_)
    fun τ e e' hτ he => hchained hτ he hst.hasAwaited
  rw [← hr.hint]
  cases r.hint with
  | sync => exact .pure fun _ hχ => hst.mono (hτ.trans hχ)
  | async =>
    refine (await_twins hv).attempt_bind (fun χ _ _ hχ _ => ?_) fun χ e e' hχ he => ?_
    · exact .pure fun _ hle => ⟨Value.optAlike_mono ((hτ.trans hχ).trans hle) hst.pending, hst.needsAwait, rfl⟩
    · exact hchained (hτ.trans hχ) he (Eq.refl true)

theorem awaitBefore_twins {r r' : Resource} (hr : r.Alike ρ r') {st st' : PassState} (hst : st.Alike ρ st') :
    Twins same K K E PassState.Alike ρ (awaitBefore r st : Eval σ PassState) (awaitBefore r' st') := by
  obtain ⟨p, needsAwait, hasAwaited⟩ := st
  obtain ⟨p', needsAwait', hasAwaited'⟩ := st'
  obtain ⟨hp, rfl, rfl⟩ := hst
  unfold awaitBefore
  rw [← hr.hint]
  split
  · exact tick_twins.bind fun τ _ _ hτ _ => .pure fun _ hχ => ⟨Value.optAlike_mono (hτ.trans hχ) hp, rfl, rfl⟩
  · exact .pure fun _ hτ => ⟨Value.optAlike_mono hτ hp, rfl, rfl⟩

theorem awaitAfter_twins {st st' : PassState} (hst : st.Alike ρ st') :
    Twins same K K E (fun _ _ _ => True) ρ (awaitAfter st : Eval σ Unit) (awaitAfter st') := by
  unfold awaitAfter
  rw [← hst.needsAwait, ← hst.hasAwaited]
  split
  · exact tick_twins
  · exact .pure fun _ _ => trivial

theorem disposeOne_twins (hhost : host.Blind same) (u : Bool) {r r' : Resource} (hr : r.Alike ρ r')
    {st st' : PassState} (hst : st.Alike ρ st') :
    Twins same K K E PassState.Alike ρ (disposeOne host u r st) (disposeOne host u r' st') := by
  unfold disposeOne
  refine (awaitBefore_twins hr hst).bind fun τ st st' hτ hst => ?_
  have hmethod := method?_alike hr
  generalize r.method? = m at hmethod
  generalize r'.method? = m' at hmethod
  cases hmethod with
  | some hm => exact callMethod_twins hhost u (hr.mono hτ) (hm.mono hτ) hst
  | none => exact .pure fun _ hχ => ⟨Value.optAlike_mono hχ hst.pending, rfl, hst.hasAwaited⟩

theorem disposeAll_twins (hhost : host.Blind same) (u : Bool) : ∀ {ρ : Pairing} {rs rs' : List Resource}
    {st st' : PassState}, List.Forall₂ (Record.Alike ρ) rs rs' → st.Alike ρ st' →
    Twins same K K E PassState.Alike ρ (disposeAll host u rs st) (disposeAll host u rs' st')
  | _, _, _, _, _, .nil, hst => .pure fun _ hτ => hst.mono hτ
  | _, _, _, _, _, .cons hr hrs, hst => by
    rw [disposeAll, disposeAll]
    exact (disposeOne_twins hhost u hr hst).bind fun τ _ _ hτ hst =>
      disposeAll_twins hhost u (hrs.imp fun _ _ h => h.mono hτ) hst

variable {kind : FunctionKind}

/-- What is done depends on the calls as they are, but not on the replies to come. -/
theorem get_twins {P : Pairing → α → α → Prop} {K' : Alignment} {f f' : CallState σ → Eval σ α}
    (hmore : ∀ S s, f (S.more s) = f S) (hmore' : ∀ S s, f' (S.more s) = f' S)
    (hf : ∀ τ S S', ρ ≤ τ → S.Alike same K τ S' → Twins same K K' E P τ (f S) (f' S')) :
    Twins same K K' E P ρ (get >>= f) (get >>= f') := fun τ S S' hτ hS =>
  (hf τ S S' hτ hS τ S S' (le_refl _) hS).behind (le_refl _) (fun s => congrFun (hmore S s) _)
    fun s => congrFun (hmore' S' s) _

/-- Passes over scopes that have registered alike, with alike exceptions pending. -/
theorem pass_twins (hhost : host.Blind same) {p p' : Option Value} (hp : Option.Rel (Value.Alike ρ) p p') :
    Twins same K.inner K.inner E (fun ρ => Option.Rel (Value.Alike ρ)) ρ (pass host kind p) (pass host kind p') := by
  refine get_twins (fun _ _ => rfl) (fun _ _ => rfl) fun τ S S' hτ hS => ?_
  refine takeResources_twins.bind fun τ₁ rs rs' hτ₁ hrs => ?_
  have hp' := Value.optAlike_mono (hτ.trans hτ₁) hp
  have hsome : p.isSome = p'.isSome := by cases hp <;> rfl
  rw [← hsome]
  have hst : PassState.Alike τ₁ ⟨p, false, false⟩ ⟨p', false, false⟩ := ⟨hp', rfl, rfl⟩
  refine (disposeAll_twins hhost _ (List.forall₂_reverse_iff.mpr hrs) hst).bind fun τ₂ st st' hτ₂ hst => ?_
  refine (awaitAfter_twins hst).bind fun τ₃ _ _ hτ₃ _ => ?_
  exact (setRval_twins (hS.rval.mono (hτ₁.trans (hτ₂.trans hτ₃)))).bind fun τ₄ _ _ hτ₄ _ => .pure fun _ hχ =>
    Value.optAlike_mono ((hτ₃.trans hτ₄).trans hχ) hst.pending

theorem leave_twins (hhost : host.Blind same) :
    Twins same K.inner K.inner K.inner (fun _ _ _ => True) ρ (leave host kind) (leave host kind) := by
  refine (pass_twins hhost .none).bind fun τ p p' _ hp => ?_
  cases hp with
  | none => exact .pure fun _ _ => trivial
  | some he => exact .raise he

theorem leaveByThrow_twins (hhost : host.Blind same) {e e' : Value} (he : e.Alike ρ e') :
    Twins same K.inner K E Value.Alike ρ (leaveByThrow host kind e) (leaveByThrow host kind e') :=
  (pass_twins hhost (.some he)).bind fun _ _ _ _ hp => closeScope_twins.bind fun _ _ _ hτ _ =>
    .pure fun _ hχ => Value.optAlike_getD (Value.optAlike_mono (hτ.trans hχ) hp)

end

end Eval

/-! ### Bodies in scopes -/

/-- Statements are left alike. -/
inductive Exit.Alike (ρ : Pairing) : Exit → Exit → Prop
  | normal : Alike ρ .normal .normal
  | ret {v v' : Value} (h : v.Alike ρ v') : Alike ρ (.ret v) (.ret v')
  | breakTo (label : Option String) : Alike ρ (.breakTo label) (.breakTo label)
  | continueTo (label : Option String) : Alike ρ (.continueTo label) (.continueTo label)

namespace Exit.Alike

variable {x x' : Exit}

theorem mono (h : x.Alike ρ x') (hle : ρ ≤ τ) : x.Alike τ x' := by
  cases h with
  | normal => exact .normal
  | ret h => exact .ret (h.mono hle)
  | breakTo label => exact .breakTo label
  | continueTo label => exact .continueTo label

theorem isNormal_eq (h : x.Alike ρ x') : x.isNormal = x'.isNormal := by cases h <;> rfl

theorem continues_eq (h : x.Alike ρ x') (label : Option String) : x.continues label = x'.continues label := by
  cases h <;> rfl

theorem leaveLoop (h : x.Alike ρ x') (label : Option String) : (x.leaveLoop label).Alike ρ (x'.leaveLoop label) := by
  have hbreaks : x.breaks label = x'.breaks label := by cases h <;> rfl
  unfold Exit.leaveLoop
  rw [hbreaks]
  split
  · exact .normal
  · exact h

end Exit.Alike

namespace Eval

section

variable {host : Host σ} {K : Alignment} {kind : FunctionKind} {body body' : Eval σ Exit}

/-- How a scope is left that has a body behind it: with an exit, or by an exception. Behind the
end of a block, a second pass is made `again`. -/
def finish (host : Host σ) (kind : FunctionKind) (again : Bool) : Except Value Exit → Eval σ Exit
  | .ok x => do
    match ← attempt (leave host kind) with
    | .ok _ =>
      if again && x.isNormal then
        let _ ← pass host kind (some .undefined)
      closeScope
      return x
    | .error e => raise (← leaveByThrow host kind e)
  | .error e => do raise (← leaveByThrow host kind e)

theorem attempt_leave (f : Eval σ Exit) (g : Except Value Exit → Eval σ Exit) (again : Bool)
    (hok : ∀ x, g (.ok x) = do
      if again && x.isNormal then
        let _ ← pass host kind (some .undefined)
      closeScope
      return x)
    (herror : ∀ e, g (.error e) = do raise (← leaveByThrow host kind e)) :
    attempt (do let x ← f; leave host kind; return x) >>= g = attempt f >>= finish host kind again := by
  rw [attempt_bind_assoc]
  refine congrArg (attempt f >>= ·) (funext fun r => ?_)
  cases r with
  | error e => exact herror e
  | ok x =>
    show attempt (leave host kind >>= fun _ => Pure.pure x) >>= g = _
    rw [attempt_bind_assoc]
    refine congrArg (attempt (leave host kind) >>= ·) (funext fun r => ?_)
    cases r with
    | ok _ => exact hok x
    | error e => exact herror e

theorem inScope_eq (body : Eval σ Exit) :
    inScope host kind body = (openScope >>= fun _ => attempt body >>= finish host kind true) := by
  refine congrArg (openScope >>= ·) (funext fun _ => attempt_leave body _ true ?_ ?_)
  · exact fun _ => rfl
  · exact fun _ => rfl

theorem roundInScope_eq (v : Value) (hint : Hint) (body : Eval σ Exit) : roundInScope host kind v hint body =
    (openScope >>= fun _ => attempt (do register v hint; body) >>= finish host kind false) := by
  refine congrArg (openScope >>= ·) (funext fun _ => ?_)
  show attempt (register v hint >>= fun _ => body >>= fun x => _) >>= _ = _
  rw [← bind_assoc]
  refine attempt_leave (do register v hint; body) _ false ?_ ?_
  · exact fun _ => rfl
  · exact fun _ => rfl

theorem finish_twins (hhost : host.Blind same) (again : Bool) {r r' : Except Value Exit}
    (h : Value.ResultAlike Exit.Alike ρ r r') :
    Twins same K.inner K K Exit.Alike ρ (finish host kind again r) (finish host kind again r') := by
  have hthrow {τ : Pairing} {e e' : Value} (he : e.Alike τ e') : Twins same K.inner K K Exit.Alike τ
      (do raise (← leaveByThrow host kind e)) (do raise (← leaveByThrow host kind e')) :=
    (leaveByThrow_twins hhost he).bind fun _ _ _ _ he => .raise he
  cases h with
  | error he => exact hthrow he
  | @ok x x' hx =>
    refine (leave_twins hhost).attempt_bind (fun τ _ _ hτ _ => ?_) fun _ _ _ _ he => hthrow he
    have hclose {τ₁ : Pairing} (hτ₁ : τ ≤ τ₁) : Twins same K.inner K K Exit.Alike τ₁
        (do closeScope; return x : Eval σ Exit) (do closeScope; return x') :=
      closeScope_twins.bind fun _ _ _ hle _ => .pure fun _ hle' => hx.mono ((hτ.trans hτ₁).trans (hle.trans hle'))
    show Twins same K.inner K K Exit.Alike τ
      (if (again && x.isNormal) = true then pass host kind (some .undefined) >>= fun _ => do closeScope; return x
        else do closeScope; return x)
      (if (again && x'.isNormal) = true then pass host kind (some .undefined) >>= fun _ => do closeScope; return x'
        else do closeScope; return x')
    rw [← hx.isNormal_eq]
    split
    · exact (pass_twins hhost (.some .undefined)).bind fun _ _ _ hle _ => hclose hle
    · exact hclose (le_refl _)

theorem inScope_twins (hhost : host.Blind same)
    (h : Twins same K.inner K.inner K.inner Exit.Alike ρ body body') :
    Twins same K K K Exit.Alike ρ (inScope host kind body) (inScope host kind body') := by
  rw [inScope_eq, inScope_eq]
  exact openScope_inner.bind fun _ _ _ hτ _ => (h.mono hτ).attempt_bind
    (fun _ _ _ _ hx => finish_twins hhost true (.ok hx)) fun _ _ _ _ he => finish_twins hhost true (.error he)

theorem roundInScope_twins (hhost : host.Blind same) {v v' : Value} (hv : v.Alike ρ v') (hint : Hint)
    (h : Twins same K.inner K.inner K.inner Exit.Alike ρ body body') :
    Twins same K K K Exit.Alike ρ (roundInScope host kind v hint body)
      (roundInScope host kind v' hint body') := by
  rw [roundInScope_eq, roundInScope_eq]
  refine openScope_inner.bind fun τ _ _ hτ _ => ?_
  have hbody := (register_twins hhost (K.inner_registers hint) (hv.mono hτ)).bind fun _ _ _ hle _ =>
    h.mono (hτ.trans hle)
  exact hbody.attempt_bind (fun _ _ _ _ hx => finish_twins hhost false (.ok hx)) fun _ _ _ _ he =>
    finish_twins hhost false (.error he)

/-! ### Loops -/

theorem whileLoop_twins (label : Option String) {cond cond' : Eval σ Value}
    (hcond : Twins same K K K Value.Alike ρ cond cond') (hbody : Twins same K K K Exit.Alike ρ body body') :
    ∀ {τ : Pairing} (n : Nat), ρ ≤ τ →
      Twins same K K K Exit.Alike τ (whileLoop label cond body n) (whileLoop label cond' body' n)
  | _, 0, _ => .spent
  | τ, n + 1, hτ => by
    rw [whileLoop, whileLoop]
    refine (hcond.mono hτ).bind fun τ₁ v v' hτ₁ hv => ?_
    rw [hv.isTruthy_eq]
    split
    · refine (hbody.mono (hτ.trans hτ₁)).bind fun τ₂ x x' hτ₂ hx => ?_
      rw [hx.continues_eq label]
      split
      · exact whileLoop_twins label hcond hbody n (hτ.trans (hτ₁.trans hτ₂))
      · exact .pure fun _ hle => (hx.leaveLoop label).mono hle
    · exact .pure fun _ _ => .normal

theorem forLoop_twins (label : Option String) (id : Nat) {round round' : Value → Eval σ Exit}
    (hround : ∀ τ v v', ρ ≤ τ → v.Alike τ v' → Twins same K K K Exit.Alike τ (round v) (round' v')) :
    ∀ {τ : Pairing} (n : Nat), ρ ≤ τ →
      Twins same K K K Exit.Alike τ (forLoop label id round n) (forLoop label id round' n)
  | _, 0, _ => .spent
  | τ, n + 1, hτ => by
    rw [forLoop, forLoop]
    refine (nextItem_twins id).bind fun τ₁ item item' hτ₁ hitem => ?_
    cases hitem with
    | none => exact .pure fun _ _ => .normal
    | @some v v' hv =>
      refine (hround τ₁ v v' (hτ.trans hτ₁) hv).attempt_bind (fun τ₂ x x' hτ₂ hx => ?_) fun τ₂ e e' _ he => ?_
      · show Twins same K K K Exit.Alike τ₂ (if x.continues label = true then _ else _)
          (if x'.continues label = true then _ else _)
        rw [hx.continues_eq label]
        split
        · exact forLoop_twins label id hround n (hτ.trans (hτ₁.trans hτ₂))
        · exact (leaveIterator_twins id).bind fun _ _ _ hle _ => .pure fun _ hle' =>
            (hx.leaveLoop label).mono (hle.trans hle')
      · exact (closeIterator_twins id).bind fun _ _ _ hle _ => .raise (he.mono hle)

theorem block_twins (hhost : host.Blind same) {disposes : Bool}
    (h : ∀ K₁ : Alignment, (disposes = true → ∀ hint, K₁.Registers hint) →
      Twins same K₁ K₁ K₁ Exit.Alike ρ body body') :
    Twins same K K K Exit.Alike ρ (block host kind disposes body) (block host kind disposes body') := by
  cases disposes with
  | true => exact inScope_twins hhost (h K.inner fun _ => K.inner_registers)
  | false => exact h K fun h => Bool.noConfusion h

end

end Eval

/-! ### Expressions -/

mutual

/-- Whether an expression reads a binding of this name. -/
def Expr.reads (name : String) : Expr → Bool
  | .binding x => x == name
  | .call callee args => callee.reads name || Expr.readsAny name args
  | .await e | .yield e => e.reads name
  | _ => false

/-- Whether one of several expressions reads a binding of this name. -/
def Expr.readsAny (name : String) : List Expr → Bool
  | [] => false
  | e :: es => e.reads name || Expr.readsAny name es

end

/-- Bindings hold what is alike under the names in `N`. -/
def Bindings.Alike (N : String → Prop) (ρ : Pairing) (env env' : Bindings) : Prop :=
  ∀ name, N name → Option.Rel (Value.Alike ρ) (env.lookup name) (env'.lookup name)

namespace Bindings.Alike

variable {N : String → Prop} {env env' : Bindings} {v v' : Value}

theorem mono (h : env.Alike N ρ env') (hle : ρ ≤ τ) : env.Alike N τ env' :=
  fun name hname => Value.optAlike_mono hle (h name hname)

theorem cons (h : env.Alike N ρ env') (name : String) (hv : v.Alike ρ v') :
    Bindings.Alike N ρ ((name, v) :: env) ((name, v') :: env') := fun x hx => by
  rw [List.lookup_cons, List.lookup_cons]
  cases x == name with
  | true => exact .some hv
  | false => exact h x hx

/-- A binding that nobody reads. -/
theorem skip (h : env.Alike N ρ env') {name : String} (hname : ¬ N name) :
    env.Alike N ρ ((name, v) :: env') := fun x hx => by
  have hne : (x == name) = false := by
    rw [beq_eq_false_iff_ne]
    rintro rfl
    exact hname hx
  rw [List.lookup_cons, hne]
  exact h x hx

theorem caught (h : env.Alike N ρ env') (param : Option String) (hv : v.Alike ρ v') :
    (env.caught param v).Alike N ρ (env'.caught param v') := by
  cases param with
  | none => exact h
  | some name => exact h.cons name hv

end Bindings.Alike

section

variable {host : Host σ} {N : String → Prop} {K : Alignment}

mutual

/-- An expression is its own twin, with bindings that are alike as far as it reads them. -/
theorem Expr.eval_twins (hhost : host.Blind same) : ∀ (e : Expr) {ρ : Pairing} {env env' : Bindings},
    (∀ x, e.reads x = true → N x) → env.Alike N ρ env' →
    Eval.Twins same K K K Value.Alike ρ (e.eval host env) (e.eval host env')
  | .undefined, _, _, _, _, _ => by
    rw [Expr.eval]
    exact .pure fun _ _ => .undefined
  | .null, _, _, _, _, _ => .pure fun _ _ => .primitive rfl
  | .bool b, _, _, _, _, _ => .pure fun _ _ => .bool b
  | .int n, _, _, _, _, _ => .pure fun _ _ => .int n
  | .str s, _, _, _, _, _ => .pure fun _ _ => .primitive rfl
  | .binding name, _, _, _, hreads, henv =>
    .pure fun _ hτ => Value.optAlike_getD ((henv.mono hτ) name (hreads name (by simp [Expr.reads])))
  | .global name, _, _, _, _, _ => by
    rw [Expr.eval, Expr.eval]
    refine Eval.get_twins (fun _ _ => rfl) (fun _ _ => rfl) fun τ S S' _ hS => ?_
    have hget : Option.Rel (Value.Alike τ) (S.globals.get? name) (S'.globals.get? name) :=
      Value.EntriesAlike.lookup hS.globals name
    generalize S.globals.get? name = v at hget
    generalize S'.globals.get? name = v' at hget
    cases hget with
    | none => exact Eval.raiseNew_twins hhost _ _
    | some hv => exact .pure fun _ hχ => hv.mono hχ
  | .call callee args, _, _, _, hreads, henv => by
    rw [Expr.eval, Expr.eval]
    refine (callee.eval_twins hhost (fun x hx => hreads x (by simp [Expr.reads, hx])) henv).bind
      fun τ f f' hτ hf => ?_
    refine (Expr.evalAll_twins hhost args (fun x hx => hreads x (by simp [Expr.reads, hx])) (henv.mono hτ)).bind
      fun τ₁ vs vs' hτ₁ hvs => ?_
    exact Eval.callValue_twins hhost .body (hf.mono hτ₁) .undefined hvs
  | .await e, _, _, _, hreads, henv => by
    rw [Expr.eval, Expr.eval]
    exact (e.eval_twins hhost hreads henv).bind fun _ _ _ _ hv => Eval.await_twins hv
  | .yield e, _, _, _, hreads, henv => by
    rw [Expr.eval, Expr.eval]
    exact (e.eval_twins hhost hreads henv).bind fun _ _ _ _ hv => Eval.yield_twins hv

theorem Expr.evalAll_twins (hhost : host.Blind same) : ∀ (es : List Expr) {ρ : Pairing} {env env' : Bindings},
    (∀ x, Expr.readsAny x es = true → N x) → env.Alike N ρ env' →
    Eval.Twins same K K K Value.AllAlike ρ (Expr.evalAll host es env) (Expr.evalAll host es env')
  | [], _, _, _, _, _ => by
    rw [Expr.evalAll, Expr.evalAll]
    exact .pure fun _ _ => .nil
  | e :: es, _, _, _, hreads, henv => by
    rw [Expr.evalAll, Expr.evalAll]
    refine (e.eval_twins hhost (fun x hx => hreads x (by simp [Expr.readsAny, hx])) henv).bind
      fun τ v v' hτ hv => ?_
    refine (Expr.evalAll_twins hhost es (fun x hx => hreads x (by simp [Expr.readsAny, hx])) (henv.mono hτ)).bind
      fun τ₁ vs vs' hτ₁ hvs => ?_
    exact .pure fun _ hχ => .cons (hv.mono (hτ₁.trans hχ)) (hvs.mono hχ)

end

end

/-! ### Statements -/

mutual

/-- Whether a statement reads a binding of this name. -/
def Stmt.reads (name : String) : Stmt → Bool
  | .expr e | .letIn _ e | .usingIn _ _ e | .throw e | .ret (some e) => e.reads name
  | .block body => Stmt.readsAny name body
  | .ifElse cond yes no => cond.reads name || Stmt.readsAny name yes || Stmt.readsAny name no
  | .whileLoop _ cond body => cond.reads name || Stmt.readsAny name body
  | .forOf _ _ _ iterable body => iterable.reads name || Stmt.readsAny name body
  | .tryCatch body _ handler => Stmt.readsAny name body || Stmt.readsAny name handler
  | .ret none | .breakLoop _ | .continueLoop _ => false

/-- Whether one of several statements reads a binding of this name. -/
def Stmt.readsAny (name : String) : List Stmt → Bool
  | [] => false
  | s :: ss => s.reads name || Stmt.readsAny name ss

end

/-- Whether a statement registers a resource with the scope that it stands in, with this hint. -/
def Stmt.registers (hint : Hint) : Stmt → Bool
  | .usingIn _ h _ => h == hint
  | _ => false

theorem Stmt.isUsing_of_registers {hint : Hint} {s : Stmt} (h : s.registers hint = true) : s.isUsing = true := by
  cases s with
  | usingIn name hint' init => rfl
  | _ => cases h

/-- What statements register themselves can be registered in scopes so aligned. -/
def Alignment.Takes (K : Alignment) (ss : List Stmt) : Prop :=
  ∀ s ∈ ss, ∀ hint, s.registers hint = true → K.Registers hint

theorem Alignment.takes_of_registers {K : Alignment} {ss : List Stmt}
    (h : ss.any Stmt.isUsing = true → ∀ hint, K.Registers hint) : K.Takes ss := fun s hs hint hregisters =>
  h (List.any_eq_true.mpr ⟨s, hs, Stmt.isUsing_of_registers hregisters⟩) hint

section

variable (host : Host σ) (kind : FunctionKind) (n : Nat)

/-- Execute statements in order, until one is left in another way than normally, and tell
which bindings the statements behind them see. -/
def Stmt.execThrough : List Stmt → Bindings → Eval σ (Exit × Bindings)
  | [], env => return (.normal, env)
  | s :: ss, env => do
    let (x, env) ← s.exec host kind n env
    if x.isNormal then execThrough ss env else return (x, env)

/-- Execute statements behind others. -/
def Stmt.goOn (ss : List Stmt) : Exit × Bindings → Eval σ Exit
  | (x, env) => if x.isNormal then Stmt.execAll host kind n ss env else return x

variable {host kind n}

theorem Stmt.execAll_append (ts ss : List Stmt) (env : Bindings) :
    Stmt.execAll host kind n (ss ++ ts) env = Stmt.execThrough host kind n ss env >>= Stmt.goOn host kind n ts := by
  induction ss generalizing env with
  | nil => rfl
  | cons s ss ih =>
    rw [List.cons_append, Stmt.execAll, Stmt.execThrough, bind_assoc]
    refine congrArg (s.exec host kind n env >>= ·) (funext fun l => ?_)
    obtain ⟨x, env⟩ := l
    show (if x.isNormal = true then _ else _) = (if x.isNormal = true then _ else _) >>= _
    split
    · exact ih env
    · rw [pure_bind, Stmt.goOn, if_neg ‹_›]

theorem Stmt.execAll_eq (ss : List Stmt) (env : Bindings) :
    Stmt.execAll host kind n ss env = Stmt.execThrough host kind n ss env >>= fun l => pure l.1 := by
  have happend : Stmt.execAll host kind n (ss ++ []) env = _ := Stmt.execAll_append [] ss env
  rw [List.append_nil] at happend
  rw [happend]
  refine congrArg (Stmt.execThrough host kind n ss env >>= ·) (funext fun l => ?_)
  obtain ⟨x, env⟩ := l
  cases x <;> rfl

end

section

variable {host : Host σ} {kind : FunctionKind} {n : Nat} {N : String → Prop}

/-- How a statement is left and what is bound behind it are alike. -/
def Stmt.LeftAlike (N : String → Prop) (ρ : Pairing) (l l' : Exit × Bindings) : Prop :=
  l.1.Alike ρ l'.1 ∧ l.2.Alike N ρ l'.2

theorem Eval.left_twins {K : Alignment} {m m' : Eval σ Exit} {env env' : Bindings} (henv : env.Alike N ρ env')
    (h : Eval.Twins same K K K Exit.Alike ρ m m') :
    Eval.Twins same K K K (Stmt.LeftAlike N) ρ (do let x ← m; return (x, env)) (do let x ← m'; return (x, env')) :=
  h.bind fun _ _ _ hτ hx => .pure fun _ hχ => ⟨hx.mono hχ, henv.mono (hτ.trans hχ)⟩

/-- Statements go on as twins where others were left alike. -/
theorem Stmt.goOn_twins {K K' E : Alignment} {ts ts' : List Stmt} {l l' : Exit × Bindings}
    (hl : Stmt.LeftAlike N ρ l l')
    (hts : Eval.Twins same K K' E Exit.Alike ρ (Stmt.execAll host kind n ts l.2) (Stmt.execAll host kind n ts' l'.2))
    (hleft : Eval.Twins same K K' E Exit.Alike ρ (pure l.1) (pure l'.1)) :
    Eval.Twins same K K' E Exit.Alike ρ (Stmt.goOn host kind n ts l) (Stmt.goOn host kind n ts' l') := by
  obtain ⟨x, env⟩ := l
  obtain ⟨x', env'⟩ := l'
  obtain ⟨hx, -⟩ := hl
  show Eval.Twins same K K' E Exit.Alike ρ (if x.isNormal = true then _ else _) (if x'.isNormal = true then _ else _)
  rw [hx.isNormal_eq]
  split
  · exact hts
  · exact hleft

/-- Statements are twins in scopes aligned as `K` says, with bindings that are alike under the names
in `N`. -/
def Stmt.Twins (same : Pairing → σ → σ → Prop) (host : Host σ) (kind : FunctionKind) (n : Nat)
    (N : String → Prop) (K : Alignment) (s s' : Stmt) : Prop :=
  ∀ {ρ : Pairing} {env env' : Bindings}, env.Alike N ρ env' →
    Eval.Twins same K K K (Stmt.LeftAlike N) ρ (s.exec host kind n env) (s'.exec host kind n env')

/-- Blocks are twins wherever they stand, with bindings that are alike under the names in `N`. -/
def Block.Twins (same : Pairing → σ → σ → Prop) (host : Host σ) (kind : FunctionKind) (n : Nat)
    (N : String → Prop) (b b' : List Stmt) : Prop :=
  ∀ {K : Alignment} {ρ : Pairing} {env env' : Bindings}, env.Alike N ρ env' → Eval.Twins same K K K Exit.Alike ρ
    (Eval.block host kind (b.any Stmt.isUsing) (Stmt.execAll host kind n b env))
    (Eval.block host kind (b'.any Stmt.isUsing) (Stmt.execAll host kind n b' env'))

/-! #### Statements made of twins -/

namespace Stmt

variable {K : Alignment} {b b' c c' : List Stmt}

theorem block_twins (h : Block.Twins same host kind n N b b') :
    Stmt.Twins same host kind n N K (.block b) (.block b') := fun henv => by
  rw [Stmt.exec, Stmt.exec]
  exact Eval.left_twins henv (h henv)

theorem ifElse_twins (hhost : host.Blind same) {cond : Expr} (hcond : ∀ x, cond.reads x = true → N x)
    (hyes : Block.Twins same host kind n N b b') (hno : Block.Twins same host kind n N c c') :
    Stmt.Twins same host kind n N K (.ifElse cond b c) (.ifElse cond b' c') := fun henv => by
  rw [Stmt.exec, Stmt.exec]
  refine (cond.eval_twins hhost hcond henv).bind fun τ v v' hτ hv => ?_
  show Eval.Twins same _ _ _ _ τ (if v.isTruthy = true then _ else _) (if v'.isTruthy = true then _ else _)
  rw [hv.isTruthy_eq]
  split
  · exact Eval.left_twins (henv.mono hτ) (hyes (henv.mono hτ))
  · exact Eval.left_twins (henv.mono hτ) (hno (henv.mono hτ))

theorem whileLoop_twins (hhost : host.Blind same) {label : Option String} {cond : Expr}
    (hcond : ∀ x, cond.reads x = true → N x) (hbody : Block.Twins same host kind n N b b') :
    Stmt.Twins same host kind n N K (.whileLoop label cond b) (.whileLoop label cond b') := fun henv => by
  rw [Stmt.exec, Stmt.exec]
  exact Eval.left_twins henv
    (Eval.whileLoop_twins label (cond.eval_twins hhost hcond henv) (hbody henv) n (le_refl _))

theorem forOf_twins (hhost : host.Blind same) {label : Option String} {binding : String} {hint : Option Hint}
    {iterable : Expr} (hiterable : ∀ x, iterable.reads x = true → N x)
    (hbody : Block.Twins same host kind n N b b') :
    Stmt.Twins same host kind n N K (.forOf label binding hint iterable b)
      (.forOf label binding hint iterable b') := fun henv => by
  rw [Stmt.exec, Stmt.exec]
  refine (iterable.eval_twins hhost hiterable henv).bind fun τ v v' hτ hv => ?_
  refine (Eval.iterate_twins hhost hv).bind fun τ₁ id id' hτ₁ hid => ?_
  subst hid
  refine Eval.left_twins (henv.mono (hτ.trans hτ₁)) (Eval.forLoop_twins label id (fun τ₂ w w' hτ₂ hw => ?_)
    n (le_refl _))
  have henv' := (henv.mono (hτ.trans (hτ₁.trans hτ₂))).cons binding hw
  cases hint with
  | none => exact hbody henv'
  | some hint => exact Eval.roundInScope_twins hhost hw hint (hbody henv')

/-- Both sides handle an exception, unless it is the signal that closes a generator. -/
theorem tryCatch_twins {param : Option String} (hbody : Block.Twins same host kind n N b b')
    (hhandler : Block.Twins same host kind n N c c') :
    Stmt.Twins same host kind n N K (.tryCatch b param c) (.tryCatch b' param c') := fun henv => by
  rw [Stmt.exec, Stmt.exec]
  refine (hbody henv).attempt_bind
    (fun τ x x' hτ hx => .pure fun _ hχ => ⟨hx.mono hχ, henv.mono (hτ.trans hχ)⟩) fun τ e e' hτ he => ?_
  show Eval.Twins same _ _ _ _ τ (if kind.isGenerator && e.isClosing then _ else _)
    (if kind.isGenerator && e'.isClosing then _ else _)
  rw [he.isClosing_eq]
  split
  · exact .raise he
  · exact Eval.left_twins (henv.mono hτ) (hhandler ((henv.mono hτ).caught param he))

end Stmt

/-! #### Statements are their own twins -/

mutual

/-- A statement is its own twin, with bindings that are alike as far as it reads them, in scopes
where it can register what it declares. -/
theorem Stmt.exec_twins (hhost : host.Blind same) : ∀ (s : Stmt) {K : Alignment},
    (∀ x, s.reads x = true → N x) → K.Takes [s] → Stmt.Twins same host kind n N K s s
  | .expr e, _, hreads, _, _, _, _, henv => by
    rw [Stmt.exec, Stmt.exec]
    exact (e.eval_twins hhost hreads henv).bind fun _ _ _ hτ _ => .pure fun _ hχ =>
      ⟨.normal, henv.mono (hτ.trans hχ)⟩
  | .letIn name init, _, hreads, _, _, _, _, henv => by
    rw [Stmt.exec, Stmt.exec]
    exact (init.eval_twins hhost hreads henv).bind fun _ _ _ hτ hv => .pure fun _ hχ =>
      ⟨.normal, (henv.mono (hτ.trans hχ)).cons name (hv.mono hχ)⟩
  | .usingIn name hint init, _, hreads, hK, _, _, _, henv => by
    rw [Stmt.exec, Stmt.exec]
    refine (init.eval_twins hhost hreads henv).bind fun τ v v' hτ hv => ?_
    have hregisters : Alignment.Registers _ hint :=
      hK (.usingIn name hint init) List.mem_cons_self hint (by simp [Stmt.registers])
    exact (Eval.register_twins hhost hregisters hv).bind fun _ _ _ hτ₁ _ => .pure fun _ hχ =>
      ⟨.normal, (henv.mono (hτ.trans (hτ₁.trans hχ))).cons name (hv.mono (hτ₁.trans hχ))⟩
  | .block body, _, hreads, _, _, _, _, henv => Stmt.block_twins (Block.twins_self hhost body hreads) henv
  | .ifElse cond yes no, _, hreads, _, _, _, _, henv =>
    Stmt.ifElse_twins hhost (fun x hx => hreads x (by simp [Stmt.reads, hx]))
      (Block.twins_self hhost yes fun x hx => hreads x (by simp [Stmt.reads, hx]))
      (Block.twins_self hhost no fun x hx => hreads x (by simp [Stmt.reads, hx])) henv
  | .whileLoop _ cond body, _, hreads, _, _, _, _, henv =>
    Stmt.whileLoop_twins hhost (fun x hx => hreads x (by simp [Stmt.reads, hx]))
      (Block.twins_self hhost body fun x hx => hreads x (by simp [Stmt.reads, hx])) henv
  | .forOf _ _ _ iterable body, _, hreads, _, _, _, _, henv =>
    Stmt.forOf_twins hhost (fun x hx => hreads x (by simp [Stmt.reads, hx]))
      (Block.twins_self hhost body fun x hx => hreads x (by simp [Stmt.reads, hx])) henv
  | .tryCatch body _ handler, _, hreads, _, _, _, _, henv =>
    Stmt.tryCatch_twins (Block.twins_self hhost body fun x hx => hreads x (by simp [Stmt.reads, hx]))
      (Block.twins_self hhost handler fun x hx => hreads x (by simp [Stmt.reads, hx])) henv
  | .throw e, _, hreads, _, _, _, _, henv => by
    rw [Stmt.exec, Stmt.exec]
    exact (e.eval_twins hhost hreads henv).bind fun _ _ _ _ hv => Eval.signal_twins hv
  | .ret (some e), _, hreads, _, _, _, _, henv => by
    rw [Stmt.exec, Stmt.exec]
    refine (e.eval_twins hhost hreads henv).bind fun τ v v' hτ hv => ?_
    exact (Eval.returnValue_twins hv).bind fun _ _ _ hτ₁ _ => .pure fun _ hχ =>
      ⟨.ret (hv.mono (hτ₁.trans hχ)), henv.mono (hτ.trans (hτ₁.trans hχ))⟩
  | .ret none, _, _, _, _, _, _, henv => by
    rw [Stmt.exec, Stmt.exec]
    exact (Eval.returnValue_twins .undefined).bind fun _ _ _ hτ _ => .pure fun _ hχ =>
      ⟨.ret .undefined, henv.mono (hτ.trans hχ)⟩
  | .breakLoop label, _, _, _, _, _, _, henv => by
    rw [Stmt.exec, Stmt.exec]
    exact .pure fun _ hτ => ⟨.breakTo label, henv.mono hτ⟩
  | .continueLoop label, _, _, _, _, _, _, henv => by
    rw [Stmt.exec, Stmt.exec]
    exact .pure fun _ hτ => ⟨.continueTo label, henv.mono hτ⟩

/-- Statements in a row are their own twins. -/
theorem Stmt.execThrough_twins (hhost : host.Blind same) : ∀ (ss : List Stmt) {K : Alignment} {ρ : Pairing}
    {env env' : Bindings}, (∀ x, Stmt.readsAny x ss = true → N x) → K.Takes ss → env.Alike N ρ env' →
    Eval.Twins same K K K (Stmt.LeftAlike N) ρ (Stmt.execThrough host kind n ss env)
      (Stmt.execThrough host kind n ss env')
  | [], _, _, _, _, _, _, henv => .pure fun _ hτ => ⟨.normal, henv.mono hτ⟩
  | s :: ss, _, _, _, _, hreads, hK, henv => by
    rw [Stmt.execThrough, Stmt.execThrough]
    refine (s.exec_twins hhost (fun x hx => hreads x (by simp [Stmt.readsAny, hx]))
      (fun s' hs' => hK s' (by simp_all)) henv).bind fun τ l l' hτ hl => ?_
    obtain ⟨x, env₁⟩ := l
    obtain ⟨x', env₁'⟩ := l'
    obtain ⟨hx, henv₁⟩ := hl
    show Eval.Twins same _ _ _ _ τ (if x.isNormal = true then _ else _) (if x'.isNormal = true then _ else _)
    rw [hx.isNormal_eq]
    split
    · exact Stmt.execThrough_twins hhost ss (fun x hx => hreads x (by simp [Stmt.readsAny, hx]))
        (fun s' hs' => hK s' (List.mem_cons_of_mem _ hs')) henv₁
    · exact .pure fun _ hχ => ⟨hx.mono hχ, henv₁.mono hχ⟩

/-- A block is its own twin. -/
theorem Block.twins_self (hhost : host.Blind same) (body : List Stmt)
    (hreads : ∀ x, Stmt.readsAny x body = true → N x) : Block.Twins same host kind n N body body := fun henv => by
  refine Eval.block_twins hhost fun K₁ hK₁ => ?_
  rw [Stmt.execAll_eq, Stmt.execAll_eq]
  exact (Stmt.execThrough_twins hhost body hreads (Alignment.takes_of_registers hK₁) henv).bind fun _ _ _ _ hl =>
    .pure fun _ hχ => hl.1.mono hχ

end

theorem Stmt.execAll_twins (hhost : host.Blind same) (ss : List Stmt) {K : Alignment} {env env' : Bindings}
    (hreads : ∀ x, Stmt.readsAny x ss = true → N x) (hK : K.Takes ss) (henv : env.Alike N ρ env') :
    Eval.Twins same K K K Exit.Alike ρ (Stmt.execAll host kind n ss env) (Stmt.execAll host kind n ss env') := by
  rw [Stmt.execAll_eq, Stmt.execAll_eq]
  exact (Stmt.execThrough_twins hhost ss hreads hK henv).bind fun _ _ _ _ hl => .pure fun _ hχ => hl.1.mono hχ

end

end ResourceMachine
