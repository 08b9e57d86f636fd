/-
# Disposal while a generator is closed

A generator that is closed disposes with the closing signal pending; one that returns disposes with
nothing pending. Both call the same methods and wait for the same. If a method throws, the signal
gives way to the exception, and then the same is pending on both sides. The one that returns makes a
second pass with that, for which nothing is left.

Key definitions: `Eval.Pending`, `Alignment.emptied`, `Exit.Returns`.
Key theorems: `Eval.disposeAll_abreast`, `Eval.pass_abreast`, `Eval.finish_departs`.
-/
import ResourceMachine.Proofs.Departure

namespace ResourceMachine

variable {σ : Type} {same : Pairing → σ → σ → Prop} {ρ τ : Pairing} {host : Host σ} {kind : FunctionKind}

/-- Both calls have one scope more, and nothing is registered there. -/
def Alignment.emptied (K : Alignment) : Alignment where
  fits ρ cs ds := ∃ cs' ds', cs = .empty :: cs' ∧ ds = .empty :: ds' ∧ K.fits ρ cs' ds'
  mono := by
    rintro ρ ρ' cs ds hle ⟨cs', ds', rfl, rfl, hfits⟩
    exact ⟨cs', ds', rfl, rfl, K.mono hle hfits⟩

/-- No scopes are so aligned. -/
def Alignment.never : Alignment where
  fits _ _ _ := False
  mono _ h := h

/-- A statement is left with a return of what is alike. -/
def Exit.Returns (ρ : Pairing) (v : Value) (x : Exit) : Prop := ∃ w, x = .ret w ∧ v.Alike ρ w

/-- Who waits for a value gets no closing signal unless a reply throws it. -/
theorem Suspension.accept_await_open (v : Value) {a : Answer} (h : a ≠ .throw .closing) :
    ((Suspension.await v).accept a).result ≠ .error .closing := by
  cases a with
  | next w => cases v <;> simp [Suspension.accept, Answer.result]
  | ret w => cases v <;> simp [Suspension.accept, Answer.result]
  | throw e =>
    have hne : e ≠ .closing := by simpa using h
    cases v <;> simp [Suspension.accept, Answer.result, hne]

namespace Eval

/-! ### What is pending -/

/-- What is pending where a generator is closed and where it returns: the closing signal and nothing,
or what is alike and is not the closing signal. -/
inductive Pending (ρ : Pairing) : Option Value → Option Value → Prop
  | untouched : Pending ρ (some .closing) none
  | thrown {e e' : Value} (h : e.Alike ρ e') (ne : e ≠ .closing) : Pending ρ (some e) (some e')

/-- Passes have got equally far, the left one since a generator is closed. -/
structure PassState.Parted (ρ : Pairing) (st st' : PassState) : Prop where
  pending : Pending ρ st.pending st'.pending
  needsAwait : st.needsAwait = st'.needsAwait
  hasAwaited : st.hasAwaited = st'.hasAwaited

theorem Pending.mono {p p' : Option Value} (h : Pending ρ p p') (hle : ρ ≤ τ) : Pending τ p p' := by
  cases h with
  | untouched => exact .untouched
  | thrown he hne => exact .thrown (he.mono hle) hne

theorem PassState.Parted.mono {st st' : PassState} (h : st.Parted ρ st') (hle : ρ ≤ τ) : st.Parted τ st' :=
  ⟨h.pending.mono hle, h.needsAwait, h.hasAwaited⟩

section

variable {K E : Alignment}

theorem callValue_open (hclosing : host.Unclosing) (origin : Origin) (callee receiver : Value) (args : List Value) :
    Open (callValue host origin callee receiver args) := fun _ h => callValue_ne_closing hclosing h

theorem await_open (v : Value) : Open (await v : Eval σ Value) := fun {S T e} hscript h => by
  have hsuspend : suspend (.await v) { S with rval := v } = .error (.thrown e) T := h
  cases hS : S.script with
  | nil =>
    unfold suspend at hsuspend
    rw [hS] at hsuspend
    cases hsuspend
  | cons r rest =>
    have hr : r.Unclosing := hscript r (by rw [hS]; exact List.mem_cons_self)
    rw [suspend_apply (r := r) (show CallState.script { S with rval := v } = r :: rest from hS)] at hsuspend
    have hresult := Suspension.accept_await_open v hr
    generalize ((Suspension.await v).accept r.answer).result = result at hsuspend hresult
    cases result with
    | ok w => cases hsuspend
    | error e' =>
      cases hsuspend
      rintro rfl
      exact hresult rfl

/-- What is pending when a method has thrown, the signal having given way. -/
theorem chain_parted (hhost : host.Blind same) {p p' : Option Value} (hp : Pending ρ p p') {e e' : Value}
    (he : e.Alike ρ e') (hne : e ≠ .closing) :
    Twins same K K E (fun ρ v v' => v.Alike ρ v' ∧ v ≠ .closing) ρ (chain true p e : Eval σ Value)
      (chain false p' e') := by
  have hkeeps (p : Option Value) (S : CallState σ) (v : Value) (T : CallState σ) (h : chain true p e S = .ok v T) :
      v ≠ .closing := by
    obtain ⟨w, k, hchain, hw⟩ := chain_steady true p e S
    have hchain := hchain []
    rw [CallState.more_nil, h] at hchain
    cases hchain
    exact hw hne
  cases hp with
  | untouched => exact .pure fun _ hτ => ⟨he.mono hτ, hne⟩
  | @thrown q q' hq hq' =>
    have hq'' : q' ≠ .closing := by
      rintro rfl
      have := hq.isClosing_eq
      cases q <;> simp_all [Value.isClosing]
    have hunwrap : (chain false (some q') e' : Eval σ Value) = chain true (some q') e' :=
      chain_unwrap (by simpa using hq'') e'
    rw [hunwrap]
    exact (chain_twins hhost true (.some hq) he).and_left (hkeeps (some q))

/-! ### Passes -/

theorem callMethod_abreast (hhost : host.Blind same) (hclosing : host.Unclosing) {r r' : Resource} (hr : r.Alike ρ r')
    {method method' : Value} (hmethod : method.Alike ρ method') {st st' : PassState} (hst : st.Parted ρ st') :
    Abreast same K K E PassState.Parted ρ (callMethod host true r method st)
      (callMethod host false r' method' st') := by
  have hchained {χ : Pairing} {e e' : Value} (hχ : ρ ≤ χ) (he : e.Alike χ e') (hne : e ≠ .closing)
      {awaited awaited' : Bool} (hawaited : awaited = awaited') : Twins same K K E PassState.Parted χ
      (do return { st with pending := some (← chain true st.pending e), hasAwaited := awaited } : Eval σ PassState)
      (do return { st' with pending := some (← chain false st'.pending e'), hasAwaited := awaited' }) :=
    (chain_parted hhost (hst.mono hχ).pending he hne).bind fun _ _ _ _ hp => .pure fun _ hle =>
      ⟨.thrown (hp.1.mono hle) hp.2, hst.needsAwait, hawaited⟩
  unfold callMethod
  refine (callValue_twins hhost .pass hmethod hr.value .nil).attempt_bind_open (callValue_open hclosing _ _ _ _)
    (fun χ v v' hχ hv => ?_) fun χ e e' hχ he hne => (hchained hχ he hne hst.hasAwaited).abreast
  rw [← hr.hint]
  cases r.hint with
  | sync => exact .pure fun _ hle => hst.mono (hχ.trans hle)
  | async =>
    refine (await_twins hv).attempt_bind_open (await_open v) (fun χ₁ _ _ hχ₁ _ => ?_) fun χ₁ e e' hχ₁ he hne => ?_
    · exact .pure fun _ hle => ⟨(hst.mono ((hχ.trans hχ₁).trans hle)).pending, hst.needsAwait, rfl⟩
    · exact (hchained (hχ.trans hχ₁) he hne (Eq.refl true)).abreast

theorem awaitBefore_parted {r r' : Resource} (hr : r.Alike ρ r') {st st' : PassState} (hst : st.Parted ρ st') :
    Twins same K K E PassState.Parted ρ (awaitBefore r st : Eval σ PassState) (awaitBefore r' st') := by
  obtain ⟨p, needsAwait, hasAwaited⟩ := st
  obtain ⟨p', needsAwait', hasAwaited'⟩ := st'
  obtain ⟨hp, rfl, rfl⟩ := hst
  unfold awaitBefore
  rw [← hr.hint]
  split
  · exact tick_twins.bind fun χ _ _ hχ _ => .pure fun _ hle => ⟨hp.mono (hχ.trans hle), rfl, rfl⟩
  · exact .pure fun _ hle => ⟨hp.mono hle, rfl, rfl⟩

theorem awaitAfter_parted {st st' : PassState} (hst : st.Parted ρ st') :
    Twins same K K E (fun _ _ _ => True) ρ (awaitAfter st : Eval σ Unit) (awaitAfter st') := by
  unfold awaitAfter
  rw [← hst.needsAwait, ← hst.hasAwaited]
  split
  · exact tick_twins
  · exact .pure fun _ _ => trivial

theorem disposeOne_abreast (hhost : host.Blind same) (hclosing : host.Unclosing) {r r' : Resource} (hr : r.Alike ρ r')
    {st st' : PassState} (hst : st.Parted ρ st') :
    Abreast same K K E PassState.Parted ρ (disposeOne host true r st) (disposeOne host false r' st') := by
  unfold disposeOne
  refine (awaitBefore_parted hr hst).bind_abreast fun χ st st' hχ hst => ?_
  have hmethod := method?_alike hr
  generalize r.method? = m at hmethod
  generalize r'.method? = m' at hmethod
  cases hmethod with
  | some hm => exact callMethod_abreast hhost hclosing (hr.mono hχ) (hm.mono hχ) hst
  | none => exact .pure fun _ hle => ⟨hst.pending.mono hle, rfl, hst.hasAwaited⟩

theorem disposeAll_abreast (hhost : host.Blind same) (hclosing : host.Unclosing) :
    ∀ {ρ : Pairing} {rs rs' : List Resource} {st st' : PassState}, List.Forall₂ (Record.Alike ρ) rs rs' →
    st.Parted ρ st' → Abreast same K K E PassState.Parted ρ (disposeAll host true rs st) (disposeAll host false rs' st')
  | _, _, _, _, _, .nil, hst => .pure fun _ hle => hst.mono hle
  | _, _, _, _, _, @List.Forall₂.cons _ _ _ _ _ rs rs' hr hrs, hst => by
    rw [disposeAll, disposeAll]
    exact (disposeOne_abreast hhost hclosing hr hst).bind (fun χ _ _ hχ hst =>
      disposeAll_abreast hhost hclosing (hrs.imp fun _ _ h => h.mono hχ) hst) (disposeAll_grows host true rs)
      (disposeAll_grows host false rs')

theorem takeResources_emptied :
    Twins same K.inner K.emptied E (fun ρ => List.Forall₂ (Record.Alike ρ)) ρ
      (takeResources : Eval σ (List Resource)) takeResources := by
  refine .of_give fun {τ S S'} _ hS => ?_
  obtain ⟨c, cs, d, ds, hcs, hds, hcd, hfits⟩ := hS.scopes
  have hleft (s : List (Reply σ)) := takeResources_apply (S := S.more s) hcs
  have hright (s : List (Reply σ)) := takeResources_apply (S := S'.more s) hds
  have htaken := hS.unseen (E := K.emptied) (.taken S c cs) (.taken S' d ds) ⟨cs, ds, rfl, rfl, hfits⟩
  exact ⟨τ, .ok _, S.taken c cs, .ok _, S'.taken d ds, le_refl _, hleft, hright, .ok hcd htaken⟩

/-- Passes over scopes that have registered alike, with the closing signal pending and with nothing. -/
theorem pass_abreast (hhost : host.Blind same) (hclosing : host.Unclosing) (hkind : kind.isGenerator = true) :
    Abreast same K.inner K.emptied E Pending ρ (pass host kind (some .closing)) (pass host kind none) := by
  refine Abreast.of_get (fun _ _ => rfl) (fun _ _ => rfl) fun τ S S' hτ hS => ?_
  refine takeResources_emptied.bind_abreast fun τ₁ rs rs' hτ₁ hrs => ?_
  rw [hkind]
  have hend {v : Value} (st : PassState) : Within Grows (do
      awaitAfter st
      setRval v
      return st.pending : Eval σ (Option Value)) := by
    refine .bind Grows.stable ?_ fun _ =>
      .bind Grows.stable ((setRval_quiet _).mono Quiet.grows) fun _ => .pure Grows.stable _
    unfold awaitAfter
    split
    · exact tick_quiet.mono Quiet.grows
    · exact .pure Grows.stable _
  have hst : PassState.Parted τ₁ ⟨some .closing, false, false⟩ ⟨none, false, false⟩ := ⟨.untouched, rfl, rfl⟩
  refine (disposeAll_abreast hhost hclosing (List.forall₂_reverse_iff.mpr hrs) hst).bind
    (fun τ₂ st st' hτ₂ hst => ?_) hend hend
  refine (awaitAfter_parted hst).bind_abreast fun τ₃ _ _ hτ₃ _ => ?_
  exact (setRval_twins (hS.rval.mono (hτ₁.trans (hτ₂.trans hτ₃)))).bind_abreast fun τ₄ _ _ hτ₄ _ => .pure fun _ hle =>
    hst.pending.mono ((hτ₃.trans hτ₄).trans hle)

/-! ### How scopes are left -/

/-- A scope in which nothing is left is closed, and an exception is thrown again. -/
theorem leaveByThrow_of_empty {S : CallState σ} {cs : List Capability} (h : S.scopes = .empty :: cs) (e : Value)
    (s : List (Reply σ)) : leaveByThrow host kind e (S.more s) = .ok e ((S.outside 1 cs).more s) := by
  have hclose : closeScope ((S.used 1).more s) = .ok () ((S.outside 1 cs).more s) :=
    closeScope_apply (S := (S.used 1).more s) h
  exact (bind_of_ok (pass_of_empty h (some e) s)).trans ((bind_of_ok hclose).trans rfl)

/-- What comes behind a pass that was made because of an exception. -/
def closeByThrow (pending : Option Value) : Eval σ Exit := do
  closeScope
  raise (pending.getD .undefined)

/-- What comes behind a pass that was made on the way out. -/
def closeByExit (host : Host σ) (kind : FunctionKind) (x : Exit) : Except Value (Option Value) → Eval σ Exit
  | .ok none => do
    closeScope
    return x
  | .ok (some e) | .error e => do raise (← leaveByThrow host kind e)

theorem finish_error (again : Bool) (e : Value) : (finish host kind again (.error e) : Eval σ Exit) =
    attempt (pass host kind (some e)) >>= orRaise closeByThrow := by
  have hleave : (leaveByThrow host kind e >>= raise : Eval σ Exit) = pass host kind (some e) >>= closeByThrow := by
    unfold leaveByThrow
    rw [bind_assoc]
    exact congrArg (pass host kind (some e) >>= ·) (funext fun p => bind_assoc _ _ _)
  exact hleave.trans (bind_eq_attempt _ _)

theorem finish_ok (again : Bool) {x : Exit} (hx : x.isNormal = false) : (finish host kind again (.ok x) : Eval σ Exit) =
    attempt (pass host kind none) >>= closeByExit host kind x := by
  refine (attempt_bind_assoc (pass host kind none) _ _).trans ?_
  refine congrArg (attempt (pass host kind none) >>= ·) (funext fun r => ?_)
  cases r with
  | error e => rfl
  | ok p =>
    cases p with
    | some e => rfl
    | none =>
      show (if (again && x.isNormal) = true then _ else _ : Eval σ Exit) = _
      rw [hx, Bool.and_false, if_neg Bool.false_ne_true]
      rfl

theorem closeByThrow_grows (pending : Option Value) : Within Grows (closeByThrow pending : Eval σ Exit) :=
  .bind Grows.stable closeScope_grows fun _ => raise_grows _

theorem closeByExit_grows (x : Exit) : ∀ r, Within Grows (closeByExit host kind x r)
  | .ok none => .bind Grows.stable closeScope_grows fun _ => .pure Grows.stable _
  | .ok (some e) | .error e => .bind Grows.stable (leaveByThrow_grows host kind e) raise_grows

/-- The scope of a generator that is closed, and of one that returns. -/
theorem finish_departs {P : Pairing → Exit → Exit → Prop} (hhost : host.Blind same) (hclosing : host.Unclosing)
    (hkind : kind.isGenerator = true) (again : Bool) : Departs same K.inner K Exit.Returns P Exit.Returns
      (finish host kind again (.error .closing)) fun x' => finish host kind again (.ok x') := by
  rintro n τ T T' _ ⟨w, rfl, hw⟩ hT hn
  have hnormal : (Exit.ret w).isNormal = false := rfl
  show Kin same _ (finish host kind again (.ok (.ret w))) _ _ _ _ _ _
  rw [finish_error, finish_ok again hnormal]
  have hkept (s : List (Reply σ)) (r : Except Value (Option Value)) (U : CallState σ)
      (h : pass host kind (some .closing) (T.more s) = give r U) :
      ∀ p, r = .ok p → U.rval = T.rval ∧ n ≤ U.trace.length := by
    rintro p rfl
    have hgrows : Grows (T.more s) U := (pass_grows host kind (some .closing)).of_ok h
    have hrval : U.rval = (T.more s).rval := pass_rval h
    exact ⟨hrval, Nat.le_trans hn hgrows.length_le⟩
  have hpass := (pass_abreast (E := .never) hhost hclosing hkind (some n) τ T T' (le_refl τ) hT).and_left hkept
  refine hpass.attempt_bind (fun now χ r U r' U' hle ⟨⟨hnow, hlands⟩, hkept⟩ => ?_) (orRaise_grows closeByThrow_grows)
    (closeByExit_grows _)
  rw [hnow]
  cases hlands with
  | error _ calls => exact calls.scopes.elim
  | @ok p p' _ _ hp calls =>
    obtain ⟨hrval, hgrown⟩ := hkept p rfl
    obtain ⟨cs, ds, hcs, hds, hfits⟩ := calls.scopes
    have hclose (s : List (Reply σ)) : closeScope (U.more s) = .ok () ((U.outside 0 cs).more s) :=
      closeScope_apply (S := U.more s) hcs
    have hthrow (e : Value) (s : List (Reply σ)) :
        closeByThrow (some e) (U.more s) = .error (.thrown e) ((U.outside 0 cs).more s) :=
      (bind_of_ok (hclose s)).trans rfl
    cases hp with
    | untouched =>
      have hclose' (s : List (Reply σ)) : closeScope (U'.more s) = .ok () ((U'.outside 0 ds).more s) :=
        closeScope_apply (S := U'.more s) hds
      refine .at_once (.error .closing) (.ok (.ret w)) (U.outside 0 cs) (U'.outside 0 ds) (le_refl χ) (hthrow .closing)
        (hthrow .closing) (fun s => (bind_of_ok (hclose' s)).trans rfl)
        (.parted ⟨w, rfl, ?_⟩ (calls.unseen (.outside U 0 cs) (.outside U' 0 ds) hfits) ?_)
      · rw [show (U.outside 0 cs).rval = T.rval from hrval]
        exact hw.mono hle
      · exact Nat.le_trans hgrown (by simp [CallState.outside])
    | @thrown e e' he hne =>
      -- the right call makes a second pass, with nothing left to dispose
      exact .at_once (.error e) (.error e') (U.outside 0 cs) (U'.outside 1 ds) (le_refl χ) (hthrow e) (hthrow e)
        (fun s => (bind_of_ok (leaveByThrow_of_empty hds e' s)).trans rfl)
        (.lands (.error he (calls.unseen (.outside U 0 cs) (.outside U' 1 ds) hfits)))

end

end Eval
end ResourceMachine
