/-
# What an evaluation comes to

On its way, an evaluation executes statements, each with the bindings that it sees, and
chains what a dispose method throws to what is pending. To which of these points it comes,
and in which state, is told by walking over the syntax just as the evaluation does
(`Stmt.trail`). What no part of an evaluation breaks holds at all of them
(`Declaration.trail_kept`).

Key definitions: `Point`, `Trail`, `Stmt.trail`, `Declaration.trail`, `Invariant.At`.
Key theorems: `Stmt.trail_comes`, `Declaration.trail_kept`.
-/
import ResourceMachine.Proofs.EvaluationInvariant

namespace ResourceMachine

/-! ### Points -/

/-- What an evaluation can come to: a statement with the bindings that it sees, the bindings
behind the last of several statements, or what a method has thrown, to be chained to what is
pending. -/
inductive Point where
  | statement (s : Stmt) (ρ : Bindings)
  | behind (ρ : Bindings)
  | chaining (unwrapClosing : Bool) (pending : Option Value) (e : Value)

/-- The points to which an evaluation comes that starts in a state, and the states there. -/
abbrev Trail (σ : Type) := CallState σ → Point → CallState σ → Prop

namespace Trail

variable {σ α : Type}

/-- To nothing. -/
def empty : Trail σ := fun _ _ _ => False

/-- To a point at once. -/
def here (p : Point) : Trail σ := fun S p' S' => p' = p ∧ S' = S

/-- To the points of both. -/
def both (T T' : Trail σ) : Trail σ := fun S p S' => T S p S' ∨ T' S p S'

/-- To the points that come after an evaluation. -/
def after (m : Eval σ α) (T : α → Trail σ) : Trail σ := fun S p S' =>
  ∃ a S₁, m S = .ok a S₁ ∧ T a S₁ p S'

/-- To the points that come after an evaluation has thrown. -/
def caught (m : Eval σ α) (T : Value → Trail σ) : Trail σ := fun S p S' =>
  ∃ e S₁, m S = .error (.thrown e) S₁ ∧ T e S₁ p S'

end Trail

/-! ### Trails -/

namespace Eval

variable {σ : Type} (host : Host σ) (kind : FunctionKind)

/-- What calling a method of a resource comes to. -/
def methodTrail (unwrapClosing : Bool) (r : Resource) (method : Value) (st : PassState) : Trail σ :=
  let call := callValue host .pass method r.value []
  .both (.caught call fun e => .here (.chaining unwrapClosing st.pending e))
    (.after call fun v =>
      match r.hint with
      | .sync => .empty
      | .async => .caught (await v) fun e => .here (.chaining unwrapClosing st.pending e))

/-- What disposing resources in order comes to. -/
def disposalTrail (unwrapClosing : Bool) : List Resource → PassState → Trail σ
  | [], _ => .empty
  | r :: rs, st =>
    .both
      (.after (awaitBefore r st) fun st =>
        match r.method? with
        | some method => methodTrail host unwrapClosing r method st
        | none => .empty)
      (.after (disposeOne host unwrapClosing r st) fun st => disposalTrail unwrapClosing rs st)

/-- What a pass comes to. -/
def passTrail (pending : Option Value) : Trail σ :=
  .after takeResources fun rs =>
    disposalTrail host (kind.isGenerator && pending.isSome) rs.reverse ⟨pending, false, false⟩

/-- What comes of a body that is disposed behind its end. -/
def leavingTrail (body : Eval σ Exit) (T : Trail σ) : Trail σ :=
  .both T (.after body fun _ => passTrail host kind none)

/-- What a body in a scope of its own comes to. -/
def scopeTrail (body : Eval σ Exit) (T : Trail σ) : Trail σ :=
  .after openScope fun _ =>
    .both (leavingTrail host kind body T)
      (.both (.caught (leaving host kind body) fun e => passTrail host kind (some e))
        (.after (leaving host kind body) fun x =>
          if x.isNormal then passTrail host kind (some .undefined) else .empty))

/-- What a round of a loop comes to whose value is registered in a scope of its own. -/
def roundTrail (v : Value) (hint : Hint) (body : Eval σ Exit) (T : Trail σ) : Trail σ :=
  let left := do
    register v hint
    leaving host kind body
  .after openScope fun _ =>
    .both (.after (register v hint) fun _ => leavingTrail host kind body T)
      (.caught left fun e => passTrail host kind (some e))

/-- What a block comes to. -/
def blockTrail (disposes : Bool) (body : Eval σ Exit) (T : Trail σ) : Trail σ :=
  if disposes then scopeTrail host kind body T else T

/-- What a loop with a condition comes to. -/
def whileTrail (label : Option String) (cond : Eval σ Value) (body : Eval σ Exit) (T : Trail σ) :
    (fuel : Nat) → Trail σ
  | 0 => .empty
  | fuel + 1 =>
    .after cond fun v =>
      if v.isTruthy then
        .both T (.after body fun x =>
          if x.continues label then whileTrail label cond body T fuel else .empty)
      else .empty

/-- What a loop over items comes to. -/
def forTrail (label : Option String) (id : Nat) (body : Value → Eval σ Exit) (T : Value → Trail σ) :
    (fuel : Nat) → Trail σ
  | 0 => .empty
  | fuel + 1 =>
    .after (nextItem id) fun item =>
      match item with
      | none => .empty
      | some v =>
        .both (T v) (.after (body v) fun x =>
          if x.continues label then forTrail label id body T fuel else .empty)

end Eval

section

variable {σ : Type} (host : Host σ) (kind : FunctionKind) (fuel : Nat)

/-- A round of a loop over items. -/
def Stmt.round (binding : String) (hint : Option Hint) (body : List Stmt) (ρ : Bindings) (v : Value) :
    Eval σ Exit :=
  let body := Eval.block host kind (body.any Stmt.isUsing)
    (Stmt.execAll host kind fuel body ((binding, v) :: ρ))
  match hint with
  | some hint => Eval.roundInScope host kind v hint body
  | none => body

mutual

/-- What a statement comes to that is executed. -/
def Stmt.trail : Stmt → Bindings → Trail σ
  | .block body, ρ =>
    Eval.blockTrail host kind (body.any Stmt.isUsing) (Stmt.execAll host kind fuel body ρ)
      (Stmt.trailAll body ρ)
  | .ifElse cond yes no, ρ =>
    .after (cond.eval host ρ) fun v =>
      if v.isTruthy then
        Eval.blockTrail host kind (yes.any Stmt.isUsing) (Stmt.execAll host kind fuel yes ρ)
          (Stmt.trailAll yes ρ)
      else
        Eval.blockTrail host kind (no.any Stmt.isUsing) (Stmt.execAll host kind fuel no ρ)
          (Stmt.trailAll no ρ)
  | .whileLoop label cond body, ρ =>
    Eval.whileTrail label (cond.eval host ρ)
      (Eval.block host kind (body.any Stmt.isUsing) (Stmt.execAll host kind fuel body ρ))
      (Eval.blockTrail host kind (body.any Stmt.isUsing) (Stmt.execAll host kind fuel body ρ)
        (Stmt.trailAll body ρ)) fuel
  | .forOf label binding hint iterable body, ρ =>
    .after (iterable.eval host ρ) fun v =>
      .after (Eval.iterate v) fun id =>
        Eval.forTrail label id (Stmt.round host kind fuel binding hint body ρ)
          (fun v =>
            let exec := Stmt.execAll host kind fuel body ((binding, v) :: ρ)
            let inner := Eval.blockTrail host kind (body.any Stmt.isUsing) exec
              (Stmt.trailAll body ((binding, v) :: ρ))
            match hint with
            | some hint =>
              Eval.roundTrail host kind v hint (Eval.block host kind (body.any Stmt.isUsing) exec) inner
            | none => inner) fuel
  | .tryCatch body param handler, ρ =>
    let exec := Stmt.execAll host kind fuel body ρ
    .both (Eval.blockTrail host kind (body.any Stmt.isUsing) exec (Stmt.trailAll body ρ))
      (.caught (Eval.block host kind (body.any Stmt.isUsing) exec) fun e =>
        if kind.isGenerator && e.isClosing then .empty
        else
          Eval.blockTrail host kind (handler.any Stmt.isUsing)
            (Stmt.execAll host kind fuel handler (ρ.caught param e))
            (Stmt.trailAll handler (ρ.caught param e)))
  | _, _ => .empty

/-- What statements come to that are executed in order: to each of them and to their end,
until one is left in another way than normally. -/
def Stmt.trailAll : List Stmt → Bindings → Trail σ
  | [], ρ => .here (.behind ρ)
  | s :: ss, ρ =>
    .both (.both (.here (.statement s ρ)) (s.trail ρ))
      (.after (s.exec host kind fuel ρ) fun (x, ρ) =>
        if x.isNormal then Stmt.trailAll ss ρ else .empty)

end

/-- What a call comes to. -/
def Declaration.trail (d : Declaration) (args : List Value) : Trail σ :=
  Eval.blockTrail host d.kind (d.body.any Stmt.isUsing)
    (Stmt.execAll host d.kind fuel d.body (d.bind args)) (Stmt.trailAll host d.kind fuel d.body (d.bind args))

end

/-! ### What holds at the points -/

namespace Trail

variable {σ α : Type} {T T' : Trail σ} {S : CallState σ} {G : Point → CallState σ → Prop}

/-- Wherever an evaluation comes to that starts in a state, `G` holds. -/
def Meets (T : Trail σ) (S : CallState σ) (G : Point → CallState σ → Prop) : Prop :=
  ∀ p S', T S p S' → G p S'

namespace Meets

theorem empty : (Trail.empty : Trail σ).Meets S G := fun _ _ => False.elim

theorem here {p : Point} (h : G p S) : (Trail.here p).Meets S G := by
  rintro _ _ ⟨rfl, rfl⟩
  exact h

theorem both (h : T.Meets S G) (h' : T'.Meets S G) : (Trail.both T T').Meets S G := by
  rintro p S' (hp | hp)
  · exact h p S' hp
  · exact h' p S' hp

theorem after {m : Eval σ α} {T : α → Trail σ} {Q : α → CallState σ → Prop}
    {R : Value → CallState σ → Prop} {W : Option Suspension → CallState σ → Prop}
    (h : Eval.Meets m S Q R W) (hT : ∀ a S', Q a S' → (T a).Meets S' G) :
    (Trail.after m T).Meets S G := by
  rintro p S' ⟨a, S₁, hm, hp⟩
  unfold Eval.Meets at h
  rw [hm] at h
  exact hT a S₁ h p S' hp

theorem caught {m : Eval σ α} {T : Value → Trail σ} {Q : α → CallState σ → Prop}
    {R : Value → CallState σ → Prop} {W : Option Suspension → CallState σ → Prop}
    (h : Eval.Meets m S Q R W) (hT : ∀ e S', R e S' → (T e).Meets S' G) :
    (Trail.caught m T).Meets S G := by
  rintro p S' ⟨e, S₁, hm, hp⟩
  unfold Eval.Meets at h
  rw [hm] at h
  exact hT e S₁ h p S' hp

end Meets
end Trail

namespace Invariant

variable {σ : Type} {I : Invariant σ} {host : Host σ} {kind : FunctionKind} {catches : Bool}
  {S : CallState σ} {m : Mood}

/-- What holds where a statement is executed. -/
structure Executes (I : Invariant σ) (kind : FunctionKind) (catches : Bool) (s : Stmt) (ρ : Bindings)
    (S : CallState σ) : Prop where
  valid : ∃ labels names, s.Valid kind labels names
  tryless : catches = true ∨ s.Tryless
  fine : ∀ b ∈ ρ, I.fine b.2
  holds : I.holds (.running .calm) S
  sound : SoundIn kind S.scopes
  opened : s.isUsing = true → S.scopes ≠ []

/-- What holds at the points to which an evaluation comes: at a statement, behind statements,
and where a pass has caught what a method has thrown. -/
def At (I : Invariant σ) (kind : FunctionKind) (catches : Bool) : Point → CallState σ → Prop
  | .statement s ρ, S => I.Executes kind catches s ρ S
  | .behind ρ, S => (∀ b ∈ ρ, I.fine b.2) ∧ I.holds (.running .calm) S
  | .chaining u pending e, S =>
    ∃ rval m rs, m.pending = pending ∧ I.Thrown (.disposing u rval m rs) e S

/-- What holds where a body comes to that is executed where a call is calm. A body that
registers resources needs a scope. -/
def Comes (I : Invariant σ) (kind : FunctionKind) (catches registers : Bool) (T : Trail σ) : Prop :=
  ∀ S, I.holds (.running .calm) S → SoundIn kind S.scopes → (registers = true → S.scopes ≠ []) →
    T.Meets S (I.At kind catches)

/-- A body that registers nothing needs no scope. -/
theorem unregistered {p : Prop} (h : false = true) : p := absurd h Bool.false_ne_true

/-- Where nothing is left to be disposed, a pass comes to nothing. -/
theorem emptyPassTrail_meets {pending : Option Value} {cs : List Capability}
    {G : Point → CallState σ → Prop} (hscopes : S.scopes = .empty :: cs) :
    (Eval.passTrail host kind pending).Meets S G := by
  obtain ⟨n, htake⟩ := takeResources_eq hscopes
  rintro p S' ⟨rs, S₁, hrs, hp⟩
  rw [htake] at hrs
  cases hrs
  exact hp.elim

section

variable (hI : I.Lawful host kind catches)
include hI

/-! ### Passes -/

theorem methodTrail_meets {u : Bool} {rval : Value} {r : Resource} {rs : List Resource} {f : Callable}
    {st : Eval.PassState} (h : I.holds (.disposing u rval m (r :: rs)) S) (hr : r.Sound kind)
    (hf : r.method = some (.function f)) (hst : st.pending = m.pending) :
    (Eval.methodTrail host u r (.function f) st).Meets S (I.At kind catches) := by
  refine .both ?_ ?_
  · exact .caught (disposeCall_meets hI h hf) fun e S' h => .here ⟨rval, m, rs, hst.symm, h⟩
  · refine .after (disposeCall_meets hI h hf) ?_
    rintro v S' ⟨hv, h⟩
    cases hhint : r.hint with
    | sync => exact .empty
    | async =>
      exact .caught (await_meets hI (hr.async hhint) rfl h hv) fun e S'' h =>
        .here ⟨rval, m, rs, hst.symm, h⟩

theorem disposalTrail_meets {u : Bool} {rval : Value} : ∀ {rs : List Resource} {st : Eval.PassState}
    {S : CallState σ}, Carries I kind u rval m rs st S → (∀ r ∈ rs, r.Sound kind) →
    (Eval.disposalTrail host u rs st).Meets S (I.At kind catches)
  | [], _, _, _, _ => .empty
  | r :: rs, st, S, h, hrs => by
    have hr := hrs r List.mem_cons_self
    rw [Eval.disposalTrail]
    refine .both ?_ ?_
    · refine .after (awaitBefore_meets hI (R := fun _ _ => False) h) ?_
      rintro st' S' ⟨⟨m', hpending, -, h⟩, -⟩
      rcases hr.method with ⟨f, hf⟩ | ⟨hnone, -⟩
      · have hmethod : r.method? = some (.function f) := by rw [Record.method?, hf]; rfl
        rw [hmethod]
        exact methodTrail_meets hI h hr hf hpending
      · have hmethod : r.method? = none := by rw [Record.method?, hnone]; rfl
        rw [hmethod]
        exact .empty
    · exact .after (disposeOne_meets hI (R := fun _ _ => False) h hr) fun st' S' h =>
        disposalTrail_meets h fun r' hr' => hrs r' (List.mem_cons_of_mem _ hr')

theorem passTrail_meets {c : Capability} {cs : List Capability} (h : I.holds (.running m) S)
    (hscopes : S.scopes = c :: cs) (hsound : SoundIn kind S.scopes) :
    (Eval.passTrail host kind m.pending).Meets S (I.At kind catches) := by
  have hsound := (List.forall_mem_cons.mp (hscopes ▸ hsound)).1
  obtain ⟨n, htake⟩ := takeResources_eq hscopes
  have htaken := hI.fresh n (hI.take (kind.isGenerator && m.pending.isSome) h hscopes fun hp => by
    rw [hp, Bool.and_true])
  have htakes : Eval.Meets Eval.takeResources S (fun rs S' => rs = c.resources ∧
      I.holds (.disposing (kind.isGenerator && m.pending.isSome) S.rval m c.resources.reverse) S')
      (fun _ _ => False) I.left := by
    unfold Eval.Meets
    rw [htake]
    exact ⟨rfl, htaken⟩
  refine .after htakes ?_
  rintro _ S' ⟨rfl, h⟩
  exact disposalTrail_meets hI ⟨⟨m, rfl, .inl rfl, h⟩, nofun⟩ fun r hr =>
    hsound r (List.mem_reverse.mp hr)

/-! ### Scopes -/

theorem leavingTrail_meets {body : Eval σ Exit} {T : Trail σ} {cs : List Capability}
    (hbody : body.Meets S
      (fun x S' => I.holds (.running x.mood) S' ∧ Scoped kind true (.empty :: cs) S')
      (fun e S' => I.Throws e S' ∧ Scoped kind true (.empty :: cs) S') I.left)
    (hT : T.Meets S (I.At kind catches)) :
    (Eval.leavingTrail host kind body T).Meets S (I.At kind catches) := by
  refine .both hT (.after hbody ?_)
  rintro x S' ⟨h, hscoped⟩
  obtain ⟨c, hscopes⟩ := hscoped.cons_eq
  have hpass := passTrail_meets hI h hscopes hscoped.sound
  rwa [mood_pending] at hpass

theorem throwTrail_meets {left : Eval σ Exit} {cs : List Capability} {Q : Exit → CallState σ → Prop}
    (hleft : left.Meets S Q (fun e S' => I.Throws e S' ∧ Scoped kind true (.empty :: cs) S') I.left) :
    (Trail.caught left fun e => Eval.passTrail host kind (some e)).Meets S (I.At kind catches) := by
  refine .caught hleft ?_
  rintro e S' ⟨h, hscoped⟩
  obtain ⟨c, hscopes⟩ := hscoped.cons_eq
  exact passTrail_meets hI (m := .throwing e) h hscopes hscoped.sound

/-- What comes of a body in a scope of its own. -/
theorem scopeTrail_comes {body : Eval σ Exit} {T : Trail σ} (hbody : I.Keeps kind true body)
    (hT : I.Comes kind catches true T) :
    I.Comes kind catches false (Eval.scopeTrail host kind body T) := by
  intro S h hsound _
  let S₁ : CallState σ := { S with scopes := .empty :: S.scopes }
  have hopened : Eval.Meets Eval.openScope S (fun _ S' => S' = S₁) (fun _ _ => False) I.left := .modify rfl
  have hbody := hbody S₁ (hI.openScope h) hsound.cons_empty fun _ => List.cons_ne_nil _ _
  have hleft := leaving_meets hI hbody hsound
  refine .after hopened ?_
  rintro _ _ rfl
  refine .both (leavingTrail_meets hI hbody ?_) (.both (throwTrail_meets hI hleft) (.after hleft ?_))
  · exact hT S₁ (hI.openScope h) hsound.cons_empty fun _ => List.cons_ne_nil _ _
  · rintro x S' ⟨-, hscopes⟩
    split
    · exact emptyPassTrail_meets hscopes
    · exact .empty

/-- What comes of a round whose value is registered in a scope of its own. -/
theorem roundTrail_comes {body : Eval σ Exit} {T : Trail σ} {v : Value} {hint : Hint} (hv : I.fine v)
    (hhint : hint = .async → kind.isAsync = true) (hbody : I.Keeps kind false body)
    (hT : I.Comes kind catches false T) :
    I.Comes kind catches false (Eval.roundTrail host kind v hint body T) := by
  intro S h hsound _
  let S₁ : CallState σ := { S with scopes := .empty :: S.scopes }
  have hopened : Eval.Meets Eval.openScope S (fun _ S' => S' = S₁) (fun _ _ => False) I.left := .modify rfl
  have hregister := register_meets hI (hI.openScope h) hv hhint (rfl : S₁.scopes = _) hsound.cons_empty
  have hleft := registering_meets hI (hI.openScope h) hv hhint hbody (rfl : S₁.scopes = _) hsound
  refine .after hopened ?_
  rintro _ _ rfl
  refine .both (.after hregister ?_) (throwTrail_meets hI hleft)
  rintro _ S' ⟨h, hscoped⟩
  exact leavingTrail_meets hI (registered_meets hbody h hscoped) (hT S' h hscoped.sound unregistered)

theorem blockTrail_comes {disposes : Bool} {body : Eval σ Exit} {T : Trail σ}
    (hbody : I.Keeps kind disposes body) (hT : I.Comes kind catches disposes T) :
    I.Comes kind catches false (Eval.blockTrail host kind disposes body T) := by
  cases disposes with
  | true => exact scopeTrail_comes hI hbody hT
  | false => exact hT

/-! ### Loops -/

omit hI in
theorem whileTrail_comes {label : Option String} {cond : Eval σ Value} {body : Eval σ Exit} {T : Trail σ}
    (hcond : ∀ S, I.holds (.running .calm) S → SoundIn kind S.scopes →
      cond.Meets S (fun _ S' => I.holds (.running .calm) S' ∧ Scoped kind false S.scopes S')
        (fun e S' => I.Throws e S' ∧ Scoped kind false S.scopes S') I.left)
    (hbody : I.Keeps kind false body) (hT : I.Comes kind catches false T) :
    ∀ n, I.Comes kind catches false (Eval.whileTrail label cond body T n)
  | 0 => fun _ _ _ _ => .empty
  | n + 1 => fun S h hsound _ => by
    rw [Eval.whileTrail]
    refine .after (hcond S h hsound) ?_
    rintro v S' ⟨h, hscoped⟩
    split
    · refine .both (hT S' h hscoped.sound unregistered) (.after (hbody S' h hscoped.sound unregistered) ?_)
      rintro x S'' ⟨h, hscoped'⟩
      split
      · rename_i hx
        rw [mood_of_continues hx] at h
        exact whileTrail_comes hcond hbody hT n S'' h hscoped'.sound unregistered
      · exact .empty
    · exact .empty

theorem forTrail_comes {label : Option String} {id : Nat} {body : Value → Eval σ Exit}
    {T : Value → Trail σ} (hbody : ∀ v, I.fine v → I.Keeps kind false (body v))
    (hT : ∀ v, I.fine v → I.Comes kind catches false (T v)) :
    ∀ n, I.Comes kind catches false (Eval.forTrail label id body T n)
  | 0 => fun _ _ _ _ => .empty
  | n + 1 => fun S h hsound _ => by
    rw [Eval.forTrail]
    refine .after ((nextItem_meets hI h).within (Eval.nextItem_quiet id)) ?_
    rintro item S' ⟨⟨hitem, h⟩, hquiet⟩
    have hsound : SoundIn kind S'.scopes := by rwa [hquiet.1]
    cases item with
    | none => exact .empty
    | some v =>
      have hv := hitem v rfl
      refine .both (hT v hv S' h hsound unregistered) (.after (hbody v hv S' h hsound unregistered) ?_)
      rintro x S'' ⟨h, hscoped⟩
      split
      · rename_i hx
        rw [mood_of_continues hx] at h
        exact forTrail_comes hbody hT n S'' h hscoped.sound unregistered
      · exact .empty

end

end Invariant

/-! ### Statements and calls -/

section

variable {σ : Type} {I : Invariant σ} {host : Host σ} {kind : FunctionKind} {catches : Bool}

open Invariant

/-- The rounds of a loop over items are kept by what keeps its body. -/
theorem Stmt.round_kept (hI : I.Lawful host kind catches) {n : Nat} {binding : String} {hint : Option Hint}
    {body : List Stmt} {ρ : Bindings} {v : Value} (hv : I.fine v)
    (hhint : hint = some .async → kind.isAsync = true)
    (hbody : I.Keeps kind (body.any Stmt.isUsing) (Stmt.execAll host kind n body ((binding, v) :: ρ))) :
    I.Keeps kind false (Stmt.round host kind n binding hint body ρ v) := by
  have hround := block_keeps hI hbody
  cases hint with
  | none => exact hround
  | some hint => exact roundInScope_keeps hI hv (fun h => hhint (congrArg some h)) hround

mutual

theorem Stmt.trail_comes (hI : I.Lawful host kind catches) (n : Nat) {labels : List (Option String)} :
    ∀ {s : Stmt} {names : List String}, s.Valid kind labels names → (catches = true ∨ s.Tryless) →
      ∀ ρ : Bindings, (∀ b ∈ ρ, I.fine b.2) →
      I.Comes kind catches false (s.trail host kind n ρ)
  | .block body, _, hbody, hcatch, ρ, hρ => by
    rw [Stmt.trail]
    exact blockTrail_comes hI (Stmt.execAll_kept hI n hbody hcatch ρ hρ)
      (Stmt.trailAll_comes hI n hbody hcatch ρ hρ)
  | .ifElse cond yes no, _, ⟨hcond, hyes, hno⟩, hcatch, ρ, hρ => fun S h hsound _ => by
    rw [Stmt.trail]
    have hcond : (cond.eval host ρ).Meets S
        (fun v S' => I.fine v ∧ I.holds (.running .calm) S' ∧ Scoped kind false S.scopes S')
        (fun e S' => I.Throws e S' ∧ Scoped kind false S.scopes S') I.left :=
      cond.eval_scoped hI hρ hcond h hsound
    refine .after hcond ?_
    rintro v S' ⟨-, h, hscoped⟩
    split
    · exact blockTrail_comes hI (Stmt.execAll_kept hI n hyes (hcatch.imp_right And.left) ρ hρ)
        (Stmt.trailAll_comes hI n hyes (hcatch.imp_right And.left) ρ hρ) S' h hscoped.sound unregistered
    · exact blockTrail_comes hI (Stmt.execAll_kept hI n hno (hcatch.imp_right And.right) ρ hρ)
        (Stmt.trailAll_comes hI n hno (hcatch.imp_right And.right) ρ hρ) S' h hscoped.sound unregistered
  | .whileLoop label cond body, _, ⟨hcond, hbody⟩, hcatch, ρ, hρ => by
    rw [Stmt.trail]
    have hexec := Stmt.execAll_kept hI n hbody hcatch ρ hρ
    refine whileTrail_comes ?_ (block_keeps hI hexec)
      (blockTrail_comes hI hexec (Stmt.trailAll_comes hI n hbody hcatch ρ hρ)) n
    exact fun S h hsound => (cond.eval_scoped hI hρ hcond h hsound).imp (fun _ _ h => h.2) fun _ _ h => h
  | .forOf label binding hint iterable body, _, ⟨hhint, hiterable, hbody⟩, hcatch, ρ, hρ =>
      fun S h hsound _ => by
    rw [Stmt.trail]
    have hiterable : (iterable.eval host ρ).Meets S
        (fun v S' => I.fine v ∧ I.holds (.running .calm) S' ∧ Scoped kind false S.scopes S')
        (fun e S' => I.Throws e S' ∧ Scoped kind false S.scopes S') I.left :=
      iterable.eval_scoped hI hρ hiterable h hsound
    refine .after hiterable ?_
    rintro v S' ⟨hv, h, hscoped⟩
    refine .after ((iterate_meets hI h hv).within (Eval.iterate_quiet v)) ?_
    rintro id S'' ⟨h, hquiet⟩
    have hsound' : SoundIn kind S''.scopes := by
      rw [hquiet.1]
      exact hscoped.sound
    have hbindings : ∀ w, I.fine w → ∀ b ∈ (binding, w) :: ρ, I.fine b.2 := fun w hw =>
      List.forall_mem_cons.mpr ⟨hw, hρ⟩
    refine forTrail_comes hI ?_ ?_ n S'' h hsound' unregistered
    · exact fun w hw => Stmt.round_kept hI hw hhint
        (Stmt.execAll_kept hI n hbody hcatch _ (hbindings w hw))
    · intro w hw
      have hexec := Stmt.execAll_kept hI n hbody hcatch _ (hbindings w hw)
      have hround := blockTrail_comes hI hexec (Stmt.trailAll_comes hI n hbody hcatch _ (hbindings w hw))
      cases hint with
      | none => exact hround
      | some hint =>
        exact roundTrail_comes hI hw (fun h => hhint (congrArg some h)) (block_keeps hI hexec) hround
  | .tryCatch body param handler, _, ⟨hbody, hhandler⟩, hcatch, ρ, hρ => fun S h hsound _ => by
    have hcatches : catches = true := hcatch.resolve_right id
    rw [Stmt.trail]
    have hexec := Stmt.execAll_kept hI n hbody (.inl hcatches) ρ hρ
    refine .both ?_ ?_
    · exact blockTrail_comes hI hexec (Stmt.trailAll_comes hI n hbody (.inl hcatches) ρ hρ) S h hsound unregistered
    · refine .caught (block_keeps hI hexec S h hsound unregistered) ?_
      rintro e S' ⟨h, hscoped⟩
      cases hclosing : kind.isGenerator && e.isClosing with
      | true => exact .empty
      | false =>
        obtain ⟨he, h⟩ := hI.caught hcatches h hclosing
        have hρ' : ∀ b ∈ ρ.caught param e, I.fine b.2 := by
          cases param with
          | some name => exact List.forall_mem_cons.mpr ⟨he, hρ⟩
          | none => exact hρ
        exact blockTrail_comes hI (Stmt.execAll_kept hI n hhandler (.inl hcatches) _ hρ')
          (Stmt.trailAll_comes hI n hhandler (.inl hcatches) _ hρ') S' h hscoped.sound unregistered
  | .expr _, _, _, _, _, _ | .letIn _ _, _, _, _, _, _ | .usingIn _ _ _, _, _, _, _, _
  | .throw _, _, _, _, _, _ | .ret (some _), _, _, _, _, _ | .ret none, _, _, _, _, _
  | .breakLoop _, _, _, _, _, _ | .continueLoop _, _, _, _, _, _ => fun _ _ _ _ => .empty

theorem Stmt.trailAll_comes (hI : I.Lawful host kind catches) (n : Nat) {labels : List (Option String)} :
    ∀ {ss : List Stmt} {names : List String}, Stmt.ValidAll kind labels names ss →
      (catches = true ∨ Stmt.TrylessAll ss) → ∀ ρ : Bindings, (∀ b ∈ ρ, I.fine b.2) →
      I.Comes kind catches (ss.any Stmt.isUsing) (Stmt.trailAll host kind n ss ρ)
  | [], _, _, _, _, hρ => fun _ h _ _ => .here ⟨hρ, h⟩
  | s :: ss, names, ⟨hs, hss⟩, hcatch, ρ, hρ => fun S h hsound hopen => by
    rw [Stmt.trailAll]
    have hcatchs := hcatch.imp_right And.left
    have hfirst : s.isUsing = true → S.scopes ≠ [] := fun h =>
      hopen (by rw [List.any_cons, h, Bool.true_or])
    refine .both (.both (.here ⟨⟨labels, names, hs⟩, hcatchs, hρ, h, hsound, hfirst⟩) ?_) ?_
    · exact Stmt.trail_comes hI n hs hcatchs ρ hρ S h hsound unregistered
    · refine .after (Stmt.exec_kept hI n hs hcatchs ρ S hρ h hsound hfirst) ?_
      rintro ⟨x, ρ'⟩ S' ⟨h, hscoped, hρ'⟩
      cases hx : x.isNormal with
      | true =>
        rw [mood_of_isNormal hx] at h
        simp only [hx, ↓reduceIte]
        exact Stmt.trailAll_comes hI n hss (hcatch.imp_right And.right) ρ' hρ' S' h hscoped.sound
          fun h hnil => hopen (by rw [List.any_cons, h, Bool.or_true])
            (List.eq_nil_of_length_eq_zero (by rw [← hscoped.length_eq, hnil, List.length_nil]))
      | false =>
        simp only [hx, Bool.false_eq_true, ↓reduceIte]
        exact .empty

end

/-- What no part of an evaluation breaks holds at all points to which a call comes. -/
theorem Declaration.trail_kept {d : Declaration} (hI : I.Lawful host d.kind catches) (n : Nat)
    {args : List Value} {S : CallState σ} (hd : d.Valid) (hcatch : catches = true ∨ Stmt.TrylessAll d.body)
    (hargs : ∀ v ∈ args, I.fine v) (h : I.holds (.running .calm) S) (hscopes : S.scopes = []) :
    (d.trail host n args).Meets S (I.At d.kind catches) := by
  have hsound : SoundIn d.kind S.scopes := by
    rw [hscopes]
    exact nofun
  have hρ := d.bind_fine hI hargs
  exact blockTrail_comes hI (Stmt.execAll_kept hI n hd hcatch _ hρ)
    (Stmt.trailAll_comes hI n hd hcatch _ hρ) S h hsound unregistered

end

end ResourceMachine
