/-
# Closing a generator at a `yield`

A function has `yield` as a statement at some place, and another one has `return yield` there instead.
Wherever the place is, in scopes, loops and `try` statements, one round step by step: if the first
call is closed at its `yield`, and the second one is handed the value at its own, then both leave
what encloses the place alike, up to an iterator that fails to close.

Key definitions: `Eval.yieldAnswered`, `Stmt.watch`.
Key theorems: `Eval.finish_kins`, `Eval.forLoop_kins`, `Block.Place.exec_kins`,
`Declaration.Outline.call_kins`.
-/
import ResourceMachine.Proofs.BlockRewriting
import ResourceMachine.Proofs.ClosingDisposal
import ResourceMachine.Proofs.Places
import ResourceMachine.Proofs.ScopeSplitting

namespace ResourceMachine

variable {σ β : Type} {same : Pairing → σ → σ → Prop} {ρ τ : Pairing} {host : Host σ} {kind : FunctionKind} {n : Nat}

namespace Eval

variable {K : Alignment} {P : Pairing → β → β → Prop} {R' : Pairing → Value → β → Prop}

/-! ### Scopes -/

theorem finish_grows (again : Bool) : ∀ r, Within Grows (finish host kind again r)
  | .error e => .bind Grows.stable (leaveByThrow_grows host kind e) raise_grows
  | .ok x => by
    refine .bind Grows.stable (leave_grows host kind).attempt fun r => ?_
    have hclose : Within Grows (do closeScope; return x : Eval σ Exit) :=
      .bind Grows.stable closeScope_grows fun _ => .pure Grows.stable _
    cases r with
    | error e => exact .bind Grows.stable (leaveByThrow_grows host kind e) raise_grows
    | ok _ =>
      show Within Grows (if (again && x.isNormal) = true then _ else _)
      split
      · exact .bind Grows.stable (pass_grows host kind _) fun _ => hclose
      · exact hclose

/-- A body in whose scope a generator may be closed, and that scope. -/
theorem finish_kins (hhost : host.Blind same) (hclosing : host.Unclosing) (hkind : kind.isGenerator = true)
    (again : Bool) {m m' marked : Eval σ Exit} (h : Kins same K.inner K.inner Exit.Alike Exit.Returns ρ m m' marked) :
    Kins same K.inner K Exit.Alike Exit.Returns ρ (attempt m >>= finish host kind again)
      (attempt m' >>= finish host kind again) (attempt marked >>= finish host kind again) :=
  h.attempt_bind (fun _ _ _ _ hx => (finish_twins hhost again (.ok hx)).kins)
    (fun _ _ _ _ he => (finish_twins hhost again (.error he)).kins) rfl (finish_departs hhost hclosing hkind again)
    (finish_grows again) (finish_grows again)

variable {body body' watched : Eval σ Exit}

theorem inScope_kins (hhost : host.Blind same) (hclosing : host.Unclosing) (hkind : kind.isGenerator = true)
    (h : Kins same K.inner K.inner Exit.Alike Exit.Returns ρ body body' watched) :
    Kins same K K Exit.Alike Exit.Returns ρ (inScope host kind body) (inScope host kind body')
      (inScope host kind watched) := by
  rw [inScope_eq, inScope_eq, inScope_eq]
  exact openScope_inner.bind_kins fun _ _ _ hτ _ => finish_kins hhost hclosing hkind true (h.mono hτ)

theorem roundInScope_kins (hhost : host.Blind same) (hclosing : host.Unclosing) (hkind : kind.isGenerator = true)
    {v v' : Value} (hv : v.Alike ρ v') (hint : Hint)
    (h : Kins same K.inner K.inner Exit.Alike Exit.Returns ρ body body' watched) :
    Kins same K K Exit.Alike Exit.Returns ρ (roundInScope host kind v hint body) (roundInScope host kind v' hint body')
      (roundInScope host kind v hint watched) := by
  rw [roundInScope_eq, roundInScope_eq, roundInScope_eq]
  refine openScope_inner.bind_kins fun τ _ _ hτ _ => finish_kins hhost hclosing hkind false ?_
  exact (register_twins hhost (K.inner_registers hint) (hv.mono hτ)).bind_kins fun _ _ _ hle _ =>
    h.mono (hτ.trans hle)

theorem block_kins (hhost : host.Blind same) (hclosing : host.Unclosing) (hkind : kind.isGenerator = true)
    {disposes : Bool} (h : ∀ K₁ : Alignment, (disposes = true → ∀ hint, K₁.Registers hint) →
      Kins same K₁ K₁ Exit.Alike Exit.Returns ρ body body' watched) :
    Kins same K K Exit.Alike Exit.Returns ρ (block host kind disposes body) (block host kind disposes body')
      (block host kind disposes watched) := by
  cases disposes with
  | true => exact inScope_kins hhost hclosing hkind (h K.inner fun _ => K.inner_registers)
  | false => exact h K fun h => Bool.noConfusion h

/-! ### Loops -/

/-- The closing signal passes, and a return goes on as `g` says. -/
theorem departs_ret {f' : Exit → Eval σ β} (g : Value → β) (hf : ∀ w, f' (.ret w) = pure (g w))
    (hR : ∀ {τ v w}, Value.Alike τ v w → R' τ v (g w)) : Departs same K K Exit.Returns P R' (raise .closing) f' := by
  rintro n τ T T' _ ⟨w, rfl, hw⟩ hT hn
  rw [hf w]
  exact .at_once (.error .closing) (.ok (g w)) T T' (le_refl τ) (fun _ => rfl) (fun _ => rfl) (fun _ => rfl)
    (.parted (hR hw) hT hn)

theorem whileLoop_kins (label : Option String) {cond cond' : Eval σ Value}
    (hcond : Twins same K K K Value.Alike ρ cond cond') (hgrows : Within Grows cond) (hgrows' : Within Grows cond')
    (hbody : Kins same K K Exit.Alike Exit.Returns ρ body body' watched) (hbodyGrows : Within Grows body)
    (hbodyGrows' : Within Grows body') : ∀ {τ : Pairing} (n : Nat), ρ ≤ τ →
      Kins same K K Exit.Alike Exit.Returns τ (whileLoop label cond body n) (whileLoop label cond' body' n)
        (whileLoop label cond watched n)
  | _, 0, _ => Twins.spent.kins
  | τ, n + 1, hτ => by
    rw [whileLoop, whileLoop, whileLoop]
    have hrest {cond : Eval σ Value} {body : Eval σ Exit} (hcond : Within Grows cond) (hbody : Within Grows body)
        (x : Exit) :
        Within Grows (if x.continues label then whileLoop label cond body n else return x.leaveLoop label) := by
      split
      · exact whileLoop_grows hcond hbody n
      · exact .pure Grows.stable _
    refine (hcond.mono hτ).bind_kins fun τ₁ v v' hτ₁ hv =>
      .branch hv.isTruthy_eq ?_ (Twins.pure fun _ _ => .normal).kins
    refine (hbody.mono (hτ.trans hτ₁)).bind (fun τ₂ x x' hτ₂ hx => .branch (hx.continues_eq label) ?_ ?_)
      (departs_ret Exit.ret (fun w => rfl) fun hw => ⟨_, rfl, hw⟩) (hrest hgrows hbodyGrows) (hrest hgrows' hbodyGrows')
    · exact whileLoop_kins label hcond hgrows hgrows' hbody hbodyGrows hbodyGrows' n (hτ.trans (hτ₁.trans hτ₂))
    · exact (Twins.pure fun _ hle => (hx.leaveLoop label).mono hle).kins

/-- An iterator is closed at once, and what that throws is logged. -/
theorem closeIterator_steady (id : Nat) (S : CallState σ) : ∃ error, ∃ T : CallState σ,
    (∀ s, closeIterator id (S.more s) = .ok error (T.more s)) ∧ T.trace = S.trace ++ [.close id error] ∧
      T.rval = S.rval :=
  ⟨_, { S with
        world := ⟨{ S.world.heap with
          iterators := S.world.heap.iterators.setIfInBounds id (S.world.heap.cursor id).close.2 }, S.world.host⟩
        trace := S.trace ++ [.close id (S.world.heap.cursor id).close.1] }, fun _ => rfl, rfl, rfl⟩

theorem closeIterator_grows (id : Nat) : Within Grows (closeIterator id : Eval σ (Option Value)) :=
  (closeIterator_quiet id).mono Quiet.grows

theorem leaveIterator_grows (id : Nat) : Within Grows (leaveIterator id : Eval σ Unit) :=
  (leaveIterator_quiet id).mono Quiet.grows

/-- A loop that is left closes its iterator: while the closing signal passes, an error from that is
dropped, and else it is thrown. -/
theorem closeIterator_departs (id : Nat) {P : Pairing → Exit → Exit → Prop} {f' : Exit → Eval σ Exit}
    (hf : ∀ w, f' (.ret w) = do leaveIterator id; return .ret w) :
    Departs same K K Exit.Returns P Exit.Returns (do let _ ← closeIterator id; raise .closing : Eval σ Exit) f' := by
  rintro n τ T T' _ ⟨w, rfl, hw⟩ hT hn
  rw [hf w]
  obtain ⟨error, U, hleft, htrace, hrval⟩ := closeIterator_steady id T
  obtain ⟨error', U', hright, -, -⟩ := closeIterator_steady id T'
  obtain ⟨χ, hχ, hlands⟩ := (closeIterator_twins (E := K) id τ T T' (le_refl τ) hT).ends_of_ok hleft hright
  obtain ⟨herror, hU⟩ : Option.Rel (Value.Alike χ) error error' ∧ U.Alike same K χ U' := by
    cases hlands with
    | ok alike calls => exact ⟨alike, calls⟩
  have hdropped (s : List (Reply σ)) : (do let _ ← closeIterator id; raise .closing : Eval σ Exit) (T.more s) =
      .error (.thrown .closing) (U.more s) := (bind_of_ok (hleft s)).trans rfl
  cases herror with
  | none =>
    have hleave (s : List (Reply σ)) : leaveIterator id (T'.more s) = .ok () (U'.more s) :=
      (bind_of_ok (hright s)).trans rfl
    refine .at_once (.error .closing) (.ok (.ret w)) U U' hχ hdropped hdropped
      (fun s => (bind_of_ok (hleave s)).trans rfl) (.parted ⟨w, rfl, ?_⟩ hU ?_)
    · rw [hrval]
      exact hw.mono hχ
    · rw [htrace, List.length_append]
      exact Nat.le_add_right_of_le hn
  | @some e e' he =>
    refine .fails hχ (fun s => ?_) (fun s => ?_) hU.trace ?_
    · rw [hdropped s]
      exact List.prefix_refl _
    · have hclosed : Grows (stateOf (closeIterator id (T'.more s))) (stateOf (leaveIterator id (T'.more s))) := by
        refine grows_bind (T'.more s) fun error => ?_
        cases error with
        | none => exact .pure Grows.stable _
        | some e => exact (signal_quiet e).mono Quiet.grows
      have hleft : Grows (stateOf (leaveIterator id (T'.more s)))
          (stateOf ((do leaveIterator id; return .ret w : Eval σ Exit) (T'.more s))) :=
        grows_bind (T'.more s) fun _ => .pure Grows.stable _
      rw [hright s] at hclosed
      exact hclosed.trans hleft
    · rw [htrace]
      exact .intro id e hn

theorem forLoop_kins (label : Option String) (id : Nat) {round round' watched : Value → Eval σ Exit}
    (hround : ∀ τ v v', ρ ≤ τ → v.Alike τ v' →
      Kins same K K Exit.Alike Exit.Returns τ (round v) (round' v') (watched v))
    (hgrows : ∀ v, Within Grows (round v)) (hgrows' : ∀ v, Within Grows (round' v)) :
    ∀ {τ : Pairing} (n : Nat), ρ ≤ τ → Kins same K K Exit.Alike Exit.Returns τ (forLoop label id round n)
      (forLoop label id round' n) (forLoop label id watched n)
  | _, 0, _ => Twins.spent.kins
  | τ, n + 1, hτ => by
    rw [forLoop, forLoop, forLoop]
    refine (nextItem_twins id).bind_kins fun τ₁ item item' hτ₁ hitem => ?_
    cases hitem with
    | none => exact (Twins.pure fun _ _ => .normal).kins
    | @some v v' hv =>
      have hrest {round : Value → Eval σ Exit} (h : ∀ v, Within Grows (round v)) (x : Exit) : Within Grows
          (if x.continues label then forLoop label id round n else do leaveIterator id; return x.leaveLoop label) := by
        split
        · exact forLoop_grows h n
        · exact .bind Grows.stable (leaveIterator_grows id) fun _ => .pure Grows.stable _
      have hclose (e : Value) : Within Grows (do let _ ← closeIterator id; raise e : Eval σ Exit) :=
        .bind Grows.stable (closeIterator_grows id) fun _ => raise_grows e
      refine (hround τ₁ v v' (hτ.trans hτ₁) hv).attempt_bind (fun τ₂ x x' hτ₂ hx => ?_) (fun τ₂ e e' _ he => ?_) rfl
        (closeIterator_departs id fun w => rfl) ?_ ?_
      · refine .branch (hx.continues_eq label) ?_ ?_
        · exact forLoop_kins label id hround hgrows hgrows' n (hτ.trans (hτ₁.trans hτ₂))
        · exact ((leaveIterator_twins id).bind fun _ _ _ hle _ => .pure fun _ hle' =>
            (hx.leaveLoop label).mono (hle.trans hle')).kins
      · exact ((closeIterator_twins id).bind fun _ _ _ hle _ => .raise (he.mono hle)).kins
      · rintro (e | x)
        · exact hclose e
        · exact hrest hgrows x
      · rintro (e | x)
        · exact hclose e
        · exact hrest hgrows' x

/-! ### Standing at a `yield` -/

/-- To hand out a value, or to give up if there is no reply to that. -/
def yieldAnswered (v : Value) : Eval σ Value := do
  if (← get).script.isEmpty then throw .outOfFuel else yield v

theorem yield_of_nil {S : CallState σ} (h : S.script = []) (v : Value) :
    yield v S = .error (.suspended (.yield v)) { S with rval := v, trace := S.trace ++ [.suspend (.yield v)] } := by
  show suspend (.yield v) { S with rval := v } = _
  unfold suspend
  rw [h]

theorem yield_of_cons {S : CallState σ} {r : Reply σ} {rest : List (Reply σ)} (h : S.script = r :: rest) (v : Value) :
    yield v S = give r.answer.result ((resumed { S with rval := v } (.yield v) r).more rest) :=
  suspend_apply (S := { S with rval := v }) h

theorem yieldAnswered_of_nil {S : CallState σ} (h : S.script = []) (v : Value) :
    yieldAnswered v S = .error .outOfFuel S := by
  show (if S.script.isEmpty = true then throw .outOfFuel else yield v : Eval σ Value) S = _
  rw [h]
  rfl

theorem yieldAnswered_of_cons {S : CallState σ} {r : Reply σ} {rest : List (Reply σ)} (h : S.script = r :: rest)
    (v : Value) : yieldAnswered v S = yield v S := by
  show (if S.script.isEmpty = true then throw .outOfFuel else yield v : Eval σ Value) S = _
  rw [h]
  rfl

end Eval

/-! ### Statements -/

/-- A statement is left with a return of what is alike. -/
def Stmt.Returns (ρ : Pairing) (v : Value) (l : Exit × Bindings) : Prop := l.1.Returns ρ v

section

variable {K : Alignment} {N : String → Prop} {env env' : Bindings}

theorem Eval.left_kins {m m' watched : Eval σ Exit} (henv : env.Alike N ρ env')
    (h : Eval.Kins same K K Exit.Alike Exit.Returns ρ m m' watched) :
    Eval.Kins same K K (Stmt.LeftAlike N) Stmt.Returns ρ (do let x ← m; return (x, env))
      (do let x ← m'; return (x, env')) (do let x ← watched; return (x, env)) := by
  have hpure (env : Bindings) (x : Exit) : Within Grows (pure (x, env) : Eval σ (Exit × Bindings)) :=
    .pure Grows.stable _
  refine h.bind (fun τ x x' hτ hx => (Eval.Twins.pure fun _ hχ => ⟨hx.mono hχ, henv.mono (hτ.trans hχ)⟩).kins)
    (Eval.departs_ret (fun w => (.ret w, env')) (fun _ => rfl) fun hw => ⟨_, rfl, hw⟩) (hpure env) (hpure env')

theorem Block.run_grows (b : List Stmt) (env : Bindings) : Within Grows (Block.run host kind n b env) :=
  Eval.block_grows host kind (Stmt.execAll_grows host kind n b env)

/-- A statement in whose block a generator may be closed. -/
theorem Block.Holder.exec_kins (hhost : host.Blind same) (hclosing : host.Unclosing) (hkind : kind.isGenerator = true)
    {inner inner' watched : Bindings → Eval σ Exit}
    (hinner : ∀ {K : Alignment} {ρ : Pairing} {env env' : Bindings}, env.Alike (fun _ => True) ρ env' →
      Eval.Kins same K K Exit.Alike Exit.Returns ρ (inner env) (inner' env') (watched env))
    (hgrows : ∀ env, Within Grows (inner env)) (hgrows' : ∀ env, Within Grows (inner' env)) (h : Holder)
    (henv : env.Alike (fun _ => True) ρ env') :
    Eval.Kins same K K (Stmt.LeftAlike fun _ => True) Stmt.Returns ρ (h.exec host kind n inner env)
      (h.exec host kind n inner' env') (h.exec host kind n watched env) := by
  have hself (b : List Stmt) : Block.Twins same host kind n (fun _ => True) b b :=
    Block.twins_self hhost b fun _ _ => trivial
  have hpasses {τ : Pairing} {e e' : Value} (he : e.Alike τ e') :
      (kind.isGenerator && e.isClosing) = (kind.isGenerator && e'.isClosing) := by
    rw [he.isClosing_eq]
  cases h with
  | block => exact Eval.left_kins henv (hinner henv)
  | yes cond other =>
    refine (cond.eval_twins hhost (fun _ _ => trivial) henv).bind_kins fun τ v v' hτ hv => ?_
    exact .branch hv.isTruthy_eq (Eval.left_kins (henv.mono hτ) (hinner (henv.mono hτ)))
      (Eval.left_twins (henv.mono hτ) (hself other (henv.mono hτ))).kins
  | no cond other =>
    refine (cond.eval_twins hhost (fun _ _ => trivial) henv).bind_kins fun τ v v' hτ hv => ?_
    exact .branch hv.isTruthy_eq (Eval.left_twins (henv.mono hτ) (hself other (henv.mono hτ))).kins
      (Eval.left_kins (henv.mono hτ) (hinner (henv.mono hτ)))
  | whileLoop label cond =>
    exact Eval.left_kins henv (Eval.whileLoop_kins label (cond.eval_twins hhost (fun _ _ => trivial) henv)
      (cond.eval_grows host env) (cond.eval_grows host env') (hinner henv) (hgrows env) (hgrows' env') n (le_refl ρ))
  | forOf label binding hint iterable =>
    refine (iterable.eval_twins hhost (fun _ _ => trivial) henv).bind_kins fun τ v v' hτ hv => ?_
    refine (Eval.iterate_twins hhost hv).bind_kins fun τ₁ id id' hτ₁ hid => ?_
    subst hid
    have henv₁ := henv.mono (hτ.trans hτ₁)
    refine Eval.left_kins henv₁ (Eval.forLoop_kins label id (fun τ₂ w w' hτ₂ hw => ?_) ?_ ?_ n (le_refl τ₁))
    · have hbound := (henv₁.mono hτ₂).cons binding hw
      cases hint with
      | none => exact hinner hbound
      | some hint => exact Eval.roundInScope_kins hhost hclosing hkind hw hint (hinner hbound)
    · cases hint with
      | none => exact fun w => hgrows _
      | some hint => exact fun w => Eval.roundInScope_grows host kind w hint (hgrows _)
    · cases hint with
      | none => exact fun w => hgrows' _
      | some hint => exact fun w => Eval.roundInScope_grows host kind w hint (hgrows' _)
  | tryBody param handler =>
    have hcaught (env : Bindings) (e : Value) :
        Within Grows (if kind.isGenerator && e.isClosing then Eval.raise e else do
          let x ← Block.run host kind n handler (env.caught param e)
          return (x, env) : Eval σ (Exit × Bindings)) := by
      split
      · exact Eval.raise_grows e
      · exact .bind Grows.stable (Block.run_grows handler _) fun _ => .pure Grows.stable _
    refine (hinner henv).attempt_bind (fun τ x x' hτ hx => ?_) (fun τ e e' hτ he => ?_) rfl ?_ ?_ ?_
    · exact (Eval.Twins.pure fun _ hχ => ⟨hx.mono hχ, henv.mono (hτ.trans hχ)⟩).kins
    · exact .branch (hpasses he) (Eval.Twins.raise he).kins
        (Eval.left_twins (henv.mono hτ) (hself handler ((henv.mono hτ).caught param he))).kins
    · -- a generator does not handle the closing signal
      show Eval.Departs same K K _ _ _ (if (kind.isGenerator && Value.closing.isClosing) = true then _ else _) _
      rw [if_pos (show (kind.isGenerator && Value.closing.isClosing) = true by rw [hkind]; rfl)]
      exact Eval.departs_ret (fun w => (.ret w, env')) (fun _ => rfl) fun hw => ⟨_, rfl, hw⟩
    · rintro (e | x)
      · exact hcaught env e
      · exact .pure Grows.stable _
    · rintro (e | x)
      · exact hcaught env' e
      · exact .pure Grows.stable _
  | catchBody body param =>
    refine (hself body henv).attempt_bind_kins (fun τ x x' hτ hx => ?_) fun τ e e' hτ he => ?_
    · exact (Eval.Twins.pure fun _ hχ => ⟨hx.mono hχ, henv.mono (hτ.trans hχ)⟩).kins
    · exact .branch (hpasses he) (Eval.Twins.raise he).kins
        (Eval.left_kins (henv.mono hτ) (hinner ((henv.mono hτ).caught param he)))

namespace Stmt

theorem goOn_grows (ss : List Stmt) (l : Exit × Bindings) : Within Grows (Stmt.goOn host kind n ss l) := by
  obtain ⟨x, env⟩ := l
  show Within Grows (if x.isNormal = true then _ else _)
  split
  · exact Stmt.execAll_grows host kind n ss env
  · exact .pure Grows.stable _

/-! ### Places -/

/-- To execute a `yield`, or to give up if there is no reply to it. -/
def watch (host : Host σ) (e : Expr) (env : Bindings) : Eval σ (Exit × Bindings) := do
  let v ← e.eval host env
  let _ ← Eval.yieldAnswered v
  return (.normal, env)

/-- Where one call is suspended at a `yield` and the other one at a `return yield`, the first one may
be closed, and the second one returns. -/
theorem yield_kins (hhost : host.Blind same) (e : Expr) (henv : env.Alike (fun _ => True) ρ env') :
    Eval.Kins same K K (Stmt.LeftAlike fun _ => True) Stmt.Returns ρ ((Stmt.expr (.yield e)).exec host kind n env)
      ((Stmt.ret (some (.yield e))).exec host kind n env') (watch host e env) := by
  rw [Stmt.exec, Stmt.exec, Expr.eval, Expr.eval, bind_assoc, bind_assoc]
  refine (e.eval_twins hhost (fun _ _ => trivial) henv).bind_kins fun τ v v' hτ hv since χ S S' hχ hS => ?_
  have hv := hv.mono hχ
  have hseen := ((hS.withRval hv).withTrace (Event.Alike.yield hv).seen).toBeside
  refine .stands (le_refl χ) (bind_of_error (Eval.yield_of_nil hS.script v))
    (bind_of_error (Eval.yieldAnswered_of_nil hS.script v)) (bind_of_error (Eval.yield_of_nil hS.script' v')) hv hseen
    fun {ψ r r'} hψ hr => ?_
  obtain ⟨w, w', hanswer, hanswer', hw⟩ := hr.answer
  have hscript (s : List (Reply σ)) : ((S.more [r]).more s).script = r :: s := by
    simp [CallState.more, hS.script]
  have hscript' (s : List (Reply σ)) : ((S'.more [r']).more s).script = r' :: s := by
    simp [CallState.more, hS.script']
  let T := Eval.resumed { S with rval := v } (.yield v) r
  let T' := Eval.resumed { S' with rval := v' } (.yield v') r'
  have hleft (s : List (Reply σ)) : Eval.yield v ((S.more [r]).more s) = .error (.thrown .closing) (T.more s) := by
    rw [Eval.yield_of_cons (hscript s), hanswer]
    rfl
  have hright (s : List (Reply σ)) : Eval.yield v' ((S'.more [r']).more s) = .ok w' (T'.more s) := by
    rw [Eval.yield_of_cons (hscript' s), hanswer']
    rfl
  have hclosed : T.rval = w := by
    show r.answer.slot v = w
    rw [hanswer]
    rfl
  refine .at_once (.error .closing) (.ok (.ret w', env')) T { T' with trace := T'.trace ++ [.returns w'], rval := w' }
    (le_refl ψ) (fun s => bind_of_error (hleft s)) (fun s => bind_of_error ?_)
    (fun s => (bind_of_ok (hright s)).trans rfl)
    (.parted ⟨w', rfl, ?_⟩ ⟨⟨hr.world, hr.globals, ?_, ?_⟩, rfl, rfl, K.mono hψ hS.scopes⟩ ?_)
  · rw [Eval.yieldAnswered_of_cons (hscript s)]
    exact hleft s
  · rwa [hclosed]
  · have hrest : Event.SeenAlike ψ [.resume r.answer] [.resume r'.answer, .returns w'] := .nil
    have htrace := (hseen.trace.mono hψ).append hrest
    rwa [List.append_cons _ (Event.resume r'.answer) [Event.returns w']] at htrace
  · rwa [hclosed]
  · exact (List.prefix_append _ _).length_le

end Stmt

namespace Block.Place

theorem between_kins (hhost : host.Blind same) {before after : List Stmt} (hbefore : K.Takes before)
    (hafter : K.Takes after) {middle middle' watched : Bindings → Eval σ (Exit × Bindings)}
    (hmiddle : ∀ {ρ : Pairing} {env env' : Bindings}, env.Alike (fun _ => True) ρ env' →
      Eval.Kins same K K (Stmt.LeftAlike fun _ => True) Stmt.Returns ρ (middle env) (middle' env') (watched env))
    (henv : env.Alike (fun _ => True) ρ env') :
    Eval.Kins same K K Exit.Alike Exit.Returns ρ (between host kind n before after middle env)
      (between host kind n before after middle' env') (between host kind n before after watched env) := by
  refine (Stmt.execThrough_twins hhost before (fun _ _ => trivial) hbefore henv).bind_kins fun τ l l' _ hl => ?_
  obtain ⟨x, env⟩ := l
  obtain ⟨x', env'⟩ := l'
  obtain ⟨hx, henv⟩ := hl
  refine .branch hx.isNormal_eq ?_ ?_
  · refine (hmiddle henv).bind (fun τ₁ l l' _ hl => ?_) ?_ (Stmt.goOn_grows after) (Stmt.goOn_grows after)
    · exact (Stmt.goOn_twins hl (Stmt.execAll_twins hhost after (fun _ _ => trivial) hafter hl.2)
        (.pure fun _ hχ => hl.1.mono hχ)).kins
    · rintro m χ T T' ⟨_, env'⟩ ⟨w, rfl, hw⟩ hT hm
      exact .at_once (.error .closing) (.ok (.ret w)) T T' (le_refl χ) (fun _ => rfl) (fun _ => rfl) (fun _ => rfl)
        (.parted ⟨w, rfl, hw⟩ hT hm)
  · exact (Eval.Twins.pure fun _ hχ => hx.mono hχ).kins

/-- Blocks that differ at one place. -/
theorem exec_kins (hhost : host.Blind same) (hclosing : host.Unclosing) (hkind : kind.isGenerator = true)
    {s s' : Stmt} (hs : s.isUsing = false) (hs' : s'.isUsing = false) {watched : Bindings → Eval σ (Exit × Bindings)}
    (hmiddle : ∀ {K : Alignment} {ρ : Pairing} {env env' : Bindings}, env.Alike (fun _ => True) ρ env' →
      Eval.Kins same K K (Stmt.LeftAlike fun _ => True) Stmt.Returns ρ (s.exec host kind n env)
        (s'.exec host kind n env') (watched env)) : ∀ (p : Place) {K : Alignment} {ρ : Pairing} {env env' : Bindings},
    (p.disposes = true → ∀ hint, K.Registers hint) → env.Alike (fun _ => True) ρ env' →
    Eval.Kins same K K Exit.Alike Exit.Returns ρ (p.exec host kind n (s.exec host kind n) env)
      (p.exec host kind n (s'.exec host kind n) env') (p.exec host kind n watched env)
  | here before after, K, _, _, _, hK, henv => by
    have htakes : K.Takes (before ++ after) := Alignment.takes_of_registers hK
    exact between_kins hhost (fun s hs => htakes s (List.mem_append_left _ hs))
      (fun s hs => htakes s (List.mem_append_right _ hs)) hmiddle henv
  | inside before holder inner after, K, _, _, _, hK, henv => by
    have htakes : K.Takes (before ++ after) := Alignment.takes_of_registers hK
    have hgrows {s : Stmt} (hs : s.isUsing = false) (env : Bindings) : Within Grows
        (Eval.block host kind inner.disposes (inner.exec host kind n (s.exec host kind n) env)) := by
      rw [exec_fill host kind n hs]
      exact Eval.block_grows host kind (Stmt.execAll_grows host kind n _ env)
    refine between_kins hhost (fun s hs => htakes s (List.mem_append_left _ hs))
      (fun s hs => htakes s (List.mem_append_right _ hs)) (fun henv => ?_) henv
    refine holder.exec_kins hhost hclosing hkind (fun henv => ?_) (hgrows hs) (hgrows hs') henv
    exact Eval.block_kins hhost hclosing hkind fun K₁ hK₁ =>
      exec_kins hhost hclosing hkind hs hs' hmiddle inner hK₁ henv

end Block.Place

/-! ### Calls -/

namespace Declaration.Outline

theorem answer_grows (x : Exit) : Within Grows (answer x : Eval σ Value) := by
  have hnothing : Within Grows (do Eval.returnValue .undefined; return .undefined : Eval σ Value) :=
    .bind Grows.stable (.bind Grows.stable (Eval.log_grows _) fun _ => (Eval.setRval_quiet _).mono Quiet.grows)
      fun _ => .pure Grows.stable _
  cases x with
  | ret v => exact .pure Grows.stable v
  | _ => exact hnothing

theorem answer_twins {x x' : Exit} (h : x.Alike ρ x') : Eval.Twins same K K K Value.Alike ρ (answer x) (answer x') := by
  have hnothing : Eval.Twins same K K K Value.Alike ρ (do Eval.returnValue .undefined; return .undefined : Eval σ Value)
      (do Eval.returnValue .undefined; return .undefined) :=
    (Eval.returnValue_twins .undefined).bind fun _ _ _ _ _ => .pure fun _ _ => .undefined
  cases h with
  | ret hv => exact .pure fun _ hχ => hv.mono hχ
  | _ => exact hnothing

/-- Calls of functions of which one has a `yield` where the other one has `return yield`. -/
theorem call_kins (hhost : host.Blind same) (hclosing : host.Unclosing) (o : Outline)
    (hkind : o.kind.isGenerator = true) (e : Expr) {args args' : List Value} (hargs : Value.AllAlike ρ args args') :
    Eval.Kins same K K Value.Alike Value.Alike ρ ((o.fill (.expr (.yield e))).call host n args)
      ((o.fill (.ret (some (.yield e)))).call host n args') (o.call host n (Stmt.watch host e) args) := by
  have hyield : (Stmt.expr (.yield e)).isUsing = false := rfl
  have hret : (Stmt.ret (some (.yield e))).isUsing = false := rfl
  rw [← call_fill host n hyield, ← call_fill host n hret]
  refine Eval.Kins.bind (Eval.block_kins hhost hclosing hkind fun K₁ hK₁ => ?_)
    (fun τ x x' _ hx => (answer_twins hx).kins) (Eval.departs_ret (fun w => w) (fun _ => rfl) fun hw => hw)
    answer_grows answer_grows
  exact o.place.exec_kins hhost hclosing hkind hyield hret (Stmt.yield_kins hhost e) hK₁
    ((o.fill (.ret none)).bind_alike hargs)

end Declaration.Outline

end

end ResourceMachine
