/-
# What statements lay out

One theorem for each form of a statement, and from them, along the syntax, that
whatever is lowered is laid out.

Key theorems: `Stmt.lowered_whileLoop`, `Stmt.lowered_forOf`,
`Stmt.lowered_tryCatch`, `Stmt.lowered`, `Stmt.loweredAll`.
-/
import ResourceMachine.Proofs.BlockEmission
import ResourceMachine.Proofs.PoolGrowth

namespace ResourceMachine

/-- An expression leaves the function ready for what follows. -/
theorem Expr.lower_lowers {O : List PendingJump} {rs : List Shape} {S S' : Lowering} {x : Expr}
    {u : Unit} {d : Nat} (h : x.lower S = .ok u S') (hd : S.emitter.depth = d)
    (hready : S.Ready rs) :
    S'.names = S.names ∧ S'.emitter.depth = d + 1 ∧ Lowers O O rs rs S S' fun t =>
      x.Laid t S.names d S.emitter.code.size S'.emitter.code.size := by
  obtain ⟨e', rfl, hd', hx⟩ := Expr.lower_lays (O := O ++ S.pending) h hd
  exact ⟨rfl, hd', hx.lowers hready⟩

/-- An instruction leaves the function ready for what follows. -/
theorem Lower.emit_lowers {O : List PendingJump} {rs : List Shape} {S S' : Lowering} {i : Instr}
    {u : Unit} {d d' : Nat} (h : (liftM (Emitter.emit i) : Lower Unit) S = .ok u S')
    (hd : S.emitter.depth = d) (hd' : d - i.stackEffect.pops + i.stackEffect.pushes = d')
    (hready : S.Ready rs) :
    S'.names = S.names ∧ S'.emitter.depth = d' ∧ Lowers O O rs rs S S' fun t =>
      t.Line d S.emitter.code.size [i] d' S'.emitter.code.size := by
  obtain ⟨e', rfl, hd', hi⟩ := Lower.emit_lays (O := O ++ S.pending) h hd hd'
  exact ⟨rfl, hd', hi.lowers hready⟩

/-- The jumps out of a loop lead behind it. -/
theorem Lower.patchBreaks_lays : ∀ {O js : List PendingJump} {e e' : Emitter} {u : Unit},
    patchBreaks js e = .ok u e' →
    e'.depth = e.depth ∧ e'.code.size = e.code.size ∧
      Lays (js ++ O) O e e' fun t => ∀ j ∈ js, t.Leads j e.code.size
  | O, [], e, _, _, h => by
    cases h
    exact ⟨rfl, rfl, (Lays.refl O e).imp fun _ _ => nofun⟩
  | O, j :: js, e, e', _, h => by
    obtain ⟨_, e₁, hj, hjs⟩ := bind_eq_ok.mp h
    obtain ⟨hd₁, hsize₁, hj⟩ := Emitter.patchHere_lays (O := js ++ O) hj
    obtain ⟨hd₂, hsize₂, hjs⟩ := patchBreaks_lays (O := O) hjs
    refine ⟨hd₂.trans hd₁, hsize₂.trans hsize₁, (hj.trans hjs).imp ?_⟩
    rintro t ⟨hj, hjs⟩
    rw [hsize₁] at hjs
    exact List.forall_mem_cons.mpr ⟨hj, hjs⟩

namespace Stmt

variable {name binding : String} {label param : Option String} {hint : Hint} {x : Expr}
  {body : List Stmt}

/-! ### Simple statements -/

theorem lowered_expr : (expr x).Lowered := by
  intro O rs S S' d h hd hready _
  obtain ⟨_, S₁, h₁, h₂⟩ := bind_eq_ok.mp h
  obtain ⟨hnames₁, hd₁, hx⟩ := Expr.lower_lowers (O := O) h₁ hd hready
  obtain ⟨hnames₂, hd₂, hpop⟩ := Lower.emit_lowers (O := O) h₂ hd₁ rfl hx.ready
  refine ⟨hd₂, (hx.trans hpop).imp ?_⟩
  rintro t ⟨hx, hpop⟩
  exact ⟨_, hx, hpop, hnames₂.trans hnames₁⟩

theorem lowered_letIn : (letIn name x).Lowered := by
  intro O rs S S' d h hd hready _
  obtain ⟨_, S₁, h₁, h₂⟩ := bind_eq_ok.mp h
  obtain ⟨hnames₁, hd₁, hx⟩ := Expr.lower_lowers (O := O) h₁ hd hready
  obtain ⟨slot, hnames₂, hd₂, hstore⟩ := Lower.declareAndStore_lowers (O := O) h₂ hd₁ hx.ready
  refine ⟨hd₂, (hx.trans hstore).imp ?_⟩
  rintro t ⟨hx, hfresh, hstore⟩
  rw [hnames₁] at hnames₂ hfresh
  exact ⟨_, slot, hx, hfresh, hstore, hnames₂⟩

theorem lowered_usingIn : (usingIn name hint x).Lowered := by
  intro O rs S S' d h hd hready hroom
  obtain ⟨_, S₁, h₁, h⟩ := bind_eq_ok.mp h
  obtain ⟨_, S₂, h₂, h₃⟩ := bind_eq_ok.mp h
  obtain ⟨hnames₁, hd₁, hx⟩ := Expr.lower_lowers (O := O) h₁ hd hready
  obtain ⟨awaits, room, outer, rfl, hnames₂, hd₂, hregister⟩ :=
    Lower.registerUsing_lowers (O := O) h₂ hd₁ hx.ready
  obtain ⟨slot, hnames₃, hd₃, hstore⟩ :=
    Lower.declareAndStore_lowers (O := O) h₃ hd₂ hregister.ready
  have hroom : 1 ≤ room := hroom _ _ _ rfl
  refine ⟨hd₃, ((hx.trans hregister).trans hstore).imp ?_⟩
  rintro t ⟨⟨hx, hkind, hregister⟩, hfresh, hstore⟩
  rw [hnames₂, hnames₁] at hnames₃ hfresh
  refine ⟨_, _, slot, ⟨awaits, room - 1, outer, ?_⟩, hkind, hx, hregister, hfresh, hstore, hnames₃⟩
  rw [Nat.sub_add_cancel hroom]

theorem lowered_throw : (throw x).Lowered := by
  intro O rs S S' d h hd hready _
  obtain ⟨_, S₁, h₁, h₂⟩ := bind_eq_ok.mp h
  obtain ⟨hnames₁, hd₁, hx⟩ := Expr.lower_lowers (O := O) h₁ hd hready
  obtain ⟨hnames₂, hd₂, hthrow⟩ := Lower.emit_lowers (O := O) h₂ hd₁ rfl hx.ready
  refine ⟨hd₂, (hx.trans hthrow).imp ?_⟩
  rintro t ⟨hx, hthrow⟩
  exact ⟨_, hx, hthrow, hnames₂.trans hnames₁⟩

theorem lowered_ret : ∀ {x : Option Expr}, (ret x).Lowered := by
  intro x O rs S S' d h hd hready _
  replace h : Lower.ret x S = .ok () S' := h
  rw [Lower.ret_eq] at h
  cases x with
  | some x =>
    obtain ⟨_, S₁, h₁, h₂⟩ := bind_eq_ok.mp h
    obtain ⟨hnames₁, hd₁, hx⟩ := Expr.lower_lowers (O := O) h₁ hd hready
    obtain ⟨hnames₂, hd₂, hret⟩ := Lower.retTop_lowers (O := O) h₂ hd₁ hx.ready
    refine ⟨hd₂, (hx.trans hret).imp ?_⟩
    rintro t ⟨hx, m, hset, hleaving⟩
    rw [hnames₁] at hleaving
    exact ⟨_, m, hx, hset, hleaving, hnames₂.trans hnames₁⟩
  | none =>
    obtain ⟨_, S₁, h₁, h₂⟩ := bind_eq_ok.mp h
    obtain ⟨hnames₁, hd₁, hx⟩ := Lower.emit_lowers (O := O) h₁ hd rfl hready
    obtain ⟨hnames₂, hd₂, hret⟩ := Lower.retTop_lowers (O := O) h₂ hd₁ hx.ready
    refine ⟨hd₂, (hx.trans hret).imp ?_⟩
    rintro t ⟨hx, m, hset, hleaving⟩
    rw [hnames₁] at hleaving
    exact ⟨_, m, hx, hset, hleaving, hnames₂.trans hnames₁⟩

theorem lowered_breakLoop : (breakLoop label).Lowered := by
  intro O rs S S' d h hd hready _
  obtain ⟨hnames, hd', hbreak⟩ := Lower.breakLoop_lowers (O := O) h hd hready
  exact ⟨hd', hbreak.imp fun t h => ⟨h, hnames⟩⟩

theorem lowered_continueLoop : (continueLoop label).Lowered := by
  intro O rs S S' d h hd hready _
  obtain ⟨hnames, hd', hcontinue⟩ := Lower.continueLoop_lowers (O := O) h hd hready
  exact ⟨hd', hcontinue.imp fun t h => ⟨h, hnames⟩⟩

/-! ### Blocks and branches -/

theorem lowered_block (hbody : LoweredAll body) : (block body).Lowered := by
  intro O rs S S' d h hd hready _
  obtain ⟨hnames, hd', hblock⟩ := Lower.inBlock_lowers (O := O) hbody h hd rfl hready
  exact ⟨hd', hblock.imp fun t h => ⟨h, hnames⟩⟩

theorem lowered_ifElse {yes no : List Stmt} (hyes : LoweredAll yes) (hno : LoweredAll no) :
    (ifElse x yes no).Lowered := by
  intro O rs S S' d h hd hready _
  obtain ⟨_, S₁, h₁, h⟩ := bind_eq_ok.mp h
  obtain ⟨b, S₂, h₂, h⟩ := bind_eq_ok.mp h
  obtain ⟨_, S₃, h₃, hrest⟩ := bind_eq_ok.mp h
  obtain ⟨hnames₁, hd₁, hx⟩ := Expr.lower_lowers (O := O) h₁ hd hready
  obtain ⟨e₂, hfirst, rfl⟩ := Lower.lift_eq_ok h₂
  obtain ⟨hb, hd₂, hsize₂, hfirst⟩ := Branch.first_lays (O := O ++ S₁.pending) hfirst hd₁
  have hfirst : Lowers O (b.pending :: O) rs rs S₁ { S₁ with emitter := e₂ } _ :=
    hfirst.lowers hx.ready
  obtain ⟨hnames₃, hd₃, hyes⟩ :=
    Lower.inBlock_lowers (O := b.pending :: O) hyes h₃ hd₂ hnames₁ hfirst.ready
  cases hempty : no.isEmpty with
  | true =>
    rw [hempty] at hrest
    obtain ⟨e₄, hclose, rfl⟩ := Lower.lift_eq_ok hrest
    obtain ⟨-, hd₄, hsize₄, hclose⟩ := Branch.close_lays (O := O ++ S₃.pending) hclose
    have hclose : Lowers (b.pending :: O) O rs rs S₃ { S₃ with emitter := e₄ } _ :=
      hclose.lowers hyes.ready
    refine ⟨hd₄.trans hb, (((hx.trans hfirst).trans hyes).trans hclose).imp ?_⟩
    rintro t ⟨⟨⟨hx, hfirst⟩, hyes⟩, hclose⟩
    rw [hsize₄]
    simp only [hsize₂] at hyes
    refine ⟨_, _, hx, hyes, ?_, hnames₃⟩
    rw [if_pos hempty]
    exact ⟨hfirst _ hclose, rfl⟩
  | false =>
    rw [hempty] at hrest
    obtain ⟨b', S₄, h₄, hrest⟩ := bind_eq_ok.mp hrest
    obtain ⟨_, S₅, h₅, h₆⟩ := bind_eq_ok.mp hrest
    obtain ⟨e₄, hsecond, rfl⟩ := Lower.lift_eq_ok h₄
    obtain ⟨hb', hd₃, hd₄, hsize₄, hsecond⟩ := Branch.second_lays (O := O ++ S₃.pending) hsecond
    have hsecond : Lowers (b.pending :: O) (b'.pending :: O) rs rs S₃ { S₃ with emitter := e₄ } _ :=
      hsecond.lowers hyes.ready
    obtain ⟨hnames₅, hd₅, hno⟩ :=
      Lower.inBlock_lowers (O := b'.pending :: O) hno h₅ (hd₄.trans hb) hnames₃ hsecond.ready
    obtain ⟨e₆, hclose, rfl⟩ := Lower.lift_eq_ok h₆
    obtain ⟨-, hd₆, hsize₆, hclose⟩ := Branch.close_lays (O := O ++ S₅.pending) hclose
    have hclose : Lowers (b'.pending :: O) O rs rs S₅ { S₅ with emitter := e₆ } _ :=
      hclose.lowers hno.ready
    refine ⟨hd₆.trans (hb'.trans hb), (((((hx.trans hfirst).trans hyes).trans hsecond).trans hno).trans hclose).imp ?_⟩
    rintro t ⟨⟨⟨⟨⟨hx, hfirst⟩, hyes⟩, hskip, hsecond⟩, hno⟩, hclose⟩
    rw [hsize₆]
    simp only [hsize₂] at hyes
    simp only [hsize₄] at hno
    refine ⟨_, _, hx, hyes, ?_, hnames₅⟩
    rw [hempty]
    exact ⟨hfirst _ hskip, hsecond _ hclose, hno⟩

/-! ### Loops -/

theorem lowered_whileLoop (hbody : LoweredAll body) : (whileLoop label x body).Lowered := by
  intro O rs S S' d h hd hready _
  obtain ⟨exitDepth, S₁, h₁, h⟩ := bind_eq_ok.mp h
  obtain ⟨l, S₂, h₂, h⟩ := bind_eq_ok.mp h
  obtain ⟨_, S₃, h₃, h⟩ := bind_eq_ok.mp h
  obtain ⟨l', S₄, h₄, h⟩ := bind_eq_ok.mp h
  obtain ⟨_, S₅, h₅, h⟩ := bind_eq_ok.mp h
  obtain ⟨_, S₆, h₆, h⟩ := bind_eq_ok.mp h
  obtain ⟨region, S₇, h₇, h⟩ := bind_eq_ok.mp h
  obtain ⟨_, S₈, h₈, h₉⟩ := bind_eq_ok.mp h
  cases h₁
  cases h₂
  obtain ⟨hnames₃, hd₃, hx⟩ := Expr.lower_lowers (O := O) h₃ hd hready
  obtain ⟨e₄, hexit, rfl⟩ := Lower.lift_eq_ok h₄
  obtain ⟨j, rfl, hd₄, hsize₄, hexit⟩ := Loop.body_lays (O := O ++ S₃.pending) hexit hd₃
  have hexit : Lowers O (j :: O) rs rs S₃ { S₃ with emitter := e₄ } _ := hexit.lowers hx.ready
  cases h₅
  have hbehind := (hx.trans hexit).lays.grown.size_le
  have hentered : Lowering.Ready (.loop label false S.emitter.code.size S'.emitter.code.size :: rs)
      ⟨e₄, S₃.scopes, .loop ⟨label, false, S.emitter.code.size, [], S.emitter.depth⟩ :: S₃.regions⟩ :=
    ⟨.cons (.loop hbehind) hexit.ready.suits, hexit.ready.bound, hexit.ready.nonempty⟩
  obtain ⟨hnames₆, hd₆, hblock⟩ :=
    Lower.inBlock_lowers (O := j :: O) hbody h₆ hd₄ hnames₃ hentered
  obtain ⟨r', regions', hregions', hr', -, hblock⟩ := hblock.popRegion rfl
  obtain ⟨loop', rfl⟩ := hr'.loop_inv
  obtain ⟨rfl, rfl⟩ := Lower.popRegion_eq_ok h₇ hregions'
  obtain ⟨e₈, hclose, rfl⟩ := Lower.lift_eq_ok h₈
  obtain ⟨e₉, hpatch, rfl⟩ := Lower.lift_eq_ok h₉
  have hsize₆ := Nat.le_trans hbehind hblock.lays.grown.size_le
  let S₇ : Lowering := ⟨S₆.emitter, S₆.scopes, regions'⟩
  obtain ⟨-, hd₈, hsize₈, hclose⟩ :=
    Loop.close_lays (O := loop'.breaks ++ O ++ S₇.pending) hclose rfl hsize₆
  obtain ⟨hd₉, hsize₉, hpatch⟩ := Lower.patchBreaks_lays (O := O ++ S₇.pending) hpatch
  rw [← List.append_assoc] at hpatch
  have hblock : Lowers (j :: O) (j :: (loop'.breaks ++ O)) rs rs _ _ _ :=
    hblock.perm List.perm_middle
  have hend : Lowers (j :: (loop'.breaks ++ O)) O rs rs S₇ { S₇ with emitter := e₉ } _ :=
    (hclose.trans hpatch).lowers hblock.ready
  refine ⟨hd₉.trans (hd₈.trans hd), (((hx.trans hexit).trans hblock).trans hend).imp ?_⟩
  rintro t ⟨⟨⟨hx, hexit⟩, hblock⟩, ⟨hclose, hleads⟩, hbreaks⟩
  rw [hsize₉, hsize₈]
  simp only [hsize₉, hsize₈, hsize₄] at hblock hbreaks
  exact ⟨_, _, hx, hexit _ hleads, hblock hbreaks, hclose, rfl, hnames₆⟩

section

variable {O : List PendingJump} {S S' : Lowering} {names : Scope} {rounds : Option Hint} {d : Nat}
  {u : Unit}

/-- Emit the start of a round. -/
def openRound (slot : UInt16) (rounds : Option Hint) : Lower Unit := do
  match rounds with
  | some hint =>
    let scope ← Lower.openIteration slot hint
    Lower.pushRegion (.iteration (some scope))
  | none => Lower.pushRegion (.iteration none)

theorem openRound_eq_ok {slot : UInt16} {f : Unit → Lower Unit}
    (h : (match rounds with
      | some hint => do
        let scope ← Lower.openIteration slot hint
        let v ← Lower.pushRegion (.iteration (some scope))
        f v
      | none => do
        let v ← Lower.pushRegion (.iteration none)
        f v) S = .ok u S') :
    ∃ T, openRound slot rounds S = .ok () T ∧ f () T = .ok u S' := by
  cases rounds with
  | some hint =>
    obtain ⟨scope, S₁, h₁, hrest⟩ := bind_eq_ok.mp h
    obtain ⟨_, S₂, h₂, hrest⟩ := bind_eq_ok.mp hrest
    exact ⟨S₂, bind_eq_ok.mpr ⟨scope, S₁, h₁, h₂⟩, hrest⟩
  | none =>
    obtain ⟨_, S₂, h₂, hrest⟩ := bind_eq_ok.mp h
    exact ⟨S₂, h₂, hrest⟩

/-- A round starts with the registration of its value. -/
theorem openRound_lays {slot : UInt16}
    (h : openRound slot rounds S = .ok u S') (hd : S.emitter.depth = d) :
    ∃ scope e', S' = ⟨e', S.scopes, .iteration scope :: S.regions⟩ ∧ e'.depth = d ∧
      (∀ names, (Region.iteration scope).Suits names e' (.iteration (rounds.map (· == .async)))) ∧
      (Region.iteration scope).pending = [] ∧
      Lays O O S.emitter e' fun t => t.OpenRound slot rounds d S.emitter.code.size e'.code.size := by
  cases rounds with
  | none =>
    cases h
    exact ⟨none, _, rfl, hd, fun _ => .plainIteration, rfl, (Lays.refl O _).imp fun _ _ => rfl⟩
  | some hint =>
    obtain ⟨scope, S₁, h₁, h₂⟩ := bind_eq_ok.mp h
    cases h₂
    obtain ⟨_, S₂, h₂, h⟩ := bind_eq_ok.mp h₁
    obtain ⟨_, S₃, h₃, h⟩ := bind_eq_ok.mp h
    obtain ⟨scope', S₄, h₄, h⟩ := bind_eq_ok.mp h
    obtain ⟨_, S₅, h₅, h₆⟩ := bind_eq_ok.mp h
    cases h₆
    obtain ⟨e₁, henter, rfl⟩ := Lower.lift_eq_ok h₂
    obtain ⟨hd₁, hsize₁, henter⟩ := Emitter.enterScope_lays (O := O) henter hd
    obtain ⟨e₂, rfl, hd₂, hload⟩ := Lower.emit_lays (O := O) h₃ hd₁ rfl
    obtain ⟨e₃, hregister, rfl⟩ := Lower.lift_eq_ok h₄
    obtain ⟨rfl, hd₃, hregister⟩ :=
      DisposalScope.register_lays (O := O) (d := d) (ScopeEmit.on_eq_ok hregister) hd₂
    obtain ⟨e₄, rfl, hd₄, hpop⟩ := Lower.emit_lays (O := O) h₅ hd₃ rfl
    refine ⟨_, e₄, rfl, hd₄, ?_, rfl, (((henter.trans hload).trans hregister).trans hpop).imp ?_⟩
    · exact fun _ => .iteration nofun
    · rintro t ⟨⟨⟨henter, hload⟩, hkind, hregister⟩, hpop⟩
      exact ⟨hkind, ((henter.append hload).append hregister).append hpop⟩

/-- Emit the end of a round. -/
def leaveRound (scope : Option DisposalScope) : Lower (Option DisposalScope) := do
  match scope with
  | some scope => some <$> Lower.leaveIteration scope
  | none => pure none

theorem leaveRound_eq_ok {scope : Option DisposalScope} {f : Option DisposalScope → Lower Unit}
    (h : (match scope with
      | some scope => do
        let scope ← some <$> Lower.leaveIteration scope
        f scope
      | none => do
        let scope ← pure none
        f scope) S = .ok u S') :
    ∃ scope' T, leaveRound scope S = .ok scope' T ∧ f scope' T = .ok u S' := by
  cases scope with
  | some scope => exact bind_eq_ok.mp h
  | none => exact bind_eq_ok.mp h

/-- A round ends with a disposal of its value. -/
theorem leaveRound_lays {scope scope' : Option DisposalScope}
    (h : leaveRound scope S = .ok scope' S')
    (hd : S.emitter.depth = d)
    (hsuits : (Region.iteration scope).Suits names S.emitter (.iteration (rounds.map (· == .async))))
    (hbound : names.Bound S.emitter.localCount.toNat) :
    ∃ e', S' = { S with emitter := e' } ∧ e'.depth = d ∧
      (Region.iteration scope').Suits names e' (.iteration (rounds.map (· == .async))) ∧
      Lays O O S.emitter e' fun t =>
        t.LeaveRound names rounds d S.emitter.code.size e'.code.size := by
  rcases hsuits.iteration_inv with ⟨rfl, hnone⟩ | ⟨s, rfl, hsome, hapart⟩
  · obtain rfl := Option.map_eq_none_iff.mp hnone
    cases h
    exact ⟨_, rfl, hd, .plainIteration, (Lays.refl O _).imp fun _ _ => rfl⟩
  · obtain ⟨hint, rfl, hawaits⟩ := Option.map_eq_some_iff.mp hsome
    have h : (Lower.leaveIteration s >>= fun scope => pure (some scope)) S = .ok scope' S' := h
    obtain ⟨s', S₁, h₁, h₂⟩ := bind_eq_ok.mp h
    cases h₂
    obtain ⟨s'', S₂, h₂, h⟩ := bind_eq_ok.mp h₁
    obtain ⟨_, S₃, h₃, h₄⟩ := bind_eq_ok.mp h
    cases h₄
    obtain ⟨e₁, hleave, rfl⟩ := Lower.lift_eq_ok h₂
    obtain ⟨e₂, hpop, rfl⟩ := Lower.lift_eq_ok h₃
    obtain ⟨⟨slots, rfl⟩, hapart, hd₁, hleave⟩ :=
      DisposalScope.leave_lays (O := O) (ScopeEmit.on_eq_ok hleave) hd hapart hbound
    obtain ⟨hd₂, hpop⟩ := Emitter.leaveScope_lays (O := O) hpop hd₁
    refine ⟨e₂, rfl, hd₂, ?_, (hleave.trans hpop).imp ?_⟩
    · rw [hsome]
      exact .iteration (hapart.mono hpop.grown.localCount_le)
    · rintro t ⟨hleave, hpop⟩
      rw [← hawaits] at hleave
      exact ⟨_, hleave, hpop⟩

/-- Emit the code for a round that throws. -/
def leaveRoundByThrow (scope : Option DisposalScope) : Lower Unit := do
  match scope with
  | some scope => Lower.leaveIterationByThrow scope
  | none => pure ()

theorem leaveRoundByThrow_eq_ok {scope : Option DisposalScope} {f : Unit → Lower Unit}
    (h : (match scope with
      | some scope => do
        let v ← Lower.leaveIterationByThrow scope
        f v
      | none => f ()) S = .ok u S') :
    ∃ T, leaveRoundByThrow scope S = .ok () T ∧ f () T = .ok u S' := by
  cases scope with
  | some scope =>
    obtain ⟨_, T, hleave, hrest⟩ := bind_eq_ok.mp h
    exact ⟨T, hleave, hrest⟩
  | none => exact ⟨S, rfl, h⟩

/-- A round that throws disposes its value. -/
theorem leaveRoundByThrow_lays {scope : Option DisposalScope}
    (h : leaveRoundByThrow scope S = .ok u S')
    (hd : S.emitter.depth = d + 1)
    (hsuits : (Region.iteration scope).Suits names S.emitter (.iteration (rounds.map (· == .async))))
    (hbound : names.Bound S.emitter.localCount.toNat) :
    ∃ e', S' = { S with emitter := e' } ∧ e'.depth = d + 1 ∧
      Lays O O S.emitter e' fun t =>
        t.LeaveRoundByThrow names rounds d S.emitter.code.size e'.code.size := by
  rcases hsuits.iteration_inv with ⟨rfl, hnone⟩ | ⟨s, rfl, hsome, hapart⟩
  · obtain rfl := Option.map_eq_none_iff.mp hnone
    cases h
    exact ⟨_, rfl, hd, (Lays.refl O _).imp fun _ _ => rfl⟩
  · obtain ⟨hint, rfl, hawaits⟩ := Option.map_eq_some_iff.mp hsome
    obtain ⟨s', S₁, h₁, h₂⟩ := bind_eq_ok.mp h
    obtain ⟨e₁, hleave, rfl⟩ := Lower.lift_eq_ok h₁
    obtain ⟨e₂, hpop, rfl⟩ := Lower.lift_eq_ok h₂
    obtain ⟨hd₁, hleave⟩ :=
      DisposalScope.leaveByThrow_lays (O := O) (ScopeEmit.on_eq_ok hleave) hd hapart hbound
    obtain ⟨hd₂, hpop⟩ := Emitter.exitScope_lays (O := O) hpop hd₁
    refine ⟨e₂, rfl, hd₂, (hleave.trans hpop).imp ?_⟩
    rintro t ⟨⟨m, hleave, hdrop⟩, hpop⟩
    rw [← hawaits] at hleave
    exact ⟨m, hleave, hdrop.append hpop⟩

end

/-- Emit a round, and the jump to the next one. -/
def forRound (slot : UInt16) (rounds : Option Hint) (body : List Stmt) (head : Nat) : Lower Unit := do
  let r ← TryRegion.start
  openRound slot rounds
  Lower.inBlock (body.any isUsing) (lowerAll body)
  let scope ← Lower.scopeOf (← Lower.popRegion)
  let scope ← leaveRound scope
  let r ← r.onCatch
  leaveRoundByThrow scope
  Emitter.emitAll [.swap, .iterClose 1, .throw]
  let _ ← r.close
  Emitter.jumpTo .always head

/-- The code of a loop over items is that of a round, and then that of the end. -/
theorem forRound_eq_ok {slot : UInt16} {head exitDepth : Nat} {done : PendingJump} {body : List Stmt}
    (h : (do
      let t ← TryRegion.start
      Lower.rounds t slot rounds (body.any isUsing) (lowerAll body) head done exitDepth : Lower Unit) S =
        .ok u S') :
    ∃ T, forRound slot rounds body head S = .ok () T ∧ Lower.endLoop done exitDepth T = .ok u S' := by
  obtain ⟨r, S₁, h₁, h⟩ := bind_eq_ok.mp h
  obtain ⟨S₂, h₂, h⟩ := openRound_eq_ok h
  obtain ⟨_, S₃, h₃, h⟩ := bind_eq_ok.mp h
  obtain ⟨region, S₄, h₄, h⟩ := bind_eq_ok.mp h
  obtain ⟨scope, S₅, h₅, h⟩ := bind_eq_ok.mp h
  obtain ⟨scope', S₆, h₆, h⟩ := leaveRound_eq_ok h
  obtain ⟨r', S₇, h₇, h⟩ := bind_eq_ok.mp h
  obtain ⟨S₈, h₈, h⟩ := leaveRoundByThrow_eq_ok h
  obtain ⟨_, S₉, h₉, h⟩ := bind_eq_ok.mp h
  obtain ⟨r'', S₁₀, h₁₀, h⟩ := bind_eq_ok.mp h
  obtain ⟨_, S₁₁, h₁₁, h⟩ := bind_eq_ok.mp h
  exact ⟨S₁₁, bind_eq_ok.mpr ⟨r, S₁, h₁, bind_eq_ok.mpr ⟨_, S₂, h₂, bind_eq_ok.mpr ⟨_, S₃, h₃,
    bind_eq_ok.mpr ⟨region, S₄, h₄, bind_eq_ok.mpr ⟨scope, S₅, h₅,
      bind_eq_ok.mpr ⟨scope', S₆, h₆, bind_eq_ok.mpr ⟨r', S₇, h₇,
        bind_eq_ok.mpr ⟨_, S₈, h₈, bind_eq_ok.mpr ⟨_, S₉, h₉,
          bind_eq_ok.mpr ⟨r'', S₁₀, h₁₀, h₁₁⟩⟩⟩⟩⟩⟩⟩⟩⟩⟩, h⟩

/-- A round is protected by a handler that closes the iterator. -/
theorem forRound_lowers {O : List PendingJump} {rs : List Shape} {S S' : Lowering}
    {names : Scope} {rounds : Option Hint} {slot : UInt16} {regions : List Region}
    {head exitDepth d : Nat} {u : Unit} (breakTo : Nat) (hbody : LoweredAll body)
    (h : forRound slot rounds body head S = .ok u S') (hd : S.emitter.depth = d + 1)
    (hnames : S.names = names)
    (hregions : S.regions = .loop ⟨label, true, head, [], exitDepth⟩ :: regions)
    (hhead : head ≤ S.emitter.code.size) (hready : Lowering.Ready rs { S with regions }) :
    ∃ l' regions', S'.regions = .loop l' :: regions' ∧
      Lowers O (l'.breaks ++ O) rs rs { S with regions } { S' with regions := regions' } fun t =>
        (∀ j ∈ l'.breaks, t.Leads j breakTo) → ∃ n m₁ m₂ m₃ m₄ past,
          S'.emitter.code.size = past + 5 ∧
          t.Protect S.emitter.code.size (some (m₃ + 5)) none ∧
          t.OpenRound slot rounds (d + 1) (S.emitter.code.size + 9) n ∧
          t.Block names body
            (.iteration (rounds.map (· == .async)) :: .loop label true head breakTo :: rs)
            (fun rs d p q => LaidAll t body rs names d p q) (d + 1) n m₁ ∧
          t.LeaveRound names rounds (d + 1) m₁ m₂ ∧
          t.Line (d + 1) m₂ [.endTry] (d + 1) m₃ ∧
          t.Jump .always m₃ past ∧
          t.LeaveRoundByThrow names rounds (d + 1) (m₃ + 5) m₄ ∧
          t.Line (d + 2) m₄ [.swap, .iterClose 1, .throw] d past ∧
          t.Jump .always past head := by
  obtain ⟨r, S₁, h₁, h⟩ := bind_eq_ok.mp h
  obtain ⟨_, S₂, h₂, h⟩ := bind_eq_ok.mp h
  obtain ⟨_, S₃, h₃, h⟩ := bind_eq_ok.mp h
  obtain ⟨region, S₄, h₄, h⟩ := bind_eq_ok.mp h
  obtain ⟨scope, S₅, h₅, h⟩ := bind_eq_ok.mp h
  obtain ⟨scope', S₆, h₆, h⟩ := bind_eq_ok.mp h
  obtain ⟨r', S₇, h₇, h⟩ := bind_eq_ok.mp h
  obtain ⟨_, S₈, h₈, h⟩ := bind_eq_ok.mp h
  obtain ⟨_, S₉, h₉, h⟩ := bind_eq_ok.mp h
  obtain ⟨r'', S₁₀, h₁₀, h₁₁⟩ := bind_eq_ok.mp h
  clear h
  obtain ⟨e₁, hstart, rfl⟩ := Lower.lift_eq_ok h₁
  let S₀ : Lowering := { S with regions }
  obtain ⟨hs, hstage, hr, hd₁, hsize₁, hstart⟩ :=
    TryRegion.start_lays_catch (O := O ++ S₀.pending) hstart
  obtain ⟨scope, e₂, rfl, hd₂, hiteration, hpending, hopen⟩ :=
    openRound_lays (O := hs.onCatch :: (O ++ S₀.pending)) h₂ (hd₁.trans hd)
  have hopened : Lowers O (hs.onCatch :: O) rs rs S₀ { S₀ with emitter := e₂ } _ :=
    (hstart.trans hopen).lowers hready
  have hbehind := Nat.le_trans hhead hopened.lays.grown.size_le
  rw [hregions] at h₃
  have hentered : Lowering.Ready
      (.iteration (rounds.map (· == .async)) :: .loop label true head breakTo :: rs)
      ⟨e₂, S.scopes, .iteration scope :: .loop ⟨label, true, head, [], exitDepth⟩ :: regions⟩ :=
    ⟨.cons (hiteration _) (.cons (.loop hbehind) hopened.ready.suits), hopened.ready.bound,
      hopened.ready.nonempty⟩
  obtain ⟨hnames₃, hd₃, hblock⟩ :=
    Lower.inBlock_lowers (O := hs.onCatch :: O) hbody h₃ hd₂ hnames hentered
  obtain ⟨region', regions', hregions', hregion', -, hblock⟩ := hblock.popRegion rfl
  obtain ⟨scope₁, rfl⟩ := hregion'.round_inv
  obtain ⟨rfl, rfl⟩ := Lower.popRegion_eq_ok h₄ hregions'
  cases h₅
  obtain ⟨region', regions'', hregions'', hregion'', -, hblock⟩ := hblock.popRegion rfl
  obtain ⟨l', rfl⟩ := hregion''.loop_inv
  rw [hpending] at hblock
  let S₄ : Lowering := ⟨S₃.emitter, S₃.scopes, regions''⟩
  have hbound : names.Bound S₃.emitter.localCount.toNat := hnames₃ ▸ hblock.ready.bound
  rw [hnames₃] at hregion'
  let X := l'.breaks ++ O ++ S₄.pending
  obtain ⟨e₆, rfl, hd₆, hregion₆, hleave⟩ :=
    leaveRound_lays (O := hs.onCatch :: X) h₆ hd₃ hregion' hbound
  obtain ⟨e₇, hcatch, rfl⟩ := Lower.lift_eq_ok h₇
  obtain ⟨-, hd₇, hsize₇, j, hstage', hr', hcatch⟩ :=
    TryRegion.onCatch_lays (O := X) hcatch hstage
  rw [hr, hd] at hd₇ hcatch
  have hcount := (hleave.trans hcatch).grown.localCount_le
  obtain ⟨e₈, rfl, hd₈, hleaveThrow⟩ := leaveRoundByThrow_lays (O := j :: X) h₈ hd₇
    (hregion₆.grow hcatch.grown) fun b hb => Nat.lt_of_lt_of_le (hbound b hb) hcount
  obtain ⟨e₉, hend, rfl⟩ := Lower.lift_eq_ok h₉
  obtain ⟨-, hend⟩ := Emitter.emitAll_lays (O := j :: X) hend hd₈ rfl
  obtain ⟨e₁₀, hclose, rfl⟩ := Lower.lift_eq_ok h₁₀
  obtain ⟨-, hsize₁₀, hclose⟩ := TryRegion.close_lays_catch (O := X) hclose hstage'
  obtain ⟨e₁₁, hjump, rfl⟩ := Lower.lift_eq_ok h₁₁
  have hbehind₃ := Nat.le_trans hbehind hblock.lays.grown.size_le
  have hround := (((hleave.trans hcatch).trans hleaveThrow).trans hend).trans hclose
  obtain ⟨-, hsize₁₁, hjump⟩ := Emitter.jumpTo_lays (O := X) hjump rfl
    (Nat.le_trans hbehind₃ hround.grown.size_le)
  have hblock : Lowers (hs.onCatch :: O) (hs.onCatch :: (l'.breaks ++ O)) rs rs _ _ _ :=
    hblock.perm List.perm_middle
  have hrest : Lowers (hs.onCatch :: (l'.breaks ++ O)) (l'.breaks ++ O) rs rs S₄
      { S₄ with emitter := e₁₁ } _ := (hround.trans hjump).lowers hblock.ready
  have hle₂ := hopen.grown.size_le
  have hle₃ := (hblock.lays.grown.trans hleave.grown).size_le
  refine ⟨l', regions'', hregions'', ((hopened.trans hblock).trans hrest).imp ?_⟩
  rintro t ⟨⟨⟨hstart, hopen⟩, hblock⟩,
    ⟨⟨⟨⟨hleave, hendTry, hover, hleads, -⟩, hleaveThrow⟩, hend⟩, hclose⟩, hjump⟩ hbreaks
  rw [hsize₁₁, hsize₁₀]
  rw [hsize₁₀] at hjump
  simp only [hsize₁] at hopen hle₂
  have hprotect := hstart (e₆.code.size + 6) hleads (by
    have hle₃ : e₂.code.size ≤ e₆.code.size := hle₃
    omega)
  rw [hsize₇] at hleaveThrow
  exact ⟨_, _, _, _, _, _, rfl, hprotect, hopen, hblock hbreaks nofun, hleave, hendTry,
    hover _ hclose, hleaveThrow, hend, hjump⟩

theorem lowered_forOf {rounds : Option Hint} (hbody : LoweredAll body) :
    (forOf label binding rounds x body).Lowered := by
  intro O rs S S' d h hd hready _
  obtain ⟨exitDepth, S₁, h₁, h⟩ := bind_eq_ok.mp h
  obtain ⟨_, S₂, h₂, h⟩ := bind_eq_ok.mp h
  obtain ⟨_, S₃, h₃, h⟩ := bind_eq_ok.mp h
  obtain ⟨head, S₄, h₄, h⟩ := bind_eq_ok.mp h
  obtain ⟨_, S₅, h₅, h⟩ := bind_eq_ok.mp h
  obtain ⟨done, S₆, h₆, h⟩ := bind_eq_ok.mp h
  obtain ⟨_, S₇, h₇, h⟩ := bind_eq_ok.mp h
  obtain ⟨slot, S₈, h₈, h⟩ := bind_eq_ok.mp h
  obtain ⟨_, S₉, h₉, h⟩ := bind_eq_ok.mp h
  obtain ⟨_, S₁₀, h₁₀, h⟩ := bind_eq_ok.mp h
  obtain ⟨S₁₁, hround, h⟩ := forRound_eq_ok h
  obtain ⟨region', S₁₂, h₁₂, h⟩ := bind_eq_ok.mp h
  obtain ⟨_, S₁₃, h₁₃, h⟩ := bind_eq_ok.mp h
  obtain ⟨_, S₁₄, h₁₄, h⟩ := bind_eq_ok.mp h
  obtain ⟨_, S₁₅, h₁₅, h⟩ := bind_eq_ok.mp h
  obtain ⟨_, S₁₆, h₁₆, h₁₇⟩ := bind_eq_ok.mp h
  clear h
  cases h₁
  cases h₄
  cases h₇
  cases h₁₀
  cases h₁₃
  obtain ⟨hnames₂, hd₂, hx⟩ := Expr.lower_lowers (O := O) h₂ hd hready
  obtain ⟨hnames₃, hd₃, hiterate⟩ := Lower.emit_lowers (O := O) h₃ hd₂ rfl hx.ready
  obtain ⟨hnames₅, hd₅, hnext⟩ := Lower.emit_lowers (O := O) h₅ hd₃ rfl hiterate.ready
  obtain ⟨e₆, hjump, rfl⟩ := Lower.lift_eq_ok h₆
  obtain ⟨hd₆, hsize₆, hjump⟩ := Emitter.jump_lays (O := O ++ S₅.pending) hjump hd₅ rfl
  have hjump : Lowers O (done :: O) rs rs S₅ { S₅ with emitter := e₆ } _ :=
    hjump.lowers hnext.ready
  have hscoped : Lowering.Ready rs ⟨e₆, [] :: S₅.scopes, S₅.regions⟩ :=
    ⟨hjump.ready.suits, hjump.ready.bound, nofun⟩
  obtain ⟨hnames₈, hd₈, hsize₈, hregions₈, hdeclare⟩ :=
    Lower.declare_lowers (O := done :: O) h₈ hscoped
  obtain ⟨hnames₉, hd₉, hstore⟩ :=
    Lower.emit_lowers (O := done :: O) h₉ (hd₈.trans hd₆) rfl hdeclare.ready
  have hnamed : S₉.names = (binding, slot) :: S.names := by
    rw [hnames₉, hnames₈]
    exact congrArg _ (hnames₅.trans (hnames₃.trans hnames₂))
  have hentered := hdeclare.trans hstore
  have hhead := ((hnext.trans hjump).lays.grown.trans hentered.lays.grown).size_le
  obtain ⟨l', regions', hregions', hround⟩ := forRound_lowers (O := done :: O)
    S'.emitter.code.size hbody hround hd₉ hnamed rfl hhead hstore.ready
  obtain ⟨rfl, rfl⟩ := Lower.popRegion_eq_ok h₁₂ hregions'
  have hscopes : S₁₁.scopes.tail = S₅.scopes := (hentered.trans hround).tail_eq
  have hround : Lowers (done :: O) (done :: (l'.breaks ++ O)) rs rs _ _ _ :=
    ((hentered.trans hround).popScope hnext.ready.nonempty).perm List.perm_middle
  let S₁₃ : Lowering := ⟨S₁₁.emitter, S₁₁.scopes.tail, regions'⟩
  obtain ⟨e₁₄, hpatch, rfl⟩ := Lower.lift_eq_ok h₁₄
  obtain ⟨-, hsize₁₄, hpatch⟩ :=
    Emitter.patchHere_lays (O := l'.breaks ++ O ++ S₁₃.pending) hpatch
  obtain ⟨e₁₅, hdepth, rfl⟩ := Lower.lift_eq_ok h₁₅
  obtain ⟨hd₁₅, hsize₁₅, hdepth⟩ :=
    Emitter.setDepth_lays (O := l'.breaks ++ O ++ S₁₃.pending) hdepth
  obtain ⟨e₁₆, rfl, hd₁₆, hpop⟩ :=
    Lower.emit_lays (O := l'.breaks ++ O ++ S₁₃.pending) h₁₆ hd₁₅ rfl
  obtain ⟨e₁₇, hbreaks, rfl⟩ := Lower.lift_eq_ok h₁₇
  obtain ⟨hd₁₇, hsize₁₇, hbreaks⟩ := Lower.patchBreaks_lays (O := O ++ S₁₃.pending) hbreaks
  rw [← List.append_assoc] at hbreaks
  have hend : Lowers (done :: (l'.breaks ++ O)) O rs rs S₁₃ { S₁₃ with emitter := e₁₇ } _ :=
    (((hpatch.trans hdepth).trans hpop).trans hbreaks).lowers hround.ready
  have hd' : e₁₆.depth = d := hd₁₆.trans hd
  refine ⟨hd₁₇.trans hd', (((((hx.trans hiterate).trans hnext).trans hjump).trans hround).trans hend).imp ?_⟩
  rintro t ⟨⟨⟨⟨⟨hx, hiterate⟩, hnext⟩, hjump⟩, ⟨hdeclare, hstore⟩, hround⟩, ⟨⟨hleads, -⟩, hpop⟩, hbreaks⟩
  simp only [hsize₁₇] at hround ⊢
  obtain ⟨n, m₁, m₂, m₃, m₄, past, hover, hprotect, hround⟩ := hround hbreaks
  have hsize₅ : S₅.emitter.code.size = S₃.emitter.code.size + 1 := hnext.2.2.2.2
  have hsize₈ : S₈.emitter.code.size = S₃.emitter.code.size + 6 := by
    rw [hsize₈, hsize₆, hsize₅]
  have hsize₉ : S₉.emitter.code.size = S₃.emitter.code.size + 9 := by
    rw [hstore.2.2.2.2, hsize₈]
    rfl
  obtain ⟨hopen, hblock, hleave, hendTry, hjumpOver, hleaveThrow, hend, hagain⟩ := hround
  simp only [hsize₅] at hnext hjump
  simp only [hsize₈, hsize₉] at hstore
  simp only [hsize₉] at hprotect hopen
  simp only [hover] at hleads
  simp only [hsize₁₅, hsize₁₄, hover, hd] at hpop
  have hfresh : t.Fresh S.names slot := by
    rw [← hnames₂, ← hnames₃, ← hnames₅]
    exact hdeclare
  refine ⟨_, S₃.emitter.code.size, slot, n, m₁, m₂, m₃, m₄, past, hx, hiterate, hnext,
    hjump _ hleads, hfresh, hstore, hprotect, hopen, hblock, hleave, hendTry, hjumpOver,
    hleaveThrow, hend, hagain, hpop, ?_⟩
  exact (congrArg List.flatten hscopes).trans (hnames₅.trans (hnames₃.trans hnames₂))

/-! ### Handlers -/

/-- In a generator, a handler does not handle the signal that closes it. -/
theorem rethrow_lowers {O : List PendingJump} {rs : List Shape} {S S' : Lowering} {u : Unit}
    {d : Nat}
    (h : (if S.emitter.kind.isGenerator = true then liftM Emitter.rethrowIfClosing else pure () :
      Lower Unit) S = .ok u S')
    (hd : S.emitter.depth = d + 1) (hready : S.Ready rs) :
    S'.names = S.names ∧ S'.emitter.depth = d + 1 ∧ Lowers O O rs rs S S' fun t =>
      if t.kind.isGenerator then
        ∃ n, t.Line (d + 1) S.emitter.code.size [.dup, .isClosing] (d + 2) n ∧
          t.Jump .ifFalse n S'.emitter.code.size ∧
          t.Line (d + 1) (n + 5) [.throw] d S'.emitter.code.size
      else S'.emitter.code.size = S.emitter.code.size := by
  have hkind := Lays.ofKind (O ++ S.pending) S.emitter
  cases hgenerator : S.emitter.kind.isGenerator with
  | false =>
    rw [hgenerator] at h
    cases h
    refine ⟨rfl, hd, (hkind.lowers hready).imp fun t hkind => ?_⟩
    rw [hkind, hgenerator]
    rfl
  | true =>
    rw [hgenerator] at h
    obtain ⟨e', hrethrow, rfl⟩ := Lower.lift_eq_ok h
    obtain ⟨hd', hrethrow⟩ := Emitter.rethrowIfClosing_lays (O := O ++ S.pending) hrethrow hd
    refine ⟨rfl, hd', ((hkind.trans hrethrow).lowers hready).imp ?_⟩
    rintro t ⟨hkind, hrethrow⟩
    rw [hkind, hgenerator]
    exact hrethrow

/-- Emit the start of a handler. -/
def bindParam (param : Option String) : Lower Unit := do
  match param with
  | some name => Lower.declareAndStore name
  | none => Emitter.emit .pop

theorem bindParam_eq_ok {S S' : Lowering} {u : Unit} {f : Unit → Lower Unit}
    (h : (match param with
      | some name => do
        let v ← Lower.declareAndStore name
        f v
      | none => do
        let v ← Emitter.emit .pop
        f v) S = .ok u S') :
    ∃ T, bindParam param S = .ok () T ∧ f () T = .ok u S' := by
  cases param with
  | some name =>
    obtain ⟨_, T, hbind, hrest⟩ := bind_eq_ok.mp h
    exact ⟨T, hbind, hrest⟩
  | none =>
    obtain ⟨_, T, hbind, hrest⟩ := bind_eq_ok.mp h
    exact ⟨T, hbind, hrest⟩

/-- A handler binds what it handles, or drops it. -/
theorem bindParam_lowers {O : List PendingJump} {rs : List Shape} {S S' : Lowering} {u : Unit}
    {d : Nat} (h : bindParam param S = .ok u S')
    (hd : S.emitter.depth = d + 1) (hready : S.Ready rs) :
    S'.emitter.depth = d ∧ Lowers O O rs rs S S' fun t =>
      t.BindParam S.names param d S.emitter.code.size S'.names S'.emitter.code.size := by
  cases param with
  | some name =>
    obtain ⟨slot, hnames, hd', hstore⟩ := Lower.declareAndStore_lowers (O := O) h hd hready
    exact ⟨hd', hstore.imp fun t ⟨hfresh, hstore⟩ => ⟨slot, hfresh, hstore, hnames⟩⟩
  | none =>
    obtain ⟨hnames, hd', hpop⟩ := Lower.emit_lowers (O := O) h hd rfl hready
    exact ⟨hd', hpop.imp fun t hpop => ⟨hpop, hnames⟩⟩

theorem lowered_tryCatch {handler : List Stmt} (hbody : LoweredAll body)
    (hhandler : LoweredAll handler) : (tryCatch body param handler).Lowered := by
  intro O rs S S' d h hd hready _
  obtain ⟨r, S₁, h₁, h⟩ := bind_eq_ok.mp h
  obtain ⟨_, S₂, h₂, h⟩ := bind_eq_ok.mp h
  obtain ⟨_, S₃, h₃, h⟩ := bind_eq_ok.mp h
  obtain ⟨region, S₄, h₄, h⟩ := bind_eq_ok.mp h
  obtain ⟨r', S₅, h₅, h⟩ := bind_eq_ok.mp h
  obtain ⟨_, S₆, h₆, h⟩ := bind_eq_ok.mp h
  cases h₆
  obtain ⟨S₇, h₇, h⟩ := bind_if_eq_ok h
  obtain ⟨_, S₈, h₈, hrest⟩ := bind_eq_ok.mp h
  cases h₂
  cases h₈
  obtain ⟨e₁, hstart, rfl⟩ := Lower.lift_eq_ok h₁
  obtain ⟨hs, hstage, hr, hd₁, hsize₁, hstart⟩ :=
    TryRegion.start_lays_catch (O := O ++ S.pending) hstart
  have hstart : Lowers O (hs.onCatch :: O) rs rs S { S with emitter := e₁ } _ :=
    hstart.lowers hready
  have hentered : Lowering.Ready (.tryCatch :: rs) ⟨e₁, S.scopes, .tryCatch :: S.regions⟩ :=
    ⟨.cons .tryCatch hstart.ready.suits, hstart.ready.bound, hstart.ready.nonempty⟩
  obtain ⟨hnames₃, hd₃, hblock⟩ :=
    Lower.inBlock_lowers (O := hs.onCatch :: O) hbody h₃ (hd₁.trans hd) rfl hentered
  obtain ⟨region', regions', hregions', hr', -, hblock⟩ := hblock.popRegion rfl
  obtain ⟨rfl, rfl⟩ := Lower.popRegion_eq_ok h₄ hregions'
  cases hr'
  let S₄ : Lowering := ⟨S₃.emitter, S₃.scopes, regions'⟩
  obtain ⟨e₅, hcatch, rfl⟩ := Lower.lift_eq_ok h₅
  obtain ⟨-, hd₅, hsize₅, j, hstage', hr', hcatch⟩ :=
    TryRegion.onCatch_lays (O := O ++ S₄.pending) hcatch hstage
  rw [hr, hd] at hd₅ hcatch hr'
  have hcatch : Lowers (hs.onCatch :: O) (j :: O) rs rs S₄ { S₄ with emitter := e₅ } _ :=
    hcatch.lowers hblock.ready
  obtain ⟨hnames₇, hd₇, hrethrow⟩ := rethrow_lowers (O := j :: O) h₇ hd₅ hcatch.ready
  obtain ⟨S₉, h₉, hrest⟩ := bindParam_eq_ok hrest
  obtain ⟨_, S₁₀, h₁₀, hrest⟩ := bind_eq_ok.mp hrest
  obtain ⟨_, S₁₁, h₁₁, hrest⟩ := bind_eq_ok.mp hrest
  obtain ⟨r'', S₁₂, h₁₂, h₁₃⟩ := bind_eq_ok.mp hrest
  cases h₁₁
  cases h₁₃
  have hscoped : Lowering.Ready rs ⟨S₇.emitter, [] :: S₇.scopes, S₇.regions⟩ :=
    ⟨hrethrow.ready.suits, hrethrow.ready.bound, nofun⟩
  obtain ⟨hd₉, hparam⟩ := bindParam_lowers (O := j :: O) h₉ hd₇ hscoped
  obtain ⟨hnames₁₀, hd₁₀, hhandler⟩ :=
    Lower.inBlock_lowers (O := j :: O) hhandler h₁₀ hd₉ rfl hparam.ready
  have hscopes : S₁₀.scopes.tail = S₇.scopes := (hparam.trans hhandler).tail_eq
  have hhandler := (hparam.trans hhandler).popScope hrethrow.ready.nonempty
  obtain ⟨e₁₂, hclose, rfl⟩ := Lower.lift_eq_ok h₁₂
  obtain ⟨hd₁₂, hsize₁₂, hclose⟩ :=
    TryRegion.close_lays_catch (O := O ++ Lowering.pending ⟨_, _, S₁₀.regions⟩) hclose hstage'
  have hclose : Lowers (j :: O) O rs rs ⟨S₁₀.emitter, S₁₀.scopes.tail, S₁₀.regions⟩
      ⟨e₁₂, S₁₀.scopes.tail, S₁₀.regions⟩ _ := hclose.lowers hhandler.ready
  have hsize₃ : e₁.code.size ≤ S₃.emitter.code.size := hblock.lays.grown.size_le
  refine ⟨hd₁₂.trans hr', (((((hstart.trans hblock).trans hcatch).trans hrethrow).trans hhandler).trans hclose).imp ?_⟩
  rintro t ⟨⟨⟨⟨⟨hstart, hblock⟩, hend, hjump, hleads, hmax⟩, hrethrow⟩, hparam, hhandler⟩, hclose⟩
  have hnames₈ : Lowering.names ⟨S₇.emitter, [] :: S₇.scopes, S₇.regions⟩ = S.names :=
    hnames₇.trans hnames₃
  have hprotect := hstart (S₃.emitter.code.size + 6) hleads (by omega)
  rw [hsize₁₂]
  rw [hnames₈] at hparam
  simp only [hsize₁] at hblock
  simp only [hsize₅] at hrethrow
  refine ⟨_, _, S₇.emitter.code.size, S₉.emitter.code.size, S₉.names, hprotect, hblock nofun, hend,
    hjump _ hclose, hmax, hrethrow, hparam, hhandler, ?_⟩
  exact (congrArg List.flatten hscopes).trans (hnames₇.trans hnames₃)

/-! ### All statements -/

mutual

/-- Whatever is lowered is laid out. -/
theorem lowered : ∀ s : Stmt, s.Lowered
  | .expr _ => lowered_expr
  | .letIn _ _ => lowered_letIn
  | .usingIn _ _ _ => lowered_usingIn
  | .block body => lowered_block (loweredAll body)
  | .ifElse _ yes no => lowered_ifElse (loweredAll yes) (loweredAll no)
  | .whileLoop _ _ body => lowered_whileLoop (loweredAll body)
  | .forOf _ _ _ _ body => lowered_forOf (loweredAll body)
  | .tryCatch body _ handler => lowered_tryCatch (loweredAll body) (loweredAll handler)
  | .throw _ => lowered_throw
  | .ret _ => lowered_ret
  | .breakLoop _ => lowered_breakLoop
  | .continueLoop _ => lowered_continueLoop

theorem loweredAll : ∀ ss : List Stmt, LoweredAll ss
  | [] => fun _ _ _ _ _ h hd hready _ => by
    cases h
    exact ⟨hd, ((Lays.refl _ _).lowers hready).imp fun _ _ => rfl⟩
  | s :: ss => fun O rs S S' d h hd hready hroom => by
    obtain ⟨_, S₁, hs, hss⟩ := bind_eq_ok.mp h
    obtain ⟨hd₁, hs⟩ := lowered s (O := O) hs hd hready hroom.head
    obtain ⟨hd₂, hss⟩ := loweredAll ss (O := O) hss hd₁ hs.ready hroom.tail
    refine ⟨hd₂, (hs.trans hss).imp ?_⟩
    rintro t ⟨hs, hss⟩
    exact ⟨_, _, hs, hss⟩

end

end Stmt
end ResourceMachine
