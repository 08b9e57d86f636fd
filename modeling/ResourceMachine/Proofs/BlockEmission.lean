/-
# What blocks lay out

A block binds names and registers resources, which changes the regions around
the statements behind a declaration (`Stmt.after`). At its end the names are
gone, and so is the region of a block that disposes: what is left are the
regions around the block, in which its code is laid out.

Key definitions: `Stmt.Lowered`, `Stmt.LoweredAll`, `Stmt.Room`.
Key theorems: `Lower.declareAndStore_lowers`, `Lower.registerUsing_lowers`,
`Lower.inBlock_lowers`.
-/
import ResourceMachine.Proofs.LoweringEmission

namespace ResourceMachine

/-! ### The regions behind statements -/

namespace Stmt

/-- The regions around what follows statements. -/
def afterAll (ss : List Stmt) (rs : List Shape) : List Shape := ss.foldl (fun rs s => s.after rs) rs

/-- A region that disposes has room for the registrations of statements. -/
def Room (ss : List Stmt) (rs : List Shape) : Prop :=
  ∀ awaits room outer, rs = .disposable awaits room :: outer → ss.countP isUsing ≤ room

variable {s : Stmt} {ss : List Stmt} {rs : List Shape}

theorem after_of_not_using (h : s.isUsing = false) : s.after rs = rs := by
  cases s <;> first | rfl | cases h

theorem afterAll_of_not_using : ∀ {ss : List Stmt}, ss.any isUsing = false → afterAll ss rs = rs
  | [], _ => rfl
  | s :: ss, h => by
    rw [List.any_cons, Bool.or_eq_false_iff] at h
    show afterAll ss (s.after rs) = rs
    rw [after_of_not_using h.1, afterAll_of_not_using h.2]

/-- What follows declarations may have to await, and less room is left. -/
theorem after_disposable (s : Stmt) (awaits : Bool) (room : Nat) :
    s.after (.disposable awaits room :: rs) =
      .disposable (awaits || s.isAwaitUsing) (room - if s.isUsing then 1 else 0) :: rs := by
  cases s <;> simp [after, isUsing, isAwaitUsing]

theorem afterAll_disposable : ∀ (ss : List Stmt) (awaits : Bool) (room : Nat),
    afterAll ss (.disposable awaits room :: rs) =
      .disposable (awaits || ss.any isAwaitUsing) (room - ss.countP isUsing) :: rs
  | [], awaits, room => by simp [afterAll]
  | s :: ss, awaits, room => by
    show afterAll ss (s.after _) = _
    rw [after_disposable, afterAll_disposable ss, List.any_cons, Bool.or_assoc, List.countP_cons,
      Nat.sub_sub, Nat.add_comm]

/-- What a statement leaves of the room is enough for the statements behind it. -/
theorem Room.tail (h : Room (s :: ss) rs) : Room ss (s.after rs) := by
  intro awaits room outer heq
  match rs, heq with
  | .disposable awaits' room' :: rs, heq =>
    rw [after_disposable] at heq
    cases heq
    have := h _ _ _ rfl
    rw [List.countP_cons] at this
    omega
  | [], heq => cases s <;> cases heq
  | .tryCatch :: _, heq => cases s <;> cases heq
  | .loop _ _ _ _ :: _, heq => cases s <;> cases heq
  | .iteration _ :: _, heq => cases s <;> cases heq

theorem Room.head (h : Room (s :: ss) rs) : Room [s] rs := fun awaits room outer heq => by
  have := h awaits room outer heq
  rw [List.countP_cons] at this ⊢
  simp only [List.countP_nil]
  omega

theorem Room.of_not_using (h : ss.any isUsing = false) : Room ss rs := fun _ _ _ _ => by
  rw [List.countP_eq_zero.mpr (List.any_eq_false.mp h)]
  exact Nat.zero_le _

/-- A statement is laid out where it was lowered. -/
def Lowered (s : Stmt) : Prop :=
  ∀ ⦃O : List PendingJump⦄ ⦃rs : List Shape⦄ ⦃S S' : Lowering⦄ ⦃d : Nat⦄,
    s.lower S = .ok () S' → S.emitter.depth = d → S.Ready rs → Room [s] rs →
    S'.emitter.depth = d ∧ Lowers O O rs (s.after rs) S S' fun t =>
      s.Laid t rs S.names d S.emitter.code.size S'.names S'.emitter.code.size

/-- Statements are laid out where they were lowered, one after the other. -/
def LoweredAll (ss : List Stmt) : Prop :=
  ∀ ⦃O : List PendingJump⦄ ⦃rs : List Shape⦄ ⦃S S' : Lowering⦄ ⦃d : Nat⦄,
    lowerAll ss S = .ok () S' → S.emitter.depth = d → S.Ready rs → Room ss rs →
    S'.emitter.depth = d ∧ Lowers O O rs (afterAll ss rs) S S' fun t =>
      LaidAll t ss rs S.names d S.emitter.code.size S'.emitter.code.size

end Stmt

namespace Lower

variable {O : List PendingJump} {rs : List Shape} {S S' : Lowering} {d : Nat}

/-! ### Names -/

/-- A new name gets a local of its own. -/
theorem declare_lowers {name : String} {slot : UInt16} (h : declare name S = .ok slot S')
    (hready : S.Ready rs) :
    S'.names = (name, slot) :: S.names ∧ S'.emitter.depth = S.emitter.depth ∧
      S'.emitter.code.size = S.emitter.code.size ∧ S'.regions = S.regions ∧
      Lowers O O rs rs S S' fun t => t.Fresh S.names slot := by
  obtain ⟨slot', S₁, h₁, h⟩ := bind_eq_ok.mp h
  obtain ⟨_, S₂, h₂, h₃⟩ := bind_eq_ok.mp h
  obtain ⟨e₁, halloc, rfl⟩ := lift_eq_ok h₁
  cases h₂
  cases h₃
  obtain ⟨hslot, hcount, hd, hsize, halloc⟩ := Emitter.allocLocal_lays (O := O ++ S.pending) halloc
  obtain ⟨hsuits, hbound, hnonempty⟩ := hready
  obtain ⟨e, scopes, regions⟩ := S
  have hcount : e₁.localCount.toNat = e.localCount.toNat + 1 := hcount
  have hslot : slot.toNat = e.localCount.toNat := hslot
  have hbound : ∀ b ∈ scopes.flatten, b.2.toNat < e.localCount.toNat := hbound
  match scopes, hnonempty with
  | scope :: scopes, _ =>
    refine ⟨rfl, hd, hsize, rfl, ?_⟩
    exact
      { ready :=
          ⟨hsuits.imp fun _ _ hsuits => (hsuits.bind (Nat.le_of_eq hslot.symm)).grow halloc.grown,
            List.forall_mem_cons.mpr
              ⟨show slot.toNat < e₁.localCount.toNat by omega, fun b hb =>
                show b.2.toNat < e₁.localCount.toNat from Nat.lt_trans (hbound b hb) (by omega)⟩,
            nofun⟩
        becomes := becomes_refl _
        breakTo_eq := rfl
        tail_eq := rfl
        lays := halloc.imp fun t hlt _ => ⟨hlt, fun b hb heq => by
          have := hbound b hb
          omega⟩ }

/-- The value on top is stored in the local of a new name. -/
theorem declareAndStore_lowers {name : String} {u : Unit} (h : declareAndStore name S = .ok u S')
    (hd : S.emitter.depth = d + 1) (hready : S.Ready rs) :
    ∃ slot, S'.names = (name, slot) :: S.names ∧ S'.emitter.depth = d ∧
      Lowers O O rs rs S S' fun t => t.Fresh S.names slot ∧
        t.Line (d + 1) S.emitter.code.size [.storeLocal slot] d S'.emitter.code.size := by
  obtain ⟨slot, S₁, h₁, h₂⟩ := bind_eq_ok.mp h
  obtain ⟨hnames, hd₁, hsize, -, hdeclare⟩ := declare_lowers (O := O) h₁ hready
  obtain ⟨e₂, rfl, hd₂, hstore⟩ := emit_lays (O := O ++ S₁.pending) h₂ (hd₁.trans hd) rfl
  refine ⟨slot, hnames, hd₂, (hdeclare.trans (hstore.lowers hdeclare.ready)).imp ?_⟩
  rintro t ⟨hfresh, hstore⟩
  rw [hsize] at hstore
  exact ⟨hfresh, hstore⟩

/-! ### Registrations -/

/-- A value is registered with the block at hand. -/
theorem registerUsing_lowers {hint : Hint} {u : Unit} (h : registerUsing hint S = .ok u S')
    (hd : S.emitter.depth = d + 1) (hready : S.Ready rs) :
    ∃ awaits room outer, rs = .disposable awaits room :: outer ∧ S'.names = S.names ∧
      S'.emitter.depth = d + 1 ∧
      Lowers O O rs (.disposable (awaits || hint == .async) (room - 1) :: outer) S S' fun t =>
        (hint = .async → t.kind.isAsync) ∧ t.Line (d + 1) S.emitter.code.size [.dup, .addDisposable hint.byte] (d + 1)
          S'.emitter.code.size := by
  obtain ⟨_, S₁, h₁, h⟩ := bind_eq_ok.mp h
  cases h₁
  obtain ⟨e, scopes, regions⟩ := S
  obtain ⟨hsuits, hbound, hnonempty⟩ := hready
  cases hsuits with
  | nil => cases h
  | @cons _ _ regions outer hhead htail =>
    cases hhead with
    | tryCatch => cases h
    | loop _ => cases h
    | plainIteration => cases h
    | iteration _ => cases h
    | @disposable s room apart =>
      obtain ⟨s', S₂, h₂, h₃⟩ := bind_eq_ok.mp h
      obtain ⟨e₁, hregister, rfl⟩ := lift_eq_ok h₂
      cases h₃
      let S₀ : Lowering := ⟨e, scopes, .disposable s :: regions⟩
      obtain ⟨rfl, hd₁, hregister⟩ := DisposalScope.register_lays (O := O ++ S₀.pending)
        (ScopeEmit.on_eq_ok hregister) hd
      have hgrown := hregister.grown
      refine ⟨_, room, outer, rfl, rfl, hd₁, ?_⟩
      exact
        { ready :=
            ⟨.cons (.disposable (apart.mono hgrown.localCount_le))
                (htail.imp fun _ _ hsuits => hsuits.grow hgrown),
              fun b hb => Nat.lt_of_lt_of_le (hbound b hb) hgrown.localCount_le, hnonempty⟩
          becomes := .cons ⟨rfl, fun _ hj => hj⟩ (becomes_refl _)
          breakTo_eq := rfl
          tail_eq := rfl
          lays := hregister.imp fun t h _ => h }

/-! ### Blocks -/

theorem popRegion_eq_ok {r : Option Region} {r' : Region} {regions : List Region}
    (h : popRegion S = .ok r S') (hregions : S.regions = r' :: regions) :
    r = some r' ∧ S' = { S with regions } := by
  cases h
  rw [hregions]
  exact ⟨rfl, rfl⟩

/-- A block is laid out where it was lowered. -/
theorem inBlock_lowers {ss : List Stmt} {names : Scope} {u : Unit} (hss : Stmt.LoweredAll ss)
    (h : inBlock (ss.any Stmt.isUsing) (Stmt.lowerAll ss) S = .ok u S')
    (hd : S.emitter.depth = d) (hnames : S.names = names) (hready : S.Ready rs) :
    S'.names = names ∧ S'.emitter.depth = d ∧
      Lowers O O rs rs S S' fun t => t.Block names ss rs
        (fun rs d p q => Stmt.LaidAll t ss rs names d p q) d S.emitter.code.size
        S'.emitter.code.size := by
  subst hnames
  obtain ⟨_, S₁, h₁, h⟩ := bind_eq_ok.mp h
  cases h₁
  cases husing : ss.any Stmt.isUsing with
  | false =>
    rw [husing] at h
    obtain ⟨_, S₂, h₂, h₃⟩ := bind_eq_ok.mp h
    cases h₃
    have hscoped : Lowering.Ready rs { S with scopes := [] :: S.scopes } :=
      ⟨hready.suits, hready.bound, by simp⟩
    obtain ⟨hd', hbody⟩ := hss (O := O) h₂ hd hscoped (.of_not_using husing)
    have hbody' := hbody.popScope hready.nonempty
    rw [Stmt.afterAll_of_not_using husing] at hbody'
    refine ⟨congrArg List.flatten hbody.tail_eq, hd', hbody'.imp fun t h => ?_⟩
    rw [Target.Block, husing]
    exact h
  | true =>
    rw [husing] at h
    obtain ⟨scope, S₂, h₂, h⟩ := bind_eq_ok.mp h
    obtain ⟨_, S₃, h₃, h⟩ := bind_eq_ok.mp h
    obtain ⟨_, S₄, h₄, h⟩ := bind_eq_ok.mp h
    obtain ⟨region, S₅, h₅, h⟩ := bind_eq_ok.mp h
    obtain ⟨closing, S₆, h₆, h⟩ := bind_eq_ok.mp h
    obtain ⟨e₁, hopen, rfl⟩ := lift_eq_ok h₂
    cases h₃
    obtain ⟨hs, rfl, hd₁, hsize₁, hopen⟩ :=
      DisposalScope.openBody_lays (O := O ++ S.pending) (ScopeEmit.on_eq_ok hopen) hd
    have hopened : Lowers O (hs.onFinally :: O) rs rs S { S with emitter := e₁ } _ :=
      hopen.lowers hready
    have hentered : Lowering.Ready (.disposable false (ss.countP Stmt.isUsing) :: rs)
        ⟨e₁, [] :: S.scopes, .disposable ⟨false, some ⟨.body hs, d⟩, none⟩ :: S.regions⟩ :=
      ⟨.cons (.disposable (by rintro _ ⟨⟩)) hopened.ready.suits, hopened.ready.bound, by simp⟩
    obtain ⟨hd₄, hbody⟩ := hss (O := O) h₄ hd₁ hentered (by rintro _ _ _ ⟨⟩; exact Nat.le_refl _)
    rw [Stmt.afterAll_disposable] at hbody
    have hscopes : S₄.scopes.tail = S.scopes := hbody.tail_eq
    obtain ⟨r', regions', hregions', hr', hbecomes, hbody⟩ := hbody.popRegion rfl
    have hbody := hbody.popScope hready.nonempty
    obtain ⟨s', rfl, hawaits, hapart⟩ := hr'.disposable_inv
    have hregion : s'.region = some ⟨.body hs, d⟩ := hbecomes.protection_eq
    have hsub : ∀ b ∈ S.names, b ∈ S₄.names := by
      rw [Lowering.names, ← hscopes]
      exact mem_flatten_of_tail
    obtain ⟨rfl, rfl⟩ := popRegion_eq_ok h₅ hregions'
    cases h₆
    obtain ⟨_, S₇, h₇, h₈⟩ := bind_eq_ok.mp h
    obtain ⟨e₅, hclose, rfl⟩ := lift_eq_ok h₇
    cases h₈
    simp only [hscopes] at hbody ⊢
    let S₅ : Lowering := ⟨S₄.emitter, S.scopes, regions'⟩
    obtain ⟨-, hd₅, hclose⟩ := DisposalScope.close_lays (O := O ++ S₅.pending)
      (ScopeEmit.on_eq_ok hclose) hregion (hapart.subset hsub) hbody.ready.bound
    have hclose : Lowers ([hs.onFinally] ++ O) O rs rs S₅ { S₅ with emitter := e₅ } _ :=
      hclose.lowers hbody.ready
    have hlong : e₁.code.size ≤ S₄.emitter.code.size := hbody.lays.grown.size_le
    have hpending : (Region.disposable s').pending = [hs.onFinally] := by
      rw [Region.pending, Region.protection, hregion]
      rfl
    rw [hpending] at hbody
    refine ⟨rfl, hd₅, ((hopened.trans hbody).trans hclose).imp ?_⟩
    rintro t ⟨⟨⟨henter, hprotect⟩, hbody⟩, m₂, f, m₃, m₄, hf, hleave, hend, hleads, hswap, hthrown, hpop, hthrow⟩
    rw [Target.Block, husing]
    have hbody := hbody (by rintro _ ⟨⟩)
    rw [hsize₁] at hbody hlong
    rw [hawaits, Bool.false_or] at hleave hthrown
    have hprotect := hprotect _ hleads (Nat.le_trans hlong hf)
    exact ⟨_, _, f, _, _, henter, hprotect, hbody, hleave, hend, hswap, hthrown, hpop, hthrow⟩

end Lower
end ResourceMachine
