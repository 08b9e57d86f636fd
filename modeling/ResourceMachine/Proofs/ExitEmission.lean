/-
# What the exits of regions lay out

The regions around a statement change while it is lowered: passes get their
locals, jumps out of loops gather, declarations register. What stays is their
shape (`Region.Suits`), and on it depends the code that leaves them. Where the
jumps out of a loop lead is not known before its end, so finished code is laid
out for shapes that these jumps do lead behind (`Region.Breaks`).

Key definitions: `Region.Suits`, `Region.pending`, `Region.Breaks`.
Key theorems: `Region.exit_lays`, `Region.exitAll_lays`, `Region.splitAtLoop_eq`.
-/
import ResourceMachine.Proofs.ScopeEmission
import Mathlib.Data.List.Forall2

namespace ResourceMachine
namespace Region

/-! ### Regions and their shapes -/

/-- The protected region around the body of a disposable scope. -/
def protection : Region → Option TryRegion
  | disposable s => s.region
  | _ => none

/-- The jumps out of a loop. -/
def breaks : Region → List PendingJump
  | loop l => l.breaks
  | _ => []

/-- A region that code was emitted for that leaves it. -/
structure Alike (r r' : Region) : Prop where
  protection_eq : r'.protection = r.protection
  breaks_eq : r'.breaks = r.breaks

/-- A region that code was emitted in. -/
structure Becomes (r r' : Region) : Prop where
  protection_eq : r'.protection = r.protection
  breaks_subset : r.breaks ⊆ r'.breaks

/-- The operands that are pending until a region ends. -/
def pending (r : Region) : List PendingJump :=
  (match r.protection with
  | some ⟨.body hs, _⟩ => [hs.onFinally]
  | _ => []) ++ r.breaks

/-- A region has a shape, where names are bound and so much is emitted. -/
inductive Suits (names : Scope) (e : Emitter) : Region → Shape → Prop
  | disposable {s : DisposalScope} {room : Nat} (apart : s.Apart names e.localCount.toNat) :
    Suits names e (.disposable s) (.disposable s.hasAwaitUsing room)
  | tryCatch : Suits names e .tryCatch .tryCatch
  | loop {l : LoopRegion} {breakTo : Nat} (behind : l.continueTarget ≤ e.code.size) :
    Suits names e (.loop l) (.loop l.label l.isForOf l.continueTarget breakTo)
  | plainIteration : Suits names e (.iteration none) (.iteration none)
  | iteration {s : DisposalScope} (apart : s.Apart names e.localCount.toNat) :
    Suits names e (.iteration (some s)) (.iteration (some s.hasAwaitUsing))

/-- In finished code, the jumps out of a loop lead behind it. -/
def Breaks (t : Target) (r : Region) (x : Shape) : Prop := ∀ j ∈ r.breaks, t.Leads j x.breakTo

variable {names : Scope} {e e' : Emitter} {r r' : Region} {rs rs' : List Region} {x : Shape}
  {xs : List Shape} {O : List PendingJump} {d : Nat}

theorem Suits.grow (h : r.Suits names e x) (hgrown : Grown e e') : r.Suits names e' x := by
  cases h with
  | disposable apart => exact .disposable (apart.mono hgrown.localCount_le)
  | tryCatch => exact .tryCatch
  | loop behind => exact .loop (Nat.le_trans behind hgrown.size_le)
  | plainIteration => exact .plainIteration
  | iteration apart => exact .iteration (apart.mono hgrown.localCount_le)

/-- The shape of a loop. -/
theorem Suits.of_loop {l : LoopRegion} (h : (Region.loop l).Suits names e x) :
    l.continueTarget ≤ e.code.size ∧
      ∃ breakTo, x = .loop l.label l.isForOf l.continueTarget breakTo := by
  cases h with
  | loop behind => exact ⟨behind, _, rfl⟩

/-- What has the shape of a block that disposes. -/
theorem Suits.disposable_inv {awaits : Bool} {room : Nat}
    (h : r.Suits names e (.disposable awaits room)) :
    ∃ s, r = Region.disposable s ∧ s.hasAwaitUsing = awaits ∧ s.Apart names e.localCount.toNat := by
  cases h with
  | disposable apart => exact ⟨_, rfl, rfl, apart⟩

/-- What has the shape of a loop. -/
theorem Suits.loop_inv {label : Option String} {isForOf : Bool} {continueTo breakTo : Nat}
    (h : r.Suits names e (.loop label isForOf continueTo breakTo)) : ∃ l, r = Region.loop l := by
  cases h with
  | loop _ => exact ⟨_, rfl⟩

/-- What has the shape of a round of a loop. -/
theorem Suits.round_inv {awaits : Option Bool} (h : r.Suits names e (.iteration awaits)) :
    ∃ scope, r = Region.iteration scope := by
  cases h with
  | plainIteration => exact ⟨none, rfl⟩
  | iteration _ => exact ⟨some _, rfl⟩

theorem Suits.iteration_inv {scope : Option DisposalScope} {awaits : Option Bool}
    (h : (Region.iteration scope).Suits names e (.iteration awaits)) :
    (scope = none ∧ awaits = none) ∨
      ∃ s, scope = some s ∧ awaits = some s.hasAwaitUsing ∧ s.Apart names e.localCount.toNat := by
  cases h with
  | plainIteration => exact .inl ⟨rfl, rfl⟩
  | iteration apart => exact .inr ⟨_, rfl, rfl, apart⟩

theorem Alike.refl (r : Region) : r.Alike r := ⟨rfl, rfl⟩

theorem Alike.becomes (h : r.Alike r') : r.Becomes r' :=
  ⟨h.protection_eq, fun _ hj => h.breaks_eq ▸ hj⟩

theorem Alike.pending_eq (h : r.Alike r') : r'.pending = r.pending := by
  rw [pending, pending, h.protection_eq, h.breaks_eq]

theorem Becomes.refl (r : Region) : r.Becomes r := ⟨rfl, fun _ hj => hj⟩

theorem Becomes.trans {r'' : Region} (h : r.Becomes r') (h' : r'.Becomes r'') : r.Becomes r'' :=
  ⟨h'.protection_eq.trans h.protection_eq, fun _ hj => h'.breaks_subset (h.breaks_subset hj)⟩

/-- A name that is bound to a new local makes no difference. -/
theorem Suits.bind {name : String} {slot : UInt16} (h : r.Suits names e x)
    (hslot : e.localCount.toNat ≤ slot.toNat) : r.Suits ((name, slot) :: names) e x := by
  cases h with
  | disposable apart => exact .disposable (apart.bind hslot)
  | tryCatch => exact .tryCatch
  | loop behind => exact .loop behind
  | plainIteration => exact .plainIteration
  | iteration apart => exact .iteration (apart.bind hslot)

/-- Fewer names are bound to no local of a pass. -/
theorem Suits.unbind {names' : Scope} (h : r.Suits names e x) (hsub : ∀ b ∈ names', b ∈ names) :
    r.Suits names' e x := by
  cases h with
  | disposable apart => exact .disposable (apart.subset hsub)
  | tryCatch => exact .tryCatch
  | loop behind => exact .loop behind
  | plainIteration => exact .plainIteration
  | iteration apart => exact .iteration (apart.subset hsub)

/-! ### Exits -/

/-- A loop over an iterator closes it. -/
theorem closeIterator_lays {isForOf : Bool} {u : Unit}
    (h : (if isForOf = true then Emitter.emit (.iterClose 0) else pure ()) e = .ok u e')
    (hd : e.depth = d) :
    Lays O O e e' fun t => t.Line d e.code.size (if isForOf then [.iterClose 0] else [])
      e'.depth e'.code.size := by
  cases isForOf with
  | false =>
    cases h
    exact (Lays.refl O e).imp fun t _ => ⟨hd, rfl⟩
  | true =>
    obtain ⟨hd₁, -, hclose⟩ := Emitter.emit_lays (O := O) h hd rfl
    rw [hd₁]
    exact hclose

/-- The code that leaves a region is the one of its shape. -/
theorem exit_lays (h : r.exit e = .ok r' e') (hd : e.depth = d) (hsuits : r.Suits names e x)
    (hnames : names.Bound e.localCount.toNat) :
    r'.Suits names e' x ∧ r.Alike r' ∧
      Lays O O e e' fun t => t.ExitOf names x d e.code.size e'.depth e'.code.size := by
  cases hsuits with
  | @disposable s room apart =>
    obtain ⟨s', e₁, hleave, h⟩ := bind_eq_ok.mp h
    obtain ⟨_, e₂, hend, h⟩ := bind_eq_ok.mp h
    obtain ⟨_, e₃, hpop, h⟩ := bind_eq_ok.mp h
    cases h
    obtain ⟨⟨slots, rfl⟩, hapart, hd₁, hleave⟩ :=
      DisposalScope.leave_lays (O := O) (ScopeEmit.on_eq_ok hleave) hd apart hnames
    obtain ⟨hd₂, -, hend⟩ := Emitter.emit_lays (O := O) hend hd₁ rfl
    obtain ⟨hd₃, hpop⟩ := Emitter.leaveScope_lays (O := O) hpop hd₂
    refine ⟨.disposable (hapart.mono (hend.trans hpop).grown.localCount_le), ⟨rfl, rfl⟩, ?_⟩
    refine ((hleave.trans hend).trans hpop).imp ?_
    rintro t ⟨⟨hleave, hend⟩, hpop⟩
    rw [hd₃]
    exact ⟨_, hleave, hend.append hpop⟩
  | tryCatch =>
    obtain ⟨_, e₁, hend, h⟩ := bind_eq_ok.mp h
    cases h
    obtain ⟨hd₁, -, hend⟩ := Emitter.emit_lays (O := O) hend hd rfl
    rw [hd₁]
    exact ⟨.tryCatch, ⟨rfl, rfl⟩, hend⟩
  | @loop l breakTo behind =>
    unfold Region.exit at h
    obtain ⟨e₁, hclose, h⟩ := bind_if_eq_ok h
    cases h
    have hclose := closeIterator_lays (O := O) hclose hd
    exact ⟨.loop (Nat.le_trans behind hclose.grown.size_le), ⟨rfl, rfl⟩, hclose⟩
  | plainIteration =>
    obtain ⟨_, e₁, hend, h⟩ := bind_eq_ok.mp h
    cases h
    obtain ⟨hd₁, -, hend⟩ := Emitter.emit_lays (O := O) hend hd rfl
    rw [hd₁]
    exact ⟨.plainIteration, ⟨rfl, rfl⟩, hend⟩
  | @iteration s apart =>
    obtain ⟨s', e₁, hleave, h⟩ := bind_eq_ok.mp h
    obtain ⟨_, e₂, hpop, h⟩ := bind_eq_ok.mp h
    obtain ⟨_, e₃, hend, h⟩ := bind_eq_ok.mp h
    cases h
    obtain ⟨⟨slots, rfl⟩, hapart, hd₁, hleave⟩ :=
      DisposalScope.leave_lays (O := O) (ScopeEmit.on_eq_ok hleave) hd apart hnames
    obtain ⟨hd₂, hpop⟩ := Emitter.leaveScope_lays (O := O) hpop hd₁
    obtain ⟨hd₃, -, hend⟩ := Emitter.emit_lays (O := O) hend hd₂ rfl
    refine ⟨.iteration (hapart.mono (hpop.trans hend).grown.localCount_le), ⟨rfl, rfl⟩, ?_⟩
    refine ((hleave.trans hpop).trans hend).imp ?_
    rintro t ⟨⟨hleave, hpop⟩, hend⟩
    rw [hd₃]
    exact ⟨_, hleave, hpop.append hend⟩

/-- An exit goes past regions that it neither continues nor breaks. -/
def Passes (x : Exit) (xs : List Shape) : Prop :=
  ∀ y ∈ xs, y.isContinuedBy x = false ∧ y.isBrokenBy x = false

/-- A return goes past all regions. -/
theorem passes_ret (v : Value) (xs : List Shape) : Passes (.ret v) xs := fun y _ => by
  cases y <;> exact ⟨rfl, rfl⟩

/-- A jump goes past the loops that it does not name. -/
theorem passes_jump {label : Option String} {jump : Exit}
    (hjump : jump = .continueTo label ∨ jump = .breakTo label)
    (hnames : ∀ l, loop l ∈ rs → Exit.names label l.label = false)
    (hsuits : List.Forall₂ (Suits names e) rs xs) : Passes jump xs := by
  induction hsuits with
  | nil => exact nofun
  | cons hsuits _ ih =>
    refine List.forall_mem_cons.mpr ⟨?_, ih fun l hl => hnames l (List.mem_cons_of_mem _ hl)⟩
    cases hsuits with
    | @loop l _ _ =>
      have hl := hnames l List.mem_cons_self
      rcases hjump with rfl | rfl
      · exact ⟨hl, rfl⟩
      · exact ⟨rfl, hl⟩
    | disposable _ => exact ⟨rfl, rfl⟩
    | tryCatch => exact ⟨rfl, rfl⟩
    | plainIteration => exact ⟨rfl, rfl⟩
    | iteration _ => exact ⟨rfl, rfl⟩

/-- The code that leaves regions leads to the code that leaves those around them. -/
theorem exitAll_lays : ∀ {rs rs' : List Region} {xs : List Shape} {e : Emitter} {d : Nat},
    exitAll rs e = .ok rs' e' → e.depth = d → List.Forall₂ (Suits names e) rs xs →
    names.Bound e.localCount.toNat →
    List.Forall₂ (Suits names e') rs' xs ∧ List.Forall₂ Alike rs rs' ∧
      Lays O O e e' fun t => ∀ x outer q, Passes x xs →
        t.Leaving names outer x e'.depth e'.code.size q →
        t.Leaving names (xs ++ outer) x d e.code.size q
  | [], _, _, e, d, h, hd, .nil, hnames => by
    cases h
    subst hd
    exact ⟨.nil, .nil, (Lays.refl _ _).imp fun t _ x outer q _ h => h⟩
  | r :: rs, _, x :: xs, e, d, h, hd, .cons hsuits hrest, hnames => by
    obtain ⟨r', e₁, hexit, h⟩ := bind_eq_ok.mp h
    obtain ⟨rs', e₂, hexits, h⟩ := bind_eq_ok.mp h
    cases h
    obtain ⟨hsuits', halike, hexit⟩ := exit_lays (O := O) hexit hd hsuits hnames
    have hgrown := hexit.grown
    obtain ⟨hrest', halikes, hexits⟩ := exitAll_lays hexits rfl
      (hrest.imp fun _ _ h => h.grow hgrown)
      fun b hb => Nat.lt_of_lt_of_le (hnames b hb) hgrown.localCount_le
    refine ⟨.cons (hsuits'.grow hexits.grown) hrest', .cons halike halikes,
      (hexit.trans hexits).imp ?_⟩
    rintro t ⟨hexit, hexits⟩ y outer q hpasses hleaving
    obtain ⟨⟨hcontinued, hbroken⟩, hpasses⟩ := List.forall_mem_cons.mp hpasses
    have hrest := hexits y outer q hpasses hleaving
    simp only [List.cons_append, Target.Leaving, hcontinued, hbroken, Bool.false_eq_true, ↓reduceIte]
    exact ⟨_, _, hexit, hrest⟩

/-! ### Jumps to loops -/

/-- Regions are split at the loop that a jump means. -/
theorem splitAtLoop_eq {label : Option String} {rs inner outer : List Region} {l : LoopRegion}
    (h : splitAtLoop label rs = some (inner, l, outer)) :
    rs = inner ++ loop l :: outer ∧ Exit.names label l.label = true ∧
      ∀ l', loop l' ∈ inner → Exit.names label l'.label = false := by
  induction rs generalizing inner outer l with
  | nil => cases h
  | cons r rs ih =>
    -- the region is passed by where it is no loop of that name
    have hpast {inner' : List Region} (hsplit : splitAtLoop label rs = some (inner', l, outer))
        (hr : ∀ l', r = loop l' → Exit.names label l'.label = false) :
        r :: rs = r :: inner' ++ loop l :: outer ∧ Exit.names label l.label = true ∧
          ∀ l', loop l' ∈ r :: inner' → Exit.names label l'.label = false := by
      obtain ⟨hrs, hnames, hinner⟩ := ih hsplit
      refine ⟨by rw [hrs, List.cons_append], hnames, fun l' hl' => ?_⟩
      rcases List.mem_cons.mp hl' with hl' | hl'
      · exact hr l' hl'.symm
      · exact hinner l' hl'
    cases r with
    | loop l' =>
      rw [splitAtLoop] at h
      simp only at h
      split at h
      · cases h
        rename_i hl
        exact ⟨rfl, by simpa [Exit.names] using hl, by simp⟩
      · rename_i hl
        obtain ⟨⟨inner', l'', outer'⟩, hsplit, heq⟩ := Option.map_eq_some_iff.mp h
        cases heq
        refine hpast hsplit fun l'' hl'' => ?_
        cases hl''
        obtain ⟨hnone, hne⟩ := not_or.mp hl
        rw [Exit.names, eq_false_of_ne_true hnone, Bool.false_or]
        exact beq_false_of_ne hne
    | disposable _ | tryCatch | iteration _ =>
      obtain ⟨⟨inner', l', outer'⟩, hsplit, heq⟩ := Option.map_eq_some_iff.mp h
      cases heq
      exact hpast hsplit (by simp)

end Region
end ResourceMachine
