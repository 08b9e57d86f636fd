/-
# What a disposable scope lays out

All passes of a scope share their locals, which are given out before the first
of them. Names that are bound before or after that have other locals
(`DisposalScope.Apart`), so a pass leaves every binding alone.

Key definitions: `DisposalScope.Apart`.
Key theorems: `DisposalScope.pass_lays`, `DisposalScope.leave_lays`,
`DisposalScope.register_lays`, `DisposalScope.close_lays`.
-/
import ResourceMachine.Proofs.PassEmission

namespace ResourceMachine

/-- The locals of a scope's passes, if they were given out, are no names'. -/
def DisposalScope.Apart (names : Scope) (count : Nat) (s : DisposalScope) : Prop :=
  ∀ slots, s.slots = some slots → ∃ base, slots.From base ∧ base + 8 ≤ count ∧
    ∀ b ∈ names, b.2.toNat < base ∨ base + 8 ≤ b.2.toNat

/-- Names have locals that were given out. -/
def Scope.Bound (names : Scope) (count : Nat) : Prop := ∀ b ∈ names, b.2.toNat < count

namespace DisposalScope.Apart

variable {names : Scope} {n : Nat} {s : DisposalScope}

theorem bind {name : String} {slot : UInt16} (h : s.Apart names n) (hslot : n ≤ slot.toNat) :
    s.Apart ((name, slot) :: names) n := fun slots hs => by
  obtain ⟨base, hfrom, hle, hnames⟩ := h slots hs
  exact ⟨base, hfrom, hle, List.forall_mem_cons.mpr ⟨.inr (Nat.le_trans hle hslot), hnames⟩⟩

theorem subset {names' : Scope} (h : s.Apart names n) (hsub : ∀ b ∈ names', b ∈ names) :
    s.Apart names' n := fun slots hs => by
  obtain ⟨base, hfrom, hle, hnames⟩ := h slots hs
  exact ⟨base, hfrom, hle, fun b hb => hnames b (hsub b hb)⟩

end DisposalScope.Apart

theorem DisposalScope.Apart.mono {names : Scope} {n n' : Nat} {s : DisposalScope}
    (h : s.Apart names n) (hn : n ≤ n') : s.Apart names n' := fun slots hs => by
  obtain ⟨base, hfrom, hle, hnames⟩ := h slots hs
  exact ⟨base, hfrom, by omega, hnames⟩

theorem ScopeEmit.lift_eq_ok {α : Type} {m : Emit α} {a : α} {s s' : DisposalScope}
    {e e' : Emitter} (h : (liftM m : ScopeEmit α) (s, e) = .ok a (s', e')) :
    s' = s ∧ m e = .ok a e' := by
  have h' : ScopeEmit.lift m (s, e) = .ok a (s', e') := h
  unfold ScopeEmit.lift at h'
  simp only at h'
  split at h' <;> cases h'
  exact ⟨rfl, ‹_›⟩

theorem ScopeEmit.on_eq_ok {m : ScopeEmit Unit} {s s' : DisposalScope} {e e' : Emitter}
    (h : ScopeEmit.on s m e = .ok s' e') : m (s, e) = .ok () (s', e') := by
  unfold ScopeEmit.on at h
  split at h <;> cases h
  assumption

variable {O : List PendingJump} {e e' : Emitter} {s s' : DisposalScope} {names : Scope} {d : Nat}
  {u : Unit}

namespace Emitter

/-- The number of entered scopes leaves no trace in code. -/
theorem scopeDepth_lays (e : Emitter) (n : Nat) :
    Lays O O e { e with scopeDepth := n } fun _ => True :=
  ⟨⟨rfl, Nat.le_refl _, Nat.le_refl _⟩, fun h => ⟨h.inside, h.apart, h.pool⟩, fun _ h =>
    ⟨⟨h.size_le, h.code_eq, h.kind_eq, h.maxDepth_le, h.localCount_le, h.texts⟩, trivial⟩⟩

theorem enterScope_lays (h : enterScope e = .ok u e') (hd : e.depth = d) :
    e'.depth = d ∧ e'.code.size = e.code.size + 1 ∧
      Lays O O e e' fun t => t.Line d e.code.size [.pushDisposeScope] d e'.code.size := by
  obtain ⟨_, e₁, hpush, h⟩ := bind_eq_ok.mp h
  cases h
  obtain ⟨hd₁, hsize, hpush⟩ := emit_lays (O := O) hpush hd rfl
  exact ⟨hd₁, hsize, (hpush.trans (scopeDepth_lays e₁ _)).imp fun _ h => h.1⟩

theorem leaveScope_lays (h : leaveScope e = .ok u e') (hd : e.depth = d) :
    e'.depth = d ∧
      Lays O O e e' fun t => t.Line d e.code.size [.popDisposeScope] d e'.code.size := by
  obtain ⟨_, _, hget, h⟩ := bind_eq_ok.mp h
  cases hget
  split at h
  · cases h
  obtain ⟨hd', -, hpop⟩ := emit_lays (O := O) h hd rfl
  exact ⟨hd', hpop⟩

theorem exitScope_lays (h : exitScope e = .ok u e') (hd : e.depth = d) :
    e'.depth = d ∧
      Lays O O e e' fun t => t.Line d e.code.size [.popDisposeScope] d e'.code.size := by
  obtain ⟨_, _, hget, h⟩ := bind_eq_ok.mp h
  cases hget
  split at h
  · cases h
  obtain ⟨_, e₁, hpop, h⟩ := bind_eq_ok.mp h
  cases h
  obtain ⟨hd', -, hpop⟩ := emit_lays (O := O) hpop hd rfl
  exact ⟨hd', (hpop.trans (scopeDepth_lays e₁ _)).imp fun _ h => h.1⟩

end Emitter

namespace DisposalScope

/-- The locals of a scope's passes are no names'. -/
theorem passSlots_lays {slots : PassSlots} (h : passSlots (s, e) = .ok slots (s', e'))
    (hapart : s.Apart names e.localCount.toNat) (hnames : names.Bound e.localCount.toNat) :
    s' = { s with slots := some slots } ∧ s'.Apart names e'.localCount.toNat ∧
      e'.depth = e.depth ∧ e'.code.size = e.code.size ∧
      Lays O O e e' fun t => t.FreshSlots names slots := by
  obtain ⟨_, _, hscope, h⟩ := bind_eq_ok.mp h
  cases hscope
  cases hs : s.slots with
  | some slots' =>
    rw [hs] at h
    cases h
    obtain ⟨base, hfrom, hle, hfresh⟩ := hapart slots hs
    refine ⟨by rw [← hs], hapart, rfl, rfl, .refl e, id, fun htidy hfits => ⟨hfits, base, hfrom, ?_, hfresh⟩⟩
    exact Nat.le_trans hle hfits.localCount_le
  | none =>
    rw [hs] at h
    obtain ⟨slots', ⟨s₁, e₁⟩, hlift, hset⟩ := bind_eq_ok.mp h
    cases hset
    obtain ⟨rfl, halloc⟩ := ScopeEmit.lift_eq_ok hlift
    obtain ⟨hfrom, hcount, hd, hsize, hlays⟩ := PassSlots.alloc_lays (O := O) halloc
    have hfresh : ∀ b ∈ names, b.2.toNat < e.localCount.toNat ∨
        e.localCount.toNat + 8 ≤ b.2.toNat := fun b hb => .inl (hnames b hb)
    refine ⟨rfl, ?_, hd, hsize, hlays.imp fun t hle => ⟨_, hfrom, hle, hfresh⟩⟩
    intro slots' hslots
    cases hslots
    exact ⟨_, hfrom, by omega, hfresh⟩

/-- One pass over the scope, in locals of its own. -/
theorem pass_lays {seed : Seed} (h : pass seed (s, e) = .ok u (s', e'))
    (hd : e.depth = d + seed.values) (hapart : s.Apart names e.localCount.toNat)
    (hnames : names.Bound e.localCount.toNat) :
    (∃ slots, s' = { s with slots }) ∧ s'.Apart names e'.localCount.toNat ∧ e'.depth = d + 2 ∧
      Lays O O e e' fun t => ∃ slots, t.FreshSlots names slots ∧
        t.Pass slots s.hasAwaitUsing seed d e.code.size e'.code.size := by
  obtain ⟨slots, ⟨s₁, e₁⟩, hslots, h⟩ := bind_eq_ok.mp h
  obtain ⟨_, _, hscope, h⟩ := bind_eq_ok.mp h
  cases hscope
  obtain ⟨rfl, hpass⟩ := ScopeEmit.lift_eq_ok h
  obtain ⟨rfl, hapart₁, hd₁, hsize₁, hslots⟩ := passSlots_lays (O := O) hslots hapart hnames
  obtain ⟨hd₂, hpass⟩ := Emitter.disposalPass_lays (O := O) (d := d) hpass (by rw [hd₁, hd])
  refine ⟨⟨_, rfl⟩, hapart₁.mono hpass.grown.localCount_le, hd₂, (hslots.trans hpass).imp ?_⟩
  rintro t ⟨hfresh, hpass⟩
  rw [hsize₁] at hpass
  exact ⟨slots, hfresh, hpass⟩

/-- Disposing on a way out that no exception caused. -/
theorem leave_lays (h : leave (s, e) = .ok u (s', e')) (hd : e.depth = d)
    (hapart : s.Apart names e.localCount.toNat) (hnames : names.Bound e.localCount.toNat) :
    (∃ slots, s' = { s with slots }) ∧ s'.Apart names e'.localCount.toNat ∧ e'.depth = d ∧
      Lays O O e e' fun t => t.Leave names s.hasAwaitUsing d e.code.size e'.code.size := by
  obtain ⟨_, ⟨s₁, e₁⟩, hpass, h⟩ := bind_eq_ok.mp h
  obtain ⟨rfl, hthrow⟩ := ScopeEmit.lift_eq_ok h
  obtain ⟨hs, hapart, hd₁, hpass⟩ := pass_lays (O := O) (d := d) hpass hd hapart hnames
  obtain ⟨hd₂, hthrow⟩ := Emitter.throwIfException_lays (O := O) hthrow hd₁
  refine ⟨hs, hapart.mono hthrow.grown.localCount_le, hd₂, (hpass.trans hthrow).imp ?_⟩
  rintro t ⟨⟨slots, hfresh, hpass⟩, hthrow⟩
  exact ⟨slots, _, hfresh, hpass, hthrow⟩

/-- Disposing because of an exception. -/
theorem leaveByThrow_lays (h : leaveByThrow (s, e) = .ok u (s', e')) (hd : e.depth = d + 1)
    (hapart : s.Apart names e.localCount.toNat) (hnames : names.Bound e.localCount.toNat) :
    e'.depth = d + 1 ∧ Lays O O e e' fun t => ∃ m,
      t.LeaveByThrow names s.hasAwaitUsing d e.code.size m ∧
        t.Line (d + 2) m [.pop] (d + 1) e'.code.size := by
  obtain ⟨_, ⟨s₁, e₁⟩, hpass, h⟩ := bind_eq_ok.mp h
  obtain ⟨rfl, hpop⟩ := ScopeEmit.lift_eq_ok h
  obtain ⟨-, -, hd₁, hpass⟩ := pass_lays (O := O) (d := d) hpass hd hapart hnames
  obtain ⟨hd₂, -, hpop⟩ := Emitter.emit_lays (O := O) hpop hd₁ rfl
  refine ⟨hd₂, (hpass.trans hpop).imp ?_⟩
  rintro t ⟨⟨slots, hfresh, hpass⟩, hpop⟩
  exact ⟨_, ⟨slots, hfresh, hpass⟩, hpop⟩

/-- Registering the value on top. -/
theorem register_lays {hint : Hint} (h : register hint (s, e) = .ok u (s', e'))
    (hd : e.depth = d + 1) :
    s' = { s with hasAwaitUsing := s.hasAwaitUsing || hint == .async } ∧ e'.depth = d + 1 ∧
      Lays O O e e' fun t => (hint = .async → t.kind.isAsync) ∧
        t.Line (d + 1) e.code.size [.dup, .addDisposable hint.byte] (d + 1) e'.code.size := by
  cases hint with
  | sync =>
    obtain ⟨rfl, hemit⟩ := ScopeEmit.lift_eq_ok h
    obtain ⟨hd', hline⟩ := Emitter.emitAll_lays (O := O) hemit hd rfl
    exact ⟨by rw [show (Hint.sync == Hint.async) = false from rfl, Bool.or_false], hd',
      hline.imp fun _ h => ⟨nofun, h⟩⟩
  | async =>
    obtain ⟨_, _, hget, h⟩ := bind_eq_ok.mp h
    cases hget
    split at h
    · obtain ⟨_, _, hset, h⟩ := bind_eq_ok.mp h
      cases hset
      obtain ⟨rfl, hemit⟩ := ScopeEmit.lift_eq_ok h
      obtain ⟨hd', hline⟩ := Emitter.emitAll_lays (O := O) hemit hd rfl
      refine ⟨by simp, hd', ((Lays.ofKind O e).trans hline).imp ?_⟩
      rintro t ⟨hkind, hline⟩
      exact ⟨fun _ => by rwa [hkind], hline⟩
    · cases h

/-- Entering the scope and protecting its body. -/
theorem openBody_lays (h : openBody (unopened, e) = .ok u (s', e')) (hd : e.depth = d) :
    ∃ hs, s' = ⟨false, some ⟨.body hs, d⟩, none⟩ ∧ e'.depth = d ∧
      e'.code.size = e.code.size + 10 ∧
      Lays O (hs.onFinally :: O) e e' fun t =>
        t.Line d e.code.size [.pushDisposeScope] d (e.code.size + 1) ∧
          ∀ target, t.Leads hs.onFinally target → e.code.size + 10 ≤ target →
            t.Protect (e.code.size + 1) none (some target) := by
  obtain ⟨_, ⟨s₁, e₁⟩, h₁, h⟩ := bind_eq_ok.mp h
  obtain ⟨r, ⟨s₂, e₂⟩, h₂, h⟩ := bind_eq_ok.mp h
  cases h
  obtain ⟨rfl, henter⟩ := ScopeEmit.lift_eq_ok h₁
  obtain ⟨rfl, hstart⟩ := ScopeEmit.lift_eq_ok h₂
  obtain ⟨hd₁, hsize₁, henter⟩ := Emitter.enterScope_lays (O := O) henter hd
  obtain ⟨hs, hstage, hr, hd₂, hsize₂, hstart⟩ := TryRegion.start_lays_finally (O := O) hstart
  have hregion : r = ⟨.body hs, d⟩ := by
    rw [← hstage, ← hd₁, ← hr]
  refine ⟨hs, by rw [hregion]; rfl, hd₂.trans hd₁, by omega, (henter.trans hstart).imp ?_⟩
  rintro t ⟨henter, hstart⟩
  rw [hsize₁] at henter hstart
  exact ⟨henter, hstart⟩

/-- The end of the body, and the code that disposes when the body throws. -/
theorem close_lays {hs : PendingHandlers} (h : close (s, e) = .ok u (s', e'))
    (hregion : s.region = some ⟨.body hs, d⟩) (hapart : s.Apart names e.localCount.toNat)
    (hnames : names.Bound e.localCount.toNat) :
    e.depth = d ∧ e'.depth = d ∧ Lays (hs.onFinally :: O) O e e' fun t =>
      ∃ m₂ f m₃ m₄, e.code.size ≤ f ∧
        t.Leave names s.hasAwaitUsing d e.code.size m₂ ∧
        t.Line d m₂ [.endTry, .constUndefined, .constFalse] (d + 2) f ∧
        t.Leads hs.onFinally f ∧
        t.Line (d + 2) f [.swap] (d + 2) (f + 1) ∧
        t.LeaveByThrow names s.hasAwaitUsing (d + 1) (f + 1) m₃ ∧
        t.Line (d + 3) m₃ [.pop, .swap, .popDisposeScope] (d + 2) m₄ ∧
        t.ThrowIfException d m₄ e'.code.size := by
  obtain ⟨r, ⟨s₁, e₁⟩, h₁, h⟩ := bind_eq_ok.mp h
  obtain ⟨_, ⟨s₂, e₂⟩, h₂, h⟩ := bind_eq_ok.mp h
  obtain ⟨r', ⟨s₃, e₃⟩, h₃, h⟩ := bind_eq_ok.mp h
  obtain ⟨_, ⟨s₄, e₄⟩, h₄, h⟩ := bind_eq_ok.mp h
  obtain ⟨_, ⟨s₅, e₅⟩, h₅, h⟩ := bind_eq_ok.mp h
  obtain ⟨_, ⟨s₆, e₆⟩, h₆, h⟩ := bind_eq_ok.mp h
  obtain ⟨_, ⟨s₇, e₇⟩, h₇, h⟩ := bind_eq_ok.mp h
  obtain ⟨_, ⟨s₈, e₈⟩, h₈, h⟩ := bind_eq_ok.mp h
  cases h
  obtain ⟨_, _, hscope, htake⟩ := bind_eq_ok.mp h₁
  cases hscope
  rw [hregion] at htake
  cases htake
  obtain ⟨rfl, hfinally⟩ := ScopeEmit.lift_eq_ok h₃
  obtain ⟨rfl, hswap⟩ := ScopeEmit.lift_eq_ok h₄
  obtain ⟨rfl, hpop⟩ := ScopeEmit.lift_eq_ok h₆
  obtain ⟨rfl, hexit⟩ := ScopeEmit.lift_eq_ok h₇
  obtain ⟨rfl, hclose⟩ := ScopeEmit.lift_eq_ok h₈
  obtain ⟨⟨slots, rfl⟩, hapart₂, hd₂, hleave⟩ :=
    leave_lays (O := hs.onFinally :: O) h₂ rfl hapart hnames
  obtain ⟨hd₂', hd₃, hstage, hr, hfinally⟩ := TryRegion.onFinally_lays (O := O) hfinally rfl
  have hd : e.depth = d := hd₂.symm.trans hd₂'
  rw [hd] at hleave
  obtain ⟨hd₄, hsize₄, hswap⟩ := Emitter.emit_lays (O := O) hswap hd₃ rfl
  have hcount := ((hleave.trans hfinally).trans hswap).grown.localCount_le
  have hlater := (hfinally.trans hswap).grown.localCount_le
  obtain ⟨-, -, hd₅, hpass⟩ := pass_lays (O := O) (d := d + 1) h₅ hd₄ (hapart₂.mono hlater)
    fun b hb => Nat.lt_of_lt_of_le (hnames b hb) hcount
  obtain ⟨hd₆, hpop⟩ := Emitter.emitAll_lays (O := O) hpop hd₅ rfl
  obtain ⟨hd₇, hexit⟩ := Emitter.exitScope_lays (O := O) hexit hd₆
  obtain ⟨-, hd₈, hclose⟩ := TryRegion.close_lays_finally (O := O) hclose hstage
  rw [hr] at hd₈ hclose
  have hbehind := ((hpass.trans hpop).trans hexit).trans hclose
  refine ⟨hd, hd₈, (((hleave.trans hfinally).trans hswap).trans hbehind).imp ?_⟩
  rintro t ⟨⟨⟨hleave', hend, hleads⟩, hswap⟩, ⟨⟨⟨slots', hfresh, hpass⟩, hpop⟩, hexit⟩, hclose⟩
  rw [hsize₄] at hswap hpass
  have hsize : e.code.size ≤ e₃.code.size := (hleave.trans hfinally).grown.size_le
  exact ⟨_, _, _, _, hsize, hleave', hend, hleads, hswap, ⟨slots', hfresh, hpass⟩,
    hpop.append hexit, hclose⟩

end DisposalScope
end ResourceMachine
