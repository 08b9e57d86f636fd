/-
# What branches, loops and protected regions lay out

Each construct of the assembler opens with operands that are pending and closes
when they are patched. Between its parts the depth of the operand stack is the
one that it was opened with.

Key theorems: `Branch.first_lays`, `Branch.close_lays`, `Loop.close_lays`,
`TryRegion.onCatch_lays`, `TryRegion.onFinally_lays`,
`Emitter.throwIfException_lays`.
-/
import ResourceMachine.Proofs.Emission

namespace ResourceMachine

variable {O : List PendingJump} {e e' : Emitter} {d : Nat} {u : Unit}

/-! ### Branches -/

namespace Branch

variable {b b' : Branch}

theorem first_lays {polarity : Polarity} (h : first polarity e = .ok b e') (hd : e.depth = d + 1) :
    b.depth = d ∧ e'.depth = d ∧ e'.code.size = e.code.size + 5 ∧
      Lays O (b.pending :: O) e e' fun t =>
        ∀ target, t.Leads b.pending target →
          t.Jump (if polarity = .positive then .ifFalse else .ifTrue) e.code.size target := by
  obtain ⟨j, e₁, hjump, h⟩ := bind_eq_ok.mp h
  obtain ⟨_, _, hdepth, h⟩ := bind_eq_ok.mp h
  cases hdepth
  cases h
  have hpops : d + 1 -
      (JumpKind.instr (if polarity = .positive then .ifFalse else .ifTrue) 0).stackEffect.pops = d := by
    cases polarity <;> rfl
  obtain ⟨hd', hsize, hlays⟩ := Emitter.jump_lays (O := O) hjump hd hpops
  exact ⟨hd', hd', hsize, hlays⟩

theorem checkDepth_eq_ok (h : b.checkDepth e = .ok u e') : e' = e ∧ e.depth = b.depth := by
  obtain ⟨_, _, hdepth, h⟩ := bind_eq_ok.mp h
  cases hdepth
  split at h
  · cases h
  · cases h
    exact ⟨rfl, Decidable.not_not.mp ‹_›⟩

/-- The second branch starts behind the jump at the end of the first. -/
theorem second_lays (h : b.second e = .ok b' e') :
    b'.depth = b.depth ∧ e.depth = b.depth ∧ e'.depth = b.depth ∧
      e'.code.size = e.code.size + 5 ∧
      Lays (b.pending :: O) (b'.pending :: O) e e' fun t =>
        t.Leads b.pending (e.code.size + 5) ∧
          ∀ target, t.Leads b'.pending target → t.Jump .always e.code.size target := by
  obtain ⟨_, e₁, hcheck, hrest⟩ := bind_eq_ok.mp h
  obtain ⟨rfl, hd⟩ := checkDepth_eq_ok hcheck
  obtain ⟨j, e₂, hjump, h⟩ := bind_eq_ok.mp hrest
  obtain ⟨_, e₃, hpatch, h⟩ := bind_eq_ok.mp h
  obtain ⟨_, e₄, hdepth, h⟩ := bind_eq_ok.mp h
  cases h
  obtain ⟨-, hsize₂, hjump⟩ := Emitter.jump_lays (O := b.pending :: O) hjump hd rfl
  obtain ⟨-, hsize₃, hpatch⟩ := Emitter.patchHere_lays (O := j :: O) hpatch
  obtain ⟨hd₄, hsize₄, hdepth⟩ := Emitter.setDepth_lays (O := j :: O) hdepth
  refine ⟨rfl, hd, hd₄, by omega, ?_⟩
  have hjump' := hjump.perm (.refl _) (.swap b.pending j O)
  refine ((hjump'.trans hpatch).trans hdepth).imp fun t ⟨⟨hjump, hleads⟩, _⟩ => ⟨?_, hjump⟩
  rwa [hsize₂] at hleads

theorem close_lays (h : b.close e = .ok u e') :
    e.depth = b.depth ∧ e'.depth = b.depth ∧ e'.code.size = e.code.size ∧
      Lays (b.pending :: O) O e e' fun t => t.Leads b.pending e.code.size := by
  obtain ⟨_, e₁, hcheck, hrest⟩ := bind_eq_ok.mp h
  obtain ⟨rfl, hd⟩ := checkDepth_eq_ok hcheck
  obtain ⟨hd', hsize, hpatch⟩ := Emitter.patchHere_lays (O := O) hrest
  exact ⟨hd, hd'.trans hd, hsize, hpatch⟩

end Branch

/-! ### Loops -/

namespace Loop

variable {l l' : Loop}

theorem body_lays (h : l.body e = .ok l' e') (hd : e.depth = d + 1) :
    ∃ j, l' = { l with exit := some j } ∧ e'.depth = d ∧ e'.code.size = e.code.size + 5 ∧
      Lays O (j :: O) e e' fun t =>
        ∀ target, t.Leads j target → t.Jump .ifFalse e.code.size target := by
  obtain ⟨j, e₁, hjump, h⟩ := bind_eq_ok.mp h
  cases h
  exact ⟨j, rfl, Emitter.jump_lays hjump hd rfl⟩

/-- The end of the body leads back to the condition, and the jump out of the loop
behind it. -/
theorem close_lays {j : PendingJump} (h : l.close e = .ok l' e') (hexit : l.exit = some j)
    (hhead : l.head ≤ e.code.size) :
    e.depth = l.depth ∧ e'.depth = l.depth ∧ e'.code.size = e.code.size + 5 ∧
      Lays (j :: O) O e e' fun t =>
        t.Jump .always e.code.size l.head ∧ t.Leads j (e.code.size + 5) := by
  obtain ⟨_, _, hdepth, h⟩ := bind_eq_ok.mp h
  cases hdepth
  split at h
  · cases h
  obtain ⟨_, e₁, hjump, h⟩ := bind_eq_ok.mp h
  rw [hexit] at h
  obtain ⟨_, e₂, hpatch, h⟩ := bind_eq_ok.mp h
  cases h
  have hd : e.depth = l.depth := Decidable.not_not.mp ‹_›
  obtain ⟨hd₁, hsize₁, hjump⟩ := Emitter.jumpTo_lays (O := j :: O) hjump hd hhead
  obtain ⟨hd₂, hsize₂, hpatch⟩ := Emitter.patchHere_lays (O := O) hpatch
  refine ⟨hd, hd₂.trans hd₁, hsize₂.trans hsize₁, (hjump.trans hpatch).imp ?_⟩
  rintro t ⟨hjump, hleads⟩
  rw [hsize₁] at hleads
  exact ⟨hjump, hleads⟩

end Loop

/-! ### Protected regions -/

namespace TryRegion

variable {r r' : TryRegion} {hs : PendingHandlers} {j : PendingJump}

theorem start_lays_catch (h : start e = .ok r e') :
    ∃ hs, r.stage = .body hs ∧ r.depth = e.depth ∧ e'.depth = e.depth ∧
      e'.code.size = e.code.size + 9 ∧
      Lays O (hs.onCatch :: O) e e' fun t =>
        ∀ target, t.Leads hs.onCatch target → e.code.size + 9 ≤ target →
          t.Protect e.code.size (some target) none := by
  obtain ⟨_, _, hdepth, h⟩ := bind_eq_ok.mp h
  cases hdepth
  obtain ⟨hs, e₁, hstart, h⟩ := bind_eq_ok.mp h
  cases h
  exact ⟨hs, rfl, rfl, Emitter.tryCatch_lays hstart⟩

theorem start_lays_finally (h : start e = .ok r e') :
    ∃ hs, r.stage = .body hs ∧ r.depth = e.depth ∧ e'.depth = e.depth ∧
      e'.code.size = e.code.size + 9 ∧
      Lays O (hs.onFinally :: O) e e' fun t =>
        ∀ target, t.Leads hs.onFinally target → e.code.size + 9 ≤ target →
          t.Protect e.code.size none (some target) := by
  obtain ⟨_, _, hdepth, h⟩ := bind_eq_ok.mp h
  cases hdepth
  obtain ⟨hs, e₁, hstart, h⟩ := bind_eq_ok.mp h
  cases h
  exact ⟨hs, rfl, rfl, Emitter.tryFinally_lays hstart⟩

theorem checkDepth_eq_ok (h : r.checkDepth e = .ok u e') : e' = e ∧ e.depth = r.depth := by
  obtain ⟨_, _, hdepth, h⟩ := bind_eq_ok.mp h
  cases hdepth
  split at h
  · cases h
  · cases h
    exact ⟨rfl, Decidable.not_not.mp ‹_›⟩

/-- The catch code starts behind a jump over it. -/
theorem onCatch_lays (h : r.onCatch e = .ok r' e') (hstage : r.stage = .body hs) :
    e.depth = r.depth ∧ e'.depth = r.depth + 1 ∧ e'.code.size = e.code.size + 6 ∧
      ∃ j, r'.stage = .catching j ∧ r'.depth = r.depth ∧
        Lays (hs.onCatch :: O) (j :: O) e e' fun t =>
          t.Line r.depth e.code.size [.endTry] r.depth (e.code.size + 1) ∧
            (∀ target, t.Leads j target → t.Jump .always (e.code.size + 1) target) ∧
            t.Leads hs.onCatch (e.code.size + 6) ∧ r.depth + 1 ≤ t.maxStack := by
  obtain ⟨_, e₁, hcheck, hrest⟩ := bind_eq_ok.mp h
  obtain ⟨rfl, hd⟩ := checkDepth_eq_ok hcheck
  obtain ⟨_, e₂, hend, h⟩ := bind_eq_ok.mp hrest
  obtain ⟨j, e₃, hjump, h⟩ := bind_eq_ok.mp h
  rw [hstage] at h
  obtain ⟨_, e₄, hpatch, h⟩ := bind_eq_ok.mp h
  obtain ⟨_, e₅, hdepth, h⟩ := bind_eq_ok.mp h
  cases h
  obtain ⟨hd₂, hsize₂, hend⟩ := Emitter.emit_lays (O := hs.onCatch :: O) hend hd rfl
  obtain ⟨-, hsize₃, hjump⟩ := Emitter.jump_lays (O := hs.onCatch :: O) hjump hd₂ rfl
  obtain ⟨-, hsize₄, hpatch⟩ := Emitter.patchHere_lays (O := j :: O) hpatch
  obtain ⟨hd₅, hsize₅, hdepth⟩ := Emitter.setDepth_lays (O := j :: O) hdepth
  have hsize₂' : e₂.code.size = e₁.code.size + 1 := hsize₂
  refine ⟨hd, hd₅, by omega, j, rfl, rfl, ?_⟩
  have hjump' := hjump.perm (.refl _) (.swap hs.onCatch j O)
  refine (((hend.trans hjump').trans hpatch).trans hdepth).imp ?_
  rintro t ⟨⟨⟨hend, hjump⟩, hleads⟩, hmax⟩
  rw [hsize₂'] at hend hjump
  rw [hsize₃, hsize₂'] at hleads
  exact ⟨hend, hjump, hleads, hmax⟩

theorem close_lays_catch (h : r.close e = .ok r' e') (hstage : r.stage = .catching j) :
    e'.depth = r.depth ∧ e'.code.size = e.code.size ∧
      Lays (j :: O) O e e' fun t => t.Leads j e.code.size := by
  unfold close at h
  rw [hstage] at h
  obtain ⟨_, e₁, hpatch, h⟩ := bind_eq_ok.mp h
  obtain ⟨_, e₂, hdepth, h⟩ := bind_eq_ok.mp h
  cases h
  obtain ⟨-, hsize₁, hpatch⟩ := Emitter.patchHere_lays (O := O) hpatch
  obtain ⟨hd₂, hsize₂, hdepth⟩ := Emitter.setDepth_lays (O := O) hdepth
  exact ⟨hd₂, hsize₂.trans hsize₁, (hpatch.trans hdepth).imp fun t h => h.1⟩

end TryRegion

namespace Emitter

theorem throwIfException_lays (h : throwIfException e = .ok u e') (hd : e.depth = d + 2) :
    e'.depth = d ∧ Lays O O e e' fun t => t.ThrowIfException d e.code.size e'.code.size := by
  obtain ⟨b, e₁, hfirst, h⟩ := bind_eq_ok.mp h
  obtain ⟨_, _, hdepth, h⟩ := bind_eq_ok.mp h
  cases hdepth
  obtain ⟨_, e₂, hthrow, h⟩ := bind_eq_ok.mp h
  obtain ⟨_, e₃, hdepth, h⟩ := bind_eq_ok.mp h
  obtain ⟨_, e₄, hclose, hpop⟩ := bind_eq_ok.mp h
  obtain ⟨hb, hd₁, hsize₁, hfirst⟩ := Branch.first_lays (O := O) hfirst hd
  obtain ⟨-, hsize₂, hthrow⟩ := emit_lays (O := b.pending :: O) hthrow hd₁ rfl
  obtain ⟨hd₃, hsize₃, hdepth⟩ := setDepth_lays (O := b.pending :: O) hdepth
  obtain ⟨-, hd₄, hsize₄, hclose⟩ := Branch.close_lays (O := O) hclose
  obtain ⟨hd₅, -, hpop⟩ := emit_lays (O := O) hpop (hd₄.trans hb) rfl
  refine ⟨hd₅, ((((hfirst.trans hthrow).trans hdepth).trans hclose).trans hpop).imp ?_⟩
  rintro t ⟨⟨⟨⟨hfirst, hthrow⟩, -⟩, hclose⟩, hpop⟩
  have hsize₂' : e₂.code.size = e.code.size + 6 := by
    rw [hsize₂, hsize₁]
    rfl
  rw [hsize₃, hsize₂'] at hclose
  rw [hsize₄, hsize₃, hsize₂'] at hpop
  rw [hsize₁, hsize₂'] at hthrow
  exact ⟨hfirst _ hclose, hthrow, hpop⟩

/-- In a generator, the signal that closes it is thrown again. -/
theorem rethrowIfClosing_lays (h : rethrowIfClosing e = .ok u e') (hd : e.depth = d + 1) :
    e'.depth = d + 1 ∧ Lays O O e e' fun t =>
      ∃ m, t.Line (d + 1) e.code.size [.dup, .isClosing] (d + 2) m ∧
        t.Jump .ifFalse m e'.code.size ∧ t.Line (d + 1) (m + 5) [.throw] d e'.code.size := by
  obtain ⟨_, e₁, hdup, h⟩ := bind_eq_ok.mp h
  obtain ⟨_, e₂, hclosing, h⟩ := bind_eq_ok.mp h
  obtain ⟨b, e₃, hfirst, h⟩ := bind_eq_ok.mp h
  obtain ⟨_, _, hdepth, h⟩ := bind_eq_ok.mp h
  cases hdepth
  obtain ⟨_, e₄, hthrow, h⟩ := bind_eq_ok.mp h
  obtain ⟨_, e₅, hdepth, hclose⟩ := bind_eq_ok.mp h
  obtain ⟨hd₁, -, hdup⟩ := emit_lays (O := O) hdup hd rfl
  obtain ⟨hd₂, -, hclosing⟩ := emit_lays (O := O) hclosing hd₁ rfl
  obtain ⟨hb, hd₃, hsize₃, hfirst⟩ := Branch.first_lays (O := O) hfirst hd₂
  obtain ⟨-, hsize₄, hthrow⟩ := emit_lays (O := b.pending :: O) hthrow hd₃ rfl
  obtain ⟨hd₅, hsize₅, hdepth⟩ := setDepth_lays (O := b.pending :: O) hdepth
  obtain ⟨-, hd₆, hsize₆, hclose⟩ := Branch.close_lays (O := O) hclose
  refine ⟨hd₆.trans hb,
    (((((hdup.trans hclosing).trans hfirst).trans hthrow).trans hdepth).trans hclose).imp ?_⟩
  rintro t ⟨⟨⟨⟨⟨hdup, hclosing⟩, hfirst⟩, hthrow⟩, -⟩, hclose⟩
  rw [hsize₃, ← hsize₅, ← hsize₆] at hthrow
  rw [← hsize₆] at hclose
  exact ⟨_, hdup.append hclosing, hfirst _ hclose, hthrow⟩

end Emitter

namespace TryRegion

variable {r r' : TryRegion} {hs : PendingHandlers}

/-- The finally code is entered with nothing pending where the protected code
ends. -/
theorem onFinally_lays (h : r.onFinally e = .ok r' e') (hstage : r.stage = .body hs) :
    e.depth = r.depth ∧ e'.depth = r.depth + 2 ∧ r'.stage = .finishing ∧ r'.depth = r.depth ∧
      Lays (hs.onFinally :: O) O e e' fun t =>
        t.Line r.depth e.code.size [.endTry, .constUndefined, .constFalse] (r.depth + 2)
            e'.code.size ∧
          t.Leads hs.onFinally e'.code.size := by
  obtain ⟨_, e₁, hcheck, hrest⟩ := bind_eq_ok.mp h
  obtain ⟨rfl, hd⟩ := checkDepth_eq_ok hcheck
  obtain ⟨_, e₂, hend, h⟩ := bind_eq_ok.mp hrest
  rw [hstage] at h
  obtain ⟨_, e₃, hpatch, h⟩ := bind_eq_ok.mp h
  obtain ⟨_, e₄, hdepth, h⟩ := bind_eq_ok.mp h
  cases h
  obtain ⟨-, hend⟩ := Emitter.emitAll_lays (O := hs.onFinally :: O) hend hd rfl
  obtain ⟨-, hsize₃, hpatch⟩ := Emitter.patchHere_lays (O := O) hpatch
  obtain ⟨hd₄, hsize₄, hdepth⟩ := Emitter.setDepth_lays (O := O) hdepth
  refine ⟨hd, hd₄, rfl, rfl, ((hend.trans hpatch).trans hdepth).imp ?_⟩
  rintro t ⟨⟨hend, hleads⟩, -⟩
  rw [hsize₄, hsize₃]
  exact ⟨hend, hleads⟩

theorem close_lays_finally (h : r.close e = .ok r' e') (hstage : r.stage = .finishing) :
    e.depth = r.depth + 2 ∧ e'.depth = r.depth ∧
      Lays O O e e' fun t => t.ThrowIfException r.depth e.code.size e'.code.size := by
  unfold close at h
  rw [hstage] at h
  obtain ⟨_, _, hdepth, h⟩ := bind_eq_ok.mp h
  cases hdepth
  split at h
  · cases h
  obtain ⟨_, e₁, hthrow, h⟩ := bind_eq_ok.mp h
  cases h
  have hd : e.depth = r.depth + 2 := Decidable.not_not.mp ‹_›
  exact ⟨hd, Emitter.throwIfException_lays hthrow hd⟩

end TryRegion
end ResourceMachine
