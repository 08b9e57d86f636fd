/-
# What a disposal pass lays out

The code that the assembler emits for a pass has the layout of one, part for
part: `Emitter.disposalPass_lays` is put together from one theorem for each
definition that emits a part.

Key theorems: `PassSlots.alloc_lays`, `Emitter.callDispose_lays`,
`Emitter.disposeRecords_lays`, `Emitter.disposalPass_lays`.
-/
import ResourceMachine.Proofs.RegionEmission

namespace ResourceMachine

variable {O : List PendingJump} {e e' : Emitter} {d : Nat} {u : Unit} {s : PassSlots}
  {awaits unwrapClosing : Bool}

/-- The locals of a pass are given out one after the other. -/
theorem PassSlots.alloc_lays (h : alloc e = .ok s e') :
    s.From e.localCount.toNat ∧ e'.localCount.toNat = e.localCount.toNat + 8 ∧
      e'.depth = e.depth ∧ e'.code.size = e.code.size ∧
      Lays O O e e' fun t => e.localCount.toNat + 8 ≤ t.localCount := by
  obtain ⟨s₀, e₁, h₀, h⟩ := bind_eq_ok.mp h
  obtain ⟨s₁, e₂, h₁, h⟩ := bind_eq_ok.mp h
  obtain ⟨s₂, e₃, h₂, h⟩ := bind_eq_ok.mp h
  obtain ⟨s₃, e₄, h₃, h⟩ := bind_eq_ok.mp h
  obtain ⟨s₄, e₅, h₄, h⟩ := bind_eq_ok.mp h
  obtain ⟨s₅, e₆, h₅, h⟩ := bind_eq_ok.mp h
  obtain ⟨s₆, e₇, h₆, h⟩ := bind_eq_ok.mp h
  obtain ⟨s₇, e₈, h₇, h⟩ := bind_eq_ok.mp h
  cases h
  obtain ⟨hs₀, hn₀, hd₀, hz₀, h₀⟩ := Emitter.allocLocal_lays (O := O) h₀
  obtain ⟨hs₁, hn₁, hd₁, hz₁, h₁⟩ := Emitter.allocLocal_lays (O := O) h₁
  obtain ⟨hs₂, hn₂, hd₂, hz₂, h₂⟩ := Emitter.allocLocal_lays (O := O) h₂
  obtain ⟨hs₃, hn₃, hd₃, hz₃, h₃⟩ := Emitter.allocLocal_lays (O := O) h₃
  obtain ⟨hs₄, hn₄, hd₄, hz₄, h₄⟩ := Emitter.allocLocal_lays (O := O) h₄
  obtain ⟨hs₅, hn₅, hd₅, hz₅, h₅⟩ := Emitter.allocLocal_lays (O := O) h₅
  obtain ⟨hs₆, hn₆, hd₆, hz₆, h₆⟩ := Emitter.allocLocal_lays (O := O) h₆
  obtain ⟨hs₇, hn₇, hd₇, hz₇, h₇⟩ := Emitter.allocLocal_lays (O := O) h₇
  refine ⟨⟨hs₀, hs₁.trans (by omega), hs₂.trans (by omega), hs₃.trans (by omega),
    hs₄.trans (by omega), hs₅.trans (by omega), hs₆.trans (by omega), hs₇.trans (by omega)⟩,
    by omega, by omega, by omega, ?_⟩
  refine (((((((h₀.trans h₁).trans h₂).trans h₃).trans h₄).trans h₅).trans h₆).trans h₇).imp ?_
  rintro t ⟨-, hlast⟩
  omega

namespace Emitter

theorem emitAwait_eq_ok (h : emitAwait e = .ok u e') : e.kind.isAsync ∧ emit .await e = .ok u e' := by
  obtain ⟨_, _, hget, h⟩ := bind_eq_ok.mp h
  cases hget
  split at h
  · exact ⟨‹_›, h⟩
  · cases h

theorem emitYield_eq_ok (h : emitYield e = .ok u e') :
    e.kind.isGenerator ∧ emit .yield e = .ok u e' := by
  obtain ⟨_, _, hget, h⟩ := bind_eq_ok.mp h
  cases hget
  split at h
  · exact ⟨‹_›, h⟩
  · cases h

theorem awaitUndefined_lays (h : awaitUndefined e = .ok u e') (hd : e.depth = d) :
    e'.depth = d ∧ Lays O O e e' fun t =>
      t.Line d e.code.size [.constUndefined, .await, .pop] d e'.code.size := by
  obtain ⟨_, e₁, hpush, h⟩ := bind_eq_ok.mp h
  obtain ⟨_, e₂, hawait, hpop⟩ := bind_eq_ok.mp h
  obtain ⟨hd₁, -, hpush⟩ := emit_lays (O := O) hpush hd rfl
  obtain ⟨hd₂, -, hawait⟩ := emit_lays (O := O) (emitAwait_eq_ok hawait).2 hd₁ rfl
  obtain ⟨hd₃, -, hpop⟩ := emit_lays (O := O) hpop hd₂ rfl
  exact ⟨hd₃, ((hpush.trans hawait).trans hpop).imp fun t ⟨⟨hpush, hawait⟩, hpop⟩ =>
    (hpush.append hawait).append hpop⟩

theorem awaitBeforeSync_lays (h : awaitBeforeSync s e = .ok u e') (hd : e.depth = d) :
    e'.depth = d ∧ Lays O O e e' fun t => t.AwaitBefore s d e.code.size e'.code.size := by
  obtain ⟨_, e₁, hhint, h⟩ := bind_eq_ok.mp h
  obtain ⟨_, e₂, hcond, h⟩ := bind_eq_ok.mp h
  obtain ⟨b, e₃, hfirst, h⟩ := bind_eq_ok.mp h
  obtain ⟨_, e₄, hwait, h⟩ := bind_eq_ok.mp h
  obtain ⟨_, e₅, hset, hclose⟩ := bind_eq_ok.mp h
  obtain ⟨hd₁, hhint⟩ := emitAll_lays (O := O) hhint hd rfl
  obtain ⟨hd₂, hcond⟩ := emitAll_lays (O := O) hcond hd₁ rfl
  obtain ⟨hb, hd₃, hsize₃, hfirst⟩ := Branch.first_lays (O := O) hfirst hd₂
  obtain ⟨hd₄, hwait⟩ := awaitUndefined_lays (O := b.pending :: O) hwait hd₃
  obtain ⟨hd₅, hset⟩ := emitAll_lays (O := b.pending :: O) hset hd₄ rfl
  obtain ⟨-, hd₆, hsize₆, hclose⟩ := Branch.close_lays (O := O) hclose
  refine ⟨hd₆.trans hb,
    (((((hhint.trans hcond).trans hfirst).trans hwait).trans hset).trans hclose).imp ?_⟩
  rintro t ⟨⟨⟨⟨⟨hhint, hcond⟩, hfirst⟩, hwait⟩, hset⟩, hclose⟩
  rw [hsize₃] at hwait
  rw [hsize₆]
  exact ⟨_, hhint.append hcond, hfirst _ hclose, hwait.append hset⟩

theorem awaitResult_lays (h : awaitResult s e = .ok u e') (hd : e.depth = d + 1) :
    e'.depth = d + 1 ∧ Lays O O e e' fun t => t.AwaitResult s d e.code.size e'.code.size := by
  obtain ⟨_, e₁, hhint, h⟩ := bind_eq_ok.mp h
  obtain ⟨b, e₂, hfirst, h⟩ := bind_eq_ok.mp h
  obtain ⟨_, e₃, hset, h⟩ := bind_eq_ok.mp h
  obtain ⟨_, e₄, hawait, hclose⟩ := bind_eq_ok.mp h
  obtain ⟨hd₁, hhint⟩ := emitAll_lays (O := O) hhint hd rfl
  obtain ⟨hb, hd₂, hsize₂, hfirst⟩ := Branch.first_lays (O := O) hfirst hd₁
  obtain ⟨hd₃, hset⟩ := emitAll_lays (O := b.pending :: O) hset hd₂ rfl
  obtain ⟨hd₄, -, hawait⟩ := emit_lays (O := b.pending :: O) (emitAwait_eq_ok hawait).2 hd₃ rfl
  obtain ⟨-, hd₅, hsize₅, hclose⟩ := Branch.close_lays (O := O) hclose
  refine ⟨hd₅.trans hb, ((((hhint.trans hfirst).trans hset).trans hawait).trans hclose).imp ?_⟩
  rintro t ⟨⟨⟨⟨hhint, hfirst⟩, hset⟩, hawait⟩, hclose⟩
  rw [hsize₂] at hset
  rw [hsize₅]
  exact ⟨_, hhint, hfirst _ hclose, hset.append hawait⟩

theorem callDispose_lays (h : callDispose s awaits unwrapClosing e = .ok u e') (hd : e.depth = d) :
    e'.depth = d ∧ Lays O O e e' fun t =>
      t.CallDispose s awaits unwrapClosing d e.code.size e'.code.size := by
  obtain ⟨r, e₁, hstart, h⟩ := bind_eq_ok.mp h
  obtain ⟨_, e₂, hmethod, h⟩ := bind_eq_ok.mp h
  obtain ⟨_, e₃, hvalue, h⟩ := bind_eq_ok.mp h
  obtain ⟨_, e₄, hcall, h⟩ := bind_eq_ok.mp h
  obtain ⟨e₅, hresult, h⟩ := bind_if_eq_ok h
  obtain ⟨_, e₆, hpop, h⟩ := bind_eq_ok.mp h
  obtain ⟨r', e₇, hcatch, h⟩ := bind_eq_ok.mp h
  obtain ⟨_, e₈, hcaught, h⟩ := bind_eq_ok.mp h
  obtain ⟨r'', e₉, hclose, h⟩ := bind_eq_ok.mp h
  cases h
  obtain ⟨hs, hstage, hr, hd₁, hsize₁, hstart⟩ := TryRegion.start_lays_catch (O := O) hstart
  rw [hd] at hr hd₁
  obtain ⟨hd₂, hmethod⟩ := emitAll_lays (O := hs.onCatch :: O) hmethod hd₁ rfl
  obtain ⟨hd₃, hvalue⟩ := emitAll_lays (O := hs.onCatch :: O) hvalue hd₂ rfl
  obtain ⟨hd₄, -, hcall⟩ := emit_lays (O := hs.onCatch :: O) hcall hd₃ rfl
  have hresult' : e₅.depth = d + 1 ∧ Lays (hs.onCatch :: O) (hs.onCatch :: O) e₄ e₅ fun t =>
      if awaits then t.AwaitResult s d e₄.code.size e₅.code.size
      else e₅.code.size = e₄.code.size := by
    cases awaits with
    | false =>
      cases hresult
      exact ⟨hd₄, (Lays.refl _ _).imp fun _ _ => rfl⟩
    | true => exact awaitResult_lays hresult hd₄
  obtain ⟨hd₅, hresult⟩ := hresult'
  obtain ⟨hd₆, -, hpop⟩ := emit_lays (O := hs.onCatch :: O) hpop hd₅ rfl
  obtain ⟨-, hd₇, hsize₇, j, hstage', hr', hcatch⟩ := TryRegion.onCatch_lays (O := O) hcatch hstage
  rw [hr] at hd₇ hr' hcatch
  obtain ⟨hd₈, hcaught⟩ := emitAll_lays (O := j :: O) hcaught hd₇ rfl
  obtain ⟨hd₉, hsize₉, hclose⟩ := TryRegion.close_lays_catch (O := O) hclose hstage'
  rw [hr'] at hd₉
  have hbody := (((hmethod.trans hvalue).trans hcall).trans hresult).trans hpop
  have hle := hbody.grown.size_le
  refine ⟨hd₉, ((((hstart.trans hbody).trans hcatch).trans hcaught).trans hclose).imp ?_⟩
  rintro t ⟨⟨⟨⟨hstart, ⟨⟨⟨hmethod, hvalue⟩, hcall⟩, hresult⟩, hpop⟩, hend, hjump, hleads, -⟩, hcaught⟩,
    hclose⟩
  rw [hsize₁] at hmethod
  rw [hsize₇] at hcaught
  rw [hsize₉]
  refine ⟨_, _, _, hstart _ hleads (by omega), ?_, hresult, hpop.append hend, hjump _ hclose,
    hcaught⟩
  exact (hmethod.append hvalue).append hcall

theorem disposeRecord_lays (h : disposeRecord s awaits unwrapClosing e = .ok u e')
    (hd : e.depth = d) :
    e'.depth = d ∧ Lays O O e e' fun t =>
      t.DisposeRecord s awaits unwrapClosing d e.code.size e'.code.size := by
  unfold disposeRecord at h
  obtain ⟨e₀, hbefore, h⟩ := bind_if_eq_ok h
  obtain ⟨_, e₁, hmethod, h⟩ := bind_eq_ok.mp h
  obtain ⟨_, e₂, hnullish, h⟩ := bind_eq_ok.mp h
  obtain ⟨b, e₃, hfirst, h⟩ := bind_eq_ok.mp h
  obtain ⟨_, e₄, hcall, h⟩ := bind_eq_ok.mp h
  have hbefore' : e₀.depth = d ∧ Lays O O e e₀ fun t =>
      if awaits then t.AwaitBefore s d e.code.size e₀.code.size
      else e₀.code.size = e.code.size := by
    cases awaits with
    | false =>
      cases hbefore
      exact ⟨hd, (Lays.refl _ _).imp fun _ _ => rfl⟩
    | true => exact awaitBeforeSync_lays hbefore hd
  obtain ⟨hd₀, hbefore⟩ := hbefore'
  obtain ⟨hd₁, hmethod⟩ := emitAll_lays (O := O) hmethod hd₀ rfl
  obtain ⟨hd₂, -, hnullish⟩ := emit_lays (O := O) hnullish hd₁ rfl
  obtain ⟨hb, hd₃, hsize₃, hfirst⟩ := Branch.first_lays (O := O) hfirst hd₂
  obtain ⟨hd₄, hcall⟩ := callDispose_lays (O := b.pending :: O) hcall hd₃
  have hstart := (((hbefore.trans hmethod).trans hnullish).trans hfirst).trans hcall
  cases awaits with
  | false =>
    obtain ⟨-, hd₅, hsize₅, hclose⟩ := Branch.close_lays (O := O) h
    refine ⟨hd₅.trans hb, (hstart.trans hclose).imp ?_⟩
    rintro t ⟨⟨⟨⟨⟨hbefore, hmethod⟩, hnullish⟩, hfirst⟩, hcall⟩, hclose⟩
    rw [hsize₃] at hcall
    rw [← hsize₅] at hclose
    exact ⟨_, _, _, hbefore, hmethod.append hnullish, hcall, hfirst _ hclose, hsize₅⟩
  | true =>
    obtain ⟨b', e₅, hsecond, h⟩ := bind_eq_ok.mp h
    obtain ⟨_, e₆, hset, hclose⟩ := bind_eq_ok.mp h
    obtain ⟨hb', -, hd₅, hsize₅, hsecond⟩ := Branch.second_lays (O := O) hsecond
    obtain ⟨hd₆, hset⟩ := emitAll_lays (O := b'.pending :: O) hset (hd₅.trans hb) rfl
    obtain ⟨-, hd₇, hsize₇, hclose⟩ := Branch.close_lays (O := O) hclose
    refine ⟨hd₇.trans (hb'.trans hb), (((hstart.trans hsecond).trans hset).trans hclose).imp ?_⟩
    rintro t ⟨⟨⟨⟨⟨⟨⟨hbefore, hmethod⟩, hnullish⟩, hfirst⟩, hcall⟩, hleads, hjump⟩, hset⟩, hclose⟩
    rw [hsize₃] at hcall
    rw [hsize₅] at hset
    rw [← hsize₇] at hclose hset
    exact ⟨_, _, _, hbefore, hmethod.append hnullish, hcall, hfirst _ hleads, hjump _ hclose, hset⟩

theorem disposeRecords_lays (h : disposeRecords s awaits unwrapClosing e = .ok u e')
    (hd : e.depth = d) :
    e'.depth = d ∧ Lays O O e e' fun t =>
      t.DisposeRecords s awaits unwrapClosing d e.code.size e'.code.size := by
  obtain ⟨l, e₀, hcondition, h⟩ := bind_eq_ok.mp h
  obtain ⟨_, e₁, hcond, h⟩ := bind_eq_ok.mp h
  obtain ⟨l', e₂, hbody, h⟩ := bind_eq_ok.mp h
  obtain ⟨_, e₃, hfetch, h⟩ := bind_eq_ok.mp h
  obtain ⟨_, e₄, hone, h⟩ := bind_eq_ok.mp h
  obtain ⟨_, e₅, hdec, h⟩ := bind_eq_ok.mp h
  obtain ⟨l'', e₆, hclose, h⟩ := bind_eq_ok.mp h
  cases h
  cases hcondition
  obtain ⟨hd₁, hcond⟩ := emitAll_lays (O := O) hcond hd rfl
  obtain ⟨j, hl', hd₂, hsize₂, hbody⟩ := Loop.body_lays (O := O) hbody hd₁
  obtain ⟨hd₃, hfetch⟩ := emitAll_lays (O := j :: O) hfetch hd₂ rfl
  obtain ⟨hd₄, hone⟩ := disposeRecord_lays (O := j :: O) hone hd₃
  obtain ⟨hd₅, hdec⟩ := emitAll_lays (O := j :: O) hdec hd₄ rfl
  have hround := (((hcond.trans hbody).trans hfetch).trans hone).trans hdec
  have hhead : l'.head = e.code.size := by rw [hl']
  have hle := hround.grown.size_le
  obtain ⟨-, hd₆, hsize₆, hclose⟩ := Loop.close_lays (O := O) (j := j) hclose (by rw [hl'])
    (by rw [hhead]; exact hle)
  refine ⟨by rw [hd₆, hl', ← hd], (hround.trans hclose).imp ?_⟩
  rintro t ⟨⟨⟨⟨⟨hcond, hbody⟩, hfetch⟩, hone⟩, hdec⟩, hback, hleads⟩
  rw [hsize₂] at hfetch
  rw [hhead] at hback
  rw [← hsize₆] at hleads
  exact ⟨_, _, _, _, hcond, hbody _ hleads, hfetch, hone, hdec, hback, hsize₆⟩

theorem startPass_lays {seed : Seed} (h : startPass s awaits seed e = .ok u e')
    (hd : e.depth = d + seed.values) :
    e'.depth = d ∧ Lays O O e e' fun t =>
      t.StartPass s awaits seed d e.code.size e'.code.size := by
  unfold startPass at h
  obtain ⟨e₁, hflags, h⟩ := bind_if_eq_ok h
  have hflags' : e₁.depth = d + seed.values ∧ Lays O O e e₁ fun t =>
      t.Line (d + seed.values) e.code.size
        (if awaits then
          [.getRval, .storeLocal s.rval, .constFalse, .storeLocal s.needsAwait, .constFalse,
           .storeLocal s.hasAwaited]
        else []) (d + seed.values) e₁.code.size := by
    cases awaits with
    | false =>
      cases hflags
      exact ⟨hd, (Lays.refl _ _).imp fun _ _ => Target.Line.nil⟩
    | true => exact emitAll_lays hflags hd rfl
  obtain ⟨hd₁, hflags⟩ := hflags'
  cases seed
  all_goals
    obtain ⟨_, e₂, hseed, htake⟩ := bind_eq_ok.mp h
    obtain ⟨hd₂, hseed⟩ := emitAll_lays (O := O) hseed hd₁ rfl
    obtain ⟨hd₃, htake⟩ := emitAll_lays (O := O) htake hd₂ rfl
    exact ⟨hd₃, ((hflags.trans hseed).trans htake).imp fun t ⟨⟨hflags, hseed⟩, htake⟩ =>
      ⟨_, _, hflags, hseed, htake⟩⟩

theorem awaitOwed_lays (h : awaitOwed s e = .ok u e') (hd : e.depth = d) :
    e'.depth = d ∧ Lays O O e e' fun t => t.AwaitOwed s d e.code.size e'.code.size := by
  obtain ⟨_, e₁, hcond, h⟩ := bind_eq_ok.mp h
  obtain ⟨b, e₂, hfirst, h⟩ := bind_eq_ok.mp h
  obtain ⟨_, e₃, hwait, hclose⟩ := bind_eq_ok.mp h
  obtain ⟨hd₁, hcond⟩ := emitAll_lays (O := O) hcond hd rfl
  obtain ⟨hb, hd₂, hsize₂, hfirst⟩ := Branch.first_lays (O := O) hfirst hd₁
  obtain ⟨hd₃, hwait⟩ := awaitUndefined_lays (O := b.pending :: O) hwait hd₂
  obtain ⟨-, hd₄, hsize₄, hclose⟩ := Branch.close_lays (O := O) hclose
  refine ⟨hd₄.trans hb, (((hcond.trans hfirst).trans hwait).trans hclose).imp ?_⟩
  rintro t ⟨⟨⟨hcond, hfirst⟩, hwait⟩, hclose⟩
  rw [hsize₂] at hwait
  rw [hsize₄]
  exact ⟨_, hcond, hfirst _ hclose, hwait⟩

theorem finishPass_lays (h : finishPass s awaits e = .ok u e') (hd : e.depth = d) :
    e'.depth = d + 2 ∧ Lays O O e e' fun t =>
      t.FinishPass s awaits d e.code.size e'.code.size := by
  unfold finishPass at h
  obtain ⟨e₁, hawait, h⟩ := bind_if_eq_ok h
  obtain ⟨_, e₂, hpush, hback⟩ := bind_eq_ok.mp h
  have hawait' : e₁.depth = d ∧ Lays O O e e₁ fun t =>
      if awaits then t.AwaitOwed s d e.code.size e₁.code.size
      else e₁.code.size = e.code.size := by
    cases awaits with
    | false =>
      cases hawait
      exact ⟨hd, (Lays.refl _ _).imp fun _ _ => rfl⟩
    | true => exact awaitOwed_lays hawait hd
  obtain ⟨hd₁, hawait⟩ := hawait'
  obtain ⟨hd₂, hpush⟩ := emitAll_lays (O := O) hpush hd₁ rfl
  have hback' : e'.depth = d + 2 ∧ Lays O O e₂ e' fun t =>
      t.Line (d + 2) e₂.code.size (if awaits then [.loadLocal s.rval, .setRval] else []) (d + 2)
        e'.code.size := by
    cases awaits with
    | false =>
      cases hback
      exact ⟨hd₂, (Lays.refl _ _).imp fun _ _ => Target.Line.nil⟩
    | true => exact emitAll_lays hback hd₂ rfl
  obtain ⟨hd₃, hback⟩ := hback'
  exact ⟨hd₃, ((hawait.trans hpush).trans hback).imp fun t ⟨⟨hawait, hpush⟩, hback⟩ =>
    ⟨_, _, hawait, hpush, hback⟩⟩

/-- The code of a pass has the layout of one. -/
theorem disposalPass_lays {seed : Seed} (h : disposalPass s awaits seed e = .ok u e')
    (hd : e.depth = d + seed.values) :
    e'.depth = d + 2 ∧ Lays O O e e' fun t =>
      t.Pass s awaits seed d e.code.size e'.code.size := by
  obtain ⟨_, _, hget, h⟩ := bind_eq_ok.mp h
  cases hget
  obtain ⟨_, e₁, hstart, h⟩ := bind_eq_ok.mp h
  obtain ⟨_, e₂, hdispose, hfinish⟩ := bind_eq_ok.mp h
  obtain ⟨hd₁, hstart⟩ := startPass_lays (O := O) hstart hd
  obtain ⟨hd₂, hdispose⟩ := disposeRecords_lays (O := O) hdispose hd₁
  obtain ⟨hd₃, hfinish⟩ := finishPass_lays (O := O) hfinish hd₂
  have hpass := (hstart.trans hdispose).trans hfinish
  refine ⟨hd₃, hpass.grown, hpass.tidy, fun {t} htidy hfits => ?_⟩
  obtain ⟨hfits, ⟨hstart, hdispose⟩, hfinish⟩ := hpass.fits htidy hfits
  rw [← hfits.kind_eq] at hdispose
  exact ⟨hfits, _, _, hstart, hdispose, hfinish⟩

end Emitter
end ResourceMachine
