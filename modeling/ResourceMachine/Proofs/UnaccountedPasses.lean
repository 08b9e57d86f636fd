/-
# Passes that keep no account of awaits

A pass that is emitted before its scope has registered an `await using` neither awaits what it
calls nor makes up for an await that is owed. It need not: where it stands in the code of a
compiled function, the innermost scope holds no record that is disposed with an await, however
the run came there. For the marks of the code tell which scopes may hold such records
(`Instr.Safe`), and where one may, the pass that drains it reads the hint of each record first
(`Target.Accounts`); this one reads the method.

Key definitions: `Bytes.Reads`, `Bytes.TakesNone`.
Key theorems: `Target.Pass.not_accounts`, `DisposalScope.pass_drains_prompt`.
-/
import ResourceMachine.Proofs.Acceptance
import ResourceMachine.Proofs.GuardedRun

namespace ResourceMachine

/-! ### Reading code -/

namespace Bytes

/-- Instructions stand one after the other from `p` to `q`. -/
def Reads (code : Bytes) : (p : Nat) → List Instr → (q : Nat) → Prop
  | p, [], q => q = p
  | p, i :: is, q => code.Has p i ∧ code.Reads (p + i.size) is q

/-- None of the instructions from `p` to `q` takes the records out of a scope. -/
def TakesNone (code : Bytes) (p q : Nat) : Prop :=
  ∃ is, code.Reads p is q ∧ .takeDisposeCapability ∉ is

variable {code : Bytes} {p q r : Nat}

theorem Reads.append : ∀ {is js : List Instr} {p : Nat}, code.Reads p is q → code.Reads q js r →
    code.Reads p (is ++ js) r
  | [], _, _, h, h' => by
    cases h
    exact h'
  | _ :: _, _, _, ⟨hhas, hrest⟩, h' => ⟨hhas, append hrest h'⟩

theorem TakesNone.trans (h : code.TakesNone p q) (h' : code.TakesNone q r) : code.TakesNone p r := by
  obtain ⟨is, his, hnone⟩ := h
  obtain ⟨js, hjs, hnone'⟩ := h'
  exact ⟨is ++ js, his.append hjs, by simp [hnone, hnone']⟩

end Bytes

namespace Target

variable {t : Target} {d d' p q : Nat} {is : List Instr} {s : PassSlots} {unwrapClosing : Bool}
  {seed : Seed}

theorem Line.reads : ∀ {is : List Instr} {d p : Nat}, t.Line d p is d' q → t.code.Reads p is q
  | [], _, _, ⟨_, hq⟩ => hq
  | _ :: _, _, _, ⟨hhas, _, _, hrest⟩ => ⟨hhas, reads hrest⟩

theorem Line.takesNone (h : t.Line d p is d' q) (hnone : .takeDisposeCapability ∉ is) :
    t.code.TakesNone p q := ⟨is, h.reads, hnone⟩

theorem Jump.takesNone {kind : JumpKind} {target : Nat} (h : t.Jump kind p target) :
    t.code.TakesNone p (p + 5) := by
  obtain ⟨distance, hhas, -⟩ := h
  refine ⟨[kind.instr distance], ⟨hhas, ?_⟩, ?_⟩
  · cases kind <;> rfl
  · cases kind <;> simp [JumpKind.instr]

theorem Protect.takesNone {onCatch onFinally : Option Nat} (h : t.Protect p onCatch onFinally) :
    t.code.TakesNone p (p + 9) := by
  obtain ⟨c, f, hhas, -⟩ := h
  exact ⟨[.tryStart c f], ⟨hhas, rfl⟩, by simp⟩

/-! ### Passes without bookkeeping -/

theorem CallDispose.takesNone (h : t.CallDispose s false unwrapClosing d p q) : t.code.TakesNone p q := by
  obtain ⟨m₁, m₂, m₃, hprotect, hcall, hresult, hend, hjump, hcaught⟩ := h
  obtain rfl : m₂ = m₁ := hresult
  have hbody := (hcall.takesNone (by simp)).trans ((hend.takesNone (by simp)).trans hjump.takesNone)
  exact hprotect.takesNone.trans (hbody.trans (hcaught.takesNone (by simp)))

theorem DisposeRecord.takesNone (h : t.DisposeRecord s false unwrapClosing d p q) :
    t.code.TakesNone p q := by
  obtain ⟨m₀, m₁, m₂, hbefore, hmethod, hcall, hskip, rfl⟩ := h
  obtain rfl : m₀ = p := hbefore
  exact (hmethod.takesNone (by simp)).trans (hskip.takesNone.trans hcall.takesNone)

theorem DisposeRecords.takesNone (h : t.DisposeRecords s false unwrapClosing d p q) :
    t.code.TakesNone p q := by
  obtain ⟨m₁, m₂, m₃, m₄, hcond, hout, hfetch, hone, hdec, hback, rfl⟩ := h
  have hbody := hone.takesNone.trans ((hdec.takesNone (by simp)).trans hback.takesNone)
  exact (hcond.takesNone (by simp)).trans (hout.takesNone.trans ((hfetch.takesNone (by simp)).trans hbody))

/-- What a pass without bookkeeping reads first of its records is a method. -/
theorem DisposeRecords.reads_method (h : t.DisposeRecords s false unwrapClosing d p q) :
    t.code.Has (p + 27) (.resourceField Field.method.byte) := by
  obtain ⟨m₁, m₂, m₃, m₄, hcond, -, hfetch, hone, -⟩ := h
  obtain ⟨m₀, n₁, n₂, hbefore, hmethod, -⟩ := hone
  obtain rfl : m₀ = m₂ := hbefore
  have hm₁ : m₁ = p + 9 := hcond.stop
  have hm₀ : m₀ = m₁ + 5 + 10 := hfetch.stop
  have hhas : t.code.Has (m₀ + 3) (.resourceField Field.method.byte) := hmethod.2.2.2.1
  rwa [show p + 27 = m₀ + 3 by omega]

theorem FinishPass.takesNone (h : t.FinishPass s false d p q) : t.code.TakesNone p q := by
  obtain ⟨m₁, m₂, howed, hpush, hrval⟩ := h
  obtain rfl : m₁ = p := howed
  have hrval : t.Line (d + 2) m₂ [] (d + 2) q := hrval
  exact (hpush.takesNone (by simp)).trans (hrval.takesNone (by simp))

/-- A pass without bookkeeping takes the records out of its scope once. -/
theorem Pass.takesOnce (h : t.Pass s false seed d p q) :
    ∃ m, t.code.TakesNone p m ∧ t.code.Has m .takeDisposeCapability ∧ t.code.TakesNone (m + 1) q ∧
      t.code.Has (m + 35) (.resourceField Field.method.byte) := by
  obtain ⟨m₁, m₂, ⟨n₁, n₂, hflags, hseed, htake⟩, hrecords, hfinish⟩ := h
  have hflags : t.Line (d + seed.values) p [] (d + seed.values) n₁ := hflags
  obtain ⟨n, hbefore, hrest⟩ := htake.cut [.storeLocal s.throwing]
  have hn : n = n₂ + 3 := hbefore.stop
  have hm₁ : m₁ = n₂ + 11 := htake.stop
  obtain ⟨hhas, -, -, hset⟩ := hrest
  have hset : t.Line _ (n + 1) [.dec, .storeLocal s.index, .storeLocal s.resources] _ m₁ := hset
  refine ⟨n, ?_, hhas, ?_, ?_⟩
  · have hseed : t.code.TakesNone n₁ n₂ := hseed.takesNone (by cases seed <;> simp)
    exact (hflags.takesNone (by simp)).trans (hseed.trans (hbefore.takesNone (by simp)))
  · exact (hset.takesNone (by simp)).trans (hrecords.takesNone.trans hfinish.takesNone)
  · rw [show n + 35 = m₁ + 27 by omega]
    exact hrecords.reads_method

end Target

/-! ### Where stations stand -/

namespace Target.Stretch

variable {t : Target} {p q r : Nat} {s s' : Station} {ss : List Station}

theorem le_offset : ∀ {p : Nat} {ss : List Station}, t.Stretch p ss q → s ∈ ss → p ≤ s.line.offset
  | _, _ :: _, ⟨hoffset, _, hrest⟩, hs => by
    rcases List.mem_cons.mp hs with rfl | hs
    · exact Nat.le_of_eq hoffset.symm
    · have := le_offset hrest hs
      simp only [Located.next, hoffset] at this
      omega

/-- The stations from one of them on. -/
theorem cut : ∀ {p : Nat} {ss : List Station}, t.Stretch p ss q → s ∈ ss →
    ∃ ss', t.Stretch s.line.offset ss' q ∧ ∀ s' ∈ ss, s.line.offset ≤ s'.line.offset → s' ∈ ss'
  | p, s₁ :: ss, h@⟨hoffset, _, hrest⟩, hs => by
    rcases List.mem_cons.mp hs with rfl | hlater
    · exact ⟨s :: ss, hoffset ▸ h, fun _ hs' _ => hs'⟩
    · obtain ⟨ss', hss', hmem⟩ := cut hrest hlater
      refine ⟨ss', hss', fun s' hs' hle => ?_⟩
      rcases List.mem_cons.mp hs' with rfl | hs'
      · have hnext := le_offset hrest hlater
        simp only [Located.next, Instr.size] at hnext
        omega
      · exact hmem s' hs' hle

/-- A station stands on one of the instructions that are read, or behind them. -/
theorem past : ∀ {is : List Instr} {p : Nat} {ss : List Station}, t.Stretch p ss r → t.code.Reads p is q →
    s ∈ ss → s.line.instr ∈ is ∨ ∃ ss', t.Stretch q ss' r ∧ s ∈ ss'
  | [], _, ss, h, hq, hs => by
    cases hq
    exact .inr ⟨ss, h, hs⟩
  | i :: is, p, s₁ :: ss, ⟨hoffset, hhas, hrest⟩, ⟨hhas', hreads⟩, hs => by
    have hinstr : s₁.line.instr = i := Except.ok.inj (hhas.readAt.symm.trans hhas'.readAt)
    rcases List.mem_cons.mp hs with rfl | hs
    · exact .inl (by simp [hinstr])
    · have hnext : s₁.line.next = p + i.size := by rw [Located.next, hoffset, hinstr]
      exact (past (hnext ▸ hrest) hreads hs).imp_left (List.mem_cons_of_mem i)

/-- Where no records are taken out of a scope, no station takes them. -/
theorem past_of_takesNone (h : t.Stretch p ss r) (hnone : t.code.TakesNone p q) (hs : s ∈ ss)
    (htake : s.line.instr = .takeDisposeCapability) : ∃ ss', t.Stretch q ss' r ∧ s ∈ ss' := by
  obtain ⟨is, hreads, hnone⟩ := hnone
  exact (h.past hreads hs).resolve_left fun hmem => hnone (htake ▸ hmem)

end Target.Stretch

/-- Where a pass without bookkeeping takes the records out of a scope, none is kept. -/
theorem Target.Pass.not_accounts {t t' : Target} {slots : PassSlots} {seed : Seed} {d p q r : Nat}
    {s : Station} {ss : List Station} (h : t.Pass slots false seed d p q) (hcode : t.code = t'.code)
    (hss : t'.Stretch p ss r) (hs : s ∈ ss) (htake : s.line.instr = .takeDisposeCapability)
    (hlt : s.line.offset < q) : ¬ t'.Accounts s.line.offset := by
  obtain ⟨m, hbefore, hhas, hbehind, hmethod⟩ := h.takesOnce
  rw [hcode] at hbefore hhas hbehind hmethod
  obtain ⟨ss₁, hss₁, hs₁⟩ := hss.past_of_takesNone hbefore hs htake
  have hoffset : s.line.offset = m := by
    cases ss₁ with
    | nil => cases hs₁
    | cons s₁ ss₂ =>
      obtain ⟨hoffset, hhas₁, hrest⟩ := hss₁
      rcases List.mem_cons.mp hs₁ with rfl | hs₂
      · exact hoffset
      · have hinstr : s₁.line.instr = .takeDisposeCapability :=
          Except.ok.inj (hhas₁.readAt.symm.trans hhas.readAt)
        have hnext : s₁.line.next = m + 1 := by
          rw [Located.next, hoffset, hinstr]
          rfl
        obtain ⟨ss₃, hss₃, hs₃⟩ := (hnext ▸ hrest).past_of_takesNone hbehind hs₂ htake
        exact absurd hlt (Nat.not_lt.mpr (hss₃.le_offset hs₃))
  intro haccounts
  rw [hoffset] at haccounts
  have hfields := Except.ok.inj (haccounts.readAt.symm.trans hmethod.readAt)
  exact absurd (Instr.resourceField.inj hfields) (by decide)

/-! ### Passes that a scope emits -/

namespace DisposalScope

variable {O : List PendingJump} {scope scope' : DisposalScope} {e e' : Emitter} {u : Unit} {seed : Seed}

/-- To give out locals emits nothing. -/
theorem passSlots_emits_nothing {slots : PassSlots} (h : passSlots (scope, e) = .ok slots (scope', e')) :
    scope'.hasAwaitUsing = scope.hasAwaitUsing ∧ e'.depth = e.depth ∧ e'.code.size = e.code.size ∧
      Lays O O e e' fun _ => True := by
  obtain ⟨_, _, hscope, h⟩ := bind_eq_ok.mp h
  cases hscope
  cases hs : scope.slots with
  | some slots' =>
    rw [hs] at h
    cases h
    exact ⟨rfl, rfl, rfl, .refl O e⟩
  | none =>
    rw [hs] at h
    obtain ⟨slots', ⟨s₁, e₁⟩, hlift, hset⟩ := bind_eq_ok.mp h
    cases hset
    obtain ⟨rfl, halloc⟩ := ScopeEmit.lift_eq_ok hlift
    obtain ⟨-, -, hd, hsize, hlays⟩ := PassSlots.alloc_lays (O := O) halloc
    exact ⟨rfl, hd, hsize, hlays.imp fun _ _ => trivial⟩

/-- A pass that starts with an exception finds it on the stack. -/
theorem values_le_depth {slots : PassSlots} (h : Emitter.disposalPass slots false seed e = .ok u e') :
    seed.values ≤ e.depth := by
  cases seed with
  | normal => exact Nat.zero_le _
  | thrown =>
    obtain ⟨_, _, hget, h⟩ := bind_eq_ok.mp h
    cases hget
    obtain ⟨_, e₁, hstart, -⟩ := bind_eq_ok.mp h
    obtain ⟨_, e₂, hseed, -⟩ := bind_eq_ok.mp hstart
    obtain ⟨_, e₃, hstore, -⟩ := bind_eq_ok.mp hseed
    exact (Emitter.emit_eq_ok hstore).1

/-- What a scope that has registered no `await using` emits is a pass without bookkeeping. -/
theorem pass_lays_unaccounted (h : pass seed (scope, e) = .ok u (scope', e'))
    (hsync : scope.hasAwaitUsing = false) :
    Lays O O e e' fun t => ∃ slots d, t.Pass slots false seed d e.code.size e'.code.size := by
  obtain ⟨slots, ⟨s₁, e₁⟩, hslots, h⟩ := bind_eq_ok.mp h
  obtain ⟨_, _, hscope, h⟩ := bind_eq_ok.mp h
  cases hscope
  obtain ⟨rfl, hpass⟩ := ScopeEmit.lift_eq_ok h
  obtain ⟨hsame, -, hsize, hlays⟩ := passSlots_emits_nothing (O := O) hslots
  rw [hsame, hsync] at hpass
  have hd : e₁.depth = e₁.depth - seed.values + seed.values := by
    have := values_le_depth hpass
    omega
  obtain ⟨-, hpass⟩ := Emitter.disposalPass_lays (O := O) hpass hd
  rw [← hsize]
  exact (hlays.trans hpass).imp fun t h => ⟨slots, _, h.2⟩

/-- **A pass without bookkeeping meets no record that needs an await.** Let a scope emit a pass
while it has registered no `await using`, and let the code of a function of a compiled module
continue what was emitted by then. On every run of the function, whenever the records are taken
out of a scope for this pass, all of them are sync and have a method to call. -/
theorem pass_drains_prompt {σ : Type} {m : Module} {index : Nat} {f : Function} {t : Target}
    {lines : List Located} {host : Host σ} {args : List Value} {capacity : Nat} {world : World σ}
    {globals : Globals} {script : List (Reply σ)} {k pc : Nat} {s : Session σ}
    (hm : Compiles m) (hf : m.functions[index]? = some f)
    (hpass : pass seed (scope, e) = .ok u (scope', e')) (hsync : scope.hasAwaitUsing = false)
    (htidy : Tidy O e) (hfits : Fits O e' t) (hcode : t.code = f.code)
    (hlines : Located.ofCode f.code = .ok lines) (hstart : ∃ i ∈ lines, i.offset = e.code.size)
    (hsteps : Steps host f.code k (.start (.start m index args capacity) world globals script) s)
    (hpc : s.control = .running pc) (htake : Instr.readAt f.code pc = .ok .takeDisposeCapability)
    (hfirst : e.code.size ≤ pc) (hlast : pc < e'.code.size) :
    ∀ c ∈ s.frame.scopes.head?, ∀ r ∈ c.resources,
      r.hint = .sync ∧ ∃ g, r.method = some (.function g) := by
  obtain ⟨t', ss, hcode', hmarked⟩ := hm.marked hf
  obtain ⟨-, slots, d, hlaid⟩ := (pass_lays_unaccounted (O := O) hpass hsync).fits htidy hfits
  rw [← hcode'] at hcode hlines htake hsteps
  obtain ⟨gs, hguarded⟩ := hsteps.exists_guarded []
  obtain ⟨P, ⟨station, hstation, rfl, rfl⟩, hfr⟩ :=
    (Session.Guards.start hmarked).run hmarked hguarded pc hpc
  have hinstr : station.line.instr = .takeDisposeCapability :=
    Except.ok.inj ((hmarked.stretch.has_of_mem hstation).readAt.symm.trans htake)
  -- the pass starts at a station, so its instructions are stations
  obtain ⟨i, hi, hoffset⟩ := hstart
  obtain rfl := Except.ok.inj (hmarked.stretch.ofCodeFrom.symm.trans hlines)
  obtain ⟨station₀, hstation₀, rfl⟩ := List.mem_map.mp hi
  obtain ⟨ss', hss', hmem⟩ := hmarked.stretch.cut hstation₀
  rw [hoffset] at hss' hmem
  have hnot := hlaid.not_accounts hcode hss' (hmem station hstation hfirst) hinstr hlast
  exact hfr.prompt fun hmay => hnot ((hmarked.sound station hstation).safe.2.2 hinstr hmay)

/-- Disposes of one resource at the end. -/
def borrower : Declaration :=
  ⟨"f", .normal, ["a"], [.usingIn "x" .sync (.binding "a")]⟩

/-- An emitter that has come to the end of the body of `borrower`. -/
def closing (f : Function) : Emitter :=
  { name := "f", kind := .normal, paramCount := 1, constants := .empty, code := f.code.extract 0 19
    depth := 0, maxDepth := 0, localCount := 10, scopeDepth := 1 }

/-- At its end, `borrower` drains what it has registered. -/
theorem pass_drains_prompt_borrower : ∃ m f lines scope scope' e' t s c,
    Compiles m ∧ m.functions[0]? = some f ∧
    pass .normal (scope, closing f) = .ok () (scope', e') ∧ scope.hasAwaitUsing = false ∧
    Tidy [] (closing f) ∧ Fits [] e' t ∧ t.code = f.code ∧ Located.ofCode f.code = .ok lines ∧
    (∃ i ∈ lines, i.offset = (closing f).code.size) ∧
    Steps Console.call f.code 10 (.start (.start m 0 [.object 0] 8)
      ⟨⟨#[[(.symbol .sync, .function (.host ⟨0, "dispose"⟩))]], #[], #[], 0⟩, Console.empty⟩ [] []) s ∧
    s.control = .running 27 ∧ Instr.readAt f.code 27 = .ok .takeDisposeCapability ∧
    (closing f).code.size ≤ 27 ∧ 27 < e'.code.size ∧
    c ∈ s.frame.scopes.head? ∧ c.resources.length = 1 ∧
    ∀ r ∈ c.resources, r.hint = .sync ∧ ∃ g, r.method = some (.function g) := by
  let world : World Console :=
    ⟨⟨#[[(.symbol .sync, .function (.host ⟨0, "dispose"⟩))]], #[], #[], 0⟩, Console.empty⟩
  let first (m : Module) : Session Console := .start (.start m 0 [.object 0] 8) world [] []
  let scope : DisposalScope := ⟨false, none, some ⟨2, 3, 4, 5, 6, 7, 8, 9⟩⟩
  let drains (s : Session Console) : Bool :=
    s.pc? == some 27 && s.frame.scopes.head?.any (·.resources.length == 1)
  let emits (f : Function) : Bool := endsIn (fun x => decide (27 < x.2.code.size) &&
    x.2.constants.size == 0 && decide (x.2.code.size ≤ f.code.size) &&
    (List.range x.2.code.size).all fun k => f.code[k]? == x.2.code[k]?)
    (pass .normal (scope, closing f))
  let reads (f : Function) : Bool :=
    (Located.ofCode f.code).toOption.any (·.any (·.offset == (closing f).code.size)) &&
      (Instr.readAt f.code 27).toOption == some .takeDisposeCapability && (closing f).code.size == 19
  have hall : ((Module.named "m").compileAll [borrower]).toOption.any (fun m =>
      m.functions[0]?.any fun f => ((first m).after Console.call f.code 10).any drains && emits f && reads f)
        = true := by
    decide +kernel
  obtain ⟨m, hm, hall⟩ := (Option.any_eq_true _ _).mp hall
  obtain ⟨f, hf, hall⟩ := (Option.any_eq_true _ _).mp hall
  obtain ⟨hall, hreads⟩ := Bool.and_eq_true_iff.mp hall
  obtain ⟨hruns, hemits⟩ := Bool.and_eq_true_iff.mp hall
  have hcompile := Module.compile_of_compileAll (ok_of_toOption hm) (by decide)
  have hcompiles : Compiles m := ⟨"m", [borrower], hcompile, by decide⟩
  -- the run stands where the records are taken out
  obtain ⟨s, hs, hruns⟩ := (Option.any_eq_true _ _).mp hruns
  obtain ⟨hpc, hscope⟩ := Bool.and_eq_true_iff.mp hruns
  obtain ⟨c, hc, hlength⟩ := (Option.any_eq_true _ _).mp hscope
  have hsteps := Session.steps_of_after hs
  have hpc := Session.control_of_pc? (beq_iff_eq.mp hpc)
  -- the code goes on with the pass
  obtain ⟨u, ⟨scope', e'⟩, hpass, hemits⟩ := exists_of_endsIn hemits
  obtain ⟨hemits, hbytes⟩ := Bool.and_eq_true_iff.mp hemits
  obtain ⟨hlast, hpool, hwithin⟩ : 27 < e'.code.size ∧ e'.constants.size = 0 ∧
      e'.code.size ≤ f.code.size := by
    simpa [and_assoc] using hemits
  have hsame : ∀ k < e'.code.size, f.code[k]? = e'.code[k]? := by simpa using hbytes
  let t : Target := ⟨f.code, e'.constants, e'.kind, e'.maxDepth, e'.localCount.toNat, by omega⟩
  have htidy : Tidy [] (closing f) := ⟨nofun, .nil, by rintro s i ⟨⟩⟩
  have hfits : Fits [] e' t :=
    ⟨hwithin, fun k hk _ => hsame k hk, rfl, Nat.le_refl _, Nat.le_refl _, fun _ _ h => h⟩
  -- and reads as instructions
  obtain ⟨hreads, hsize⟩ := Bool.and_eq_true_iff.mp hreads
  obtain ⟨hlines, htake⟩ := Bool.and_eq_true_iff.mp hreads
  obtain ⟨lines, hlines, hstart⟩ := (Option.any_eq_true _ _).mp hlines
  have hlines := ok_of_toOption hlines
  have hstart : ∃ i ∈ lines, i.offset = (closing f).code.size := by simpa using hstart
  have htake := ok_of_toOption (beq_iff_eq.mp htake)
  have hfirst : (closing f).code.size ≤ 27 := by
    rw [beq_iff_eq.mp hsize]
    decide
  exact ⟨m, f, lines, scope, scope', e', t, s, c, hcompiles, hf, hpass, rfl, htidy, hfits, rfl, hlines,
    hstart, hsteps, hpc, htake, hfirst, hlast, hc, beq_iff_eq.mp hlength,
    pass_drains_prompt hcompiles hf hpass rfl htidy hfits rfl hlines hstart hsteps hpc htake hfirst hlast
      c hc⟩

end DisposalScope

end ResourceMachine
