/-
# What emitted code lays out

The assembler writes code from front to back, but an operand of a jump is
written twice: first with nothing in it, then with the distance to a target. So
until a function is finished, its code is what finished code looks like only
outside of the operands that are pending (`Fits`). What an emission lays out in
finished code (`Lays`) is put together along the emission: pending operands are
passed on until they are patched, and lead to their targets then.

Key definitions: `Tidy`, `Fits`, `Lays`, `Target.Leads`.
Key theorems: `Lays.trans`, `Emitter.emitAll_lays`, `Emitter.jump_lays`,
`Emitter.patchTo_lays`, `Emitter.tryCatch_lays`, `Emitter.tryFinally_lays`.
-/
import ResourceMachine.Proofs.Computation
import ResourceMachine.Proofs.Layout
import ResourceMachine.Proofs.Overwrite

namespace ResourceMachine

theorem Exec.target_eq {size next target : Nat} {distance : Int32}
    (h : distance.toInt = (target : Int) - next) (hle : target ≤ size) :
    Exec.target size next distance = .ok target := by
  have ht : (next : Int) + distance.toInt = target := by omega
  simp only [Exec.target, ht]
  rw [if_neg (by omega), Int.toNat_natCast]

theorem Exec.handlerTarget?_eq {size next target : Nat} {distance : Int32}
    (h : distance.toInt = (target : Int) - next) (hle : target ≤ size) (hnext : next ≤ target) :
    Exec.handlerTarget? size next distance = .ok (some target) := by
  have hpos : ¬ distance < 0 := by
    rw [Int32.lt_iff_toInt_lt, h, Int32.toInt_zero]
    omega
  rw [Exec.handlerTarget?, if_neg hpos, Exec.target_eq h hle]
  rfl

/-! ### Code under construction and finished code -/

namespace PendingJump

/-- The operands do not overlap. -/
def Apart (j j' : PendingJump) : Prop :=
  j.operand + 4 ≤ j'.operand ∨ j'.operand + 4 ≤ j.operand

theorem Apart.symm {j j' : PendingJump} (h : j.Apart j') : j'.Apart j := Or.symm h

end PendingJump

/-- A function under construction with operands pending that lie apart in its
code, and with a pool that finds texts where they are. -/
structure Tidy (O : List PendingJump) (e : Emitter) : Prop where
  inside : ∀ j ∈ O, j.operand + 4 ≤ e.code.size
  apart : O.Pairwise PendingJump.Apart
  pool : ∀ s i, e.constants.find? s = some i → e.constants.get? i = some s

/-- What a function is started with: its name, its kind and the number of its parameters. -/
def Emitter.header (e : Emitter) : String × FunctionKind × Nat := (e.name, e.kind, e.paramCount)

/-- A function under construction has become another one. -/
structure Grown (e e' : Emitter) : Prop where
  header_eq : e'.header = e.header
  size_le : e.code.size ≤ e'.code.size
  localCount_le : e.localCount.toNat ≤ e'.localCount.toNat

/-- A finished function continues one under construction, but for the operands
that are pending. -/
structure Fits (O : List PendingJump) (e : Emitter) (t : Target) : Prop where
  size_le : e.code.size ≤ t.code.size
  code_eq : ∀ k, k < e.code.size → (∀ j ∈ O, k < j.operand ∨ j.operand + 4 ≤ k) →
    t.code[k]? = e.code[k]?
  kind_eq : t.kind = e.kind
  maxDepth_le : e.maxDepth ≤ t.maxStack
  localCount_le : e.localCount.toNat ≤ t.localCount
  texts : ∀ i s, e.constants.get? i = some s → t.constants.get? i = some s

/-- A pending operand leads to a target in finished code. -/
def Target.Leads (t : Target) (j : PendingJump) (target : Nat) : Prop :=
  ∃ distance : Int32, t.code.Holds j.operand (signedWord distance) ∧
    distance.toInt = (target : Int) - j.next ∧ target ≤ t.code.size

/-- An emission with operands pending before and after it, and what it lays out in
finished code. -/
structure Lays (O O' : List PendingJump) (e e' : Emitter) (P : Target → Prop) : Prop where
  grown : Grown e e'
  tidy : Tidy O e → Tidy O' e'
  fits : ∀ {t}, Tidy O e → Fits O' e' t → Fits O e t ∧ P t

namespace Grown

variable {e e' e'' : Emitter}

theorem refl (e : Emitter) : Grown e e := ⟨rfl, Nat.le_refl _, Nat.le_refl _⟩

theorem trans (h : Grown e e') (h' : Grown e' e'') : Grown e e'' :=
  ⟨h'.header_eq.trans h.header_eq, Nat.le_trans h.size_le h'.size_le,
    Nat.le_trans h.localCount_le h'.localCount_le⟩

end Grown

namespace Lays

variable {O O' O'' : List PendingJump} {e e' e'' : Emitter} {P P' Q : Target → Prop}

theorem refl (O : List PendingJump) (e : Emitter) : Lays O O e e fun _ => True :=
  ⟨.refl e, id, fun _ hfits => ⟨hfits, trivial⟩⟩

/-- A finished function is of the kind that it was started with. -/
theorem ofKind (O : List PendingJump) (e : Emitter) : Lays O O e e fun t => t.kind = e.kind :=
  ⟨.refl e, id, fun _ hfits => ⟨hfits, hfits.kind_eq⟩⟩

theorem trans (h : Lays O O' e e' P) (h' : Lays O' O'' e' e'' P') :
    Lays O O'' e e'' fun t => P t ∧ P' t := by
  refine ⟨h.grown.trans h'.grown, fun htidy => h'.tidy (h.tidy htidy), ?_⟩
  intro t htidy hfits
  obtain ⟨hfits, hP'⟩ := h'.fits (h.tidy htidy) hfits
  obtain ⟨hfits, hP⟩ := h.fits htidy hfits
  exact ⟨hfits, hP, hP'⟩

theorem imp (h : Lays O O' e e' P) (hQ : ∀ t, P t → Q t) : Lays O O' e e' Q :=
  ⟨h.grown, h.tidy, fun htidy hfits => (h.fits htidy hfits).imp_right (hQ _)⟩

end Lays

theorem Tidy.perm {O O' : List PendingJump} {e : Emitter} (h : Tidy O e) (hperm : O.Perm O') :
    Tidy O' e :=
  ⟨fun j hj => h.inside j (hperm.mem_iff.mpr hj),
    (hperm.pairwise_iff fun h => h.symm).mp h.apart, h.pool⟩

theorem Fits.perm {O O' : List PendingJump} {e : Emitter} {t : Target} (h : Fits O e t)
    (hperm : O.Perm O') : Fits O' e t :=
  { h with code_eq := fun k hk hO => h.code_eq k hk fun j hj => hO j (hperm.mem_iff.mp hj) }

/-- The order of pending operands makes no difference. -/
theorem Lays.perm {O O' U U' : List PendingJump} {e e' : Emitter} {P : Target → Prop}
    (h : Lays O U e e' P) (hO : O.Perm O') (hU : U.Perm U') : Lays O' U' e e' P :=
  ⟨h.grown, fun htidy => (h.tidy (htidy.perm hO.symm)).perm hU, fun htidy hfits =>
    (h.fits (htidy.perm hO.symm) (hfits.perm hU.symm)).imp_left (·.perm hO)⟩

/-! ### Instructions -/

namespace Emitter

variable {O : List PendingJump} {e e' : Emitter} {d d' : Nat} {u : Unit}

/-- Code behind the code that is there, of which some operands are pending, is
found in finished code but for these operands. -/
theorem append_lays (e : Emitter) (depth : Nat) (bs : Bytes) (new : List PendingJump)
    (hnew : ∀ j ∈ new, e.code.size ≤ j.operand ∧ j.operand + 4 ≤ e.code.size + bs.size)
    (hapart : new.Pairwise PendingJump.Apart) :
    Lays O (new ++ O) e { e.withDepth depth with code := e.code ++ bs } fun t =>
      depth ≤ t.maxStack ∧ e.code.size + bs.size ≤ t.code.size ∧
        ∀ k, k < bs.size → (∀ j ∈ new, e.code.size + k < j.operand ∨ j.operand + 4 ≤ e.code.size + k) →
          t.code[e.code.size + k]? = bs[k]? := by
  refine ⟨⟨rfl, ?_, Nat.le_refl _⟩, ?_, ?_⟩
  · simp only [Array.size_append]
    omega
  · rintro ⟨hinside, hO, hpool⟩
    refine ⟨?_, List.pairwise_append.mpr ⟨hapart, hO, ?_⟩, hpool⟩
    · intro j hj
      simp only [Array.size_append]
      rcases List.mem_append.mp hj with hj | hj
      · exact (hnew j hj).2
      · have := hinside j hj
        omega
    · intro j hj j' hj'
      have := (hnew j hj).1
      have := hinside j' hj'
      exact .inr (by omega)
  · intro t htidy hfits
    have hsize : (e.code ++ bs).size = e.code.size + bs.size := Array.size_append
    have hdepth := hfits.maxDepth_le
    have hcode := hfits.size_le
    simp only [withDepth] at hdepth hcode
    refine ⟨⟨by omega, ?_, hfits.kind_eq, by omega, hfits.localCount_le, hfits.texts⟩, by omega,
      by omega, ?_⟩
    · intro k hk hO
      have hk' : k < (e.code ++ bs).size := by omega
      refine (hfits.code_eq k hk' ?_).trans (Array.getElem?_append_left hk)
      intro j hj
      rcases List.mem_append.mp hj with hj | hj
      · have := (hnew j hj).1
        exact .inl (by omega)
      · exact hO j hj
    · intro k hk hkeep
      have hk' : e.code.size + k < (e.code ++ bs).size := by omega
      refine (hfits.code_eq _ hk' ?_).trans ?_
      · intro j hj
        rcases List.mem_append.mp hj with hj | hj
        · exact hkeep j hj
        · have := htidy.inside j hj
          exact .inr (by omega)
      · simp only
        rw [Array.getElem?_append_right (by omega), Nat.add_sub_cancel_left]

/-- What emitting an instruction takes and makes. -/
theorem emit_eq_ok {i : Instr} (h : emit i e = .ok u e') :
    i.stackEffect.pops ≤ e.depth ∧
      e' = { e.withDepth (e.depth - i.stackEffect.pops + i.stackEffect.pushes) with
        code := e.code ++ i.encode } := by
  obtain ⟨_, e₁, htrack, happend⟩ := bind_eq_ok.mp h
  obtain ⟨_, _, hget, htrack⟩ := bind_eq_ok.mp htrack
  cases hget
  split at htrack
  · cases htrack
  · cases htrack
    cases happend
    exact ⟨Nat.not_lt.mp ‹_›, rfl⟩

/-- An instruction stands where it was emitted. -/
theorem emit_lays {i : Instr} (h : emit i e = .ok u e') (hd : e.depth = d)
    (hd' : d - i.stackEffect.pops + i.stackEffect.pushes = d') :
    e'.depth = d' ∧ e'.code.size = e.code.size + i.size ∧
      Lays O O e e' fun t => t.Line d e.code.size [i] d' e'.code.size := by
  obtain ⟨hpops, rfl⟩ := emit_eq_ok h
  subst hd hd'
  have hsize : (e.code ++ i.encode).size = e.code.size + i.size := by
    rw [Array.size_append, Instr.size_encode]
  refine ⟨rfl, hsize, (append_lays e _ i.encode [] nofun .nil).imp ?_⟩
  rintro t ⟨hmax, -, hbytes⟩
  exact ⟨fun k hk => hbytes k hk nofun, hpops, hmax, rfl, hsize⟩

/-- Instructions stand where they were emitted, one after the other. -/
theorem emitAll_lays : ∀ {is : List Instr} {e : Emitter} {d : Nat},
    emitAll is e = .ok u e' → e.depth = d → Target.depthAfter d is = d' →
    e'.depth = d' ∧ Lays O O e e' fun t => t.Line d e.code.size is d' e'.code.size
  | [], e, d, h, hd, hd' => by
    cases h
    subst hd hd'
    exact ⟨rfl, (Lays.refl O _).imp fun _ _ => Target.Line.nil⟩
  | i :: is, e, d, h, hd, hd' => by
    obtain ⟨u, e₁, hi, his⟩ := bind_eq_ok.mp h
    obtain ⟨hd₁, -, hi⟩ := emit_lays (O := O) hi hd rfl
    obtain ⟨hd₂, his⟩ := emitAll_lays his hd₁ hd'
    exact ⟨hd₂, (hi.trans his).imp fun t ⟨hi, his⟩ => hi.append his⟩

/-! ### Jumps -/

/-- What jumping to a pending target takes and makes. -/
theorem jump_eq_ok {kind : JumpKind} {j : PendingJump} (h : jump kind e = .ok j e') :
    j = ⟨e.code.size + 1, e.code.size + 5⟩ ∧ emit (kind.instr 0) e = .ok () e' := by
  obtain ⟨_, e₁, hemit, h⟩ := bind_eq_ok.mp h
  obtain ⟨next, _, hoffset, h⟩ := bind_eq_ok.mp h
  cases hoffset
  cases h
  obtain ⟨-, rfl⟩ := emit_eq_ok hemit
  have hsize : (kind.instr 0).encode.size = 5 := by cases kind <;> rfl
  refine ⟨?_, hemit⟩
  simp only [Array.size_append, hsize]
  rfl

/-- The opcode of a jump does not depend on its distance. -/
theorem encode_jump (kind : JumpKind) (distance : Int32) :
    ∃ byte, (kind.instr distance).encode = #[byte] ++ signedWord distance ∧
      (kind.instr 0).encode = #[byte] ++ signedWord 0 := by
  cases kind <;> exact ⟨_, rfl, rfl⟩

theorem size_signedWord (n : Int32) : (signedWord n).size = 4 := by
  simp [signedWord, word, length_littleEndian]

/-- A jump stands where it was emitted, and leads where its operand does. -/
theorem jump_lays {kind : JumpKind} {j : PendingJump} (h : jump kind e = .ok j e')
    (hd : e.depth = d) (hd' : d - (kind.instr 0).stackEffect.pops = d') :
    e'.depth = d' ∧ e'.code.size = e.code.size + 5 ∧
      Lays O (j :: O) e e' fun t =>
        ∀ target, t.Leads j target → t.Jump kind e.code.size target := by
  obtain ⟨rfl, hemit⟩ := jump_eq_ok h
  obtain ⟨-, rfl⟩ := emit_eq_ok hemit
  subst hd hd'
  have hpushes : (kind.instr 0).stackEffect.pushes = 0 := by cases kind <;> rfl
  have hsize : (kind.instr 0).encode.size = 5 := by cases kind <;> rfl
  refine ⟨by simp only [hpushes]; rfl, by simp only [Array.size_append, hsize], ?_⟩
  refine (append_lays e _ _ [⟨e.code.size + 1, e.code.size + 5⟩] ?_ (List.pairwise_singleton _ _)).imp ?_
  · refine List.forall_mem_singleton.mpr ?_
    simp only [hsize]
    omega
  · rintro t ⟨-, hcode, hbytes⟩ target ⟨distance, hholds, hdistance, htarget⟩
    obtain ⟨byte, hencode, hzero⟩ := encode_jump kind distance
    refine ⟨distance, ?_, Exec.target_eq hdistance htarget⟩
    rw [Bytes.Has, hencode]
    refine Bytes.Holds.append (fun k (hk : k < 1) => ?_) hholds
    rw [hbytes k (by omega) ?_, hzero, Array.getElem?_append_left hk]
    refine List.forall_mem_singleton.mpr (.inl ?_)
    simp only
    omega

/-- The bytes of a word that replaces an operand. -/
theorem holds_replaceWord {code : Bytes} {pos : Nat} (n : UInt32) (h : pos + 4 ≤ code.size) :
    (code.replaceWord pos n).Holds pos (word n) := by
  intro k hk
  have hlen : (littleEndian 4 n.toNat).length = 4 := length_littleEndian 4 _
  have hk' : k < (littleEndian 4 n.toNat).length := by simpa [word] using hk
  rw [Bytes.replaceWord, Bytes.replaceAt_eq, getElem?_overwrite_at (by omega) hk', word,
    List.getElem?_toArray]

theorem getElem?_replaceWord_off {code : Bytes} {pos k : Nat} (n : UInt32) (h : pos + 4 ≤ code.size)
    (hk : k < pos ∨ pos + 4 ≤ k) : (code.replaceWord pos n)[k]? = code[k]? := by
  have hlen : (littleEndian 4 n.toNat).length = 4 := length_littleEndian 4 _
  rw [Bytes.replaceWord, Bytes.replaceAt_eq, getElem?_overwrite_off (by omega) (by omega)]

/-- A pending operand that is patched is found in finished code. -/
theorem replace_lays (j : PendingJump) (n : UInt32) :
    Lays (j :: O) O e { e with code := e.code.replaceWord j.operand n } fun t =>
      t.code.Holds j.operand (word n) ∧ e.code.size ≤ t.code.size := by
  have hsize : (e.code.replaceWord j.operand n).size = e.code.size := Bytes.size_replaceAt _ _ _
  have hoff : ∀ k, j.operand + 4 ≤ e.code.size → k < j.operand ∨ j.operand + 4 ≤ k →
      (e.code.replaceWord j.operand n)[k]? = e.code[k]? :=
    fun k h => getElem?_replaceWord_off n h
  have hholds : j.operand + 4 ≤ e.code.size →
      (e.code.replaceWord j.operand n).Holds j.operand (word n) :=
    holds_replaceWord n
  generalize e.code.replaceWord j.operand n = code' at hsize hoff hholds ⊢
  refine ⟨⟨rfl, Nat.le_of_eq hsize.symm, Nat.le_refl _⟩, ?_, ?_⟩
  · rintro ⟨hinside, hO, hpool⟩
    refine ⟨fun j' hj' => ?_, (List.pairwise_cons.mp hO).2, hpool⟩
    rw [hsize]
    exact hinside j' (List.mem_cons_of_mem _ hj')
  · rintro t ⟨hinside, hO, hpool⟩ ⟨hle, hcode, hkind, hmax, hcount, htexts⟩
    simp only [hsize] at hle hcode
    have hj : j.operand + 4 ≤ e.code.size := hinside j List.mem_cons_self
    have hapart := (List.pairwise_cons.mp hO).1
    refine ⟨⟨hle, fun k hk hkeep => ?_, hkind, hmax, hcount, htexts⟩, fun k hk => ?_, hle⟩
    · rw [hcode k hk fun j' hj' => hkeep j' (List.mem_cons_of_mem _ hj')]
      exact hoff k hj (hkeep j List.mem_cons_self)
    · have hk' : k < 4 := by simpa [word, length_littleEndian] using hk
      rw [hcode (j.operand + k) (by omega) ?_]
      · exact hholds hj k hk
      · intro j' hj'
        rcases hapart j' hj' with h | h
        · exact .inl (by omega)
        · exact .inr (by omega)

/-- What patching an operand writes, where the target is near enough. -/
theorem patchTo_eq_ok {j : PendingJump} {target : Nat} (h : patchTo j target e = .ok u e') :
    (Int32.ofInt ((target : Int) - j.next)).toInt = (target : Int) - j.next ∧
      e' = { e with code := e.code.replaceWord j.operand (Int32.ofInt (target - j.next)).toUInt32 } := by
  unfold patchTo at h
  split at h
  · cases h
  rename_i hrange
  cases h
  have hmin : Int32.minValue.toInt = -2 ^ 31 := by decide
  have hmax : Int32.maxValue.toInt = 2 ^ 31 - 1 := by decide
  exact ⟨Int32.toInt_ofInt_of_le (by omega) (by omega), rfl⟩

/-- A pending operand that is patched leads to its target. -/
theorem patchTo_lays {j : PendingJump} {target : Nat} (h : patchTo j target e = .ok u e')
    (htarget : target ≤ e.code.size) :
    e'.depth = e.depth ∧ e'.code.size = e.code.size ∧
      Lays (j :: O) O e e' fun t => t.Leads j target := by
  obtain ⟨hdistance, rfl⟩ := patchTo_eq_ok h
  refine ⟨rfl, Bytes.size_replaceAt _ _ _, (replace_lays j _).imp fun t ⟨hholds, hle⟩ => ?_⟩
  exact ⟨_, hholds, hdistance, Nat.le_trans htarget hle⟩

theorem patchHere_lays {j : PendingJump} (h : patchHere j e = .ok u e') :
    e'.depth = e.depth ∧ e'.code.size = e.code.size ∧
      Lays (j :: O) O e e' fun t => t.Leads j e.code.size := by
  obtain ⟨_, _, hoffset, h⟩ := bind_eq_ok.mp h
  cases hoffset
  exact patchTo_lays h (Nat.le_refl _)

/-- A jump to code that is already there. -/
theorem jumpTo_lays {target : Nat} (h : jumpTo .always target e = .ok u e')
    (hd : e.depth = d) (htarget : target ≤ e.code.size) :
    e'.depth = d ∧ e'.code.size = e.code.size + 5 ∧
      Lays O O e e' fun t => t.Jump .always e.code.size target := by
  obtain ⟨j, e₁, hjump, hpatch⟩ := bind_eq_ok.mp h
  obtain ⟨hd₁, hsize₁, hjump⟩ := jump_lays (O := O) hjump hd rfl
  obtain ⟨hd₂, hsize₂, hpatch⟩ := patchTo_lays (O := O) hpatch (by omega)
  exact ⟨hd₂.trans hd₁, hsize₂.trans hsize₁,
    (hjump.trans hpatch).imp fun t ⟨hjump, hleads⟩ => hjump target hleads⟩

/-! ### Protected regions -/

/-- What opening a protected region takes and makes. -/
theorem tryStart_eq_ok {hs : PendingHandlers} (h : tryStart e = .ok hs e') :
    hs = ⟨⟨e.code.size + 1, e.code.size + 9⟩, ⟨e.code.size + 5, e.code.size + 9⟩⟩ ∧
      e' = { e.withDepth e.depth with code := e.code ++ (Instr.tryStart (-1) (-1)).encode } := by
  obtain ⟨_, e₁, hemit, h⟩ := bind_eq_ok.mp h
  obtain ⟨next, _, hoffset, h⟩ := bind_eq_ok.mp h
  cases hoffset
  cases h
  obtain ⟨-, rfl⟩ := emit_eq_ok hemit
  have hsize : (Instr.tryStart (-1) (-1)).encode.size = 9 := rfl
  simp only [Array.size_append, hsize]
  exact ⟨rfl, rfl⟩

/-- A protected region is opened with catch code that is still to come. -/
theorem tryCatch_lays {hs : PendingHandlers} (h : tryStart e = .ok hs e') :
    e'.depth = e.depth ∧ e'.code.size = e.code.size + 9 ∧
      Lays O (hs.onCatch :: O) e e' fun t =>
        ∀ target, t.Leads hs.onCatch target → e.code.size + 9 ≤ target →
          t.Protect e.code.size (some target) none := by
  obtain ⟨rfl, rfl⟩ := tryStart_eq_ok h
  have hsize : (Instr.tryStart (-1) (-1)).encode.size = 9 := rfl
  refine ⟨rfl, by simp only [Array.size_append, hsize], ?_⟩
  refine (append_lays e _ _ [⟨e.code.size + 1, e.code.size + 9⟩] ?_ (List.pairwise_singleton _ _)).imp ?_
  · refine List.forall_mem_singleton.mpr ?_
    simp only [hsize]
    omega
  · rintro t ⟨-, -, hbytes⟩ target ⟨distance, hholds, hdistance, htarget⟩ hle
    refine ⟨distance, -1, ?_, Exec.handlerTarget?_eq hdistance htarget hle, rfl⟩
    refine Bytes.Holds.append (fun k (hk : k < 1) => ?_)
      (Bytes.Holds.append hholds fun k (hk : k < 4) => ?_)
    · rw [hbytes k (by omega) (List.forall_mem_singleton.mpr (.inl (by simp only; omega)))]
      exact Array.getElem?_append_left hk
    · have hback : ∀ k, k < 4 →
          (Instr.tryStart (-1) (-1)).encode[5 + k]? = (signedWord (-1))[k]? := by decide
      rw [size_signedWord, ← hback k hk, ← hbytes (5 + k) (by omega)
        (List.forall_mem_singleton.mpr (.inr (by simp only; omega)))]
      congr 1
      simp only [List.size_toArray, List.length_singleton]
      omega

/-- A protected region is opened with finally code that is still to come. -/
theorem tryFinally_lays {hs : PendingHandlers} (h : tryStart e = .ok hs e') :
    e'.depth = e.depth ∧ e'.code.size = e.code.size + 9 ∧
      Lays O (hs.onFinally :: O) e e' fun t =>
        ∀ target, t.Leads hs.onFinally target → e.code.size + 9 ≤ target →
          t.Protect e.code.size none (some target) := by
  obtain ⟨rfl, rfl⟩ := tryStart_eq_ok h
  have hsize : (Instr.tryStart (-1) (-1)).encode.size = 9 := rfl
  refine ⟨rfl, by simp only [Array.size_append, hsize], ?_⟩
  refine (append_lays e _ _ [⟨e.code.size + 5, e.code.size + 9⟩] ?_ (List.pairwise_singleton _ _)).imp ?_
  · refine List.forall_mem_singleton.mpr ?_
    simp only [hsize]
    omega
  · rintro t ⟨-, -, hbytes⟩ target ⟨distance, hholds, hdistance, htarget⟩ hle
    refine ⟨-1, distance, ?_, rfl, Exec.handlerTarget?_eq hdistance htarget hle⟩
    have hfront : t.code.Holds e.code.size (#[Opcode.tryStart.byte] ++ signedWord (-1)) :=
      fun k (hk : k < 5) => by
        have hfront : ∀ k, k < 5 → (Instr.tryStart (-1) (-1)).encode[k]? =
            (#[Opcode.tryStart.byte] ++ signedWord (-1))[k]? := by decide
        rw [← hfront k hk,
          hbytes k (by omega) (List.forall_mem_singleton.mpr (.inl (by simp only; omega)))]
    exact hfront.left.append (hfront.right.append hholds)

/-- The depth where code is entered by a jump is one of the function. -/
theorem setDepth_lays (h : setDepth d e = .ok u e') :
    e'.depth = d ∧ e'.code.size = e.code.size ∧ Lays O O e e' fun t => d ≤ t.maxStack := by
  cases h
  refine ⟨rfl, rfl, ⟨rfl, Nat.le_refl _, Nat.le_refl _⟩, fun h => ⟨h.inside, h.apart, h.pool⟩, ?_⟩
  intro t _ hfits
  have hmax := hfits.maxDepth_le
  simp only [withDepth] at hmax
  exact ⟨{ hfits with maxDepth_le := by omega }, by omega⟩

/-! ### Locals and texts -/

/-- A local that is given out is one of the function. -/
theorem allocLocal_lays {slot : UInt16} (h : allocLocal e = .ok slot e') :
    slot.toNat = e.localCount.toNat ∧ e'.localCount.toNat = e.localCount.toNat + 1 ∧
      e'.depth = e.depth ∧ e'.code.size = e.code.size ∧
      Lays O O e e' fun t => slot.toNat < t.localCount := by
  obtain ⟨_, _, hget, h⟩ := bind_eq_ok.mp h
  cases hget
  split at h
  · cases h
  rename_i hfew
  cases h
  have hlt : e.localCount.toNat ≠ 65535 := fun h => hfew (UInt16.toNat_inj.mp h)
  have hcount : (e.localCount + 1).toNat = e.localCount.toNat + 1 := by
    have := e.localCount.toNat_lt
    rw [UInt16.toNat_add]
    simp only [UInt16.toNat_one]
    omega
  refine ⟨rfl, hcount, rfl, rfl, ⟨rfl, Nat.le_refl _, ?_⟩, fun h => ⟨h.inside, h.apart, h.pool⟩, ?_⟩
  · simp only [hcount]
    omega
  · intro t _ hfits
    have hlocal := hfits.localCount_le
    simp only [hcount] at hlocal
    exact ⟨{ hfits with localCount_le := by omega }, by omega⟩

/-- Texts keep their positions when one is put behind them. -/
theorem getElem?_append_text {pool : ConstantPool} {s s' : String} {i : Nat}
    (h : pool.get? i = some s') : (pool.append s).get? i = some s' := by
  have hlt : i < pool.strings.size := (Array.getElem?_eq_some_iff.mp h).1
  rw [ConstantPool.get?, ConstantPool.append, Array.getElem?_push_lt hlt]
  rw [ConstantPool.get?, Array.getElem?_eq_getElem hlt] at h
  exact h

/-- A new text is found where it was put. -/
theorem find_append_text {pool : ConstantPool} {s : String} (hnew : pool.find? s = none)
    (hpool : ∀ s i, pool.find? s = some i → pool.get? i = some s) {s' : String} {i : Nat}
    (h : (pool.append s).find? s' = some i) : (pool.append s).get? i = some s' := by
  have hindex : (pool.append s).index = (s, pool.strings.size) :: pool.index := by
    rw [ConstantPool.append, hnew]
    rfl
  rw [ConstantPool.find?, hindex, List.lookup_cons] at h
  cases hs : s' == s with
  | true =>
    rw [hs] at h
    obtain rfl := beq_iff_eq.mp hs
    obtain rfl := Option.some.inj h
    exact Array.getElem?_push_size
  | false =>
    rw [hs] at h
    exact getElem?_append_text (hpool s' i h)

/-- A text is found where it was put. -/
theorem intern_lays {s : String} {index : UInt32} (h : intern s e = .ok index e') :
    e'.depth = e.depth ∧ e'.code.size = e.code.size ∧ Lays O O e e' fun t => t.Text index s := by
  have haddress : ∀ (t : Target) (i : Nat), t.constants.get? i = some s →
      t.Text (UInt32.ofNat i) s := by
    intro t i hi
    have hlt : i < t.constants.size := (Array.getElem?_eq_some_iff.mp hi).1
    have hfew := t.addressable
    rw [Target.Text, UInt32.toNat_ofNat', Nat.mod_eq_of_lt (by omega)]
    exact hi
  simp only [intern, ConstantPool.add] at h
  cases hfind : e.constants.find? s with
  | some i =>
    rw [hfind] at h
    cases h
    refine ⟨rfl, rfl, .refl e, id, fun htidy hfits => ⟨hfits, ?_⟩⟩
    exact haddress _ i (hfits.texts i s (htidy.pool s i hfind))
  | none =>
    rw [hfind] at h
    cases h
    refine ⟨rfl, rfl, ⟨rfl, Nat.le_refl _, Nat.le_refl _⟩, fun h => ⟨h.inside, h.apart, ?_⟩, ?_⟩
    · exact fun s' i => find_append_text hfind h.pool
    · intro t htidy hfits
      refine ⟨{ hfits with texts := fun i s' hi => hfits.texts i s' (getElem?_append_text hi) }, ?_⟩
      exact haddress _ _ (hfits.texts _ s Array.getElem?_push_size)

end Emitter
end ResourceMachine
