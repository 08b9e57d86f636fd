/-
# Code that verification accepts

A code is marked when every instruction of it carries the posture in which it is entered,
and leads only to instructions that carry the posture which it hands on. The depths of the
marks are then an assignment of depths, and a function whose code is marked from its entry
on is fit to run.

The marks tell more than verification asks for: which handlers are installed and which
scopes are entered, that nothing is taken off the operand stack which was there when the
innermost handler was installed, and that exceptions only come from where that handler
expects the scopes that are entered.

Key definitions: `Station`, `Marks`, `Target.Stretch`, `Located.GoesOn`, `Instr.Safe`,
`Station.Sound`, `Target.Marked`.
Key theorem: `Target.Marked.fit`.
-/
import ResourceMachine.Proofs.Layout
import ResourceMachine.Proofs.Fitness
import ResourceMachine.Proofs.Posture

namespace ResourceMachine

/-- An instruction of a code, and the posture in which it is entered. -/
structure Station where
  line : Located
  posture : Posture

/-- Where a code may be entered, and in which posture. -/
abbrev Marks := Nat → Posture → Prop

/-- Stations are marked. -/
def Marks.Hold (G : Marks) (ss : List Station) : Prop := ∀ s ∈ ss, G s.line.offset s.posture

/-- A mark, which may leave open what the value on top is. -/
def Marks.Admits (G : Marks) (p : Nat) (P : Posture) : Prop := G p P ∨ G p P.settled

/-- The marks of stations. -/
def Station.marks (ss : List Station) : Marks :=
  fun p P => ∃ s ∈ ss, s.line.offset = p ∧ s.posture = P

theorem Station.marks_hold (ss : List Station) : (marks ss).Hold ss := fun s hs => ⟨s, hs, rfl, rfl⟩

/-- Wherever control goes on from the posture `P`, there is a mark. The handlers that are
installed find what was there, and count on some marks of the scopes. -/
def Located.GoesOn (i : Located) (G : Marks) (P : Posture) : Prop :=
  match i.instr with
  | .throw | .retRval => True
  | .jmp d => G (i.target d) (i.instr.behind P)
  | .jmpIfFalse d | .jmpIfTrue d =>
    G i.next (i.instr.behind P) ∧ G (i.target d) (i.instr.behind P)
  | .tryStart c f => ∃ scopes,
    G i.next ((P.nesting.guarded ⟨i.offset, P.depth, scopes⟩).at P.depth) ∧
      ¬ (i.handlerTarget? c = none ∧ i.handlerTarget? f = none) ∧
      (∀ p, i.handlerTarget? c = some p → G p (Nesting.at ⟨P.nesting.fences, scopes⟩ (P.depth + 1))) ∧
      ∀ p, i.handlerTarget? f = some p → G p (Nesting.at ⟨P.nesting.fences, scopes⟩ (P.depth + 2))
  | _ => G.Admits i.next (i.instr.behind P)

/-- The pass whose records are taken out of a scope at `p` reads the hint of a record first,
as one with bookkeeping for awaits does. -/
def Target.Accounts (t : Target) (p : Nat) : Prop :=
  t.code.Has (p + 35) (.resourceField Field.hint.byte)

/-- An instruction at `p` takes nothing that the innermost handler leaves, throws only where
that handler may be reached, and drains a scope with records that are disposed with an await
only in a pass with bookkeeping. -/
def Instr.Safe (t : Target) (p : Nat) (i : Instr) (P : Posture) : Prop :=
  P.nesting.base + i.stackEffect.pops ≤ P.depth ∧ (i.Throws P.voided → P.nesting.Level) ∧
    (i = .takeDisposeCapability → P.nesting.MayAwait → t.Accounts p)

/-- An instruction whose operands are in range, that stays within the stack and leads to
marks, and is safe. -/
structure Station.Sound (t : Target) (G : Marks) (s : Station) : Prop where
  operands : s.line.checkOperands t.localCount t.constants = .ok ()
  pops_le : s.line.instr.stackEffect.pops ≤ s.posture.depth
  depth_le : s.posture.depth ≤ t.maxStack
  after_le : s.posture.depth - s.line.instr.stackEffect.pops + s.line.instr.stackEffect.pushes ≤ t.maxStack
  goesOn : s.line.GoesOn G s.posture
  safe : s.line.instr.Safe t s.line.offset s.posture

/-! ### Stretches -/

/-- Stations stand one right behind the other from `p` to `q`. -/
def Target.Stretch (t : Target) : (p : Nat) → List Station → (q : Nat) → Prop
  | p, [], q => q = p
  | p, s :: ss, q => s.line.offset = p ∧ t.code.Has p s.line.instr ∧ t.Stretch s.line.next ss q

namespace Target.Stretch

variable {t : Target} {p q r : Nat} {s s' : Station} {ss ss' : List Station}

theorem append : ∀ {p : Nat} {ss : List Station}, t.Stretch p ss q → t.Stretch q ss' r →
    t.Stretch p (ss ++ ss') r
  | _, [], h, h' => by
    cases h
    exact h'
  | _, _ :: _, ⟨hoffset, hhas, hrest⟩, h' => ⟨hoffset, hhas, append hrest h'⟩

/-- The instructions of a stretch to the end of the code are those that are read there. -/
theorem ofCodeFrom : ∀ {p : Nat} {ss : List Station}, t.Stretch p ss t.code.size →
    Located.ofCodeFrom t.code p = .ok (ss.map Station.line)
  | p, [], h => by
    rw [Located.ofCodeFrom, if_neg (by rw [show t.code.size = p from h]; exact Nat.lt_irrefl p)]
    rfl
  | p, ⟨⟨p', i⟩, d⟩ :: ss, ⟨hoffset, hhas, hrest⟩ => by
    obtain rfl : p' = p := hoffset
    have hhas : t.code.Has p' i := hhas
    have hle := hhas.next_le_size
    have hlt : p' < t.code.size := by
      simp only [Instr.size] at hle
      omega
    rw [Located.ofCodeFrom, if_pos hlt]
    refine except_bind_eq_ok.mpr ⟨i, hhas.readAt, ?_⟩
    exact except_bind_eq_ok.mpr ⟨_, ofCodeFrom hrest, rfl⟩

/-- Where a station of the code stands tells its posture. -/
theorem posture_eq (h : t.Stretch 0 ss t.code.size) {P Q : Posture} (hP : Station.marks ss p P)
    (hQ : Station.marks ss p Q) : P = Q := by
  obtain ⟨s, hs, rfl, rfl⟩ := hP
  obtain ⟨s', hs', hoffset, rfl⟩ := hQ
  obtain ⟨k, hk⟩ := List.mem_iff_getElem?.mp hs
  obtain ⟨l, hl⟩ := List.mem_iff_getElem?.mp hs'
  have hline {m : Nat} {s : Station} (hm : ss[m]? = some s) :
      (ss.map Station.line)[m]? = some s.line := by
    rw [List.getElem?_map, hm, Option.map_some]
  obtain rfl := Located.eq_of_offset h.ofCodeFrom (hline hk) (hline hl) hoffset.symm
  rw [Option.some.inj (hk.symm.trans hl)]

/-- What is read where a station stands is its instruction. -/
theorem has_of_mem : ∀ {p : Nat} {ss : List Station}, t.Stretch p ss q → s ∈ ss →
    t.code.Has s.line.offset s.line.instr
  | _, _ :: _, ⟨hoffset, hhas, hrest⟩, hs => by
    rcases List.mem_cons.mp hs with rfl | hs
    · exact hoffset ▸ hhas
    · exact has_of_mem hrest hs

end Target.Stretch

/-! ### Functions -/

/-- Stations for all instructions of a code. The first is entered with an empty stack and with
nothing around. -/
structure Target.Marked (t : Target) (ss : List Station) : Prop where
  stretch : t.Stretch 0 ss t.code.size
  sound : ∀ s ∈ ss, s.Sound t (Station.marks ss)
  entry : Station.marks ss 0 (Nesting.bare.at 0)

/-- Wherever control can go from an instruction that leads to marks, there is one. -/
theorem Located.GoesOn.flow {i : Located} {G : Marks} {P : Posture} {p d : Nat}
    (h : i.GoesOn G P) (hflow : i.Flow P.depth p d) : ∃ Q, G p Q ∧ Q.depth = d := by
  have hadmitted {p : Nat} (h : G.Admits p (i.instr.behind P)) :
      ∃ Q, G p Q ∧ Q.depth = i.depthBehind P.depth := h.elim (⟨_, ·, rfl⟩) (⟨_, ·, rfl⟩)
  obtain ⟨offset, instr⟩ := i
  cases hflow with
  | fallThrough falls =>
    cases instr with
    | throw | retRval | jmp => exact falls.elim
    | jmpIfFalse | jmpIfTrue => exact ⟨_, h.1, rfl⟩
    | tryStart =>
      obtain ⟨scopes, hnext, -⟩ := h
      exact ⟨_, hnext, rfl⟩
    | _ => exact hadmitted h
  | jump leads =>
    rw [jumpTarget_eq] at leads
    cases instr with
    | jmp =>
      obtain rfl := Option.some.inj leads
      exact ⟨_, h, rfl⟩
    | jmpIfFalse | jmpIfTrue =>
      obtain rfl := Option.some.inj leads
      exact ⟨_, h.2, rfl⟩
    | _ => cases leads
  | onCatch leads =>
    cases instr with
    | tryStart =>
      obtain ⟨scopes, -, -, hcatch, -⟩ := h
      exact ⟨_, hcatch p leads, rfl⟩
    | _ => cases leads
  | onFinally leads =>
    cases instr with
    | tryStart =>
      obtain ⟨scopes, -, -, -, hfinally⟩ := h
      exact ⟨_, hfinally p leads, rfl⟩
    | _ => cases leads

theorem Station.Sound.handled {t : Target} {G : Marks} {s : Station} (h : s.Sound t G) {c f : Int32}
    (hinstr : s.line.instr = .tryStart c f) : s.line.handlerTargets ≠ (none, none) := by
  have hgoesOn := h.goesOn
  simp only [Located.GoesOn, hinstr] at hgoesOn
  obtain ⟨scopes, -, hsome, -⟩ := hgoesOn
  simp only [Located.handlerTargets, hinstr, ne_eq, Prod.mk.injEq]
  exact hsome

/-- A function whose code is marked, and ends with an instruction behind which nothing is
executed, is fit to run. -/
theorem Target.Marked.fit {f : Function} {t : Target} {ss : List Station} {last : Station}
    (h : t.Marked (ss ++ [last])) (hcode : t.code = f.code) (hlocals : t.localCount = f.localCount)
    (hmax : t.maxStack = f.maxStack) (hlast : last.line.instr.opcode.isTerminator) :
    f.Fit t.constants := by
  let depths : Nat → Nat → Prop := fun p d => ∃ P, Station.marks (ss ++ [last]) p P ∧ P.depth = d
  have hunique : ∀ p d d', depths p d → depths p d' → d = d' := by
    rintro p _ _ ⟨P, hP, rfl⟩ ⟨Q, hQ, rfl⟩
    rw [h.stretch.posture_eq hP hQ]
  obtain ⟨depth, hdepth⟩ := exists_assignment hunique
  have hline {i : Located} (hi : i ∈ (ss ++ [last]).map Station.line) :
      ∃ s ∈ ss ++ [last], s.line = i ∧ depth i.offset = s.posture.depth := by
    obtain ⟨s, hs, rfl⟩ := List.mem_map.mp hi
    exact ⟨s, hs, rfl, hdepth _ _ ⟨_, ⟨s, hs, rfl, rfl⟩, rfl⟩⟩
  refine ⟨(ss ++ [last]).map Station.line, ⟨?_, ⟨last.line, ?_, hlast⟩, fun i hi => ?_⟩, depth,
    hdepth _ _ ⟨_, h.entry, rfl⟩, fun i hi _ => ?_⟩
  · rw [← hcode]
    exact h.stretch.ofCodeFrom
  · rw [List.map_append, List.map_singleton, List.getLast?_append]
    rfl
  · obtain ⟨s, hs, rfl, -⟩ := hline hi
    rw [← hlocals]
    exact Located.checkOperands_eq_ok.mp (h.sound s hs).operands
  · obtain ⟨s, hs, rfl, heq⟩ := hline hi
    have hs' := h.sound s hs
    rw [← hmax]
    refine ⟨?_, ?_, ?_, fun p d hflow => ?_, fun c f hinstr => hs'.handled hinstr⟩
    · rw [heq]
      exact hs'.pops_le
    · rw [heq]
      exact hs'.depth_le
    · rw [heq]
      exact hs'.after_le
    · rw [heq] at hflow
      obtain ⟨Q, hQ, hd⟩ := hs'.goesOn.flow hflow
      have ⟨s', hmem, hoffset, _⟩ := hQ
      exact ⟨⟨s'.line, List.mem_map_of_mem hmem, hoffset⟩, hdepth _ _ ⟨Q, hQ, hd⟩⟩

end ResourceMachine
