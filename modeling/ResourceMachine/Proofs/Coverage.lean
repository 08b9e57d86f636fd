/-
# Layouts are marked

Code that is laid out can be marked. A piece of code is covered when it has a station for
each of its instructions and every one of them leads to a mark, provided that there are
marks where the piece as a whole leads: behind it, or at a target that stands outside of
it. Pieces that stand one behind the other cover the whole, and what one of them needs of
another one is then no longer needed. So the layout of a statement needs a mark at its end
and where the loops around it go on, and the layout of a function needs none.

The handler of a block counts on all that is declared in the block. What is thrown earlier
reaches it with fewer records that are disposed with an await than it counts on, and code
that leaves the block earlier disposes no more of them than are declared before.

Key definitions: `Target.Covers`, `Target.Enters`, `Instr.Plain`, `Instr.AllSafe`,
`Nesting.Inside`, `LoopMarks`.
Key theorems: `Target.Covers.trans`, `Target.Pass.covers`, `Target.Leaving.covers`,
`Stmt.Laid.covers`, `Declaration.Laid.marked`, `Declaration.Laid.verify`.
-/
import ResourceMachine.Proofs.MarkedCode
import ResourceMachine.Proofs.FunctionEmission
import Mathlib.Algebra.Ring.Nat

namespace ResourceMachine

namespace Target

/-- Code from `p` to `q` is entered in posture `P`, and each of its instructions leads to a
mark, once there are the marks that it needs. -/
def Covers (t : Target) (needs : Marks → Prop) (p : Nat) (P : Posture) (q : Nat) : Prop :=
  ∃ ss, t.Stretch p ss q ∧ ∀ G : Marks, G.Hold ss → needs G → G p P ∧ ∀ s ∈ ss, s.Sound t G

/-- Code that is covered and not empty: its first station marks its start. -/
def Enters (t : Target) (needs : Marks → Prop) (p : Nat) (P : Posture) (q : Nat) : Prop :=
  ∃ ss, t.Stretch p ss q ∧ ∀ G : Marks, G.Hold ss → G p P ∧ (needs G → ∀ s ∈ ss, s.Sound t G)

variable {t : Target} {needs needs₁ needs₂ : Marks → Prop} {p q m : Nat} {P Q : Posture}

theorem Enters.covers (h : t.Enters needs p P q) : t.Covers needs p P q := by
  obtain ⟨ss, hss, h⟩ := h
  exact ⟨ss, hss, fun G hG hneeds => ⟨(h G hG).1, (h G hG).2 hneeds⟩⟩

/-- Nothing is covered by nothing. -/
theorem Covers.nil : t.Covers (fun G => G p P) p P p := ⟨[], rfl, fun _ _ hp => ⟨hp, nofun⟩⟩

theorem Covers.mono (h : t.Covers needs₁ p P q) (hneeds : ∀ G, needs G → needs₁ G) :
    t.Covers needs p P q := by
  obtain ⟨ss, hss, h⟩ := h
  exact ⟨ss, hss, fun G hG hG' => h G hG (hneeds G hG')⟩

/-- What follows a piece of code marks its end. -/
theorem Covers.trans (h : t.Covers needs₁ p P m) (h' : t.Covers needs₂ m Q q)
    (hlater : ∀ G, needs G → needs₂ G) (hneeds : ∀ G, needs G → G m Q → needs₁ G) :
    t.Covers needs p P q := by
  obtain ⟨ss, hss, h⟩ := h
  obtain ⟨ss', hss', h'⟩ := h'
  refine ⟨ss ++ ss', hss.append hss', fun G hG hG' => ?_⟩
  obtain ⟨hhead, htail⟩ := List.forall_mem_append.mp hG
  obtain ⟨hm, hsound'⟩ := h' G htail (hlater G hG')
  obtain ⟨hp, hsound⟩ := h G hhead (hneeds G hG' hm)
  exact ⟨hp, List.forall_mem_append.mpr ⟨hsound, hsound'⟩⟩

/-- Code that needs only a mark at its end is followed by what marks that. -/
theorem Covers.seq (h : t.Covers (fun G => G m Q) p P m) (h' : t.Covers needs m Q q) :
    t.Covers needs p P q :=
  h.trans h' (fun _ h => h) fun _ _ hm => hm

/-- What follows may also lead back to the start. -/
theorem Enters.trans (h : t.Enters needs₁ p P m) (h' : t.Covers needs₂ m Q q)
    (hlater : ∀ G, needs G → G p P → needs₂ G)
    (hneeds : ∀ G, needs G → G p P → G m Q → needs₁ G) : t.Enters needs p P q := by
  obtain ⟨ss, hss, h⟩ := h
  obtain ⟨ss', hss', h'⟩ := h'
  refine ⟨ss ++ ss', hss.append hss', fun G hG => ?_⟩
  obtain ⟨hhead, htail⟩ := List.forall_mem_append.mp hG
  obtain ⟨hp, hsound⟩ := h G hhead
  refine ⟨hp, fun hG' => ?_⟩
  obtain ⟨hm, hsound'⟩ := h' G htail (hlater G hG' hp)
  exact List.forall_mem_append.mpr ⟨hsound (hneeds G hG' hp hm), hsound'⟩

theorem Enters.seq (h : t.Enters (fun G => G m Q) p P m) (h' : t.Covers needs m Q q) :
    t.Enters needs p P q :=
  h.trans h' (fun _ h _ => h) fun _ _ _ hm => hm

/-- One instruction. -/
theorem Enters.one {i : Instr} (hhas : t.code.Has p i)
    (hsound : ∀ G, needs G → Station.Sound t G ⟨⟨p, i⟩, P⟩) : t.Enters needs p P (p + i.size) := by
  refine ⟨[⟨⟨p, i⟩, P⟩], ⟨rfl, hhas, rfl⟩, fun G hG => ⟨hG _ List.mem_cons_self, fun hG' => ?_⟩⟩
  exact List.forall_mem_singleton.mpr (hsound G hG')

end Target

/-! ### Straight code -/

/-- The operands of an instruction are in range, and behind it stands what is executed next. -/
@[simp]
def Instr.Plain (t : Target) : Instr → Prop
  | .loadLocal slot | .storeLocal slot => slot.toNat < t.localCount
  | .constStr index | .loadGlobal index => (t.constants.get? index.toNat).isSome
  | .addDisposable b | .iterClose b | .chainDisposeError b => b.toNat ≤ 1
  | .resourceField b => (Field.ofByte? b).isSome
  | .popN n | .pick n | .unpick n => n ≠ 0
  | .throw | .retRval | .jmp _ | .jmpIfFalse _ | .jmpIfTrue _ | .tryStart _ _ => False
  | .nop | .pop | .dup | .dup2 | .dupAt _ | .swap | .constUndefined | .constNull | .constTrue
  | .constFalse | .constI32 _ | .getRval | .setRval | .not | .and | .inc | .dec | .ige | .isNullish
  | .isClosing | .call _ | .getElem | .getIterator | .iterNext | .pushDisposeScope
  | .popDisposeScope | .takeDisposeCapability | .await | .yield | .endTry => True

/-- Instructions that are plain and safe from `p` on, all of them, where no handler leaves more
than `d` values. -/
@[simp]
def Instr.AllSafe (t : Target) (d : Nat) : (p : Nat) → Bool → Nesting → List Instr → Prop
  | _, _, _, [] => True
  | p, voided, N, i :: is =>
    i.Plain t ∧ N.base ≤ d ∧ (i.Throws voided → N.Level) ∧
      (i = .takeDisposeCapability → N.MayAwait → t.Accounts p) ∧
      AllSafe t d (p + i.size) i.voids (i.renests N) is

/-- Whether instructions take nothing but the `k` values on top and what they have put there. -/
def Instr.within : (k : Nat) → List Instr → Bool
  | _, [] => true
  | k, i :: is =>
    decide (i.stackEffect.pops ≤ k) && within (k - i.stackEffect.pops + i.stackEffect.pushes) is

theorem Instr.within_cons {k : Nat} {i : Instr} {is : List Instr} (h : within k (i :: is) = true) :
    i.stackEffect.pops ≤ k ∧ within (k - i.stackEffect.pops + i.stackEffect.pushes) is = true := by
  simpa [within] using h

theorem Instr.Plain.checkOperands {t : Target} {i : Located} (h : i.instr.Plain t) :
    i.checkOperands t.localCount t.constants = .ok () := by
  obtain ⟨p, i⟩ := i
  cases i with
  | loadLocal _ | storeLocal _ => exact if_neg (Nat.not_le.mpr h)
  | constStr _ | loadGlobal _ =>
    exact if_neg (by rw [Option.isNone_iff_eq_none]; exact Option.isSome_iff_ne_none.mp h)
  | addDisposable _ | iterClose _ | chainDisposeError _ => exact if_neg (Nat.not_lt.mpr h)
  | resourceField _ =>
    exact if_neg (by rw [Option.isNone_iff_eq_none]; exact Option.isSome_iff_ne_none.mp h)
  | popN _ | pick _ | unpick _ => exact if_neg h
  | _ => rfl

theorem Instr.Plain.goesOn {t : Target} {G : Marks} {i : Located} {P : Posture}
    (h : i.instr.Plain t) (hnext : G.Admits i.next (i.instr.behind P)) : i.GoesOn G P := by
  obtain ⟨p, i⟩ := i
  cases i <;> first | exact hnext | exact h.elim

namespace Target

variable {t : Target} {needs needs₁ needs₂ : Marks → Prop} {p q m d d' k : Nat} {i : Instr}
  {is : List Instr} {N : Nesting}

theorem Line.le : ∀ {d p : Nat} {is : List Instr}, t.Line d p is d' q → d ≤ t.maxStack →
    d' ≤ t.maxStack
  | _, _, [], ⟨hd, _⟩, hle => hd ▸ hle
  | _, _, _ :: _, ⟨_, _, hmax, hrest⟩, _ => le hrest hmax

/-- Straight code ends where its instructions do. -/
theorem Line.stop : ∀ {d p : Nat} {is : List Instr}, t.Line d p is d' q →
    q = p + (is.map Instr.size).sum
  | _, _, [], ⟨_, hq⟩ => hq
  | _, p, i :: is, ⟨_, _, _, hrest⟩ => by
    rw [stop hrest, List.map_cons, List.sum_cons, Nat.add_assoc]

/-- An instruction of straight code is sound if there is a mark behind it. -/
theorem sound_of_plain {G : Marks} {voided : Bool} (hi : i.Plain t) (hbase : N.base ≤ d)
    (hpops : i.stackEffect.pops ≤ k) (hlevel : i.Throws voided → N.Level)
    (htake : i = .takeDisposeCapability → N.MayAwait → t.Accounts p) (hle : d + k ≤ t.maxStack)
    (hmax : d + k - i.stackEffect.pops + i.stackEffect.pushes ≤ t.maxStack)
    (hnext : G.Admits (p + i.size) (i.behind ⟨d + k, N, voided⟩)) :
    Station.Sound t G ⟨⟨p, i⟩, ⟨d + k, N, voided⟩⟩ where
  operands := Instr.Plain.checkOperands (i := ⟨p, i⟩) hi
  pops_le := Nat.le_trans hpops (Nat.le_add_left k d)
  depth_le := hle
  after_le := hmax
  goesOn := Instr.Plain.goesOn (i := ⟨p, i⟩) hi hnext
  safe := ⟨Nat.add_le_add hbase hpops, hlevel, htake⟩

/-- Straight code with at least one instruction. The value that it finds on top may be known
to be undefined; at its end nothing is said of the top. -/
theorem Line.enters : ∀ {is : List Instr} {i : Instr} {p k : Nat} {N : Nesting} {voided : Bool},
    t.Line (d + k) p (i :: is) d' q → d + k ≤ t.maxStack → Instr.AllSafe t d p voided N (i :: is) →
    Instr.within k (i :: is) = true →
    t.Enters (fun G => G q ((Instr.renestAll (i :: is) N).at d')) p ⟨d + k, N, voided⟩ q
  | [], i, p, k, N, voided, ⟨hhas, _, hmax, hd, hq⟩, hle, ⟨hi, hbase, hlevel, htake, _⟩, hwithin => by
    subst hd hq
    refine .one hhas fun G hnext => ?_
    exact sound_of_plain hi hbase (Instr.within_cons hwithin).1 hlevel htake hle hmax (.inr hnext)
  | j :: is, i, p, k, N, voided, ⟨hhas, _, hmax, hrest⟩, hle, ⟨hi, hbase, hlevel, htake, his⟩, hwithin => by
    obtain ⟨hpops, hwithin⟩ := Instr.within_cons hwithin
    have heq : d + k - i.stackEffect.pops + i.stackEffect.pushes =
        d + (k - i.stackEffect.pops + i.stackEffect.pushes) := by omega
    have hone : t.Enters (fun G => G (p + i.size) (i.behind ⟨d + k, N, voided⟩)) p ⟨d + k, N, voided⟩
        (p + i.size) :=
      .one hhas fun G hnext => sound_of_plain hi hbase hpops hlevel htake hle hmax (.inl hnext)
    rw [heq] at hrest hmax
    have hafter := enters hrest hmax his hwithin
    rw [← heq] at hafter
    exact hone.seq hafter.covers

theorem Line.covers (N : Nesting) (k : Nat) (h : t.Line (d + k) p is d' q) (hle : d + k ≤ t.maxStack)
    (hsafe : Instr.AllSafe t d p false N is) (hwithin : Instr.within k is = true) :
    t.Covers (fun G => G q ((Instr.renestAll is N).at d')) p (N.at (d + k)) q := by
  cases is with
  | nil =>
    obtain ⟨rfl, rfl⟩ := h
    exact .nil
  | cons i is => exact (Line.enters h hle hsafe hwithin).covers

/-- An exception is thrown where the innermost handler may be reached. -/
theorem Line.covers_throw (h : t.Line (d + 1) p [.throw] d' q) (hle : d + 1 ≤ t.maxStack)
    (hN : N.Stands d) : t.Covers (fun _ => True) p (N.at (d + 1)) q := by
  obtain ⟨hhas, hpops, hmax, -, rfl⟩ := h
  exact (Enters.one (P := N.at (d + 1)) hhas fun G _ => ⟨rfl, hpops, hle, hmax, trivial,
    Nat.succ_le_succ hN.base_le, fun _ => hN.level, nofun⟩).covers

theorem Line.covers_ret (h : t.Line d p [.retRval] d' q) (hle : d ≤ t.maxStack) (hN : N.base ≤ d) :
    t.Covers (fun _ => True) p (N.at d) q := by
  obtain ⟨hhas, hpops, hmax, -, rfl⟩ := h
  exact (Enters.one (P := N.at d) hhas fun G _ => ⟨rfl, hpops, hle, hmax, trivial, hN, nofun, nofun⟩).covers

/-! ### Jumps -/

theorem Jump.covers {target : Nat} (h : t.Jump .always p target) (hle : d ≤ t.maxStack)
    (hN : N.base ≤ d) : t.Covers (fun G => G target (N.at d)) p (N.at d) (p + 5) := by
  obtain ⟨distance, hhas, htarget⟩ := h
  refine (Enters.one (P := N.at d) hhas fun G hG => ⟨rfl, Nat.zero_le _, hle, hle, ?_, hN, nofun,
    nofun⟩).covers
  have : Located.target ⟨p, .jmp distance⟩ distance = target := Depths.target_of_exec htarget
  show G (Located.target ⟨p, .jmp distance⟩ distance) (N.at d)
  rwa [this]

/-- A jump that takes a condition may also not be taken. -/
theorem Jump.covers_if {kind : JumpKind} {target : Nat} (h : t.Jump kind p target)
    (hkind : kind ≠ .always) (hle : d + 1 ≤ t.maxStack) (hN : N.base ≤ d) :
    t.Covers (fun G => G (p + 5) (N.at d) ∧ G target (N.at d)) p (N.at (d + 1)) (p + 5) := by
  obtain ⟨distance, hhas, htarget⟩ := h
  have hbase : N.base + 1 ≤ d + 1 := Nat.succ_le_succ hN
  cases kind with
  | always => exact absurd rfl hkind
  | ifFalse =>
    refine (Enters.one (P := N.at (d + 1)) hhas fun G ⟨hnext, hG⟩ => ⟨rfl, Nat.le_add_left _ _, hle,
      Nat.le_of_succ_le hle, ⟨hnext, ?_⟩, hbase, nofun, nofun⟩).covers
    have : Located.target ⟨p, .jmpIfFalse distance⟩ distance = target := Depths.target_of_exec htarget
    show G (Located.target ⟨p, .jmpIfFalse distance⟩ distance) (N.at d)
    rwa [this]
  | ifTrue =>
    refine (Enters.one (P := N.at (d + 1)) hhas fun G ⟨hnext, hG⟩ => ⟨rfl, Nat.le_add_left _ _, hle,
      Nat.le_of_succ_le hle, ⟨hnext, ?_⟩, hbase, nofun, nofun⟩).covers
    have : Located.target ⟨p, .jmpIfTrue distance⟩ distance = target := Depths.target_of_exec htarget
    show G (Located.target ⟨p, .jmpIfTrue distance⟩ distance) (N.at d)
    rwa [this]

/-- The start of a protected region leads to its handlers, of which there has to be one. What
the handlers count on is a matter of what follows. -/
theorem Protect.covers {onCatch onFinally : Option Nat} (scopes : List Bool)
    (h : t.Protect p onCatch onFinally) (hle : d ≤ t.maxStack) (hN : N.base ≤ d)
    (hsome : ¬ (onCatch = none ∧ onFinally = none)) :
    t.Covers (fun G => G (p + 9) ((N.guarded ⟨p, d, scopes⟩).at d) ∧
      (∀ c, onCatch = some c → G c (Nesting.at ⟨N.fences, scopes⟩ (d + 1))) ∧
      ∀ f, onFinally = some f → G f (Nesting.at ⟨N.fences, scopes⟩ (d + 2))) p (N.at d) (p + 9) := by
  obtain ⟨c, f, hhas, hc, hf⟩ := h
  refine (Enters.one (P := N.at d) hhas fun G ⟨hnext, hcatch, hfinally⟩ => ⟨rfl, Nat.zero_le _, hle,
    hle, ?_, hN, nofun, nofun⟩).covers
  have hc' : onCatch = Located.handlerTarget? ⟨p, .tryStart c f⟩ c := Located.handlerTarget?_of_exec hc
  have hf' : onFinally = Located.handlerTarget? ⟨p, .tryStart c f⟩ f := Located.handlerTarget?_of_exec hf
  rw [hc', hf'] at hsome
  rw [hc'] at hcatch
  rw [hf'] at hfinally
  exact ⟨scopes, hnext, hsome, hcatch, hfinally⟩

end Target

/-! ### Disposal passes -/

/-- All locals of a pass are locals of the function. -/
structure PassSlots.Within (s : PassSlots) (n : Nat) : Prop where
  throwing : s.throwing.toNat < n
  exception : s.exception.toNat < n
  resources : s.resources.toNat < n
  index : s.index.toNat < n
  resource : s.resource.toNat < n
  needsAwait : s.needsAwait.toNat < n
  hasAwaited : s.hasAwaited.toNat < n
  rval : s.rval.toNat < n

namespace Target

variable {t : Target} {p q d : Nat} {s : PassSlots} {scope : Scope} {awaits unwrapClosing : Bool}
  {seed : Seed} {N : Nesting}

theorem FreshSlots.within (h : t.FreshSlots scope s) : s.Within t.localCount := by
  obtain ⟨base, hs, hbase, -⟩ := h
  obtain ⟨h₀, h₁, h₂, h₃, h₄, h₅, h₆, h₇⟩ := hs
  constructor <;> omega

theorem AwaitBefore.covers (h : t.AwaitBefore s d p q) (hs : s.Within t.localCount)
    (hle : d ≤ t.maxStack) (hN : N.base ≤ d) : t.Covers (fun G => G q (N.at d)) p (N.at d) q := by
  obtain ⟨m, hcond, hjump, hwait⟩ := h
  have hcond' := hcond.covers N 0 hle
    (by simp [hs.resource, hs.needsAwait, hs.hasAwaited, Field.ofByte?_byte, hN]) rfl
  have hwait' := hwait.covers N 0 hle (by simp [hs.needsAwait, hN]) rfl
  exact hcond'.seq ((hjump.covers_if nofun (hcond.le hle) hN).trans hwait' (fun _ h => h)
    fun _ hq hm => ⟨hm, hq⟩)

theorem AwaitResult.covers (h : t.AwaitResult s d p q) (hs : s.Within t.localCount)
    (hle : d + 1 ≤ t.maxStack) (hN : N.Stands d) :
    t.Covers (fun G => G q (N.at (d + 1))) p (N.at (d + 1)) q := by
  obtain ⟨m, hcond, hjump, hwait⟩ := h
  have hcond' := hcond.covers N 1 hle (by simp [hs.resource, Field.ofByte?_byte, hN.base_le]) rfl
  have hwait' := hwait.covers N 1 hle (by simp [hs.hasAwaited, hN.base_le, hN.level]) rfl
  exact hcond'.seq ((hjump.covers_if nofun (hcond.le hle) (Nat.le_succ_of_le hN.base_le)).trans hwait'
    (fun _ h => h) fun _ hq hm => ⟨hm, hq⟩)

/-- A call that is protected: the handler starts behind the jump over it. -/
theorem CallDispose.covers (h : t.CallDispose s awaits unwrapClosing d p q)
    (hs : s.Within t.localCount) (hle : d ≤ t.maxStack) (hN : N.base ≤ d) :
    t.Covers (fun G => G q (N.at d)) p (N.at d) q := by
  obtain ⟨m₁, m₂, m₃, hprotect, hcall, hresult, hend, hjump, hcaught⟩ := h
  let inner := N.guarded ⟨p, d, N.scopes⟩
  have hinner : inner.Stands d := ⟨Nat.le_refl d, .refl N.scopes⟩
  have hroom : d + 1 ≤ t.maxStack := hcall.le hle
  have hcall' : t.Covers (fun G => G m₁ (inner.at (d + 1))) (p + 9) (inner.at d) m₁ :=
    hcall.covers inner 0 hle (by simp [hs.resource, Field.ofByte?_byte, hinner.base_le, hinner.level]) rfl
  have hresult' : t.Covers (fun G => G m₂ (inner.at (d + 1))) m₁ (inner.at (d + 1)) m₂ := by
    cases awaits with
    | false =>
      obtain rfl : m₂ = m₁ := hresult
      exact .nil
    | true => exact AwaitResult.covers hresult hs hroom hinner
  have hend' : t.Covers (fun G => G m₃ (N.at d)) m₂ (inner.at (d + 1)) m₃ :=
    hend.covers inner 1 hroom (by simp [hinner.base_le]) rfl
  have hcaught' : t.Covers (fun G => G q (N.at d)) (m₃ + 5) (N.at (d + 1)) q := by
    refine hcaught.covers N 1 hroom ?_ ?_
    · cases unwrapClosing <;> simp [hs.exception, hs.throwing, hN]
    · cases unwrapClosing <;> rfl
  have hbody := hcall'.seq (hresult'.seq (hend'.seq (hjump.covers hle hN)))
  have hprotected : t.Covers (fun G => G q (N.at d) ∧ G (m₃ + 5) (N.at (d + 1))) p (N.at d) (m₃ + 5) :=
    (hprotect.covers N.scopes hle hN (by simp)).trans hbody (fun _ h => h.1)
      fun G h hm => ⟨hm, fun c hc => Option.some.inj hc ▸ h.2, nofun⟩
  exact hprotected.trans hcaught' (fun _ h => h) fun _ hq hm => ⟨hq, hm⟩

theorem DisposeRecord.covers (h : t.DisposeRecord s awaits unwrapClosing d p q)
    (hs : s.Within t.localCount) (hle : d ≤ t.maxStack) (hN : N.base ≤ d) :
    t.Covers (fun G => G q (N.at d)) p (N.at d) q := by
  obtain ⟨m₀, m₁, m₂, hbefore, hmethod, hcall, hrest⟩ := h
  have hbefore' : t.Covers (fun G => G m₀ (N.at d)) p (N.at d) m₀ := by
    cases awaits with
    | false =>
      obtain rfl : m₀ = p := hbefore
      exact .nil
    | true => exact AwaitBefore.covers hbefore hs hle hN
  have hmethod' := hmethod.covers N 0 hle (by simp [hs.resource, Field.ofByte?_byte, hN]) rfl
  have hcall' := hcall.covers hs hle hN
  have hroom := hmethod.le hle
  refine hbefore'.seq (hmethod'.seq ?_)
  cases awaits with
  | false =>
    obtain ⟨hskip, rfl⟩ := hrest
    exact (hskip.covers_if nofun hroom hN).trans hcall' (fun _ h => h) fun _ hq hm => ⟨hm, hq⟩
  | true =>
    obtain ⟨hskip, hover, hset⟩ := hrest
    have hset' := hset.covers N 0 hle (by simp [hs.needsAwait, hN]) rfl
    have hfirst : t.Covers (fun G => G q (N.at d) ∧ G (m₂ + 5) (N.at d)) m₁ (N.at (d + 1)) (m₂ + 5) :=
      (hskip.covers_if nofun hroom hN).trans (hcall'.seq (hover.covers hle hN)) (fun _ h => h.1)
        fun _ h hm => ⟨hm, h.2⟩
    exact hfirst.trans hset' (fun _ h => h) fun _ hq hm => ⟨hq, hm⟩

/-- The end of a round leads back to its start. -/
theorem DisposeRecords.covers (h : t.DisposeRecords s awaits unwrapClosing d p q)
    (hs : s.Within t.localCount) (hle : d ≤ t.maxStack) (hN : N.base ≤ d) :
    t.Covers (fun G => G q (N.at d)) p (N.at d) q := by
  obtain ⟨m₁, m₂, m₃, m₄, hcond, hout, hfetch, hone, hdec, hback, rfl⟩ := h
  have hcond' : t.Enters (fun G => G m₁ (N.at (d + 1))) p (N.at d) m₁ :=
    Line.enters (k := 0) hcond hle (by simp [hs.index, hN]) rfl
  have hfetch' := hfetch.covers N 0 hle (by simp [hs.index, hs.resources, hs.resource, hN]) rfl
  have hdec' := hdec.covers N 0 hle (by simp [hs.index, hN]) rfl
  have hbody := hfetch'.seq ((hone.covers hs hle hN).seq (hdec'.seq (hback.covers hle hN)))
  have hround : t.Covers (fun G => G (m₄ + 5) (N.at d) ∧ G p (N.at d)) m₁ (N.at (d + 1)) (m₄ + 5) :=
    (hout.covers_if nofun (hcond.le hle) hN).trans hbody (fun _ h => h.2) fun _ h hm => ⟨hm, h.1⟩
  exact (hcond'.trans hround (fun _ hq hp => ⟨hq, hp⟩) fun _ _ _ hm => hm).covers

/-- What a pass with bookkeeping reads first of its records is a hint. -/
theorem DisposeRecords.reads_hint (h : t.DisposeRecords s true unwrapClosing d p q) :
    t.code.Has (p + 27) (.resourceField Field.hint.byte) := by
  obtain ⟨m₁, m₂, m₃, m₄, hcond, -, hfetch, hone, -⟩ := h
  obtain ⟨m₀, -, -, hbefore, -⟩ := hone
  obtain ⟨m, hread, -⟩ := hbefore
  have hm₁ : m₁ = p + 9 := hcond.stop
  have hm₂ : m₂ = m₁ + 5 + 10 := hfetch.stop
  have hhas : t.code.Has (m₂ + 3) (.resourceField Field.hint.byte) := hread.2.2.2.1
  rwa [show p + 27 = m₂ + 3 by omega]

/-- The records are taken out 8 bytes before the start of a pass ends. -/
theorem StartPass.covers (h : t.StartPass s awaits seed d p q) (hs : s.Within t.localCount)
    (hle : d + seed.values ≤ t.maxStack) (hN : N.base ≤ d)
    (haccounts : N.MayAwait → t.code.Has (q + 27) (.resourceField Field.hint.byte)) :
    d + 1 ≤ t.maxStack ∧ t.Covers (fun G => G q (N.at d)) p (N.at (d + seed.values)) q := by
  obtain ⟨m₁, m₂, hflags, hseed, htake⟩ := h
  have hroom : d + 1 ≤ t.maxStack := hseed.le hle
  have hq : q = m₂ + 11 := htake.stop
  have htaken : N.MayAwait → t.Accounts (m₂ + 3) := fun hmay => by
    rw [Accounts, show m₂ + 3 + 35 = q + 27 by omega]
    exact haccounts hmay
  have hflags' : t.Covers (fun G => G m₁ (N.at (d + seed.values))) p (N.at (d + seed.values)) m₁ := by
    cases awaits with
    | false => exact hflags.covers N _ hle trivial rfl
    | true =>
      refine hflags.covers N _ hle (by simp [hs.rval, hs.needsAwait, hs.hasAwaited, hN]) ?_
      cases seed <;> rfl
  have hseed' : t.Covers (fun G => G m₂ (N.at (d + 1))) m₁ (N.at (d + seed.values)) m₂ := by
    cases seed with
    | normal => exact hseed.covers N 0 hle (by simp [hs.exception, hN]) rfl
    | thrown => exact hseed.covers N 1 hle (by simp [hs.exception, hN]) rfl
  have htake' : t.Covers (fun G => G q (N.at d)) m₂ (N.at (d + 1)) q :=
    htake.covers N 1 hroom (by simp [hs.throwing, hs.index, hs.resources, hN]; exact htaken) rfl
  exact ⟨hroom, hflags'.seq (hseed'.seq htake')⟩

theorem AwaitOwed.covers (h : t.AwaitOwed s d p q) (hs : s.Within t.localCount)
    (hle : d ≤ t.maxStack) (hN : N.base ≤ d) : t.Covers (fun G => G q (N.at d)) p (N.at d) q := by
  obtain ⟨m, hcond, hjump, hwait⟩ := h
  have hcond' := hcond.covers N 0 hle (by simp [hs.needsAwait, hs.hasAwaited, hN]) rfl
  have hwait' := hwait.covers N 0 hle (by simp [hN]) rfl
  exact hcond'.seq ((hjump.covers_if nofun (hcond.le hle) hN).trans hwait' (fun _ h => h)
    fun _ hq hm => ⟨hm, hq⟩)

theorem FinishPass.covers (h : t.FinishPass s awaits d p q) (hs : s.Within t.localCount)
    (hle : d ≤ t.maxStack) (hN : N.base ≤ d) :
    d + 2 ≤ t.maxStack ∧ t.Covers (fun G => G q (N.at (d + 2))) p (N.at d) q := by
  obtain ⟨m₁, m₂, howed, hpush, hrval⟩ := h
  have howed' : t.Covers (fun G => G m₁ (N.at d)) p (N.at d) m₁ := by
    cases awaits with
    | false =>
      obtain rfl : m₁ = p := howed
      exact .nil
    | true => exact AwaitOwed.covers howed hs hle hN
  have hpush' := hpush.covers N 0 hle
    (by simp [hs.resources, hs.resource, hs.exception, hs.throwing, hN]) rfl
  have hrval' : t.Covers (fun G => G q (N.at (d + 2))) m₂ (N.at (d + 2)) q := by
    cases awaits with
    | false => exact hrval.covers N 2 (hpush.le hle) trivial rfl
    | true => exact hrval.covers N 2 (hpush.le hle) (by simp [hs.rval, hN]) rfl
  exact ⟨hpush.le hle, howed'.seq (hpush'.seq hrval')⟩

/-- A pass takes its exception, if it has one, and leaves two values. It keeps account of
awaits if the innermost scope may hold a record that is disposed with one. -/
theorem Pass.covers (h : t.Pass s awaits seed d p q) (hs : s.Within t.localCount)
    (hle : d + seed.values ≤ t.maxStack) (hN : N.base ≤ d) (hmay : N.MayAwait → awaits = true) :
    d + 2 ≤ t.maxStack ∧ t.Covers (fun G => G q (N.at (d + 2))) p (N.at (d + seed.values)) q := by
  obtain ⟨m₁, m₂, hstart, hrecords, hfinish⟩ := h
  obtain ⟨hroom, hstart'⟩ := hstart.covers hs hle hN fun h => by
    rw [hmay h] at hrecords
    exact hrecords.reads_hint
  have hle' : d ≤ t.maxStack := by omega
  obtain ⟨hroom', hfinish'⟩ := hfinish.covers hs hle' hN
  exact ⟨hroom', hstart'.seq ((hrecords.covers hs hle' hN).seq hfinish')⟩

theorem ThrowIfException.covers (h : t.ThrowIfException d p q) (hle : d + 2 ≤ t.maxStack)
    (hN : N.Stands d) : t.Covers (fun G => G q (N.at d)) p (N.at (d + 2)) q := by
  obtain ⟨hjump, hthrow, hpop⟩ := h
  have hthrow' := hthrow.covers_throw (by omega) hN
  have hpop' := hpop.covers N 1 (by omega) (by simp [hN.base_le]) rfl
  have hskip : t.Covers (fun G => G (p + 6) (N.at (d + 1))) p (N.at (d + 2)) (p + 6) :=
    (hjump.covers_if nofun hle (Nat.le_succ_of_le hN.base_le)).trans hthrow' (fun _ _ => trivial)
      fun _ hG hm => ⟨hm, hG⟩
  exact hskip.seq hpop'

/-- Disposing on a way out that no exception caused changes no depth. -/
theorem Leave.covers (h : t.Leave scope awaits d p q) (hle : d ≤ t.maxStack) (hN : N.Stands d)
    (hmay : N.MayAwait → awaits = true) : t.Covers (fun G => G q (N.at d)) p (N.at d) q := by
  obtain ⟨s, m, hs, hpass, hthrow⟩ := h
  obtain ⟨hroom, hpass'⟩ := hpass.covers hs.within hle hN.base_le hmay
  exact hpass'.seq (hthrow.covers hroom hN)

theorem LeaveByThrow.covers (h : t.LeaveByThrow scope awaits d p q) (hle : d + 1 ≤ t.maxStack)
    (hN : N.base ≤ d) (hmay : N.MayAwait → awaits = true) :
    d + 2 ≤ t.maxStack ∧ t.Covers (fun G => G q (N.at (d + 2))) p (N.at (d + 1)) q := by
  obtain ⟨s, hs, hpass⟩ := h
  exact hpass.covers hs.within hle hN hmay

end Target

/-! ### Ways out -/

namespace Shape

/-- The depth outside of a region, inside of which it is `d`. -/
def outside (d : Nat) : Shape → Nat
  | loop _ isForOf _ _ => if isForOf then d - 1 else d
  | _ => d

theorem outside_le (d : Nat) (r : Shape) : r.outside d ≤ d := by
  cases r with
  | loop _ isForOf _ _ => cases isForOf <;> simp [outside]
  | _ => exact Nat.le_refl d

/-- The handlers and scopes outside of a region. -/
def around (N : Nesting) : Shape → Nesting
  | disposable _ _ | iteration (some _) => N.unguarded.exited
  | tryCatch | iteration none => N.unguarded
  | loop _ _ _ _ => N

/-- The pass that leaves a region keeps account of awaits if it may have to. -/
def Accounting (N : Nesting) : Shape → Prop
  | disposable awaits _ | iteration (some awaits) => N.MayAwait → awaits = true
  | _ => True

end Shape

/-- Code may stand inside of the regions, and outside of each of them. -/
def Nesting.Inside : List Shape → (d : Nat) → Nesting → Prop
  | [], d, N => N.Stands d
  | r :: rs, d, N => N.Stands d ∧ r.Accounting N ∧ Inside rs (r.outside d) (r.around N)

theorem Nesting.Inside.stands : ∀ {rs : List Shape} {d : Nat} {N : Nesting}, N.Inside rs d → N.Stands d
  | [], _, _, h => h
  | _ :: _, _, _, h => h.1

/-- A declaration stands in a block that disposes. -/
def Stmt.Declares (s : Stmt) (rs : List Shape) : Prop :=
  s.isAwaitUsing = true → ∃ awaits room outer, rs = .disposable awaits room :: outer

/-- Behind a declaration the block may have to await, and knows. -/
theorem Nesting.Inside.after {rs : List Shape} {d : Nat} {N : Nesting} {s : Stmt} (h : N.Inside rs d)
    (hs : s.Declares rs) (hlevel : (N.noting s.isAwaitUsing).Level) :
    (N.noting s.isAwaitUsing).Inside (s.after rs) d := by
  cases hasync : s.isAwaitUsing with
  | false =>
    rw [noting_false]
    cases s with
    | usingIn name hint init =>
      have hhint : (hint == .async) = false := hasync
      match rs, h with
      | .disposable awaits room :: outer, h =>
        simp only [Stmt.after, hhint, Bool.or_false]
        exact h
      | [], h | .tryCatch :: _, h | .loop _ _ _ _ :: _, h | .iteration _ :: _, h => exact h
    | _ => exact h
  | true =>
    obtain ⟨awaits, room, outer, rfl⟩ := hs hasync
    obtain ⟨hstands, -, houter⟩ := h
    cases s with
    | usingIn name hint init =>
      have hhint : (hint == .async) = true := hasync
      rw [hasync] at hlevel
      simp only [Stmt.after, hhint, Bool.or_true]
      refine ⟨⟨by simpa using hstands.base_le, hlevel⟩, fun _ => rfl, ?_⟩
      obtain ⟨fences, _ | ⟨b, scopes⟩⟩ := N <;> exact houter
    | _ => cases hasync

/-- There are marks where the loops around a statement go on. -/
def LoopMarks (G : Marks) : List Shape → (d : Nat) → Nesting → Prop
  | [], _, _ => True
  | r :: rs, d, N =>
    (match r with
    | .loop _ _ continueTo breakTo => G continueTo (N.at d) ∧ G breakTo (N.at (r.outside d))
    | _ => True) ∧ LoopMarks G rs (r.outside d) (r.around N)

/-- A declaration changes no loops. -/
theorem LoopMarks.after {G : Marks} {rs : List Shape} {d : Nat} {N : Nesting} {s : Stmt}
    (h : LoopMarks G rs d N) (hs : s.Declares rs) :
    LoopMarks G (s.after rs) d (N.noting s.isAwaitUsing) := by
  cases hasync : s.isAwaitUsing with
  | false =>
    rw [Nesting.noting_false]
    match rs, h with
    | .disposable _ _ :: _, h => cases s <;> exact h
    | [], h | .tryCatch :: _, h | .loop _ _ _ _ :: _, h | .iteration _ :: _, h => cases s <;> exact h
  | true =>
    obtain ⟨awaits, room, outer, rfl⟩ := hs hasync
    obtain ⟨fences, _ | ⟨b, scopes⟩⟩ := N <;> cases s <;> exact h

namespace Target

variable {t : Target} {p q d d' : Nat} {scope : Scope} {r : Shape} {x : Exit} {N : Nesting}

theorem ExitOf.covers (h : t.ExitOf scope r d p d' q) (hle : d ≤ t.maxStack) (hN : N.Stands d)
    (haccounting : r.Accounting N) (hout : (r.around N).Stands (r.outside d)) :
    d' = r.outside d ∧ t.Covers (fun G => G q ((r.around N).at d')) p (N.at d) q := by
  match r, h with
  | .disposable _ _, ⟨m, hleave, hend⟩ =>
    obtain rfl : d' = d := hend.2.2.2.2.2.2.1
    have hbase : N.unguarded.base ≤ d' := hout.base_le
    exact ⟨rfl, (hleave.covers hle hN haccounting).seq
      (hend.covers N 0 hle (by simp [hN.base_le, hbase]) rfl)⟩
  | .iteration (some _), ⟨m, hleave, hend⟩ =>
    obtain rfl : d' = d := hend.2.2.2.2.2.2.1
    exact ⟨rfl, (hleave.covers hle hN haccounting).seq (hend.covers N 0 hle (by simp [hN.base_le]) rfl)⟩
  | .iteration none, hend | .tryCatch, hend =>
    have hend : t.Line d p [.endTry] d' q := hend
    exact ⟨hend.2.2.2.1, hend.covers N 0 hle (by simp [hN.base_le]) rfl⟩
  | .loop _ false _ _, hend =>
    have hend : t.Line d p [] d' q := hend
    exact ⟨hend.1, hend.covers N 0 hle trivial rfl⟩
  | .loop _ true _ _, hend =>
    have hend : t.Line d p [.iterClose 0] d' q := hend
    have hd : d = d - 1 + 1 := by
      have hpops : 1 ≤ d := hend.2.1
      omega
    have hbase : N.base ≤ d - 1 := hout.base_le
    refine ⟨hend.2.2.2.1, ?_⟩
    rw [hd] at hend hle ⊢
    exact hend.covers N 1 hle (by simp [hbase, hN.level]) rfl

/-- The code that leaves regions leads to where one of the loops goes on, if it does not
return. -/
theorem Leaving.covers : ∀ {rs : List Shape} {d p : Nat} {N : Nesting}, t.Leaving scope rs x d p q →
    d ≤ t.maxStack → N.Inside rs d → t.Covers (fun G => LoopMarks G rs d N) p (N.at d) q
  | [], _, _, _, ⟨_, hret⟩, hle, hN => (hret.covers_ret hle hN.base_le).mono fun _ _ => trivial
  | r :: rs, d, p, N, h, hle, ⟨hN, haccounting, hout⟩ => by
    unfold Leaving at h
    split at h
    · rename_i hcontinued
      obtain ⟨hjump, rfl⟩ := h
      cases r with
      | loop _ _ continueTo _ => exact (hjump.covers hle hN.base_le).mono fun G h => h.1.1
      | _ => cases hcontinued
    · obtain ⟨d', m, hexit, h⟩ := h
      obtain ⟨hd', hexit'⟩ := hexit.covers hle hN haccounting hout.stands
      have hle' : d' ≤ t.maxStack := hd' ▸ Nat.le_trans (r.outside_le d) hle
      split at h
      · rename_i hbroken
        obtain ⟨hjump, rfl⟩ := h
        cases r with
        | loop _ _ _ breakTo =>
          refine hexit'.seq ((hjump.covers hle' (hd' ▸ hout.stands.base_le)).mono fun G h => ?_)
          rw [hd']
          exact h.1.2
        | _ => cases hbroken
      · refine hexit'.seq ((Leaving.covers h hle' (hd' ▸ hout)).mono fun G h => ?_)
        rw [hd']
        exact h.2

end Target

/-! ### Expressions -/

section

variable {t : Target} {scope : Scope}

theorem Target.Text.isSome {index : UInt32} {s : String} (h : t.Text index s) :
    (t.constants.get? index.toNat).isSome := by
  rw [show t.constants.get? index.toNat = some s from h]
  rfl

/-- An expression that is one instruction. -/
theorem Target.Line.pushes {d p q : Nat} {i : Instr} {N : Nesting} (h : t.Line d p [i] (d + 1) q)
    (hle : d ≤ t.maxStack) (hN : N.Stands d) (hi : i.Plain t) (hpops : Instr.within 0 [i] = true)
    (htake : i ≠ .takeDisposeCapability) (hsame : i.renests N = N) :
    d + 1 ≤ t.maxStack ∧ t.Enters (fun G => G q (N.at (d + 1))) p (N.at d) q := by
  have henters : t.Enters (fun G => G q ((i.renests N).at (d + 1))) p (N.at d) q :=
    Target.Line.enters (k := 0) h hle
      ⟨hi, hN.base_le, fun _ => hN.level, fun h => absurd h htake, trivial⟩ hpops
  rw [hsame] at henters
  exact ⟨h.le hle, henters⟩

mutual

/-- An expression pushes its value. -/
theorem Expr.Laid.covers : ∀ {e : Expr} {d p q : Nat} {N : Nesting}, e.Laid t scope d p q →
    d ≤ t.maxStack → scope.Bound t.localCount → N.Stands d →
    d + 1 ≤ t.maxStack ∧ t.Enters (fun G => G q (N.at (d + 1))) p (N.at d) q
  | .undefined, _, _, _, _, h, hle, _, hN | .null, _, _, _, _, h, hle, _, hN
  | .int _, _, _, _, _, h, hle, _, hN => Target.Line.pushes h hle hN trivial rfl nofun rfl
  | .bool b, _, _, _, _, h, hle, _, hN => by
    cases b <;> exact Target.Line.pushes h hle hN trivial rfl nofun rfl
  | .str _, _, _, _, _, ⟨_, htext, hline⟩, hle, _, hN | .global _, _, _, _, _, ⟨_, htext, hline⟩, hle, _, hN =>
    hline.pushes hle hN htext.isSome rfl nofun rfl
  | .binding name, _, _, _, _, ⟨slot, hslot, hline⟩, hle, hbound, hN => by
    obtain ⟨xs, ys, hscope, -⟩ := List.lookup_eq_some_iff.mp hslot
    have hlt : slot.toNat < t.localCount := hbound (name, slot) (by simp [hscope])
    exact hline.pushes hle hN hlt rfl nofun rfl
  | .call callee args, d, p, q, N, ⟨m₁, m₂, m₃, hcallee, hreceiver, hargs, hfew, hcall⟩, hle, hbound, hN => by
    obtain ⟨hroom, hcallee'⟩ := Expr.Laid.covers hcallee hle hbound hN
    have hreceiver' := hreceiver.covers N 1 hroom (by simp [hN.base_le]) rfl
    obtain ⟨hroom', hargs'⟩ := Expr.LaidAll.covers hargs (hreceiver.le hroom) hbound (hN.deeper 2)
    have hargc : (UInt8.ofNat args.length).toNat = args.length := 
      UInt8.toNat_ofNat_of_lt' (Nat.lt_of_le_of_lt hfew (by decide))
    have hwithin : Instr.within (2 + args.length) [.call (UInt8.ofNat args.length)] = true := by
      simp [Instr.within, Instr.stackEffect_call, hargc, Nat.add_comm]
    rw [Nat.add_assoc] at hcall hroom' hargs'
    have hcall' := hcall.covers N (2 + args.length) hroom' (by simp [hN.base_le, hN.level]) hwithin
    exact ⟨hcall.le hroom', hcallee'.seq (hreceiver'.seq (hargs'.seq hcall'))⟩
  | .await e, d, p, q, N, ⟨_, m, he, hline⟩, hle, hbound, hN
  | .yield e, d, p, q, N, ⟨_, m, he, hline⟩, hle, hbound, hN => by
    obtain ⟨hroom, he'⟩ := Expr.Laid.covers he hle hbound hN
    have hline' := hline.covers N 1 hroom (by simp [hN.base_le, hN.level]) rfl
    exact ⟨hroom, he'.seq hline'⟩

theorem Expr.LaidAll.covers : ∀ {es : List Expr} {d p q : Nat} {N : Nesting},
    Expr.LaidAll t scope es d p q → d ≤ t.maxStack → scope.Bound t.localCount → N.Stands d →
    d + es.length ≤ t.maxStack ∧ t.Covers (fun G => G q (N.at (d + es.length))) p (N.at d) q
  | [], _, _, _, _, h, hle, _, _ => by
    cases h
    exact ⟨hle, .nil⟩
  | e :: es, d, p, q, N, ⟨m, he, hes⟩, hle, hbound, hN => by
    obtain ⟨hroom, he'⟩ := Expr.Laid.covers he hle hbound hN
    obtain ⟨hroom', hes'⟩ := Expr.LaidAll.covers hes hroom hbound (hN.deeper 1)
    rw [List.length_cons, Nat.add_comm es.length, ← Nat.add_assoc]
    exact ⟨hroom', he'.covers.seq hes'⟩

end

end

/-! ### Statements -/

section

variable {t : Target} {scope scope' : Scope} {rs : List Shape} {d p q m : Nat} {N : Nesting}

theorem Target.Fresh.bind {name : String} {slot : UInt16} (h : t.Fresh scope slot)
    (hbound : scope.Bound t.localCount) : Scope.Bound ((name, slot) :: scope) t.localCount :=
  List.forall_mem_cons.mpr ⟨h.1, hbound⟩

/-- What a statement binds is bound to a local of the function. -/
theorem Stmt.Laid.bound : ∀ {s : Stmt}, s.Laid t rs scope d p scope' q →
    scope.Bound t.localCount → Scope.Bound scope' t.localCount
  | .expr _, ⟨_, _, _, h⟩, hbound | .throw _, ⟨_, _, _, h⟩, hbound | .block _, ⟨_, h⟩, hbound
  | .breakLoop _, ⟨_, h⟩, hbound | .continueLoop _, ⟨_, h⟩, hbound => h ▸ hbound
  | .letIn _ _, ⟨_, _, _, hfresh, _, h⟩, hbound => h ▸ hfresh.bind hbound
  | .usingIn _ _ _, ⟨_, _, _, _, _, _, _, hfresh, _, h⟩, hbound => h ▸ hfresh.bind hbound
  | .ifElse _ _ _, ⟨_, _, _, _, _, h⟩, hbound => h ▸ hbound
  | .whileLoop _ _ _, ⟨_, _, _, _, _, _, _, h⟩, hbound => h ▸ hbound
  | .forOf _ _ _ _ _, ⟨_, _, _, _, _, _, _, _, _, h⟩, hbound => by
    obtain ⟨-, -, -, -, -, -, -, -, -, -, -, -, -, -, -, -, rfl⟩ := h
    exact hbound
  | .tryCatch _ _ _, ⟨_, _, _, _, _, _, _, _, _, _, _, _, _, h⟩, hbound => h ▸ hbound
  | .ret _, ⟨_, _, _, _, _, h⟩, hbound => h ▸ hbound

/-- Only a block that disposes has room for a declaration. -/
theorem Stmt.Laid.declares {s : Stmt} (h : s.Laid t rs scope d p scope' q) : s.Declares rs := by
  intro hasync
  cases s with
  | usingIn name hint init =>
    obtain ⟨-, -, -, ⟨awaits, room, outer, hrs⟩, -⟩ := h
    exact ⟨awaits, room + 1, outer, hrs⟩
  | _ => cases hasync

/-- A declaration that may need an await is a declaration. -/
theorem Stmt.isUsing_of_isAwaitUsing {s : Stmt} (h : s.isAwaitUsing = true) : s.isUsing = true := by
  cases s with
  | usingIn _ _ _ => rfl
  | _ => cases h

theorem Stmt.any_isAwaitUsing_eq_false {ss : List Stmt} (h : ¬ ss.any Stmt.isUsing = true) :
    ss.any Stmt.isAwaitUsing = false := by
  rw [List.any_eq_true] at h
  rw [List.any_eq_false]
  exact fun s hs hasync => h ⟨s, hs, Stmt.isUsing_of_isAwaitUsing hasync⟩

/-- A block is covered if its statements are, inside of its region. Its handler counts on
whatever is declared in it. -/
theorem Target.Block.covers {ss : List Stmt} {body : List Shape → (d p q : Nat) → Prop}
    (h : t.Block scope ss rs body d p q) (hle : d ≤ t.maxStack) (hN : N.Inside rs d)
    (hbody : ∀ {rs p q} {N : Nesting}, body rs d p q → N.Inside rs d →
      (N.noting (ss.any Stmt.isAwaitUsing)).Level →
      t.Covers (fun G => G q ((N.noting (ss.any Stmt.isAwaitUsing)).at d) ∧ LoopMarks G rs d N)
        p (N.at d) q) :
    t.Covers (fun G => G q (N.at d) ∧ LoopMarks G rs d N) p (N.at d) q := by
  unfold Target.Block at h
  split at h
  · obtain ⟨m₁, m₂, f, m₃, m₄, henter, hprotect, hstmts, hleave, hend, hswap, hdispose, hexit, hthrow⟩ := h
    generalize ss.any Stmt.isAwaitUsing = final at *
    -- The scope as the handler finds it, and the code of the block inside of it.
    let declared : Nesting := ⟨N.fences, final :: N.scopes⟩
    let guard : Fence := ⟨p + 1, d, final :: N.scopes⟩
    let inner := N.entered.guarded guard
    have hbase : declared.base ≤ d := hN.stands.base_le
    have hnoted : inner.noting final = declared.guarded guard := by
      simp [inner, declared, Nesting.noting, Nesting.guarded, Nesting.entered]
    have hstands : (declared.guarded guard).Stands d := ⟨Nat.le_refl d, .refl (final :: N.scopes)⟩
    have hinner : inner.Inside (.disposable false (ss.countP Stmt.isUsing) :: rs) d :=
      ⟨⟨Nat.le_refl d, .head fun h => absurd h Bool.false_ne_true⟩, Option.some.inj, hN⟩
    have hmay : declared.MayAwait → final = true := Option.some.inj
    have hroom : d + 2 ≤ t.maxStack := hend.le hle
    have henter' : t.Covers (fun G => G (p + 1) (N.entered.at d)) p (N.at d) (p + 1) :=
      henter.covers N 0 hle (by simp [hN.stands.base_le]) rfl
    have hprotect' := hprotect.covers (N := N.entered) (final :: N.scopes) hle hN.stands.base_le (by simp)
    have hstmts' := hbody hstmts hinner (hnoted ▸ hstands.level)
    rw [hnoted] at hstmts'
    have hend' : t.Covers (fun G => G f (declared.at (d + 2))) m₂ ((declared.guarded guard).at d) f :=
      hend.covers (declared.guarded guard) 0 hle (by simp [guard, hbase]) rfl
    have hleave' := (hleave.covers hle hstands hmay).seq hend'
    have hswap' : t.Covers (fun G => G (f + 1) (declared.at (d + 2))) f (declared.at (d + 2)) (f + 1) :=
      hswap.covers declared 2 hroom (by simp [hbase]) rfl
    obtain ⟨hroom', hdispose'⟩ := hdispose.covers (N := declared) hroom (Nat.le_succ_of_le hbase) hmay
    have hexit' : t.Covers (fun G => G m₄ (N.at (d + 2))) m₃ (declared.at (d + 3)) m₄ :=
      hexit.covers declared 3 hroom' (by simp [hbase]) rfl
    have hfinally := hswap'.seq (hdispose'.seq (hexit'.seq (hthrow.covers hroom hN.stands)))
    have hdisposed : t.Covers (fun G => G f (declared.at (d + 2)) ∧ LoopMarks G rs d N)
        (p + 10) (inner.at d) f :=
      hstmts'.trans hleave' (fun _ h => h.1) fun _ h hm => ⟨hm, trivial, h.2⟩
    have hprotected : t.Covers (fun G => G f (declared.at (d + 2)) ∧ LoopMarks G rs d N)
        (p + 1) (N.entered.at d) f :=
      hprotect'.trans hdisposed (fun _ h => h) fun G h hm =>
        ⟨hm, fun _ hc => absurd hc.symm (Option.some_ne_none _), fun _ hf => Option.some.inj hf ▸ h.1⟩
    exact (henter'.seq hprotected).trans hfinally (fun _ h => h.1) fun _ h hf => ⟨hf, h.2⟩
  · rename_i hnone
    simp only [Stmt.any_isAwaitUsing_eq_false hnone, Nesting.noting_false] at hbody
    exact hbody h hN hN.stands.level

theorem Target.BindParam.bound {param : Option String} (h : t.BindParam scope param d p scope' q)
    (hbound : scope.Bound t.localCount) : Scope.Bound scope' t.localCount := by
  cases param with
  | some name =>
    obtain ⟨slot, hfresh, -, rfl⟩ := h
    exact hfresh.bind hbound
  | none =>
    obtain ⟨-, rfl⟩ := h
    exact hbound

theorem Target.BindParam.covers {param : Option String} (h : t.BindParam scope param d p scope' q)
    (hle : d + 1 ≤ t.maxStack) (hN : N.base ≤ d) :
    t.Covers (fun G => G q (N.at d)) p (N.at (d + 1)) q := by
  cases param with
  | some name =>
    obtain ⟨slot, hfresh, hline, -⟩ := h
    exact hline.covers N 1 hle (by simp [hfresh.1, hN]) rfl
  | none => exact h.1.covers N 1 hle (by simp [hN]) rfl

theorem Hint.byte_le (hint : Hint) : hint.byte.toNat ≤ 1 := by cases hint <;> decide

theorem Hint.beq_byte (hint : Hint) : (hint.byte == Hint.async.byte) = (hint == .async) := by
  cases hint <;> decide

/-- With the scope of a round entered, in a loop that declares its values. -/
def Nesting.opened (N : Nesting) : Option Hint → Nesting
  | some hint => ⟨N.fences, (hint == .async) :: N.scopes⟩
  | none => N

/-- A round is opened where what it throws is handled. -/
theorem Target.OpenRound.covers {slot : UInt16} {hint : Option Hint}
    (h : t.OpenRound slot hint d p q) (hslot : slot.toNat < t.localCount) (hle : d ≤ t.maxStack)
    (hN : (N.opened hint).Stands d) :
    t.Covers (fun G => G q ((N.opened hint).at d)) p (N.at d) q := by
  cases hint with
  | some hint =>
    have hnoting : N.entered.noting (hint == .async) = N.opened (some hint) := by
      simp [Nesting.noting, Nesting.entered, Nesting.opened]
    have hentered : N.entered.Level := by
      have hlevel : (N.entered.noting (false || hint == .async)).Level := by
        rw [Bool.false_or, hnoting]
        exact hN.level
      simpa using Nesting.Level.of_noting hlevel
    have hbase : N.base ≤ d := hN.base_le
    have hline := h.2.covers N 0 hle (by simp [hslot, hint.byte_le, hbase, hentered]) rfl
    simpa only [Instr.renestAll, Instr.renests, hint.beq_byte, hnoting, Nat.add_zero] using hline
  | none =>
    obtain rfl : q = p := h
    exact .nil

theorem Target.LeaveRound.covers {hint : Option Hint} (h : t.LeaveRound scope hint d p q)
    (hle : d ≤ t.maxStack) (hN : (N.opened hint).Stands d) :
    t.Covers (fun G => G q (N.at d)) p ((N.opened hint).at d) q := by
  cases hint with
  | some hint =>
    obtain ⟨m, hleave, hline⟩ := h
    exact (hleave.covers hle hN Option.some.inj).seq
      (hline.covers (N.opened (some hint)) 0 hle (by simp [hN.base_le]) rfl)
  | none =>
    obtain rfl : q = p := h
    exact .nil

theorem Target.LeaveRoundByThrow.covers {hint : Option Hint}
    (h : t.LeaveRoundByThrow scope hint d p q) (hle : d + 1 ≤ t.maxStack) (hN : N.base ≤ d) :
    t.Covers (fun G => G q (N.at (d + 1))) p ((N.opened hint).at (d + 1)) q := by
  cases hint with
  | some hint =>
    obtain ⟨m, hleave, hline⟩ := h
    have hbase : (N.opened (some hint)).base ≤ d := hN
    obtain ⟨hroom, hleave'⟩ := hleave.covers hle hbase Option.some.inj
    exact hleave'.seq (hline.covers (N.opened (some hint)) 2 hroom (by simp [hbase]) rfl)
  | none =>
    obtain rfl : q = p := h
    exact .nil

/-- A statement that declares nothing async changes nothing of the scopes. -/
theorem Target.Covers.calm {needs : Marks → Prop} {P : Posture}
    (h : t.Covers (fun G => G q (N.at d) ∧ needs G) p P q) :
    t.Covers (fun G => G q ((N.noting false).at d) ∧ needs G) p P q := by
  rwa [Nesting.noting_false]

/-- Wherever these statements are laid out, they lead behind themselves or to where the loops
around them go on. -/
abbrev Target.CoversAll (t : Target) (ss : List Stmt) : Prop :=
  ∀ {rs : List Shape} {scope : Scope} {d p q : Nat} {N : Nesting}, Stmt.LaidAll t ss rs scope d p q →
    d ≤ t.maxStack → scope.Bound t.localCount → N.Inside rs d →
    (N.noting (ss.any Stmt.isAwaitUsing)).Level →
    t.Covers (fun G => G q ((N.noting (ss.any Stmt.isAwaitUsing)).at d) ∧ LoopMarks G rs d N) p (N.at d) q

/-- A choice leads behind itself if both branches do. -/
theorem Stmt.Laid.covers_ifElse {cond : Expr} {yes no : List Stmt}
    (h : (Stmt.ifElse cond yes no).Laid t rs scope d p scope' q) (hallYes : t.CoversAll yes)
    (hallNo : t.CoversAll no) (hle : d ≤ t.maxStack) (hbound : scope.Bound t.localCount)
    (hN : N.Inside rs d) : t.Covers (fun G => G q (N.at d) ∧ LoopMarks G rs d N) p (N.at d) q := by
  obtain ⟨m₁, m₂, hcond, hyes, hno, -⟩ := h
  obtain ⟨hroom, hcond'⟩ := hcond.covers hle hbound hN.stands
  have hbase := hN.stands.base_le
  have hyes' := hyes.covers hle hN fun h => hallYes h hle hbound
  refine hcond'.covers.seq ?_
  split at hno
  · obtain ⟨hjump, rfl⟩ := hno
    exact (hjump.covers_if (by decide) hroom hbase).trans hyes' (fun _ h => h) fun _ h hm => ⟨hm, h.1⟩
  · obtain ⟨hjump, hover, hno⟩ := hno
    have hno' := hno.covers hle hN fun h => hallNo h hle hbound
    have hyes'' : t.Covers (fun G => G q (N.at d) ∧ LoopMarks G rs d N) (m₁ + 5) (N.at d) (m₂ + 5) :=
      hyes'.trans (hover.covers hle hbase) (fun _ h => h.1) fun _ h hm => ⟨hm, h.2⟩
    have hfirst : t.Covers (fun G => G (m₂ + 5) (N.at d) ∧ G q (N.at d) ∧ LoopMarks G rs d N)
        m₁ (N.at (d + 1)) (m₂ + 5) :=
      (hjump.covers_if (by decide) hroom hbase).trans hyes'' (fun _ h => h.2) fun _ h hm => ⟨hm, h.1⟩
    exact hfirst.trans hno' (fun _ h => h) fun _ h hm => ⟨hm, h⟩

/-- A loop leads behind itself if its body leads to where the loop goes on. -/
theorem Stmt.Laid.covers_whileLoop {label : Option String} {cond : Expr} {body : List Stmt}
    (h : (Stmt.whileLoop label cond body).Laid t rs scope d p scope' q) (hall : t.CoversAll body)
    (hle : d ≤ t.maxStack) (hbound : scope.Bound t.localCount) (hN : N.Inside rs d) :
    t.Covers (fun G => G q (N.at d) ∧ LoopMarks G rs d N) p (N.at d) q := by
  obtain ⟨m₁, m₂, hcond, hjump, hblock, hback, hq, -⟩ := h
  subst hq
  obtain ⟨hroom, hcond'⟩ := hcond.covers hle hbound hN.stands
  have hbase := hN.stands.base_le
  have hinner : N.Inside (.loop label false p (m₂ + 5) :: rs) d := ⟨hN.stands, trivial, hN⟩
  have hblock' := hblock.covers hle hinner fun h => hall h hle hbound
  -- A round leads back to the condition, at its end and where the body continues the loop.
  have hround : t.Covers (fun G => G p (N.at d) ∧ G (m₂ + 5) (N.at d) ∧ LoopMarks G rs d N)
      (m₁ + 5) (N.at d) (m₂ + 5) :=
    hblock'.trans (hback.covers hle hbase) (fun _ h => h.1) fun _ h hm => ⟨hm, ⟨h.1, h.2.1⟩, h.2.2⟩
  have hloop : t.Covers (fun G => G p (N.at d) ∧ G (m₂ + 5) (N.at d) ∧ LoopMarks G rs d N)
      m₁ (N.at (d + 1)) (m₂ + 5) :=
    (hjump.covers_if (by decide) hroom hbase).trans hround (fun _ h => h) fun _ h hm => ⟨hm, h.2.1⟩
  exact (hcond'.trans hloop (fun _ h hp => ⟨hp, h⟩) fun _ _ _ hm => hm).covers

/-- The rounds of a loop over a list have a handler that closes the iterator. -/
theorem Stmt.Laid.covers_forOf {label : Option String} {binding : String} {hint : Option Hint}
    {iterable : Expr} {body : List Stmt}
    (h : (Stmt.forOf label binding hint iterable body).Laid t rs scope d p scope' q)
    (hall : t.CoversAll body) (hle : d ≤ t.maxStack) (hbound : scope.Bound t.localCount)
    (hN : N.Inside rs d) : t.Covers (fun G => G q (N.at d) ∧ LoopMarks G rs d N) p (N.at d) q := by
  obtain ⟨m₀, head, slot, n, m₁, m₂, m₃, m₄, past, h⟩ := h
  obtain ⟨hiterable, hget, hnext, hdone, hfresh, hstore, hprotect, hopen, hblock, hleave, hend,
    hover, hthrown, hrethrow, hback, hpop, -⟩ := h
  have hbase := hN.stands.base_le
  have hbase₁ : N.base ≤ d + 1 := Nat.le_succ_of_le hbase
  have hbase₂ : N.base ≤ d + 2 := Nat.le_succ_of_le hbase₁
  -- The handler of a round counts on the scope of the round.
  let guard : Fence := ⟨head + 9, d + 1, (N.opened hint).scopes⟩
  have hopened : ((N.guarded guard).opened hint).Stands (d + 1) := by
    cases hint <;> exact ⟨Nat.le_refl _, .refl _⟩
  have hhandler : (⟨N.fences, (N.opened hint).scopes⟩ : Nesting) = N.opened hint := by
    cases hint <;> rfl
  have hloops : N.Inside (.loop label true head q :: rs) (d + 1) := ⟨hN.stands.deeper 1, trivial, hN⟩
  have hinner : ((N.guarded guard).opened hint).Inside
      (.iteration (hint.map (· == .async)) :: .loop label true head q :: rs) (d + 1) := by
    cases hint with
    | none => exact ⟨hopened, trivial, hloops⟩
    | some hint => exact ⟨hopened, Option.some.inj, hloops⟩
  obtain ⟨hroom, hiterable'⟩ := hiterable.covers hle hbound hN.stands
  have hget' := hget.covers N 1 hroom (by simp [hbase, hN.stands.level]) rfl
  have hnext' : t.Enters (fun G => G (head + 1) (N.at (d + 3))) head (N.at (d + 1)) (head + 1) :=
    Target.Line.enters (k := 1) hnext hroom (by simp [hbase]) rfl
  have hroom₃ : d + 3 ≤ t.maxStack := hnext.le hroom
  have hroom₂ : d + 2 ≤ t.maxStack := by omega
  have hstore' := hstore.covers N 2 hroom₂ (by simp [hfresh.1, hbase]) rfl
  have hprotect' := hprotect.covers (N.opened hint).scopes hroom hbase₁ (by simp)
  have hopen' := hopen.covers hfresh.1 hroom hopened
  have hblock' := hblock.covers hroom hinner fun h => hall h hroom (hfresh.bind hbound)
  have hend' : t.Covers (fun G => G m₃ (N.at (d + 1))) m₂ ((N.guarded guard).at (d + 1)) m₃ :=
    hend.covers (N.guarded guard) 0 hroom (by simp [guard]) rfl
  have hclosed := (hleave.covers hroom hopened).seq (hend'.seq (hover.covers hroom hbase₁))
  have hrethrow' : t.Covers (fun _ => True) m₄ (N.at (d + 2)) past := by
    obtain ⟨m, hswap, hthrow⟩ := hrethrow.cut [.swap, .iterClose 1]
    have hswap' := hswap.covers N 2 hroom₂ (by simp [hbase]) rfl
    exact hswap'.seq (Target.Line.covers_throw hthrow hroom hN.stands)
  have hcaught := (hthrown.covers hroom₂ hbase₁).seq hrethrow'
  have hpop' := hpop.covers N 2 hroom₂ (by simp [hbase]) rfl
  -- The body, which leads to the jump back and to where the loops go on.
  have hbody : t.Covers (fun G => G past (N.at (d + 1)) ∧ G head (N.at (d + 1)) ∧ G q (N.at d) ∧
      LoopMarks G rs d N) n (((N.guarded guard).opened hint).at (d + 1)) (m₃ + 5) :=
    hblock'.trans hclosed (fun _ h => h.1) fun _ h hm => by
      refine ⟨hm, trivial, ?_⟩
      cases hint <;> exact ⟨⟨h.2.1, h.2.2.1⟩, h.2.2.2⟩
  have hprotected : t.Covers (fun G => G (m₃ + 5) ((N.opened hint).at (d + 2)) ∧
      G past (N.at (d + 1)) ∧ G head (N.at (d + 1)) ∧ G q (N.at d) ∧ LoopMarks G rs d N)
      (head + 9) (N.at (d + 1)) (m₃ + 5) := by
    refine hprotect'.trans (hopen'.seq hbody) (fun _ h => h.2) fun G h hm =>
      ⟨hm, fun c hc => ?_, fun _ hf => absurd hf.symm (Option.some_ne_none _)⟩
    rw [hhandler, ← Option.some.inj hc]
    exact h.1
  have hvalue : t.Covers (fun G => G past (N.at (d + 1)) ∧ G head (N.at (d + 1)) ∧ G q (N.at d) ∧
      LoopMarks G rs d N) (head + 6) (N.at (d + 2)) past :=
    hstore'.seq (hprotected.trans hcaught (fun _ _ => trivial) fun _ h hm => ⟨hm, h⟩)
  have hround : t.Covers (fun G => G head (N.at (d + 1)) ∧ G q (N.at d) ∧ LoopMarks G rs d N)
      (head + 6) (N.at (d + 2)) (past + 5) :=
    hvalue.trans (hback.covers hroom hbase₁) (fun _ h => h.1) fun _ h hm => ⟨hm, h⟩
  have hrounds : t.Covers (fun G => G (past + 5) (N.at (d + 2)) ∧ G head (N.at (d + 1)) ∧
      G q (N.at d) ∧ LoopMarks G rs d N) (head + 1) (N.at (d + 3)) (past + 5) :=
    (hdone.covers_if (by decide) hroom₃ hbase₂).trans hround (fun _ h => h.2) fun _ h hm => ⟨hm, h.1⟩
  have hloop : t.Covers (fun G => G head (N.at (d + 1)) ∧ G q (N.at d) ∧ LoopMarks G rs d N)
      (head + 1) (N.at (d + 3)) q :=
    hrounds.trans hpop' (fun _ h => h.2.1) fun _ h hm => ⟨hm, h⟩
  have hwhole : t.Enters (fun G => G q (N.at d) ∧ LoopMarks G rs d N) head (N.at (d + 1)) q :=
    hnext'.trans hloop (fun _ h hp => ⟨hp, h⟩) fun _ _ _ hm => hm
  exact hiterable'.covers.seq (hget'.seq hwhole.covers)

/-- A handler is found where the protected statements have begun, with an exception. -/
theorem Stmt.Laid.covers_tryCatch {body handler : List Stmt} {param : Option String}
    (h : (Stmt.tryCatch body param handler).Laid t rs scope d p scope' q) (hall : t.CoversAll body)
    (hallHandler : t.CoversAll handler) (hle : d ≤ t.maxStack) (hbound : scope.Bound t.localCount)
    (hN : N.Inside rs d) : t.Covers (fun G => G q (N.at d) ∧ LoopMarks G rs d N) p (N.at d) q := by
  obtain ⟨m₁, m₂, m₃, m₄, scope₁, hprotect, hbody, hend, hover, hroom, hclosing, hparam, hhandler, -⟩ := h
  have hbase := hN.stands.base_le
  let inner := N.guarded ⟨p, d, N.scopes⟩
  have hinner : inner.Inside (.tryCatch :: rs) d := ⟨⟨Nat.le_refl d, .refl _⟩, trivial, hN⟩
  have hprotect' := hprotect.covers N.scopes hle hbase (by simp)
  have hbody' := hbody.covers hle hinner fun h => hall h hle hbound
  have hend' : t.Covers (fun G => G m₂ (N.at d)) m₁ (inner.at d) m₂ :=
    hend.covers inner 0 hle (by simp [inner]) rfl
  have hhandler' := hhandler.covers hle hN fun h => hallHandler h hle (hparam.bound hbound)
  have hclosing' : t.Covers (fun G => G m₃ (N.at (d + 1))) (m₂ + 5) (N.at (d + 1)) m₃ := by
    split at hclosing
    · obtain ⟨n, htest, hjump, hthrow⟩ := hclosing
      have htest' := htest.covers N 1 hroom (by simp [hbase]) rfl
      have hjump' := hjump.covers_if (by decide) (htest.le hroom) (Nat.le_succ_of_le hbase)
      exact htest'.seq (hjump'.trans (hthrow.covers_throw hroom hN.stands) (fun _ _ => trivial)
        fun _ h hm => ⟨hm, h⟩)
    · subst hclosing
      exact .nil
  have hcaught : t.Covers (fun G => G q (N.at d) ∧ LoopMarks G rs d N) (m₂ + 5) (N.at (d + 1)) q :=
    hclosing'.seq ((hparam.covers hroom hbase).seq hhandler')
  have hdone : t.Covers (fun G => G q (N.at d) ∧ LoopMarks G rs d N) (p + 9) (inner.at d) (m₂ + 5) :=
    hbody'.trans (hend'.seq (hover.covers hle hbase)) (fun _ h => h.1) fun _ h hm =>
      ⟨hm, trivial, h.2⟩
  have hprotected : t.Covers (fun G => G (m₂ + 5) (N.at (d + 1)) ∧ G q (N.at d) ∧ LoopMarks G rs d N)
      p (N.at d) (m₂ + 5) :=
    hprotect'.trans hdone (fun _ h => h.2) fun G h hm =>
      ⟨hm, fun _ hc => Option.some.inj hc ▸ h.1, fun _ hf => absurd hf.symm (Option.some_ne_none _)⟩
  exact hprotected.trans hcaught (fun _ h => h) fun _ h hm => ⟨hm, h⟩

mutual

/-- A statement leads behind itself or to where the loops around it go on. -/
theorem Stmt.Laid.covers : ∀ {s : Stmt} {rs : List Shape} {scope scope' : Scope} {d p q : Nat}
    {N : Nesting}, s.Laid t rs scope d p scope' q → d ≤ t.maxStack → scope.Bound t.localCount →
    N.Inside rs d → (N.noting s.isAwaitUsing).Level →
    t.Covers (fun G => G q ((N.noting s.isAwaitUsing).at d) ∧ LoopMarks G rs d N) p (N.at d) q
  | .expr _, _, _, _, _, _, _, N, ⟨_, he, hline, _⟩, hle, hbound, hN, _ => by
    obtain ⟨hroom, he'⟩ := he.covers hle hbound hN.stands
    have hline' := hline.covers N 1 hroom (by simp [hN.stands.base_le]) rfl
    exact .calm ((he'.covers.seq hline').mono fun _ h => h.1)
  | .letIn _ _, _, _, _, _, _, _, N, ⟨_, _, he, hfresh, hline, _⟩, hle, hbound, hN, _ => by
    obtain ⟨hroom, he'⟩ := he.covers hle hbound hN.stands
    have hline' := hline.covers N 1 hroom (by simp [hfresh.1, hN.stands.base_le]) rfl
    exact .calm ((he'.covers.seq hline').mono fun _ h => h.1)
  | .usingIn _ hint _, _, _, _, _, _, _, N,
      ⟨_, _, _, _, _, he, hadd, hfresh, hline, _⟩, hle, hbound, hN, _ => by
    obtain ⟨hroom, he'⟩ := he.covers hle hbound hN.stands
    have hadd' := hadd.covers N 1 hroom (by simp [hint.byte_le, hN.stands.base_le, hN.stands.level]) rfl
    simp only [Instr.renestAll, Instr.renests, hint.beq_byte] at hadd'
    have hline' := hline.covers (N.noting (hint == .async)) 1 hroom
      (by simp [hfresh.1, hN.stands.base_le]) rfl
    exact (he'.covers.seq (hadd'.seq hline')).mono fun _ h => h.1
  | .block _, _, _, _, _, _, _, _, ⟨hblock, _⟩, hle, hbound, hN, _ =>
    .calm (hblock.covers hle hN fun h => Stmt.LaidAll.covers h hle hbound)
  | .ifElse _ _ _, _, _, _, _, _, _, _, h, hle, hbound, hN, _ =>
    .calm (h.covers_ifElse (fun h => Stmt.LaidAll.covers h) (fun h => Stmt.LaidAll.covers h) hle hbound hN)
  | .whileLoop _ _ _, _, _, _, _, _, _, _, h, hle, hbound, hN, _ =>
    .calm (h.covers_whileLoop (fun h => Stmt.LaidAll.covers h) hle hbound hN)
  | .forOf _ _ _ _ _, _, _, _, _, _, _, _, h, hle, hbound, hN, _ =>
    .calm (h.covers_forOf (fun h => Stmt.LaidAll.covers h) hle hbound hN)
  | .tryCatch _ _ _, _, _, _, _, _, _, _, h, hle, hbound, hN, _ =>
    .calm (h.covers_tryCatch (fun h => Stmt.LaidAll.covers h) (fun h => Stmt.LaidAll.covers h) hle hbound hN)
  | .throw _, _, _, _, _, _, _, N, ⟨_, he, hline, _⟩, hle, hbound, hN, _ => by
    obtain ⟨hroom, he'⟩ := he.covers hle hbound hN.stands
    exact (he'.covers.seq (hline.covers_throw hroom hN.stands)).mono fun _ _ => trivial
  | .ret e, _, _, _, d, p, _, N, ⟨m₁, m₂, he, hset, hleaving, _⟩, hle, hbound, hN, _ => by
    have he' : d + 1 ≤ t.maxStack ∧ t.Covers (fun G => G m₁ (N.at (d + 1))) p (N.at d) m₁ := by
      cases e with
      | some e =>
        obtain ⟨hroom, he⟩ := Expr.Laid.covers he hle hbound hN.stands
        exact ⟨hroom, he.covers⟩
      | none =>
        exact ⟨Target.Line.le he hle,
          Target.Line.covers N 0 he hle (by simp [hN.stands.base_le]) rfl⟩
    have hset' := hset.covers N 1 he'.1 (by simp [hN.stands.base_le]) rfl
    exact (he'.2.seq (hset'.seq (hleaving.covers hle hN))).mono fun _ h => h.2
  | .breakLoop _, _, _, _, _, _, _, _, ⟨hleaving, _⟩, hle, _, hN, _
  | .continueLoop _, _, _, _, _, _, _, _, ⟨hleaving, _⟩, hle, _, hN, _ =>
    (hleaving.covers hle hN).mono fun _ h => h.2

theorem Stmt.LaidAll.covers : ∀ {ss : List Stmt} {rs : List Shape} {scope : Scope} {d p q : Nat}
    {N : Nesting}, Stmt.LaidAll t ss rs scope d p q → d ≤ t.maxStack → scope.Bound t.localCount →
    N.Inside rs d → (N.noting (ss.any Stmt.isAwaitUsing)).Level →
    t.Covers (fun G => G q ((N.noting (ss.any Stmt.isAwaitUsing)).at d) ∧ LoopMarks G rs d N)
      p (N.at d) q
  | [], _, _, _, _, _, _, hq, _, _, _, _ => by
    cases hq
    exact .calm (Target.Covers.nil.mono fun _ h => h.1)
  | s :: ss, rs, _, d, _, _, N, ⟨_, m, hs, hss⟩, hle, hbound, hN, hlevel => by
    rw [List.any_cons] at hlevel ⊢
    have hhead : (N.noting s.isAwaitUsing).Level := hlevel.of_noting
    rw [← Nesting.noting_noting] at hlevel ⊢
    have htail := Stmt.LaidAll.covers hss hle (hs.bound hbound) (hN.after hs.declares hhead) hlevel
    exact (hs.covers hle hbound hN hhead).trans htail (fun _ h => ⟨h.1, h.2.after hs.declares⟩)
      fun _ h hm => ⟨hm, h.2⟩

end

end

/-! ### Functions -/

/-- All of the code of a function that is laid out is marked. -/
theorem Declaration.Laid.marked {d : Declaration} {t : Target} (h : d.Laid t) :
    ∃ ss m, t.Marked (ss ++ [⟨⟨m, .retRval⟩, Nesting.bare.at 0⟩]) := by
  obtain ⟨-, hcount, hparams, m, hblock, hline⟩ := h
  obtain ⟨m', hbefore, hlast⟩ := hline.cut [.constUndefined, .setRval]
  have hbound := paramScope_bound hcount hparams
  have hbare : Nesting.bare.Stands 0 := ⟨Nat.le_refl 0, trivial⟩
  have hblock' := hblock.covers (N := .bare) (Nat.zero_le _) hbare fun h =>
    Stmt.LaidAll.covers h (Nat.zero_le _) hbound
  have hbefore' := hbefore.covers .bare 0 (Nat.zero_le _) (by simp) rfl
  obtain ⟨ss, hss, hcovers⟩ : t.Covers (fun G => G m' (Nesting.bare.at 0)) 0 (Nesting.bare.at 0) m' :=
    hblock'.trans hbefore' (fun _ h => h) fun _ _ hm => ⟨hm, trivial⟩
  obtain ⟨hhas, hpops, hafter, -, hsize⟩ := hlast
  let last : Station := ⟨⟨m', .retRval⟩, Nesting.bare.at 0⟩
  have hstretch : t.Stretch 0 (ss ++ [last]) t.code.size := hss.append ⟨rfl, hhas, hsize⟩
  obtain ⟨hhead, htail⟩ := List.forall_mem_append.mp (Station.marks_hold (ss ++ [last]))
  obtain ⟨hentry, hsound⟩ := hcovers _ hhead (htail last (List.mem_singleton_self _))
  refine ⟨ss, m', hstretch, ?_, hentry⟩
  exact List.forall_mem_append.mpr ⟨hsound, List.forall_mem_singleton.mpr
    ⟨rfl, hpops, Nat.zero_le _, hafter, trivial, Nat.le_refl 0, nofun, nofun⟩⟩

/-- A function that is laid out is fit to run. -/
theorem Declaration.Laid.verify {d : Declaration} {f : Function} {t : Target} (h : d.Laid t)
    (hcode : t.code = f.code) (hlocals : t.localCount = f.localCount) (hmax : t.maxStack = f.maxStack) :
    f.verify t.constants = .ok () := by
  obtain ⟨ss, m, hmarked⟩ := h.marked
  exact Function.verify_eq_ok_iff_fit.mpr (hmarked.fit hcode hlocals hmax rfl)

end ResourceMachine
