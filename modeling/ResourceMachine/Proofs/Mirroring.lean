/-
# Frames that are alike

A frame that runs the same function on values that are alike does the same: instruction by
instruction, as long as none faults, it stays alike, throws and suspends alike, and calls
functions of the host alike. It need not have the same room for operands, as long as it has
no less.

Key definitions: `Frame.Alike`, `Exec.Mirrors`, `Progress.Alike`, `Event.Alike`.
Key theorems: `Exec.instr_follows`, `Frame.Alike.resume`, `Activation.Alike.step`.
-/
import ResourceMachine.Proofs.Capacity
import ResourceMachine.Proofs.Computation
import ResourceMachine.Proofs.Likeness
import ResourceMachine.Proofs.Moment

namespace ResourceMachine

variable {σ α β : Type} {ρ ρ' : Pairing}

/-! ### Frames -/

/-- Scopes have registered alike. -/
abbrev Capability.Alike (ρ : Pairing) (c d : Capability) : Prop :=
  List.Forall₂ (Record.Alike ρ) c.resources d.resources

/-- Frames of the same function stand at the same place with values that are alike; the
second one has no less room. -/
structure Frame.Alike (ρ : Pairing) (f g : Frame) : Prop where
  unit : f.unit = g.unit
  index : f.functionIndex = g.functionIndex
  ip : f.ip = g.ip
  room : f.stack.capacity ≤ g.stack.capacity
  stack : Value.AllAlike ρ f.stack.slots g.stack.slots
  locals : ∀ k : Nat, Option.Rel (Value.Alike ρ) f.locals[k]? g.locals[k]?
  rval : f.rval.Alike ρ g.rval
  handlers : f.handlers = g.handlers
  scopes : List.Forall₂ (Capability.Alike ρ) f.scopes g.scopes

/-- Frames are alike, in heaps that are. -/
structure Activation.Alike (ρ : Pairing) (a b : Activation σ) : Prop where
  frame : a.frame.Alike ρ b.frame
  heap : Heap.Alike ρ a.world.heap b.world.heap

/-- What instructions lead to is alike. -/
inductive Next.Alike (ρ : Pairing) : Next → Next → Prop
  | goto (pc : Nat) : Alike ρ (.goto pc) (.goto pc)
  | throw {v w : Value} (h : v.Alike ρ w) : Alike ρ (.throw v) (.throw w)
  | await {v w : Value} (h : v.Alike ρ w) : Alike ρ (.await v) (.await w)
  | yield {v w : Value} (h : v.Alike ρ w) : Alike ρ (.yield v) (.yield w)
  | ret {v w : Value} (h : v.Alike ρ w) : Alike ρ (.ret v) (.ret w)

/-- Runs ended alike, and without a fault. -/
inductive Outcome.Alike (ρ : Pairing) : Outcome → Outcome → Prop
  | completed {v w : Value} (h : v.Alike ρ w) : Alike ρ (.completed v) (.completed w)
  | threw {v w : Value} (h : v.Alike ρ w) : Alike ρ (.threw v) (.threw w)
  | awaits {v w : Value} (h : v.Alike ρ w) : Alike ρ (.awaits v) (.awaits w)
  | yields {v w : Value} (h : v.Alike ρ w) : Alike ρ (.yields v) (.yields w)

/-- Runs are continued alike. -/
inductive Resume.Alike (ρ : Pairing) : Resume → Resume → Prop
  | start : Alike ρ .start .start
  | next {v w : Value} (h : v.Alike ρ w) : Alike ρ (.next v) (.next w)
  | throw {v w : Value} (h : v.Alike ρ w) : Alike ρ (.throw v) (.throw w)
  | ret {v w : Value} (h : v.Alike ρ w) : Alike ρ (.ret v) (.ret w)

theorem Value.AllAlike.getElem? {vs ws : List Value} (h : Value.AllAlike ρ vs ws) (k : Nat) :
    Option.Rel (Value.Alike ρ) vs[k]? ws[k]? := by
  induction h generalizing k with
  | nil => exact .none
  | cons hv _ ih =>
    cases k with
    | zero => exact .some hv
    | succ k => exact ih k

theorem Value.AllAlike.eraseIdx {vs ws : List Value} (h : Value.AllAlike ρ vs ws) (n : Nat) :
    Value.AllAlike ρ (vs.eraseIdx n) (ws.eraseIdx n) := by
  induction h generalizing n with
  | nil => exact .nil
  | cons hv hvs ih =>
    cases n with
    | zero => exact hvs
    | succ n => exact .cons hv (ih n)

theorem Value.AllAlike.insertIdx {v w : Value} (hv : v.Alike ρ w) {vs ws : List Value}
    (h : Value.AllAlike ρ vs ws) (n : Nat) : Value.AllAlike ρ (vs.insertIdx n v) (ws.insertIdx n w) := by
  induction h generalizing n with
  | nil =>
    cases n with
    | zero => exact .cons hv .nil
    | succ n => exact .nil
  | cons hx hvs ih =>
    cases n with
    | zero => exact .cons hv (.cons hx hvs)
    | succ n => exact .cons hx (ih n)

namespace Frame.Alike

variable {f g : Frame}

theorem mono (h : f.Alike ρ g) (hle : ρ ≤ ρ') : f.Alike ρ' g :=
  ⟨h.unit, h.index, h.ip, h.room, h.stack.mono hle, fun k => Value.optAlike_mono hle (h.locals k),
    h.rval.mono hle, h.handlers, h.scopes.imp fun _ _ hc => hc.imp fun _ _ hr => hr.mono hle⟩

theorem withStack (h : f.Alike ρ g) {s t : OperandStack Value} (hroom : s.capacity ≤ t.capacity)
    (hslots : Value.AllAlike ρ s.slots t.slots) :
    ({ f with stack := s } : Frame).Alike ρ { g with stack := t } :=
  ⟨h.unit, h.index, h.ip, hroom, hslots, h.locals, h.rval, h.handlers, h.scopes⟩

theorem withRval (h : f.Alike ρ g) {v w : Value} (hvw : v.Alike ρ w) :
    ({ f with rval := v } : Frame).Alike ρ { g with rval := w } :=
  ⟨h.unit, h.index, h.ip, h.room, h.stack, h.locals, hvw, h.handlers, h.scopes⟩

theorem withHandlers (h : f.Alike ρ g) (H : List Handler) :
    ({ f with handlers := H } : Frame).Alike ρ { g with handlers := H } :=
  ⟨h.unit, h.index, h.ip, h.room, h.stack, h.locals, h.rval, rfl, h.scopes⟩

theorem withScopes (h : f.Alike ρ g) {S T : List Capability}
    (hscopes : List.Forall₂ (Capability.Alike ρ) S T) :
    ({ f with scopes := S } : Frame).Alike ρ { g with scopes := T } :=
  ⟨h.unit, h.index, h.ip, h.room, h.stack, h.locals, h.rval, h.handlers, hscopes⟩

theorem withIp (h : f.Alike ρ g) (pc : Nat) :
    ({ f with ip := pc } : Frame).Alike ρ { g with ip := pc } :=
  ⟨h.unit, h.index, rfl, h.room, h.stack, h.locals, h.rval, h.handlers, h.scopes⟩

theorem locals_size (h : f.Alike ρ g) : f.locals.size = g.locals.size := by
  have hnone (k : Nat) : f.locals[k]? = none ↔ g.locals[k]? = none := by
    match f.locals[k]?, g.locals[k]?, h.locals k with
    | _, _, .some _ => simp
    | _, _, .none => simp
  have hf := hnone f.locals.size
  have hg := hnone g.locals.size
  simp only [Array.getElem?_eq_none_iff] at hf hg
  omega

theorem withLocal (h : f.Alike ρ g) (slot : Nat) {v w : Value} (hvw : v.Alike ρ w) :
    ({ f with locals := f.locals.setIfInBounds slot v } : Frame).Alike ρ
      { g with locals := g.locals.setIfInBounds slot w } := by
  refine ⟨h.unit, h.index, h.ip, h.room, h.stack, fun k => ?_, h.rval, h.handlers, h.scopes⟩
  rw [Array.getElem?_setIfInBounds, Array.getElem?_setIfInBounds, h.locals_size]
  split
  · split
    · exact .some hvw
    · exact .none
  · exact h.locals k

end Frame.Alike

/-- Frames were routed alike; nothing is said where the first one was routed to a fault. -/
inductive Frame.RoutedAlike (ρ : Pairing) : Route × Frame → Route × Frame → Prop
  | goto {f g : Frame} (pc : Nat) (h : f.Alike ρ g) : RoutedAlike ρ (.goto pc, f) (.goto pc, g)
  | escaped {f g : Frame} {o o' : Outcome} (ho : o.Alike ρ o') (h : f.Alike ρ g) :
      RoutedAlike ρ (.escaped o, f) (.escaped o', g)
  | failed {f : Frame} {e : Fault} {r : Route × Frame} : RoutedAlike ρ (.escaped (.failed e), f) r

namespace Frame.Alike

variable {f g : Frame}

theorem enter (h : f.Alike ρ g) (pc : Nat) {vs ws : List Value} (hvs : Value.AllAlike ρ vs ws) :
    RoutedAlike ρ (f.enter pc vs) (g.enter pc ws) := by
  induction hvs generalizing f g with
  | nil => exact .goto pc h
  | cons hv _ ih =>
    have hdepth : f.stack.depth = g.stack.depth := h.stack.length_eq
    have hroom := h.room
    rw [Frame.enter, Frame.enter, OperandStack.push, OperandStack.push]
    by_cases hfull : f.stack.capacity ≤ f.stack.depth
    · rw [if_pos hfull]
      exact .failed
    · rw [if_neg hfull, if_neg (by omega)]
      exact ih (h.withStack hroom (.cons hv h.stack))

/-- An exception that nothing handles ends runs alike. -/
theorem escape (h : f.Alike ρ g) {e e' : Value} (he : e.Alike ρ e') :
    (f.escape e).Alike ρ (g.escape e') := by
  have hthrew := he
  cases he with
  | @primitive _ hv =>
    cases e
    case closing => exact .completed h.rval
    all_goals exact .threw hthrew
  | _ => exact .threw hthrew

theorem unwindThrough {e e' : Value} (he : e.Alike ρ e') : ∀ (H : List Handler) {f g : Frame},
    f.Alike ρ g → RoutedAlike ρ (f.unwindThrough e H) (g.unwindThrough e' H)
  | [], _, _, h => .escaped (h.escape he) (h.withHandlers [])
  | ⟨onCatch, onFinally, depth⟩ :: H, f, g, h => by
    have hdepth : f.stack.depth = g.stack.depth := h.stack.length_eq
    have hdrop : ({ f with stack := f.stack.truncate depth, handlers := H } : Frame).Alike ρ
        { g with stack := g.stack.truncate depth, handlers := H } := by
      have hslots : Value.AllAlike ρ (f.stack.truncate depth).slots (g.stack.truncate depth).slots := by
        rw [OperandStack.truncate, OperandStack.truncate, hdepth]
        exact List.forall₂_drop _ h.stack
      exact (h.withStack (s := f.stack.truncate depth) (t := g.stack.truncate depth) h.room hslots).withHandlers H
    match onCatch, onFinally with
    | some pc, _ => exact hdrop.enter pc (.cons he .nil)
    | none, some pc => exact hdrop.enter pc (.cons he (.cons (.bool true) .nil))
    | none, none => exact unwindThrough he H hdrop

theorem unwind (h : f.Alike ρ g) {e e' : Value} (he : e.Alike ρ e') :
    RoutedAlike ρ (f.unwind e) (g.unwind e') := by
  rw [Frame.unwind, Frame.unwind, h.handlers]
  exact unwindThrough he _ h

/-- Frames that are resumed alike are routed alike. -/
theorem resume (h : f.Alike ρ g) {mode mode' : Resume} (hmode : mode.Alike ρ mode') :
    RoutedAlike ρ (f.resume mode) (g.resume mode') := by
  cases hmode with
  | start =>
    rw [Frame.resume, Frame.resume, h.ip]
    exact .goto _ h
  | next hv =>
    rw [Frame.resume, Frame.resume, h.ip]
    exact h.enter _ (.cons hv .nil)
  | throw he => exact h.unwind he
  | ret hv => exact (h.withRval hv).unwind .closing

end Frame.Alike

/-! ### Computations of the machine -/

namespace Exec

/-- Where two computations have ended that started alike: if the first one has not faulted,
they have ended alike, and their values are as `Q` says. -/
inductive Mirrors (ρ : Pairing) (Q : Pairing → α → α → Prop) (a₁ a₂ : Activation σ) :
    EStateM.Result Fault (Activation σ) α → EStateM.Result Fault (Activation σ) α → Prop
  | ok {ρ' : Pairing} {x y : α} {b₁ b₂ : Activation σ}
      (grows : ρ.Grows a₁.world.heap a₂.world.heap ρ' b₁.world.heap b₂.world.heap)
      (alike : b₁.Alike ρ' b₂) (same : Q ρ' x y) : Mirrors ρ Q a₁ a₂ (.ok x b₁) (.ok y b₂)
  | error {e : Fault} {b : Activation σ} {r : EStateM.Result Fault (Activation σ) α} :
      Mirrors ρ Q a₁ a₂ (.error e b) r

/-- A computation does the same as another one, as long as it does not fault. -/
def Follows (ρ : Pairing) (Q : Pairing → α → α → Prop) (m₁ m₂ : Exec σ α) : Prop :=
  ∀ a₁ a₂ : Activation σ, a₁.Alike ρ a₂ → Mirrors ρ Q a₁ a₂ (m₁ a₁) (m₂ a₂)

/-- A computation that makes no entities does the same as another one. -/
abbrev Reads (ρ : Pairing) (P : α → α → Prop) (m₁ m₂ : Exec σ α) : Prop :=
  Follows ρ (fun ρ' x y => ρ' = ρ ∧ P x y) m₁ m₂

namespace Follows

variable {P : Pairing → α → α → Prop} {Q : Pairing → β → β → Prop} {R : α → α → Prop}
  {m₁ m₂ : Exec σ α} {k₁ k₂ : α → Exec σ β}

theorem pure {x y : α} (h : P ρ x y) : Follows ρ P (Pure.pure x : Exec σ α) (Pure.pure y) :=
  fun _ _ ha => .ok (.refl _ _ _) ha h

theorem throw {f : Fault} {m : Exec σ α} : Follows ρ P (MonadExcept.throw f : Exec σ α) m :=
  fun _ _ _ => .error

theorem bind (hm : Follows ρ P m₁ m₂)
    (hk : ∀ ρ' x y, ρ ≤ ρ' → P ρ' x y → Follows ρ' Q (k₁ x) (k₂ y)) :
    Follows ρ Q (m₁ >>= k₁) (m₂ >>= k₂) := by
  intro a₁ a₂ ha
  have hmirrors := hm a₁ a₂ ha
  show Mirrors ρ Q a₁ a₂ (EStateM.bind m₁ k₁ a₁) (EStateM.bind m₂ k₂ a₂)
  unfold EStateM.bind
  match m₁ a₁, m₂ a₂, hmirrors with
  | .error _ _, _, _ => exact .error
  | .ok x b₁, .ok y b₂, .ok grows alike same =>
    have hmirrors' := hk _ x y grows.le same b₁ b₂ alike
    show Mirrors ρ Q a₁ a₂ (k₁ x b₁) (k₂ y b₂)
    match k₁ x b₁, k₂ y b₂, hmirrors' with
    | _, _, .error => exact .error
    | _, _, .ok grows' alike' same' => exact .ok (grows.trans grows') alike' same'

theorem map {g₁ g₂ : α → β} (hm : Follows ρ P m₁ m₂)
    (hg : ∀ ρ' x y, ρ ≤ ρ' → P ρ' x y → Q ρ' (g₁ x) (g₂ y)) :
    Follows ρ Q (g₁ <$> m₁) (g₂ <$> m₂) :=
  hm.bind fun ρ' x y hle h => pure (hg ρ' x y hle h)

/-- A computation that goes on after one that makes no entities. -/
theorem step (hm : Reads ρ R m₁ m₂) (hk : ∀ x y, R x y → Follows ρ Q (k₁ x) (k₂ y)) :
    Follows ρ Q (m₁ >>= k₁) (m₂ >>= k₂) := by
  refine hm.bind fun ρ' x y _ h => ?_
  obtain ⟨rfl, h⟩ := h
  exact hk x y h

end Follows

namespace Reads

variable {P : α → α → Prop}

theorem pure {x y : α} (h : P x y) : Reads ρ P (Pure.pure x : Exec σ α) (Pure.pure y) :=
  Follows.pure ⟨rfl, h⟩

theorem frame : Reads ρ (Frame.Alike ρ) (Exec.frame : Exec σ Frame) Exec.frame :=
  fun _ _ ha => .ok (.refl _ _ _) ha ⟨rfl, ha.frame⟩

theorem onFrame {F G : Frame → Frame} (h : ∀ f g, f.Alike ρ g → (F f).Alike ρ (G g)) :
    Reads ρ (fun _ _ => True) (Exec.onFrame F : Exec σ Unit) (Exec.onFrame G) :=
  fun _ _ ha => .ok (.refl _ _ _) ⟨h _ _ ha.frame, ha.heap⟩ ⟨rfl, trivial⟩

theorem check (x : Except Fault α) : Reads ρ Eq (Exec.check x : Exec σ α) (Exec.check x) := by
  cases x with
  | ok v => exact pure rfl
  | error e => exact Follows.throw

theorem onStack {F G : OperandStack Value → Except Fault (OperandStack Value)}
    (h : ∀ s t s', s.capacity ≤ t.capacity → Value.AllAlike ρ s.slots t.slots → F s = .ok s' →
      ∃ t', G t = .ok t' ∧ s'.capacity ≤ t'.capacity ∧ Value.AllAlike ρ s'.slots t'.slots) :
    Reads ρ (fun _ _ => True) (Exec.onStack F : Exec σ Unit) (Exec.onStack G) := by
  intro a₁ a₂ ha
  unfold Exec.onStack
  cases hs : F a₁.frame.stack with
  | error e => exact .error
  | ok s' =>
    obtain ⟨t', ht, hroom, hslots⟩ := h _ _ s' ha.frame.room ha.frame.stack hs
    rw [ht]
    exact .ok (.refl _ _ _) ⟨ha.frame.withStack hroom hslots, ha.heap⟩ ⟨rfl, trivial⟩

theorem push {v w : Value} (hvw : v.Alike ρ w) :
    Reads ρ (fun _ _ => True) (Exec.push v : Exec σ Unit) (Exec.push w) := by
  refine onStack fun s t s' hroom hslots hs => ?_
  have hdepth : s.depth = t.depth := hslots.length_eq
  unfold OperandStack.push at hs ⊢
  split at hs
  · cases hs
  · cases hs
    rw [if_neg (by omega)]
    exact ⟨_, rfl, hroom, .cons hvw hslots⟩

theorem pop : Reads ρ (Value.Alike ρ) (Exec.pop : Exec σ Value) Exec.pop := by
  rintro ⟨⟨unit, index, ip, ⟨st, cap⟩, L, rv, H, sc⟩, w⟩ ⟨⟨unit', index', ip', ⟨st', cap'⟩, L', rv', H', sc'⟩, w'⟩
    ha
  cases ha.frame.stack with
  | nil => exact .error
  | cons hv hst => exact .ok (.refl _ _ _) ⟨ha.frame.withStack ha.frame.room hst, ha.heap⟩ ⟨rfl, hv⟩

theorem peekAt (n : Nat) : Reads ρ (Value.Alike ρ) (Exec.peekAt n : Exec σ Value) (Exec.peekAt n) := by
  intro a₁ a₂ ha
  unfold Exec.peekAt OperandStack.peekAt
  match a₁.frame.stack.slots[n]?, a₂.frame.stack.slots[n]?, ha.frame.stack.getElem? n with
  | _, _, .some hv => exact .ok (.refl _ _ _) ha ⟨rfl, hv⟩
  | _, _, .none => exact .error

theorem dropAll : ∀ n : Nat, Reads ρ (fun _ _ => True) (Exec.dropAll n : Exec σ Unit) (Exec.dropAll n)
  | 0 => pure trivial
  | n + 1 => pop.step fun _ _ _ => dropAll n

theorem popAll (n : Nat) : Reads ρ (Value.AllAlike ρ) (Exec.popAll n : Exec σ (List Value)) (Exec.popAll n) :=
  go n .nil
where
  /-- Operands are taken off one by one. -/
  go : ∀ (n : Nat) {vs ws : List Value}, Value.AllAlike ρ vs ws →
      Reads ρ (Value.AllAlike ρ) (Exec.popAll.go n vs : Exec σ (List Value)) (Exec.popAll.go n ws)
    | 0, _, _, h => pure h
    | n + 1, _, _, h => pop.step fun _ _ hv => go n (.cons hv h)

theorem constant (index : UInt32) :
    Reads ρ Eq (Exec.constant index : Exec σ String) (Exec.constant index) := by
  refine frame.step fun f g hfg => ?_
  rw [hfg.unit]
  split
  · exact pure rfl
  · exact Follows.throw

theorem onScope {missing : Fault} {F G : Capability → α × Capability}
    (h : ∀ c d : Capability, c.Alike ρ d → P (F c).1 (G d).1 ∧ Capability.Alike ρ (F c).2 (G d).2) :
    Reads ρ P (Exec.onScope missing F : Exec σ α) (Exec.onScope missing G) := by
  refine frame.step fun f g hfg => ?_
  match f.scopes, g.scopes, hfg.scopes with
  | _, _, .nil => exact Follows.throw
  | _, _, .cons hc houter =>
    obtain ⟨hx, hc'⟩ := h _ _ hc
    exact (onFrame fun _ _ hfg => hfg.withScopes (.cons hc' houter)).step fun _ _ _ => pure hx

end Reads

namespace Follows

variable {Q : Pairing → α → α → Prop}

theorem onHeap {m₁ m₂ : OnHeap Fault α} (h : Corresponds id ρ (fun _ _ _ => True) Q m₁ m₂) :
    Follows ρ Q (Exec.onHeap m₁ : Exec σ α) (Exec.onHeap m₂) := by
  rintro ⟨f, w₁, s₁⟩ ⟨g, w₂, s₂⟩ ⟨hframe, hheap⟩
  have hagree := h w₁ w₂ hheap
  simp only [Exec.onHeap, World.onHeap]
  generalize m₁ w₁ = r₁ at hagree ⊢
  generalize m₂ w₂ = r₂ at hagree ⊢
  cases hagree with
  | ok grows alike same => exact .ok grows ⟨hframe.mono grows.le, alike⟩ same
  | error => exact .error

theorem settle {m₁ m₂ : Guest σ α} (h : Corresponds World.heap ρ Value.Alike Q m₁ m₂) :
    Follows ρ (Value.ResultAlike Q) (Exec.settle m₁) (Exec.settle m₂) := by
  rintro ⟨f, w₁⟩ ⟨g, w₂⟩ ⟨hframe, hheap⟩
  have hagree := h w₁ w₂ hheap
  simp only [Exec.settle, Guest.settle]
  generalize m₁ w₁ = r₁ at hagree ⊢
  generalize m₂ w₂ = r₂ at hagree ⊢
  cases hagree with
  | ok grows alike same => exact .ok grows ⟨hframe.mono grows.le, alike⟩ (.ok same)
  | error grows alike same => exact .ok grows ⟨hframe.mono grows.le, alike⟩ (.error same)

/-! ### Families of instructions -/

section

variable {next codeSize : Nat} {env : Env σ}

/-- A family of instructions does the same. -/
abbrev Instruction (ρ : Pairing) (m₁ m₂ : Exec σ Next) : Prop := Follows ρ Next.Alike m₁ m₂

theorem goto (pc : Nat) : Instruction ρ (Pure.pure (.goto pc) : Exec σ Next) (Pure.pure (.goto pc)) :=
  pure (.goto pc)

theorem pushThen {v w : Value} (h : v.Alike ρ w) :
    Instruction ρ (Exec.pushThen next v : Exec σ Next) (Exec.pushThen next w) :=
  (Reads.push h).step fun _ _ _ => goto next

theorem throwNew (kind : ErrorKind) (message : String) :
    Instruction ρ (Exec.throwNew kind message : Exec σ Next) (Exec.throwNew kind message) :=
  (onHeap (Heap.newError_corresponds kind message)).bind fun _ _ _ _ h => pure (.throw h)

theorem onFrameThen {F G : Frame → Frame} (h : ∀ f g, f.Alike ρ g → (F f).Alike ρ (G g)) :
    Instruction ρ (do
      Exec.onFrame F
      Pure.pure (.goto next) : Exec σ Next) (do
      Exec.onFrame G
      Pure.pure (.goto next)) :=
  (Reads.onFrame h).step fun _ _ _ => goto next

theorem shuffle {F : OperandStack Value → Except Fault (OperandStack Value)}
    (h : ∀ s t s', s.capacity ≤ t.capacity → Value.AllAlike ρ s.slots t.slots → F s = .ok s' →
      ∃ t', F t = .ok t' ∧ s'.capacity ≤ t'.capacity ∧ Value.AllAlike ρ s'.slots t'.slots) :
    Instruction ρ (Exec.shuffle next F : Exec σ Next) (Exec.shuffle next F) :=
  (Reads.onStack h).step fun _ _ _ => goto next

theorem count (op : Opcode) (f : Int32 → Int32) :
    Instruction ρ (Exec.count next op f : Exec σ Next) (Exec.count next op f) := by
  refine Reads.pop.step fun v w hvw => ?_
  cases hvw with
  | @primitive v hv =>
    cases v
    case int n => exact pushThen (.int _)
    all_goals exact throw
  | _ => exact throw

theorem atLeast : Instruction ρ (Exec.atLeast next : Exec σ Next) (Exec.atLeast next) := by
  refine Reads.pop.step fun b d hb => Reads.pop.step fun a c ha => ?_
  cases ha with
  | @primitive a h =>
    cases a
    case int n =>
      cases hb with
      | @primitive b h =>
        cases b
        case int m => exact pushThen (.bool _)
        all_goals exact throw
      | _ => exact throw
    all_goals exact throw
  | _ => exact throw

theorem jumpIf (wanted : Bool) (distance : Int32) :
    Instruction ρ (Exec.jumpIf codeSize next wanted distance : Exec σ Next)
      (Exec.jumpIf codeSize next wanted distance) := by
  refine Reads.pop.step fun v w hvw => ?_
  rw [hvw.isTruthy_eq]
  split
  · exact (Reads.check _).map fun _ x y _ h => h.2 ▸ .goto x
  · exact goto next

theorem loadLocal (slot : UInt16) :
    Instruction ρ (Exec.loadLocal next slot : Exec σ Next) (Exec.loadLocal next slot) := by
  refine Reads.frame.step fun f g hfg => ?_
  match f.locals[slot.toNat]?, g.locals[slot.toNat]?, hfg.locals slot.toNat with
  | _, _, .some hv => exact pushThen hv
  | _, _, .none => exact throw

theorem storeLocal (slot : UInt16) :
    Instruction ρ (Exec.storeLocal next slot : Exec σ Next) (Exec.storeLocal next slot) := by
  refine Reads.pop.step fun v w hvw => Reads.frame.step fun f g hfg => ?_
  rw [hfg.locals_size]
  split
  · exact onFrameThen fun f g hfg => hfg.withLocal slot.toNat hvw
  · exact throw

theorem loadGlobal (hglobals : ∀ name v, env.globals.get? name = some v → v.Alike ρ v) (index : UInt32) :
    Instruction ρ (Exec.loadGlobal env next index) (Exec.loadGlobal env next index) := by
  refine (Reads.constant index).step fun name _ hname => ?_
  subst hname
  split
  · exact pushThen (hglobals _ _ ‹_›)
  · exact throwNew _ _

/-- A call does the same where the functions are alike and the host is pure. -/
theorem call {base : Pairing} (hhost : env.host.Pure base) (hbase : base ≤ ρ) (argc : Nat) :
    Instruction ρ (Exec.call env next argc) (Exec.call env next argc) := by
  refine (Reads.popAll argc).step fun args args' hargs => Reads.pop.step fun receiver receiver' hreceiver =>
    Reads.pop.step fun callee callee' hcallee => ?_
  cases hcallee with
  | function hf =>
    refine (settle (Callable.call_corresponds hhost hbase hf hreceiver hargs)).bind fun ρ' x y _ h => ?_
    cases h with
    | ok hv => exact pushThen hv
    | error he => exact pure (.throw he)
  | primitive hv =>
    cases callee
    case function => cases hv
    all_goals exact throwNew _ _
  | _ => exact throwNew _ _

theorem element : Instruction ρ (Exec.element next : Exec σ Next) (Exec.element next) := by
  refine Reads.pop.step fun index index' hindex => Reads.pop.step fun items items' hitems => ?_
  have hlist := hitems
  cases hitems with
  | list =>
    obtain ⟨_, _, heq, hitems⟩ := hlist.of_list
    cases heq
    cases hindex with
    | primitive =>
      cases index
      case int n =>
        refine pushThen (Value.optAlike_getD ?_)
        split
        · exact .none
        · exact hitems.getElem? _
      all_goals exact throw
    | _ => exact throw
  | primitive hv =>
    cases items
    case list => cases hv
    all_goals exact throw
  | _ => exact throw

theorem iterator : Instruction ρ (Exec.iterator next : Exec σ Next) (Exec.iterator next) := by
  refine Reads.pop.step fun v w hvw => ?_
  have hlist := hvw
  cases hvw with
  | list =>
    obtain ⟨_, _, heq, hitems⟩ := hlist.of_list
    cases heq
    have hcursor : (Cursor.ofList _ none).Alike ρ (.ofList _ none) := ⟨hitems, rfl, rfl, .none⟩
    exact (onHeap (Heap.newIterator_corresponds hcursor)).bind fun _ _ _ _ h => pushThen h
  | iterator => exact pushThen hlist
  | primitive hv =>
    cases v
    case list | iterator => cases hv
    all_goals exact throwNew _ _
  | _ => exact throwNew _ _

theorem iterNext : Instruction ρ (Exec.iterNext next : Exec σ Next) (Exec.iterNext next) := by
  refine (Reads.peekAt 0).step fun v w hvw => ?_
  cases hvw with
  | iterator hid =>
    refine (onHeap (Heap.nextItem_corresponds hid)).bind fun _ item item' _ hitem => ?_
    cases hitem with
    | some h => exact (Reads.push h).step fun _ _ _ => pushThen (.bool false)
    | none => exact (Reads.push .undefined).step fun _ _ _ => pushThen (.bool true)
  | primitive hv =>
    cases v
    case iterator => cases hv
    all_goals exact throw
  | _ => exact throw

theorem iterClose (onThrow : Bool) :
    Instruction ρ (Exec.iterClose next onThrow : Exec σ Next) (Exec.iterClose next onThrow) := by
  refine Reads.pop.step fun v w hvw => ?_
  cases hvw with
  | iterator hid =>
    refine (onHeap (Heap.closeIterator_corresponds hid)).bind
      fun _ error error' _ herror => ?_
    cases herror with
    | none => exact goto next
    | some he =>
      cases onThrow with
      | true => exact goto next
      | false => exact pure (.throw he)
  | primitive hv =>
    cases v
    case iterator => cases hv
    all_goals exact throw
  | _ => exact throw

theorem popScope : Instruction ρ (Exec.popScope next : Exec σ Next) (Exec.popScope next) := by
  refine Reads.frame.step fun f g hfg => ?_
  match f.scopes, g.scopes, hfg.scopes with
  | _, _, .nil => exact throw
  | _, _, .cons _ houter => exact onFrameThen fun _ _ hfg => hfg.withScopes houter

theorem addDisposable (byte : UInt8) :
    Instruction ρ (Exec.addDisposable next byte : Exec σ Next) (Exec.addDisposable next byte) := by
  unfold Exec.addDisposable
  split
  · exact throw
  · refine Reads.pop.step fun v w hvw => ?_
    refine (settle (World.onHeap_corresponds (createResource_corresponds hvw _))).bind fun ρ' x y _ h => ?_
    cases h with
    | error he => exact pure (.throw he)
    | ok hr =>
      refine (Reads.onScope (P := fun _ _ => True) fun c d hcd => ⟨trivial, ?_⟩).step fun _ _ _ => goto next
      cases hr with
      | none => exact hcd
      | some hr => exact List.rel_append hcd (.cons hr .nil)

theorem takeCapability : Instruction ρ (Exec.takeCapability next : Exec σ Next) (Exec.takeCapability next) := by
  refine (Reads.onScope (P := List.Forall₂ (Record.Alike ρ)) fun c d hcd => ⟨hcd, .nil⟩).step fun rs ss hrs => ?_
  have hlength := hrs.length_eq
  refine (onHeap (Heap.newResources_corresponds hrs)).bind
    fun ρ' records records' _ hrecords => ?_
  rw [hlength]
  split
  · exact throw
  · refine (onHeap (Heap.newList_corresponds hrecords)).bind fun _ _ _ _ hlist => ?_
    exact (Reads.push hlist).step fun _ _ _ => pushThen (.int _)

theorem resourceField (byte : UInt8) :
    Instruction ρ (Exec.resourceField next byte : Exec σ Next) (Exec.resourceField next byte) := by
  unfold Exec.resourceField
  split
  · exact throw
  · rename_i field _
    refine Reads.pop.step fun v w hvw => ?_
    have hrecord := hvw
    cases hvw with
    | resource | bare =>
      obtain ⟨_, _, heq, hr⟩ := hrecord.of_resource
      cases heq
      cases field with
      | value => exact pushThen hr.value
      | hint => exact pushThen (.int _)
      | method => exact pushThen (Value.optAlike_getD hr.method)
    | primitive hv =>
      cases v
      case resource => cases hv
      all_goals exact throw
    | _ => exact throw

theorem chainError (unwrapClosing : Bool) :
    Instruction ρ (Exec.chainError next unwrapClosing : Exec σ Next) (Exec.chainError next unwrapClosing) := by
  refine Reads.pop.step fun throwing throwing' hthrowing => Reads.pop.step fun pending pending' hpending =>
    Reads.pop.step fun error error' herror => ?_
  rw [hthrowing.isTruthy_eq]
  exact (onHeap (Heap.chain_corresponds throwing'.isTruthy unwrapClosing hpending herror)).bind
    fun _ _ _ _ h => pushThen h

theorem tryStart (onCatch onFinally : Int32) :
    Instruction ρ (Exec.tryStart codeSize next onCatch onFinally : Exec σ Next)
      (Exec.tryStart codeSize next onCatch onFinally) := by
  refine (Reads.check _).step fun c c' hc => (Reads.check _).step fun d d' hd => ?_
  subst hc hd
  refine onFrameThen fun f g hfg => ?_
  have hdepth : f.stack.depth = g.stack.depth := hfg.stack.length_eq
  rw [hfg.handlers, hdepth]
  exact hfg.withHandlers _

theorem endTry : Instruction ρ (Exec.endTry next : Exec σ Next) (Exec.endTry next) := by
  refine Reads.frame.step fun f g hfg => ?_
  rw [hfg.handlers]
  split
  · exact onFrameThen fun _ _ hfg => hfg.withHandlers _
  · exact throw

theorem popToRval : Reads ρ (Value.Alike ρ) (Exec.popToRval : Exec σ Value) Exec.popToRval :=
  Reads.pop.step fun _ _ hv => (Reads.onFrame fun _ _ hfg => hfg.withRval hv).step fun _ _ _ => Reads.pure hv

end

end Follows
end Exec

/-! ### Instructions -/

section

variable {env : Env σ} {base : Pairing} {codeSize next : Nat}

/-- What surrounds a run is known to all: the host is pure, and globals hold nothing but
what is paired from the start. -/
structure Env.Common (env : Env σ) (base : Pairing) : Prop where
  host : env.host.Pure base
  globals : ∀ name v, env.globals.get? name = some v → v.Alike base v

/-- Every instruction does the same on frames that are alike. -/
theorem Exec.instr_follows (h : env.Common base) (hbase : base ≤ ρ) :
    ∀ i : Instr, Exec.Follows.Instruction ρ (Exec.instr env codeSize next i) (Exec.instr env codeSize next i)
  | .nop => .goto _
  | .pop => (Reads.dropAll 1).step fun _ _ _ => .goto _
  | .popN n => (Reads.dropAll n.toNat).step fun _ _ _ => .goto _
  | .dup => (Reads.peekAt 0).step fun _ _ hv => .pushThen hv
  | .dup2 => (Reads.peekAt 1).step fun _ _ ha => (Reads.peekAt 0).step fun _ _ hb =>
    (Reads.push ha).step fun _ _ _ => .pushThen hb
  | .dupAt n => (Reads.peekAt n.toNat).step fun _ _ hv => .pushThen hv
  | .swap => .shuffle fun ⟨st, cap⟩ ⟨st', cap'⟩ s' hroom hslots hs => by
    cases hslots with
    | nil => cases hs
    | cons ha hslots =>
      cases hslots with
      | nil => cases hs
      | cons hb hst =>
        cases hs
        exact ⟨_, rfl, hroom, .cons hb (.cons ha hst)⟩
  | .pick n => .shuffle fun s t s' hroom hslots hs => by
    have hpicked := hslots.getElem? n.toNat
    unfold OperandStack.pick at hs ⊢
    split at hs
    · rename_i v hv
      rw [hv] at hpicked
      cases hs
      generalize t.slots[n.toNat]? = w at hpicked ⊢
      cases hpicked with
      | some hv => exact ⟨_, rfl, hroom, .cons hv (hslots.eraseIdx n.toNat)⟩
    · cases hs
  | .unpick n => .shuffle fun ⟨st, cap⟩ ⟨st', cap'⟩ s' hroom hslots hs => by
    unfold OperandStack.unpick at hs ⊢
    cases hslots with
    | nil => cases hs
    | cons hv hst =>
      have hlength := hst.length_eq
      simp only at hs ⊢
      split at hs
      · cases hs
        rw [if_pos (by omega)]
        exact ⟨_, rfl, hroom, Value.AllAlike.insertIdx hv hst n.toNat⟩
      · cases hs
  | .constUndefined | .constNull | .constTrue | .constFalse | .constI32 _ => .pushThen (.primitive rfl)
  | .constStr index => (Reads.constant index).step fun _ _ hname => .pushThen (hname ▸ .primitive rfl)
  | .loadLocal slot => .loadLocal slot
  | .storeLocal slot => .storeLocal slot
  | .loadGlobal index => .loadGlobal (fun name v hv => (h.globals name v hv).mono hbase) index
  | .getRval => Reads.frame.step fun _ _ hfg => .pushThen hfg.rval
  | .setRval => Exec.Follows.popToRval.step fun _ _ _ => .goto _
  | .not => Reads.pop.step fun _ _ hv => .pushThen (hv.isTruthy_eq ▸ .bool _)
  | .and => Reads.pop.step fun _ _ hb => Reads.pop.step fun _ _ ha =>
    .pushThen (hb.isTruthy_eq ▸ ha.isTruthy_eq ▸ .bool _)
  | .inc => .count _ _
  | .dec => .count _ _
  | .ige => .atLeast
  | .isNullish => Reads.pop.step fun _ _ hv => .pushThen (hv.isNullish_eq ▸ .bool _)
  | .isClosing => Reads.pop.step fun v w hv => by
    cases hv with
    | primitive => cases v <;> exact .pushThen (.bool _)
    | _ => exact .pushThen (.bool _)
  | .jmp _ => (Reads.check _).map fun _ x _ _ hx => hx.2 ▸ .goto x
  | .jmpIfFalse d => .jumpIf false d
  | .jmpIfTrue d => .jumpIf true d
  | .retRval => Reads.frame.step fun _ _ hfg => .pure (.ret hfg.rval)
  | .call argc => .call h.host hbase argc.toNat
  | .getElem => .element
  | .getIterator => .iterator
  | .iterNext => .iterNext
  | .iterClose _ => .iterClose _
  | .pushDisposeScope => .onFrameThen fun _ _ hfg => hfg.withScopes (.cons .nil hfg.scopes)
  | .popDisposeScope => .popScope
  | .addDisposable byte => .addDisposable byte
  | .takeDisposeCapability => .takeCapability
  | .resourceField byte => .resourceField byte
  | .chainDisposeError _ => .chainError _
  | .await => Exec.Follows.popToRval.map fun _ _ _ _ hv => .await (hv.1 ▸ hv.2)
  | .yield => Exec.Follows.popToRval.map fun _ _ _ _ hv => .yield (hv.1 ▸ hv.2)
  | .throw => Reads.pop.map fun _ _ _ _ hv => .throw (hv.1 ▸ hv.2)
  | .tryStart c f => .tryStart c f
  | .endTry => .endTry

end

/-! ### Events -/

/-- What happens to tasks is alike. -/
inductive Event.Alike (ρ : Pairing) : Event → Event → Prop
  | call {origin : Origin} {f g : Callable} {r r' : Value} {args args' : List Value}
      {result result' : Except Value Value} (hf : f.Alike ρ g) (hreceiver : r.Alike ρ r')
      (hargs : Value.AllAlike ρ args args') (hresult : Value.ResultAlike Value.Alike ρ result result') :
      Alike ρ (.call origin f r args result) (.call origin g r' args' result')
  | next {a b : Nat} {item item' : Option Value} (h : ρ .iterator a b)
      (hitem : Option.Rel (Value.Alike ρ) item item') : Alike ρ (.next a item) (.next b item')
  | close {a b : Nat} {error error' : Option Value} (h : ρ .iterator a b)
      (herror : Option.Rel (Value.Alike ρ) error error') : Alike ρ (.close a error) (.close b error')
  | register {r s : Resource} (h : r.Alike ρ s) : Alike ρ (.register r) (.register s)
  | exitScope {rs ss : List Resource} (h : List.Forall₂ (Record.Alike ρ) rs ss) :
      Alike ρ (.exitScope rs) (.exitScope ss)
  | await {v w : Value} (h : v.Alike ρ w) : Alike ρ (.suspend (.await v)) (.suspend (.await w))
  | yield {v w : Value} (h : v.Alike ρ w) : Alike ρ (.suspend (.yield v)) (.suspend (.yield w))
  | resume {a b : Answer} (h : a.mode.Alike ρ b.mode) : Alike ρ (.resume a) (.resume b)
  | raise {v w : Value} (h : v.Alike ρ w) : Alike ρ (.raise v) (.raise w)
  | returns {v w : Value} (h : v.Alike ρ w) : Alike ρ (.returns v) (.returns w)

theorem Resume.Alike.mono (h : ρ ≤ ρ') {mode mode' : Resume} (hmode : mode.Alike ρ mode') :
    mode.Alike ρ' mode' := by
  cases hmode with
  | start => exact .start
  | next hv => exact .next (hv.mono h)
  | throw he => exact .throw (he.mono h)
  | ret hv => exact .ret (hv.mono h)

theorem Resume.Alike.join {m₁ m₂ m : Resume} (h : m₁.Alike ρ m) (h' : m₂.Alike ρ' m) :
    m₁.Alike (ρ.join ρ') m₂ := by
  cases h with
  | start => cases h'; exact .start
  | next h => cases h' with | next h' => exact .next (h.join h')
  | throw h => cases h' with | throw h' => exact .throw (h.join h')
  | ret h => cases h' with | ret h' => exact .ret (h.join h')

/-- What happened alike stays so when more entities are paired. -/
theorem Event.Alike.mono (h : ρ ≤ ρ') {e e' : Event} (he : e.Alike ρ e') : e.Alike ρ' e' := by
  cases he with
  | call hf hreceiver hargs hresult =>
    refine .call (hf.mono h) (hreceiver.mono h) (hargs.mono h) ?_
    cases hresult with
    | ok hv => exact .ok (hv.mono h)
    | error hv => exact .error (hv.mono h)
  | next hid hitem => exact .next (h _ _ _ hid) (Value.optAlike_mono h hitem)
  | close hid herror => exact .close (h _ _ _ hid) (Value.optAlike_mono h herror)
  | register hr => exact .register (hr.mono h)
  | exitScope hrs => exact .exitScope (hrs.imp fun _ _ hr => hr.mono h)
  | await hv => exact .await (hv.mono h)
  | yield hv => exact .yield (hv.mono h)
  | resume ha => exact .resume (ha.mono h)
  | raise hv => exact .raise (hv.mono h)
  | returns hv => exact .returns (hv.mono h)

/-- What happened alike to something that happened is alike. -/
theorem Event.Alike.join {e₁ e₂ e : Event} (h : e₁.Alike ρ e) (h' : e₂.Alike ρ' e) :
    e₁.Alike (ρ.join ρ') e₂ := by
  cases h with
  | call hf hreceiver hargs hresult =>
    cases h' with
    | call hf' hreceiver' hargs' hresult' =>
      refine .call (hf.join hf') (hreceiver.join hreceiver') (hargs.join hargs') ?_
      cases hresult with
      | ok hv => cases hresult' with | ok hv' => exact .ok (hv.join hv')
      | error hv => cases hresult' with | error hv' => exact .error (hv.join hv')
  | next hid hitem =>
    cases h' with
    | next hid' hitem' => exact .next ⟨_, hid, hid'⟩ (Value.optAlike_join hitem hitem')
  | close hid herror =>
    cases h' with
    | close hid' herror' => exact .close ⟨_, hid, hid'⟩ (Value.optAlike_join herror herror')
  | register hr => cases h' with | register hr' => exact .register (hr.join hr')
  | exitScope hrs =>
    cases h' with
    | exitScope hrs' => exact .exitScope (forall₂_join (fun _ _ _ h h' => h.join h') hrs hrs')
  | await hv => cases h' with | await hv' => exact .await (hv.join hv')
  | yield hv => cases h' with | yield hv' => exact .yield (hv.join hv')
  | resume ha => cases h' with | resume ha' => exact .resume (ha.join ha')
  | raise hv => cases h' with | raise hv' => exact .raise (hv.join hv')
  | returns hv => cases h' with | returns hv' => exact .returns (hv.join hv')

/-- Histories are alike, event by event. -/
abbrev Event.AllAlike (ρ : Pairing) : List Event → List Event → Prop := List.Forall₂ (Event.Alike ρ)

theorem Event.AllAlike.mono (h : ρ ≤ ρ') {es es' : List Event} (hes : Event.AllAlike ρ es es') :
    Event.AllAlike ρ' es es' := hes.imp fun _ _ he => he.mono h

theorem Event.AllAlike.join {es es' es'' : List Event} (h : Event.AllAlike ρ es es'')
    (h' : Event.AllAlike ρ' es' es'') : Event.AllAlike (ρ.join ρ') es es' :=
  forall₂_join (fun _ _ _ h h' => h.join h') h h'

namespace Exec

variable {env : Env σ} {next n : Nat} {a b : Activation σ}

/-- Operands are taken off one by one. -/
theorem popAll_go_eq_ok : ∀ {n : Nat} {vs args : List Value} {a b : Activation σ},
    popAll.go n vs a = .ok args b →
    args = (a.frame.stack.slots.take n).reverse ++ vs ∧
      b.frame.stack.slots = a.frame.stack.slots.drop n ∧ b.world = a.world
  | 0, vs, args, a, b, h => by
    cases h
    exact ⟨rfl, rfl, rfl⟩
  | n + 1, vs, args, a, b, h => by
    obtain ⟨⟨unit, index, ip, ⟨st, cap⟩, L, rv, H, sc⟩, w⟩ := a
    cases st with
    | nil => cases h
    | cons v st =>
      obtain ⟨hargs, hslots, hworld⟩ := popAll_go_eq_ok
        (show popAll.go n (v :: vs) ⟨⟨unit, index, ip, ⟨st, cap⟩, L, rv, H, sc⟩, w⟩ = .ok args b from h)
      exact ⟨by simp [hargs], hslots, hworld⟩

theorem slots_of_push {v : Value} (h : (push v : Exec σ Unit) a = .ok () b) :
    b.frame.stack.slots = v :: a.frame.stack.slots := by
  unfold push onStack OperandStack.push at h
  split at h
  · rename_i hs
    simp only at hs
    split at hs
    · cases hs
    · cases hs
      cases h
      rfl
  · cases h

/-- What a call comes to is pushed or thrown. -/
theorem call_eq_ok {x : Next} {argc : Nat} {receiver : Value} {f : Callable} {rest : List Value}
    (h : call env next argc a = .ok x b)
    (hslots : a.frame.stack.slots.drop argc = receiver :: .function f :: rest) :
    (∃ v, ((f.call env.host receiver (a.frame.stack.slots.take argc).reverse).settle a.world).1 = .ok v ∧
      x = .goto next ∧ b.frame.stack.slots = v :: rest) ∨
    ∃ e, ((f.call env.host receiver (a.frame.stack.slots.take argc).reverse).settle a.world).1 = .error e ∧
      x = .throw e := by
  obtain ⟨args, a', hpop, h⟩ := bind_eq_ok.mp h
  obtain ⟨rfl, hst, hworld⟩ := popAll_go_eq_ok hpop
  obtain ⟨⟨unit, index, ip, ⟨st, cap⟩, L, rv, H, sc⟩, w⟩ := a'
  obtain rfl : w = a.world := hworld
  obtain rfl : st = _ := hst.trans hslots
  rw [List.append_nil] at h
  obtain ⟨_, _, hreceiver, h⟩ := bind_eq_ok.mp h
  cases hreceiver
  obtain ⟨_, _, hcallee, h⟩ := bind_eq_ok.mp h
  cases hcallee
  obtain ⟨result, a', hsettle, h⟩ := bind_eq_ok.mp h
  have hresult : ((f.call env.host receiver (a.frame.stack.slots.take argc).reverse).settle a.world).1 = result := by
    cases hsettle
    rfl
  have hrest : a'.frame.stack.slots = rest := by
    cases hsettle
    rfl
  cases result with
  | error e =>
    cases h
    exact .inr ⟨e, hresult, rfl⟩
  | ok v =>
    obtain ⟨_, _, hpush, h⟩ := bind_eq_ok.mp h
    cases h
    exact .inl ⟨v, hresult, rfl, by rw [slots_of_push hpush, hrest]⟩

/-- What is registered stands last in the innermost scope. -/
theorem addDisposable_eq_ok {x : Next} {byte : UInt8} {hint : Hint} {v : Value} {st : List Value}
    {r : Resource} {h' : Heap} {c : Capability} {outer : List Capability}
    (h : addDisposable next byte a = .ok x b) (hbyte : Hint.ofByte? byte = some hint)
    (hslots : a.frame.stack.slots = v :: st) (hscopes : a.frame.scopes = c :: outer)
    (hr : createResource v hint a.world.heap = .ok (some r) h') : b.frame.scopes = c.add r :: outer := by
  obtain ⟨⟨unit, index, ip, ⟨slots, cap⟩, L, rv, H, sc⟩, ⟨heap, s⟩⟩ := a
  obtain rfl : slots = v :: st := hslots
  obtain rfl : sc = c :: outer := hscopes
  unfold addDisposable at h
  rw [hbyte] at h
  obtain ⟨_, _, hpop, h⟩ := bind_eq_ok.mp h
  cases hpop
  obtain ⟨result, _, hsettle, h⟩ := bind_eq_ok.mp h
  simp only [settle, Guest.settle, World.onHeap, show createResource v hint heap = .ok (some r) h' from hr] at hsettle
  cases hsettle
  cases h
  rfl

end Exec

namespace Activation.Alike

variable {env : Env σ} {code : Bytes} {next pc : Nat} {a₁ a₂ b₁ b₂ : Activation σ} {x₁ x₂ : Next}

/-- A call of a function is told alike if what it comes to is alike. -/
theorem events_call (ha : a₁.Alike ρ a₂) (hle : ρ ≤ ρ') (hb : b₁.Alike ρ' b₂) (hx : x₁.Alike ρ' x₂)
    {argc : UInt8} (h₁ : Exec.call env next argc.toNat a₁ = .ok x₁ b₁)
    (h₂ : Exec.call env next argc.toNat a₂ = .ok x₂ b₂) :
    Event.AllAlike ρ' (a₁.eventsOf env code pc (.call argc)) (a₂.eventsOf env code pc (.call argc)) := by
  have hdrop := List.forall₂_drop argc.toNat ha.frame.stack
  have hargs : Value.AllAlike ρ (a₁.frame.stack.slots.take argc.toNat).reverse
      (a₂.frame.stack.slots.take argc.toNat).reverse :=
    List.forall₂_reverse_iff.mpr (List.forall₂_take argc.toNat ha.frame.stack)
  have hresult₁ {receiver f rest} (hslots : a₁.frame.stack.slots.drop argc.toNat = receiver :: .function f :: rest) :=
    Exec.call_eq_ok h₁ hslots
  have hresult₂ {receiver f rest} (hslots : a₂.frame.stack.slots.drop argc.toNat = receiver :: .function f :: rest) :=
    Exec.call_eq_ok h₂ hslots
  rw [eventsOf_call, eventsOf_call]
  generalize a₁.frame.stack.slots.drop argc.toNat = st₁ at hdrop hresult₁ ⊢
  generalize a₂.frame.stack.slots.drop argc.toNat = st₂ at hdrop hresult₂ ⊢
  cases hdrop with
  | nil => exact .nil
  | cons hreceiver hdrop =>
    cases hdrop with
    | nil => exact .nil
    | @cons callee _ _ _ hcallee hrest =>
      cases hcallee with
      | @function f g hf =>
        refine .cons (.call (hf.mono hle) (hreceiver.mono hle) (hargs.mono hle) ?_) .nil
        have hstack := hb.frame.stack
        rcases hresult₁ rfl with ⟨v, hv, rfl, hslots⟩ | ⟨e, he, rfl⟩
        · rcases hresult₂ rfl with ⟨w, hw, rfl, hslots'⟩ | ⟨e, -, rfl⟩
          · rw [hv, hw]
            rw [hslots, hslots'] at hstack
            cases hstack with
            | cons hvw => exact .ok hvw
          · cases hx
        · rcases hresult₂ rfl with ⟨w, -, rfl, -⟩ | ⟨e', he', rfl⟩
          · cases hx
          · rw [he, he']
            cases hx with
            | throw h => exact .error h
      | primitive hv =>
        cases callee
        case function => cases hv
        all_goals exact .nil
      | _ => exact .nil

/-- A registration is told alike if what is registered is alike. -/
theorem events_addDisposable (ha : a₁.Alike ρ a₂) (hb : b₁.Alike ρ' b₂) {byte : UInt8}
    (h₁ : Exec.addDisposable next byte a₁ = .ok x₁ b₁) (h₂ : Exec.addDisposable next byte a₂ = .ok x₂ b₂) :
    Event.AllAlike ρ' (a₁.eventsOf env code pc (.addDisposable byte))
      (a₂.eventsOf env code pc (.addDisposable byte)) := by
  have hstack := ha.frame.stack
  have hscopes := ha.frame.scopes
  have hheap := ha.heap
  rw [eventsOf_addDisposable, eventsOf_addDisposable]
  cases hbyte : Hint.ofByte? byte with
  | none => exact .nil
  | some hint =>
    generalize hs₁ : a₁.frame.stack.slots = st₁ at hstack ⊢
    generalize hs₂ : a₂.frame.stack.slots = st₂ at hstack ⊢
    generalize hc₁ : a₁.frame.scopes = sc₁ at hscopes ⊢
    generalize hc₂ : a₂.frame.scopes = sc₂ at hscopes ⊢
    cases hstack with
    | nil => exact .nil
    | @cons v w _ _ hv hst =>
      cases hscopes with
      | nil => exact .nil
      | cons hc houter =>
        have hagree : Agree id ρ _ _ _ _ (createResource v hint a₁.world.heap)
            (createResource w hint a₂.world.heap) := createResource_corresponds hv hint _ _ hheap
        simp only
        generalize hr₁ : createResource v hint a₁.world.heap = r₁ at hagree ⊢
        generalize hr₂ : createResource w hint a₂.world.heap = r₂ at hagree ⊢
        cases hagree with
        | error => exact .nil
        | ok _ _ same =>
          cases same with
          | none => exact .nil
          | some =>
            have hregistered := hb.frame.scopes
            rw [Exec.addDisposable_eq_ok h₁ hbyte hs₁ hc₁ hr₁,
              Exec.addDisposable_eq_ok h₂ hbyte hs₂ hc₂ hr₂] at hregistered
            cases hregistered with
            | cons hcap _ =>
              have hlast := List.forall₂_reverse_iff.mpr hcap
              simp only [Capability.add, List.reverse_append, List.reverse_singleton, List.singleton_append] at hlast
              cases hlast with
              | cons hrs _ => exact .cons (.register hrs) .nil

/-- Where an instruction is executed alike, what it does to the surroundings is told alike. -/
theorem eventsOf (ha : a₁.Alike ρ a₂) (hle : ρ ≤ ρ') (hb : b₁.Alike ρ' b₂) (hx : x₁.Alike ρ' x₂) {i : Instr}
    (h₁ : Exec.instr env code.size next i a₁ = .ok x₁ b₁) (h₂ : Exec.instr env code.size next i a₂ = .ok x₂ b₂) :
    Event.AllAlike ρ' (a₁.eventsOf env code pc i) (a₂.eventsOf env code pc i) := by
  have hstack := ha.frame.stack
  cases i with
  | call argc => exact ha.events_call hle hb hx h₁ h₂
  | addDisposable byte => exact ha.events_addDisposable hb h₁ h₂
  | iterNext =>
    rw [eventsOf_iterNext, eventsOf_iterNext]
    generalize a₁.frame.stack.slots = st₁ at hstack ⊢
    generalize a₂.frame.stack.slots = st₂ at hstack ⊢
    cases hstack with
    | nil => exact .nil
    | @cons v _ _ _ hv _ =>
      cases hv with
      | iterator h =>
        exact .cons (.next (hle _ _ _ h) (Value.optAlike_mono hle (ha.heap.cursors h).next.1)) .nil
      | primitive hv =>
        cases v
        case iterator => cases hv
        all_goals exact .nil
      | _ => exact .nil
  | iterClose byte =>
    rw [eventsOf_iterClose, eventsOf_iterClose]
    generalize a₁.frame.stack.slots = st₁ at hstack ⊢
    generalize a₂.frame.stack.slots = st₂ at hstack ⊢
    cases hstack with
    | nil => exact .nil
    | @cons v _ _ _ hv _ =>
      cases hv with
      | iterator h =>
        exact .cons (.close (hle _ _ _ h) (Value.optAlike_mono hle (ha.heap.cursors h).close.1)) .nil
      | primitive hv =>
        cases v
        case iterator => cases hv
        all_goals exact .nil
      | _ => exact .nil
  | popDisposeScope =>
    rw [eventsOf_popDisposeScope, eventsOf_popDisposeScope]
    match a₁.frame.scopes, a₂.frame.scopes, ha.frame.scopes with
    | _, _, .nil => exact .nil
    | _, _, .cons hc _ => exact .cons (.exitScope (hc.imp fun _ _ hr => hr.mono hle)) .nil
  | await =>
    rw [eventsOf_await, eventsOf_await]
    match a₁.frame.stack.slots, a₂.frame.stack.slots, hstack with
    | _, _, .nil => exact .nil
    | _, _, .cons hv _ => exact .cons (.await (hv.mono hle)) .nil
  | yield =>
    rw [eventsOf_yield, eventsOf_yield]
    match a₁.frame.stack.slots, a₂.frame.stack.slots, hstack with
    | _, _, .nil => exact .nil
    | _, _, .cons hv _ => exact .cons (.yield (hv.mono hle)) .nil
  | setRval =>
    rw [eventsOf_setRval, eventsOf_setRval]
    match a₁.frame.stack.slots, a₂.frame.stack.slots, hstack with
    | _, _, .nil => exact .nil
    | _, _, .cons hv _ =>
      simp only
      split
      · exact .nil
      · exact .cons (.returns (hv.mono hle)) .nil
  | _ => exact .nil

end Activation.Alike

/-! ### Runs -/

/-- Runs have come to the same. -/
inductive Progress.Alike (ρ : Pairing) : Progress σ → Progress σ → Prop
  | running {a b : Activation σ} (pc : Nat) (h : a.Alike ρ b) : Alike ρ (.running pc a) (.running pc b)
  | halted {a b : Activation σ} {o o' : Outcome} (ho : o.Alike ρ o') (h : a.Alike ρ b) :
      Alike ρ (.halted o a) (.halted o' b)

/-- Whether a run has come to its end with a fault. -/
def Progress.Failed (p : Progress σ) : Prop := ∃ f a, p = .halted (.failed f) a

namespace Activation.Alike

variable {env : Env σ} {base : Pairing} {code : Bytes} {pc : Nat} {a b : Activation σ}

theorem withFrame (h : a.Alike ρ b) {f g : Frame} (hfg : f.Alike ρ g) :
    ({ a with frame := f } : Activation σ).Alike ρ { b with frame := g } := ⟨hfg, h.heap⟩

theorem keepIp (h : a.Alike ρ b) (pc : Nat) : (a.keepIp pc).Alike ρ (b.keepIp pc) :=
  h.withFrame (h.frame.withIp pc)

/-- Frames that were routed alike go on alike. -/
theorem routed (h : a.Alike ρ b) {r s : Route × Frame} (hrs : Frame.RoutedAlike ρ r s) :
    (a.routed r).Failed ∨ (a.routed r).Alike ρ (b.routed s) := by
  cases hrs with
  | goto pc hfg => exact .inr (.running pc (h.withFrame hfg))
  | escaped ho hfg => exact .inr (.halted ho (h.withFrame hfg))
  | failed => exact .inl ⟨_, _, rfl⟩

theorem throw (h : a.Alike ρ b) (next : Nat) {e e' : Value} (he : e.Alike ρ e') :
    (a.throw next e).Failed ∨ (a.throw next e).Alike ρ (b.throw next e') := by
  have hroute := h.frame.unwind he
  unfold Activation.throw
  generalize a.frame.unwind e = r at hroute ⊢
  generalize b.frame.unwind e' = s at hroute ⊢
  cases hroute with
  | goto pc hfg => exact .inr (.running pc (h.withFrame hfg))
  | escaped ho hfg => exact .inr (.halted ho ((h.withFrame hfg).keepIp next))
  | failed => exact .inl ⟨_, _, rfl⟩

theorem follow (h : a.Alike ρ b) (next : Nat) {x y : Next} (hxy : x.Alike ρ y) :
    (a.follow next x).Failed ∨ (a.follow next x).Alike ρ (b.follow next y) := by
  cases hxy with
  | goto pc => exact .inr (.running pc h)
  | throw he => exact h.throw next he
  | await hv => exact .inr (.halted (.awaits hv) (h.keepIp next))
  | yield hv => exact .inr (.halted (.yields hv) (h.keepIp next))
  | ret hv => exact .inr (.halted (.completed hv) (h.keepIp next))

/-- What an instruction raises is alike where it is executed alike. -/
theorem raised {a' b' : Activation σ} {x y : Next} {i : Instr}
    (ha : Exec.instr env code.size (pc + i.size) i a = .ok x a')
    (hb : Exec.instr env code.size (pc + i.size) i b = .ok y b') (hxy : x.Alike ρ y) :
    Event.AllAlike ρ (a.raised env code pc i) (b.raised env code pc i) := by
  unfold Activation.raised
  rw [ha, hb]
  cases hxy with
  | throw he =>
    simp only
    split
    · exact .nil
    · exact .cons (.raise he) .nil
  | _ => exact .nil

/-- **An instruction does the same** on activations that are alike, and what it does to the
surroundings is told alike, unless it fails. -/
theorem step (h : a.Alike ρ b) (henv : env.Common base) (hbase : base ≤ ρ) :
    (a.step env code pc).Failed ∨ ∃ ρ', ρ.Grows a.world.heap b.world.heap ρ'
        (a.step env code pc).activation.world.heap (b.step env code pc).activation.world.heap ∧
      (a.step env code pc).Alike ρ' (b.step env code pc) ∧
      Event.AllAlike ρ' (a.events env code pc) (b.events env code pc) := by
  unfold Activation.step Activation.events Instr.readAt
  cases hop : Instr.opcodeAt code pc with
  | error e => exact .inl ⟨_, _, rfl⟩
  | ok op =>
    cases hi : Instr.ofOperandsAt code (pc + 1) op with
    | error e =>
      simp only [hi]
      exact .inl ⟨_, _, rfl⟩
    | ok i =>
      simp only [bind, Except.bind, hi, Activation.perform]
      have hfollows : Exec.Follows ρ Next.Alike (Exec.instr env code.size (pc + i.size) i) _ :=
        Exec.instr_follows henv hbase i
      have hmirrors := hfollows a b h
      generalize hx : Exec.instr env code.size (pc + i.size) i a = r at hmirrors ⊢
      generalize hy : Exec.instr env code.size (pc + i.size) i b = s at hmirrors ⊢
      cases hmirrors with
      | error => exact .inl ⟨_, _, rfl⟩
      | @ok ρ' x y a' b' grows alike same =>
        rcases alike.follow (pc + i.size) same with hfailed | hsame
        · exact .inl hfailed
        · refine .inr ⟨ρ', ?_, hsame, List.rel_append ?_ (raised hx hy same)⟩
          · rwa [Activation.world_follow, Activation.world_follow]
          · exact h.eventsOf grows.le alike same hx hy

end Activation.Alike
end ResourceMachine
