/-
# The stack effect of an instruction

The machine keeps to the table of stack effects: an instruction after which execution
continues takes what the table says off the operand stack and puts on it what the table
says, it wants for an operand only if there are fewer than it takes, and it goes on behind
itself or where it jumps. Handlers come and go with `TRY_START` and `END_TRY` only.

`Shifts` says so of a computation by what it does to the depth of the stack and to the
handlers, which is put together along the computation.

Key definitions: `Shifts`, `Instr.Leads`, `Instr.Faults`.
Key theorem: `Exec.instr_shifts`.
-/
import ResourceMachine.Proofs.Session
import ResourceMachine.Proofs.Computation
import ResourceMachine.Proofs.Placement

namespace ResourceMachine

variable {σ α β : Type}

/-! ### The effect of an instruction -/

/-- A fault that has nothing to do with missing operands, with what is executed next or with
the budget. -/
def Fault.Plain : Fault → Prop
  | .stackUnderflow | .jumpOutOfBounds _ _ | .invalidOpcode _ | .unexpectedEnd _
  | .budgetExceeded _ => False
  | _ => True

namespace Instr

/-- The distance of a jump. -/
def jumpDistance? : Instr → Option Int32
  | .jmp d | .jmpIfFalse d | .jmpIfTrue d => some d
  | _ => none

/-- The distances that an instruction works out when it is executed. -/
def distances : Instr → List Int32
  | .jmp d | .jmpIfFalse d | .jmpIfTrue d => [d]
  | .tryStart c f => [c, f].filter (0 ≤ ·.toInt)
  | _ => []

theorem mem_distances {i : Instr} {d : Int32} (h : d ∈ i.distances) : i.jumpDistance? = some d ∨
    ∃ c f, i = .tryStart c f ∧ (d = c ∨ d = f) ∧ 0 ≤ d.toInt := by
  unfold distances at h
  split at h
  · exact .inl (congrArg some (List.mem_singleton.mp h).symm)
  · exact .inl (congrArg some (List.mem_singleton.mp h).symm)
  · exact .inl (congrArg some (List.mem_singleton.mp h).symm)
  · rename_i c f
    obtain ⟨hmem, hnonneg⟩ := List.mem_filter.mp h
    exact .inr ⟨c, f, rfl, by simpa using hmem, by simpa using hnonneg⟩
  · exact absurd h List.not_mem_nil

/-- Where execution goes on after an instruction that ends at `next`. -/
def GoesTo (i : Instr) (size next pc : Nat) : Prop :=
  match i with
  | .jmp d => Exec.target size next d = .ok pc
  | .jmpIfFalse d | .jmpIfTrue d => pc = next ∨ Exec.target size next d = .ok pc
  | .throw | .retRval => False
  | _ => pc = next

/-- Whether execution may go on behind an instruction. -/
def FallsThrough : Instr → Prop
  | .jmp _ | .throw | .retRval => False
  | _ => True

theorem fallsThrough_of_ne {i : Instr} (hjmp : ∀ d, i = .jmp d → False) (hthrow : i = .throw → False)
    (hret : i = .retRval → False) : i.FallsThrough := by
  cases i with
  | jmp d => exact (hjmp d rfl).elim
  | throw => exact (hthrow rfl).elim
  | retRval => exact (hret rfl).elim
  | _ => trivial

/-- Execution goes on behind an instruction or where it jumps. -/
theorem goesTo_cases {i : Instr} {size next pc : Nat} (h : i.GoesTo size next pc) :
    (i.FallsThrough ∧ pc = next) ∨
      ∃ d, i.jumpDistance? = some d ∧ Exec.target size next d = .ok pc := by
  cases i with
  | jmp d => exact .inr ⟨d, rfl, h⟩
  | jmpIfFalse d | jmpIfTrue d =>
    rcases h with h | h
    · exact .inl ⟨trivial, h⟩
    · exact .inr ⟨d, rfl, h⟩
  | throw | retRval => exact h.elim
  | _ => exact .inl ⟨trivial, h⟩

/-- What becomes of the handlers at an instruction that is executed at depth `n`. -/
def Rehandles (i : Instr) (size next n : Nat) (H H' : List Handler) : Prop :=
  match i with
  | .tryStart c f => ∃ onCatch onFinally, Exec.handlerTarget? size next c = .ok onCatch ∧
      Exec.handlerTarget? size next f = .ok onFinally ∧ H' = ⟨onCatch, onFinally, n⟩ :: H
  | .endTry => ∃ h, H = h :: H'
  | _ => H' = H

/-- Handlers are installed and removed one at a time. -/
theorem rehandles_cases {i : Instr} {size next n : Nat} {H H' : List Handler}
    (h : i.Rehandles size next n H H') :
    (∃ c f onCatch onFinally, i = .tryStart c f ∧ Exec.handlerTarget? size next c = .ok onCatch ∧
      Exec.handlerTarget? size next f = .ok onFinally ∧ H' = ⟨onCatch, onFinally, n⟩ :: H) ∨
    (∃ h, H = h :: H') ∨ H' = H := by
  cases i with
  | tryStart c f =>
    obtain ⟨onCatch, onFinally, hc, hf, hH⟩ := h
    exact .inl ⟨c, f, onCatch, onFinally, rfl, hc, hf, hH⟩
  | endTry => exact .inr (.inl h)
  | _ => exact .inr (.inr h)

/-- The effect of an instruction that counts by its operand byte. -/
theorem stackEffect_byte {i : Instr} {b : UInt8} (h : i.operands = [(b.toNat : Int)]) :
    i.stackEffect = i.opcode.stackEffect b.toNat := by
  rw [stackEffect, operand, h, List.headD_cons, operand_byte]

/-- What an instruction may lead to from depth `n` and handlers `H`. -/
def Leads (i : Instr) (size next n : Nat) (H : List Handler) : Next → Nat → List Handler → Prop
  | .goto pc, n', H' => i.stackEffect.pops ≤ n ∧ n' = n - i.stackEffect.pops + i.stackEffect.pushes ∧
      i.GoesTo size next pc ∧ i.Rehandles size next n H H'
  | .throw _, n', H' => n' ≤ n ∧ H' = H
  | .await _, n', H' => n = n' + 1 ∧ H' = H ∧ i = .await
  | .yield _, n', H' => n = n' + 1 ∧ H' = H ∧ i = .yield
  | .ret _, n', H' => n' ≤ n ∧ H' = H

/-- What an instruction may fault with at depth `n`, with `n'` values left. -/
def Faults (i : Instr) (size next n : Nat) (e : Fault) (n' : Nat) : Prop :=
  n' ≤ max n (n - i.stackEffect.pops + i.stackEffect.pushes) ∧
    match e with
    | .stackUnderflow => n < i.stackEffect.pops
    | .jumpOutOfBounds t o =>
      o = next ∧ ∃ d ∈ i.distances, t = (next : Int) + d.toInt ∧ (t < 0 ∨ (size : Int) < t)
    | .invalidOpcode _ | .unexpectedEnd _ | .budgetExceeded _ => False
    | _ => True

section

variable {i : Instr} {size next n n' pops pushes : Nat} {H : List Handler}

theorem leads_next (heffect : i.stackEffect = ⟨pops, pushes⟩) (hgo : i.GoesTo size next next)
    (hH : i.Rehandles size next n H H) (hpops : pops ≤ n) (hn' : n' = n - pops + pushes) :
    i.Leads size next n H (.goto next) n' H := by
  refine ⟨?_, ?_, hgo, hH⟩
  · rwa [heffect]
  · rwa [heffect]

theorem faults_plain {e : Fault} (heffect : i.stackEffect = ⟨pops, pushes⟩) (he : e.Plain)
    (hn' : n' ≤ max n (n - pops + pushes)) : i.Faults size next n e n' := by
  refine ⟨by rwa [heffect], ?_⟩
  cases e with
  | stackUnderflow | jumpOutOfBounds | invalidOpcode | unexpectedEnd | budgetExceeded => exact he.elim
  | _ => trivial

theorem faults_underflow (heffect : i.stackEffect = ⟨pops, pushes⟩) (hlt : n < pops) (hn' : n' ≤ n) :
    i.Faults size next n .stackUnderflow n' := by
  refine ⟨Nat.le_trans hn' (Nat.le_max_left _ _), ?_⟩
  show n < i.stackEffect.pops
  rwa [heffect]

end

end Instr

/-! ### Computations that move the depth -/

/-- A computation that starts at depth `n` with handlers `H` ends with a value, a depth and
handlers as `Q` says, or with a fault and a depth as `E` says. -/
def Shifts (n : Nat) (H : List Handler) (m : Exec σ α) (Q : α → Nat → List Handler → Prop)
    (E : Fault → Nat → Prop) : Prop :=
  ∀ a : Activation σ, a.frame.stack.slots.length = n → a.frame.handlers = H →
    match m a with
    | .ok x a' => Q x a'.frame.stack.slots.length a'.frame.handlers
    | .error e a' => E e a'.frame.stack.slots.length

/-- A computation on the heap that always ends with a value. -/
def Heap.Total (m : OnHeap Fault α) : Prop := ∀ h, ∃ x h', m h = .ok x h'

namespace Heap.Total

theorem bind {m : OnHeap Fault α} {k : α → OnHeap Fault β} (hm : Total m) (hk : ∀ x, Total (k x)) :
    Total (m >>= k) := by
  intro h
  obtain ⟨x, h₁, hx⟩ := hm h
  obtain ⟨y, h₂, hy⟩ := hk x h₁
  exact ⟨y, h₂, bind_eq_ok.mpr ⟨x, h₁, hx, hy⟩⟩

theorem pure (x : α) : Total (Pure.pure x : OnHeap Fault α) := fun h => ⟨x, h, rfl⟩

theorem freshId : Total (Heap.freshId : OnHeap Fault Nat) := fun _ => ⟨_, _, rfl⟩

theorem newError (kind : ErrorKind) (message : String) :
    Total (Heap.newError kind message : OnHeap Fault Value) := freshId.bind fun _ => pure _

theorem newList (items : List Value) : Total (Heap.newList items : OnHeap Fault Value) :=
  freshId.bind fun _ => pure _

theorem newResources : ∀ rs : List Resource, Total (Heap.newResources rs : OnHeap Fault (List Value))
  | [] => pure []
  | _ :: rs => (freshId.bind fun _ => pure _).bind fun _ => (newResources rs).bind fun _ => pure _

theorem newIterator (c : Cursor) : Total (Heap.newIterator c : OnHeap Fault Value) :=
  fun _ => ⟨_, _, rfl⟩

theorem nextItem (id : Nat) : Total (Heap.nextItem id : OnHeap Fault (Option Value)) :=
  fun _ => ⟨_, _, rfl⟩

theorem closeIterator (id : Nat) : Total (Heap.closeIterator id : OnHeap Fault (Option Value)) :=
  fun _ => ⟨_, _, rfl⟩

theorem chain (c : Completion) (error : Value) : Total (c.chain error : OnHeap Fault Value) := by
  cases c with
  | normal | unwind => exact pure error
  | throw prior => exact freshId.bind fun _ => pure _

end Heap.Total

namespace Shifts

variable {n : Nat} {H : List Handler} {m : Exec σ α} {k : α → Exec σ β}
  {P : α → Nat → List Handler → Prop} {Q : β → Nat → List Handler → Prop} {E : Fault → Nat → Prop}

theorem pure {x : β} (h : Q x n H) : Shifts n H (Pure.pure x : Exec σ β) Q E := by
  rintro a rfl rfl
  exact h

theorem throw {e : Fault} (h : E e n) : Shifts n H (MonadExcept.throw e : Exec σ β) Q E := by
  rintro a rfl -
  exact h

theorem bind (h : Shifts n H m P E) (hk : ∀ x n' H', P x n' H' → Shifts n' H' (k x) Q E) :
    Shifts n H (m >>= k) Q E := by
  intro a hn hH
  have hm := h a hn hH
  show match EStateM.bind m k a with
    | .ok x a' => Q x a'.frame.stack.slots.length a'.frame.handlers
    | .error e a' => E e a'.frame.stack.slots.length
  unfold EStateM.bind
  cases hx : m a with
  | ok x a' =>
    rw [hx] at hm
    exact hk x _ _ hm a' rfl rfl
  | error e a' =>
    rw [hx] at hm
    exact hm

/-! ### Parts that leave the depth -/

/-- A computation that always ends with a value and leaves the depth and the handlers. -/
theorem still (hm : ∀ a, ∃ x a', m a = .ok x a' ∧ a'.frame.stack = a.frame.stack ∧
    a'.frame.handlers = a.frame.handlers) (hk : ∀ x, Shifts n H (k x) Q E) :
    Shifts n H (m >>= k) Q E := by
  refine bind (P := fun _ n' H' => n' = n ∧ H' = H) ?_ ?_
  · intro a hn hH
    obtain ⟨x, a', hx, hstack, hhandlers⟩ := hm a
    rw [hx]
    exact ⟨by rw [hstack, hn], by rw [hhandlers, hH]⟩
  · rintro x _ _ ⟨rfl, rfl⟩
    exact hk x

theorem onHeap {m : OnHeap Fault α} (hm : Heap.Total m) (hk : ∀ x, Shifts n H (k x) Q E) :
    Shifts n H (Exec.onHeap m >>= k) Q E := by
  refine still (fun ⟨frame, ⟨heap, host⟩⟩ => ?_) hk
  obtain ⟨x, heap', hx⟩ := hm heap
  exact ⟨x, ⟨frame, ⟨heap', host⟩⟩, by simp [Exec.onHeap, World.onHeap, hx], rfl, rfl⟩

theorem settle {m : Guest σ α} {k : Except Value α → Exec σ β} (hk : ∀ x, Shifts n H (k x) Q E) :
    Shifts n H (Exec.settle m >>= k) Q E :=
  still (fun a => ⟨(m.settle a.world).1, { a with world := (m.settle a.world).2 }, rfl, rfl, rfl⟩) hk

theorem frame {k : Frame → Exec σ β} (hk : ∀ f, f.handlers = H → Shifts n H (k f) Q E) :
    Shifts n H (Exec.frame >>= k) Q E := by
  intro a hn hH
  exact hk a.frame hH a hn hH

theorem onFrame {g : Frame → Frame} {k : Unit → Exec σ β} (H' : List Handler)
    (hg : ∀ f, f.handlers = H → f.stack.slots.length = n →
      (g f).stack = f.stack ∧ (g f).handlers = H') (hk : Shifts n H' (k ()) Q E) :
    Shifts n H (Exec.onFrame g >>= k) Q E := by
  intro a hn hH
  obtain ⟨hstack, hhandlers⟩ := hg a.frame hH hn
  exact hk { a with frame := g a.frame } (by rw [hstack, hn]) hhandlers

theorem check {x : Except Fault α} (hx : ∀ v, x = .ok v → Shifts n H (k v) Q E)
    (he : ∀ e, x = .error e → E e n) : Shifts n H (Exec.check x >>= k) Q E := by
  cases x with
  | ok v => exact hx v rfl
  | error e => exact throw (he e rfl)

theorem constant {index : UInt32} {k : String → Exec σ β} (hk : ∀ s, Shifts n H (k s) Q E)
    (he : E (.noSuchConstant index.toNat) n) : Shifts n H (Exec.constant index >>= k) Q E := by
  refine bind (P := fun _ n' H' => n' = n ∧ H' = H) (frame fun f _ => ?_) ?_
  · split
    · exact pure ⟨rfl, rfl⟩
    · exact throw he
  · rintro s _ _ ⟨rfl, rfl⟩
    exact hk s

/-! ### Pushing and popping -/

theorem push {v : Value} {k : Unit → Exec σ β} (hk : Shifts (n + 1) H (k ()) Q E)
    (he : E .stackOverflow n) : Shifts n H (Exec.push v >>= k) Q E := by
  refine bind (P := fun _ n' H' => n' = n + 1 ∧ H' = H) ?_ ?_
  · rintro a rfl rfl
    unfold Exec.push Exec.onStack OperandStack.push
    by_cases hfull : a.frame.stack.capacity ≤ a.frame.stack.depth
    · simpa only [hfull, if_true] using he
    · simp [hfull]
  · rintro _ _ _ ⟨rfl, rfl⟩
    exact hk

theorem pop {k : Value → Exec σ β} (hk : ∀ v n', n = n' + 1 → Shifts n' H (k v) Q E)
    (he : n = 0 → E .stackUnderflow 0) : Shifts n H (Exec.pop >>= k) Q E := by
  refine bind (P := fun _ n' H' => n = n' + 1 ∧ H' = H) ?_ ?_
  · rintro ⟨⟨unit, index, ip, ⟨st, cap⟩, L, rv, H, sc⟩, w⟩ rfl rfl
    cases st with
    | nil => exact he rfl
    | cons v st => exact ⟨rfl, rfl⟩
  · rintro v n' _ ⟨hn, rfl⟩
    exact hk v n' hn

theorem peekAt {depth : Nat} {k : Value → Exec σ β} (hk : ∀ v, depth < n → Shifts n H (k v) Q E)
    (he : n ≤ depth → E .stackUnderflow n) : Shifts n H (Exec.peekAt depth >>= k) Q E := by
  refine bind (P := fun _ n' H' => depth < n ∧ n' = n ∧ H' = H) ?_ ?_
  · rintro a rfl rfl
    unfold Exec.peekAt OperandStack.peekAt
    by_cases hlt : depth < a.frame.stack.slots.length
    · simp [hlt]
    · have hnone : a.frame.stack.slots[depth]? = none := by simpa using Nat.le_of_not_lt hlt
      simpa only [hnone] using he (Nat.le_of_not_lt hlt)
  · rintro v _ _ ⟨hlt, rfl, rfl⟩
    exact hk v hlt

theorem popAll {k : List Value → Exec σ β} : ∀ {argc n : Nat} {vs : List Value},
    (∀ vs, argc ≤ n → Shifts (n - argc) H (k vs) Q E) → (n < argc → E .stackUnderflow 0) →
      Shifts n H (Exec.popAll.go argc vs >>= k) Q E
  | 0, n, vs, hk, _ => hk vs (Nat.zero_le n)
  | argc + 1, n, vs, hk, he => by
    show Shifts n H ((Exec.pop >>= fun v => Exec.popAll.go argc (v :: vs)) >>= k) Q E
    rw [bind_assoc]
    refine pop (fun v n' hn => ?_) fun hn => he (by omega)
    refine popAll (fun vs hle => ?_) fun hlt => he (by omega)
    have := hk vs (by omega)
    rwa [hn, Nat.add_sub_add_right] at this

theorem dropAll {k : Unit → Exec σ β} : ∀ {count n : Nat},
    (count ≤ n → Shifts (n - count) H (k ()) Q E) → (n < count → E .stackUnderflow 0) →
      Shifts n H (Exec.dropAll count >>= k) Q E
  | 0, n, hk, _ => hk (Nat.zero_le n)
  | count + 1, n, hk, he => by
    show Shifts n H ((Exec.pop >>= fun _ => Exec.dropAll count) >>= k) Q E
    rw [bind_assoc]
    refine pop (fun _ n' hn => ?_) fun hn => he (by omega)
    refine dropAll (fun hle => ?_) fun hlt => he (by omega)
    have := hk (by omega)
    rwa [hn, Nat.add_sub_add_right] at this

/-! ### Families of instructions -/

section

variable {size next : Nat} {Q : Next → Nat → List Handler → Prop}

theorem pushThen {v : Value} (hQ : Q (.goto next) (n + 1) H) (he : E .stackOverflow n) :
    Shifts n H (Exec.pushThen next v : Exec σ Next) Q E := push (pure hQ) he

theorem throwNew {kind : ErrorKind} {message : String} (hQ : ∀ v, Q (.throw v) n H) :
    Shifts n H (Exec.throwNew kind message : Exec σ Next) Q E :=
  onHeap (.newError _ _) fun v => pure (hQ v)

/-- A change of the stack that fails for want of operands only. -/
theorem shuffle {g : OperandStack Value → Except Fault (OperandStack Value)} (need : Nat)
    (hg : ∀ s, (∃ s', g s = .ok s' ∧ need ≤ s.slots.length ∧ s'.slots.length = s.slots.length) ∨
      g s = .error .stackUnderflow ∧ s.slots.length < need)
    (hQ : need ≤ n → Q (.goto next) n H) (he : n < need → E .stackUnderflow n) :
    Shifts n H (Exec.shuffle next g : Exec σ Next) Q E := by
  refine bind (P := fun _ n' H' => need ≤ n ∧ n' = n ∧ H' = H) ?_ ?_
  · rintro a rfl rfl
    unfold Exec.onStack
    rcases hg a.frame.stack with ⟨s', hs, hle, hlength⟩ | ⟨hs, hlt⟩
    · rw [hs]
      exact ⟨hle, hlength, rfl⟩
    · rw [hs]
      exact he hlt
  · rintro _ _ _ ⟨hle, rfl, rfl⟩
    exact pure (hQ hle)

end

/-! ### Instructions -/

section

variable {size next : Nat} {i : Instr}

/-- What pushes one value, behind `n` values that are left of `m` and what was popped. -/
theorem pushing {m pops : Nat} {v : Value} (heffect : i.stackEffect = ⟨pops, 1⟩) (hm : m = n + pops)
    (hgo : i.GoesTo size next next) (hH : i.Rehandles size next m H H) :
    Shifts n H (Exec.pushThen next v : Exec σ Next) (i.Leads size next m H) (i.Faults size next m) :=
  pushThen (Instr.leads_next heffect hgo hH (by omega) (by omega))
    (Instr.faults_plain heffect trivial (by omega))

/-- What throws a new error, behind `n` values that are left of `m`. -/
theorem throwing {m : Nat} {kind : ErrorKind} {message : String} (hm : n ≤ m) :
    Shifts n H (Exec.throwNew kind message : Exec σ Next) (i.Leads size next m H)
      (i.Faults size next m) := throwNew fun _ => ⟨hm, rfl⟩

/-- What needs one value. -/
theorem popping {k : Value → Exec σ Next} {pops pushes : Nat} {m : Nat}
    (heffect : i.stackEffect = ⟨pops, pushes⟩) (hm : m < n + pops)
    (hk : ∀ v n', n = n' + 1 → Shifts n' H (k v) (i.Leads size next m H) (i.Faults size next m)) :
    Shifts n H (Exec.pop >>= k) (i.Leads size next m H) (i.Faults size next m) :=
  pop hk fun h0 => Instr.faults_underflow heffect (by omega) (Nat.zero_le m)

end

end Shifts

namespace Exec

variable {env : Env σ} {size next n : Nat} {H : List Handler}

/-- What an instruction does from depth `n` and handlers `H`. -/
abbrev Keeps (env : Env σ) (size next n : Nat) (H : List Handler) (i : Instr) : Prop :=
  Shifts n H (instr env size next i) (i.Leads size next n H) (i.Faults size next n)

theorem keeps_nop : Keeps env size next n H .nop :=
  Shifts.pure (Instr.leads_next rfl rfl rfl (Nat.zero_le n) rfl)

theorem keeps_pop : Keeps env size next n H .pop :=
  Shifts.dropAll (fun h => Shifts.pure (Instr.leads_next rfl rfl rfl h rfl))
    fun h => Instr.faults_underflow rfl h (Nat.zero_le n)

theorem keeps_popN (count : UInt8) : Keeps env size next n H (.popN count) := by
  have heffect : (Instr.popN count).stackEffect = ⟨count.toNat, 0⟩ :=
    Instr.stackEffect_byte rfl
  exact Shifts.dropAll (fun h => Shifts.pure (Instr.leads_next heffect rfl rfl h rfl))
    fun h => Instr.faults_underflow heffect h (Nat.zero_le n)

theorem keeps_dup : Keeps env size next n H .dup := by
  refine Shifts.peekAt (fun v h => ?_) fun h => Instr.faults_underflow rfl (Nat.lt_succ_of_le h) (Nat.le_refl n)
  exact Shifts.pushThen (Instr.leads_next rfl rfl rfl h (by omega))
    (Instr.faults_plain rfl trivial (by omega))

theorem keeps_dup2 : Keeps env size next n H .dup2 := by
  refine Shifts.peekAt (fun a h => ?_) fun h => Instr.faults_underflow rfl (Nat.lt_succ_of_le h) (Nat.le_refl n)
  refine Shifts.peekAt (fun b h0 => ?_) fun h0 => Instr.faults_underflow rfl (by omega) (Nat.le_refl n)
  refine Shifts.push (Shifts.pushThen ?_ ?_) (Instr.faults_plain rfl trivial (by omega))
  · exact Instr.leads_next rfl rfl rfl h (by omega)
  · exact Instr.faults_plain rfl trivial (by omega)

theorem keeps_dupAt (depth : UInt8) : Keeps env size next n H (.dupAt depth) := by
  have heffect : (Instr.dupAt depth).stackEffect = ⟨depth.toNat + 1, depth.toNat + 2⟩ :=
    Instr.stackEffect_byte rfl
  refine Shifts.peekAt (fun v h => ?_) fun h =>
    Instr.faults_underflow heffect (Nat.lt_succ_of_le h) (Nat.le_refl n)
  exact Shifts.pushThen (Instr.leads_next heffect rfl rfl h (by omega))
    (Instr.faults_plain heffect trivial (by omega))

theorem keeps_swap : Keeps env size next n H .swap := by
  refine Shifts.shuffle 2 ?_ (fun h => ?_) fun h => ?_
  · rintro ⟨_ | ⟨a, _ | ⟨b, st⟩⟩, cap⟩
    · exact .inr ⟨rfl, by simp⟩
    · exact .inr ⟨rfl, by simp⟩
    · exact .inl ⟨_, rfl, by simp, rfl⟩
  · exact Instr.leads_next rfl rfl rfl h (by omega)
  · exact Instr.faults_underflow rfl h (Nat.le_refl n)

theorem keeps_pick (depth : UInt8) : Keeps env size next n H (.pick depth) := by
  have heffect : (Instr.pick depth).stackEffect = ⟨depth.toNat + 1, depth.toNat + 1⟩ :=
    Instr.stackEffect_byte rfl
  refine Shifts.shuffle (depth.toNat + 1) (fun s => ?_) (fun h => ?_) fun h => ?_
  · by_cases hlt : depth.toNat < s.slots.length
    · refine .inl ⟨_, OperandStack.pick_eq_ok hlt, hlt, ?_⟩
      rw [List.length_cons, List.length_eraseIdx_of_lt hlt]
      omega
    · have hnone : s.slots[depth.toNat]? = none := by simpa using Nat.le_of_not_lt hlt
      exact .inr ⟨by simp [OperandStack.pick, hnone], by omega⟩
  · exact Instr.leads_next heffect rfl rfl h (by omega)
  · exact Instr.faults_underflow heffect h (Nat.le_refl n)

theorem keeps_unpick (depth : UInt8) : Keeps env size next n H (.unpick depth) := by
  have heffect : (Instr.unpick depth).stackEffect = ⟨depth.toNat + 1, depth.toNat + 1⟩ :=
    Instr.stackEffect_byte rfl
  refine Shifts.shuffle (depth.toNat + 1) (fun s => ?_) (fun h => ?_) fun h => ?_
  · obtain ⟨_ | ⟨a, rest⟩, cap⟩ := s
    · exact .inr ⟨rfl, by simp⟩
    · by_cases hle : depth.toNat ≤ rest.length
      · refine .inl ⟨_, OperandStack.unpick_eq_ok rfl hle, by simpa using hle, ?_⟩
        simp [List.length_insertIdx, hle]
      · exact .inr ⟨by simp [OperandStack.unpick, hle], by simpa using Nat.lt_of_not_le hle⟩
  · exact Instr.leads_next heffect rfl rfl h (by omega)
  · exact Instr.faults_underflow heffect h (Nat.le_refl n)

theorem keeps_constStr (index : UInt32) : Keeps env size next n H (.constStr index) :=
  Shifts.constant (fun _ => Shifts.pushing rfl rfl rfl rfl)
    (Instr.faults_plain rfl trivial (by omega))

theorem keeps_loadLocal (slot : UInt16) : Keeps env size next n H (.loadLocal slot) := by
  refine Shifts.frame fun f _ => ?_
  split
  · exact Shifts.pushing rfl rfl rfl rfl
  · exact Shifts.throw (Instr.faults_plain rfl trivial (by omega))

theorem keeps_storeLocal (slot : UInt16) : Keeps env size next n H (.storeLocal slot) := by
  refine Shifts.popping rfl (Nat.lt_succ_self n) fun v n' hn => Shifts.frame fun f _ => ?_
  split
  · refine Shifts.onFrame H (fun f hH _ => ⟨rfl, hH⟩) (Shifts.pure ?_)
    exact Instr.leads_next rfl rfl rfl (by omega) (by omega)
  · exact Shifts.throw (Instr.faults_plain rfl trivial (by omega))

theorem keeps_loadGlobal (index : UInt32) : Keeps env size next n H (.loadGlobal index) := by
  refine Shifts.constant (fun name => ?_) (Instr.faults_plain rfl trivial (by omega))
  split
  · exact Shifts.pushing rfl rfl rfl rfl
  · exact Shifts.throwing (Nat.le_refl n)

theorem keeps_count {i : Instr} {op : Opcode} {f : Int32 → Int32} (heffect : i.stackEffect = ⟨1, 1⟩)
    (hgo : i.GoesTo size next next) (hH : i.Rehandles size next n H H) :
    Shifts n H (count next op f : Exec σ Next) (i.Leads size next n H) (i.Faults size next n) := by
  refine Shifts.popping heffect (Nat.lt_succ_self n) fun v n' hn => ?_
  split
  · exact Shifts.pushing heffect hn hgo hH
  · exact Shifts.throw (Instr.faults_plain heffect trivial (by omega))

theorem keeps_and : Keeps env size next n H .and :=
  Shifts.popping rfl (by omega) fun _ _ hn =>
    Shifts.popping rfl (by omega) fun _ _ hn' => Shifts.pushing rfl (by omega) rfl rfl

theorem keeps_ige : Keeps env size next n H .ige := by
  refine Shifts.popping rfl (by omega) fun b n₁ h₁ => ?_
  refine Shifts.popping rfl (by omega) fun a n₂ h₂ => ?_
  split
  · exact Shifts.pushing rfl (by omega) rfl rfl
  · exact Shifts.throw (Instr.faults_plain rfl trivial (by omega))

theorem keeps_isClosing : Keeps env size next n H .isClosing := by
  refine Shifts.popping rfl (Nat.lt_succ_self n) fun v n' hn => ?_
  split
  · exact Shifts.pushing rfl hn rfl rfl
  · exact Shifts.pushing rfl hn rfl rfl

theorem target_eq_error {d : Int32} {e : Fault} (h : target size next d = .error e) :
    e = .jumpOutOfBounds (next + d.toInt) next ∧
      ((next : Int) + d.toInt < 0 ∨ (size : Int) < (next : Int) + d.toInt) := by
  by_cases hout : (next : Int) + d.toInt < 0 ∨ (size : Int) < (next : Int) + d.toInt
  · rw [target, if_pos hout] at h
    exact ⟨(Except.error.inj h).symm, hout⟩
  · rw [target, if_neg hout] at h
    cases h

/-- A distance that leads out of the code is the fault of the instruction. -/
theorem faults_target {i : Instr} {d : Int32} {e : Fault} {m : Nat} (hd : d ∈ i.distances) (hm : m ≤ n)
    (h : target size next d = .error e) : i.Faults size next n e m := by
  obtain ⟨rfl, hout⟩ := target_eq_error h
  exact ⟨Nat.le_trans hm (Nat.le_max_left _ _), rfl, d, hd, rfl, hout⟩

theorem keeps_jmp (d : Int32) : Keeps env size next n H (.jmp d) := by
  refine Shifts.check (fun pc hpc => Shifts.pure ?_) fun e he => ?_
  · exact ⟨Nat.zero_le n, rfl, hpc, rfl⟩
  · exact faults_target (by simp [Instr.distances]) (Nat.le_refl n) he

theorem keeps_jumpIf {i : Instr} {wanted : Bool} {d : Int32} (heffect : i.stackEffect = ⟨1, 0⟩)
    (hd : d ∈ i.distances) (hgo : i.GoesTo size next next)
    (hgo' : ∀ pc, target size next d = .ok pc → i.GoesTo size next pc)
    (hH : i.Rehandles size next n H H) :
    Shifts n H (jumpIf size next wanted d : Exec σ Next) (i.Leads size next n H)
      (i.Faults size next n) := by
  refine Shifts.popping heffect (Nat.lt_succ_self n) fun v n' hn => ?_
  have hpops : i.stackEffect.pops ≤ n := by
    rw [heffect]
    exact hn ▸ Nat.succ_le_succ (Nat.zero_le n')
  have hn' : n' = n - i.stackEffect.pops + i.stackEffect.pushes := by
    rw [heffect, hn]
    rfl
  split
  · refine Shifts.check (fun pc hpc => Shifts.pure ⟨hpops, hn', hgo' pc hpc, hH⟩) fun e he => ?_
    exact faults_target hd (by omega) he
  · exact Shifts.pure ⟨hpops, hn', hgo, hH⟩

theorem keeps_call (argc : UInt8) : Keeps env size next n H (.call argc) := by
  have heffect : (Instr.call argc).stackEffect = ⟨argc.toNat + 2, 1⟩ :=
    Instr.stackEffect_byte rfl
  refine Shifts.popAll (fun args hargs => ?_) fun h =>
    Instr.faults_underflow heffect (by omega) (Nat.zero_le n)
  refine Shifts.popping heffect (by omega) fun receiver n₁ h₁ => ?_
  refine Shifts.popping heffect (by omega) fun callee n₂ h₂ => ?_
  split
  · refine Shifts.settle fun result => ?_
    split
    · exact Shifts.pushing heffect (by omega) rfl rfl
    · exact Shifts.pure ⟨by omega, rfl⟩
  · exact Shifts.throwing (by omega)

theorem keeps_getElem : Keeps env size next n H .getElem := by
  refine Shifts.popping rfl (by omega) fun index n₁ h₁ => ?_
  refine Shifts.popping rfl (by omega) fun items n₂ h₂ => ?_
  split
  · exact Shifts.pushing rfl (by omega) rfl rfl
  · exact Shifts.throw (Instr.faults_plain rfl trivial (by omega))

theorem keeps_getIterator : Keeps env size next n H .getIterator := by
  refine Shifts.popping rfl (Nat.lt_succ_self n) fun v n' hn => ?_
  split
  · exact Shifts.onHeap (.newIterator _) fun _ => Shifts.pushing rfl hn rfl rfl
  · exact Shifts.pushing rfl hn rfl rfl
  · exact Shifts.throwing (by omega)

theorem keeps_iterNext : Keeps env size next n H .iterNext := by
  refine Shifts.peekAt (fun v h => ?_) fun h => Instr.faults_underflow rfl (Nat.lt_succ_of_le h) (Nat.le_refl n)
  have hstill : n ≤ max n (n - 1 + 3) := Nat.le_max_left _ _
  have hpush : ∀ a b, Shifts n H (do push a; pushThen next b : Exec σ Next)
      (Instr.iterNext.Leads size next n H) (Instr.iterNext.Faults size next n) := fun a b =>
    Shifts.push (Shifts.pushThen (Instr.leads_next rfl rfl rfl h (by omega))
      (Instr.faults_plain rfl trivial (by omega))) (Instr.faults_plain rfl trivial hstill)
  split
  · refine Shifts.onHeap (.nextItem _) fun item => ?_
    split
    · exact hpush _ _
    · exact hpush _ _
  · exact Shifts.throw (Instr.faults_plain rfl trivial hstill)

theorem keeps_iterClose (onThrow : UInt8) : Keeps env size next n H (.iterClose onThrow) := by
  refine Shifts.popping rfl (Nat.lt_succ_self n) fun v n' hn => ?_
  split
  · refine Shifts.onHeap (.closeIterator _) fun error => ?_
    split
    · exact Shifts.pure ⟨by omega, rfl⟩
    · exact Shifts.pure (Instr.leads_next rfl rfl rfl (by omega) (by omega))
  · exact Shifts.throw (Instr.faults_plain rfl trivial (by omega))

/-- A change of the innermost scope. -/
theorem shifts_onScope {missing : Fault} {g : Capability → α × Capability} {k : α → Exec σ β}
    {Q : β → Nat → List Handler → Prop} {E : Fault → Nat → Prop} (hk : ∀ x, Shifts n H (k x) Q E)
    (he : E missing n) : Shifts n H (onScope missing g >>= k) Q E := by
  refine Shifts.bind (P := fun _ n' H' => n' = n ∧ H' = H) (Shifts.frame fun f _ => ?_) ?_
  · split
    · exact Shifts.onFrame H (fun f hH _ => ⟨rfl, hH⟩) (Shifts.pure ⟨rfl, rfl⟩)
    · exact Shifts.throw he
  · rintro x _ _ ⟨rfl, rfl⟩
    exact hk x

theorem keeps_popDisposeScope : Keeps env size next n H .popDisposeScope := by
  refine Shifts.frame fun f _ => ?_
  split
  · refine Shifts.onFrame H (fun f hH _ => ⟨rfl, hH⟩) (Shifts.pure ?_)
    exact Instr.leads_next rfl rfl rfl (Nat.zero_le n) rfl
  · exact Shifts.throw (Instr.faults_plain rfl trivial (by omega))

theorem keeps_addDisposable (byte : UInt8) : Keeps env size next n H (.addDisposable byte) := by
  show Shifts n H (addDisposable next byte) _ _
  unfold addDisposable
  split
  · exact Shifts.throw (Instr.faults_plain rfl trivial (by omega))
  · refine Shifts.popping rfl (Nat.lt_succ_self n) fun v n' hn => ?_
    refine Shifts.settle fun result => ?_
    split
    · exact Shifts.pure ⟨by omega, rfl⟩
    · refine shifts_onScope (fun _ => Shifts.pure ?_) (Instr.faults_plain rfl trivial (by omega))
      exact Instr.leads_next rfl rfl rfl (by omega) (by omega)

theorem keeps_takeDisposeCapability : Keeps env size next n H .takeDisposeCapability := by
  refine shifts_onScope (fun rs => ?_) (Instr.faults_plain rfl trivial (by omega))
  refine Shifts.onHeap (.newResources rs) fun records => ?_
  split
  · exact Shifts.throw (Instr.faults_plain rfl trivial (by omega))
  · refine Shifts.onHeap (.newList _) fun v => ?_
    refine Shifts.push (Shifts.pushThen ?_ ?_) (Instr.faults_plain rfl trivial (by omega))
    · exact Instr.leads_next rfl rfl rfl (Nat.zero_le n) rfl
    · exact Instr.faults_plain rfl trivial (by omega)

theorem keeps_resourceField (byte : UInt8) : Keeps env size next n H (.resourceField byte) := by
  show Shifts n H (resourceField next byte) _ _
  unfold resourceField
  split
  · exact Shifts.throw (Instr.faults_plain rfl trivial (by omega))
  · refine Shifts.popping rfl (Nat.lt_succ_self n) fun v n' hn => ?_
    split
    · exact Shifts.pushing rfl hn rfl rfl
    · exact Shifts.throw (Instr.faults_plain rfl trivial (by omega))

theorem keeps_chainDisposeError (unwrapClosing : UInt8) :
    Keeps env size next n H (.chainDisposeError unwrapClosing) :=
  Shifts.popping rfl (by omega) fun _ _ h₁ =>
    Shifts.popping rfl (by omega) fun _ _ h₂ =>
      Shifts.popping rfl (by omega) fun _ _ h₃ =>
        Shifts.onHeap (.chain _ _) fun _ => Shifts.pushing rfl (by omega) rfl rfl

/-- Popping into the return slot. -/
theorem shifts_popToRval {i : Instr} {k : Value → Exec σ Next} {pushes : Nat}
    (heffect : i.stackEffect = ⟨1, pushes⟩)
    (hk : ∀ v n', n = n' + 1 → Shifts n' H (k v) (i.Leads size next n H) (i.Faults size next n)) :
    Shifts n H (popToRval >>= k) (i.Leads size next n H) (i.Faults size next n) := by
  show Shifts n H ((pop >>= fun v => onFrame (fun f => { f with rval := v }) >>= fun _ => pure v) >>= k) _ _
  rw [bind_assoc]
  refine Shifts.popping heffect (Nat.lt_succ_self n) fun v n' hn => ?_
  rw [bind_assoc]
  exact Shifts.onFrame H (fun f hH _ => ⟨rfl, hH⟩) (hk v n' hn)

theorem handlerTarget?_eq_error {d : Int32} {e : Fault} (h : handlerTarget? size next d = .error e) :
    0 ≤ d.toInt ∧ target size next d = .error e := by
  unfold handlerTarget? at h
  split at h
  · cases h
  · rename_i hneg
    refine ⟨by simpa [Int32.lt_iff_toInt_lt] using hneg, ?_⟩
    cases ht : target size next d with
    | ok pc =>
      rw [ht] at h
      cases h
    | error e' =>
      rw [ht] at h
      exact congrArg Except.error (Except.error.inj h)

theorem keeps_tryStart (c f : Int32) : Keeps env size next n H (.tryStart c f) := by
  have hfault : ∀ d e, (d = c ∨ d = f) → handlerTarget? size next d = .error e →
      (Instr.tryStart c f).Faults size next n e n := by
    intro d e hd h
    obtain ⟨hnonneg, h⟩ := handlerTarget?_eq_error h
    refine faults_target ?_ (Nat.le_refl n) h
    rcases hd with rfl | rfl
    · simp [Instr.distances, hnonneg]
    · simp [Instr.distances, hnonneg]
  refine Shifts.check (fun onCatch hc => ?_) fun e he => hfault c e (.inl rfl) he
  refine Shifts.check (fun onFinally hf => ?_) fun e he => hfault f e (.inr rfl) he
  refine Shifts.onFrame (⟨onCatch, onFinally, n⟩ :: H) (fun fr hH hn => ?_) (Shifts.pure ?_)
  · exact ⟨rfl, by rw [← hH, ← hn]; rfl⟩
  · exact ⟨Nat.zero_le n, rfl, rfl, onCatch, onFinally, hc, hf, rfl⟩

theorem keeps_endTry : Keeps env size next n H .endTry := by
  refine Shifts.frame fun f hf => ?_
  split
  · rename_i h outer hhandlers
    refine Shifts.onFrame outer (fun _ _ _ => ⟨rfl, rfl⟩) (Shifts.pure ?_)
    exact ⟨Nat.zero_le n, rfl, rfl, h, by rw [← hf, hhandlers]⟩
  · exact Shifts.throw (Instr.faults_plain rfl trivial (by omega))

/-- **The machine keeps to the table of stack effects.** -/
theorem instr_shifts : ∀ i : Instr, Keeps env size next n H i
  | .nop => keeps_nop
  | .pop => keeps_pop
  | .popN count => keeps_popN count
  | .dup => keeps_dup
  | .dup2 => keeps_dup2
  | .dupAt depth => keeps_dupAt depth
  | .swap => keeps_swap
  | .pick depth => keeps_pick depth
  | .unpick depth => keeps_unpick depth
  | .constUndefined | .constNull | .constTrue | .constFalse | .constI32 _ => .pushing rfl rfl rfl rfl
  | .constStr index => keeps_constStr index
  | .loadLocal slot => keeps_loadLocal slot
  | .storeLocal slot => keeps_storeLocal slot
  | .loadGlobal index => keeps_loadGlobal index
  | .getRval => Shifts.frame fun _ _ => .pushing rfl rfl rfl rfl
  | .setRval => shifts_popToRval rfl fun _ _ hn =>
    Shifts.pure (Instr.leads_next rfl rfl rfl (by omega) (by omega))
  | .not | .isNullish => Shifts.popping rfl (Nat.lt_succ_self n) fun _ _ hn =>
    .pushing rfl hn rfl rfl
  | .and => keeps_and
  | .inc | .dec => keeps_count rfl rfl rfl
  | .ige => keeps_ige
  | .isClosing => keeps_isClosing
  | .jmp d => keeps_jmp d
  | .jmpIfFalse d | .jmpIfTrue d =>
    keeps_jumpIf rfl (by simp [Instr.distances]) (.inl rfl) (fun _ h => .inr h) rfl
  | .retRval => Shifts.frame fun _ _ => .pure ⟨Nat.le_refl n, rfl⟩
  | .call argc => keeps_call argc
  | .getElem => keeps_getElem
  | .getIterator => keeps_getIterator
  | .iterNext => keeps_iterNext
  | .iterClose onThrow => keeps_iterClose onThrow
  | .pushDisposeScope => Shifts.onFrame H (fun _ hH _ => ⟨rfl, hH⟩)
    (.pure (Instr.leads_next rfl rfl rfl (Nat.zero_le n) rfl))
  | .popDisposeScope => keeps_popDisposeScope
  | .addDisposable byte => keeps_addDisposable byte
  | .takeDisposeCapability => keeps_takeDisposeCapability
  | .resourceField byte => keeps_resourceField byte
  | .chainDisposeError unwrapClosing => keeps_chainDisposeError unwrapClosing
  | .await | .yield => shifts_popToRval rfl fun _ _ hn => .pure ⟨hn, rfl, rfl⟩
  | .throw => Shifts.popping rfl (Nat.lt_succ_self n) fun _ _ hn =>
    .pure ⟨by omega, rfl⟩
  | .tryStart c f => keeps_tryStart c f
  | .endTry => keeps_endTry

end Exec
end ResourceMachine
