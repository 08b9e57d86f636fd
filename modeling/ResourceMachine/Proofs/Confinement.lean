/-
# What a machine keeps clean

The closing signal travels over the operand stack, through locals and the return slot like
any value, but it never gets into a list, a record or the heap. What can be taken out of
the values of a frame is clean (`Frame.Confines`); as long as the calls that a session
makes are clean, so is its world (`Steps.confines`).

Key definitions: `Value.Confines`, `Frame.Confines`, `Session.Confines`, `Exec.Confining`.
Key theorems: `Exec.instr_confining`, `Session.Confines.step`, `Steps.confines`.
-/
import ResourceMachine.Proofs.Capacity
import ResourceMachine.Proofs.Cleanness
import ResourceMachine.Proofs.Registration
import Mathlib.Data.List.InsertIdx

namespace ResourceMachine

variable {σ α β : Type}

/-! ### Frames -/

/-- What an instruction can take out of a value is clean. -/
def Value.Confines : Value → Prop
  | list _ items => ∀ v ∈ items, v.Clean
  | resource _ r => r.Clean
  | _ => True

theorem Value.Clean.confines {v : Value} (h : v.Clean) : v.Confines := by
  cases v
  case list id items => exact h.items
  case resource id r => exact h.record
  all_goals exact trivial

theorem Value.confines_getD {o : Option Value} (h : ∀ v, o = some v → v.Clean) :
    (o.getD .undefined).Confines := by
  cases o with
  | none => exact trivial
  | some v => exact (h v rfl).confines

/-- What can be taken out of the values of a frame is clean, and so is what its scopes have
registered. -/
structure Frame.Confines (f : Frame) : Prop where
  stack : ∀ v ∈ f.stack.slots, v.Confines
  locals : ∀ (k : Nat) (v : Value), f.locals[k]? = some v → v.Confines
  rval : f.rval.Confines
  scopes : ∀ c ∈ f.scopes, ∀ r ∈ c.resources, r.Clean

/-- The world is clean, and the frame confines. -/
structure Activation.Confines (a : Activation σ) : Prop where
  frame : a.frame.Confines
  world : a.world.Clean

namespace Frame.Confines

variable {f : Frame}

theorem withStack (h : f.Confines) {stack : OperandStack Value} (hs : ∀ v ∈ stack.slots, v.Confines) :
    ({ f with stack } : Frame).Confines := ⟨hs, h.locals, h.rval, h.scopes⟩

theorem start (unit : Module) (index : Nat) {args : List Value} (capacity : Nat)
    (hargs : ∀ v ∈ args, v.Clean) : (Frame.start unit index args capacity).Confines where
  stack := nofun
  locals k v hk := by
    rw [Frame.start, Frame.initialLocals, List.getElem?_toArray] at hk
    rcases List.mem_append.mp (List.mem_of_getElem? hk) with hv | hv
    · exact (hargs v (List.mem_of_mem_take hv)).confines
    · rw [List.eq_of_mem_replicate hv]
      exact trivial
  rval := trivial
  scopes := nofun

theorem enter (pc : Nat) : ∀ {vs : List Value} {f : Frame}, f.Confines → (∀ v ∈ vs, v.Confines) →
    (f.enter pc vs).2.Confines
  | [], _, h, _ => h
  | v :: vs, f, h, hvs => by
    obtain ⟨hv, hvs⟩ := List.forall_mem_cons.mp hvs
    rw [Frame.enter, OperandStack.push]
    split
    · rename_i hpush
      split at hpush
      · cases hpush
      · cases hpush
        exact enter pc (h.withStack (List.forall_mem_cons.mpr ⟨hv, h.stack⟩)) hvs
    · exact h

theorem unwindThrough {e : Value} (he : e.Confines) : ∀ (H : List Handler) {f : Frame}, f.Confines →
    (f.unwindThrough e H).2.Confines
  | [], _, h => ⟨h.stack, h.locals, h.rval, h.scopes⟩
  | ⟨onCatch, onFinally, depth⟩ :: H, f, h => by
    have hdrop : ({ f with stack := f.stack.truncate depth, handlers := H } : Frame).Confines :=
      ⟨fun v hv => h.stack v (List.mem_of_mem_drop hv), h.locals, h.rval, h.scopes⟩
    have hflag : ∀ v ∈ [e, .bool true], v.Confines :=
      List.forall_mem_cons.mpr ⟨he, List.forall_mem_singleton.mpr trivial⟩
    match onCatch, onFinally with
    | some pc, _ => exact hdrop.enter pc (List.forall_mem_singleton.mpr he)
    | none, some pc => exact hdrop.enter pc hflag
    | none, none => exact unwindThrough he H hdrop

theorem resume {mode : Resume} (h : f.Confines) (hmode : ∀ v, mode.value? = some v → v.Clean) :
    (f.resume mode).2.Confines := by
  cases mode with
  | start => exact h
  | next v => exact h.enter _ (List.forall_mem_singleton.mpr (hmode v rfl).confines)
  | throw e => exact h.unwindThrough (hmode e rfl).confines _
  | ret v =>
    have hret : ({ f with rval := v } : Frame).Confines :=
      ⟨h.stack, h.locals, (hmode v rfl).confines, h.scopes⟩
    exact hret.unwindThrough (e := .closing) trivial _

end Frame.Confines

/-! ### Computations of the machine -/

/-- Where a computation has ended, the machine confines; and its value is as `Q` says. -/
def Exec.Confined (Q : α → Prop) : EStateM.Result Fault (Activation σ) α → Prop
  | .ok x a => a.Confines ∧ Q x
  | .error _ a => a.Confines

/-- A computation confines wherever it ends. -/
def Exec.Confining (m : Exec σ α) (Q : α → Prop) : Prop :=
  ∀ a : Activation σ, a.Confines → Confined Q (m a)

/-- What an instruction throws confines. -/
def Next.Confines : Next → Prop
  | throw e => e.Confines
  | _ => True

/-- Where a computation on the heap has ended, the heap is clean; and its value is as `Q`
says. -/
def Heap.Confined (Q : α → Prop) : EStateM.Result Fault Heap α → Prop
  | .ok x h => h.Clean ∧ Q x
  | .error _ h => h.Clean

/-- A computation on the heap keeps it clean. -/
def Heap.Confining (m : OnHeap Fault α) (Q : α → Prop) : Prop :=
  ∀ h : Heap, h.Clean → Confined Q (m h)

namespace Heap.Confining

variable {P : α → Prop} {Q : β → Prop} {m : OnHeap Fault α} {k : α → OnHeap Fault β}

theorem pure {x : α} (hx : P x) : Confining (Pure.pure x : OnHeap Fault α) P := fun _ h => ⟨h, hx⟩

theorem bind (hm : Confining m P) (hk : ∀ x, P x → Confining (k x) Q) :
    Confining (m >>= k) Q := by
  intro h hh
  have hma := hm h hh
  show Confined Q (EStateM.bind m k h)
  unfold EStateM.bind
  cases hx : m h with
  | ok x h' =>
    rw [hx] at hma
    exact hk x hma.2 h' hma.1
  | error e h' =>
    rw [hx] at hma
    exact hma

theorem freshId : Confining (Heap.freshId : OnHeap Fault Nat) fun _ => True :=
  fun _ h => ⟨h.fresh _, trivial⟩

theorem newError (kind : ErrorKind) (message : String) :
    Confining (Heap.newError kind message : OnHeap Fault Value) Value.Clean :=
  freshId.bind fun _ _ => pure (.atom rfl)

theorem newList {items : List Value} (h : ∀ v ∈ items, v.Clean) :
    Confining (Heap.newList items : OnHeap Fault Value) Value.Clean :=
  freshId.bind fun _ _ => pure (.list h)

theorem newResources : ∀ {rs : List Resource}, (∀ r ∈ rs, r.Clean) →
    Confining (Heap.newResources rs : OnHeap Fault (List Value)) fun vs => ∀ v ∈ vs, v.Clean
  | [], _ => pure fun _ hv => absurd hv List.not_mem_nil
  | r :: rs, h => by
    obtain ⟨hr, hrs⟩ := List.forall_mem_cons.mp h
    have hbox : Confining (Heap.newResource r : OnHeap Fault Value) Value.Clean :=
      freshId.bind fun _ _ => pure (.of_record hr)
    exact hbox.bind fun _ hv => (newResources hrs).bind fun _ hvs =>
      pure (List.forall_mem_cons.mpr ⟨hv, hvs⟩)

theorem newIterator {items : List Value} (hitems : ∀ v ∈ items, v.Clean) :
    Confining (Heap.newIterator (.ofList items none) : OnHeap Fault Value) Value.Clean :=
  fun _ h => ⟨h.newIterator (.ofList hitems), .atom rfl⟩

theorem nextItem (id : Nat) : Confining (Heap.nextItem id : OnHeap Fault (Option Value))
    fun item => ∀ v, item = some v → v.Clean := by
  intro h hh
  obtain ⟨hitem, hcursor⟩ := (hh.cursor id).next rfl
  exact ⟨hh.setIterator id hcursor, hitem⟩

theorem closeIterator (id : Nat) : Confining (Heap.closeIterator id : OnHeap Fault (Option Value))
    fun error => ∀ e, error = some e → e.Clean := by
  intro h hh
  obtain ⟨herror, hcursor⟩ := (hh.cursor id).close rfl
  exact ⟨hh.setIterator id hcursor, herror⟩

/-- What is pending holds no list and no record, unless an exception itself is one. -/
theorem chain {c : Completion} {e : Value} (he : e.Confines) :
    Confining (c.chain e : OnHeap Fault Value) Value.Confines := by
  cases c with
  | normal | unwind => exact pure he
  | throw prior => exact freshId.bind fun _ _ => pure trivial

end Heap.Confining

namespace Exec.Confining

variable {P : α → Prop} {Q : β → Prop} {m : Exec σ α} {k : α → Exec σ β}

theorem pure {x : α} (hx : P x) : Confining (Pure.pure x : Exec σ α) P := fun _ h => ⟨h, hx⟩

theorem throw (f : Fault) : Confining (MonadExcept.throw f : Exec σ α) P := fun _ h => h

theorem bind (hm : Confining m P) (hk : ∀ x, P x → Confining (k x) Q) :
    Confining (m >>= k) Q := by
  intro a ha
  have hma := hm a ha
  show Confined Q (EStateM.bind m k a)
  unfold EStateM.bind
  cases hx : m a with
  | ok x a' =>
    rw [hx] at hma
    exact hk x hma.2 a' hma.1
  | error e a' =>
    rw [hx] at hma
    exact hma

theorem map {g : α → β} (hm : Confining m P) (hg : ∀ x, P x → Q (g x)) : Confining (g <$> m) Q :=
  hm.bind fun x hx => pure (hg x hx)

/-- What is read off the frame. -/
theorem frame {k : Frame → Exec σ β} (hk : ∀ f, f.Confines → Confining (k f) Q) :
    Confining (Exec.frame >>= k) Q := fun a ha => hk a.frame ha.frame a ha

theorem onFrame {g : Frame → Frame} (hg : ∀ f, f.Confines → (g f).Confines) :
    Confining (Exec.onFrame g : Exec σ Unit) fun _ => True :=
  fun _ ha => ⟨⟨hg _ ha.frame, ha.world⟩, trivial⟩

theorem onHeap {m : OnHeap Fault α} (hm : Heap.Confining m P) :
    Confining (Exec.onHeap m : Exec σ α) P := by
  intro ⟨f, ⟨heap, host⟩⟩ ⟨hf, hheap⟩
  have hm := hm heap hheap
  simp only [Exec.onHeap, World.onHeap]
  cases hx : m heap with
  | ok x heap' =>
    rw [hx] at hm
    exact ⟨⟨hf, hm.1⟩, hm.2⟩
  | error e heap' =>
    rw [hx] at hm
    exact ⟨hf, hm⟩

theorem check (x : Except Fault α) : Confining (Exec.check x : Exec σ α) fun _ => True := by
  cases x with
  | ok v => exact pure trivial
  | error e => exact throw e

theorem onStack {g : OperandStack Value → Except Fault (OperandStack Value)}
    (hg : ∀ s s', g s = .ok s' → (∀ v ∈ s.slots, v.Confines) → ∀ v ∈ s'.slots, v.Confines) :
    Confining (Exec.onStack g : Exec σ Unit) fun _ => True := by
  intro a ha
  unfold Exec.onStack
  cases hx : g a.frame.stack with
  | ok s => exact ⟨⟨ha.frame.withStack (hg _ _ hx ha.frame.stack), ha.world⟩, trivial⟩
  | error f => exact ha

theorem push {v : Value} (hv : v.Confines) : Confining (Exec.push v : Exec σ Unit) fun _ => True := by
  refine onStack fun s s' hs hslots => ?_
  unfold OperandStack.push at hs
  split at hs
  · cases hs
  · cases hs
    exact List.forall_mem_cons.mpr ⟨hv, hslots⟩

theorem pop : Confining (Exec.pop : Exec σ Value) Value.Confines := by
  intro ⟨⟨unit, index, ip, ⟨st, cap⟩, L, rv, H, sc⟩, w⟩ ⟨hf, hw⟩
  cases st with
  | nil => exact ⟨hf, hw⟩
  | cons v st =>
    obtain ⟨hv, hst⟩ := List.forall_mem_cons.mp hf.stack
    exact ⟨⟨⟨hst, hf.locals, hf.rval, hf.scopes⟩, hw⟩, hv⟩

theorem peekAt (n : Nat) : Confining (Exec.peekAt n : Exec σ Value) Value.Confines := by
  intro a ha
  unfold Exec.peekAt OperandStack.peekAt
  cases hv : a.frame.stack.slots[n]? with
  | none => exact ha
  | some v => exact ⟨ha, ha.frame.stack v (List.mem_of_getElem? hv)⟩

theorem dropAll : ∀ n : Nat, Confining (Exec.dropAll n : Exec σ Unit) fun _ => True
  | 0 => pure trivial
  | n + 1 => pop.bind fun _ _ => dropAll n

theorem constant (index : UInt32) : Confining (Exec.constant index : Exec σ String) fun _ => True := by
  refine frame fun f _ => ?_
  split
  · exact pure trivial
  · exact throw _

/-! ### Families of instructions -/

section

variable {next codeSize : Nat} {env : Env σ}

/-- A family of instructions confines. -/
abbrev Instruction (m : Exec σ Next) : Prop := Confining m Next.Confines

theorem goto (pc : Nat) : Instruction (Pure.pure (.goto pc) : Exec σ Next) := pure trivial

theorem pushThen {v : Value} (hv : v.Confines) : Instruction (Exec.pushThen next v : Exec σ Next) :=
  (push hv).bind fun _ _ => goto _

theorem throwNew (kind : ErrorKind) (message : String) :
    Instruction (Exec.throwNew kind message : Exec σ Next) :=
  (onHeap (.newError kind message)).bind fun _ hv => pure hv.confines

theorem onFrameThen {g : Frame → Frame} {m : Exec σ β} (hg : ∀ f, f.Confines → (g f).Confines)
    (hm : Confining m Q) :
    Confining (do
      Exec.onFrame g
      m) Q := (onFrame hg).bind fun _ _ => hm

theorem shuffle {g : OperandStack Value → Except Fault (OperandStack Value)}
    (hg : ∀ s s', g s = .ok s' → s'.slots ⊆ s.slots) : Instruction (Exec.shuffle next g : Exec σ Next) :=
  (onStack fun s s' hs hslots v hv => hslots v (hg s s' hs hv)).bind fun _ _ => goto _

theorem count (op : Opcode) (f : Int32 → Int32) : Instruction (Exec.count next op f : Exec σ Next) := by
  refine pop.bind fun v _ => ?_
  split
  · exact pushThen trivial
  · exact throw _

theorem atLeast : Instruction (Exec.atLeast next : Exec σ Next) := by
  refine pop.bind fun b _ => pop.bind fun a _ => ?_
  split
  · exact pushThen trivial
  · exact throw _

theorem jumpIf (wanted : Bool) (distance : Int32) :
    Instruction (Exec.jumpIf codeSize next wanted distance : Exec σ Next) := by
  refine pop.bind fun v _ => ?_
  split
  · exact (check _).map fun _ _ => trivial
  · exact goto _

theorem loadLocal (slot : UInt16) : Instruction (Exec.loadLocal next slot : Exec σ Next) := by
  refine frame fun f hf => ?_
  split
  · exact pushThen (hf.locals _ _ ‹_›)
  · exact throw _

theorem storeLocal (slot : UInt16) : Instruction (Exec.storeLocal next slot : Exec σ Next) := by
  refine pop.bind fun v hv => frame fun f _ => ?_
  split
  · refine onFrameThen (fun f hf => ⟨hf.stack, fun k w hk => ?_, hf.rval, hf.scopes⟩) (goto _)
    rw [Array.getElem?_setIfInBounds] at hk
    split at hk
    · split at hk
      · cases hk
        exact hv
      · cases hk
    · exact hf.locals k w hk
  · exact throw _

theorem loadGlobal (hglobals : env.globals.Clean) (index : UInt32) :
    Instruction (Exec.loadGlobal env next index) := by
  refine (constant index).bind fun name _ => ?_
  split
  · exact pushThen (hglobals.get? ‹_›).confines
  · exact throwNew _ _

theorem element : Instruction (Exec.element next : Exec σ Next) := by
  refine pop.bind fun index _ => pop.bind fun items hitems => ?_
  split
  · refine pushThen (Value.confines_getD fun v hv => ?_)
    split at hv
    · cases hv
    · exact hitems v (List.mem_of_getElem? hv)
  · exact throw _

theorem iterator : Instruction (Exec.iterator next : Exec σ Next) := by
  refine pop.bind fun iterable hv => ?_
  split
  · exact (onHeap (.newIterator hv)).bind fun _ hv => pushThen hv.confines
  · exact pushThen trivial
  · exact throwNew _ _

theorem iterNext : Instruction (Exec.iterNext next : Exec σ Next) := by
  refine (peekAt 0).bind fun v _ => ?_
  split
  · refine (onHeap (.nextItem _)).bind fun item hitem => ?_
    split
    · exact (push (hitem _ rfl).confines).bind fun _ _ => pushThen trivial
    · exact (push (v := .undefined) trivial).bind fun _ _ => pushThen trivial
  · exact throw _

theorem iterClose (onThrow : Bool) :
    Instruction (Exec.iterClose next onThrow : Exec σ Next) := by
  refine pop.bind fun v _ => ?_
  split
  · refine (onHeap (.closeIterator _)).bind fun error herror => ?_
    split
    · exact pure (herror _ rfl).confines
    · exact goto _
  · exact throw _

theorem onScope {missing : Fault} {g : Capability → α × Capability} {P : α → Prop}
    (hg : ∀ c : Capability, (∀ r ∈ c.resources, r.Clean) →
      (∀ r ∈ (g c).2.resources, r.Clean) ∧ P (g c).1) :
    Confining (Exec.onScope missing g : Exec σ α) P := by
  intro a ha
  obtain ⟨⟨unit, index, ip, st, L, rv, H, sc⟩, w⟩ := a
  cases sc with
  | nil => exact ha
  | cons c outer =>
    obtain ⟨hc, houter⟩ := List.forall_mem_cons.mp ha.frame.scopes
    obtain ⟨hc', hx⟩ := hg c hc
    exact ⟨⟨⟨ha.frame.stack, ha.frame.locals, ha.frame.rval,
      List.forall_mem_cons.mpr ⟨hc', houter⟩⟩, ha.world⟩, hx⟩

theorem popScope : Instruction (Exec.popScope next : Exec σ Next) := by
  intro a ha
  obtain ⟨⟨unit, index, ip, st, L, rv, H, sc⟩, w⟩ := a
  cases sc with
  | nil => exact ha
  | cons c outer =>
    exact ⟨⟨⟨ha.frame.stack, ha.frame.locals, ha.frame.rval,
      (List.forall_mem_cons.mp ha.frame.scopes).2⟩, ha.world⟩, trivial⟩

/-- Only an object or a nullish value is registered. -/
theorem isAtom_of_createResource {v : Value} {hint : Hint} {h h' : Heap} {r : Resource}
    (hr : createResource v hint h = .ok (some r) h') : v.isAtom = true := by
  cases v
  case suppressed | list | resource | closing => cases hr
  all_goals rfl

/-- What is registered has a function for a method, and so it is clean. -/
theorem createResource_clean {v : Value} {hint : Hint} {h h' : Heap} {r : Resource}
    (hr : createResource v hint h = .ok (some r) h') : r.Clean := by
  have hlook := Looks.createResource v hint h
  rw [hr] at hlook
  obtain ⟨hvalue, -, hmethod⟩ := hlook.2 r rfl
  refine ⟨?_, fun m hm => ?_⟩
  · rcases hvalue with heq | heq
    · rw [heq]
      exact .atom (isAtom_of_createResource hr)
    · rw [heq]
      exact .undefined
  · rcases hmethod with ⟨f, hf⟩ | ⟨hnone, -⟩
    · obtain rfl := Option.some.inj (hm.symm.trans hf)
      exact .function f
    · cases hm.symm.trans hnone

/-- Looking for a method leaves the heap clean, and what it throws is an error. -/
theorem settleResource (v : Value) (hint : Hint) :
    Confining (Exec.settle (World.onHeap (createResource v hint)) : Exec σ _) fun result =>
      (∀ r, result = .ok (some r) → r.Clean) ∧ ∀ e, result = .error e → e.Clean := by
  rintro ⟨f, ⟨heap, host⟩⟩ ⟨hf, hheap⟩
  have hlook := Looks.createResource v hint heap
  simp only [Exec.settle, Guest.settle, World.onHeap]
  cases hx : createResource v hint heap with
  | ok record heap' =>
    rw [hx] at hlook
    obtain ⟨⟨n, rfl⟩, -⟩ := hlook
    refine ⟨⟨hf, hheap.fresh n⟩, ?_, ?_⟩
    · rintro r ⟨⟩
      exact createResource_clean hx
    · rintro e ⟨⟩
  | error e heap' =>
    rw [hx] at hlook
    obtain ⟨⟨n, rfl⟩, hplain⟩ := hlook
    refine ⟨⟨hf, hheap.fresh n⟩, ?_, ?_⟩
    · rintro r ⟨⟩
    · rintro _ ⟨⟩
      exact .of_isPlain hplain

theorem addDisposable (byte : UInt8) : Instruction (Exec.addDisposable next byte : Exec σ Next) := by
  unfold Exec.addDisposable
  split
  · exact throw _
  · refine pop.bind fun v _ => (settleResource v _).bind fun result hresult => ?_
    split
    · exact pure (hresult.2 _ rfl).confines
    · rename_i record
      refine (onScope (P := fun _ => True) fun c hc => ⟨?_, trivial⟩).bind fun _ _ => goto _
      cases record with
      | none => exact hc
      | some r =>
        intro r' hr'
        rcases List.mem_append.mp hr' with hr' | hr'
        · exact hc r' hr'
        · rw [List.mem_singleton.mp hr']
          exact hresult.1 r rfl

theorem takeCapability : Instruction (Exec.takeCapability next : Exec σ Next) := by
  refine (onScope (P := fun rs => ∀ r ∈ rs, r.Clean) fun c hc => ⟨fun r hr => (List.not_mem_nil hr).elim, hc⟩).bind
    fun rs hrs => ?_
  refine (onHeap (.newResources hrs)).bind fun records hrecords => ?_
  split
  · exact throw _
  · exact (onHeap (.newList hrecords)).bind fun _ hv =>
      (push hv.confines).bind fun _ _ => pushThen trivial

theorem resourceField (byte : UInt8) : Instruction (Exec.resourceField next byte : Exec σ Next) := by
  unfold Exec.resourceField
  split
  · exact throw _
  · rename_i field _
    refine pop.bind fun v hv => ?_
    split
    · rename_i r
      have hr : r.Clean := hv
      refine pushThen ?_
      cases field with
      | value => exact hr.value.confines
      | hint => exact trivial
      | method => exact Value.confines_getD hr.method
    · exact throw _

theorem chainError (unwrapClosing : Bool) :
    Instruction (Exec.chainError next unwrapClosing : Exec σ Next) :=
  pop.bind fun _ _ => pop.bind fun _ _ => pop.bind fun _ he =>
    (onHeap (.chain he)).bind fun _ hv => pushThen hv

theorem tryStart (onCatch onFinally : Int32) :
    Instruction (Exec.tryStart codeSize next onCatch onFinally : Exec σ Next) :=
  (check _).bind fun _ _ => (check _).bind fun _ _ =>
    onFrameThen (fun _ hf => ⟨hf.stack, hf.locals, hf.rval, hf.scopes⟩) (goto _)

theorem endTry : Instruction (Exec.endTry next : Exec σ Next) := by
  refine frame fun f _ => ?_
  split
  · exact onFrameThen (fun _ hf => ⟨hf.stack, hf.locals, hf.rval, hf.scopes⟩) (goto _)
  · exact throw _

theorem popToRval : Confining (Exec.popToRval : Exec σ Value) Value.Confines := by
  refine pop.bind fun v hv => ?_
  exact onFrameThen (fun _ hf => ⟨hf.stack, hf.locals, hv, hf.scopes⟩) (pure hv)

/-- Operands are taken off one by one. -/
theorem popAll_takes : ∀ (n : Nat) (vs : List Value) (a : Activation σ), a.Confines →
    Confined (fun _ => True) (Exec.popAll.go n vs a) ∧
      ∀ args a', Exec.popAll.go n vs a = .ok args a' →
        a'.frame.stack.slots = a.frame.stack.slots.drop n ∧
          args = (a.frame.stack.slots.take n).reverse ++ vs
  | 0, vs, a, ha => ⟨⟨ha, trivial⟩, by rintro _ _ ⟨⟩; exact ⟨rfl, rfl⟩⟩
  | n + 1, vs, a, ha => by
    have hpop := pop a ha
    obtain ⟨⟨unit, index, ip, ⟨st, cap⟩, L, rv, H, sc⟩, w⟩ := a
    cases st with
    | nil => exact ⟨ha, nofun⟩
    | cons v st =>
      obtain ⟨hconfined, hrest⟩ := popAll_takes n (v :: vs) ⟨⟨unit, index, ip, ⟨st, cap⟩, L, rv, H, sc⟩, w⟩ hpop.1
      refine ⟨hconfined, fun args a' hargs => ?_⟩
      obtain ⟨hslots, rfl⟩ := hrest args a' hargs
      exact ⟨hslots, by simp⟩

/-- What a call comes to is pushed or thrown. -/
theorem goOn : ∀ result : Except Value Value, Value.CleanResult result →
    Instruction (match result with
      | .ok v => Exec.pushThen next v
      | .error e => Pure.pure (Next.throw e) : Exec σ Next)
  | .error e, h => pure (h e (.inr rfl)).confines
  | .ok v, h => pushThen (h v (.inl rfl)).confines

/-- A call confines if what a function is called on is clean. -/
theorem call_confines (hhost : Host.Clean env.host) (argc : Nat) {a : Activation σ} (ha : a.Confines)
    (hcall : ∀ receiver f rest, a.frame.stack.slots.drop argc = receiver :: .function f :: rest →
      receiver.Clean ∧ ∀ v ∈ (a.frame.stack.slots.take argc).reverse, v.Clean) :
    Confined Next.Confines (Exec.call env next argc a) := by
  obtain ⟨hconfined, htakes⟩ := popAll_takes argc [] a ha
  show Confined Next.Confines (EStateM.bind (Exec.popAll.go argc []) _ a)
  unfold EStateM.bind
  cases hx : Exec.popAll.go argc [] a with
  | error e a' =>
    rw [hx] at hconfined
    exact hconfined
  | ok args a' =>
    rw [hx] at hconfined
    obtain ⟨ha', -⟩ := hconfined
    obtain ⟨hslots, hargs⟩ := htakes args a' hx
    rw [List.append_nil] at hargs
    rw [← hslots, ← hargs] at hcall
    obtain ⟨⟨unit, index, ip, ⟨st, cap⟩, L, rv, H, sc⟩, w⟩ := a'
    -- what is below the arguments
    match st, hcall, ha' with
    | [], _, ha' => exact ha'
    | [receiver], _, ha' =>
      exact ⟨⟨nofun, ha'.frame.locals, ha'.frame.rval, ha'.frame.scopes⟩, ha'.world⟩
    | receiver :: callee :: rest, hcall, ha' =>
      have hrest : ∀ v ∈ rest, v.Confines := fun v hv =>
        ha'.frame.stack v (List.mem_cons_of_mem _ (List.mem_cons_of_mem _ hv))
      have hpopped : (⟨⟨unit, index, ip, ⟨rest, cap⟩, L, rv, H, sc⟩, w⟩ : Activation σ).Confines :=
        ⟨⟨hrest, ha'.frame.locals, ha'.frame.rval, ha'.frame.scopes⟩, ha'.world⟩
      cases callee
      case function f =>
        obtain ⟨hreceiver, hargs⟩ := hcall receiver f rest rfl
        obtain ⟨hresult, hworld⟩ := f.call_clean hhost hreceiver hargs ha'.world rfl
        have hcalled : (⟨⟨unit, index, ip, ⟨rest, cap⟩, L, rv, H, sc⟩,
            ((f.call env.host receiver args).settle w).2⟩ : Activation σ).Confines :=
          ⟨hpopped.frame, hworld⟩
        exact goOn _ hresult _ hcalled
      all_goals exact throwNew _ _ _ hpopped

end

end Exec.Confining

/-! ### Instructions -/

section

variable {env : Env σ} {code : Bytes} {codeSize next pc : Nat} {a : Activation σ}

/-- Every instruction but a call confines. -/
theorem Exec.instr_confining (hglobals : env.globals.Clean) :
    ∀ i : Instr, (∀ argc, i ≠ .call argc) →
      Exec.Confining.Instruction (Exec.instr env codeSize next i)
  | .nop, _ => .goto _
  | .pop, _ => (Exec.Confining.dropAll 1).bind fun _ _ => .goto _
  | .popN n, _ => (Exec.Confining.dropAll n.toNat).bind fun _ _ => .goto _
  | .dup, _ => (Exec.Confining.peekAt 0).bind fun _ hv => .pushThen hv
  | .dup2, _ => (Exec.Confining.peekAt 1).bind fun _ ha => (Exec.Confining.peekAt 0).bind fun _ hb =>
    (Exec.Confining.push ha).bind fun _ _ => .pushThen hb
  | .dupAt n, _ => (Exec.Confining.peekAt n.toNat).bind fun _ hv => .pushThen hv
  | .swap, _ => .shuffle fun s s' h => by
    obtain ⟨_ | ⟨a, _ | ⟨b, st⟩⟩, cap⟩ := s
    · cases h
    · cases h
    · cases h
      exact (List.Perm.swap a b st).subset
  | .pick n, _ => .shuffle fun s s' h => by
    unfold OperandStack.pick at h
    split at h
    · cases h
      exact List.cons_subset.mpr ⟨List.mem_of_getElem? ‹_›, List.eraseIdx_subset⟩
    · cases h
  | .unpick n, _ => .shuffle fun s s' h => by
    unfold OperandStack.unpick at h
    split at h
    · rename_i a rest hslots
      split at h
      · cases h
        intro v hv
        rw [hslots]
        rcases List.eq_or_mem_of_mem_insertIdx hv with rfl | hv
        · exact List.mem_cons_self
        · exact List.mem_cons_of_mem _ hv
      · cases h
    · cases h
  | .constUndefined, _ | .constNull, _ | .constTrue, _ | .constFalse, _ | .constI32 _, _ =>
    .pushThen trivial
  | .constStr index, _ => (Exec.Confining.constant index).bind fun _ _ => .pushThen trivial
  | .loadLocal slot, _ => .loadLocal slot
  | .storeLocal slot, _ => .storeLocal slot
  | .loadGlobal index, _ => .loadGlobal hglobals index
  | .getRval, _ => Exec.Confining.frame fun _ hf => .pushThen hf.rval
  | .setRval, _ => Exec.Confining.popToRval.bind fun _ _ => .goto _
  | .not, _ => Exec.Confining.pop.bind fun _ _ => .pushThen trivial
  | .and, _ => Exec.Confining.pop.bind fun _ _ => Exec.Confining.pop.bind fun _ _ => .pushThen trivial
  | .inc, _ => .count _ _
  | .dec, _ => .count _ _
  | .ige, _ => .atLeast
  | .isNullish, _ => Exec.Confining.pop.bind fun _ _ => .pushThen trivial
  | .isClosing, _ => Exec.Confining.pop.bind fun v _ => by
    split <;> exact .pushThen trivial
  | .jmp _, _ => (Exec.Confining.check _).map fun _ _ => trivial
  | .jmpIfFalse d, _ => .jumpIf false d
  | .jmpIfTrue d, _ => .jumpIf true d
  | .retRval, _ => Exec.Confining.frame fun _ _ => .pure trivial
  | .call argc, h => absurd rfl (h argc)
  | .getElem, _ => .element
  | .getIterator, _ => .iterator
  | .iterNext, _ => .iterNext
  | .iterClose onThrow, _ => .iterClose _
  | .pushDisposeScope, _ =>
    .onFrameThen (fun _ hf => ⟨hf.stack, hf.locals, hf.rval, List.forall_mem_cons.mpr ⟨nofun, hf.scopes⟩⟩)
      (.goto _)
  | .popDisposeScope, _ => .popScope
  | .addDisposable byte, _ => .addDisposable byte
  | .takeDisposeCapability, _ => .takeCapability
  | .resourceField byte, _ => .resourceField byte
  | .chainDisposeError unwrapClosing, _ => .chainError _
  | .await, _ | .yield, _ => Exec.Confining.popToRval.map fun _ _ => trivial
  | .throw, _ => Exec.Confining.pop.map fun _ hv => hv
  | .tryStart c f, _ => .tryStart c f
  | .endTry, _ => .endTry

namespace Activation.Confines

theorem keepIp (h : a.Confines) (pc : Nat) : (a.keepIp pc).Confines :=
  ⟨⟨h.frame.stack, h.frame.locals, h.frame.rval, h.frame.scopes⟩, h.world⟩

theorem throw (h : a.Confines) {e : Value} (he : e.Confines) :
    (a.throw next e).activation.Confines := by
  have hframe := h.frame.unwindThrough he a.frame.handlers
  unfold Activation.throw Frame.unwind
  match a.frame.unwindThrough e a.frame.handlers, hframe with
  | (.goto _, _), hframe => exact ⟨hframe, h.world⟩
  | (.escaped _, f), hframe => exact keepIp (a := { a with frame := f }) ⟨hframe, h.world⟩ _

theorem follow (h : a.Confines) {x : Next} (hx : x.Confines) :
    (a.follow next x).activation.Confines := by
  cases x with
  | goto pc => exact h
  | throw e => exact h.throw hx
  | await v | yield v | ret v => exact h.keepIp _

/-- An instruction whose events are clean confines. -/
theorem step (h : a.Confines) (hhost : Host.Clean env.host)
    (hglobals : env.globals.Clean) (hevents : ∀ e ∈ a.events env code pc, e.Clean) :
    (a.step env code pc).activation.Confines := by
  unfold Activation.step
  cases hop : Instr.opcodeAt code pc with
  | error e => exact h
  | ok op =>
    simp only
    cases hi : Instr.ofOperandsAt code (pc + 1) op with
    | error e => exact h.keepIp pc
    | ok i =>
      have hread : Instr.readAt code pc = .ok i := by
        rw [Instr.readAt, hop]
        exact hi
      have hinstr : Exec.Confined Next.Confines (Exec.instr env code.size (pc + i.size) i a) := by
        by_cases hcall : ∃ argc, i = .call argc
        · obtain ⟨argc, rfl⟩ := hcall
          refine Exec.Confining.call_confines hhost argc.toNat h fun receiver f rest hslots => ?_
          have hevent := hevents (.call (.at code pc argc) f receiver
            (a.frame.stack.slots.take argc.toNat).reverse _) (by
              rw [Activation.events, hread]
              refine List.mem_append_left _ ?_
              rw [Activation.eventsOf_call, hslots]
              exact List.mem_singleton.mpr rfl)
          exact ⟨hevent.1, hevent.2.1⟩
        · have hother : Exec.Confining.Instruction (Exec.instr env code.size (pc + i.size) i) :=
            Exec.instr_confining hglobals i fun argc heq => hcall ⟨argc, heq⟩
          exact hother a h
      show (a.perform env code.size pc i).activation.Confines
      unfold Activation.perform
      cases hx : Exec.instr env code.size (pc + i.size) i a with
      | ok x a' =>
        rw [hx] at hinstr
        exact hinstr.1.follow hinstr.2
      | error e a' =>
        rw [hx] at hinstr
        exact hinstr.keepIp pc

end Activation.Confines

end

/-! ### Sessions -/

/-- A session confines, in clean surroundings. -/
structure Session.Confines (s : Session σ) : Prop where
  frame : s.frame.Confines
  world : s.world.Clean
  globals : s.globals.Clean
  script : ∀ r ∈ s.script, r.answer.mode.Clean r.world r.globals

namespace Session.Confines

variable {s s' : Session σ} {host : Host σ} {code : Bytes}

theorem route (h : s.Confines) {r : Route × Frame} (hr : r.2.Confines) : (s.route r).Confines := by
  obtain ⟨_ | _, f⟩ := r <;> exact ⟨hr, h.world, h.globals, h.script⟩

theorem reply (h : s.Confines) {p : Suspension} {r : Reply σ} {rest : List (Reply σ)}
    (hscript : s.script = r :: rest) (hp : (p.accept r.answer).value.Clean) :
    (s.reply p r rest).Confines := by
  obtain ⟨hr, hrest⟩ := List.forall_mem_cons.mp (hscript ▸ h.script)
  have hreplied : ({ s with
      world := r.world
      globals := r.globals
      script := rest
      trace := s.trace ++ [.resume (p.accept r.answer)] } : Session σ).Confines :=
    ⟨h.frame, hr.world, hr.globals, hrest⟩
  refine hreplied.route (h.frame.resume fun v hv => ?_)
  rw [Answer.value?_mode] at hv
  rwa [← Option.some.inj hv]

theorem halt (h : s.Confines) (o : Outcome) (htrace : ∀ e ∈ (s.halt o).trace, e.Clean) :
    (s.halt o).Confines := by
  unfold Session.halt at htrace ⊢
  split
  · rename_i p r rest hp hscript
    simp only [hp, hscript, Session.reply, Session.route_trace] at htrace
    exact h.reply hscript (htrace (.resume (p.accept r.answer)) (by simp))
  · exact ⟨h.frame, h.world, h.globals, h.script⟩

theorem proceed {p : Progress σ} (h : s.Confines) (hp : p.activation.Confines)
    (htrace : ∀ e ∈ (s.proceed p).trace, e.Clean) : (s.proceed p).Confines := by
  cases p with
  | running pc a => exact ⟨hp.frame, hp.world, h.globals, h.script⟩
  | halted o a =>
    exact halt (s := s.update (.ended o) a) ⟨hp.frame, hp.world, h.globals, h.script⟩ o htrace

/-- As long as what happens is clean, a session confines. -/
theorem step (h : s.Confines) (hhost : Host.Clean host)
    (hstep : s.step host code = some s') (htrace : ∀ e ∈ s'.trace, e.Clean) : s'.Confines := by
  obtain ⟨control, frame, world, globals, script, trace⟩ := s
  cases control with
  | ended o => cases hstep
  | running pc =>
    have hs' := Option.some.inj hstep
    rw [← hs'] at htrace ⊢
    have hevents : ∀ e ∈ Activation.events ⟨host, globals⟩ code pc ⟨frame, world⟩, e.Clean := fun e he =>
      htrace e ((Session.proceed_trace _ _).subset (List.mem_append_right trace he))
    have ha : (⟨frame, world⟩ : Activation σ).Confines := ⟨h.frame, h.world⟩
    exact proceed ⟨h.frame, h.world, h.globals, h.script⟩ (ha.step hhost h.globals hevents) htrace

end Session.Confines

/-- A session all of whose events are clean confines. -/
theorem Steps.confines {host : Host σ} {code : Bytes} {k : Nat} {s s' : Session σ}
    (h : Steps host code k s s') (hhost : Host.Clean host)
    (hs : s.Confines) (htrace : ∀ e ∈ s'.trace, e.Clean) : s'.Confines := by
  induction h with
  | refl => exact hs
  | step head tail ih =>
    exact ih (hs.step hhost head fun e he => htrace e (tail.trace.subset he)) htrace

end ResourceMachine
