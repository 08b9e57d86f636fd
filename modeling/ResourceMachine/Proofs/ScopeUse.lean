/-
# What an instruction does to the scopes

Four instructions change the scopes: one enters a scope, one exits it, one registers a
resource in the innermost scope and one takes all of them out. Every other instruction leaves
the scopes as they are, and so does one that throws. A resource that is declared without an
await is disposed without one: it has a method, which is called and no more (`Resource.Prompt`).

`Brings` says so of a computation by what it makes of the scopes, which is put together along
the computation.

Key definitions: `Brings`, `Resource.Prompt`, `Instr.Rescopes`, `Instr.Conducts`.
Key theorem: `Exec.instr_brings`.
-/
import ResourceMachine.Proofs.EagerRegistration
import ResourceMachine.Proofs.Posture

namespace ResourceMachine

variable {σ α β : Type}

/-! ### Computations that change the scopes -/

/-- The scopes are what they were. -/
def Activation.Scoped (a a' : Activation σ) : Prop := a'.frame.scopes = a.frame.scopes

theorem Activation.scoped_stable : Stable (@Activation.Scoped σ) where
  refl _ := rfl
  trans h h' := h'.trans h

/-- A computation that starts with the scopes `S` ends with a value and scopes as `Q` says, if
it does not fault. -/
def Brings (S : List Capability) (m : Exec σ α) (Q : α → List Capability → Prop) : Prop :=
  ∀ a x a', a.frame.scopes = S → m a = .ok x a' → Q x a'.frame.scopes

namespace Brings

variable {S : List Capability} {P : α → List Capability → Prop} {Q : β → List Capability → Prop}

theorem pure {x : β} (h : Q x S) : Brings S (Pure.pure x : Exec σ β) Q := by
  rintro a _ _ rfl ⟨⟩
  exact h

theorem throw {e : Fault} : Brings S (MonadExcept.throw e : Exec σ β) Q := by
  rintro a x a' - h
  cases h

theorem bind {m : Exec σ α} {k : α → Exec σ β} (h : Brings S m P)
    (hk : ∀ x S', P x S' → Brings S' (k x) Q) : Brings S (m >>= k) Q := by
  intro a y a'' hS hm
  obtain ⟨x, a', hx, hy⟩ := bind_eq_ok.mp hm
  exact hk x _ (h a x a' hS hx) a' y a'' rfl hy

/-- What comes first leaves the scopes alone. -/
theorem calm {m : Exec σ α} {k : α → Exec σ β} (hm : Within Activation.Scoped m)
    (hk : ∀ x, Brings S (k x) Q) : Brings S (m >>= k) Q := by
  intro a y a'' hS h
  obtain ⟨x, a', hx, hy⟩ := bind_eq_ok.mp h
  have hsame : a'.frame.scopes = a.frame.scopes := hm.of_ok hx
  exact hk x a' y a'' (hsame.trans hS) hy

end Brings

/-! ### Computations that leave the scopes alone -/

namespace Exec

open Activation

theorem onStack_scoped (f : OperandStack Value → Except Fault (OperandStack Value)) :
    Within Scoped (onStack f : Exec σ Unit) := by
  intro a
  unfold onStack
  split <;> rfl

theorem pop_scoped : Within Scoped (pop : Exec σ Value) := by
  intro a
  unfold pop
  split <;> rfl

theorem peekAt_scoped (d : Nat) : Within Scoped (peekAt d : Exec σ Value) := by
  intro a
  unfold peekAt
  split <;> rfl

theorem popAll_scoped : ∀ (n : Nat) (vs : List Value), Within Scoped (popAll.go n vs : Exec σ (List Value))
  | 0, _ => .pure scoped_stable _
  | n + 1, vs => pop_scoped.bind scoped_stable fun v => popAll_scoped n (v :: vs)

theorem dropAll_scoped : ∀ n : Nat, Within Scoped (dropAll n : Exec σ Unit)
  | 0 => .pure scoped_stable _
  | n + 1 => pop_scoped.bind scoped_stable fun _ => dropAll_scoped n

theorem onHeap_scoped (m : OnHeap Fault α) : Within Scoped (onHeap m : Exec σ α) := by
  intro a
  cases hm : World.onHeap m a.world with
  | ok x world =>
    simp only [onHeap, hm]
    rfl
  | error e world =>
    simp only [onHeap, hm]
    rfl

theorem settle_scoped (m : Guest σ α) : Within Scoped (settle m) := fun _ => rfl

theorem frame_scoped : Within Scoped (frame : Exec σ Frame) := fun _ => rfl

theorem onFrame_scoped {f : Frame → Frame} (h : ∀ fr, (f fr).scopes = fr.scopes) :
    Within Scoped (onFrame f : Exec σ Unit) := fun a => h a.frame

theorem check_scoped (x : Except Fault α) : Within Scoped (check x : Exec σ α) := by
  cases x with
  | ok a => exact .pure scoped_stable a
  | error e => exact .throw scoped_stable e

theorem constant_scoped (index : UInt32) : Within Scoped (constant index : Exec σ String) := by
  refine frame_scoped.bind scoped_stable fun f => ?_
  split
  · exact .pure scoped_stable _
  · exact .throw scoped_stable _

theorem popToRval_scoped : Within Scoped (popToRval : Exec σ Value) :=
  pop_scoped.bind scoped_stable fun _ =>
    (onFrame_scoped fun _ => rfl).bind scoped_stable fun _ => .pure scoped_stable _

end Exec

/-! ### Instructions -/

/-- A resource that is disposed without an await: it was declared so, and has a method. -/
def Resource.Prompt (r : Resource) : Prop := r.hint = .sync ∧ ∃ f, r.method = some (.function f)

/-- A declaration without an await registers nothing that needs one. -/
theorem Declares.prompt {h : Heap} {v : Value} {r : Resource} (hd : Declares h v .sync (.ok (some r))) :
    r.Prompt := by
  cases hd with
  | own found => exact ⟨rfl, _, rfl⟩

namespace Instr

/-- What becomes of the scopes at an instruction behind which execution goes on. -/
def Rescopes (i : Instr) (S S' : List Capability) : Prop :=
  match i with
  | .pushDisposeScope => S' = .empty :: S
  | .popDisposeScope => ∃ c, S = c :: S'
  | .takeDisposeCapability => ∃ c outer, S = c :: outer ∧ S' = .empty :: outer
  | .addDisposable byte => S' = S ∨ ∃ c outer r, S = c :: outer ∧ S' = c.add r :: outer ∧
      (byte ≠ Hint.async.byte → r.Prompt)
  | _ => S' = S

/-- What an instruction may lead to from the scopes `S`. Unless execution goes on, they stay. -/
def Conducts (i : Instr) (S : List Capability) : Next → List Capability → Prop
  | .goto _, S' => i.Rescopes S S'
  | .throw _, S' => S' = S ∧ ∀ voided, i.Throws voided
  | _, S' => S' = S

end Instr

namespace Exec

section

variable {next : Nat} {S : List Capability} {Q : Next → List Capability → Prop}

theorem pushThen_brings {v : Value} (hgo : Q (.goto next) S) :
    Brings S (pushThen next v : Exec σ Next) Q :=
  .calm (onStack_scoped _) fun _ => .pure hgo

theorem throwNew_brings {kind : ErrorKind} {message : String} (hthrow : ∀ e, Q (.throw e) S) :
    Brings S (throwNew kind message : Exec σ Next) Q :=
  .calm (onHeap_scoped _) fun _ => .pure (hthrow _)

theorem shuffle_brings {f : OperandStack Value → Except Fault (OperandStack Value)} (hgo : Q (.goto next) S) :
    Brings S (shuffle next f : Exec σ Next) Q :=
  .calm (onStack_scoped _) fun _ => .pure hgo

theorem count_brings {op : Opcode} {f : Int32 → Int32} (hgo : Q (.goto next) S) :
    Brings S (count next op f : Exec σ Next) Q := by
  refine .calm pop_scoped fun v => ?_
  split
  · exact pushThen_brings hgo
  · exact .throw

theorem atLeast_brings (hgo : Q (.goto next) S) : Brings S (atLeast next : Exec σ Next) Q := by
  refine .calm pop_scoped fun b => .calm pop_scoped fun a => ?_
  split
  · exact pushThen_brings hgo
  · exact .throw

theorem jumpIf_brings {size : Nat} {wanted : Bool} {distance : Int32} (hgo : ∀ pc, Q (.goto pc) S) :
    Brings S (jumpIf size next wanted distance : Exec σ Next) Q := by
  refine .calm pop_scoped fun cond => ?_
  split
  · exact .calm (check_scoped _) fun pc => .pure (hgo pc)
  · exact .pure (hgo next)

theorem loadLocal_brings {slot : UInt16} (hgo : Q (.goto next) S) :
    Brings S (loadLocal next slot : Exec σ Next) Q := by
  refine .calm frame_scoped fun f => ?_
  split
  · exact pushThen_brings hgo
  · exact .throw

theorem storeLocal_brings {slot : UInt16} (hgo : Q (.goto next) S) :
    Brings S (storeLocal next slot : Exec σ Next) Q := by
  refine .calm pop_scoped fun v => .calm frame_scoped fun f => ?_
  split
  · exact .calm (onFrame_scoped fun _ => rfl) fun _ => .pure hgo
  · exact .throw

theorem loadGlobal_brings {env : Env σ} {index : UInt32} (hgo : Q (.goto next) S)
    (hthrow : ∀ e, Q (.throw e) S) : Brings S (loadGlobal env next index) Q := by
  refine .calm (constant_scoped index) fun name => ?_
  split
  · exact pushThen_brings hgo
  · exact throwNew_brings hthrow

theorem call_brings {env : Env σ} {argc : Nat} (hgo : Q (.goto next) S) (hthrow : ∀ e, Q (.throw e) S) :
    Brings S (call env next argc) Q := by
  refine .calm (popAll_scoped argc []) fun args => .calm pop_scoped fun receiver =>
    .calm pop_scoped fun callee => ?_
  split
  · refine .calm (settle_scoped _) fun result => ?_
    split
    · exact pushThen_brings hgo
    · exact .pure (hthrow _)
  · exact throwNew_brings hthrow

theorem element_brings (hgo : Q (.goto next) S) : Brings S (element next : Exec σ Next) Q := by
  refine .calm pop_scoped fun index => .calm pop_scoped fun items => ?_
  split
  · exact pushThen_brings hgo
  · exact .throw

theorem iterator_brings (hgo : Q (.goto next) S) (hthrow : ∀ e, Q (.throw e) S) :
    Brings S (iterator next : Exec σ Next) Q := by
  refine .calm pop_scoped fun iterable => ?_
  split
  · exact .calm (onHeap_scoped _) fun _ => pushThen_brings hgo
  · exact pushThen_brings hgo
  · exact throwNew_brings hthrow

theorem iterNext_brings (hgo : Q (.goto next) S) : Brings S (iterNext next : Exec σ Next) Q := by
  refine .calm (peekAt_scoped 0) fun v => ?_
  split
  · refine .calm (onHeap_scoped _) fun item => ?_
    split
    · exact .calm (onStack_scoped _) fun _ => pushThen_brings hgo
    · exact .calm (onStack_scoped _) fun _ => pushThen_brings hgo
  · exact .throw

/-- Closing an iterator throws only if no exception is pending. -/
theorem iterClose_brings {onThrow : Bool} (hgo : Q (.goto next) S)
    (hthrow : onThrow = false → ∀ e, Q (.throw e) S) : Brings S (iterClose next onThrow : Exec σ Next) Q := by
  refine .calm pop_scoped fun v => ?_
  split
  · refine .calm (onHeap_scoped _) fun error => ?_
    split
    · exact .pure (hthrow rfl _)
    · exact .pure hgo
  · exact .throw

theorem resourceField_brings {byte : UInt8} (hgo : Q (.goto next) S) :
    Brings S (resourceField next byte : Exec σ Next) Q := by
  unfold resourceField
  split
  · exact .throw
  · refine .calm pop_scoped fun v => ?_
    split
    · exact pushThen_brings hgo
    · exact .throw

theorem chainError_brings {unwrapClosing : Bool} (hgo : Q (.goto next) S) :
    Brings S (chainError next unwrapClosing : Exec σ Next) Q :=
  .calm pop_scoped fun _ => .calm pop_scoped fun _ => .calm pop_scoped fun _ =>
    .calm (onHeap_scoped _) fun _ => pushThen_brings hgo

theorem tryStart_brings {size : Nat} {c f : Int32} (hgo : Q (.goto next) S) :
    Brings S (tryStart size next c f : Exec σ Next) Q :=
  .calm (check_scoped _) fun _ => .calm (check_scoped _) fun _ =>
    .calm (onFrame_scoped fun _ => rfl) fun _ => .pure hgo

theorem endTry_brings (hgo : Q (.goto next) S) : Brings S (endTry next : Exec σ Next) Q := by
  refine .calm frame_scoped fun f => ?_
  split
  · exact .calm (onFrame_scoped fun _ => rfl) fun _ => .pure hgo
  · exact .throw

/-! ### Instructions on scopes -/

theorem onScope_brings {missing : Fault} {f : Capability → α × Capability} :
    Brings S (onScope missing f : Exec σ α) fun x S' => ∃ c outer, S = c :: outer ∧ x = (f c).1 ∧
      S' = (f c).2 :: outer := by
  rintro a x a' rfl h
  obtain ⟨fr, a₁, hframe, h⟩ := bind_eq_ok.mp h
  cases hframe
  cases hscopes : a.frame.scopes with
  | nil =>
    rw [hscopes] at h
    cases h
  | cons c outer =>
    rw [hscopes] at h
    obtain ⟨_, _, hset, h⟩ := bind_eq_ok.mp h
    cases hset
    cases h
    exact ⟨c, outer, rfl, rfl, rfl⟩

theorem pushScope_brings : Brings S (instr env size next .pushDisposeScope : Exec σ Next)
    fun x S' => x = .goto next ∧ S' = .empty :: S := by
  rintro a x a' rfl h
  obtain ⟨_, _, hset, h⟩ := bind_eq_ok.mp h
  cases hset
  cases h
  exact ⟨rfl, rfl⟩

theorem popScope_brings : Brings S (popScope next : Exec σ Next)
    fun x S' => x = .goto next ∧ ∃ c, S = c :: S' := by
  rintro a x a' rfl h
  obtain ⟨fr, a₁, hframe, h⟩ := bind_eq_ok.mp h
  cases hframe
  cases hscopes : a.frame.scopes with
  | nil =>
    rw [hscopes] at h
    cases h
  | cons c outer =>
    rw [hscopes] at h
    obtain ⟨_, _, hset, h⟩ := bind_eq_ok.mp h
    cases hset
    cases h
    exact ⟨rfl, c, rfl⟩

theorem takeCapability_brings : Brings S (takeCapability next : Exec σ Next)
    fun x S' => x = .goto next ∧ ∃ c outer, S = c :: outer ∧ S' = .empty :: outer := by
  refine onScope_brings.bind ?_
  rintro rs _ ⟨c, outer, rfl, rfl, rfl⟩
  refine .calm (onHeap_scoped _) fun records => ?_
  split
  · exact .throw
  · exact .calm (onHeap_scoped _) fun list => .calm (onStack_scoped _) fun _ =>
      pushThen_brings ⟨rfl, c, outer, rfl, rfl⟩

/-- A declaration without an await that is executed finds nothing that needs one. -/
theorem settle_prompt {v : Value} {r : Resource} {a a' : Activation σ}
    (h : settle (World.onHeap (createResource v .sync)) a = .ok (.ok (some r)) a') : r.Prompt := by
  obtain ⟨o, ho⟩ := exists_declares a.world.heap v .sync
  have hends := ho.endsAs
  have hresult : (Guest.settle (World.onHeap (createResource v .sync)) a.world).1 = .ok (some r) :=
    (EStateM.Result.ok.inj h).1
  cases o with
  | error message =>
    have hends : createResource v .sync a.world.heap = _ := hends
    simp [Guest.settle, World.onHeap, hends] at hresult
  | ok r' =>
    obtain ⟨n, hends⟩ := hends
    simp only [Guest.settle, World.onHeap, hends, Except.ok.injEq] at hresult
    subst hresult
    exact ho.prompt

/-- A declaration registers what it comes to. -/
theorem addDisposable_brings {byte : UInt8} : Brings S (addDisposable next byte : Exec σ Next)
    (Instr.Conducts (.addDisposable byte) S) := by
  unfold addDisposable
  cases hbyte : Hint.ofByte? byte with
  | none => exact .throw
  | some hint =>
    have hsettle (v : Value) : Brings S (settle (World.onHeap (createResource v hint)) : Exec σ _)
        fun result S' => S' = S ∧ ∀ r, result = .ok (some r) → byte ≠ Hint.async.byte → r.Prompt := by
      rintro a _ a' rfl h
      refine ⟨(settle_scoped _).of_ok h, ?_⟩
      rintro r rfl hne
      obtain rfl : hint = .sync := by
        cases hint with
        | sync => rfl
        | async => exact absurd (Hint.byte_of_ofByte? hbyte).symm hne
      exact settle_prompt h
    refine .calm pop_scoped fun v => (hsettle v).bind ?_
    rintro result _ ⟨rfl, hprompt⟩
    cases result with
    | error e => exact .pure ⟨rfl, fun _ => trivial⟩
    | ok r =>
      refine onScope_brings.bind ?_
      rintro _ _ ⟨c, outer, rfl, -, rfl⟩
      refine .pure ?_
      cases r with
      | none => exact .inl rfl
      | some r => exact .inr ⟨c, outer, r, rfl, rfl, hprompt r rfl⟩

end

/-- **An instruction changes the scopes as it says**, and throws only if it is one that may. -/
theorem instr_brings {env : Env σ} {size next : Nat} {S : List Capability} (i : Instr) :
    Brings S (instr env size next i) (i.Conducts S) := by
  cases i with
  | nop => exact .pure rfl
  | pop | popN => exact .calm (dropAll_scoped _) fun _ => .pure rfl
  | dup | dupAt => exact .calm (peekAt_scoped _) fun _ => pushThen_brings rfl
  | dup2 =>
    exact .calm (peekAt_scoped _) fun _ => .calm (peekAt_scoped _) fun _ =>
      .calm (onStack_scoped _) fun _ => pushThen_brings rfl
  | swap | pick | unpick => exact shuffle_brings rfl
  | constUndefined | constNull | constTrue | constFalse | constI32 => exact pushThen_brings rfl
  | constStr index => exact .calm (constant_scoped index) fun _ => pushThen_brings rfl
  | loadLocal => exact loadLocal_brings rfl
  | storeLocal => exact storeLocal_brings rfl
  | loadGlobal => exact loadGlobal_brings rfl fun _ => ⟨rfl, fun _ => trivial⟩
  | getRval => exact .calm frame_scoped fun _ => pushThen_brings rfl
  | setRval => exact .calm popToRval_scoped fun _ => .pure rfl
  | not | isNullish => exact .calm pop_scoped fun _ => pushThen_brings rfl
  | and => exact .calm pop_scoped fun _ => .calm pop_scoped fun _ => pushThen_brings rfl
  | inc | dec => exact count_brings rfl
  | ige => exact atLeast_brings rfl
  | isClosing =>
    refine .calm pop_scoped fun v => ?_
    split
    · exact pushThen_brings rfl
    · exact pushThen_brings rfl
  | jmp => exact .calm (check_scoped _) fun _ => .pure rfl
  | jmpIfFalse | jmpIfTrue => exact jumpIf_brings fun _ => rfl
  | retRval => exact .calm frame_scoped fun _ => .pure rfl
  | call => exact call_brings rfl fun _ => ⟨rfl, fun _ => trivial⟩
  | getElem => exact element_brings rfl
  | getIterator => exact iterator_brings rfl fun _ => ⟨rfl, fun _ => trivial⟩
  | iterNext => exact iterNext_brings rfl
  | iterClose onThrow =>
    refine iterClose_brings rfl fun hpending _ => ⟨rfl, fun _ => ?_⟩
    simpa using hpending
  | pushDisposeScope =>
    intro a x a' hS h
    obtain ⟨rfl, hscopes⟩ := pushScope_brings a x a' hS h
    exact hscopes
  | popDisposeScope =>
    intro a x a' hS h
    obtain ⟨rfl, hscopes⟩ := popScope_brings a x a' hS h
    exact hscopes
  | addDisposable => exact addDisposable_brings
  | takeDisposeCapability =>
    intro a x a' hS h
    obtain ⟨rfl, hscopes⟩ := takeCapability_brings a x a' hS h
    exact hscopes
  | resourceField => exact resourceField_brings rfl
  | chainDisposeError => exact chainError_brings rfl
  | await | yield => exact .calm popToRval_scoped fun _ => .pure rfl
  | throw => exact .calm pop_scoped fun _ => .pure ⟨rfl, fun _ => trivial⟩
  | tryStart => exact tryStart_brings rfl
  | endTry => exact endTry_brings rfl

end Exec
end ResourceMachine
