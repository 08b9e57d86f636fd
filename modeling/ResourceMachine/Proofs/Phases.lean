/-
# What an evaluation keeps

A property of evaluations is shown phase by phase. A statement is executed while
nothing is on its way out of the function, or a value that is returned is, or an
exception; a pass disposes what a scope has registered. An `Invariant` says what holds
of a call in each phase, and has one law for each thing that an evaluation does to a
call. `Meets` tells what holds where an evaluation ends, and its rules take it apart.

Key definitions: `Eval.Meets`, `Mood`, `Phase`, `Invariant`.
Key theorems: `Eval.Meets.bind`, `Eval.Meets.attempt`.
-/
import ResourceMachine.Proofs.EvaluationLaws
import ResourceMachine.Proofs.Validity

namespace ResourceMachine

/-! ### Where an evaluation ends -/

namespace Eval

variable {σ α β : Type}

/-- An evaluation ends with a value as `Q` says, throws as `R` says, or stops as `W`
says: for want of a reply, or for want of fuel. -/
def Meets (m : Eval σ α) (S : CallState σ) (Q : α → CallState σ → Prop)
    (R : Value → CallState σ → Prop) (W : Option Suspension → CallState σ → Prop) : Prop :=
  match m S with
  | .ok a S' => Q a S'
  | .error (.thrown e) S' => R e S'
  | .error (.suspended p) S' => W (some p) S'
  | .error .outOfFuel S' => W none S'

namespace Meets

variable {m : Eval σ α} {f : α → Eval σ β} {S : CallState σ} {Q Q' : α → CallState σ → Prop}
  {P : β → CallState σ → Prop} {R R' : Value → CallState σ → Prop}
  {W : Option Suspension → CallState σ → Prop}

theorem pure {a : α} (h : Q a S) : Meets (Pure.pure a : Eval σ α) S Q R W := h

theorem raise {e : Value} (h : R e S) : Meets (Eval.raise e : Eval σ α) S Q R W := h

theorem imp (h : Meets m S Q R W) (hQ : ∀ a S, Q a S → Q' a S) (hR : ∀ e S, R e S → R' e S) :
    Meets m S Q' R' W := by
  unfold Meets at h ⊢
  match m S, h with
  | .ok _ _, h => exact hQ _ _ h
  | .error (.thrown _) _, h => exact hR _ _ h
  | .error (.suspended _) _, h => exact h
  | .error .outOfFuel _, h => exact h

theorem and {Q' : α → CallState σ → Prop} {R' : Value → CallState σ → Prop}
    {W' : Option Suspension → CallState σ → Prop} (h : Meets m S Q R W) (h' : Meets m S Q' R' W') :
    Meets m S (fun a T => Q a T ∧ Q' a T) (fun e T => R e T ∧ R' e T) fun p T => W p T ∧ W' p T := by
  unfold Meets at h h' ⊢
  match m S, h, h' with
  | .ok _ _, h, h' => exact ⟨h, h'⟩
  | .error (.thrown _) _, h, h' => exact ⟨h, h'⟩
  | .error (.suspended _) _, h, h' => exact ⟨h, h'⟩
  | .error .outOfFuel _, h, h' => exact ⟨h, h'⟩

theorem mono {W' : Option Suspension → CallState σ → Prop} (h : Meets m S Q R W)
    (hW : ∀ p T, W p T → W' p T) : Meets m S Q R W' := by
  unfold Meets at h ⊢
  match m S, h with
  | .ok _ _, h => exact h
  | .error (.thrown _) _, h => exact h
  | .error (.suspended _) _, h => exact hW _ _ h
  | .error .outOfFuel _, h => exact hW _ _ h

theorem bind (h : Meets m S Q R W) (hf : ∀ a S', Q a S' → Meets (f a) S' P R W) :
    Meets (m >>= f) S P R W := by
  unfold Meets at h
  show Meets (EStateM.bind m f) S P R W
  unfold Meets EStateM.bind
  match hm : m S, h with
  | .ok a S', h => exact hf a S' h
  | .error (.thrown _) _, h => exact h
  | .error (.suspended _) _, h => exact h
  | .error .outOfFuel _, h => exact h

/-- What is thrown in an attempt is a result. -/
theorem attempt (h : Meets m S Q R W) :
    Meets (Eval.attempt m) S
      (fun r S' => match r with
        | .ok a => Q a S'
        | .error e => R e S') R' W := by
  unfold Meets at h
  unfold Meets Eval.attempt
  match hm : m S, h with
  | .ok a S', h => exact h
  | .error (.thrown _) _, h => exact h
  | .error (.suspended _) _, h => exact h
  | .error .outOfFuel _, h => exact h

/-- What an evaluation changes only within a relation. -/
theorem within {r : CallState σ → CallState σ → Prop} (h : Meets m S Q R W) (hm : Within r m) :
    Meets m S (fun a S' => Q a S' ∧ r S S') (fun e S' => R e S' ∧ r S S') W := by
  have hr := hm S
  unfold Meets at h ⊢
  match hx : m S, h with
  | .ok a S', h =>
    rw [hx] at hr
    exact ⟨h, hr⟩
  | .error (.thrown e) S', h =>
    rw [hx] at hr
    exact ⟨h, hr⟩
  | .error (.suspended _) _, h => exact h
  | .error .outOfFuel _, h => exact h

/-- The scopes that an evaluation leaves. -/
theorem scopes {cs : List Capability} (h : Meets m S Q R W) (hcs : (stateOf (m S)).scopes = cs) :
    Meets m S (fun a S' => Q a S' ∧ S'.scopes = cs) (fun e S' => R e S' ∧ S'.scopes = cs) W := by
  unfold Meets at h ⊢
  match hx : m S, h with
  | .ok a S', h =>
    rw [hx] at hcs
    exact ⟨h, hcs⟩
  | .error (.thrown e) S', h =>
    rw [hx] at hcs
    exact ⟨h, hcs⟩
  | .error (.suspended _) _, h => exact h
  | .error .outOfFuel _, h => exact h

theorem get {Q : CallState σ → CallState σ → Prop} (h : Q S S) :
    Meets (MonadState.get : Eval σ (CallState σ)) S Q R W := h

theorem modify {g : CallState σ → CallState σ} {Q : PUnit → CallState σ → Prop}
    (h : Q ⟨⟩ (g S)) : Meets (modify g : Eval σ PUnit) S Q R W := h

theorem of_eq {m' : Eval σ α} {S' : CallState σ} (heq : m S = m' S') (h : Meets m' S' Q R W) :
    Meets m S Q R W := by
  unfold Meets
  rw [heq]
  exact h

/-- What an evaluation comes to is what it comes to. -/
theorem self : Meets m S (fun a T => m S = .ok a T) (fun e T => m S = .error (.thrown e) T)
    (fun _ T => ∃ i, m S = .error i T) := by
  unfold Meets
  match m S with
  | .ok _ _ => rfl
  | .error (.thrown _) _ => rfl
  | .error (.suspended p) _ => exact ⟨.suspended p, rfl⟩
  | .error .outOfFuel _ => exact ⟨.outOfFuel, rfl⟩

end Meets

/-- A call returns or throws. -/
theorem callValue_ends {host : Host σ} {origin : Origin} {callee receiver : Value} {args : List Value}
    {S : CallState σ} {W : Option Suspension → CallState σ → Prop} :
    Meets (callValue host origin callee receiver args) S
      (fun v T => callValue host origin callee receiver args S = .ok v T)
      (fun e T => callValue host origin callee receiver args S = .error (.thrown e) T) W := by
  cases callee
  case function f =>
    show Meets (callFunction host origin f receiver args) S
      (fun v T => callFunction host origin f receiver args S = .ok v T)
      (fun e T => callFunction host origin f receiver args S = .error (.thrown e) T) W
    unfold Meets callFunction
    cases (f.call host receiver args).settle S.world with
    | mk result world => cases result <;> rfl
  all_goals exact rfl

/-- Chaining cannot fail. -/
theorem chain_ends {r : CallState σ → CallState σ → Prop} {u : Bool} {pending : Option Value} {e : Value}
    {S : CallState σ} {R : Value → CallState σ → Prop} {W : Option Suspension → CallState σ → Prop}
    (h : Within r (chain u pending e)) : Meets (chain u pending e) S (fun _ T => r S T) R W := by
  have h := h S
  cases pending with
  | none => exact h
  | some p => cases u <;> cases p <;> exact h

end Eval

/-! ### Phases -/

/-- What is on its way out of a function while its body is executed. -/
inductive Mood where
  | calm
  | returning (v : Value)
  | throwing (exception : Value)

/-- The exception that is pending after another one was thrown, which has this identity
if it keeps both. -/
def chained (unwrapClosing : Bool) (id : Nat) (e : Value) : Option Value → Value
  | none => e
  | some .closing => if unwrapClosing then e else .suppressed id e .closing
  | some p => .suppressed id e p

namespace Mood

/-- The exception on its way out. -/
def pending : Mood → Option Value
  | throwing e => some e
  | _ => none

end Mood

/-- How a statement is left, as far as something is on its way out. -/
def Exit.mood : Exit → Mood
  | ret v => .returning v
  | _ => .calm

/-- A call executes a statement, or is in a pass that started with this value in the
return slot and has still to dispose these resources. -/
inductive Phase where
  | running (m : Mood)
  | disposing (unwrapClosing : Bool) (rval : Value) (m : Mood) (rs : List Resource)

namespace Phase

/-- The phase after an exception is thrown. A pass keeps it pending. -/
def thrown (id : Nat) (e : Value) : Phase → Phase
  | running _ => running (.throwing e)
  | disposing u rval m rs => disposing u rval (.throwing (chained u id e m.pending)) rs

/-- Whether an exception can be thrown: while another one is on its way out, only in
a pass. -/
def mayThrow : Phase → Bool
  | running (.throwing _) => false
  | _ => true

/-- Whether a call can be suspended. -/
def maySuspend : Phase → Bool
  | running .calm | disposing .. => true
  | _ => false

end Phase

/-! ### Changes of a call -/

namespace CallState

variable {σ : Type} (S : CallState σ)

/-- The call with more events. -/
def log (es : List Event) : CallState σ := { S with trace := S.trace ++ es }

/-- The call on another heap. -/
def withHeap (h : Heap) : CallState σ := { S with world := { S.world with heap := h } }

/-- The call after a suspension that got a reply. -/
def answered (p : Suspension) (r : Reply σ) (rest : List (Reply σ)) : CallState σ :=
  { S with
    world := r.world
    globals := r.globals
    script := rest
    trace := S.trace ++ [.suspend p, .resume (p.accept r.answer)] }

end CallState

/-- What a declaration in a function of a kind registers: with a method that can be
called, or to be awaited only. -/
structure Record.Sound (kind : FunctionKind) (r : Resource) : Prop where
  method : (∃ f, r.method = some (.function f)) ∨ r.method = none ∧ r.hint = .async
  async : r.hint = .async → kind.isAsync

/-! ### Invariants -/

/-- What holds of the values in a call, of the call in each phase, and where it stops. -/
structure Invariant (σ : Type) where
  fine : Value → Prop
  holds : Phase → CallState σ → Prop
  left : Option Suspension → CallState σ → Prop

/-- A value that holds no other value. -/
def Value.isPlain : Value → Bool
  | undefined | null | bool _ | int _ | str _ | error .. => true
  | _ => false

namespace Suspension

/-- What a suspended call hands over. -/
def value : Suspension → Value
  | await v | yield v => v

/-- Whether a function of a kind can be suspended so, in a phase. -/
def AllowedIn (kind : FunctionKind) (φ : Phase) : Suspension → Prop
  | await _ => kind.isAsync ∧ φ.maySuspend
  | yield _ => kind.isGenerator ∧ φ = .running .calm

end Suspension

/-- An invariant that no part of an evaluation breaks, with a law for each. Handlers
are excluded where nothing `catches`. -/
structure Invariant.Lawful {σ : Type} (I : Invariant σ) (host : Host σ) (kind : FunctionKind)
    (catches : Bool) : Prop where
  plain : ∀ v, v.isPlain = true → I.fine v
  global : ∀ {S name v}, I.holds (.running .calm) S → S.globals.get? name = some v → I.fine v
  fresh : ∀ {φ S} n, I.holds φ S → I.holds φ (S.withHeap { S.world.heap with identities := n })
  raise : ∀ {φ S e} id, φ.mayThrow = true → I.holds φ S → I.fine e →
    I.holds (φ.thrown id e) (S.log [.raise e])
  caught : ∀ {S e}, catches = true → I.holds (.running (.throwing e)) S →
    (kind.isGenerator && e.isClosing) = false → I.fine e ∧ I.holds (.running .calm) S
  fuel : ∀ {S}, I.holds (.running .calm) S → I.left none S
  call : ∀ {S f args result world}, I.holds (.running .calm) S → (∀ v ∈ args, I.fine v) →
    (f.call host .undefined args).settle S.world = (result, world) →
    (∀ v, result = .ok v ∨ result = .error v → I.fine v) ∧
      I.holds (.running .calm) ({ S with world }.log [.call .body f .undefined args result])
  setRval : ∀ {φ S v}, φ.maySuspend = true → I.holds φ S → I.fine v →
    I.holds φ { S with rval := v }
  returns : ∀ {S v}, I.holds (.running .calm) S → I.fine v →
    I.holds (.running (.returning v)) { S.log [.returns v] with rval := v }
  stop : ∀ {φ S} {p : Suspension}, p.AllowedIn kind φ → I.holds φ S → I.fine p.value →
    I.left (some p) (S.log [.suspend p])
  next : ∀ {φ S r rest v} {p : Suspension}, p.AllowedIn kind φ → I.holds φ S → I.fine p.value →
    S.script = r :: rest → p.accept r.answer = .next v →
    I.fine v ∧ I.holds φ (S.answered p r rest)
  throw : ∀ {φ S r rest e} {p : Suspension} id, p.AllowedIn kind φ → I.holds φ S →
    I.fine p.value → S.script = r :: rest → p.accept r.answer = .throw e →
    I.holds (φ.thrown id e) (S.answered p r rest)
  close : ∀ {S r rest v} {p : Suspension}, kind.isGenerator = true → I.holds (.running .calm) S →
    I.fine p.value → S.script = r :: rest → p.accept r.answer = .ret v →
    I.holds (.running (.throwing .closing)) { S.answered p r rest with rval := v }
  iterate : ∀ {S id items}, I.holds (.running .calm) S → I.fine (.list id items) →
    I.holds (.running .calm)
      (S.withHeap { S.world.heap with iterators := S.world.heap.iterators.push (.ofList items none) })
  nextItem : ∀ {S id item c}, I.holds (.running .calm) S →
    (S.world.heap.cursor id).next = (item, c) → (∀ v, item = some v → I.fine v) ∧
      I.holds (.running .calm) ((S.withHeap
        { S.world.heap with iterators := S.world.heap.iterators.setIfInBounds id c }).log
          [.next id item])
  closeIterator : ∀ {S m id error c}, I.holds (.running m) S →
    (S.world.heap.cursor id).close = (error, c) → (∀ e, error = some e → I.fine e) ∧
      I.holds (.running m) ((S.withHeap
        { S.world.heap with iterators := S.world.heap.iterators.setIfInBounds id c }).log
          [.close id error])
  openScope : ∀ {S}, I.holds (.running .calm) S →
    I.holds (.running .calm) { S with scopes := .empty :: S.scopes }
  closeScope : ∀ {S m cs}, I.holds (.running m) S → S.scopes = .empty :: cs →
    I.holds (.running m) { S.log [.exitScope []] with scopes := cs }
  register : ∀ {S r c cs} n, I.holds (.running .calm) S → I.fine r.value → r.Sound kind →
    S.scopes = c :: cs →
    I.holds (.running .calm) { (S.withHeap { S.world.heap with identities := n }).log [.register r] with
      scopes := c.add r :: cs }
  take : ∀ {S m c cs} u, I.holds (.running m) S → S.scopes = c :: cs →
    (m.pending.isSome = true → u = kind.isGenerator) →
    I.holds (.disposing u S.rval m c.resources.reverse) { S with scopes := .empty :: cs }
  dispose : ∀ {S u rval m r rs f result world}, I.holds (.disposing u rval m (r :: rs)) S →
    r.method = some (.function f) → (f.call host r.value []).settle S.world = (result, world) →
    (∀ v, result = .ok v ∨ result = .error v → I.fine v) ∧
      I.holds (.disposing u rval m rs) ({ S with world }.log [.call .pass f r.value [] result])
  skip : ∀ {S u rval m r rs}, I.holds (.disposing u rval m (r :: rs)) S → r.method = none →
    I.holds (.disposing u rval m rs) S
  done : ∀ {S u rval m}, I.holds (.disposing u rval m []) S → I.holds (.running m) { S with rval }

end ResourceMachine
