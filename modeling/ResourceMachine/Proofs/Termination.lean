/-
# Evaluations that come to an end

Code without `while` has nothing to go round for but the items of iterators, and the
resources of scopes. Of both there are finitely many; and where nobody winds an iterator
back, an iterator has fewer items left after each round. So an evaluation of such code
comes to its end, whatever the host answers where it stops to be resumed.

How often it stops cannot be told beforehand, since an answer may be a longer list than
any before. So that an evaluation comes to its end is said by induction (`Finishes`): it is
at its end, or it waits for a reply and comes to its end whatever the reply is.

Key definitions: `Finishes`, `Total`, `Stmt.loopFree`.
Key theorems: `Finishes.bind`, `Total.suspend`, `Total.forLoop`, `Stmt.exec_total`,
`Declaration.call_total`.
-/
import ResourceMachine.Proofs.EvaluationInvariant
import ResourceMachine.Proofs.Onward

namespace ResourceMachine

/-! ### Evaluations that finish -/

section

variable {σ α β : Type}

/-- An evaluation at its end: with a value, or with an exception. -/
def Eval.over : Except Value α → CallState σ → EStateM.Result Interrupt (CallState σ) α
  | .ok a, T => .ok a T
  | .error e, T => .error (.thrown e) T

/-- What an evaluation comes to with the replies that it gets, and with enough fuel: it comes
to its end, in a state like `Q`, with the other replies left; or it stops for want of a reply,
and comes to its end whatever the reply is, as long as no iterator is wound back. -/
inductive Finishes (Q : CallState σ → Prop) :
    (List (Reply σ) → Nat → EStateM.Result Interrupt (CallState σ) α) → Prop
  | ends {F : List (Reply σ) → Nat → EStateM.Result Interrupt (CallState σ) α} (fuel : Nat)
      (x : Except Value α) (T : CallState σ) (post : Q T)
      (here : ∀ n, fuel ≤ n → ∀ script, F script n = Eval.over x { T with script }) : Finishes Q F
  | asks {F : List (Reply σ) → Nat → EStateM.Result Interrupt (CallState σ) α} (fuel : Nat)
      (p : Suspension) (T : CallState σ) (waits : T.script = [])
      (here : ∀ n, fuel ≤ n → F [] n = .error (.suspended p) T)
      (next : ∀ r : Reply σ, T.world.Onward r.world → Finishes Q fun script => F (r :: script)) :
      Finishes Q F

namespace Finishes

variable {Q Q' : CallState σ → Prop}
  {F F' : List (Reply σ) → Nat → EStateM.Result Interrupt (CallState σ) α}

theorem mono (h : Finishes Q F) (hQ : ∀ T, Q T → Q' T) : Finishes Q' F := by
  induction h with
  | ends fuel x T post here => exact .ends fuel x T (hQ T post) here
  | asks fuel p T waits here _ ih => exact .asks fuel p T waits here ih

/-- What an evaluation comes to with little fuel does not matter. -/
theorem congr (h : Finishes Q F) (fuel : Nat) (heq : ∀ n, fuel ≤ n → ∀ script, F' script n = F script n) :
    Finishes Q F' := by
  induction h generalizing F' with
  | ends fuel' x T post here =>
    refine .ends (max fuel fuel') x T post fun n hn script => ?_
    rw [heq n (by omega), here n (by omega)]
  | asks fuel' p T waits here _ ih =>
    refine .asks (max fuel fuel') p T waits (fun n hn => ?_) fun r hr => ih r hr fun n hn script => heq n hn _
    rw [heq n (by omega), here n (by omega)]

/-- An evaluation goes on with the end of another one. -/
theorem bind {m : Nat → Eval σ α} {k : Nat → α → Eval σ β} {S : List (Reply σ) → CallState σ}
    (h : Finishes Q fun script n => m n (S script))
    (hk : ∀ a T, Q T → Finishes Q' fun script n => k n a { T with script })
    (hQ : ∀ T, Q T → Q' T) : Finishes Q' fun script n => (m n >>= k n) (S script) := by
  generalize hF : (fun script n => m n (S script)) = F at h
  induction h generalizing S with
  | ends fuel x T post here =>
    subst hF
    cases x with
    | ok a =>
      refine (hk a T post).congr fuel fun n hn script => ?_
      show EStateM.bind (m n) (k n) (S script) = _
      rw [EStateM.bind, show m n (S script) = _ from here n hn script, Eval.over]
    | error e =>
      refine .ends fuel (.error e) T (hQ T post) fun n hn script => ?_
      show EStateM.bind (m n) (k n) (S script) = _
      rw [EStateM.bind, show m n (S script) = _ from here n hn script, Eval.over, Eval.over]
  | asks fuel p T waits here _ ih =>
    subst hF
    refine .asks fuel p T waits (fun n hn => ?_) fun r hr => ih r hr (S := fun script => S (r :: script)) rfl
    show EStateM.bind (m n) (k n) (S []) = _
    rw [EStateM.bind, show m n (S []) = _ from here n hn]

/-- An evaluation tells how another one ended. -/
theorem attempt {m : Nat → Eval σ α} {S : List (Reply σ) → CallState σ}
    (h : Finishes Q fun script n => m n (S script)) :
    Finishes Q fun script n => Eval.attempt (m n) (S script) := by
  generalize hF : (fun script n => m n (S script)) = F at h
  induction h generalizing S with
  | ends fuel x T post here =>
    subst hF
    refine .ends fuel (.ok x) T post fun n hn script => ?_
    rw [Eval.attempt, show m n (S script) = _ from here n hn script]
    cases x <;> rfl
  | asks fuel p T waits here _ ih =>
    subst hF
    refine .asks fuel p T waits (fun n hn => ?_) fun r hr => ih r hr (S := fun script => S (r :: script)) rfl
    rw [Eval.attempt, show m n (S []) = _ from here n hn]

end Finishes

/-- What a loop does with the next item of its iterator, with fuel for `n` more rounds. -/
def Eval.afterItem (label : Option String) (id : Nat) (body : Value → Eval σ Exit) (n : Nat) :
    Option Value → Eval σ Exit
  | none => return .normal
  | some v => do
    match ← attempt (body v) with
    | .ok x =>
      if x.continues label then forLoop label id body n
      else
        leaveIterator id
        return x.leaveLoop label
    | .error e =>
      let _ ← closeIterator id
      raise e

theorem Eval.forLoop_succ (label : Option String) (id : Nat) (body : Value → Eval σ Exit) (n : Nat) :
    forLoop label id body (n + 1) = nextItem id >>= afterItem label id body n := by
  rw [forLoop]
  congr 1

/-- An evaluation that comes to its end wherever it starts, and winds no iterator back. What
it does with its fuel is left open. -/
def Total (m : Nat → Eval σ α) : Prop :=
  ∀ S : CallState σ, Finishes (fun T => S.world.Onward T.world) fun script n => m n { S with script }

namespace Total

variable {m : Nat → Eval σ α} {k : Nat → α → Eval σ β} {host : Host σ} {kind : FunctionKind}

/-- An evaluation that is at its end at once. -/
theorem of_over {m : Eval σ α} (h : ∀ S : CallState σ, ∃ (x : Except Value α) (T : CallState σ),
    S.world.Onward T.world ∧ ∀ script, m { S with script } = Eval.over x { T with script }) : Total fun _ => m := by
  intro S
  obtain ⟨x, T, honward, here⟩ := h S
  exact .ends 0 x T honward fun _ _ script => here script

theorem pure (a : α) : Total fun _ => (Pure.pure a : Eval σ α) :=
  of_over fun S => ⟨.ok a, S, .refl _, fun _ => rfl⟩

theorem raise (e : Value) : Total fun _ => (Eval.raise e : Eval σ α) :=
  of_over fun S => ⟨.error e, S, .refl _, fun _ => rfl⟩

theorem bind (hm : Total m) (hk : ∀ a, Total fun n => k n a) : Total fun n => m n >>= k n := by
  intro S
  refine (hm S).bind (fun a T honward => ?_) fun _ h => h
  exact (hk a T).mono fun _ h => honward.trans h

theorem attempt (hm : Total m) : Total fun n => Eval.attempt (m n) := fun S => (hm S).attempt

/-- Looking at the state, apart from the replies. -/
theorem get {k : Nat → CallState σ → Eval σ β} (hk : ∀ S, Total fun n => k n S)
    (hscript : ∀ n S script, k n { S with script } = k n S) :
    Total fun n => MonadState.get >>= k n := by
  intro S
  refine (hk S S).congr 0 fun n _ script => ?_
  show k n { S with script } { S with script } = _
  rw [hscript]

/-- Changing the state, apart from the replies and the world. -/
theorem modify {f : CallState σ → CallState σ} (hworld : ∀ S, (f S).world = S.world)
    (hscript : ∀ S script, f { S with script } = { f S with script }) :
    Total fun _ => (modify f : Eval σ Unit) :=
  of_over fun S => ⟨.ok (), f S, by rw [hworld]; exact .refl _, fun script => by
    rw [Eval.over, ← hscript]
    rfl⟩

theorem log (event : Event) : Total fun _ => (Eval.log event : Eval σ Unit) :=
  modify (fun _ => rfl) fun _ _ => rfl

theorem setRval (v : Value) : Total fun _ => (Eval.setRval v : Eval σ Unit) :=
  modify (fun _ => rfl) fun _ _ => rfl

theorem signal (e : Value) : Total fun _ => (Eval.signal e : Eval σ α) := (log _).bind fun _ => raise e

theorem returnValue (v : Value) : Total fun _ => (Eval.returnValue v : Eval σ Unit) :=
  (log _).bind fun _ => setRval v

/-- Work on the heap that winds no iterator back. -/
theorem onHeap {m : OnHeap Value α} (h : Within Heap.Onward m) : Total fun _ => (Eval.onHeap m : Eval σ α) := by
  refine of_over fun S => ?_
  have hm := h S.world.heap
  unfold Eval.onHeap World.onHeap
  cases hx : m S.world.heap with
  | ok a heap =>
    rw [hx] at hm
    exact ⟨.ok a, { S with world := ⟨heap, S.world.host⟩ }, hm, fun script => by simp only [hx]; rfl⟩
  | error e heap =>
    rw [hx] at hm
    exact ⟨.error e, { S with world := ⟨heap, S.world.host⟩ }, hm, fun script => by simp only [hx]; rfl⟩

/-- Waiting for a reply. -/
theorem suspend (p : Suspension) : Total fun _ => (Eval.suspend p : Eval σ Value) := by
  intro S
  refine .asks 0 p { S with trace := S.trace ++ [Event.suspend p], script := [] } rfl
    (fun _ _ => rfl) fun r hr => ?_
  let T (a : Answer) : CallState σ :=
    { S with
      world := r.world
      globals := r.globals
      trace := S.trace ++ [Event.suspend p] ++ [Event.resume a] }
  cases haccept : p.accept r.answer with
  | next v =>
    refine .ends 0 (.ok v) (T (.next v)) hr fun _ _ script => ?_
    simp only [Eval.suspend, haccept]
    rfl
  | throw e =>
    refine .ends 0 (.error e) (T (.throw e)) hr fun _ _ script => ?_
    simp only [Eval.suspend, haccept]
    rfl
  | ret v =>
    refine .ends 0 (.error .closing) { T (.ret v) with rval := v } hr fun _ _ script => ?_
    simp only [Eval.suspend, haccept]
    rfl

theorem await (v : Value) : Total fun _ => (Eval.await v : Eval σ Value) :=
  (setRval v).bind fun _ => suspend _

theorem yield (v : Value) : Total fun _ => (Eval.yield v : Eval σ Value) :=
  (setRval v).bind fun _ => suspend _

theorem tick : Total fun _ => (Eval.tick : Eval σ Unit) := (await _).bind fun _ => pure _

/-! ### Work on the heap -/

theorem onFresh {m : OnHeap Value α} (h : Within OnlyFresh m) :
    Total fun _ => (Eval.onHeap m : Eval σ α) :=
  onHeap (h.mono fun ⟨_, heq⟩ => .of_eq (by rw [heq]))

theorem raiseNew (kind : ErrorKind) (message : String) :
    Total fun _ => (Eval.raiseNew kind message : Eval σ α) :=
  (onFresh fun h => ⟨h.identities + 1, rfl⟩).bind fun e => signal e

theorem iterate (v : Value) : Total fun _ => (Eval.iterate v : Eval σ Nat) := by
  cases v
  case list id items =>
    have hnew : Within Heap.Onward (Heap.newIterator (.ofList items none) : OnHeap Value Value) :=
      fun _ => .push _
    exact get (fun S => (onHeap hnew).bind fun _ => pure _) fun _ _ _ => rfl
  case iterator id => exact pure id
  all_goals exact raiseNew _ _

theorem closeIterator (id : Nat) : Total fun _ => (Eval.closeIterator id : Eval σ (Option Value)) := by
  have hclose : Within Heap.Onward (Heap.closeIterator id : OnHeap Value (Option Value)) :=
    fun _ => .set (Cursor.left_close _)
  exact (onHeap hclose).bind fun _ => (log _).bind fun _ => pure _

theorem leaveIterator (id : Nat) : Total fun _ => (Eval.leaveIterator id : Eval σ Unit) :=
  (closeIterator id).bind fun error => by
    cases error with
    | some e => exact signal e
    | none => exact pure ()

theorem callFunction (hhost : host.Onward) (origin : Origin) (f : Callable) (receiver : Value)
    (args : List Value) : Total fun _ => Eval.callFunction host origin f receiver args := by
  refine of_over fun S => ?_
  have honward := f.call_onward hhost receiver args S.world
  unfold Eval.callFunction
  cases hcall : (f.call host receiver args).settle S.world with
  | mk result world =>
    rw [hcall] at honward
    let T : CallState σ := { S with world, trace := S.trace ++ [.call origin f receiver args result] }
    cases result with
    | ok v => exact ⟨.ok v, T, honward, fun script => by simp only [hcall]; rfl⟩
    | error e =>
      refine ⟨.error e, { T with trace := T.trace ++ [.raise e] }, honward, fun script => ?_⟩
      simp only [hcall]
      rfl

theorem callValue (hhost : host.Onward) (origin : Origin) (callee receiver : Value) (args : List Value) :
    Total fun _ => Eval.callValue host origin callee receiver args := by
  cases callee
  case function f => exact callFunction hhost origin f receiver args
  all_goals exact raiseNew _ _

/-! ### Scopes and disposal -/

theorem openScope : Total fun _ => (Eval.openScope : Eval σ Unit) := modify (fun _ => rfl) fun _ _ => rfl

theorem closeScope : Total fun _ => (Eval.closeScope : Eval σ Unit) := by
  refine get (fun S => ?_) fun _ _ _ => rfl
  cases S.scopes with
  | nil => exact pure ()
  | cons c outer => exact (log _).bind fun _ => modify (fun _ => rfl) fun _ _ => rfl

theorem register (v : Value) (hint : Hint) : Total fun _ => (Eval.register v hint : Eval σ Unit) := by
  refine (onFresh (createResource_onlyFresh v hint)).attempt.bind fun record => ?_
  cases record with
  | error e => exact signal e
  | ok record =>
    cases record with
    | none => exact pure ()
    | some r =>
      refine (log _).bind fun _ => modify (fun S => ?_) fun S script => ?_
      · cases S.scopes <;> rfl
      · obtain ⟨_, _, _, _, _, scopes⟩ := S
        cases scopes <;> rfl

theorem takeResources : Total fun _ => (Eval.takeResources : Eval σ (List Resource)) := by
  refine get (fun S => ?_) fun _ _ _ => rfl
  cases S.scopes with
  | nil => exact pure []
  | cons c outer =>
    have hlist : ∀ boxes, Within OnlyFresh (Heap.newList boxes : OnHeap Value Value) := fun _ h =>
      ⟨h.identities + 1, rfl⟩
    refine (modify (f := fun S => { S with scopes := .empty :: outer }) (fun _ => rfl) fun _ _ => rfl).bind
      fun _ => ?_
    exact (onFresh (Heap.newResources_onlyFresh _)).bind fun boxes => (onFresh (hlist boxes)).bind fun _ => pure _

theorem chain (unwrapClosing : Bool) (pending : Option Value) (e : Value) :
    Total fun _ => (Eval.chain unwrapClosing pending e : Eval σ Value) := by
  have hnew : ∀ p, Total fun _ => (Eval.onHeap (Heap.newSuppressed e p) : Eval σ Value) := fun p =>
    onFresh fun h => ⟨h.identities + 1, rfl⟩
  unfold Eval.chain
  split
  · exact pure e
  · cases unwrapClosing with
    | false => exact hnew _
    | true => exact pure e
  · exact hnew _

theorem callMethod (hhost : host.Onward) (unwrapClosing : Bool) (r : Resource) (method : Value)
    (st : Eval.PassState) : Total fun _ => Eval.callMethod host unwrapClosing r method st := by
  refine (callValue hhost _ _ _ _).attempt.bind fun result => ?_
  cases result with
  | error e => exact (chain _ _ e).bind fun _ => pure _
  | ok v =>
    cases r.hint with
    | sync => exact pure _
    | async =>
      refine (await v).attempt.bind fun awaited => ?_
      cases awaited with
      | ok _ => exact pure _
      | error e => exact (chain _ _ e).bind fun _ => pure _

theorem disposeOne (hhost : host.Onward) (unwrapClosing : Bool) (r : Resource) (st : Eval.PassState) :
    Total fun _ => Eval.disposeOne host unwrapClosing r st := by
  have hbefore : Total fun _ => (Eval.awaitBefore r st : Eval σ Eval.PassState) := by
    unfold Eval.awaitBefore
    split
    · exact tick.bind fun _ => pure _
    · exact pure st
  refine hbefore.bind fun st => ?_
  cases r.method? with
  | some method => exact callMethod hhost _ r method st
  | none => exact pure _

/-- There are finitely many resources to dispose. -/
theorem disposeAll (hhost : host.Onward) (unwrapClosing : Bool) : ∀ (rs : List Resource)
    (st : Eval.PassState), Total fun _ => Eval.disposeAll host unwrapClosing rs st
  | [], st => pure st
  | r :: rs, st => (disposeOne hhost unwrapClosing r st).bind fun st => disposeAll hhost unwrapClosing rs st

theorem pass (hhost : host.Onward) (pending : Option Value) :
    Total fun _ => Eval.pass host kind pending := by
  refine get (fun S => ?_) fun _ _ _ => rfl
  refine takeResources.bind fun rs => (disposeAll hhost _ _ _).bind fun st => ?_
  have hafter : Total fun _ => (Eval.awaitAfter st : Eval σ Unit) := by
    unfold Eval.awaitAfter
    split
    · exact tick
    · exact pure ()
  exact hafter.bind fun _ => (setRval _).bind fun _ => pure _

theorem leave (hhost : host.Onward) : Total fun _ => Eval.leave host kind :=
  (pass hhost none).bind fun pending => by
    cases pending with
    | some e => exact raise e
    | none => exact pure ()

theorem leaveByThrow (hhost : host.Onward) (e : Value) : Total fun _ => Eval.leaveByThrow host kind e :=
  (pass hhost _).bind fun _ => closeScope.bind fun _ => pure _

/-- A body that is run in a scope, and the way out of it. -/
theorem inScope {body : Nat → Eval σ Exit} (hhost : host.Onward) (hbody : Total body) :
    Total fun n => Eval.inScope host kind (body n) := by
  have hleft := hbody.bind fun x => (@leave _ _ kind hhost).bind fun _ => pure x
  refine openScope.bind fun _ => hleft.attempt.bind fun result => ?_
  cases result with
  | error e => exact (leaveByThrow hhost e).bind fun e => raise e
  | ok x =>
    simp only
    split
    · exact (pass hhost _).bind fun _ => closeScope.bind fun _ => pure x
    · exact closeScope.bind fun _ => pure x

theorem block {body : Nat → Eval σ Exit} (hhost : host.Onward) (disposes : Bool) (hbody : Total body) :
    Total fun n => Eval.block host kind disposes (body n) := by
  unfold Eval.block
  cases disposes with
  | false => exact hbody
  | true => exact inScope hhost hbody

theorem roundInScope {body : Nat → Eval σ Exit} (hhost : host.Onward) (v : Value) (hint : Hint)
    (hbody : Total body) : Total fun n => Eval.roundInScope host kind v hint (body n) := by
  have hleft := (register v hint).bind fun _ => hbody.bind fun x =>
    (@leave _ _ kind hhost).bind fun _ => pure x
  refine openScope.bind fun _ => hleft.attempt.bind fun result => ?_
  cases result with
  | error e => exact (leaveByThrow hhost e).bind fun e => raise e
  | ok x => exact closeScope.bind fun _ => pure x

/-! ### Loops -/

/-- The next item of an iterator, and the call that has taken it. -/
theorem nextItem_eq (id : Nat) (S : CallState σ) :
    ∃ T : CallState σ, S.world.Onward T.world ∧ (∀ v, (S.world.heap.cursor id).next.1 = some v →
        id < T.world.heap.iterators.size ∧
          (T.world.heap.cursor id).left < (S.world.heap.cursor id).left) ∧
      ∀ script, Eval.nextItem id { S with script } =
        .ok (S.world.heap.cursor id).next.1 { T with script } := by
  obtain ⟨hle, hlt⟩ := Cursor.left_next (S.world.heap.cursor id)
  let c := S.world.heap.cursor id
  refine ⟨{ S with
    world := ⟨{ S.world.heap with iterators := S.world.heap.iterators.setIfInBounds id c.next.2 }, S.world.host⟩
    trace := S.trace ++ [.next id c.next.1] }, .set hle, fun v hv => ?_, fun _ => rfl⟩
  have hid : id < S.world.heap.iterators.size := by
    refine Nat.lt_of_not_le fun hge => ?_
    rw [Heap.cursor_of_size_le hge] at hv
    cases hv
  refine ⟨by simpa using hid, ?_⟩
  have hset : ({ S.world.heap with iterators := S.world.heap.iterators.setIfInBounds id c.next.2 } : Heap).cursor
      id = c.next.2 := by
    simp [Heap.cursor, hid]
  rw [hset]
  exact hlt (by rw [hv]; rfl)

/-- A round of a loop over an iterator, after `i` rounds that have used up fuel. -/
theorem forLoop_round {body : Nat → Value → Eval σ Exit} {label : Option String} {id i : Nat}
    {S : CallState σ} (hbody : ∀ v, Total fun n => body n v)
    (hrest : ∀ T : CallState σ, S.world.Onward T.world →
      (T.world.heap.cursor id).left < (S.world.heap.cursor id).left →
      Finishes (fun U => S.world.Onward U.world) fun script n =>
        Eval.forLoop label id (body n) (n - (i + 1)) { T with script }) :
    Finishes (fun U => S.world.Onward U.world) fun script n =>
      Eval.forLoop label id (body n) (n - i) { S with script } := by
  obtain ⟨T, honward, hsome, hnext⟩ := nextItem_eq id S
  have hloop : ∀ n, i + 1 ≤ n → ∀ script, Eval.forLoop label id (body n) (n - i) { S with script } =
      Eval.afterItem label id (body n) (n - (i + 1)) (S.world.heap.cursor id).next.1 { T with script } := by
    intro n hn script
    obtain ⟨j, hj⟩ : ∃ j, n - i = j + 1 := ⟨n - i - 1, by omega⟩
    rw [hj, Eval.forLoop_succ, show n - (i + 1) = j by omega]
    show EStateM.bind _ _ _ = _
    rw [EStateM.bind, hnext script]
  cases hitem : (S.world.heap.cursor id).next.1 with
  | none =>
    refine .ends (i + 1) (.ok .normal) T honward fun n hn script => ?_
    rw [hloop n hn script, hitem]
    rfl
  | some v =>
    obtain ⟨hid, hless⟩ := hsome v hitem
    refine Finishes.congr ?_ (i + 1) fun n hn script => by rw [hloop n hn script, hitem]
    refine ((hbody v T).attempt).bind (fun result U hU => ?_) fun U hU => honward.trans hU
    have hU' : S.world.Onward U.world := honward.trans hU
    cases result with
    | error e =>
      exact (((closeIterator id).bind fun _ => raise e) U).mono fun _ h => hU'.trans h
    | ok x =>
      simp only
      split
      · exact hrest U hU' (Nat.lt_of_le_of_lt (hU.left id hid) hless)
      · exact (((leaveIterator id).bind fun _ => pure _) U).mono fun _ h => hU'.trans h

/-- **A loop over an iterator comes to its end**, since the iterator has fewer items left
after each round. -/
theorem forLoop {body : Nat → Value → Eval σ Exit} (label : Option String) (id : Nat)
    (hbody : ∀ v, Total fun n => body n v) : Total fun n => Eval.forLoop label id (body n) n := by
  have hrounds : ∀ (left i : Nat) (S : CallState σ), (S.world.heap.cursor id).left < left →
      Finishes (fun T => S.world.Onward T.world) fun script n =>
        Eval.forLoop label id (body n) (n - i) { S with script } := by
    intro left
    induction left with
    | zero => exact fun i S hleft => absurd hleft (Nat.not_lt_zero _)
    | succ left ih =>
      intro i S hleft
      refine forLoop_round hbody fun T honward hless => ?_
      exact (ih (i + 1) T (by omega)).mono fun _ h => honward.trans h
  exact fun S => hrounds _ 0 S (Nat.lt_succ_self _)

end Total
end

/-! ### The language -/

mutual

/-- Whether a statement has no `while` in it. -/
def Stmt.loopFree : Stmt → Bool
  | .whileLoop _ _ _ => false
  | .block body | .forOf _ _ _ _ body => Stmt.allLoopFree body
  | .ifElse _ yes no => Stmt.allLoopFree yes && Stmt.allLoopFree no
  | .tryCatch body _ handler => Stmt.allLoopFree body && Stmt.allLoopFree handler
  | .expr _ | .letIn _ _ | .usingIn _ _ _ | .throw _ | .ret _ | .breakLoop _ | .continueLoop _ => true

/-- Whether no statement has a `while` in it. -/
def Stmt.allLoopFree : List Stmt → Bool
  | [] => true
  | s :: ss => s.loopFree && Stmt.allLoopFree ss

end

section

variable {σ : Type} {host : Host σ} {kind : FunctionKind}

mutual

theorem Expr.eval_total (hhost : host.Onward) : ∀ (e : Expr) (ρ : Bindings),
    Total fun _ => e.eval host ρ
  | .undefined, _ | .null, _ | .bool _, _ | .int _, _ | .str _, _ | .binding _, _ => by
    simp only [Expr.eval]
    exact .pure _
  | .global name, _ => by
    simp only [Expr.eval]
    refine .get (fun S => ?_) fun _ _ _ => rfl
    cases S.globals.get? name with
    | some v => exact .pure v
    | none => exact .raiseNew _ _
  | .call callee args, ρ => by
    simp only [Expr.eval]
    exact (eval_total hhost callee ρ).bind fun f => (evalAll_total hhost args ρ).bind fun vs =>
      .callValue hhost _ f _ vs
  | .await e, ρ => by
    simp only [Expr.eval]
    exact (eval_total hhost e ρ).bind fun v => .await v
  | .yield e, ρ => by
    simp only [Expr.eval]
    exact (eval_total hhost e ρ).bind fun v => .yield v

theorem Expr.evalAll_total (hhost : host.Onward) : ∀ (es : List Expr) (ρ : Bindings),
    Total fun _ => Expr.evalAll host es ρ
  | [], _ => by
    simp only [Expr.evalAll]
    exact .pure _
  | e :: es, ρ => by
    simp only [Expr.evalAll]
    exact (eval_total hhost e ρ).bind fun v => (evalAll_total hhost es ρ).bind fun vs => .pure _

end

mutual

/-- **Statements without `while` come to their end.** -/
theorem Stmt.exec_total (hhost : host.Onward) : ∀ (s : Stmt) (ρ : Bindings), s.loopFree = true →
    Total fun n => s.exec host kind n ρ
  | .expr e, ρ, _ => by
    simp only [Stmt.exec]
    exact (Expr.eval_total hhost e ρ).bind fun _ => .pure _
  | .letIn name init, ρ, _ => by
    simp only [Stmt.exec]
    exact (Expr.eval_total hhost init ρ).bind fun v => .pure _
  | .usingIn name hint init, ρ, _ => by
    simp only [Stmt.exec]
    exact (Expr.eval_total hhost init ρ).bind fun v => (Total.register v hint).bind fun _ => .pure _
  | .block body, ρ, h => by
    simp only [Stmt.exec]
    exact (Total.block hhost _ (execAll_total hhost body ρ h)).bind fun x => .pure _
  | .ifElse cond yes no, ρ, h => by
    obtain ⟨hyes, hno⟩ := Bool.and_eq_true_iff.mp h
    simp only [Stmt.exec]
    refine (Expr.eval_total hhost cond ρ).bind fun v => ?_
    split
    · exact (Total.block hhost _ (execAll_total hhost yes ρ hyes)).bind fun x => .pure _
    · exact (Total.block hhost _ (execAll_total hhost no ρ hno)).bind fun x => .pure _
  | .whileLoop _ _ _, _, h => by cases h
  | .forOf label binding hint iterable body, ρ, h => by
    replace h : Stmt.allLoopFree body = true := h
    simp only [Stmt.exec]
    refine (Expr.eval_total hhost iterable ρ).bind fun v => (Total.iterate v).bind fun id => ?_
    have hbody : ∀ v, Total fun n => Eval.block host kind (body.any Stmt.isUsing)
        (Stmt.execAll host kind n body ((binding, v) :: ρ)) := fun v =>
      .block hhost _ (execAll_total hhost body _ h)
    cases hint with
    | none => exact (Total.forLoop label id hbody).bind fun x => .pure _
    | some hint =>
      exact (Total.forLoop label id fun v => .roundInScope hhost v hint (hbody v)).bind fun x => .pure _
  | .tryCatch body param handler, ρ, h => by
    obtain ⟨hbody, hhandler⟩ := Bool.and_eq_true_iff.mp h
    simp only [Stmt.exec]
    refine (Total.block hhost _ (execAll_total hhost body ρ hbody)).attempt.bind fun result => ?_
    cases result with
    | ok x => exact .pure _
    | error e =>
      simp only
      split
      · exact .raise e
      · exact (Total.block hhost _ (execAll_total hhost handler _ hhandler)).bind fun x => .pure _
  | .throw e, ρ, _ => by
    simp only [Stmt.exec]
    exact (Expr.eval_total hhost e ρ).bind fun v => .signal v
  | .ret (some e), ρ, _ => by
    simp only [Stmt.exec]
    exact (Expr.eval_total hhost e ρ).bind fun v => (Total.returnValue v).bind fun _ => .pure _
  | .ret none, ρ, _ => by
    simp only [Stmt.exec]
    exact (Total.returnValue _).bind fun _ => .pure _
  | .breakLoop _, _, _ | .continueLoop _, _, _ => by
    simp only [Stmt.exec]
    exact .pure _

theorem Stmt.execAll_total (hhost : host.Onward) : ∀ (ss : List Stmt) (ρ : Bindings),
    Stmt.allLoopFree ss = true → Total fun n => Stmt.execAll host kind n ss ρ
  | [], _, _ => by
    simp only [Stmt.execAll]
    exact .pure _
  | s :: ss, ρ, h => by
    obtain ⟨hs, hss⟩ := Bool.and_eq_true_iff.mp h
    simp only [Stmt.execAll]
    refine (exec_total hhost s ρ hs).bind fun result => ?_
    split
    · exact execAll_total hhost ss _ hss
    · exact .pure _

end

/-- **A call of a function without `while` comes to its end**, whatever the replies are. -/
theorem Declaration.call_total (hhost : host.Onward) {d : Declaration} (h : Stmt.allLoopFree d.body = true)
    (args : List Value) : Total fun n => d.call host n args := by
  refine (Total.block hhost _ (Stmt.execAll_total hhost d.body _ h)).bind fun x => ?_
  cases x with
  | ret v => exact .pure v
  | normal | breakTo _ | continueTo _ => exact (Total.returnValue _).bind fun _ => .pure _

end
end ResourceMachine
