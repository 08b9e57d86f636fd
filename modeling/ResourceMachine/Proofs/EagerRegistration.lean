/-
# Eager registration

A declaration looks for the dispose method when it is executed, and comes to one of a few
things: nothing to register, a resource, or a type error that leaves all scopes as they are
(`Declares`). What a disposal pass calls later on is the method that was found then, whatever
has become of the object meanwhile: each call of a pass is traced back to the moment at which
the resource was registered, and to the heap of that moment.

Key definitions: `Heap.kept`, `Declares`, `Moment.Registers`.
Key theorems: `exists_declares`, `Declares.unique`, `Exec.addDisposable_declares`,
`Owed.registered`, `Moment.Leads.registers`, `Moment.Reached.eager_registration`.
-/
import ResourceMachine.Proofs.DisposalOrder

namespace ResourceMachine

variable {σ : Type}

/-! ### What a declaration comes to -/

/-- What an object keeps under the symbol of a kind of declaration, undefined if nothing. -/
def Heap.kept (h : Heap) (object : Nat) (hint : Hint) : Value :=
  (h.property? object (.symbol hint)).getD .undefined

/-- What it comes to that a value is declared: a resource to register or none, or the message of
a type error. An async declaration asks for the sync method only if there is no async one; it
then registers a wrapper that is new. -/
inductive Declares (h : Heap) : Value → Hint → Except String (Option Resource) → Prop
  | nothing {v : Value} (nullish : v.isNullish = true) : Declares h v .sync (.ok none)
  | placeholder {v : Value} (nullish : v.isNullish = true) :
      Declares h v .async (.ok (some ⟨.undefined, .async, none⟩))
  | own {id : Nat} {hint : Hint} {f : Callable} (found : h.kept id hint = .function f) :
      Declares h (.object id) hint (.ok (some ⟨.object id, hint, some (.function f)⟩))
  | wrapped {id : Nat} {f : Callable} (missing : (h.kept id .async).isNullish = true)
      (found : h.kept id .sync = .function f) :
      Declares h (.object id) .async
        (.ok (some ⟨.object id, .async, some (.function (.settling h.identities f))⟩))
  | noObject {v : Value} {hint : Hint} (present : v.isNullish = false) (other : ∀ id, v ≠ .object id) :
      Declares h v hint (.error s!"using declarations require an object, got {v.typeName}")
  | missing {id : Nat} {hint : Hint} (own : (h.kept id hint).isNullish = true)
      (fallback : hint = .async → (h.kept id .sync).isNullish = true) :
      Declares h (.object id) hint (.error s!"Object is not disposable (missing [{hint.symbolName}])")
  | notCallable {id : Nat} {hint : Hint} (present : (h.kept id hint).isNullish = false)
      (rigid : (h.kept id hint).isCallable = false) :
      Declares h (.object id) hint (.error s!"[{hint.symbolName}] is not a function")
  | fallbackNotCallable {id : Nat} (missing : (h.kept id .async).isNullish = true)
      (present : (h.kept id .sync).isNullish = false) (rigid : (h.kept id .sync).isCallable = false) :
      Declares h (.object id) .async (.error s!"[{Hint.sync.symbolName}] is not a function")

/-- A computation on the heap ends as a declaration that comes to this: with the heap as it was
but for new identities. -/
def EndsAs (h : Heap) (m : OnHeap Value (Option Resource)) : Except String (Option Resource) → Prop
  | .ok r => ∃ n, m h = .ok r { h with identities := n }
  | .error message =>
    m h = .error (.error h.identities .typeError message) { h with identities := h.identities + 1 }

theorem throwTypeError_apply {α : Type} (message : String) (h : Heap) : (throwTypeError message : OnHeap Value α) h =
    .error (.error h.identities .typeError message) { h with identities := h.identities + 1 } := rfl

theorem EndsAs.unique {h : Heap} {m : OnHeap Value (Option Resource)} {o o' : Except String (Option Resource)}
    (ho : EndsAs h m o) (ho' : EndsAs h m o') : o = o' := by
  cases o with
  | ok r =>
    obtain ⟨n, hr⟩ := ho
    cases o' with
    | ok r' =>
      obtain ⟨n', hr'⟩ := ho'
      cases hr.symm.trans hr'
      rfl
    | error message' => cases hr.symm.trans ho'
  | error message =>
    have ho : m h = _ := ho
    cases o' with
    | ok r' =>
      obtain ⟨n', hr'⟩ := ho'
      cases ho.symm.trans hr'
    | error message' =>
      cases ho.symm.trans ho'
      rfl

section

variable {h : Heap} {id : Nat} {hint : Hint} {f : Callable}

/-! ### Looking for a method -/

theorem ownMethod_nullish (hown : (h.kept id hint).isNullish = true) :
    ownMethod id hint h = .ok none h := by
  show (if (h.kept id hint).isNullish = true then (pure none : OnHeap Value (Option Callable)) else _) h = _
  rw [if_pos hown]
  rfl

theorem ownMethod_function (hown : h.kept id hint = .function f) : ownMethod id hint h = .ok (some f) h := by
  show (if (h.kept id hint).isNullish = true then _
    else some <$> callable (h.kept id hint) hint : OnHeap Value (Option Callable)) h = _
  rw [hown, if_neg (by simp [Value.isNullish])]
  rfl

theorem ownMethod_rigid (hpresent : (h.kept id hint).isNullish = false) (hrigid : (h.kept id hint).isCallable = false) :
    ownMethod id hint h = .error (.error h.identities .typeError s!"[{hint.symbolName}] is not a function")
      { h with identities := h.identities + 1 } := by
  show (if (h.kept id hint).isNullish = true then _
    else some <$> callable (h.kept id hint) hint : OnHeap Value (Option Callable)) h = _
  rw [if_neg (by simp [hpresent])]
  cases hv : h.kept id hint with
  | function f => simp [hv, Value.isCallable] at hrigid
  | _ => rfl

end

/-- A declaration ends as what it comes to. -/
theorem Declares.endsAs {h : Heap} {v : Value} {hint : Hint} {o : Except String (Option Resource)}
    (hd : Declares h v hint o) : EndsAs h (createResource v hint) o := by
  cases hd with
  | nothing nullish =>
    cases v with
    | undefined | null => exact ⟨h.identities, rfl⟩
    | _ => cases nullish
  | placeholder nullish =>
    cases v with
    | undefined | null => exact ⟨h.identities, rfl⟩
    | _ => cases nullish
  | @own id hint f found =>
    refine ⟨h.identities, ?_⟩
    have hown := ownMethod_function found
    cases hint <;>
      simp [createResource, disposeMethod, bind, EStateM.bind, hown, pure, EStateM.pure]
  | @wrapped id f missing found =>
    refine ⟨h.identities + 1, ?_⟩
    have hmissing := ownMethod_nullish missing
    have hown := ownMethod_function found
    simp [createResource, disposeMethod, bind, EStateM.bind, hmissing, hown, pure, EStateM.pure, Heap.newSettling,
      Heap.freshId, Functor.map, EStateM.map]
  | noObject present other =>
    cases v with
    | undefined | null => cases present
    | object id => exact absurd rfl (other id)
    | _ => rfl
  | @missing id hint own fallback =>
    have hmissing := ownMethod_nullish own
    cases hint with
    | sync =>
      simp [EndsAs, createResource, disposeMethod, bind, EStateM.bind, hmissing, pure, EStateM.pure,
        throwTypeError_apply]
    | async =>
      have hfallback := ownMethod_nullish (fallback rfl)
      simp [EndsAs, createResource, disposeMethod, bind, EStateM.bind, hmissing, hfallback, pure, EStateM.pure,
        throwTypeError_apply]
  | @notCallable id hint present rigid =>
    have hrigid := ownMethod_rigid present rigid
    cases hint <;> simp [EndsAs, createResource, disposeMethod, bind, EStateM.bind, hrigid]
  | @fallbackNotCallable id missing present rigid =>
    have hmissing := ownMethod_nullish missing
    have hrigid := ownMethod_rigid present rigid
    simp [EndsAs, createResource, disposeMethod, bind, EStateM.bind, hmissing, hrigid]

/-- A declaration comes to one thing only. -/
theorem Declares.unique {h : Heap} {v : Value} {hint : Hint} {o o' : Except String (Option Resource)}
    (hd : Declares h v hint o) (hd' : Declares h v hint o') : o = o' := hd.endsAs.unique hd'.endsAs

/-- A declaration of an object whose method for it is there comes to something. -/
theorem exists_declares_own {h : Heap} {id : Nat} {hint : Hint} (hpresent : (h.kept id hint).isNullish = false) :
    ∃ o, Declares h (.object id) hint o := by
  by_cases hcallable : (h.kept id hint).isCallable = true
  · cases hv : h.kept id hint with
    | function f => exact ⟨_, .own hv⟩
    | _ => simp [hv, Value.isCallable] at hcallable
  · exact ⟨_, .notCallable hpresent (by simpa using hcallable)⟩

/-- Every declaration comes to something. -/
theorem exists_declares (h : Heap) (v : Value) (hint : Hint) : ∃ o, Declares h v hint o := by
  by_cases hnullish : v.isNullish = true
  · cases hint with
    | sync => exact ⟨_, .nothing hnullish⟩
    | async => exact ⟨_, .placeholder hnullish⟩
  · have hpresent : v.isNullish = false := by simpa using hnullish
    by_cases hobject : ∃ id, v = .object id
    · obtain ⟨id, rfl⟩ := hobject
      by_cases hown : (h.kept id hint).isNullish = true
      · cases hint with
        | sync => exact ⟨_, .missing hown nofun⟩
        | async =>
          by_cases hsync : (h.kept id .sync).isNullish = true
          · exact ⟨_, .missing hown fun _ => hsync⟩
          · have hsync : (h.kept id .sync).isNullish = false := by simpa using hsync
            by_cases hcallable : (h.kept id .sync).isCallable = true
            · cases hv : h.kept id .sync with
              | function f => exact ⟨_, .wrapped hown hv⟩
              | _ => simp [hv, Value.isCallable] at hcallable
            · exact ⟨_, .fallbackNotCallable hown hsync (by simpa using hcallable)⟩
      · exact exists_declares_own (by simpa using hown)
    · exact ⟨_, .noObject hpresent fun id hid => hobject ⟨id, hid⟩⟩

/-! ### The instruction -/

/-- What becomes of the innermost scope. -/
def Capability.after (c : Capability) : Except String (Option Resource) → Capability
  | .ok (some r) => c.add r
  | .ok none | .error _ => c

/-- Where execution goes: on, or to the handlers with a type error. -/
def Next.after (next id : Nat) : Except String (Option Resource) → Next
  | .ok _ => .goto next
  | .error message => .throw (.error id .typeError message)

/-- `ADD_DISPOSABLE` does to the innermost scope what the declaration comes to, and changes
nothing else but the number of identities. -/
theorem Exec.addDisposable_declares {env : Env σ} {size next : Nat} {hint : Hint} {a : Activation σ} {v : Value}
    {rest : List Value} {c : Capability} {outer : List Capability} {o : Except String (Option Resource)}
    (hslots : a.frame.stack.slots = v :: rest) (hscopes : a.frame.scopes = c :: outer)
    (ho : Declares a.world.heap v hint o) :
    ∃ n, Exec.instr env size next (.addDisposable hint.byte) a = .ok (.after next a.world.heap.identities o)
      ⟨{ a.frame with stack := { a.frame.stack with slots := rest }, scopes := c.after o :: outer },
        ⟨{ a.world.heap with identities := n }, a.world.host⟩⟩ := by
  obtain ⟨⟨unit, index, ip, ⟨slots, capacity⟩, locals, rval, handlers, scopes⟩, ⟨heap, host⟩⟩ := a
  obtain rfl : slots = v :: rest := hslots
  obtain rfl : scopes = c :: outer := hscopes
  have hends := ho.endsAs
  show ∃ n, addDisposable next hint.byte _ = _
  unfold addDisposable
  rw [Hint.ofByte?_byte]
  cases o with
  | ok r =>
    obtain ⟨n, hr⟩ := hends
    refine ⟨n, ?_⟩
    cases r <;>
      simp [bind, EStateM.bind, Exec.pop, OperandStack.pop, Exec.settle, Guest.settle, World.onHeap, hr, Exec.onScope,
        Exec.frame, get_apply, Exec.onFrame, modify_apply, pure, EStateM.pure, Next.after, Capability.after]
  | error message =>
    refine ⟨heap.identities + 1, ?_⟩
    have hends : createResource v hint heap = _ := hends
    simp [bind, EStateM.bind, Exec.pop, OperandStack.pop, Exec.settle, Guest.settle, World.onHeap, hends,
      pure, EStateM.pure, Next.after, Capability.after]

/-! ### The wrapper -/

/-- How the promise settles that a wrapper answers with. -/
def Settlement.after : Except Value Value → Settlement
  | .ok _ => .fulfilled .undefined
  | .error e => .rejected e

/-- A wrapper calls what it wraps once, on its own receiver without arguments, and answers with
a promise that has settled accordingly. -/
theorem Callable.call_settling (host : Host σ) (n : Nat) (f : Callable) (receiver : Value) (args : List Value)
    (w : World σ) : ∃ result w', (f.call host receiver []).settle w = (result, w') ∧
      (Callable.settling n f).call host receiver args w = .ok (.promise w'.heap.promises.size)
        ⟨{ w'.heap with promises := w'.heap.promises.push (.after result) }, w'.host⟩ := by
  cases hsettle : (f.call host receiver []).settle w with
  | mk result w' =>
    refine ⟨result, w', rfl, ?_⟩
    simp only [Callable.call, hsettle]
    cases result <;> rfl

/-! ### Where a resource was registered -/

/-- What is owed was registered at some point, and owed from there on: what was owed then is
owed behind it still. -/
theorem Owed.registered {es : List Event} {qs rs : List Resource} {r : Resource} (h : Owed es (qs ++ r :: rs)) :
    ∃ es₀ es₁, es = es₀ ++ .register r :: es₁ ∧ Owed es₀ rs := by
  generalize hall : qs ++ r :: rs = all at h
  induction h generalizing qs with
  | nil => simp at hall
  | @snoc es e before after earlier settles ih =>
    have hlater {qs' : List Resource} (hbefore : qs' ++ r :: rs = before) :
        ∃ es₀ es₁, es ++ [e] = es₀ ++ .register r :: es₁ ∧ Owed es₀ rs := by
      obtain ⟨es₀, es₁, rfl, howed⟩ := ih hbefore
      exact ⟨es₀, es₁ ++ [e], by simp, howed⟩
    cases settles with
    | @register _ r' method =>
      cases qs with
      | nil =>
        obtain ⟨rfl, rfl⟩ := List.cons.inj hall
        exact ⟨es, [], rfl, earlier⟩
      | cons q qs => exact hlater (List.cons.inj hall).2
    | registerAwait | exitScope | plain => exact hlater hall
    | @dispose _ r' => exact @hlater (r' :: qs) (by rw [List.cons_append, hall])

/-- A hint is written in one way. -/
theorem Hint.byte_of_ofByte? {b : UInt8} {hint : Hint} (h : ofByte? b = some hint) : hint.byte = b := by
  simpa using List.find?_some h

theorem Declares.hint_eq {h : Heap} {v : Value} {hint : Hint} {r : Resource}
    (hd : Declares h v hint (.ok (some r))) : r.hint = hint := by
  cases hd <;> rfl

namespace Activation

variable {env : Env σ} {code : Bytes} {pc : Nat} {a : Activation σ} {r : Resource}

/-- An instruction that registers a resource is a declaration that comes to it. -/
theorem eventsOf_register {i : Instr} (h : .register r ∈ a.eventsOf env code pc i) :
    i = .addDisposable r.hint.byte ∧ a.eventsOf env code pc i = [.register r] ∧
      ∃ v rest c outer, a.frame.stack.slots = v :: rest ∧ a.frame.scopes = c :: outer ∧
        Declares a.world.heap v r.hint (.ok (some r)) := by
  cases i
  case addDisposable byte =>
    rw [eventsOf_addDisposable] at h ⊢
    cases hbyte : Hint.ofByte? byte with
    | none => simp [hbyte] at h
    | some hint =>
      obtain rfl := Hint.byte_of_ofByte? hbyte
      cases hslots : a.frame.stack.slots with
      | nil => simp [hslots] at h
      | cons v rest =>
        cases hscopes : a.frame.scopes with
        | nil => simp [hscopes] at h
        | cons c outer =>
          obtain ⟨o, ho⟩ := exists_declares a.world.heap v hint
          have hends := ho.endsAs
          simp only [hbyte, hslots, hscopes] at h ⊢
          match o, hends with
          | .error message, hends =>
            have hends : createResource v hint a.world.heap = _ := hends
            simp [hends] at h
          | .ok none, ⟨n, hends⟩ => simp [hends] at h
          | .ok (some r'), ⟨n, hends⟩ =>
            simp only [hends, List.mem_singleton, Event.register.injEq] at h ⊢
            subst h
            obtain rfl := ho.hint_eq
            exact ⟨rfl, rfl, v, rest, c, outer, rfl, rfl, ho⟩
  case call => rw [eventsOf_call] at h; split at h <;> simp at h
  case iterNext => rw [eventsOf_iterNext] at h; split at h <;> simp at h
  case iterClose => rw [eventsOf_iterClose] at h; split at h <;> simp at h
  case popDisposeScope => rw [eventsOf_popDisposeScope] at h; split at h <;> simp at h
  case await => rw [eventsOf_await] at h; split at h <;> simp at h
  case yield => rw [eventsOf_yield] at h; split at h <;> simp at h
  case setRval =>
    rw [eventsOf_setRval] at h
    split at h
    · split at h <;> simp at h
    · simp at h
  all_goals exact absurd h List.not_mem_nil

/-- It does nothing else that can be seen. -/
theorem events_register (h : .register r ∈ a.events env code pc) : a.events env code pc = [.register r] ∧
    Instr.readAt code pc = .ok (.addDisposable r.hint.byte) ∧
    ∃ v rest c outer, a.frame.stack.slots = v :: rest ∧ a.frame.scopes = c :: outer ∧
      Declares a.world.heap v r.hint (.ok (some r)) := by
  unfold events at h ⊢
  cases hread : Instr.readAt code pc with
  | error e => simp [hread] at h
  | ok i =>
    simp only [hread] at h ⊢
    have hraised : .register r ∉ a.raised env code pc i := by
      unfold raised
      split
      · split <;> simp
      · simp
    obtain ⟨rfl, hevents, v, rest, c, outer, hslots, hscopes, hd⟩ :=
      eventsOf_register ((List.mem_append.mp h).resolve_right hraised)
    obtain ⟨n, hdone⟩ := @Exec.addDisposable_declares σ env code.size
      (pc + (Instr.addDisposable r.hint.byte).size) r.hint a v rest c outer _ hslots hscopes hd
    refine ⟨?_, rfl, v, rest, c, outer, hslots, hscopes, hd⟩
    rw [hevents, raised, hdone]
    rfl

end Activation

namespace Moment

variable {Ω : Surroundings σ} {μ μ' : Moment σ} {id : TaskId} {t : Task} {r : Resource} {es es' : List Event}

/-- A task is at a declaration that comes to a resource: `ADD_DISPOSABLE` is executed next, with
a value on top of the stack, in a scope. -/
def Registers (μ : Moment σ) (id : TaskId) (r : Resource) : Prop :=
  ∃ code pc a, μ.turn = some ⟨id, code, .running pc a⟩ ∧ Instr.readAt code pc = .ok (.addDisposable r.hint.byte) ∧
    ∃ v rest c outer, a.frame.stack.slots = v :: rest ∧ a.frame.scopes = c :: outer ∧
      Declares a.world.heap v r.hint (.ok (some r))

/-- A step adds to what one task had a part in. A resource is registered by a step of its own. -/
theorem Step.adds (h : Step Ω μ μ') : ∃ id fs, μ'.log = μ.log ++ TaskId.events id fs ∧
    ∀ r, .register r ∈ fs → fs = [.register r] ∧ μ.Registers id r := by
  have hplain {μ : Moment σ} {id : TaskId} {fs : List Event} (hfs : ∀ r, .register r ∉ fs) :
      ∀ r, .register r ∈ fs → fs = [.register r] ∧ μ.Registers id r := fun r hr => absurd hr (hfs r)
  cases h with
  | spawn | surroundings | promote | exhaust | record => exact ⟨⟨0⟩, [], (List.append_nil _).symm, nofun⟩
  | @prepare _ _ _ id t mode =>
    refine ⟨id, t.refusal mode, rfl, hplain fun r => ?_⟩
    unfold Task.refusal
    split <;> simp
  | @begin _ _ id mode =>
    refine ⟨id, mode.events, rfl, hplain fun r => ?_⟩
    cases mode <;> simp [Resume.events, Resume.answer?]
  | @instruct vm _ id code pc a =>
    refine ⟨id, a.events ⟨Ω.host, vm.globals⟩ code pc, rfl, fun r hr => ?_⟩
    obtain ⟨hevents, hread, hdeclares⟩ := Activation.events_register hr
    exact ⟨hevents, code, pc, a, rfl, hread, hdeclares⟩

/-- Whatever is registered was registered at some moment, by a declaration that came to it. -/
theorem Leads.registers {μ₀ : Moment σ} (h : Leads Ω μ₀ μ) (hnew : μ₀.history id = [])
    (hes : μ.history id = es ++ .register r :: es') :
    ∃ μ₁, Leads Ω μ₀ μ₁ ∧ Leads Ω μ₁ μ ∧ μ₁.history id = es ∧ μ₁.Registers id r := by
  induction h generalizing es' with
  | refl =>
    rw [hnew] at hes
    simp at hes
  | @tail μ₁ μ₂ hleads hstep ih =>
    obtain ⟨id', fs, hlog, hfs⟩ := hstep.adds
    rw [history, hlog, history_append] at hes
    rcases List.append_eq_append_iff.mp hes with ⟨gs, hgs, hrest⟩ | ⟨gs, hgs, hrest⟩
    · -- the step adds what is registered, and nothing before it
      split at hrest
      · subst id'
        obtain ⟨hfs, hregisters⟩ := hfs r (by rw [hrest]; simp)
        have hnil : gs = [] := by
          rw [hfs] at hrest
          cases gs with
          | nil => rfl
          | cons e gs => simpa using congrArg List.length hrest
        rw [hnil, List.append_nil] at hgs
        exact ⟨μ₁, hleads, .single hstep, hgs.symm, hregisters⟩
      · simp at hrest
    · cases gs with
      | nil =>
        split at hrest
        · subst id'
          rw [List.nil_append] at hrest
          obtain ⟨-, hregisters⟩ := hfs r (by rw [← hrest]; simp)
          rw [List.append_nil] at hgs
          exact ⟨μ₁, hleads, .single hstep, hgs, hregisters⟩
        · simp at hrest
      | cons g gs =>
        obtain ⟨rfl, -⟩ := List.cons.inj hrest
        obtain ⟨μ, hleads', hlater, hμ⟩ := ih hgs
        exact ⟨μ, hleads', hlater.tail hstep, hμ⟩

/-- **Registration is exact, eager and atomic.** `ADD_DISPOSABLE` does what the declaration comes
to, which is one thing only; each call of a pass is of the method that the registration of the
resource found, at the moment at which the resource was registered; and a wrapper calls what it
wraps once, and answers with a promise that has settled accordingly. -/
theorem Reached.eager_registration (hloaded : ∀ m, Ω.loaded m → Compiles m) (h : Reached Ω μ)
    (hget : μ.vm.schedule.get? id = some t) :
    (∀ {env : Env σ} {size next : Nat} {hint : Hint} {a : Activation σ} {v : Value} {rest : List Value}
      {c : Capability} {outer : List Capability}, a.frame.stack.slots = v :: rest → a.frame.scopes = c :: outer →
      ∃! o, Declares a.world.heap v hint o ∧
        ∃ n, Exec.instr env size next (.addDisposable hint.byte) a = .ok (.after next a.world.heap.identities o)
          ⟨{ a.frame with stack := { a.frame.stack with slots := rest }, scopes := c.after o :: outer },
            ⟨{ a.world.heap with identities := n }, a.world.host⟩⟩) ∧
    (∀ {es es' : List Event} {f : Callable} {receiver : Value} {args : List Value} {result : Except Value Value},
      μ.history id = es ++ .call .pass f receiver args result :: es' →
      ∃ r, r.method = some (.function f) ∧ r.value = receiver ∧ args = [] ∧
        ∃ es₀ es₁ rs μ₀, es = es₀ ++ .register r :: es₁ ∧ Owed es₀ rs ∧ Owed es (r :: rs) ∧
          Reached Ω μ₀ ∧ Leads Ω μ₀ μ ∧ μ₀.history id = es₀ ∧ μ₀.Registers id r) ∧
    ∀ (n : Nat) (f : Callable) (receiver : Value) (args : List Value) (w : World σ), ∃ result w',
      (f.call Ω.host receiver []).settle w = (result, w') ∧
      (Callable.settling n f).call Ω.host receiver args w = .ok (.promise w'.heap.promises.size)
        ⟨{ w'.heap with promises := w'.heap.promises.push (.after result) }, w'.host⟩ := by
  refine ⟨fun hslots hscopes => ?_, fun {es es' f receiver args result} hes => ?_, Callable.call_settling Ω.host⟩
  · obtain ⟨o, ho⟩ := exists_declares _ _ _
    exact ⟨o, ⟨ho, Exec.addDisposable_declares hslots hscopes ho⟩, fun _ ho' => ho'.1.unique ho⟩
  · obtain ⟨_, howes, -⟩ := h.owes hloaded hget
    rw [hes, ← List.singleton_append, ← List.append_assoc] at howes
    obtain ⟨rs, howes⟩ := howes.earlier_of_append
    obtain ⟨_, howed, hsettles⟩ := howes.last
    cases hsettles with
    | plain plain => cases plain
    | @dispose _ r _ _ method =>
      obtain ⟨es₀, es₁, rfl, howed₀⟩ := Owed.registered (show Owed _ ([] ++ r :: _) from howed)
      rw [List.append_assoc, List.cons_append] at hes
      obtain ⟨options, world, hallowed, hleads⟩ := h
      obtain ⟨μ₀, hearlier, hlater, hhistory, hregisters⟩ := hleads.registers rfl hes
      exact ⟨r, method, rfl, rfl, es₀, es₁, rs, μ₀, rfl, howed₀, howed, ⟨options, world, hallowed, hearlier⟩, hlater,
        hhistory, hregisters⟩

/-- A host that makes an object with a dispose method of its own, and later writes another one. -/
def Meddler.call : Host Unit := fun f _ _ w =>
  match f.id with
  | 0 => World.onHeap (Heap.newObject [(.symbol .sync, .function (.host ⟨2, "dispose"⟩))]) w
  | 1 => World.onHeap (do Heap.setProperty 0 (.symbol .sync) (.function (.host ⟨3, "other"⟩)); pure .undefined) w
  | _ => .ok .undefined w

/-- A function that lets the host meddle with a resource while it holds it. -/
def meddled : Declaration := ⟨"f", .normal, [],
  [.usingIn "x" .sync (.call (.global "make") []), .expr (.call (.global "meddle") [])]⟩

theorem Reached.eager_registration_meddled : ∃ Ω : Surroundings Unit, ∃ μ t, Ω.host = Meddler.call ∧
    (∀ m, Ω.loaded m ↔ Module.compile "m" [meddled] = .ok m) ∧ Reached Ω μ ∧
    μ.vm.schedule.get? ⟨0⟩ = some t ∧ ∃ es receiver args result es' r es₀ es₁ rs μ₀,
      μ.history ⟨0⟩ = es ++ .call .pass (.host ⟨2, "dispose"⟩) receiver args result :: es' ∧
      r.method = some (.function (.host ⟨2, "dispose"⟩)) ∧ r.value = receiver ∧ args = [] ∧
      es = es₀ ++ .register r :: es₁ ∧ Owed es₀ rs ∧ Owed es (r :: rs) ∧ Leads Ω μ₀ μ ∧ μ₀.Registers ⟨0⟩ r := by
  let Ω : Surroundings Unit :=
    ⟨Meddler.call, fun m => Module.compile "m" [meddled] = .ok m, fun _ => True, fun _ _ => True⟩
  have htrial : (trial Ω.host .standard ⟨.empty, ()⟩
      [("make", .function (.host ⟨0, "make"⟩)), ("meddle", .function (.host ⟨1, "meddle"⟩))] [meddled] "f" []
      [.run 100]).any (fun μ => (μ.vm.schedule.get? ⟨0⟩).isSome &&
        (μ.history ⟨0⟩).any fun e => e.disposed? == some (0, .host ⟨2, "dispose"⟩)) = true := by
    rw [trial_eq (by decide +kernel)]
    decide +kernel
  obtain ⟨μ, htrial, hμ⟩ := (Option.any_eq_true _ _).mp htrial
  obtain ⟨hsome, hany⟩ := (Bool.and_eq_true _ _).mp hμ
  obtain ⟨t, hget⟩ := Option.isSome_iff_exists.mp hsome
  obtain ⟨e, hmem, he⟩ := List.any_eq_true.mp hany
  obtain ⟨es, es', hes⟩ := List.append_of_mem hmem
  have hreached : Reached Ω μ := .of_trial trivial trivial (fun _ h => h) (by simp) (by simp) htrial
  have hloaded : ∀ m, Ω.loaded m → Compiles m := fun m hm => ⟨"m", [meddled], hm, by decide⟩
  unfold Event.disposed? at he
  split at he
  · obtain ⟨rfl, rfl⟩ := Prod.mk.inj (Option.some.inj (beq_iff_eq.mp he))
    obtain ⟨-, hcalls, -⟩ := Reached.eager_registration hloaded hreached hget
    obtain ⟨r, hmethod, hvalue, hargs, es₀, es₁, rs, μ₀, heq, howed, howed', -, hleads, -, hregisters⟩ := hcalls hes
    exact ⟨Ω, μ, t, rfl, fun _ => .rfl, hreached, hget, es, _, _, _, es', r, es₀, es₁, rs, μ₀, hes, hmethod, hvalue,
      hargs, heq, howed, howed', hleads, hregisters⟩
  · cases he

end Moment
end ResourceMachine
