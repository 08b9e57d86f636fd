/-
# What the kinds of functions suspend

Only an async function awaits, and only a generator hands out values. A turn of any other
function runs to its end. An async function that comes to no await expression and registers
no async resource awaits nothing, whatever sync resources it disposes
(`Moment.Reached.kinds_suspend`).

Key definitions: `Suspension.Allowed`, `allowedOnly`.
Key theorems: `allowedOnly_lawful`, `Moment.Reached.allowed`, `Moment.Reached.ends_its_turn`,
`Moment.Reached.kinds_suspend`.
-/
import ResourceMachine.Proofs.AwaitExpressions
import ResourceMachine.Host.Scripted
import ResourceMachine.Proofs.Resumption
import ResourceMachine.Proofs.TaskInvariant
import ResourceMachine.Proofs.Trial

namespace ResourceMachine

variable {σ : Type}

/-! ### Suspensions that a kind allows -/

/-- Whether a function of a kind can be suspended so. -/
def Suspension.Allowed (kind : FunctionKind) : Suspension → Prop
  | await _ => kind.isAsync = true
  | yield _ => kind.isGenerator = true

/-- A call is suspended only as its kind allows. -/
def allowedOnly (σ : Type) (kind : FunctionKind) : Invariant σ where
  fine _ := True
  holds _ S := ∀ p, .suspend p ∈ S.trace → p.Allowed kind
  left o S := (∀ p, o = some p → p.Allowed kind) ∧ ∀ p, .suspend p ∈ S.trace → p.Allowed kind

theorem Suspension.AllowedIn.allowed {kind : FunctionKind} {φ : Phase} {p : Suspension}
    (h : p.AllowedIn kind φ) : p.Allowed kind := by
  cases p with
  | await v => exact h.1
  | yield v => exact h.1

/-- More events that are no suspensions change nothing. -/
theorem allowed_append {kind : FunctionKind} {es es' : List Event}
    (h : ∀ p, .suspend p ∈ es → p.Allowed kind) (hes' : ∀ p, .suspend p ∈ es' → p.Allowed kind)
    (p : Suspension) (hp : .suspend p ∈ es ++ es') : p.Allowed kind :=
  (List.mem_append.mp hp).elim (h p) (hes' p)

theorem allowedOnly_lawful (host : Host σ) (kind : FunctionKind) :
    (allowedOnly σ kind).Lawful host kind true where
  plain _ _ := trivial
  global _ _ := trivial
  fresh _ h := h
  raise _ _ h _ := allowed_append h (by simp)
  caught _ h _ := ⟨trivial, h⟩
  fuel h := ⟨nofun, h⟩
  call h _ _ := ⟨fun _ _ => trivial, allowed_append h (by simp)⟩
  setRval _ h _ := h
  returns h _ := allowed_append h (by simp)
  stop hp h _ := by
    refine ⟨fun p heq => ?_, allowed_append h ?_⟩
    · obtain rfl := Option.some.inj heq
      exact hp.allowed
    · simpa using hp.allowed
  next hp h _ _ _ := ⟨trivial, allowed_append h (by simpa using hp.allowed)⟩
  throw _ hp h _ _ _ := allowed_append h (by simpa using hp.allowed)
  close {S r rest v p} hkind h _ _ ha := by
    refine allowed_append h ?_
    have hp : p.Allowed kind := by
      cases p with
      | yield v => exact hkind
      | await v => cases v <;> cases hr : r.answer <;> simp [Suspension.accept, hr] at ha
    simpa using hp
  iterate h _ := h
  nextItem h _ := ⟨fun _ _ => trivial, allowed_append h (by simp)⟩
  closeIterator h _ := ⟨fun _ _ => trivial, allowed_append h (by simp)⟩
  openScope h := h
  closeScope h _ := allowed_append h (by simp)
  register _ h _ _ _ := allowed_append h (by simp)
  take _ h _ _ := h
  dispose h _ _ := ⟨fun _ _ => trivial, allowed_append h (by simp)⟩
  skip h _ := h
  done h := h

namespace Invariant.HoldsOf

variable {kind : FunctionKind}

theorem allowed : ∀ {r : Option Outcome × CallState σ}, (allowedOnly σ kind).HoldsOf r →
    ∀ p, .suspend p ∈ r.2.trace → p.Allowed kind
  | (some (.completed _), _), h => h.elim id And.right
  | (some (.threw _), _), h => h.2
  | (some (.awaits _), _), h | (some (.yields _), _), h | (none, _), h => h.2
  | (some (.failed _), _), h => h.elim

theorem allowed_outcome {o : Outcome} {p : Suspension} {S : CallState σ}
    (h : (allowedOnly σ kind).HoldsOf (some o, S)) (hp : o.suspension? = some p) : p.Allowed kind := by
  cases o <;> cases hp
  · exact h.1 _ rfl
  · exact h.1 _ rfl

end Invariant.HoldsOf

/-! ### Tasks -/

/-- A task stays of its kind. -/
theorem Task.Becomes.kind_eq {t t' : Task} {s s' : VmStats} {es : List Event}
    (h : t.Becomes s es s' t') : t'.kind = t.kind := by
  cases h with
  | ends o => exact o.settle_kind _
  | queued revives => exact revives.kind t
  | _ => rfl

/-- A session is suspended only as the kind of its function allows. -/
theorem Lives.allowed {Ω : Surroundings σ} {P : Resume → World σ → Globals → Prop} {capacity : Nat}
    {c : Call} {d : Declaration} {s : Session σ} (h : Lives Ω P capacity c s) (hd : c.Calls d) :
    (∀ p, .suspend p ∈ s.trace → p.Allowed d.kind) ∧
      ∀ o p, s.control = .ended o → o.suspension? = some p → p.Allowed d.kind := by
  obtain ⟨r, hfollows, hr⟩ := h.kept hd (allowedOnly_lawful Ω.host d.kind) (.inl rfl)
    (fun _ _ => trivial) fun _ _ _ _ _ => nofun
  refine ⟨fun p hp => hr.allowed p (hfollows.trace.subset hp), fun o p ho hp => ?_⟩
  obtain ⟨hout, -⟩ := hfollows.ended o ho (by rintro rfl; cases hp)
  obtain ⟨out, S⟩ := r
  cases hout
  exact hr.allowed_outcome hp

namespace Moment

variable {Ω : Surroundings σ} {μ μ' : Moment σ} {id : TaskId} {t : Task}

/-- A task is suspended only as its kind allows. -/
theorem Reached.allowed (hloaded : ∀ m, Ω.loaded m → Compiles m) (h : Reached Ω μ)
    (hget : μ.vm.schedule.get? id = some t) :
    (∀ p, .suspend p ∈ μ.history id → p.Allowed t.kind) ∧
      (t.state = .awaiting → t.kind.isAsync = true) ∧
      ∀ v, t.state = .yielded v → t.kind.isGenerator = true := by
  by_cases hturn : ∃ turn, μ.turn = some turn ∧ turn.id = id
  · obtain ⟨turn, hturn, rfl⟩ := hturn
    obtain ⟨-, t', c, hget', hmakes, hstate, -, s, hlives, htrace, -⟩ := h.sane.turn turn hturn
    obtain rfl := Option.some.inj (hget.symm.trans hget')
    obtain ⟨d, hd⟩ := (hloaded c.unit hmakes.loaded).calls
    rw [hmakes.kind_eq, hd.kind_eq, hstate, ← htrace]
    exact ⟨(hlives.allowed hd).1, nofun, nofun⟩
  · obtain ⟨c, hmakes, hlife⟩ := h.sane.resting id (fun turn heq hid => hturn ⟨turn, heq, hid⟩) t hget
    obtain ⟨d, hd⟩ := (hloaded c.unit hmakes.loaded).calls
    rw [hmakes.kind_eq, hd.kind_eq]
    generalize μ.history id = es at hlife
    cases hlife with
    | fresh _ state => exact ⟨nofun, by rcases state with h | h <;> simp [h], by rcases state with h | h <;> simp [h]⟩
    | closed _ state => exact ⟨by simp, by simp [state], by simp [state]⟩
    | refused _ state => exact ⟨by simp, by simp [state], by simp [state]⟩
    | @stopped s o lives ended _ state =>
      obtain ⟨htrace, hcontrol⟩ := lives.allowed hd
      refine ⟨htrace, ?_, ?_⟩
      · intro h
        rw [h] at state
        cases state
        exact hcontrol _ _ ended rfl
      · intro v h
        rw [h] at state
        cases state
        exact hcontrol _ _ ended rfl
    | exhausted lives _ _ state => exact ⟨(lives.allowed hd).1, by simp [state], by simp [state]⟩

/-- A step leaves a task of its kind. -/
theorem Step.kept_kind (h : Step Ω μ μ') (hμ : Reached Ω μ) (hget : μ.vm.schedule.get? id = some t) :
    ∃ t', μ'.vm.schedule.get? id = some t' ∧ t'.kind = t.kind := by
  rcases h.task hμ id with hsame | ⟨_, -, -, hnone, -⟩ | ⟨t₀, t', _, _, _, hget₀, hbecomes, hget'⟩
  · exact ⟨t, hsame.trans hget, rfl⟩
  · cases hget.symm.trans hnone
  · obtain rfl := Option.some.inj (hget.symm.trans hget₀)
    exact ⟨t', hget', hbecomes.kind_eq⟩

/-- The turn of a task whose kind allows no suspension runs to its end. -/
theorem Reached.ends_its_turn (hloaded : ∀ m, Ω.loaded m → Compiles m) (h : Reached Ω μ) {turn : Turn σ}
    (hturn : μ.turn = some turn) (hleads : Leads Ω μ μ')
    (hget : μ'.vm.schedule.get? turn.id = some t) (hkind : t.kind = .normal) :
    (∃ turn', μ'.turn = some turn' ∧ turn'.id = turn.id) ∨ t.state.isFinished = true := by
  induction hleads generalizing t with
  | refl => exact .inl ⟨turn, hturn, rfl⟩
  | @tail ν μ' hearlier hstep ih =>
    have hν : Reached Ω ν := h.leads hearlier
    obtain ⟨t₀, hget₀, -⟩ := h.running hturn
    obtain ⟨t₁, hget₁⟩ := Option.isSome_iff_exists.mp (h.kept hearlier (by rw [hget₀]; rfl))
    obtain ⟨t', hget', hkind'⟩ := hstep.kept_kind hν hget₁
    obtain rfl := Option.some.inj (hget.symm.trans hget')
    rcases ih hget₁ (hkind'.symm.trans hkind) with ⟨turn', hturn', hid⟩ | hfinished
    · have hallowed := (hν.leads (.single hstep)).allowed hloaded hget
      rw [hkind] at hallowed
      cases hstep with
      | instruct => exact .inl ⟨_, rfl, congrArg Turn.id (Option.some.inj hturn') |>.trans hid⟩
      | exhaust => exact .inl ⟨_, rfl, congrArg Turn.id (Option.some.inj hturn') |>.trans hid⟩
      | @record vm log id code o a =>
        right
        obtain rfl : id = turn.id := (congrArg Turn.id (Option.some.inj hturn')).trans hid
        obtain ⟨hgets, -⟩ := record_spec (vm.leave turn.id a) turn.id o
        have hmap := hgets turn.id
        rw [if_pos rfl] at hmap
        obtain ⟨t₀, -, rfl⟩ := Option.map_eq_some_iff.mp (hmap.symm.trans hget)
        rw [o.settle_state t₀] at hallowed ⊢
        cases o with
        | completed | threw | failed => rfl
        | awaits v => cases hallowed.2.1 rfl
        | yields v => cases hallowed.2.2 v rfl
      | _ => exact idle_turn hturn'
    · right
      have := (hν.finished (.single hstep) hget₁ hfinished).1
      rw [Option.some.inj (hget.symm.trans this)]
      exact hfinished

/-- **The kind of a function decides what can suspend it.** At every moment, a task of a normal
function has never been suspended, and once it has had a turn, it still has it or is finished. A
task of an async function has never handed out a value, and one of a generator has never awaited.
A task that had a turn follows an evaluation of a call; whatever the kind, if the task has
registered no async resource, and the call comes to no await expression in what the task had a
part in, then it has awaited nothing. -/
theorem Reached.kinds_suspend (hloaded : ∀ m, Ω.loaded m → Compiles m) (h : Reached Ω μ)
    (hget : μ.vm.schedule.get? id = some t) :
    (t.kind = .normal → (∀ p, .suspend p ∉ μ.history id) ∧ t.state ≠ .awaiting ∧
      (∀ v, t.state ≠ .yielded v) ∧ ∀ ν turn, Reached Ω ν → Leads Ω ν μ → ν.turn = some turn →
        turn.id = id → (∃ turn', μ.turn = some turn' ∧ turn'.id = id) ∨ t.state.isFinished = true) ∧
    (t.kind = .async → (∀ v, .suspend (.yield v) ∉ μ.history id) ∧ ∀ v, t.state ≠ .yielded v) ∧
    (t.kind = .generator → (∀ v, .suspend (.await v) ∉ μ.history id) ∧ t.state ≠ .awaiting) ∧
    (t.Unstarted (μ.history id) ∨ ∃ c d n world globals script,
      t.Follows Ω (μ.history id) c d n (.initial world globals script)) ∧
    ∀ c d n world globals script, t.Follows Ω (μ.history id) c d n (.initial world globals script) →
      (∀ r, .register r ∈ μ.history id → r.hint = .sync) →
      (∀ v T, d.awaits Ω.host n c.args (.initial world globals script) v T →
        ¬ T.trace ++ [.suspend (.await v)] <+: μ.history id) →
      ∀ v, .suspend (.await v) ∉ μ.history id := by
  obtain ⟨hhistory, hawaiting, hyielded⟩ := h.allowed hloaded hget
  refine ⟨fun hkind => ?_, fun hkind => ?_, fun hkind => ?_, ?_, ?_⟩
  · rw [hkind] at hhistory hawaiting hyielded
    refine ⟨fun p hp => ?_, fun h => (nomatch hawaiting h), fun v h => (nomatch hyielded v h), ?_⟩
    · cases p with
      | await v => cases hhistory _ hp
      | yield v => cases hhistory _ hp
    · rintro ν turn hν hleads hturn rfl
      exact hν.ends_its_turn hloaded hturn hleads hget hkind
  · rw [hkind] at hhistory hyielded
    exact ⟨fun v hv => (nomatch hhistory _ hv), fun v h => (nomatch hyielded v h)⟩
  · rw [hkind] at hhistory hawaiting
    exact ⟨fun v hv => (nomatch hhistory _ hv), fun h => (nomatch hawaiting h)⟩
  · rcases h.sane.follows hloaded hget with hunstarted | ⟨c, d, n, world, globals, script, -, -, hfollows⟩
    · exact .inl hunstarted
    · exact .inr ⟨c, d, n, world, globals, script, hfollows⟩
  · intro c d n world globals script hfollows
    exact Declaration.run_calm Ω.host n hfollows.trace

/-- An async function that throws, and disposes a sync resource on the way out. -/
def synchronousAtHeart : Declaration :=
  ⟨"f", .async, ["x"], [.usingIn "r" .sync (.binding "x"), .throw (.int 1)]⟩

/-- The sync resource fails to be disposed. -/
theorem Reached.kinds_suspend_synchronousAtHeart : ∃ Ω : Surroundings Unit, ∃ μ t,
    (∀ m, Ω.loaded m ↔ Module.compile "m" [synchronousAtHeart] = .ok m) ∧ Reached Ω μ ∧
    μ.vm.schedule.get? ⟨0⟩ = some t ∧ t.kind = .async ∧ (∃ e, t.state = .threw e) ∧
    (∀ v, .suspend (.yield v) ∉ μ.history ⟨0⟩) ∧
    ∀ c d n world globals script, t.Follows Ω (μ.history ⟨0⟩) c d n (.initial world globals script) →
      (∀ r, .register r ∈ μ.history ⟨0⟩ → r.hint = .sync) →
      (∀ v T, d.awaits Ω.host n c.args (.initial world globals script) v T →
        ¬ T.trace ++ [.suspend (.await v)] <+: μ.history ⟨0⟩) →
      ∀ v, .suspend (.await v) ∉ μ.history ⟨0⟩ := by
  let Ω : Surroundings Unit := ⟨fun _ _ _ => throw (.int 2),
    fun m => Module.compile "m" [synchronousAtHeart] = .ok m, fun _ => True, fun _ _ => True⟩
  let world : World Unit :=
    ⟨{ Heap.empty with objects := Heap.empty.objects.push [(.symbol .sync, .function (.host ⟨0, "d"⟩))] }, ()⟩
  have htrial : (trial Ω.host .standard world [] [synchronousAtHeart] "f" [.object 0] [.run 100]).any (fun μ =>
      (μ.vm.schedule.get? ⟨0⟩).any fun t => t.kind.isAsync && !t.kind.isGenerator &&
        t.state.thrown?.isSome) = true := by
    rw [trial_eq (by decide +kernel)]
    decide +kernel
  obtain ⟨μ, htrial, hμ⟩ := (Option.any_eq_true _ _).mp htrial
  obtain ⟨t, hget, ht⟩ := (Option.any_eq_true _ _).mp hμ
  obtain ⟨hkind, hthrew⟩ := Bool.and_eq_true_iff.mp ht
  have hkind : t.kind = .async := by
    revert hkind
    cases t.kind <;> simp [FunctionKind.isAsync, FunctionKind.isGenerator]
  have hstate : ∃ e, t.state = .threw e :=
    (Option.isSome_iff_exists.mp hthrew).imp fun _ => TaskState.threw_of_thrown?
  have hreached : Reached Ω μ :=
    .of_trial trivial trivial (fun _ h => h) (fun _ _ => trivial) (fun _ _ _ _ _ => trivial) htrial
  have hloaded : ∀ m, Ω.loaded m → Compiles m := fun m hm => ⟨"m", [synchronousAtHeart], hm, by decide⟩
  obtain ⟨-, hasync, -, -, hcalm⟩ := Reached.kinds_suspend hloaded hreached hget
  exact ⟨Ω, μ, t, fun _ => .rfl, hreached, hget, hkind, hstate, (hasync hkind).1, hcalm⟩

end Moment
end ResourceMachine
