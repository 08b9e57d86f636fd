/-
# Handlers find what was there

Whoever follows a call can keep account of its handlers: where each was installed, and which
operands were on the stack then. In compiled code the account at an offset does not depend on
how the run came there, as far as it tells where handlers were installed; nor does the number
of scopes that are entered. An exception finds the operands of the innermost handler as they
were when it was installed.

Key definitions: `Session.guardsAfter`, `Guarded`, `Session.raises?`, `Session.Guards`.
Key theorems: `Session.Guards.step`, `Session.Guards.run`, `Compiles.restores_operands`.
-/
import ResourceMachine.Proofs.Coverage
import ResourceMachine.Proofs.Guards
import ResourceMachine.Proofs.TaskEvaluation
import ResourceMachine.Proofs.VerifiedRun

namespace ResourceMachine

variable {σ : Type}

/-! ### Accounts of handlers -/

/-- What a suspended run is resumed with, if it is an exception. The signal that closes a
generator is routed like one. -/
def Suspension.refusal? (p : Suspension) : List (Reply σ) → Option Value
  | [] => none
  | r :: _ =>
    match p.accept r.answer with
    | .next _ => none
    | .throw e => some e
    | .ret _ => some .closing

/-- The exception that is routed when a session goes on behind an instruction. -/
def Next.raised? (script : List (Reply σ)) : Next → Option Value
  | .throw e => some e
  | .await v => Suspension.refusal? (.await v) script
  | .yield v => Suspension.refusal? (.yield v) script
  | _ => none

namespace Session

/-- The handlers that are installed after a step to `s'`. `TRY_START` installs one; otherwise
some of the innermost may have been removed. -/
def guardsAfter (code : Bytes) (s s' : Session σ) (gs : List Guard) : List Guard :=
  match s.control with
  | .ended _ => gs
  | .running pc =>
    match Instr.readAt code pc, s'.frame.handlers with
    | .ok (.tryStart _ _), h :: _ => ⟨pc, h, s.frame.stack.slots⟩ :: gs
    | _, handlers => gs.drop (gs.length - handlers.length)

/-- The exception that the next step of a session routes to a handler or out of the call. -/
def raises? (host : Host σ) (code : Bytes) (s : Session σ) : Option Value :=
  match s.control with
  | .ended _ => none
  | .running pc =>
    match Instr.readAt code pc with
    | .error _ => none
    | .ok i =>
      match Exec.instr ⟨host, s.globals⟩ code.size (pc + i.size) i ⟨s.frame, s.world⟩ with
      | .ok next _ => next.raised? s.script
      | .error _ _ => none

end Session

/-- A session gets to another one, and the account of its handlers with it. -/
inductive Guarded (host : Host σ) (code : Bytes) :
    Session σ → List Guard → Session σ → List Guard → Prop
  | refl (s : Session σ) (gs : List Guard) : Guarded host code s gs s gs
  | step {s s' s'' : Session σ} {gs gs'' : List Guard} (head : s.step host code = some s')
      (tail : Guarded host code s' (s.guardsAfter code s' gs) s'' gs'') : Guarded host code s gs s'' gs''

/-- An account can be kept of every run. -/
theorem Steps.exists_guarded {host : Host σ} {code : Bytes} {k : Nat} {s s' : Session σ}
    (h : Steps host code k s s') (gs : List Guard) : ∃ gs', Guarded host code s gs s' gs' := by
  induction h generalizing gs with
  | refl s => exact ⟨gs, .refl s gs⟩
  | step head _ ih =>
    obtain ⟨gs', h⟩ := ih _
    exact ⟨gs', .step head h⟩

/-! ### Steps -/

namespace Session

section

variable {host : Host σ} {G : Marks} {P : Posture} {N : Nesting} {gs : List Guard} {s s' : Session σ}
  {t : Target} {ss : List Station}

/-- A session that runs has the handlers of an account, and they are marked where it stands. -/
def Guards (G : Marks) (s : Session σ) (gs : List Guard) : Prop :=
  ∀ pc, s.control = .running pc → ∃ P, G pc P ∧ s.frame.Stationed G P gs

/-- A session goes on with an account in which at most the innermost handler is missing. -/
def Retains (G : Marks) (gs : List Guard) (s : Session σ) : Prop :=
  ∃ gs', (gs' = gs ∨ gs' = gs.tail) ∧ s.Guards G gs'

/-- Of a session that has ended nothing is asked. -/
theorem Guards.of_ended {o : Outcome} (h : s.control = .ended o) : s.Guards G gs := by
  intro pc hpc
  cases h.symm.trans hpc

/-- A session whose frame is routed stands where that leads. -/
theorem Guards.route {r : Route × Frame}
    (h : ∀ pc, r.1 = .goto pc → ∃ P, G pc P ∧ r.2.Stationed G P gs) : (s.route r).Guards G gs := by
  obtain ⟨pc | o, fr⟩ := r
  · intro _ hpc
    cases hpc
    exact h pc rfl
  · exact .of_ended rfl

theorem catches_route {e : Value} {r : Route × Frame} (h : Catches e gs r.1.control r.2) :
    Catches e gs (s.route r).control (s.route r).frame := by
  obtain ⟨pc | o, fr⟩ := r <;> exact h

/-- An exception that is routed comes to the innermost handler. -/
theorem Guards.throw (p : Nat) (e : Value) {a : Activation σ}
    (hhandlers : a.frame.handlers = gs.map Guard.handler) (hfenced : Fenced G N.fences gs a.frame.stack.slots)
    (hscopes : List.Forall₂ Capability.Suits N.scopes a.frame.scopes) (hlevel : N.Level) :
    (s.proceed (a.throw p e)).Guards G gs.tail ∧
      Catches e gs (s.proceed (a.throw p e)).control (s.proceed (a.throw p e)).frame := by
  obtain ⟨hcatches, hstationed⟩ := Frame.unwinds e hhandlers hfenced hscopes hlevel
  unfold Activation.throw
  cases hunwind : a.frame.unwind e with
  | mk r fr =>
    rw [hunwind] at hcatches hstationed
    cases r with
    | goto pc =>
      refine ⟨fun _ hpc => ?_, hcatches⟩
      cases hpc
      exact hstationed pc rfl
    | escaped o =>
      have ho : o.suspension? = none :=
        (Frame.isEscape_unwindThrough (congrArg Prod.fst hunwind)).suspension?
      show Guards G (halt (s.update (.ended o) _) o) gs.tail ∧
        Catches e gs (halt (s.update (.ended o) _) o).control (halt (s.update (.ended o) _) o).frame
      rw [halt_of_none ho]
      refine ⟨.of_ended rfl, ?_⟩
      cases gs <;> exact hcatches

/-- A session that stops goes on with a value that is pushed, or with an exception. -/
theorem Guards.suspend {p : Suspension} {a : Activation σ}
    (hmark : ∀ v, ∃ Q, G a.frame.ip Q ∧
      Frame.Stationed G Q gs { a.frame with stack := { a.frame.stack with slots := v :: a.frame.stack.slots } })
    (hhandlers : a.frame.handlers = gs.map Guard.handler) (hfenced : Fenced G N.fences gs a.frame.stack.slots)
    (hscopes : List.Forall₂ Capability.Suits N.scopes a.frame.scopes)
    (hlevel : ∀ e, p.refusal? s.script = some e → N.Level) :
    (s.proceed (.halted p.outcome a)).Retains G gs ∧ ∀ e, p.refusal? s.script = some e →
      Catches e gs (s.proceed (.halted p.outcome a)).control (s.proceed (.halted p.outcome a)).frame := by
  have hp : p.outcome.suspension? = some p := by cases p <;> rfl
  simp only [proceed, halt, hp]
  cases hscript : s.script with
  | nil =>
    simp only [update, hscript]
    exact ⟨⟨gs, .inl rfl, .of_ended rfl⟩, by rintro _ ⟨⟩⟩
  | cons r rest =>
    simp only [update, hscript, reply]
    rw [hscript] at hlevel
    unfold Suspension.refusal? at hlevel ⊢
    cases hanswer : p.accept r.answer with
    | next v =>
      simp only [hanswer]
      refine ⟨⟨gs, .inl rfl, .route fun pc hpc => ?_⟩, by rintro _ ⟨⟩⟩
      rcases Frame.enter_cases a.frame.ip [v] a.frame with hfull | hentered
      · simp only [Answer.mode, Frame.resume, hfull] at hpc
        cases hpc
      · simp only [Answer.mode, Frame.resume, hentered] at hpc ⊢
        cases hpc
        exact hmark v
    | throw e =>
      simp only [hanswer] at hlevel ⊢
      obtain ⟨hcatches, hstationed⟩ := Frame.unwinds e hhandlers hfenced hscopes (hlevel e rfl)
      exact ⟨⟨gs.tail, .inr rfl, .route hstationed⟩, fun _ he => Option.some.inj he ▸ catches_route hcatches⟩
    | ret v =>
      simp only [hanswer] at hlevel ⊢
      have hframe : ({ a.frame with rval := v } : Frame).handlers = gs.map Guard.handler := hhandlers
      obtain ⟨hcatches, hstationed⟩ := Frame.unwinds .closing hframe hfenced hscopes (hlevel .closing rfl)
      exact ⟨⟨gs.tail, .inr rfl, .route hstationed⟩, fun _ he => Option.some.inj he ▸ catches_route hcatches⟩

/-- Undefined is its own answer when it is awaited. -/
theorem refusal?_await_undefined (script : List (Reply σ)) :
    Suspension.refusal? (.await .undefined) script = none := by
  cases script <;> rfl

/-- What a sound instruction does to the operands, the handlers and the scopes of a frame. -/
theorem executes {env : Env σ} {fr : Frame} {w : World σ} {i : Located}
    {next : ResourceMachine.Next} {a : Activation σ}
    (hsound : Station.Sound t G ⟨i, P⟩) (hfr : fr.Stationed G P gs)
    (hexec : Exec.instr env t.code.size i.next i.instr ⟨fr, w⟩ = .ok next a) :
    i.instr.Leads t.code.size i.next fr.stack.slots.length fr.handlers next a.frame.stack.slots.length
        a.frame.handlers ∧
      fr.stack.slots.drop i.instr.stackEffect.pops <:+ a.frame.stack.slots ∧
      i.instr.Conducts fr.scopes next a.frame.scopes := by
  have hkeeps : Exec.Keeps env t.code.size i.next fr.stack.slots.length fr.handlers i.instr :=
    Exec.instr_shifts i.instr
  have hshift := hkeeps ⟨fr, w⟩ rfl rfl
  have hconsumes : Consumes i.instr.stackEffect.pops (Exec.instr env t.code.size i.next i.instr) :=
    Exec.instr_consumes hsound.operands
  have hspares := hconsumes.spares ⟨fr, w⟩ (hfr.depth ▸ hsound.pops_le)
  rw [hexec] at hshift hspares
  exact ⟨hshift, hspares, Exec.instr_brings i.instr ⟨fr, w⟩ next a rfl hexec⟩

/-- An instruction that stops a run has popped one value, and goes on behind itself with
another one. -/
theorem Guards.stop {fr : Frame} {i : Located} {a : Activation σ} {p : Suspension}
    (hsound : Station.Sound t G ⟨i, P⟩) (hfr : fr.Stationed G P gs)
    (hfenced : Fenced G P.nesting.fences gs a.frame.stack.slots)
    (hi : i.instr = .await ∨ i.instr = .yield)
    (hdepth : fr.stack.slots.length = a.frame.stack.slots.length + 1)
    (hhandlers : a.frame.handlers = fr.handlers) (hscopes : a.frame.scopes = fr.scopes)
    (hlevel : ∀ e, p.refusal? s.script = some e → P.nesting.Level) :
    (s.proceed (.halted p.outcome (a.keepIp i.next))).Retains G gs ∧ ∀ e, p.refusal? s.script = some e →
      Catches e gs (s.proceed (.halted p.outcome (a.keepIp i.next))).control
        (s.proceed (.halted p.outcome (a.keepIp i.next))).frame := by
  obtain ⟨heffect, hgo, hsame, hvoids, hstart⟩ : i.instr.stackEffect = ⟨1, 1⟩ ∧
      i.instr.GoesTo t.code.size i.next i.next ∧ i.instr.renests P.nesting = P.nesting ∧
      i.instr.voids = false ∧ ∀ c f, i.instr ≠ .tryStart c f := by
    rcases hi with hi | hi <;> rw [hi] <;> exact ⟨rfl, rfl, rfl, rfl, fun _ _ h => by cases h⟩
  have hhandlers' : a.frame.handlers = gs.map Guard.handler := hhandlers.trans hfr.handlers
  have hscopes' : List.Forall₂ Capability.Suits P.nesting.scopes a.frame.scopes := hscopes ▸ hfr.scopes
  refine Guards.suspend (a := a.keepIp i.next) (fun v => ?_) hhandlers' hfenced hscopes' hlevel
  refine (hsound.goesOn.goto hgo hstart).stationed ⟨?_, hhandlers', ?_, ?_, ?_⟩
  · have hbehind : (i.instr.behind P).depth = P.depth - 1 + 1 := by rw [Instr.behind, heffect]
    have := hfr.depth
    rw [hbehind, List.length_cons]
    show a.frame.stack.slots.length + 1 = P.depth - 1 + 1
    omega
  · show Fenced G (i.instr.renests P.nesting).fences gs _
    rw [hsame]
    exact hfenced.pushed (List.suffix_cons _ _)
  · show List.Forall₂ Capability.Suits (i.instr.renests P.nesting).scopes _
    rw [hsame]
    exact hscopes'
  · intro hv
    exact absurd (hvoids.symm.trans hv) Bool.false_ne_true

/-- Wherever an instruction leads that installs no handler, a session goes on. -/
theorem Guards.follow {env : Env σ} {fr : Frame} {w : World σ} {i : Located}
    {next : ResourceMachine.Next} {a : Activation σ}
    (hsound : Station.Sound t G ⟨i, P⟩) (hfr : fr.Stationed G P gs)
    (hexec : Exec.instr env t.code.size i.next i.instr ⟨fr, w⟩ = .ok next a)
    (hi : ∀ c f, i.instr ≠ .tryStart c f) :
    (s.proceed (a.follow i.next next)).Retains G gs ∧ ∀ e, next.raised? s.script = some e →
      Catches e gs (s.proceed (a.follow i.next next)).control (s.proceed (a.follow i.next next)).frame := by
  obtain ⟨hleads, hspares, hconducts⟩ := executes hsound hfr hexec
  obtain ⟨hbase, hthrows, -⟩ := hsound.safe
  have hfenced : Fenced G P.nesting.fences gs a.frame.stack.slots :=
    hfr.fenced.of_drop (hfr.depth ▸ hbase) hspares
  cases next with
  | goto pc =>
    have hgo : i.instr.GoesTo t.code.size i.next pc := hleads.2.2.1
    obtain ⟨gs', hgs', hbehind⟩ := hfr.behind hbase hleads hspares hconducts
      (fun hv => Exec.head_of_voids hv hexec) hi
    refine ⟨⟨gs', hgs', fun _ hpc => ?_⟩, by rintro _ ⟨⟩⟩
    cases hpc
    exact (hsound.goesOn.goto hgo hi).stationed hbehind
  | throw e =>
    obtain ⟨hscopes, hthrow⟩ := hconducts
    obtain ⟨hguards, hcatches⟩ := Guards.throw (s := s) i.next e
      (hleads.2.trans hfr.handlers) hfenced (hscopes ▸ hfr.scopes) (hthrows (hthrow _))
    exact ⟨⟨gs.tail, .inr rfl, hguards⟩, fun _ he => Option.some.inj he ▸ hcatches⟩
  | await v =>
    obtain ⟨hdepth, hhandlers, hinstr⟩ := hleads
    refine Guards.stop (p := .await v) hsound hfr hfenced (.inl hinstr) hdepth hhandlers hconducts
      fun e he => hthrows ?_
    -- what throws is not undefined, and stood on top
    rw [hinstr] at hexec ⊢
    cases hvoided : P.voided with
    | false => rfl
    | true =>
      have htop := Exec.head_of_await hexec
      obtain rfl := Option.some.inj (htop.symm.trans (hfr.voided hvoided))
      rw [refusal?_await_undefined] at he
      cases he
  | yield v =>
    obtain ⟨hdepth, hhandlers, hinstr⟩ := hleads
    exact Guards.stop (p := .yield v) hsound hfr hfenced (.inr hinstr) hdepth hhandlers hconducts
      fun e he => hthrows (by rw [hinstr]; trivial)
  | ret v => exact ⟨⟨gs, .inl rfl, .of_ended rfl⟩, by rintro _ ⟨⟩⟩

/-- The account of handlers is kept by the number of those that are left. -/
theorem guardsAfter_eq {pc : Nat} {i : Instr} {gs' : List Guard} (hcontrol : s.control = .running pc)
    (hread : Instr.readAt code pc = .ok i) (hi : ∀ c f, i ≠ .tryStart c f) (hgs' : gs' = gs ∨ gs' = gs.tail)
    (hhandlers : s'.frame.handlers = gs'.map Guard.handler) : s.guardsAfter code s' gs = gs' := by
  have hdrop : s.guardsAfter code s' gs = gs.drop (gs.length - gs'.length) := by
    simp only [guardsAfter, hcontrol, hread, hhandlers]
    cases i with
    | tryStart c f => exact absurd rfl (hi c f)
    | _ => simp only [List.length_map]
  rw [hdrop]
  rcases hgs' with rfl | rfl
  · rw [Nat.sub_self, List.drop_zero]
  · cases gs with
    | nil => rfl
    | cons g gs => simp

/-- A step executes the instruction where the session stands. -/
theorem step_performs {code : Bytes} {pc : Nat} {i : Instr} (hcontrol : s.control = .running pc)
    (hhas : code.Has pc i) (h : s.step host code = some s') :
    ∃ trace, s' = ({ s with trace } : Session σ).proceed
      (Activation.perform ⟨host, s.globals⟩ code.size pc i ⟨s.frame, s.world⟩) := by
  unfold step at h
  rw [hcontrol] at h
  simp only [Activation.step_of_has hhas] at h
  exact ⟨_, (Option.some.inj h).symm⟩

/-- **A step keeps the account of handlers**, and what it throws is caught by the innermost. -/
theorem Guards.step (hm : t.Marked ss) (hs : s.Guards (Station.marks ss) gs)
    (h : s.step host t.code = some s') : s'.Guards (Station.marks ss) (s.guardsAfter t.code s' gs) ∧
      ∀ e, s.raises? host t.code = some e → Catches e gs s'.control s'.frame := by
  cases hcontrol : s.control with
  | ended o =>
    simp only [Session.step, hcontrol] at h
    cases h
  | running pc =>
    obtain ⟨P, ⟨⟨⟨p, i⟩, P⟩, hmem, rfl, rfl⟩, hfr⟩ := hs pc hcontrol
    have hsound := hm.sound _ hmem
    have hhas : t.code.Has p i := hm.stretch.has_of_mem hmem
    obtain ⟨trace, hs'⟩ := step_performs hcontrol hhas h
    unfold Activation.perform at hs'
    unfold raises?
    simp only [hcontrol, hhas.readAt]
    cases hexec : Exec.instr ⟨host, s.globals⟩ t.code.size (p + i.size) i ⟨s.frame, s.world⟩ with
    | error e a =>
      rw [hexec] at hs'
      subst hs'
      exact ⟨.of_ended rfl, by rintro _ ⟨⟩⟩
    | ok next a =>
      rw [hexec] at hs'
      replace hs' : s' = ({ s with trace } : Session σ).proceed (a.follow (p + i.size) next) := hs'
      by_cases hi : ∃ c f, i = .tryStart c f
      · obtain ⟨c, f, rfl⟩ := hi
        obtain ⟨rfl, hscopes⟩ := Exec.tryStart_brings (Q := fun x S => x = .goto _ ∧ S = s.frame.scopes)
          ⟨rfl, rfl⟩ ⟨s.frame, s.world⟩ next a rfl hexec
        obtain ⟨hleads, hspares, -⟩ := executes (i := ⟨p, .tryStart c f⟩) hsound hfr hexec
        obtain ⟨g, H, Q, hhandlers, hG, hfr'⟩ := hfr.guarded hsound.goesOn hleads hspares hscopes
        subst hs'
        refine ⟨fun pc hpc => ?_, by rintro _ ⟨⟩⟩
        cases hpc
        simp only [guardsAfter, hcontrol, hhas.readAt, proceed, Activation.follow, update, hhandlers]
        exact ⟨Q, hG, hfr'⟩
      · have hi' : ∀ c f, i ≠ .tryStart c f := fun c f h => hi ⟨c, f, h⟩
        obtain ⟨⟨gs', hgs', hguards⟩, hcatches⟩ := Guards.follow (s := { s with trace }) (i := ⟨p, i⟩)
          hsound hfr hexec hi'
        rw [show Located.next ⟨p, i⟩ = p + i.size from rfl, ← hs'] at hguards hcatches
        refine ⟨fun pc hpc => ?_, hcatches⟩
        obtain ⟨Q, hG, hfr'⟩ := hguards pc hpc
        rw [guardsAfter_eq hcontrol hhas.readAt hi' hgs' hfr'.handlers]
        exact ⟨Q, hG, hfr'⟩

/-- The account of handlers is kept on a whole run. -/
theorem Guards.run {gs' : List Guard} (hm : t.Marked ss) (h : Guarded host t.code s gs s' gs')
    (hs : s.Guards (Station.marks ss) gs) : s'.Guards (Station.marks ss) gs' := by
  induction h with
  | refl => exact hs
  | step head _ ih => exact ih (hs.step hm head).1

/-- A call starts with an empty account. -/
theorem Guards.start {m : Module} {index capacity : Nat} {args : List Value} {world : World σ}
    {globals : Globals} {script : List (Reply σ)} (hm : t.Marked ss) :
    (Session.start (.start m index args capacity) world globals script).Guards (Station.marks ss) [] := by
  intro pc hpc
  cases hpc
  exact ⟨_, hm.entry, rfl, rfl, .nil, .nil, nofun⟩

end

end Session

/-! ### Compiled functions -/

/-- The code of a function of a compiled module is marked. -/
theorem Compiles.marked {m : Module} {index : Nat} {f : Function} (hm : Compiles m)
    (hf : m.functions[index]? = some f) : ∃ (t : Target) (ss : List Station),
      t.code = f.code ∧ t.Marked ss := by
  obtain ⟨d, hd⟩ := Compiles.calls (c := ⟨m, index, f, [], hf⟩) hm
  obtain ⟨ss, p, hmarked⟩ := hd.laid.marked
  exact ⟨_, _, rfl, hmarked⟩

/-- **Handlers restore the operand stack.** On every run of a function of a compiled module, at
whatever offset it stands, the offsets where the handlers were installed and the number of scopes
that are entered depend on that offset only. An exception that is routed to a handler finds the
operands exactly as they were when `TRY_START` installed it, with itself on top, and true on top
of that if it is the finally code that is entered. -/
theorem Compiles.restores_operands {m : Module} {index : Nat} {f : Function} (hm : Compiles m)
    (hf : m.functions[index]? = some f) :
    ∃ (sites : Nat → List Nat) (entered : Nat → Nat), ∀ {σ : Type} {host : Host σ} {args : List Value}
      {capacity : Nat} {world : World σ} {globals : Globals} {script : List (Reply σ)} {k : Nat}
      {s : Session σ},
      Steps host f.code k (.start (.start m index args capacity) world globals script) s →
      ∃ gs, Guarded host f.code (.start (.start m index args capacity) world globals script) [] s gs ∧
        (∀ pc, s.control = .running pc → s.frame.handlers = gs.map Guard.handler ∧
          gs.map Guard.site = sites pc ∧ s.frame.scopes.length = entered pc) ∧
        ∀ s' e, s.step host f.code = some s' → s.raises? host f.code = some e →
          Catches e gs s'.control s'.frame := by
  obtain ⟨t, ss, hcode, hmarked⟩ := hm.marked hf
  obtain ⟨nesting, hnesting⟩ : ∃ nesting : Nat → Nesting, ∀ p N,
      (∃ P, Station.marks ss p P ∧ P.nesting = N) → nesting p = N := by
    refine exists_assignment ?_
    rintro p _ _ ⟨P, hP, rfl⟩ ⟨Q, hQ, rfl⟩
    rw [hmarked.stretch.posture_eq hP hQ]
  refine ⟨fun p => (nesting p).fences.map Fence.site, fun p => (nesting p).scopes.length, ?_⟩
  intro σ host args capacity world globals script k s hsteps
  obtain ⟨gs, hguarded⟩ := hsteps.exists_guarded []
  rw [← hcode] at hguarded ⊢
  have hguards := (Session.Guards.start hmarked).run hmarked hguarded
  refine ⟨gs, hguarded, fun pc hpc => ?_, fun s' e hstep => (hguards.step hmarked hstep).2 e⟩
  obtain ⟨P, hP, hfr⟩ := hguards pc hpc
  have heq : nesting pc = P.nesting := hnesting pc _ ⟨P, hP, rfl⟩
  simp only [heq]
  exact ⟨hfr.handlers, hfr.fenced.sites_eq, hfr.scopes.length_eq.symm⟩

/-- Throws what it finds in a list, while the iterator lies on the stack. -/
def loopThrower : Declaration :=
  ⟨"f", .normal, ["xs"], [.forOf none "x" none (.binding "xs") [.throw (.binding "x")]]⟩

/-- What `loopThrower` throws finds the iterator. -/
theorem Compiles.restores_operands_loopThrower : ∃ m f s s' e g gs,
    Module.compile "m" [loopThrower] = .ok m ∧ m.functions[0]? = some f ∧
    Steps Console.call f.code 7
      (.start (.start m 0 [.list 0 [.int 1]] 8) ⟨.empty, Console.empty⟩ [] []) s ∧
    s.step Console.call f.code = some s' ∧ s.raises? Console.call f.code = some e ∧
    s.frame.handlers = (g :: gs).map Guard.handler ∧ (∃ pc, s'.control = .running pc) ∧
    Catches e (g :: gs) s'.control s'.frame := by
  let first (m : Module) : Session Console :=
    .start (.start m 0 [.list 0 [.int 1]] 8) ⟨.empty, Console.empty⟩ [] []
  let throws (f : Function) (s : Session Console) : Bool :=
    s.pc?.isSome && !s.frame.handlers.isEmpty && (s.step Console.call f.code).any (·.pc?.isSome) &&
      (s.raises? Console.call f.code).isSome
  have hrun : (Module.compile "m" [loopThrower]).toOption.any (fun m => m.functions[0]?.any fun f =>
      ((first m).after Console.call f.code 7).any (throws f)) = true := by
    decide +kernel
  obtain ⟨m, hm, hrun⟩ := (Option.any_eq_true _ _).mp hrun
  obtain ⟨f, hf, hrun⟩ := (Option.any_eq_true _ _).mp hrun
  obtain ⟨s, hs, hrun⟩ := (Option.any_eq_true _ _).mp hrun
  have hm : Module.compile "m" [loopThrower] = .ok m := ok_of_toOption hm
  obtain ⟨hrun, hraises⟩ := Bool.and_eq_true_iff.mp hrun
  obtain ⟨hrun, hstep⟩ := Bool.and_eq_true_iff.mp hrun
  obtain ⟨hpc, hhandlers⟩ := Bool.and_eq_true_iff.mp hrun
  obtain ⟨pc, hpc⟩ := Option.isSome_iff_exists.mp hpc
  obtain ⟨s', hstep, hpc'⟩ := (Option.any_eq_true _ _).mp hstep
  obtain ⟨pc', hpc'⟩ := Option.isSome_iff_exists.mp hpc'
  have hsteps := Session.steps_of_after hs
  obtain ⟨e, hraises⟩ := Option.isSome_iff_exists.mp hraises
  have hcompiles : Compiles m := ⟨"m", [loopThrower], hm, by decide⟩
  obtain ⟨sites, entered, hrestores⟩ := Compiles.restores_operands hcompiles hf
  obtain ⟨gs, -, hat, hcatches⟩ := hrestores hsteps
  obtain ⟨hsame, -, -⟩ := hat pc (Session.control_of_pc? hpc)
  have hcaught := hcatches s' e hstep hraises
  cases gs with
  | nil => rw [hsame] at hhandlers; cases hhandlers
  | cons g gs =>
    exact ⟨m, f, s, s', e, g, gs, hm, hf, hsteps, hstep, hraises, hsame, ⟨pc', Session.control_of_pc? hpc'⟩,
      hcaught⟩

end ResourceMachine
