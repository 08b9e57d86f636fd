/-
# Runs of verified code

A session of a verified function only ever stands where one of the function's instructions
starts, and one that verification has reached. Its operand stack is never deeper there than
verification says, so never deeper than the function declares.

It may be less deep. Verification takes the depth in a handler from where the handler was
installed; the machine drops what lies above that depth, but puts nothing back if the code
in between has taken more off. As long as no exception finds the stack that low (`Level`),
the depths are equal and no operand is ever missing.

Nor does the session always go where the disassembler says. The disassembler takes a target
before the start of the code for the start; the machine faults there. Everywhere else the
two agree.

Key definitions: `Frame.Level`, `Session.unwound?`, `Session.Level`, `Session.Sound`.
Key theorems: `Session.Sound.step`, `Module.run_within_depths`,
`Function.control_flow_of_verify`.
-/
import ResourceMachine.Host.Scripted
import ResourceMachine.Proofs.VerifiedDepths

namespace ResourceMachine

variable {σ : Type}

/-! ### Exceptions and the depth of the stack -/

/-- The stack is no lower than it was when the innermost handler was installed. -/
def Frame.Level (f : Frame) : Prop := ∀ h ∈ f.handlers.head?, h.depth ≤ f.stack.depth

instance (f : Frame) : Decidable f.Level :=
  inferInstanceAs (Decidable (∀ h ∈ f.handlers.head?, h.depth ≤ f.stack.depth))

namespace Session

/-- Whether a suspended run is resumed with something else than a value. -/
def refuses (p : Suspension) : List (Reply σ) → Bool
  | [] => false
  | r :: _ =>
    match p.accept r.answer with
    | .next _ => false
    | _ => true

/-- The frame through which an exception is routed when a session goes on behind an
instruction. -/
def routed? (a : Activation σ) (script : List (Reply σ)) : Next → Option Frame
  | .throw _ => some a.frame
  | .await v => if refuses (.await v) script then some a.frame else none
  | .yield v => if refuses (.yield v) script then some a.frame else none
  | _ => none

/-- The frame through which the next step of a session routes an exception, if it does. -/
def unwound? (host : Host σ) (code : Bytes) (s : Session σ) : Option Frame :=
  match s.control with
  | .ended _ => none
  | .running pc =>
    match Instr.readAt code pc with
    | .error _ => none
    | .ok i =>
      match Exec.instr ⟨host, s.globals⟩ code.size (pc + i.size) i ⟨s.frame, s.world⟩ with
      | .ok next a => routed? a s.script next
      | .error _ _ => none

/-- An exception that the next step routes finds the stack no lower than its handler did. -/
def Level (host : Host σ) (code : Bytes) (s : Session σ) : Prop :=
  ∀ f ∈ s.unwound? host code, f.Level

/-- The exceptions that are routed in `k` steps find the stack no lower than their handlers. -/
def LevelFor (host : Host σ) (code : Bytes) : Nat → Session σ → Prop
  | 0, _ => True
  | k + 1, s => s.Level host code ∧ ∀ s' ∈ s.step host code, LevelFor host code k s'

/-- The session after `k` steps, if it makes as many. -/
def after (host : Host σ) (code : Bytes) : Nat → Session σ → Option (Session σ)
  | 0, s => some s
  | k + 1, s => (s.step host code).bind (after host code k)

instance (host : Host σ) (code : Bytes) (s : Session σ) : Decidable (s.Level host code) :=
  inferInstanceAs (Decidable (∀ f ∈ s.unwound? host code, f.Level))

instance decidableLevelFor (host : Host σ) (code : Bytes) :
    ∀ (k : Nat) (s : Session σ), Decidable (s.LevelFor host code k)
  | 0, _ => .isTrue trivial
  | k + 1, s =>
    have := decidableLevelFor host code k
    inferInstanceAs (Decidable (s.Level host code ∧ ∀ s' ∈ s.step host code, LevelFor host code k s'))

theorem steps_of_after {host : Host σ} {code : Bytes} : ∀ {k : Nat} {s s' : Session σ},
    s.after host code k = some s' → Steps host code k s s'
  | 0, s, s', h => Option.some.inj h ▸ .refl s
  | k + 1, s, s', h => by
    obtain ⟨s₁, hstep, h⟩ := Option.bind_eq_some_iff.mp h
    exact .step hstep (steps_of_after h)

end Session

/-! ### Depths on a run -/

/-- A depth is within another one, and equal to it if all was level. -/
def AsDeep (level : Prop) (n d : Nat) : Prop := n ≤ d ∧ (level → n = d)

namespace AsDeep

variable {level : Prop} {n d : Nat}

theorem add (h : AsDeep level n d) (k : Nat) : AsDeep level (n + k) (d + k) :=
  ⟨Nat.add_le_add_right h.1 k, fun hl => by rw [h.2 hl]⟩

theorem effect {pops pushes : Nat} (h : AsDeep level n d) (hpops : pops ≤ n) :
    AsDeep level (n - pops + pushes) (d - pops + pushes) := by
  obtain ⟨hle, heq⟩ := h
  refine ⟨by omega, fun hl => ?_⟩
  rw [heq hl]

end AsDeep

section

variable {f : Function} {lines : List Located} {D : Depths} {level : Prop}

/-- A handler leads where verification says that the handlers lead that are installed at
some depth. -/
def Handler.Placed (lines : List Located) (D : Depths) (level : Prop) (h : Handler) : Prop :=
  ∃ d, AsDeep level h.depth d ∧ (∀ t, h.onCatch = some t → D.At lines t (d + 1)) ∧
    (∀ t, h.onFinally = some t → D.At lines t (d + 2)) ∧ ¬ (h.onCatch = none ∧ h.onFinally = none)

/-- What a frame at an offset knows. -/
structure Frame.Stands (lines : List Located) (D : Depths) (level : Prop) (pc : Nat) (fr : Frame) :
    Prop where
  depth : ∃ d, D.At lines pc d ∧ AsDeep level fr.stack.depth d
  handlers : ∀ h ∈ fr.handlers, h.Placed lines D level

/-- A fault that a run of verified code may end with. -/
def Fault.Sound (lines : List Located) (D : Depths) (level : Prop) : Fault → Prop
  | .stackUnderflow => ¬ level
  | .jumpOutOfBounds t o => t < 0 ∧ ∃ p i d distance, lines[p]? = some i ∧ D.Reaches p d ∧
      i.instr.jumpDistance? = some distance ∧ t = (i.next : Int) + distance.toInt ∧ o = i.next
  | .invalidOpcode _ | .unexpectedEnd _ => False
  | _ => True

/-- What is known of a run of verified code that goes on somewhere. -/
def Route.Sound (f : Function) (lines : List Located) (D : Depths) (level : Prop) : Route × Frame → Prop
  | (.goto pc, fr) => fr.Stands lines D level pc
  | (.escaped o, fr) => fr.stack.depth ≤ f.maxStack ∧ o.suspension? = none ∧
      ∀ e, o = .failed e → e.Sound lines D level

/-- Offsets that are reached are reached at a depth that the function allows. -/
theorem Function.Analysis.at_le {pc d : Nat} (A : f.Analysis lines D) (h : D.At lines pc d) :
    d ≤ f.maxStack := by
  obtain ⟨k, i, hi, -, hreaches⟩ := h
  exact (A.line hi hreaches).before_le

namespace Frame

variable {fr : Frame} {pc d : Nat}

/-- A frame enters handler code, or goes on behind a suspension, with values pushed. -/
theorem sound_enter (A : f.Analysis lines D) : ∀ {vs : List Value} {fr : Frame} {d : Nat},
    D.At lines pc (d + vs.length) → AsDeep level fr.stack.depth d →
    (∀ h ∈ fr.handlers, h.Placed lines D level) → Route.Sound f lines D level (fr.enter pc vs)
  | [], fr, d, hat, hfits, hH => ⟨⟨d, hat, hfits⟩, hH⟩
  | v :: vs, fr, d, hat, hfits, hH => by
    unfold enter
    by_cases hfull : fr.stack.capacity ≤ fr.stack.depth
    · simp only [OperandStack.push, hfull, if_true]
      refine ⟨?_, rfl, fun e he => ?_⟩
      · have := A.at_le hat
        have := hfits.1
        omega
      · obtain rfl := Outcome.failed.inj he
        trivial
    · simp only [OperandStack.push, hfull, if_false]
      refine sound_enter A (d := d + 1) ?_ (hfits.add 1) hH
      rwa [List.length_cons, Nat.add_comm vs.length, ← Nat.add_assoc] at hat

theorem depth_truncate (s : OperandStack Value) (n : Nat) : (s.truncate n).depth = min s.depth n := by
  simp only [OperandStack.truncate, OperandStack.depth, List.length_drop]
  omega

/-- Wherever an exception is routed, verification has been. -/
theorem sound_unwind (A : f.Analysis lines D) (e : Value) (hroom : fr.stack.depth ≤ f.maxStack)
    (hH : ∀ h ∈ fr.handlers, h.Placed lines D level) (hlevel : level → fr.Level) :
    Route.Sound f lines D level (fr.unwind e) := by
  unfold unwind
  cases hhandlers : fr.handlers with
  | nil =>
    show fr.stack.depth ≤ f.maxStack ∧ (fr.escape e).suspension? = none ∧
      ∀ e', fr.escape e = .failed e' → e'.Sound lines D level
    unfold escape
    split
    · exact ⟨hroom, rfl, fun e' he' => by cases he'⟩
    · exact ⟨hroom, rfl, fun e' he' => by cases he'⟩
  | cons h rest =>
    obtain ⟨d, ⟨hle, heq⟩, hcatch, hfinally, hsome⟩ := hH h (hhandlers ▸ List.mem_cons_self)
    have hrest : ∀ h' ∈ rest, h'.Placed lines D level := fun h' hh' =>
      hH h' (hhandlers ▸ List.mem_cons_of_mem _ hh')
    have hfits : AsDeep level (fr.stack.truncate h.depth).depth d := by
      rw [depth_truncate]
      refine ⟨by omega, fun hl => ?_⟩
      have := hlevel hl h (by rw [hhandlers]; rfl)
      rw [← heq hl]
      omega
    obtain ⟨onCatch, onFinally, depth⟩ := h
    rw [unwindThrough]
    cases onCatch with
    | some t => exact sound_enter A (hcatch t rfl) hfits hrest
    | none =>
      cases onFinally with
      | some t => exact sound_enter A (hfinally t rfl) hfits hrest
      | none => exact absurd ⟨rfl, rfl⟩ hsome

end Frame

/-! ### One instruction -/

section

variable {i : Located} {d n n' : Nat} {H H' : List Handler}

/-- The handlers after an instruction lead where verification says. -/
theorem Function.Line.placed (L : f.Line lines D i d) (hfits : AsDeep level n d)
    (hH : ∀ h ∈ H, h.Placed lines D level) (h : i.instr.Rehandles f.code.size i.next n H H') :
    ∀ h ∈ H', h.Placed lines D level := by
  rcases Instr.rehandles_cases h with ⟨c, fin, onCatch, onFinally, hinstr, hc, hf, rfl⟩ | ⟨h, rfl⟩ | rfl
  · obtain ⟨hcatch, hfinally, hsome⟩ := L.handlers hinstr
    obtain rfl := Located.handlerTarget?_of_exec hc
    obtain rfl := Located.handlerTarget?_of_exec hf
    intro h hh
    rcases List.mem_cons.mp hh with rfl | hh
    · exact ⟨d, hfits, hcatch, hfinally, hsome⟩
    · exact hH h hh
  · exact fun h' hh' => hH h' (List.mem_cons_of_mem _ hh')
  · exact hH

/-- Where control goes on after an instruction, verification has been at what the depth has
become. -/
theorem Function.Line.stands {pc : Nat} {fr : Frame} (L : f.Line lines D i d) (hfits : AsDeep level n d)
    (hH : ∀ h ∈ H, h.Placed lines D level)
    (h : i.instr.Leads f.code.size i.next n H (.goto pc) fr.stack.depth fr.handlers) :
    fr.Stands lines D level pc := by
  obtain ⟨hpops, hn', hgo, hrehandles⟩ := h
  refine ⟨⟨_, L.goesTo hgo, ?_⟩, L.placed hfits hH hrehandles⟩
  rw [hn']
  exact hfits.effect hpops

/-- What an instruction faults with is a fault that verified code may end with. -/
theorem Function.Line.fault {k : Nat} {e : Fault} (A : f.Analysis lines D) (hi : lines[k]? = some i)
    (hreaches : D.Reaches k d) (hfits : AsDeep level n d)
    (h : i.instr.Faults f.code.size i.next n e n') : n' ≤ f.maxStack ∧ e.Sound lines D level := by
  have L := A.line hi hreaches
  obtain ⟨hn', he⟩ := h
  refine ⟨?_, ?_⟩
  · have := hfits.1
    have := L.before_le
    have := L.after_le
    omega
  · cases e with
    | stackUnderflow =>
      intro hl
      have hlt : n < i.instr.stackEffect.pops := he
      rw [hfits.2 hl] at hlt
      exact absurd L.pops_le (Nat.not_le.mpr hlt)
    | jumpOutOfBounds t o =>
      obtain ⟨rfl, distance, hdistance, rfl, hout⟩ := he
      have hbelow : i.target distance < f.code.size → (i.next : Int) + distance.toInt < 0 := by
        unfold Located.target
        omega
      rcases Instr.mem_distances hdistance with hjump | ⟨c, fin, hinstr, hside, hnonneg⟩
      · refine ⟨hbelow (A.lt_of_at (L.jumps hjump)), ?_⟩
        exact ⟨k, i, d, distance, hi, hreaches, hjump, rfl, rfl⟩
      · obtain ⟨hcatch, hfinally, -⟩ := L.handlers hinstr
        have htarget : i.handlerTarget? distance = some (i.target distance) := if_pos hnonneg
        have hlt : i.target distance < f.code.size := by
          rcases hside with rfl | rfl
          · exact A.lt_of_at (hcatch _ htarget)
          · exact A.lt_of_at (hfinally _ htarget)
        have := hbelow hlt
        omega
    | invalidOpcode byte => exact he.elim
    | unexpectedEnd offset => exact he.elim
    | _ => trivial

end

/-! ### Steps -/

/-- What is known of a session of a verified function. -/
structure Session.Sound (f : Function) (lines : List Located) (D : Depths) (level : Prop)
    (s : Session σ) : Prop where
  room : s.frame.stack.depth ≤ f.maxStack
  running : ∀ {pc}, s.control = .running pc → s.frame.Stands lines D level pc
  ended : ∀ {e}, s.control = .ended (.failed e) → e.Sound lines D level

namespace Session

variable {host : Host σ} {s s' : Session σ}

theorem Sound.route (A : f.Analysis lines D) {r : Route × Frame} (h : Route.Sound f lines D level r) :
    (s.route r).Sound f lines D level := by
  obtain ⟨pc | o, fr⟩ := r
  · obtain ⟨⟨d, hat, hfits⟩, hH⟩ := h
    refine ⟨Nat.le_trans hfits.1 (A.at_le hat), fun hpc => ?_, fun he => ?_⟩
    · cases hpc
      exact ⟨⟨d, hat, hfits⟩, hH⟩
    · cases he
  · obtain ⟨hroom, -, hfault⟩ := h
    refine ⟨hroom, fun hpc => ?_, fun he => ?_⟩
    · cases hpc
    · cases he
      exact hfault _ rfl

/-- What is known of a session whose frame stands somewhere. -/
theorem Sound.of_stands (A : f.Analysis lines D) {pc : Nat} (hcontrol : s.control = .running pc)
    (h : s.frame.Stands lines D level pc) : s.Sound f lines D level := by
  obtain ⟨d, hat, hfits⟩ := h.depth
  refine ⟨Nat.le_trans hfits.1 (A.at_le hat), fun hpc => ?_, fun he => ?_⟩
  · rw [hcontrol] at hpc
    cases hpc
    exact h
  · rw [hcontrol] at he
    cases he

/-- A session whose run has ended stays sound if it ends for a sound reason. -/
theorem Sound.of_ended {o : Outcome} (hcontrol : s.control = .ended o)
    (hroom : s.frame.stack.depth ≤ f.maxStack) (ho : ∀ e, o = .failed e → e.Sound lines D level) :
    s.Sound f lines D level := by
  refine ⟨hroom, fun hpc => ?_, fun he => ?_⟩
  · rw [hcontrol] at hpc
    cases hpc
  · rw [hcontrol] at he
    cases he
    exact ho _ rfl

theorem halt_of_none {o : Outcome} (h : o.suspension? = none) :
    s.halt o = { s with control := .ended o } := by
  unfold halt
  rw [h]

/-- A session that routes an exception is sound. -/
theorem Sound.throw (A : f.Analysis lines D) {a : Activation σ} {next : Nat} {e : Value}
    (hroom : a.frame.stack.depth ≤ f.maxStack) (hH : ∀ h ∈ a.frame.handlers, h.Placed lines D level)
    (hlevel : level → a.frame.Level) : (s.proceed (a.throw next e)).Sound f lines D level := by
  have hsound := Frame.sound_unwind A e hroom hH hlevel
  unfold Activation.throw
  cases hunwind : a.frame.unwind e with
  | mk r fr =>
    rw [hunwind] at hsound
    cases r with
    | goto pc => exact Sound.of_stands A rfl hsound
    | escaped o =>
      obtain ⟨hroom', ho, hfault⟩ := hsound
      show (Session.halt (s.update (.ended o) _) o).Sound f lines D level
      rw [halt_of_none ho]
      exact Sound.of_ended rfl hroom' hfault

/-- A session that stops behind an instruction is sound, and stays so when it is resumed. -/
theorem Sound.suspend (A : f.Analysis lines D) {p : Suspension} {d : Nat} {a : Activation σ}
    (hat : D.At lines a.frame.ip (d + 1)) (hfits : AsDeep level a.frame.stack.depth d)
    (hH : ∀ h ∈ a.frame.handlers, h.Placed lines D level)
    (hlevel : level → refuses p s.script = true → a.frame.Level) :
    (s.proceed (.halted p.outcome a)).Sound f lines D level := by
  have hp : p.outcome.suspension? = some p := by cases p <;> rfl
  have hroom : a.frame.stack.depth ≤ f.maxStack := by
    have := hfits.1
    have := A.at_le hat
    omega
  show (Session.halt (s.update (.ended p.outcome) a) p.outcome).Sound f lines D level
  unfold Session.halt
  rw [hp]
  cases hscript : s.script with
  | nil =>
    simp only [update, hscript]
    exact Sound.of_ended rfl hroom fun e he => by cases p <;> cases he
  | cons r rest =>
    simp only [update, hscript]
    rw [hscript] at hlevel
    refine Sound.route A ?_
    cases hanswer : p.accept r.answer with
    | next v =>
      show Route.Sound f lines D level (a.frame.enter a.frame.ip [v])
      exact Frame.sound_enter A hat hfits hH
    | throw e =>
      exact Frame.sound_unwind A e hroom hH fun hl => hlevel hl (by simp [refuses, hanswer])
    | ret v =>
      have hlevel' : level → Frame.Level { a.frame with rval := v } := fun hl =>
        hlevel hl (by simp [refuses, hanswer])
      exact Frame.sound_unwind A .closing hroom hH hlevel'

/-- A session is sound wherever an instruction leads. -/
theorem Sound.follow (A : f.Analysis lines D) {i : Located} {d n : Nat} {H : List Handler} {next : Next}
    {a : Activation σ} (L : f.Line lines D i d) (hfits : AsDeep level n d)
    (hH : ∀ h ∈ H, h.Placed lines D level)
    (h : i.instr.Leads f.code.size i.next n H next a.frame.stack.depth a.frame.handlers)
    (hlevel : level → ∀ fr, routed? a s.script next = some fr → fr.Level) :
    (s.proceed (a.follow i.next next)).Sound f lines D level := by
  have hn : n ≤ f.maxStack := Nat.le_trans hfits.1 L.before_le
  -- both kinds of suspension pop one value, and one is pushed when the run is resumed with a value
  have hstop : ∀ p : Suspension, i.instr.stackEffect = ⟨1, 1⟩ → i.instr.GoesTo f.code.size i.next i.next →
      n = a.frame.stack.depth + 1 → a.frame.handlers = H →
      (level → refuses p s.script = true → a.frame.Level) →
      (s.proceed (.halted p.outcome (a.keepIp i.next))).Sound f lines D level := by
    intro p heffect hgo hdepth hsame hlevel
    have hat := L.goesTo hgo
    have hpops := L.pops_le
    rw [heffect] at hat hpops
    obtain ⟨d, rfl⟩ := Nat.exists_eq_add_of_le' (show 1 ≤ d from hpops)
    refine Sound.suspend A (a := a.keepIp i.next) hat ⟨?_, fun hl => ?_⟩ (hsame ▸ hH) hlevel
    · have := hfits.1
      show a.frame.stack.depth ≤ d
      omega
    · have := hfits.2 hl
      show a.frame.stack.depth = d
      omega
  cases next with
  | goto pc => exact Sound.of_stands A rfl (L.stands hfits hH h)
  | throw e =>
    obtain ⟨hle, hsame⟩ := h
    exact Sound.throw A (Nat.le_trans hle hn) (hsame ▸ hH) fun hl => hlevel hl _ rfl
  | await v =>
    obtain ⟨hdepth, hsame, hinstr⟩ := h
    exact hstop (.await v) (by rw [hinstr]; rfl) (by rw [hinstr]; rfl) hdepth hsame fun hl hr =>
      hlevel hl _ (if_pos hr)
  | yield v =>
    obtain ⟨hdepth, hsame, hinstr⟩ := h
    exact hstop (.yield v) (by rw [hinstr]; rfl) (by rw [hinstr]; rfl) hdepth hsame fun hl hr =>
      hlevel hl _ (if_pos hr)
  | ret v =>
    obtain ⟨hle, -⟩ := h
    exact Sound.of_ended rfl (Nat.le_trans hle hn) fun e he => by cases he

/-- A step keeps what is known of a session of verified code. -/
theorem Sound.step (A : f.Analysis lines D) (h : s.step host f.code = some s')
    (hs : s.Sound f lines D level) (hlevel : level → s.Level host f.code) :
    s'.Sound f lines D level := by
  unfold Session.step at h
  split at h
  · cases h
  · rename_i pc hcontrol
    obtain ⟨⟨d, ⟨k, i, hi, rfl, hreaches⟩, hfits⟩, hH⟩ := hs.running hcontrol
    have L := A.line hi hreaches
    obtain ⟨op, hop, hoperands⟩ := except_bind_eq_ok.mp L.readAt
    have hkeeps : Exec.Keeps ⟨host, s.globals⟩ f.code.size i.next s.frame.stack.slots.length
      s.frame.handlers i.instr := Exec.instr_shifts i.instr
    have hshift := hkeeps ⟨s.frame, s.world⟩ rfl rfl
    obtain rfl := Option.some.inj h
    simp only [Activation.step, hop, hoperands, Activation.perform]
    rw [show i.offset + i.instr.size = i.next from rfl]
    cases hexec : Exec.instr ⟨host, s.globals⟩ f.code.size i.next i.instr ⟨s.frame, s.world⟩ with
    | error e a =>
      rw [hexec] at hshift
      obtain ⟨hroom, he⟩ := Function.Line.fault A hi hreaches hfits hshift
      exact Sound.of_ended rfl hroom fun e' he' => by cases he'; exact he
    | ok next a =>
      rw [hexec] at hshift
      refine Sound.follow A L hfits hH hshift fun hl fr hfr => hlevel hl fr ?_
      have hexec' : Exec.instr ⟨host, s.globals⟩ f.code.size (i.offset + i.instr.size) i.instr
        ⟨s.frame, s.world⟩ = .ok next a := hexec
      simp only [unwound?, hcontrol, L.readAt, hexec']
      exact hfr

/-- What is known of a session stays known however far it gets. -/
theorem Sound.steps {k : Nat} (A : f.Analysis lines D) (h : Steps host f.code k s s')
    (hs : s.Sound f lines D level) (hlevel : level → s.LevelFor host f.code k) :
    s'.Sound f lines D level := by
  induction h with
  | refl => exact hs
  | step head _ ih =>
    have hs₁ := hs.step A head fun hl => (hlevel hl).1
    exact ih hs₁ fun hl => (hlevel hl).2 _ head

/-- A call starts where verification does. -/
theorem Sound.start (A : f.Analysis lines D) {m : Module} {index capacity : Nat} {args : List Value}
    {world : World σ} {globals : Globals} {script : List (Reply σ)} :
    (Session.start (.start m index args capacity) world globals script).Sound f lines D level := by
  refine Sound.of_stands A rfl ⟨⟨0, A.at_entry, Nat.le_refl 0, fun _ => rfl⟩, ?_⟩
  intro h hh
  exact absurd hh List.not_mem_nil

end Session
end

/-! ### The operand stack -/

theorem Module.verify_of_mem {constants : ConstantPool} : ∀ {fs : List Function} {f : Function},
    Module.verifyFunctions constants fs = .ok () → f ∈ fs → f.verify constants = .ok ()
  | g :: fs, f, h, hf => by
    obtain ⟨_, hg, h⟩ := except_bind_eq_ok.mp h
    rcases List.mem_cons.mp hf with rfl | hf
    · exact hg
    · exact verify_of_mem h hf

theorem Module.verify_function {m : Module} {f : Function} (hm : m.verify = .ok ()) (hf : f ∈ m.functions) :
    f.verify m.constants = .ok () := by
  obtain ⟨_, -, h⟩ := except_bind_eq_ok.mp hm
  exact verify_of_mem h hf

/-- **A run of a verified function keeps to the depths that verification has found.** Its
stack is never deeper than they say. It is exactly as deep as they say, and never wants for
an operand, as long as no exception finds the stack lower than its handler did. -/
theorem Module.run_within_depths {σ : Type} {m : Module} {index : Nat} {f : Function}
    (hm : m.verify = .ok ()) (hf : m.functions[index]? = some f) {host : Host σ} {args : List Value}
    {capacity : Nat} {world : World σ} {globals : Globals} {script : List (Reply σ)} {k : Nat}
    {s : Session σ}
    (h : Steps host f.code k (.start (.start m index args capacity) world globals script) s) :
    ∃ lines D, Located.ofCode f.code = .ok lines ∧ f.depths m.constants = .ok D ∧
      s.frame.stack.depth ≤ f.maxStack ∧
      (∀ pc, s.control = .running pc → ∃ d, D.At lines pc d ∧ s.frame.stack.depth ≤ d) ∧
      ((Session.start (.start m index args capacity) world globals script).LevelFor host f.code k →
        (∀ pc, s.control = .running pc → D.At lines pc s.frame.stack.depth) ∧
        s.control ≠ .ended (.failed .stackUnderflow)) := by
  have hverify := Module.verify_function hm (List.mem_of_getElem? hf)
  obtain ⟨D, hD⟩ := Function.depths_of_verify hverify
  obtain ⟨lines, A⟩ := Function.analysis_of_depths hD
  have hwithin : s.Sound f lines D False := (Session.Sound.start A).steps A h False.elim
  refine ⟨lines, D, A.decoded, hD, hwithin.room, fun pc hpc => ?_, fun hlevel => ?_⟩
  · obtain ⟨d, hat, hfits⟩ := (hwithin.running hpc).depth
    exact ⟨d, hat, hfits.1⟩
  · have hsound : s.Sound f lines D True := (Session.Sound.start A).steps A h fun _ => hlevel
    refine ⟨fun pc hpc => ?_, fun hend => hsound.ended hend trivial⟩
    obtain ⟨d, hat, hfits⟩ := (hsound.running hpc).depth
    rwa [hfits.2 trivial]

/-! ### Runs that can be computed -/

theorem ok_of_isOk {ε : Type} {x : Except ε Unit} (h : x.isOk = true) : x = .ok () := by
  cases x with
  | ok u => rfl
  | error e => cases h

/-- A function of a code, without parameters. -/
def Function.ofInstrs (localCount maxStack : Nat) (is : List Instr) : Function :=
  ⟨"f", .normal, 0, localCount, maxStack, is.toArray.flatMap Instr.encode⟩

/-- A function alone in a module. -/
def Module.ofFunction (f : Function) : Module := { Module.named "m" with functions := [f] }

namespace Session

/-- A call of a function that is alone in its module, in an empty world. -/
def trial (f : Function) : Session Console :=
  .start (.start (.ofFunction f) 0 [] 8) ⟨.empty, Console.empty⟩ [] []

/-- Where the session stands, if it has not ended. -/
def pc? (s : Session Console) : Option Nat :=
  match s.control with
  | .running pc => some pc
  | .ended _ => none

/-- The fault that ended the session. -/
def fault? (s : Session Console) : Option Fault :=
  match s.control with
  | .ended (.failed e) => some e
  | _ => none

theorem control_of_pc? {s : Session Console} {pc : Nat} (h : s.pc? = some pc) :
    s.control = .running pc := by
  unfold pc? at h
  split at h
  · cases h
    assumption
  · cases h

theorem control_of_fault? {s : Session Console} {e : Fault} (h : s.fault? = some e) :
    s.control = .ended (.failed e) := by
  unfold fault? at h
  split at h
  · cases h
    assumption
  · cases h

end Session

/-- Throws in a protected region, and takes what is thrown for its result. -/
def recovering : Function := .ofInstrs 0 1 [.tryStart 2 (-1), .constNull, .throw, .setRval, .retRval]

/-- The handler of `recovering` finds what verification says. -/
theorem Module.run_within_depths_recovering : (Module.ofFunction recovering).verify = .ok () ∧
    ∃ s lines D, Steps Console.call recovering.code 3 (.trial recovering) s ∧ s.control = .running 11 ∧
      (Session.trial recovering).LevelFor Console.call recovering.code 3 ∧
      Located.ofCode recovering.code = .ok lines ∧ recovering.depths .empty = .ok D ∧
      D.At lines 11 s.frame.stack.depth := by
  have hverify : (Module.ofFunction recovering).verify.isOk = true := by decide +kernel
  have hafter : (((Session.trial recovering).after Console.call recovering.code 3).any
      (·.pc? == some 11)) = true := by
    decide +kernel
  have hlevel : (Session.trial recovering).LevelFor Console.call recovering.code 3 := by decide +kernel
  obtain ⟨s, hs, hpc⟩ := (Option.any_eq_true _ _).mp hafter
  have hcontrol := Session.control_of_pc? (beq_iff_eq.mp hpc)
  have hsteps := Session.steps_of_after hs
  obtain ⟨lines, D, hlines, hD, -, -, hrun⟩ := Module.run_within_depths (ok_of_isOk hverify) rfl hsteps
  exact ⟨ok_of_isOk hverify, s, lines, D, hsteps, hcontrol, hlevel, hlines, hD,
    (hrun hlevel).1 11 hcontrol⟩

/-- Takes an operand away in a protected region that was there before it. -/
def undercutting : Function :=
  .ofInstrs 0 2 [.constUndefined, .tryStart 3 (-1), .pop, .constNull, .throw, .popN 2, .retRval]

/-- Verification lets `undercutting` pass, which then wants for an operand. -/
theorem Module.run_undercutting : (Module.ofFunction undercutting).verify = .ok () ∧
    ∃ s, Steps Console.call undercutting.code 6 (.trial undercutting) s ∧
      s.control = .ended (.failed .stackUnderflow) := by
  have hverify : (Module.ofFunction undercutting).verify.isOk = true := by decide +kernel
  have hafter : (((Session.trial undercutting).after Console.call undercutting.code 6).any
      (·.fault? == some .stackUnderflow)) = true := by
    decide +kernel
  obtain ⟨s, hs, hfault⟩ := (Option.any_eq_true _ _).mp hafter
  exact ⟨ok_of_isOk hverify, s, Session.steps_of_after hs,
    Session.control_of_fault? (beq_iff_eq.mp hfault)⟩

/-! ### Control flow -/

namespace Function

variable {f : Function} {lines : List Located} {D : Depths} {i : Located} {d : Nat}

theorem jumpTarget?_of_distance {distance : Int32} (h : i.instr.jumpDistance? = some distance) :
    i.jumpTarget? = some (i.target distance) := by
  unfold Instr.jumpDistance? at h
  unfold Located.jumpTarget?
  split at h
  all_goals simp_all

/-- The machine finds a target that is not before the start where the disassembler says it is. -/
theorem Analysis.target_eq {distance : Int32} {t : Nat} (A : f.Analysis lines D)
    (hat : D.At lines (i.target distance) t) :
    Exec.target f.code.size i.next distance =
      if 0 ≤ (i.next : Int) + distance.toInt then .ok (i.target distance)
      else .error (.jumpOutOfBounds (i.next + distance.toInt) i.next) := by
  have hlt := A.lt_of_at hat
  unfold Located.target at hlt
  by_cases hstart : 0 ≤ (i.next : Int) + distance.toInt
  · rw [Exec.target, if_neg (by omega), if_pos hstart]
    rfl
  · rw [Exec.target, if_pos (by omega), if_neg hstart]

theorem Analysis.handlerTarget?_eq {distance : Int32} (A : f.Analysis lines D)
    (hat : ∀ t, i.handlerTarget? distance = some t → ∃ d, D.At lines t d) :
    Exec.handlerTarget? f.code.size i.next distance = .ok (i.handlerTarget? distance) := by
  unfold Exec.handlerTarget?
  by_cases hneg : distance < 0
  · have hsome : ¬ 0 ≤ distance.toInt := by simpa [Int32.lt_iff_toInt_lt] using hneg
    rw [if_pos hneg, Located.handlerTarget?, if_neg hsome]
  · have hnonneg : 0 ≤ distance.toInt := by simpa [Int32.lt_iff_toInt_lt] using hneg
    obtain ⟨d, hd⟩ := hat (i.target distance) (if_pos hnonneg)
    rw [if_neg hneg, A.target_eq hd, if_pos (by omega), Located.handlerTarget?, if_pos hnonneg]
    rfl

theorem mem_of_at {pc : Nat} (h : D.At lines pc d) : ∃ j ∈ lines, j.offset = pc := by
  obtain ⟨k, j, hj, hoffset, -⟩ := h
  exact ⟨j, List.mem_of_getElem? hj, hoffset⟩

/-- **The verifier, the disassembler and the machine agree on where control goes**, but for
jumps to before the start. Every target that the disassembler tells of an instruction that
verification has reached is the start of an instruction. The machine finds handlers there,
and goes there on a jump, unless the distance leads to before the start: the disassembler
then tells the start, and the machine faults. No run of the function fails because of where
it goes, or of what it finds there, except at such a jump. -/
theorem control_flow_of_verify {m : Module} (hv : f.verify m.constants = .ok ()) :
    ∃ lines D, Located.ofCode f.code = .ok lines ∧ f.depths m.constants = .ok D ∧
      (∀ p i d, lines[p]? = some i → D.Reaches p d →
        (∀ distance, i.instr.jumpDistance? = some distance →
          i.jumpTarget? = some (i.target distance) ∧ (∃ j ∈ lines, j.offset = i.target distance) ∧
          Exec.target f.code.size i.next distance =
            if 0 ≤ (i.next : Int) + distance.toInt then .ok (i.target distance)
            else .error (.jumpOutOfBounds (i.next + distance.toInt) i.next)) ∧
        (∀ c fin, i.instr = .tryStart c fin →
          Exec.handlerTarget? f.code.size i.next c = .ok i.handlerTargets.1 ∧
          Exec.handlerTarget? f.code.size i.next fin = .ok i.handlerTargets.2 ∧
          ∀ t, (i.handlerTargets.1 = some t ∨ i.handlerTargets.2 = some t) → ∃ j ∈ lines, j.offset = t)) ∧
      ∀ (σ : Type) (host : Host σ) (index : Nat) (args : List Value) (capacity : Nat) (world : World σ)
        (globals : Globals) (script : List (Reply σ)) (k : Nat) (s : Session σ) (e : Fault),
        m.functions[index]? = some f →
        Steps host f.code k (.start (.start m index args capacity) world globals script) s →
        s.control = .ended (.failed e) →
        (∀ byte, e ≠ .invalidOpcode byte) ∧ (∀ offset, e ≠ .unexpectedEnd offset) ∧
        ∀ t offset, e = .jumpOutOfBounds t offset → t < 0 ∧ ∃ p i d distance, lines[p]? = some i ∧
          D.Reaches p d ∧ i.instr.jumpDistance? = some distance ∧
          t = (i.next : Int) + distance.toInt ∧ offset = i.next := by
  obtain ⟨D, hD⟩ := depths_of_verify hv
  obtain ⟨lines, A⟩ := analysis_of_depths hD
  refine ⟨lines, D, A.decoded, hD, fun p i d hi hreaches => ⟨fun distance hjump => ?_, fun c fin hinstr => ?_⟩,
    fun σ host index args capacity world globals script k s e _ h he => ?_⟩
  · have hat := (A.line hi hreaches).jumps hjump
    exact ⟨jumpTarget?_of_distance hjump, mem_of_at hat, A.target_eq hat⟩
  · obtain ⟨hcatch, hfinally, -⟩ := (A.line hi hreaches).handlers hinstr
    have htargets : i.handlerTargets = (i.handlerTarget? c, i.handlerTarget? fin) := by
      rw [Located.handlerTargets, hinstr]
    rw [htargets]
    refine ⟨A.handlerTarget?_eq fun t ht => ⟨_, hcatch t ht⟩, A.handlerTarget?_eq fun t ht =>
      ⟨_, hfinally t ht⟩, fun t ht => ?_⟩
    rcases ht with ht | ht
    · exact mem_of_at (hcatch t ht)
    · exact mem_of_at (hfinally t ht)
  · have hsound : s.Sound f lines D False := (Session.Sound.start A).steps A h False.elim
    have hfault := hsound.ended he
    refine ⟨?_, ?_, ?_⟩
    · rintro byte rfl
      exact hfault
    · rintro offset rfl
      exact hfault
    · rintro t offset rfl
      exact hfault

/-- A loop that is left when it is entered for the second time. -/
def looping (distance : Int32) : Function :=
  .ofInstrs 1 1 [.loadLocal 0, .jmpIfTrue 9, .constTrue, .storeLocal 0, .jmp distance, .retRval]

/-- Where control goes in a verified loop. -/
theorem control_flow_of_verify_looping : (looping (-17)).verify .empty = .ok () ∧
    ∃ lines D, Located.ofCode (looping (-17)).code = .ok lines ∧ (looping (-17)).depths .empty = .ok D ∧
      lines[4]? = some ⟨12, .jmp (-17)⟩ ∧ D.Reaches 4 0 ∧
      Exec.target (looping (-17)).code.size 17 (-17) = .ok 0 ∧ ∃ j ∈ lines, j.offset = 0 := by
  have hverify : ((looping (-17)).verify (Module.ofFunction (looping (-17))).constants).isOk = true := by
    decide +kernel
  have hline : ((Located.ofCode (looping (-17)).code).toOption.any
      (·[4]? == some ⟨12, .jmp (-17)⟩)) = true := by
    decide +kernel
  have hreached : (((looping (-17)).depths (Module.ofFunction (looping (-17))).constants).toOption.any
      (·.depth[4]? == some (some 0))) = true := by
    decide +kernel
  obtain ⟨lines, D, hlines, hD, htargets, -⟩ := control_flow_of_verify (ok_of_isOk hverify)
  rw [hlines] at hline
  rw [hD] at hreached
  have hi : lines[4]? = some ⟨12, .jmp (-17)⟩ := beq_iff_eq.mp hline
  have hreaches : D.Reaches 4 0 := beq_iff_eq.mp hreached
  obtain ⟨hjumps, -⟩ := htargets 4 _ 0 hi hreaches
  obtain ⟨-, hstart, hgoes⟩ := hjumps (-17) rfl
  exact ⟨ok_of_isOk hverify, lines, D, hlines, hD, hi, hreaches, hgoes, hstart⟩

/-- Verification lets a loop pass whose way back leads to before the start, with the start for
the target of the jump. The machine does not go there. -/
theorem control_flow_looping : (looping (-18)).verify .empty = .ok () ∧
    (Instr.readAt (looping (-18)).code 12).toOption = some (.jmp (-18)) ∧
    Located.jumpTarget? ⟨12, .jmp (-18)⟩ = some 0 ∧
    ∃ s, Steps Console.call (looping (-18)).code 5 (.trial (looping (-18))) s ∧
      s.control = .ended (.failed (.jumpOutOfBounds (-1) 17)) := by
  have hverify : ((looping (-18)).verify .empty).isOk = true := by decide +kernel
  have hread : (Instr.readAt (looping (-18)).code 12).toOption = some (.jmp (-18)) := by decide +kernel
  have hafter : (((Session.trial (looping (-18))).after Console.call (looping (-18)).code 5).any
      (·.fault? == some (.jumpOutOfBounds (-1) 17))) = true := by
    decide +kernel
  obtain ⟨s, hs, hfault⟩ := (Option.any_eq_true _ _).mp hafter
  exact ⟨ok_of_isOk hverify, hread, by decide, s, Session.steps_of_after hs,
    Session.control_of_fault? (beq_iff_eq.mp hfault)⟩

end Function
end ResourceMachine
