/-
# Frames under handlers

A handler keeps of the operand stack how deep it was when the handler was installed, and what
was on it is there still when an exception comes to it (`Guard.Suits`). A frame has the depth,
the handlers and the scopes of a posture (`Frame.Stationed`). An instruction takes it to the
posture behind, for it leaves alone what the innermost handler leaves; and an exception takes it
to the code of that handler, for it comes only from where the scopes are what the handler counts
on.

Key definitions: `Guard`, `Fenced`, `Frame.Stationed`, `Catches`.
Key theorems: `Frame.unwinds`, `Frame.Stationed.behind`, `Frame.Stationed.guarded`.
-/
import ResourceMachine.Proofs.MarkedCode
import ResourceMachine.Proofs.OperandUse
import ResourceMachine.Proofs.ScopeUse
import ResourceMachine.Proofs.VerifiedDepths

namespace ResourceMachine

variable {σ : Type}

/-! ### Handlers and scopes -/

/-- A handler, the offset of the `TRY_START` that installed it, and the operands that were on
the stack when that was executed, the top first. -/
structure Guard where
  site : Nat
  handler : Handler
  operands : List Value

/-- A scope that is not marked holds nothing that is disposed with an await. -/
def Capability.Suits (marked : Bool) (c : Capability) : Prop :=
  marked = false → ∀ r ∈ c.resources, r.Prompt

theorem Capability.Suits.empty (marked : Bool) : Capability.empty.Suits marked :=
  fun _ _ hr => absurd hr List.not_mem_nil

/-- What suits marks suits more of them. -/
theorem Fewer.suits {bs cs : List Bool} {caps : List Capability} (h : Fewer bs cs)
    (hcaps : List.Forall₂ Capability.Suits bs caps) : List.Forall₂ Capability.Suits cs caps := by
  induction h generalizing caps with
  | nil => exact hcaps
  | @cons b c bs cs hbc _ ih =>
    obtain ⟨cap, caps', hcap, hrest, rfl⟩ := List.forall₂_cons_left_iff.mp hcaps
    refine .cons (fun hc => hcap ?_) (ih hrest)
    cases b with
    | false => rfl
    | true => rw [hbc rfl] at hc; cases hc

/-- A handler is one that code was marked for. Its operands are still on the stack, and its
code is marked. -/
structure Guard.Suits (G : Marks) (f : Fence) (outer : List Fence) (stack : List Value) (g : Guard) :
    Prop where
  site_eq : g.site = f.site
  depth_eq : g.handler.depth = f.depth
  length_eq : g.operands.length = f.depth
  suffix : g.operands <:+ stack
  handled : ¬ (g.handler.onCatch = none ∧ g.handler.onFinally = none)
  onCatch : ∀ p, g.handler.onCatch = some p → G p (Nesting.at ⟨outer, f.scopes⟩ (f.depth + 1))
  onFinally : ∀ p, g.handler.onFinally = some p → G p (Nesting.at ⟨outer, f.scopes⟩ (f.depth + 2))

/-- The handlers are those that code was marked for, one inside of the other. -/
inductive Fenced (G : Marks) : List Fence → List Guard → List Value → Prop
  | nil {stack : List Value} : Fenced G [] [] stack
  | cons {f : Fence} {fs : List Fence} {g : Guard} {gs : List Guard} {stack : List Value}
      (inner : g.Suits G f fs stack) (outer : Fenced G fs gs g.operands) :
      Fenced G (f :: fs) (g :: gs) stack

/-- A frame has the handlers, the scopes and the depth of a posture. -/
structure Frame.Stationed (G : Marks) (P : Posture) (gs : List Guard) (fr : Frame) : Prop where
  depth : fr.stack.slots.length = P.depth
  handlers : fr.handlers = gs.map Guard.handler
  fenced : Fenced G P.nesting.fences gs fr.stack.slots
  scopes : List.Forall₂ Capability.Suits P.nesting.scopes fr.scopes
  voided : P.voided = true → fr.stack.slots.head? = some .undefined

section

variable {G : Marks} {P : Posture} {N : Nesting} {gs : List Guard} {fr fr' : Frame}
  {fs : List Fence} {stack stack' : List Value}

/-- What may be taken out of a scope that is not marked is disposed without an await. -/
theorem Frame.Stationed.prompt (h : fr.Stationed G P gs) (hcalm : ¬ P.nesting.MayAwait) :
    ∀ c ∈ fr.scopes.head?, ∀ r ∈ c.resources, r.Prompt := by
  have hscopes := h.scopes
  unfold Nesting.MayAwait at hcalm
  generalize P.nesting.scopes = bs at hcalm hscopes
  generalize fr.scopes = cs at hscopes ⊢
  cases hscopes with
  | nil => exact nofun
  | cons hc _ =>
    intro c hhead
    obtain rfl := Option.some.inj hhead
    exact hc (by simpa using hcalm)

namespace Fenced

theorem sites_eq (h : Fenced G fs gs stack) : gs.map Guard.site = fs.map Fence.site := by
  induction h with
  | nil => rfl
  | cons inner _ ih => rw [List.map_cons, List.map_cons, inner.site_eq, ih]

/-- Handlers stay as long as what the innermost one leaves is on the stack. -/
theorem of_suffix (h : Fenced G fs gs stack) (hsuffix : ∀ g ∈ gs.head?, g.operands <:+ stack') :
    Fenced G fs gs stack' := by
  cases h with
  | nil => exact .nil
  | cons inner outer => exact .cons { inner with suffix := hsuffix _ rfl } outer

/-- What takes nothing that the innermost handler leaves, leaves its operands. -/
theorem of_drop {pops : Nat} (h : Fenced G N.fences gs stack) (hbase : N.base + pops ≤ stack.length)
    (hsuffix : stack.drop pops <:+ stack') : Fenced G N.fences gs stack' := by
  refine h.of_suffix fun g hg => ?_
  obtain ⟨_ | ⟨f, fs⟩, scopes⟩ := N
  · cases h
    cases hg
  · cases h with
    | cons inner outer =>
      obtain rfl := Option.some.inj hg
      have hbase : f.depth + pops ≤ stack.length := hbase
      have hle : f.depth ≤ (stack.drop pops).length := by
        rw [List.length_drop]
        omega
      exact (List.suffix_of_suffix_length_le inner.suffix (List.drop_suffix pops stack)
        (inner.length_eq ▸ hle)).trans hsuffix

/-- More may be put on the stack. -/
theorem pushed (h : Fenced G fs gs stack) (hsuffix : stack <:+ stack') : Fenced G fs gs stack' := by
  refine h.of_suffix fun g hg => ?_
  cases h with
  | nil => cases hg
  | cons inner _ =>
    obtain rfl := Option.some.inj hg
    exact inner.suffix.trans hsuffix

/-- Without the innermost handler. -/
theorem tail (h : Fenced G N.fences gs stack) : Fenced G N.unguarded.fences gs.tail stack := by
  obtain ⟨_ | ⟨f, fs⟩, scopes⟩ := N
  · cases h
    exact .nil
  · cases h with
    | cons inner outer => exact outer.pushed inner.suffix

end Fenced

/-! ### Exceptions -/

/-- Where a session goes with a frame that is routed. -/
def Route.control : Route → Control
  | .goto pc => .running pc
  | .escaped o => .ended o

/-- Where an exception leads: into the code of the innermost handler, with the operands that it
was installed over, unless there is no room for the exception; or out of the call, if there is
no handler. -/
def Catches (e : Value) : List Guard → Control → Frame → Prop
  | [], c, _ => ∃ o, c = .ended o
  | g :: gs, c, fr => c = .ended (.failed .stackOverflow) ∨
    ∃ p, c = .running p ∧ fr.handlers = gs.map Guard.handler ∧
      ((g.handler.onCatch = some p ∧ fr.stack.slots = e :: g.operands) ∨
        (g.handler.onCatch = none ∧ g.handler.onFinally = some p ∧
          fr.stack.slots = .bool true :: e :: g.operands))

/-- Handler code is entered with all values pushed, if there is room for them. -/
theorem Frame.enter_cases (pc : Nat) : ∀ (vs : List Value) (fr : Frame),
    (fr.enter pc vs).1 = .escaped (.failed .stackOverflow) ∨
      fr.enter pc vs = (.goto pc, { fr with stack := { fr.stack with slots := vs.reverse ++ fr.stack.slots } })
  | [], fr => .inr rfl
  | v :: vs, fr => by
    unfold enter
    by_cases hfull : fr.stack.capacity ≤ fr.stack.depth
    · simp only [OperandStack.push, if_pos hfull]
      exact .inl trivial
    · simp only [OperandStack.push, if_neg hfull, List.reverse_cons, List.append_assoc, List.singleton_append]
      exact enter_cases pc vs _

/-- What lies above the operands of a handler is dropped. -/
theorem truncate_of_suffix {s : OperandStack Value} {st : List Value} {n : Nat} (h : st <:+ s.slots)
    (hn : st.length = n) : s.truncate n = { s with slots := st } := by
  subst hn
  unfold OperandStack.truncate OperandStack.depth
  rw [← List.suffix_iff_eq_drop.mp h]

/-- The frame that comes to a handler, before anything is pushed. -/
def Frame.opened (fr : Frame) (g : Guard) (H : List Handler) : Frame :=
  { fr with stack := { fr.stack with slots := g.operands }, handlers := H }

/-- An exception is routed to the code of the innermost handler. -/
theorem Guard.Suits.unwind {f : Fence} {g : Guard} {H : List Handler} (h : g.Suits G f fs fr.stack.slots)
    (hhandlers : fr.handlers = g.handler :: H) (e : Value) :
    ∃ p vs, fr.unwind e = (fr.opened g H).enter p vs ∧
      G p (Nesting.at ⟨fs, f.scopes⟩ (f.depth + vs.length)) ∧
      ((g.handler.onCatch = some p ∧ vs = [e]) ∨
        (g.handler.onCatch = none ∧ g.handler.onFinally = some p ∧ vs = [e, .bool true])) := by
  have hstack : fr.stack.truncate g.handler.depth = { fr.stack with slots := g.operands } :=
    truncate_of_suffix h.suffix (h.length_eq.trans h.depth_eq.symm)
  cases hcatch : g.handler.onCatch with
  | some p =>
    refine ⟨p, [e], ?_, h.onCatch p hcatch, .inl ⟨rfl, rfl⟩⟩
    simp only [Frame.unwind, Frame.unwindThrough, hhandlers, hcatch, hstack]
    rfl
  | none =>
    cases hfinally : g.handler.onFinally with
    | none => exact absurd ⟨hcatch, hfinally⟩ h.handled
    | some p =>
      refine ⟨p, [e, .bool true], ?_, h.onFinally p hfinally, .inr ⟨rfl, rfl, rfl⟩⟩
      simp only [Frame.unwind, Frame.unwindThrough, hhandlers, hcatch, hfinally, hstack]
      rfl

/-- An exception is routed to the innermost handler, which finds the scopes that it counts on. -/
theorem Frame.unwinds (e : Value) (hhandlers : fr.handlers = gs.map Guard.handler)
    (hfenced : Fenced G N.fences gs fr.stack.slots)
    (hscopes : List.Forall₂ Capability.Suits N.scopes fr.scopes) (hlevel : N.Level) :
    Catches e gs (fr.unwind e).1.control (fr.unwind e).2 ∧
      ∀ pc, (fr.unwind e).1 = .goto pc → ∃ P, G pc P ∧ (fr.unwind e).2.Stationed G P gs.tail := by
  obtain ⟨_ | ⟨f, fs⟩, scopes⟩ := N
  · cases hfenced
    unfold unwind
    rw [show fr.handlers = [] from hhandlers]
    exact ⟨⟨_, rfl⟩, nofun⟩
  · cases hfenced with
    | @cons _ _ g gs _ inner outer =>
      obtain ⟨p, vs, hunwind, hG, hcases⟩ := inner.unwind hhandlers e
      rw [hunwind]
      rcases Frame.enter_cases p vs (fr.opened g (gs.map Guard.handler)) with hfull | hentered
      · rw [hfull]
        exact ⟨.inl rfl, nofun⟩
      · rw [hentered]
        refine ⟨.inr ⟨p, rfl, rfl, ?_⟩, fun pc hpc => ?_⟩
        · rcases hcases with ⟨hcatch, rfl⟩ | ⟨hcatch, hfinally, rfl⟩
          · exact .inl ⟨hcatch, rfl⟩
          · exact .inr ⟨hcatch, hfinally, rfl⟩
        · cases hpc
          have hlevel : Fewer scopes f.scopes := hlevel
          refine ⟨_, hG, ?_, rfl, ?_, hlevel.suits hscopes, nofun⟩
          · simp [opened, Nesting.at, inner.length_eq, Nat.add_comm]
          · exact outer.pushed (List.suffix_append _ _)

/-! ### One instruction -/

/-- A mark that leaves open what is on top is one for any value. -/
theorem Marks.Admits.stationed {pc : Nat} (h : G.Admits pc P) (hfr : fr.Stationed G P gs) :
    ∃ Q, G pc Q ∧ fr.Stationed G Q gs := by
  rcases h with h | h
  · exact ⟨P, h, hfr⟩
  · exact ⟨P.settled, h, hfr.depth, hfr.handlers, hfr.fenced, hfr.scopes, nofun⟩

namespace Instr

variable {i : Instr} {S S' : List Capability}

theorem fences_renests (h : i ≠ .endTry) : (i.renests N).fences = N.fences := by
  cases i with
  | endTry => exact absurd rfl h
  | addDisposable byte => obtain ⟨fences, _ | ⟨b, outer⟩⟩ := N <;> rfl
  | _ => rfl

/-- The scopes suit their marks behind an instruction. -/
theorem Rescopes.suits (h : i.Rescopes S S') (hS : List.Forall₂ Capability.Suits N.scopes S) :
    List.Forall₂ Capability.Suits (i.renests N).scopes S' := by
  obtain ⟨fences, scopes⟩ := N
  cases i with
  | pushDisposeScope =>
    obtain rfl : S' = .empty :: S := h
    exact .cons (.empty false) hS
  | popDisposeScope =>
    obtain ⟨c, rfl⟩ := h
    cases hS with
    | cons _ houter => exact houter
  | takeDisposeCapability =>
    obtain ⟨c, outer, rfl, rfl⟩ := h
    cases hS with
    | cons _ houter => exact .cons (.empty _) houter
  | addDisposable byte =>
    rcases h with rfl | ⟨c, outer, r, rfl, rfl, hr⟩
    · cases hS with
      | nil => exact .nil
      | cons hc houter => exact .cons (fun hb => hc (Bool.or_eq_false_iff.mp hb).1) houter
    · cases hS with
      | cons hc houter =>
        refine .cons (fun hb => ?_) houter
        obtain ⟨hb, hbyte⟩ := Bool.or_eq_false_iff.mp hb
        refine List.forall_mem_append.mpr ⟨hc hb, List.forall_mem_singleton.mpr (hr ?_)⟩
        simpa using hbyte
  | _ =>
    obtain rfl : S' = S := h
    exact hS

/-- Handlers stay, or the innermost is removed. -/
theorem Rehandles.guards {size next n : Nat} {H : List Handler}
    (h : i.Rehandles size next n (gs.map Guard.handler) H) (hi : ∀ c f, i ≠ .tryStart c f) :
    (i = .endTry ∧ H = gs.tail.map Guard.handler) ∨ (i ≠ .endTry ∧ H = gs.map Guard.handler) := by
  cases i with
  | tryStart c f => exact absurd rfl (hi c f)
  | endTry =>
    obtain ⟨h', hH⟩ := h
    cases gs with
    | nil => cases hH
    | cons g gs => exact .inl ⟨rfl, (List.cons.inj hH).2.symm⟩
  | _ => exact .inr ⟨nofun, h⟩

end Instr

/-- Wherever control goes on behind an instruction that installs no handler, there is a mark. -/
theorem Located.GoesOn.goto {i : Located} {size pc : Nat} (h : i.GoesOn G P)
    (hgo : i.instr.GoesTo size i.next pc) (hi : ∀ c f, i.instr ≠ .tryStart c f) :
    G.Admits pc (i.instr.behind P) := by
  obtain ⟨p, i⟩ := i
  cases i with
  | tryStart c f => exact absurd rfl (hi c f)
  | throw | retRval => exact hgo.elim
  | jmp d =>
    have htarget : Located.target ⟨p, .jmp d⟩ d = pc := Depths.target_of_exec hgo
    exact .inl (htarget ▸ h)
  | jmpIfFalse d =>
    rcases hgo with rfl | hgo
    · exact .inl h.1
    · have htarget : Located.target ⟨p, .jmpIfFalse d⟩ d = pc := Depths.target_of_exec hgo
      exact .inl (htarget ▸ h.2)
  | jmpIfTrue d =>
    rcases hgo with rfl | hgo
    · exact .inl h.1
    · have htarget : Located.target ⟨p, .jmpIfTrue d⟩ d = pc := Depths.target_of_exec hgo
      exact .inl (htarget ▸ h.2)
  | _ =>
    obtain rfl : pc = _ := hgo
    exact h

/-- An instruction after which execution goes on takes a frame from a posture to the one behind
it. -/
theorem Frame.Stationed.behind {i : Instr} {size next pc : Nat} (h : fr.Stationed G P gs)
    (hbase : P.nesting.base + i.stackEffect.pops ≤ P.depth)
    (hleads : i.Leads size next fr.stack.slots.length fr.handlers (.goto pc) fr'.stack.slots.length
      fr'.handlers)
    (hspares : fr.stack.slots.drop i.stackEffect.pops <:+ fr'.stack.slots)
    (hrescopes : i.Rescopes fr.scopes fr'.scopes)
    (hvoids : i.voids = true → fr'.stack.slots.head? = some .undefined) (hi : ∀ c f, i ≠ .tryStart c f) :
    ∃ gs', (gs' = gs ∨ gs' = gs.tail) ∧ fr'.Stationed G (i.behind P) gs' := by
  obtain ⟨-, hdepth, -, hrehandles⟩ := hleads
  have hdepth' : fr'.stack.slots.length = (i.behind P).depth := by
    rw [hdepth, h.depth]
    rfl
  have hfenced : Fenced G P.nesting.fences gs fr'.stack.slots :=
    h.fenced.of_drop (h.depth ▸ hbase) hspares
  have hscopes := hrescopes.suits h.scopes
  rw [h.handlers] at hrehandles
  rcases hrehandles.guards hi with ⟨rfl, hhandlers⟩ | ⟨hne, hhandlers⟩
  · exact ⟨gs.tail, .inr rfl, hdepth', hhandlers, hfenced.tail, hscopes, hvoids⟩
  · refine ⟨gs, .inl rfl, hdepth', hhandlers, ?_, hscopes, hvoids⟩
    show Fenced G (i.renests P.nesting).fences gs fr'.stack.slots
    rw [Instr.fences_renests hne]
    exact hfenced

/-- `TRY_START` installs a handler over the operands that are on the stack. -/
theorem Frame.Stationed.guarded {p : Nat} {c f : Int32} {size pc : Nat} (h : fr.Stationed G P gs)
    (hgoesOn : Located.GoesOn ⟨p, .tryStart c f⟩ G P)
    (hleads : (Instr.tryStart c f).Leads size (Located.next ⟨p, .tryStart c f⟩) fr.stack.slots.length
      fr.handlers (.goto pc) fr'.stack.slots.length fr'.handlers)
    (hspares : fr.stack.slots <:+ fr'.stack.slots) (hscopes : fr'.scopes = fr.scopes) :
    ∃ h H Q, fr'.handlers = h :: H ∧ G pc Q ∧ fr'.Stationed G Q (⟨p, h, fr.stack.slots⟩ :: gs) := by
  obtain ⟨-, hdepth, rfl, onCatch, onFinally, hc, hf, hhandlers⟩ := hleads
  have hslots : fr.stack.slots = fr'.stack.slots := hspares.eq_of_length hdepth.symm
  obtain rfl := Located.handlerTarget?_of_exec hc
  obtain rfl := Located.handlerTarget?_of_exec hf
  obtain ⟨scopes, hnext, hsome, hcatch, hfinally⟩ := hgoesOn
  refine ⟨_, _, _, hhandlers, hnext, hdepth.trans h.depth, ?_, .cons ?_ h.fenced, hscopes ▸ h.scopes, nofun⟩
  · rw [hhandlers, h.handlers]
    rfl
  · exact ⟨rfl, h.depth, h.depth, hspares, hsome, hcatch, hfinally⟩

end

namespace Exec

variable {env : Env σ} {size next : Nat} {a a' : Activation σ}

/-- What leaves undefined on top does. -/
theorem head_of_voids {i : Instr} {x : Next} (hi : i.voids = true) (h : instr env size next i a = .ok x a') :
    a'.frame.stack.slots.head? = some .undefined := by
  cases i with
  | constUndefined =>
    obtain ⟨_, a₁, hpush, h⟩ := bind_eq_ok.mp h
    cases h
    simp only [push, onStack, OperandStack.push] at hpush
    by_cases hfull : a.frame.stack.capacity ≤ a.frame.stack.depth
    · simp only [if_pos hfull] at hpush
      cases hpush
    · simp only [if_neg hfull] at hpush
      cases hpush
      rfl
  | _ => cases hi

/-- What is awaited was on top. -/
theorem head_of_await {v : Value} (h : instr env size next .await a = .ok (.await v) a') :
    a.frame.stack.slots.head? = some v := by
  obtain ⟨w, a₁, hrval, h⟩ := bind_eq_ok.mp h
  cases h
  obtain ⟨w, a₂, hpop, h⟩ := bind_eq_ok.mp hrval
  obtain ⟨_, _, -, h⟩ := bind_eq_ok.mp h
  obtain rfl : w = v := (EStateM.Result.ok.inj h).1
  unfold pop OperandStack.pop at hpop
  cases hslots : a.frame.stack.slots with
  | nil =>
    simp only [hslots] at hpop
    cases hpop
  | cons w' rest =>
    simp only [hslots] at hpop
    cases hpop
    rfl

end Exec

end ResourceMachine
