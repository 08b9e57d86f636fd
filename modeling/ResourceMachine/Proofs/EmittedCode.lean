/-
# Emitted code is what was asked for

An emitter is asked for instructions one after the other. It enters each one behind those
before, and hands out the operands of jumps and handlers that are still to come; these may
be patched later, in any order and more than once. A log tells what was asked for
(`LogEntry`): each instruction with the offset at which it was emitted, each jump and handler
with the target that it was given last.

The log tells what the code is: at every moment the code is read as the instructions of the
log, at their offsets, and its jumps and handlers lead where the log says. What is refused
leaves code and depth as they were, except that a jump whose target turns out to be too far
away stays, without a target.

Key definitions: `Asked`, `LogEntry`, `LogEntry.Shows`, `Order.perform`, `Emission.after`,
`Emission.Sound`.
Key theorems: `Emission.Sound.amend`, `Emission.perform_obeys`, `Emission.reads_as_asked`.
-/
import Mathlib.Data.List.Forall2
import ResourceMachine.Proofs.Emission
import ResourceMachine.Proofs.InstructionCoding

namespace ResourceMachine

/-! ### What is asked for -/

/-- An instruction as it was asked for. A jump is known by what was handed out for it, if
anything, and by its target; so is the start of a protected region. -/
inductive Asked where
  | instr (i : Instr)
  | jump (kind : JumpKind) (handle : Option PendingJump) (target : Option Nat)
  | region (handles : PendingHandlers) (onCatch onFinally : Option Nat)
  deriving DecidableEq, Repr

/-- What was asked for, and the offset at which it was emitted. -/
structure LogEntry where
  offset : Nat
  asked : Asked
  deriving DecidableEq, Repr

/-- An emitter, and the log of what it was asked for. -/
structure Emission where
  emitter : Emitter
  log : List LogEntry

/-- The entry is found at a line of the code. -/
def LogEntry.Shows (entry : LogEntry) (line : Located) : Prop :=
  line.offset = entry.offset ∧ match entry.asked with
    | .instr i => line.instr = i
    | .jump kind _ target => (∃ distance, line.instr = kind.instr distance) ∧
        line.jumpTarget? = some (target.getD line.next)
    | .region _ onCatch onFinally => (∃ c f, line.instr = .tryStart c f) ∧
        line.handlerTargets = (onCatch, onFinally)

/-- What an emitter can be asked. Patches name the entry that they are for. -/
inductive Order where
  | emit (i : Instr)
  | constStr (s : String)
  | loadGlobal (name : String)
  | pick (n : UInt8)
  | unpick (n : UInt8)
  | dupAt (n : UInt8)
  | popN (n : UInt8)
  | jump (kind : JumpKind)
  | jumpTo (kind : JumpKind) (target : Nat)
  | patchTo (k target : Nat)
  | patchHere (k : Nat)
  | tryStart
  | patchCatch (k : Nat)
  | patchFinally (k : Nat)
  | allocLocal
  | emitAwait
  | emitYield
  | enterScope
  | exitScope
  | leaveScope
  | setDepth (depth : Nat)

/-! ### Doing what is asked for -/

namespace Emission

variable {α : Type}

/-- Let the emitter emit. What it emits is entered. -/
def ask (m : Emit α) (asked : α → Option Asked) : EStateM CompileError Emission Unit := fun s =>
  match m s.emitter with
  | .ok a e => .ok ⟨⟩ ⟨e, s.log ++ ((asked a).map (LogEntry.mk s.emitter.code.size)).toList⟩
  | .error x e => .error x ⟨e, s.log⟩

/-- Let the emitter jump to an offset. -/
def askJump (kind : JumpKind) (target : Nat) : EStateM CompileError Emission Unit := fun s =>
  match Emitter.jumpTo kind target s.emitter with
  | .ok _ e => .ok ⟨⟩ ⟨e, s.log ++ [⟨s.emitter.code.size, .jump kind none (some target)⟩]⟩
  | .error .jumpTooLarge e =>
    .error .jumpTooLarge ⟨e, s.log ++ [⟨s.emitter.code.size, .jump kind none none⟩]⟩
  | .error x e => .error x ⟨e, s.log⟩

/-- Let the emitter patch something. The entry it is for is amended. -/
def amend (m : Emit Unit) (k : Nat) (entry : LogEntry) : EStateM CompileError Emission Unit := fun s =>
  match m s.emitter with
  | .ok _ e => .ok ⟨⟩ ⟨e, s.log.set k entry⟩
  | .error x e => .error x ⟨e, s.log⟩

end Emission

open Emission in
/-- Do what is asked for. There is nothing to do for a patch that names no jump or region. -/
def Order.perform : Order → EStateM CompileError Emission Unit
  | emit i => ask (Emitter.emit i) fun _ => some (.instr i)
  | constStr s => fun S => ask (Emitter.constStr s)
      (fun _ => some (.instr (.constStr (.ofNat (S.emitter.constants.add s).1)))) S
  | loadGlobal name => fun S => ask (Emitter.loadGlobal name)
      (fun _ => some (.instr (.loadGlobal (.ofNat (S.emitter.constants.add name).1)))) S
  | pick n => ask (Emitter.pick n) fun _ =>
      if n = 0 then none else some (.instr (if n = 1 then .swap else .pick n))
  | unpick n => ask (Emitter.unpick n) fun _ =>
      if n = 0 then none else some (.instr (if n = 1 then .swap else .unpick n))
  | dupAt n => ask (Emitter.dupAt n) fun _ => some (.instr (if n = 0 then .dup else .dupAt n))
  | popN n => ask (Emitter.popN n) fun _ =>
      if n = 0 then none else some (.instr (if n = 1 then .pop else .popN n))
  | jump kind => ask (Emitter.jump kind) fun j => some (.jump kind (some j) none)
  | jumpTo kind target => askJump kind target
  | patchTo k target => fun S => match S.log[k]? with
      | some ⟨offset, .jump kind (some j) _⟩ =>
        amend (Emitter.patchTo j target) k ⟨offset, .jump kind (some j) (some target)⟩ S
      | _ => .ok ⟨⟩ S
  | patchHere k => fun S => match S.log[k]? with
      | some ⟨offset, .jump kind (some j) _⟩ =>
        amend (Emitter.patchHere j) k ⟨offset, .jump kind (some j) (some S.emitter.code.size)⟩ S
      | _ => .ok ⟨⟩ S
  | tryStart => ask Emitter.tryStart fun handles => some (.region handles none none)
  | patchCatch k => fun S => match S.log[k]? with
      | some ⟨offset, .region handles _ onFinally⟩ =>
        amend (Emitter.patchHere handles.onCatch) k
          ⟨offset, .region handles (some S.emitter.code.size) onFinally⟩ S
      | _ => .ok ⟨⟩ S
  | patchFinally k => fun S => match S.log[k]? with
      | some ⟨offset, .region handles onCatch _⟩ =>
        amend (Emitter.patchHere handles.onFinally) k
          ⟨offset, .region handles onCatch (some S.emitter.code.size)⟩ S
      | _ => .ok ⟨⟩ S
  | allocLocal => ask Emitter.allocLocal fun _ => none
  | emitAwait => ask Emitter.emitAwait fun _ => some (.instr .await)
  | emitYield => ask Emitter.emitYield fun _ => some (.instr .yield)
  | enterScope => ask Emitter.enterScope fun _ => some (.instr .pushDisposeScope)
  | exitScope => ask Emitter.exitScope fun _ => some (.instr .popDisposeScope)
  | leaveScope => ask Emitter.leaveScope fun _ => some (.instr .popDisposeScope)
  | setDepth depth => ask (Emitter.setDepth depth) fun _ => none

/-- What is asked for one after the other, whatever comes of it. -/
def Emission.after (s : Emission) (orders : List Order) : Emission :=
  orders.foldl (fun s order => stateOf (order.perform s)) s

/-! ### The instructions of the log -/

/-- The distance that is written for a target. -/
def distanceTo (next target : Nat) : Int32 := .ofInt ((target : Int) - next)

namespace Asked

/-- The instruction that is emitted for what was asked, at an offset. -/
def instrAt (offset : Nat) : Asked → Instr
  | instr i => i
  | jump kind _ target => kind.instr (target.elim 0 (distanceTo (offset + 5)))
  | region _ onCatch onFinally => .tryStart (onCatch.elim (-1) (distanceTo (offset + 9)))
      (onFinally.elim (-1) (distanceTo (offset + 9)))

/-- A target that is given is no lower than this, and near enough. -/
def InReach (lowest next : Nat) (target : Option Nat) : Prop :=
  ∀ t ∈ target, lowest ≤ t ∧ (distanceTo next t).toInt = (t : Int) - next

/-- What was handed out are the operands of what was asked, and targets are in reach. -/
def FitsAt (offset : Nat) : Asked → Prop
  | instr _ => True
  | jump _ handle target =>
    (∀ j ∈ handle, j = ⟨offset + 1, offset + 5⟩) ∧ InReach 0 (offset + 5) target
  | region handles onCatch onFinally =>
    handles = ⟨⟨offset + 1, offset + 9⟩, ⟨offset + 5, offset + 9⟩⟩ ∧
      InReach (offset + 9) (offset + 9) onCatch ∧ InReach (offset + 9) (offset + 9) onFinally

end Asked

namespace LogEntry

/-- The instruction of an entry. -/
def instr (entry : LogEntry) : Instr := entry.asked.instrAt entry.offset

/-- The line of an entry. -/
def line (entry : LogEntry) : Located := ⟨entry.offset, entry.instr⟩

/-- A target in reach is where the distance that is written for it leads. -/
theorem target_distanceTo {i : Located} {lowest next t : Nat} {target : Option Nat}
    (h : Asked.InReach lowest next target) (ht : t ∈ target) (hnext : i.next = next) :
    i.target (distanceTo next t) = t := by
  rw [Located.target, hnext, (h t ht).2]
  omega

theorem handlerTarget?_eq {i : Located} {next : Nat} {target : Option Nat}
    (h : Asked.InReach next next target) (hnext : i.next = next) :
    i.handlerTarget? (target.elim (-1) (distanceTo next)) = target := by
  cases target with
  | none => rfl
  | some t =>
    show i.handlerTarget? (distanceTo next t) = some t
    have hle := (h t rfl).1
    rw [Located.handlerTarget?, if_pos (by rw [(h t rfl).2]; omega),
      target_distanceTo h rfl hnext]

/-- An entry that fits is found at its line. -/
theorem shows_line {entry : LogEntry} (h : entry.asked.FitsAt entry.offset) :
    entry.Shows entry.line := by
  refine ⟨rfl, ?_⟩
  obtain ⟨offset, asked⟩ := entry
  cases asked with
  | instr i => rfl
  | jump kind handle target =>
    refine ⟨⟨_, rfl⟩, ?_⟩
    have hnext : Located.next ⟨offset, Asked.instrAt offset (.jump kind handle target)⟩ = offset + 5 := by
      cases kind <;> rfl
    have htarget : ∀ d, Located.jumpTarget? ⟨offset, kind.instr d⟩ =
        some (Located.target ⟨offset, kind.instr d⟩ d) := by
      cases kind <;> exact fun d => rfl
    refine (htarget _).trans (congrArg some ?_)
    cases target with
    | none =>
      show (_ + Int32.toInt 0).toNat = _
      rw [Int32.toInt_zero, Int.add_zero, Int.toNat_natCast]
      rfl
    | some t => exact target_distanceTo h.2 rfl hnext
  | region handles onCatch onFinally =>
    exact ⟨⟨_, _, rfl⟩, Prod.ext (handlerTarget?_eq h.2.1 rfl) (handlerTarget?_eq h.2.2 rfl)⟩

end LogEntry

/-! ### The log tells what the code is -/

/-- The code is put together from the instructions of the log, which stand where the log
says, and what the log says of operands and targets is right. -/
structure Emission.Sound (s : Emission) : Prop where
  code : Instr.encodeAll (s.log.map LogEntry.instr) = s.emitter.code
  follow : Located.Follow 0 s.emitter.code.size (s.log.map LogEntry.line)
  fits : ∀ entry ∈ s.log, entry.asked.FitsAt entry.offset

/-- Where a word of the code is replaced by another one. -/
theorem Bytes.replaceWord_append (before after : Bytes) (d d' : Int32) :
    (before ++ signedWord d ++ after).replaceWord before.size d'.toUInt32 =
      before ++ signedWord d' ++ after := by
  rw [replaceWord, replaceAt_eq, overwrite_append]
  · rfl
  · rw [length_littleEndian, Emitter.size_signedWord]

theorem encodeAll_map_logEntry (pre post : List LogEntry) (offset : Nat) (asked : Asked) :
    Instr.encodeAll ((pre ++ ⟨offset, asked⟩ :: post).map LogEntry.instr) =
      Instr.encodeAll (pre.map LogEntry.instr) ++
        ((asked.instrAt offset).encode ++ Instr.encodeAll (post.map LogEntry.instr)) := by
  rw [List.map_append, Instr.encodeAll_append]
  rfl

namespace Emission.Sound

variable {s : Emission} {e : Emitter}

theorem start (h : e.code = #[]) : Sound ⟨e, []⟩ :=
  ⟨h.symm, by rw [h]; rfl, nofun⟩

theorem keep (h : s.Sound) (hcode : e.code = s.emitter.code) : Sound ⟨e, s.log⟩ :=
  ⟨h.code.trans hcode.symm, by rw [hcode]; exact h.follow, h.fits⟩

/-- What is emitted is entered behind the rest. -/
theorem append (h : s.Sound) {asked : Asked} (hfits : asked.FitsAt s.emitter.code.size)
    (hcode : e.code = s.emitter.code ++ (asked.instrAt s.emitter.code.size).encode) :
    Sound ⟨e, s.log ++ [⟨s.emitter.code.size, asked⟩]⟩ where
  code := by
    show Instr.encodeAll (List.map _ (s.log ++ _)) = e.code
    rw [List.map_append, Instr.encodeAll_append, h.code, hcode]
    exact congrArg _ Array.append_empty
  follow := by
    show Located.Follow 0 e.code.size (List.map _ (s.log ++ _))
    rw [List.map_append, Located.follow_append]
    refine ⟨s.emitter.code.size, h.follow, rfl, ?_⟩
    rw [hcode, Array.size_append, Instr.size_encode]
    rfl
  fits := by
    intro entry hentry
    rcases List.mem_append.mp hentry with hold | hnew
    · exact h.fits entry hold
    · obtain rfl := List.mem_singleton.mp hnew
      exact hfits

/-- What is patched is amended in the log, and nothing else changes. -/
theorem amend (h : s.Sound) {k offset : Nat} {asked asked' : Asked} {before after : Bytes}
    {d d' : Int32} (hk : s.log[k]? = some ⟨offset, asked⟩)
    (hold : (asked.instrAt offset).encode = before ++ signedWord d ++ after)
    (hnew : (asked'.instrAt offset).encode = before ++ signedWord d' ++ after)
    (hfits : asked'.FitsAt offset)
    (hcode : e.code = s.emitter.code.replaceWord (offset + before.size) d'.toUInt32) :
    Sound ⟨e, s.log.set k ⟨offset, asked'⟩⟩ := by
  obtain ⟨hlt, hentry⟩ := List.getElem?_eq_some_iff.mp hk
  obtain ⟨pre, post, hlog, rfl, hset⟩ := @List.exists_of_set _ _ ⟨offset, asked'⟩ _ hlt
  rw [hentry] at hlog
  have hfollow := h.follow
  have holdcode := h.code
  rw [hlog, List.map_append, Located.follow_append] at hfollow
  obtain ⟨_, hpre, rfl, hpost⟩ := hfollow
  have hoffset : (Instr.encodeAll (pre.map LogEntry.instr)).size = offset := by
    have := (Located.follow_iff.mp hpre).2
    rw [Nat.zero_add, List.map_map] at this
    exact this
  have hsize : (asked'.instrAt offset).size = (asked.instrAt offset).size := by
    rw [← Instr.size_encode, ← Instr.size_encode, hold, hnew]
    simp only [Array.size_append, Emitter.size_signedWord]
  have hcodesize : e.code.size = s.emitter.code.size := by
    rw [hcode]
    exact Bytes.size_replaceAt _ _ _
  refine ⟨?_, ?_, ?_⟩
  · show Instr.encodeAll (List.map _ (s.log.set _ _)) = e.code
    have hpatch := Bytes.replaceWord_append (Instr.encodeAll (pre.map LogEntry.instr) ++ before)
      (after ++ Instr.encodeAll (post.map LogEntry.instr)) d d'
    rw [Array.size_append, hoffset] at hpatch
    rw [hset, hcode, ← h.code, hlog, encodeAll_map_logEntry, encodeAll_map_logEntry, hold, hnew]
    simp only [Array.append_assoc] at hpatch ⊢
    exact hpatch.symm
  · show Located.Follow 0 e.code.size (List.map _ (s.log.set _ _))
    rw [hset, List.map_append, Located.follow_append, hcodesize]
    refine ⟨offset, hpre, rfl, ?_⟩
    have hnext : Located.next (LogEntry.line ⟨offset, asked'⟩) = Located.next (LogEntry.line ⟨offset, asked⟩) :=
      congrArg (offset + ·) hsize
    rw [hnext]
    exact hpost
  · show ∀ entry ∈ s.log.set _ _, _
    rw [hset]
    intro entry hentry
    have hfitsold := h.fits entry
    rw [hlog] at hfitsold
    rcases List.mem_append.mp hentry with hin | hin
    · exact hfitsold (List.mem_append_left _ hin)
    rcases List.mem_cons.mp hin with rfl | hin
    · exact hfits
    · exact hfitsold (List.mem_append_right _ (List.mem_cons_of_mem _ hin))

end Emission.Sound

/-! ### What the emitter answers -/

/-- An emitter that is asked for something emits it, or emits nothing, or refuses and leaves
code and depth as they were. -/
inductive Answers {α : Type} (e : Emitter) (asked : α → Option Asked) :
    EStateM.Result CompileError Emitter α → Prop
  | emits {a : α} {x : Asked} {e' : Emitter} : asked a = some x → x.FitsAt e.code.size →
      e'.code = e.code ++ (x.instrAt e.code.size).encode → Answers e asked (.ok a e')
  | nothing {a : α} {e' : Emitter} : asked a = none → e'.code = e.code → Answers e asked (.ok a e')
  | refuses {x : CompileError} {e' : Emitter} : e'.code = e.code → e'.depth = e.depth →
      Answers e asked (.error x e')

namespace Emitter

variable {e e' : Emitter}

/-- An instruction is refused just where it takes values that are not there. -/
theorem emit_refused {i : Instr} {x : CompileError} : emit i e = .error x e' ↔
    e.depth < i.stackEffect.pops ∧ x = .internal (.stackUnderflow i.opcode e.name e.depth) ∧ e' = e := by
  by_cases hlt : e.depth < i.stackEffect.pops
  · have hemit : emit i e = .error (.internal (.stackUnderflow i.opcode e.name e.depth)) e := by
      refine bind_of_error (?_ : track i.opcode i.operand e = _)
      show (if e.depth < i.stackEffect.pops then _ else _ : Emit Unit) e = _
      rw [if_pos hlt]
      rfl
    rw [hemit]
    exact ⟨fun h => by cases h; exact ⟨hlt, rfl, rfl⟩, fun ⟨_, hx, he⟩ => by rw [hx, he]⟩
  · have htrack : track i.opcode i.operand e =
        .ok ⟨⟩ (e.withDepth (e.depth - i.stackEffect.pops + i.stackEffect.pushes)) := by
      show (if e.depth < i.stackEffect.pops then _ else _ : Emit Unit) e = _
      rw [if_neg hlt]
      rfl
    rw [emit, put, bind_of_ok htrack]
    exact ⟨nofun, fun h => absurd h.1 hlt⟩

/-- What is done after an instruction is emitted only tells about it. -/
theorem emit_bind_answers {α : Type} {i : Instr} {f : PUnit → Emit α} {asked : α → Option Asked}
    (hf : ∀ e₁, e₁.code = e.code ++ i.encode → ∃ a e' x, f ⟨⟩ e₁ = .ok a e' ∧ e'.code = e₁.code ∧
      asked a = some x ∧ x.FitsAt e.code.size ∧ x.instrAt e.code.size = i) :
    Answers e asked ((emit i >>= f) e) := by
  cases h : emit i e with
  | ok _ e₁ =>
    have hemit : e₁.code = e.code ++ i.encode := by rw [(emit_eq_ok h).2]
    obtain ⟨a, e', x, hfa, hcode, hx, hfits, hinstr⟩ := hf e₁ hemit
    rw [bind_of_ok h, hfa]
    exact .emits hx hfits (by rw [hcode, hemit, hinstr])
  | error x e₁ =>
    obtain ⟨-, -, rfl⟩ := emit_refused.mp h
    rw [bind_of_error h]
    exact .refuses rfl rfl

theorem emit_answers (i : Instr) : Answers e (fun _ => some (.instr i)) (emit i e) := by
  rw [← bind_pure (emit i)]
  exact emit_bind_answers fun e₁ _ => ⟨⟨⟩, e₁, _, rfl, rfl, rfl, trivial, rfl⟩

theorem emit_answers_ite {c : Prop} [Decidable c] (i j : Instr) :
    Answers e (fun _ => some (.instr (if c then i else j))) ((if c then emit i else emit j) e) := by
  split <;> exact emit_answers _

/-- Of the ways to shuffle values, the first does nothing and the second has its own instruction. -/
theorem emit_answers_unless {c c' : Prop} [Decidable c] [Decidable c'] (i j : Instr) :
    Answers e (fun _ => if c then none else some (.instr (if c' then i else j)))
      ((if c then pure () else if c' then emit i else emit j : Emit Unit) e) := by
  by_cases hc : c
  · simp only [if_pos hc]
    exact .nothing rfl rfl
  · simp only [if_neg hc]
    exact emit_answers_ite i j

/-- What is taken up in the pool changes nothing else. -/
theorem intern_answers (s : String) (f : UInt32 → Instr) : Answers e
    (fun _ => some (.instr (f (.ofNat (e.constants.add s).1)))) ((intern s >>= fun i => emit (f i)) e) := by
  have h := emit_answers (e := { e with constants := (e.constants.add s).2 })
    (f (.ofNat (e.constants.add s).1))
  have hcomp : (intern s >>= fun i => emit (f i)) e =
      emit (f (.ofNat (e.constants.add s).1)) { e with constants := (e.constants.add s).2 } := rfl
  rw [hcomp]
  generalize emit _ _ = r at h ⊢
  cases h with
  | emits hx hfits hcode => exact .emits hx hfits hcode
  | nothing hx hcode => exact .nothing hx hcode
  | refuses hcode hdepth => exact .refuses hcode hdepth

theorem jump_answers (kind : JumpKind) :
    Answers e (fun j => some (.jump kind (some j) none)) (jump kind e) := by
  refine emit_bind_answers fun e₁ hcode => ⟨_, e₁, _, rfl, rfl, rfl, ⟨?_, nofun⟩, rfl⟩
  rintro _ ⟨⟩
  have hsize : e₁.code.size = e.code.size + 5 := by
    rw [hcode, Array.size_append, Instr.size_encode]
    cases kind <;> rfl
  rw [hsize]
  rfl

theorem tryStart_answers :
    Answers e (fun handles => some (.region handles none none)) (tryStart e) := by
  refine emit_bind_answers fun e₁ hcode => ⟨_, e₁, _, rfl, rfl, rfl, ⟨?_, nofun, nofun⟩, rfl⟩
  have hsize : e₁.code.size = e.code.size + 9 := by
    rw [hcode, Array.size_append, Instr.size_encode]
    rfl
  rw [hsize]
  rfl

theorem enterScope_answers : Answers e (fun _ => some (.instr .pushDisposeScope)) (enterScope e) :=
  emit_bind_answers fun _ _ => ⟨_, _, _, rfl, rfl, rfl, trivial, rfl⟩

theorem exitScope_answers : Answers e (fun _ => some (.instr .popDisposeScope)) (exitScope e) := by
  show Answers e _ ((if e.scopeDepth = 0 then _ else _ : Emit Unit) e)
  split
  · exact .refuses rfl rfl
  · exact emit_bind_answers fun _ _ => ⟨_, _, _, rfl, rfl, rfl, trivial, rfl⟩

theorem leaveScope_answers : Answers e (fun _ => some (.instr .popDisposeScope)) (leaveScope e) := by
  show Answers e _ ((if e.scopeDepth = 0 then _ else _ : Emit Unit) e)
  split
  · exact .refuses rfl rfl
  · exact emit_answers _

theorem emitAwait_answers : Answers e (fun _ => some (.instr .await)) (emitAwait e) := by
  show Answers e _ ((if e.kind.isAsync = true then _ else _ : Emit Unit) e)
  split
  · exact emit_answers _
  · exact .refuses rfl rfl

theorem emitYield_answers : Answers e (fun _ => some (.instr .yield)) (emitYield e) := by
  show Answers e _ ((if e.kind.isGenerator = true then _ else _ : Emit Unit) e)
  split
  · exact emit_answers _
  · exact .refuses rfl rfl

theorem allocLocal_answers : Answers e (fun _ => none) (allocLocal e) := by
  show Answers e _ ((if e.localCount = 65535 then _ else _ : Emit UInt16) e)
  split
  · exact .refuses rfl rfl
  · exact .nothing rfl rfl

theorem setDepth_answers (depth : Nat) : Answers e (fun _ => none) (setDepth depth e) :=
  .nothing rfl rfl

theorem patchTo_eq_error {j : PendingJump} {target : Nat} {x : CompileError}
    (h : patchTo j target e = .error x e') : x = .jumpTooLarge ∧ e' = e := by
  unfold patchTo at h
  split at h
  · cases h
    exact ⟨rfl, rfl⟩
  · cases h

/-- A jump to an offset is emitted with it, or stays without a target if that is too far away. -/
theorem jumpTo_cases (kind : JumpKind) (target : Nat) :
    (∃ u e', jumpTo kind target e = .ok u e' ∧ (Asked.jump kind none (some target)).FitsAt e.code.size ∧
      e'.code = e.code ++ (Asked.instrAt e.code.size (.jump kind none (some target))).encode) ∨
    (∃ e', jumpTo kind target e = .error .jumpTooLarge e' ∧
      e'.code = e.code ++ (Asked.instrAt e.code.size (.jump kind none none)).encode) ∨
    ∃ d e', jumpTo kind target e = .error (.internal d) e' ∧ e'.code = e.code ∧ e'.depth = e.depth := by
  cases hemit : emit (kind.instr 0) e with
  | error x e₁ =>
    obtain ⟨-, rfl, rfl⟩ := emit_refused.mp hemit
    exact .inr (.inr ⟨_, _, bind_of_error (bind_of_error hemit), rfl, rfl⟩)
  | ok _ e₁ =>
    have hcode : e₁.code = e.code ++ (kind.instr 0).encode := by rw [(emit_eq_ok hemit).2]
    obtain ⟨j, hjump⟩ : ∃ j, jump kind e = .ok j e₁ := ⟨_, bind_of_ok hemit⟩
    obtain ⟨rfl, -⟩ := jump_eq_ok hjump
    cases hpatch : patchTo ⟨e.code.size + 1, e.code.size + 5⟩ target e₁ with
    | ok u e' =>
      obtain ⟨hdistance, rfl⟩ := patchTo_eq_ok hpatch
      refine .inl ⟨u, _, (bind_of_ok hjump).trans hpatch, ⟨nofun, ?_⟩, ?_⟩
      · rintro t ⟨⟩
        exact ⟨Nat.zero_le _, hdistance⟩
      · obtain ⟨byte, hencode, hzero⟩ := encode_jump kind (distanceTo (e.code.size + 5) target)
        have hword := Bytes.replaceWord_append (e.code ++ #[byte]) #[] 0
          (distanceTo (e.code.size + 5) target)
        have hsize : (e.code ++ #[byte]).size = e.code.size + 1 := Array.size_append
        rw [Array.append_empty, Array.append_empty, Array.append_assoc, Array.append_assoc, ← hencode,
          ← hzero, ← hcode, hsize] at hword
        exact hword
    | error x e' =>
      obtain ⟨rfl, rfl⟩ := patchTo_eq_error hpatch
      exact .inr (.inl ⟨_, (bind_of_ok hjump).trans hpatch, hcode⟩)

end Emitter

/-! ### Orders -/

namespace Emission

open Emitter

variable {s s' : Emission}

/-- What may come of an order where the log is right: it stays right, and what is refused leaves
code, depth and log as they were, unless a target is too far away. -/
def Obeys (s : Emission) (r : EStateM.Result CompileError Emission Unit) : Prop :=
  (stateOf r).Sound ∧ ∀ x s', r = .error x s' → x ≠ .jumpTooLarge →
    s'.emitter.code = s.emitter.code ∧ s'.emitter.depth = s.emitter.depth ∧ s'.log = s.log

/-- What is done has to keep the log right. -/
theorem obeys_ok {u : Unit} (h : s'.Sound) : s.Obeys (.ok u s') := ⟨h, fun _ _ h => by cases h⟩

/-- What is refused has to leave code and depth as they were. -/
theorem obeys_error {x : CompileError} {e : Emitter} (h : s.Sound) (hcode : e.code = s.emitter.code)
    (hdepth : e.depth = s.emitter.depth) : s.Obeys (.error x ⟨e, s.log⟩) := by
  refine ⟨h.keep hcode, ?_⟩
  rintro _ _ ⟨⟩ _
  exact ⟨hcode, hdepth, rfl⟩

/-- What stays because a target is too far away has to keep the log right. -/
theorem obeys_jumpTooLarge (h : s'.Sound) : s.Obeys (.error .jumpTooLarge s') := by
  refine ⟨h, ?_⟩
  rintro _ _ ⟨⟩ hx
  exact absurd rfl hx

theorem ask_obeys {α : Type} {m : Emit α} {asked : α → Option Asked} (h : s.Sound)
    (hm : Answers s.emitter asked (m s.emitter)) : s.Obeys (ask m asked s) := by
  unfold ask
  generalize m s.emitter = r at hm
  cases hm with
  | emits hx hfits hcode =>
    refine obeys_ok ?_
    rw [hx]
    exact h.append hfits hcode
  | nothing hx hcode =>
    refine obeys_ok ?_
    rw [hx, Option.map_none, Option.toList_none, List.append_nil]
    exact h.keep hcode
  | refuses hcode hdepth => exact obeys_error h hcode hdepth

theorem askJump_obeys (h : s.Sound) (kind : JumpKind) (target : Nat) :
    s.Obeys (askJump kind target s) := by
  unfold askJump
  obtain ⟨u, e', hjump, hfits, hcode⟩ | ⟨e', hjump, hcode⟩ | ⟨d, e', hjump, hcode, hdepth⟩ :=
    jumpTo_cases (e := s.emitter) kind target
  · rw [hjump]
    exact obeys_ok (h.append hfits hcode)
  · rw [hjump]
    exact obeys_jumpTooLarge (h.append ⟨nofun, nofun⟩ hcode)
  · rw [hjump]
    exact obeys_error h hcode hdepth

theorem amend_obeys (h : s.Sound) {k offset target : Nat} {asked asked' : Asked} {j : PendingJump}
    {before after : Bytes} {d : Int32} (hk : s.log[k]? = some ⟨offset, asked⟩)
    (hold : (asked.instrAt offset).encode = before ++ signedWord d ++ after)
    (hnew : (asked'.instrAt offset).encode =
      before ++ signedWord (distanceTo j.next target) ++ after)
    (hoperand : j.operand = offset + before.size)
    (hfits : (distanceTo j.next target).toInt = (target : Int) - j.next → asked'.FitsAt offset) :
    s.Obeys (amend (patchTo j target) k ⟨offset, asked'⟩ s) := by
  unfold amend
  cases hpatch : patchTo j target s.emitter with
  | ok u e' =>
    obtain ⟨hdistance, rfl⟩ := patchTo_eq_ok hpatch
    exact obeys_ok (h.amend hk hold hnew (hfits hdistance) (by rw [← hoperand]; rfl))
  | error x e' =>
    obtain ⟨rfl, rfl⟩ := patchTo_eq_error hpatch
    exact obeys_jumpTooLarge (h.keep rfl)

theorem Sound.fitsAt (h : s.Sound) {k offset : Nat} {asked : Asked}
    (hk : s.log[k]? = some ⟨offset, asked⟩) : asked.FitsAt offset :=
  h.fits _ (List.mem_of_getElem? hk)

/-- An instruction of the log ends within the code. -/
theorem Sound.next_le (h : s.Sound) {k : Nat} {entry : LogEntry} (hk : s.log[k]? = some entry) :
    entry.line.next ≤ s.emitter.code.size := by
  obtain ⟨hlt, hentry⟩ := List.getElem?_eq_some_iff.mp hk
  obtain ⟨pre, post, hlog, -, -⟩ := @List.exists_of_set _ _ entry _ hlt
  have hfollow := h.follow
  rw [hlog, hentry, List.map_append, Located.follow_append] at hfollow
  obtain ⟨_, -, -, hpost⟩ := hfollow
  exact hpost.le

theorem encode_instr (kind : JumpKind) (d : Int32) :
    (kind.instr d).encode = #[(kind.instr 0).opcode.byte] ++ signedWord d ++ #[] := by
  cases kind <;> rfl

theorem patchJump_obeys (h : s.Sound) {k offset target : Nat} {kind : JumpKind} {j : PendingJump}
    {old : Option Nat} (hk : s.log[k]? = some ⟨offset, .jump kind (some j) old⟩) :
    s.Obeys (amend (patchTo j target) k ⟨offset, .jump kind (some j) (some target)⟩ s) := by
  obtain ⟨hj, -⟩ := h.fitsAt hk
  obtain rfl := hj j rfl
  refine amend_obeys h hk (encode_instr kind _) (encode_instr kind _) rfl fun hdistance => ⟨hj, ?_⟩
  rintro t ⟨⟩
  exact ⟨Nat.zero_le _, hdistance⟩

theorem patchCatch_obeys (h : s.Sound) {k offset : Nat} {handles : PendingHandlers}
    {onCatch onFinally : Option Nat} (hk : s.log[k]? = some ⟨offset, .region handles onCatch onFinally⟩) :
    s.Obeys (amend (patchHere handles.onCatch) k
      ⟨offset, .region handles (some s.emitter.code.size) onFinally⟩ s) := by
  obtain ⟨rfl, -, honFinally⟩ := h.fitsAt hk
  have hcode (c : Int32) (f : Int32) : (Instr.tryStart c f).encode =
      #[Opcode.tryStart.byte] ++ signedWord c ++ signedWord f := (Array.append_assoc ..).symm
  refine amend_obeys h hk (hcode _ _) (hcode _ _) rfl fun hdistance => ⟨rfl, ?_, honFinally⟩
  rintro t ⟨⟩
  exact ⟨h.next_le hk, hdistance⟩

theorem patchFinally_obeys (h : s.Sound) {k offset : Nat} {handles : PendingHandlers}
    {onCatch onFinally : Option Nat} (hk : s.log[k]? = some ⟨offset, .region handles onCatch onFinally⟩) :
    s.Obeys (amend (patchHere handles.onFinally) k
      ⟨offset, .region handles onCatch (some s.emitter.code.size)⟩ s) := by
  obtain ⟨rfl, honCatch, -⟩ := h.fitsAt hk
  have hcode (c : Int32) (f : Int32) : (Instr.tryStart c f).encode =
      #[Opcode.tryStart.byte] ++ signedWord c ++ signedWord f ++ #[] := by
    rw [Array.append_empty, Array.append_assoc]
    rfl
  refine amend_obeys h hk (hcode _ _) (hcode _ _) ?_ fun hdistance => ⟨rfl, honCatch, ?_⟩
  · rw [Array.size_append, size_signedWord]
    rfl
  · rintro t ⟨⟩
    exact ⟨h.next_le hk, hdistance⟩

/-- **Every order is obeyed.** -/
theorem perform_obeys (h : s.Sound) (order : Order) : s.Obeys (order.perform s) := by
  cases order with
  | emit i => exact ask_obeys h (emit_answers i)
  | constStr text => exact ask_obeys h (intern_answers text .constStr)
  | loadGlobal name => exact ask_obeys h (intern_answers name .loadGlobal)
  | pick n => exact ask_obeys h (emit_answers_unless .swap (.pick n))
  | unpick n => exact ask_obeys h (emit_answers_unless .swap (.unpick n))
  | dupAt n => exact ask_obeys h (emit_answers_ite .dup (.dupAt n))
  | popN n => exact ask_obeys h (emit_answers_unless .pop (.popN n))
  | jump kind => exact ask_obeys h (jump_answers kind)
  | jumpTo kind target => exact askJump_obeys h kind target
  | patchTo k target =>
    simp only [Order.perform]
    split
    · exact patchJump_obeys h ‹_›
    · exact obeys_ok h
  | patchHere k =>
    simp only [Order.perform]
    split
    · exact patchJump_obeys h ‹_›
    · exact obeys_ok h
  | tryStart => exact ask_obeys h tryStart_answers
  | patchCatch k =>
    simp only [Order.perform]
    split
    · exact patchCatch_obeys h ‹_›
    · exact obeys_ok h
  | patchFinally k =>
    simp only [Order.perform]
    split
    · exact patchFinally_obeys h ‹_›
    · exact obeys_ok h
  | allocLocal => exact ask_obeys h allocLocal_answers
  | emitAwait => exact ask_obeys h emitAwait_answers
  | emitYield => exact ask_obeys h emitYield_answers
  | enterScope => exact ask_obeys h enterScope_answers
  | exitScope => exact ask_obeys h exitScope_answers
  | leaveScope => exact ask_obeys h leaveScope_answers
  | setDepth depth => exact ask_obeys h (setDepth_answers depth)

/-- The log stays right, whatever is asked for. -/
theorem Sound.after (h : s.Sound) (orders : List Order) : (s.after orders).Sound := by
  induction orders generalizing s with
  | nil => exact h
  | cons order orders ih => exact ih (perform_obeys h order).1

/-- The code is read as what the log says. -/
theorem Sound.reads (h : s.Sound) :
    ∃ lines, Located.ofCode s.emitter.code = .ok lines ∧ List.Forall₂ LogEntry.Shows s.log lines := by
  refine ⟨s.log.map LogEntry.line, Located.ofCode_of_follow ?_ h.follow, ?_⟩
  · rw [List.map_map]
    exact h.code
  · rw [List.forall₂_map_right_iff, List.forall₂_same]
    exact fun entry hentry => LogEntry.shows_line (h.fits entry hentry)

/-- An instruction is emitted if the values that it takes are there. -/
theorem emits_iff (s : Emission) (i : Instr) :
    (∃ s', (Order.emit i).perform s = .ok ⟨⟩ s') ↔ i.stackEffect.pops ≤ s.emitter.depth := by
  simp only [Order.perform, ask]
  cases h : emit i s.emitter with
  | ok u e' => exact ⟨fun _ => (emit_eq_ok h).1, fun _ => ⟨_, rfl⟩⟩
  | error x e' =>
    refine ⟨?_, fun hle => absurd (emit_refused.mp h).1 (Nat.not_lt_of_le hle)⟩
    rintro ⟨_, ⟨⟩⟩

/-- **Emitted code is what was asked for.** An emitter that starts a function is asked for
anything, one thing after the other. The code is then read as the instructions that were
emitted, each where it was emitted; its jumps and handlers lead to the targets they were
given last, and handlers that were given none are absent. An instruction is refused if it
takes values that are not there; and what is refused, unless a target is too far away,
changes neither the code nor the depth. -/
theorem reads_as_asked {name : String} {kind : FunctionKind} {params : Nat} {constants : ConstantPool}
    {e : Emitter} (h : Emitter.start name kind params constants = .ok e) (orders : List Order) :
    (∃ lines, Located.ofCode ((after ⟨e, []⟩ orders).emitter.finish).code = .ok lines ∧
      List.Forall₂ LogEntry.Shows (after ⟨e, []⟩ orders).log lines) ∧
    (∀ i : Instr, (∃ s, (Order.emit i).perform (after ⟨e, []⟩ orders) = .ok ⟨⟩ s) ↔
      i.stackEffect.pops ≤ (after ⟨e, []⟩ orders).emitter.depth) ∧
    ∀ (order : Order) (x : CompileError) (s : Emission),
      order.perform (after ⟨e, []⟩ orders) = .error x s → x ≠ .jumpTooLarge →
      s.emitter.code = (after ⟨e, []⟩ orders).emitter.code ∧
        s.emitter.depth = (after ⟨e, []⟩ orders).emitter.depth ∧
        s.log = (after ⟨e, []⟩ orders).log := by
  have hstart : e.code = #[] := by
    unfold Emitter.start at h
    split at h
    · cases h
    · cases h
      rfl
  have hsound := (Sound.start hstart).after orders
  exact ⟨hsound.reads, emits_iff _, fun order => (perform_obeys hsound order).2⟩

/-- An emitter for a function without parameters. -/
def blank : Emitter :=
  ⟨"f", .normal, 0, #[], ⟨#[], []⟩, 0, 0, 0, 0⟩

/-- A region whose catch code and whose jump over it are patched in turn, the jump twice, between
orders that are refused. -/
def errands : List Order :=
  [.tryStart, .emit .endTry, .emit .pop, .jump .always, .patchHere 2, .patchCatch 0, .emitYield,
   .emit .pop, .patchHere 2, .jumpTo .always 0, .emit .retRval]

theorem reads_as_asked_errands : Emitter.start "f" .normal 0 ⟨#[], []⟩ = .ok blank ∧
    (after ⟨blank, []⟩ errands).log =
      [⟨0, .region ⟨⟨1, 9⟩, ⟨5, 9⟩⟩ (some 15) none⟩, ⟨9, .instr .endTry⟩,
       ⟨10, .jump .always (some ⟨11, 15⟩) (some 15)⟩, ⟨15, .jump .always none (some 0)⟩,
       ⟨20, .instr .retRval⟩] ∧
    ∃ lines, Located.ofCode ((after ⟨blank, []⟩ errands).emitter.finish).code = .ok lines ∧
      List.Forall₂ LogEntry.Shows (after ⟨blank, []⟩ errands).log lines :=
  have hstart : Emitter.start "f" .normal 0 ⟨#[], []⟩ = .ok blank := rfl
  ⟨hstart, rfl, (reads_as_asked hstart errands).1⟩

end Emission
end ResourceMachine
