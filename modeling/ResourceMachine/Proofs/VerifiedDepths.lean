/-
# What verification has found out

The depths that verification finds are closed under execution: the first instruction is
reached with an empty stack, and an instruction that is reached at a depth takes no more
than that, leaves no more than the function declares, and hands what it leaves to each of
its successors, as long as the successors start where the instructions of the code do.

Key definitions: `Depths.Reaches`, `Depths.Settled`, `Depths.Ends`, `Function.Analysis`.
Key theorems: `Located.readAt_of_mem`, `Depths.Ends.settled`, `Function.analysis_of_depths`.
-/
import ResourceMachine.Code.StackDepth
import ResourceMachine.Proofs.Computation
import ResourceMachine.Proofs.StackEffect

namespace ResourceMachine

/-! ### The instructions of a code -/

namespace Located

variable {code : Bytes} {pos : Nat} {lines rest : List Located} {i j : Located}

/-- The first instruction stands at the start, the others behind it. -/
theorem ofCodeFrom_cons (h : ofCodeFrom code pos = .ok (i :: rest)) :
    i.offset = pos ∧ Instr.readAt code pos = .ok i.instr ∧ ofCodeFrom code i.next = .ok rest := by
  rw [ofCodeFrom] at h
  split at h
  · obtain ⟨instr, hread, h⟩ := except_bind_eq_ok.mp h
    obtain ⟨rest', hrest, h⟩ := except_bind_eq_ok.mp h
    cases h
    exact ⟨rfl, hread, hrest⟩
  · cases h

theorem readAt_of_mem : ∀ {lines : List Located} {pos : Nat}, ofCodeFrom code pos = .ok lines →
    i ∈ lines → Instr.readAt code i.offset = .ok i.instr
  | first :: rest, pos, h, hi => by
    obtain ⟨hoffset, hread, hrest⟩ := ofCodeFrom_cons h
    rcases List.mem_cons.mp hi with rfl | hi
    · rwa [hoffset]
    · exact readAt_of_mem hrest hi

theorem offset_lt_of_mem : ∀ {lines : List Located} {pos : Nat}, ofCodeFrom code pos = .ok lines →
    i ∈ lines → i.offset < code.size
  | first :: rest, pos, h, hi => by
    obtain ⟨hoffset, -, hrest⟩ := ofCodeFrom_cons h
    rcases List.mem_cons.mp hi with rfl | hi
    · rw [ofCodeFrom] at h
      split at h
      · rwa [hoffset]
      · cases h
    · exact offset_lt_of_mem hrest hi

/-- Instructions stand one right behind the other. -/
theorem offset_succ : ∀ {lines : List Located} {pos k : Nat}, ofCodeFrom code pos = .ok lines →
    lines[k]? = some i → lines[k + 1]? = some j → j.offset = i.next
  | first :: rest, pos, 0, h, hi, hj => by
    obtain ⟨-, -, hrest⟩ := ofCodeFrom_cons h
    cases rest with
    | nil => cases hj
    | cons second rest =>
      obtain rfl := Option.some.inj hi
      obtain rfl := Option.some.inj hj
      exact (ofCodeFrom_cons hrest).1
  | first :: rest, pos, k + 1, h, hi, hj => offset_succ (ofCodeFrom_cons h).2.2 hi hj

end Located

/-! ### Depths -/

namespace Depths

variable {code : Array Located} {maxStack k d : Nat} {s s' : Depths} {a : Arrival} {as : List Arrival}

/-- The instruction at `k` is known to be reached at depth `d`. -/
def Reaches (s : Depths) (k d : Nat) : Prop := s.depth[k]? = some (some d)

/-- The instruction at `k` may be executed at depth `d`, and its successors are known to be
reached from there. -/
def Settled (code : Array Located) (maxStack : Nat) (s : Depths) (k d : Nat) : Prop :=
  ∃ i after next, code[k]? = some i ∧ depthAfter i d maxStack = .ok after ∧
    successors code k i d after = .ok next ∧ ∀ a ∈ next, s.Reaches a.position a.depth

/-- What is known of more of the code. -/
structure Extends (s s' : Depths) : Prop where
  size_eq : s'.depth.size = s.depth.size
  reaches : ∀ {k d}, s.Reaches k d → s'.Reaches k d
  pending : ∀ {k}, k ∈ s.pending → k ∈ s'.pending
  fresh : ∀ {k d}, s'.Reaches k d → s.Reaches k d ∨ k ∈ s'.pending
  reached : (∀ k ∈ s.pending, ∃ d, s.Reaches k d) → ∀ k ∈ s'.pending, ∃ d, s'.Reaches k d

theorem Extends.refl (s : Depths) : Extends s s := ⟨rfl, id, id, .inl, id⟩

theorem Extends.trans {s'' : Depths} (h : Extends s s') (h' : Extends s' s'') : Extends s s'' where
  size_eq := h'.size_eq.trans h.size_eq
  reaches hk := h'.reaches (h.reaches hk)
  pending hk := h'.pending (h.pending hk)
  fresh hk := by
    rcases h'.fresh hk with hk | hk
    · exact (h.fresh hk).imp_right h'.pending
    · exact .inr hk
  reached hs := h'.reached (h.reached hs)

theorem Settled.extends (h : Settled code maxStack s k d) (hs : Extends s s') :
    Settled code maxStack s' k d := by
  obtain ⟨i, after, next, hi, hafter, hnext, hreaches⟩ := h
  exact ⟨i, after, next, hi, hafter, hnext, fun a ha => hs.reaches (hreaches a ha)⟩

theorem visit_spec (h : visit code s a = .ok s') (hlt : a.position < s.depth.size) :
    Extends s s' ∧ s'.Reaches a.position a.depth := by
  unfold visit at h
  split at h
  · rename_i known hknown
    split at h
    · cases h
    · rename_i heq
      cases h
      refine ⟨.refl s, ?_⟩
      rwa [Decidable.not_not.mp heq] at hknown
  · rename_i hnone
    cases h
    have hset : ∀ {k d}, Reaches ⟨s.depth.setIfInBounds a.position (some a.depth),
        a.position :: s.pending⟩ k d ↔ (k = a.position ∧ d = a.depth) ∨ (k ≠ a.position ∧ s.Reaches k d) := by
      intro k d
      unfold Reaches
      rw [Array.getElem?_setIfInBounds]
      by_cases hk : a.position = k
      · subst hk
        simp [hlt, eq_comm]
      · simp [hk, Ne.symm hk]
    refine ⟨⟨by simp, fun {k d} hk => ?_, fun hk => List.mem_cons_of_mem _ hk, fun {k d} hk => ?_, ?_⟩, ?_⟩
    · refine hset.mpr (.inr ⟨?_, hk⟩)
      rintro rfl
      rw [Reaches, hnone] at hk
      cases hk
    · rcases hset.mp hk with ⟨rfl, -⟩ | ⟨-, hk⟩
      · exact .inr List.mem_cons_self
      · exact .inl hk
    · intro hs k hk
      by_cases heq : k = a.position
      · exact ⟨a.depth, hset.mpr (.inl ⟨heq, rfl⟩)⟩
      · obtain ⟨d, hd⟩ := hs k ((List.mem_cons.mp hk).resolve_left heq)
        exact ⟨d, hset.mpr (.inr ⟨heq, hd⟩)⟩
    · exact hset.mpr (.inl ⟨rfl, rfl⟩)
  · rename_i hnone
    exact absurd hlt (Nat.not_lt.mpr (Array.getElem?_eq_none_iff.mp hnone))

theorem visitAll_spec : ∀ {as : List Arrival} {s s' : Depths}, visitAll code s as = .ok s' →
    (∀ a ∈ as, a.position < s.depth.size) → Extends s s' ∧ ∀ a ∈ as, s'.Reaches a.position a.depth
  | [], s, s', h, _ => by
    cases h
    exact ⟨.refl s, by simp⟩
  | a :: as, s, s', h, hlt => by
    unfold visitAll at h
    split at h
    · cases h
    · rename_i s₁ hvisit
      obtain ⟨hs₁, ha⟩ := visit_spec hvisit (hlt a List.mem_cons_self)
      obtain ⟨hs', has⟩ := visitAll_spec h fun b hb => by
        rw [hs₁.size_eq]
        exact hlt b (List.mem_cons_of_mem _ hb)
      refine ⟨hs₁.trans hs', fun b hb => ?_⟩
      rcases List.mem_cons.mp hb with rfl | hb
      · exact hs'.reaches ha
      · exact has b hb

/-! ### Successors -/

theorem resolve_eq_ok {i : Located} {target : Nat} (h : resolve code i target = .ok k) :
    ∃ j, code[k]? = some j ∧ j.offset = target := by
  unfold resolve at h
  split at h
  · rename_i hfound
    cases h
    obtain ⟨hlt, hk⟩ := Array.findIdx?_eq_some_iff_getElem.mp hfound
    exact ⟨code[k], by simp [hlt], by simpa using hk.1⟩
  · cases h

theorem fallThrough_eq_ok {i : Located} {p : Nat} (h : fallThrough code k i = .ok p) :
    p = k + 1 ∧ k + 1 < code.size := by
  unfold fallThrough at h
  split at h
  · rename_i hlt
    cases h
    exact ⟨rfl, hlt⟩
  · cases h

/-- Where control can go from an instruction at an index, one of its successors starts. -/
def Starts (code : Array Located) (next : List Arrival) (pc d : Nat) : Prop :=
  ∃ a ∈ next, a.depth = d ∧ ∃ j, code[a.position]? = some j ∧ j.offset = pc

theorem depthAfter_eq_ok {i : Located} {before after : Nat} (h : depthAfter i before maxStack = .ok after) :
    i.instr.stackEffect.pops ≤ before ∧
      after = before - i.instr.stackEffect.pops + i.instr.stackEffect.pushes ∧
      after ≤ maxStack ∧ before ≤ maxStack := by
  unfold depthAfter at h
  simp only at h
  split at h
  · cases h
  · rename_i hpops
    split at h
    · cases h
    · rename_i hroom
      cases h
      omega

section

variable {i : Located} {before after : Nat} {next : List Arrival}

theorem handlerSuccessor_spec {extra : Nat} {target? : Option Nat}
    (h : handlerSuccessor code i d extra target? = .ok next) :
    (∀ a ∈ next, a.position < code.size) ∧ ∀ t, target? = some t → Starts code next t (d + extra) := by
  cases target? with
  | none =>
    cases h
    exact ⟨by simp, by simp⟩
  | some t =>
    obtain ⟨p, hp, h⟩ := except_bind_eq_ok.mp h
    cases h
    obtain ⟨j, hj, hoffset⟩ := resolve_eq_ok hp
    refine ⟨?_, ?_⟩
    · simpa using (Array.getElem?_eq_some_iff.mp hj).1
    · intro t' ht
      obtain rfl := Option.some.inj ht
      exact ⟨_, List.mem_singleton_self _, rfl, j, hj, hoffset⟩

/-- The successors of an instruction are instructions of the code. -/
theorem successors_lt (h : successors code k i before after = .ok next) :
    ∀ a ∈ next, a.position < code.size := by
  have hfall : ∀ {p}, fallThrough code k i = .ok p → p < code.size := by
    intro p hp
    obtain ⟨rfl, hlt⟩ := fallThrough_eq_ok hp
    exact hlt
  have hresolve : ∀ {t p}, resolve code i t = .ok p → p < code.size := by
    intro t p hp
    obtain ⟨j, hj, -⟩ := resolve_eq_ok hp
    exact (Array.getElem?_eq_some_iff.mp hj).1
  unfold successors at h
  split at h
  · cases h
    simp
  · cases h
    simp
  · obtain ⟨p, hp, h⟩ := except_bind_eq_ok.mp h
    cases h
    simpa using hresolve hp
  · obtain ⟨p, hp, h⟩ := except_bind_eq_ok.mp h
    obtain ⟨q, hq, h⟩ := except_bind_eq_ok.mp h
    cases h
    simpa using ⟨hfall hp, hresolve hq⟩
  · obtain ⟨p, hp, h⟩ := except_bind_eq_ok.mp h
    obtain ⟨q, hq, h⟩ := except_bind_eq_ok.mp h
    cases h
    simpa using ⟨hfall hp, hresolve hq⟩
  · obtain ⟨p, hp, h⟩ := except_bind_eq_ok.mp h
    split at h
    · cases h
    · obtain ⟨cs, hc, h⟩ := except_bind_eq_ok.mp h
      obtain ⟨fs, hf, h⟩ := except_bind_eq_ok.mp h
      cases h
      intro a ha
      rcases List.mem_cons.mp ha with rfl | ha
      · exact hfall hp
      · rcases List.mem_append.mp ha with ha | ha
        · exact (handlerSuccessor_spec hc).1 a ha
        · exact (handlerSuccessor_spec hf).1 a ha
  · obtain ⟨p, hp, h⟩ := except_bind_eq_ok.mp h
    cases h
    simpa using hfall hp

/-- Behind an instruction stands the next one. -/
theorem starts_fallThrough {lines : List Located} {bytes : Bytes} {p : Nat}
    (hlines : Located.ofCode bytes = .ok lines) (hi : lines.toArray[k]? = some i)
    (hp : fallThrough lines.toArray k i = .ok p) (hmem : ⟨p, after⟩ ∈ next) :
    Starts lines.toArray next i.next after := by
  obtain ⟨rfl, hlt⟩ := fallThrough_eq_ok hp
  have hj := Array.getElem?_eq_getElem hlt
  refine ⟨_, hmem, rfl, _, hj, ?_⟩
  rw [List.getElem?_toArray] at hi hj
  exact Located.offset_succ hlines hi hj

theorem starts_resolve {p t : Nat} (hp : resolve code i t = .ok p) (hmem : ⟨p, d⟩ ∈ next) :
    Starts code next t d := by
  obtain ⟨j, hj, hoffset⟩ := resolve_eq_ok hp
  exact ⟨_, hmem, rfl, j, hj, hoffset⟩

/-- Where the interpreter goes on within the code, the disassembler says it does. -/
theorem target_of_exec {size t : Nat} {distance : Int32} (h : Exec.target size i.next distance = .ok t) :
    i.target distance = t := by
  by_cases hout : (i.next : Int) + distance.toInt < 0 ∨ (size : Int) < (i.next : Int) + distance.toInt
  · rw [Exec.target, if_pos hout] at h
    cases h
  · rw [Exec.target, if_neg hout] at h
    exact Except.ok.inj h

/-- Where the disassembler says that a jump leads, one of the successors starts. -/
theorem starts_of_jump {distance : Int32} (hjump : i.instr.jumpDistance? = some distance)
    (h : successors code k i before after = .ok next) : Starts code next (i.target distance) after := by
  unfold Instr.jumpDistance? at hjump
  unfold successors at h
  split at hjump
  · rename_i hinstr
    obtain rfl := Option.some.inj hjump
    rw [hinstr] at h
    obtain ⟨p, hp, h⟩ := except_bind_eq_ok.mp h
    cases h
    exact starts_resolve hp (List.mem_singleton_self _)
  · rename_i hinstr
    obtain rfl := Option.some.inj hjump
    rw [hinstr] at h
    obtain ⟨p, hp, h⟩ := except_bind_eq_ok.mp h
    obtain ⟨q, hq, h⟩ := except_bind_eq_ok.mp h
    cases h
    exact starts_resolve hq (List.mem_cons_of_mem _ (List.mem_singleton_self _))
  · rename_i hinstr
    obtain rfl := Option.some.inj hjump
    rw [hinstr] at h
    obtain ⟨p, hp, h⟩ := except_bind_eq_ok.mp h
    obtain ⟨q, hq, h⟩ := except_bind_eq_ok.mp h
    cases h
    exact starts_resolve hq (List.mem_cons_of_mem _ (List.mem_singleton_self _))
  · cases hjump

/-- If execution may go on behind an instruction, the next one is a successor. -/
theorem starts_of_fallsThrough {lines : List Located} {bytes : Bytes}
    (hlines : Located.ofCode bytes = .ok lines) (hi : lines.toArray[k]? = some i)
    (h : successors lines.toArray k i before after = .ok next) (hfalls : i.instr.FallsThrough) :
    Starts lines.toArray next i.next after := by
  unfold successors at h
  split at h
  · rename_i hinstr
    rw [hinstr] at hfalls
    exact hfalls.elim
  · rename_i hinstr
    rw [hinstr] at hfalls
    exact hfalls.elim
  · rename_i hinstr
    rw [hinstr] at hfalls
    exact hfalls.elim
  · obtain ⟨p, hp, h⟩ := except_bind_eq_ok.mp h
    obtain ⟨q, -, h⟩ := except_bind_eq_ok.mp h
    cases h
    exact starts_fallThrough hlines hi hp List.mem_cons_self
  · obtain ⟨p, hp, h⟩ := except_bind_eq_ok.mp h
    obtain ⟨q, -, h⟩ := except_bind_eq_ok.mp h
    cases h
    exact starts_fallThrough hlines hi hp List.mem_cons_self
  · obtain ⟨p, hp, h⟩ := except_bind_eq_ok.mp h
    split at h
    · cases h
    · obtain ⟨cs, -, h⟩ := except_bind_eq_ok.mp h
      obtain ⟨fs, -, h⟩ := except_bind_eq_ok.mp h
      cases h
      exact starts_fallThrough hlines hi hp List.mem_cons_self
  · obtain ⟨p, hp, h⟩ := except_bind_eq_ok.mp h
    cases h
    exact starts_fallThrough hlines hi hp List.mem_cons_self

/-- Wherever execution goes on after an instruction, one of the successors starts. -/
theorem starts_of_goesTo {lines : List Located} {bytes : Bytes} {pc : Nat}
    (hlines : Located.ofCode bytes = .ok lines) (hi : lines.toArray[k]? = some i)
    (h : successors lines.toArray k i before after = .ok next)
    (hgo : i.instr.GoesTo bytes.size i.next pc) : Starts lines.toArray next pc after := by
  rcases Instr.goesTo_cases hgo with ⟨hfalls, rfl⟩ | ⟨distance, hjump, htarget⟩
  · exact starts_of_fallsThrough hlines hi h hfalls
  · rw [← target_of_exec htarget]
    exact starts_of_jump hjump h

/-- The handlers of a protected region are successors, and there is at least one. -/
theorem starts_handlers {c f : Int32} (hinstr : i.instr = .tryStart c f)
    (h : successors code k i before after = .ok next) :
    (∀ t, i.handlerTarget? c = some t → Starts code next t (before + 1)) ∧
    (∀ t, i.handlerTarget? f = some t → Starts code next t (before + 2)) ∧
    ¬ (i.handlerTarget? c = none ∧ i.handlerTarget? f = none) := by
  unfold successors at h
  rw [hinstr] at h
  obtain ⟨p, hp, h⟩ := except_bind_eq_ok.mp h
  split at h
  · cases h
  · rename_i hsome
    obtain ⟨cs, hc, h⟩ := except_bind_eq_ok.mp h
    obtain ⟨fs, hf, h⟩ := except_bind_eq_ok.mp h
    cases h
    refine ⟨fun t ht => ?_, fun t ht => ?_, fun ⟨hc, hf⟩ => hsome hc hf⟩
    · obtain ⟨a, ha, hstart⟩ := (handlerSuccessor_spec hc).2 t ht
      exact ⟨a, List.mem_cons_of_mem _ (List.mem_append_left _ ha), hstart⟩
    · obtain ⟨a, ha, hstart⟩ := (handlerSuccessor_spec hf).2 t ht
      exact ⟨a, List.mem_cons_of_mem _ (List.mem_append_right _ ha), hstart⟩

end

/-! ### The search -/

/-- What holds whenever the next pending instruction is taken up. -/
structure Underway (code : Array Located) (maxStack : Nat) (s : Depths) : Prop where
  size_eq : s.depth.size = code.size
  reached : ∀ k ∈ s.pending, ∃ d, s.Reaches k d
  settled : ∀ {k d}, s.Reaches k d → k ∈ s.pending ∨ Settled code maxStack s k d

theorem Underway.initial (h : 0 < code.size) : Underway code maxStack (.initial code.size) where
  size_eq := by simp [Depths.initial]
  reached k hk := by
    obtain rfl := List.mem_singleton.mp hk
    exact ⟨0, by simp [Reaches, Depths.initial, h]⟩
  settled {k d} hk := by
    refine .inl (List.mem_singleton.mpr ?_)
    refine Decidable.byContradiction fun hne => ?_
    unfold Reaches Depths.initial at hk
    rw [Array.getElem?_setIfInBounds_ne (Ne.symm hne)] at hk
    simp [Array.getElem?_replicate] at hk

/-- To visit the successors of a pending instruction settles it. -/
theorem Underway.advance {rest : List Nat} (hs : Underway code maxStack s) (hp : s.pending = k :: rest)
    (h : advance code maxStack ⟨s.depth, rest⟩ k = .ok s') :
    Underway code maxStack s' ∧ ∀ {k d}, s.Reaches k d → s'.Reaches k d := by
  obtain ⟨before, hbefore⟩ := hs.reached k (hp ▸ List.mem_cons_self)
  have hlt : k < code.size := by
    rw [← hs.size_eq]
    exact (Array.getElem?_eq_some_iff.mp hbefore).1
  have hi : code[k]? = some code[k] := Array.getElem?_eq_getElem hlt
  unfold Depths.advance at h
  rw [hi] at h
  simp only [show s.depth[k]? = some (some before) from hbefore, Option.getD_some] at h
  obtain ⟨after, hafter, h⟩ := except_bind_eq_ok.mp h
  obtain ⟨next, hnext, h⟩ := except_bind_eq_ok.mp h
  obtain ⟨hextends, hvisited⟩ := visitAll_spec h fun a ha => by
    rw [hs.size_eq]
    exact successors_lt hnext a ha
  have hk : Settled code maxStack s' k before := ⟨_, after, next, hi, hafter, hnext, hvisited⟩
  refine ⟨⟨hextends.size_eq.trans hs.size_eq, ?_, fun {k' d'} hk' => ?_⟩, hextends.reaches⟩
  · exact hextends.reached fun k' hk' => hs.reached k' (hp ▸ List.mem_cons_of_mem _ hk')
  · rcases hextends.fresh hk' with hk' | hpending
    · rcases hs.settled hk' with hpending | hsettled
      · rw [hp] at hpending
        rcases List.mem_cons.mp hpending with rfl | hrest
        · have hd : s.depth[k']? = some (some d') := hk'
          rw [show s.depth[k']? = some (some before) from hbefore] at hd
          cases hd
          exact .inr hk
        · exact .inl (hextends.pending hrest)
      · have hsame : Settled code maxStack ⟨s.depth, rest⟩ k' d' := hsettled
        exact .inr (hsame.extends hextends)
    · exact .inl hpending

/-- Some pending instruction is taken up, whichever. -/
def Takes (code : Array Located) (maxStack : Nat) (s : Depths) (r : Except VerifyError Depths) : Prop :=
  ∃ l k rest, s.pending = l ++ k :: rest ∧ Depths.advance code maxStack ⟨s.depth, l ++ rest⟩ k = r

/-- What a search ends with that takes up pending instructions in some order. -/
inductive Ends (code : Array Located) (maxStack : Nat) : Depths → Except VerifyError Depths → Prop
  | done {s : Depths} (idle : s.pending = []) : Ends code maxStack s (.ok s)
  | fails {s : Depths} {e : VerifyError} (takes : Takes code maxStack s (.error e)) :
      Ends code maxStack s (.error e)
  | goesOn {s s' : Depths} {r : Except VerifyError Depths} (takes : Takes code maxStack s (.ok s'))
      (ends : Ends code maxStack s' r) : Ends code maxStack s r

/-- Every order of taking up pending instructions comes to an end. -/
theorem takes_wellFounded (code : Array Located) (maxStack : Nat) :
    WellFounded fun s' s => Takes code maxStack s (.ok s') := by
  refine Subrelation.wf (fun {s' s} h => ?_) (measure weight).wf
  obtain ⟨l, k, rest, hp, hadvance⟩ := h
  have hweight : s'.weight < s.weight := by
    rw [weight_advance hadvance]
    simp [weight, hp]
  exact hweight

/-- One order is to take up the last found first. -/
theorem explore_ends : Ends code maxStack s (explore code maxStack s) := by
  induction s using (takes_wellFounded code maxStack).induction with
  | h s ih =>
    unfold explore
    split
    · exact .done ‹_›
    · rename_i k rest hp
      split
      · exact .fails ⟨[], k, rest, hp, ‹_›⟩
      · rename_i s' hadvance
        have htakes : Takes code maxStack s (.ok s') := ⟨[], k, rest, hp, hadvance⟩
        exact .goesOn htakes (ih _ htakes)

theorem Underway.takes (hs : Underway code maxStack s) (h : Takes code maxStack s (.ok s')) :
    Underway code maxStack s' ∧ ∀ {k d}, s.Reaches k d → s'.Reaches k d := by
  obtain ⟨l, k, rest, hp, hadvance⟩ := h
  have hperm (j : Nat) : j ∈ k :: (l ++ rest) ↔ j ∈ s.pending := by
    rw [hp]
    simp [or_left_comm]
  have hfirst : Underway code maxStack ⟨s.depth, k :: (l ++ rest)⟩ :=
    ⟨hs.size_eq, fun j hj => hs.reached j ((hperm j).mp hj),
      fun hj => (hs.settled hj).imp_left (hperm _).mpr⟩
  exact hfirst.advance rfl hadvance

/-- A search that ends well has settled everything that is reached. -/
theorem Ends.settled {D : Depths} (h : Ends code maxStack s (.ok D)) (hs : Underway code maxStack s) :
    (∀ {k d}, D.Reaches k d → Settled code maxStack D k d) ∧ ∀ {k d}, s.Reaches k d → D.Reaches k d := by
  generalize hr : (.ok D : Except VerifyError Depths) = r at h
  induction h with
  | done hidle =>
    obtain rfl := Except.ok.inj hr
    refine ⟨fun hk => (hs.settled hk).resolve_left ?_, id⟩
    rw [hidle]
    exact List.not_mem_nil
  | fails => cases hr
  | goesOn htakes _ ih =>
    obtain ⟨hs', hreaches⟩ := hs.takes htakes
    obtain ⟨hsettled, hmore⟩ := ih hs' hr
    exact ⟨hsettled, fun hk => hmore (hreaches hk)⟩

/-- At an offset, an instruction starts that is known to be reached at a depth. -/
def At (D : Depths) (lines : List Located) (pc d : Nat) : Prop :=
  ∃ k i, lines[k]? = some i ∧ i.offset = pc ∧ D.Reaches k d

theorem at_of_starts {D : Depths} {lines : List Located} {next : List Arrival} {pc : Nat}
    (h : Starts lines.toArray next pc d) (hreaches : ∀ a ∈ next, D.Reaches a.position a.depth) :
    D.At lines pc d := by
  obtain ⟨a, ha, rfl, j, hj, hoffset⟩ := h
  rw [List.getElem?_toArray] at hj
  exact ⟨a.position, j, hj, hoffset, hreaches a ha⟩

end Depths

/-- Where the interpreter finds the handlers, the disassembler says they are. -/
theorem Located.handlerTarget?_of_exec {i : Located} {size : Nat} {distance : Int32} {target? : Option Nat}
    (h : Exec.handlerTarget? size i.next distance = .ok target?) :
    target? = i.handlerTarget? distance := by
  unfold Exec.handlerTarget? at h
  unfold handlerTarget?
  by_cases hneg : distance < 0
  · rw [if_pos hneg] at h
    rw [if_neg (by simpa [Int32.lt_iff_toInt_lt] using hneg)]
    exact (Except.ok.inj h).symm
  · rw [if_neg hneg] at h
    rw [if_pos (by simpa [Int32.lt_iff_toInt_lt] using hneg)]
    cases ht : Exec.target size i.next distance with
    | error e =>
      rw [ht] at h
      cases h
    | ok t =>
      rw [ht] at h
      rw [Depths.target_of_exec ht]
      exact (Except.ok.inj h).symm

/-! ### Functions -/

/-- What verification has found out about a function: its instructions, and the depths at
which they are reached. -/
structure Function.Analysis (f : Function) (lines : List Located) (D : Depths) : Prop where
  decoded : Located.ofCode f.code = .ok lines
  entry : D.Reaches 0 0
  settled : ∀ {k d}, D.Reaches k d → D.Settled lines.toArray f.maxStack k d

/-- What is known of an instruction that is reached at depth `d`. -/
structure Function.Line (f : Function) (lines : List Located) (D : Depths) (i : Located) (d : Nat) :
    Prop where
  mem : i ∈ lines
  readAt : Instr.readAt f.code i.offset = .ok i.instr
  pops_le : i.instr.stackEffect.pops ≤ d
  before_le : d ≤ f.maxStack
  after_le : d - i.instr.stackEffect.pops + i.instr.stackEffect.pushes ≤ f.maxStack
  goesTo : ∀ {pc}, i.instr.GoesTo f.code.size i.next pc →
    D.At lines pc (d - i.instr.stackEffect.pops + i.instr.stackEffect.pushes)
  jumps : ∀ {distance}, i.instr.jumpDistance? = some distance →
    D.At lines (i.target distance) (d - i.instr.stackEffect.pops + i.instr.stackEffect.pushes)
  handlers : ∀ {c fin}, i.instr = .tryStart c fin →
    (∀ t, i.handlerTarget? c = some t → D.At lines t (d + 1)) ∧
    (∀ t, i.handlerTarget? fin = some t → D.At lines t (d + 2)) ∧
    ¬ (i.handlerTarget? c = none ∧ i.handlerTarget? fin = none)

namespace Function

variable {f : Function} {constants : ConstantPool} {lines : List Located} {D : Depths}

/-- Verification finds out the depths of a function. -/
theorem analysis_of_depths (h : f.depths constants = .ok D) : ∃ lines, f.Analysis lines D := by
  obtain ⟨lines, hlines, h⟩ := except_bind_eq_ok.mp h
  obtain ⟨_, hend, h⟩ := except_bind_eq_ok.mp h
  obtain ⟨_, _, h⟩ := except_bind_eq_ok.mp h
  have hdecoded : Located.ofCode f.code = .ok lines := by
    unfold readable at hlines
    cases hcode : Located.ofCode f.code with
    | error e =>
      rw [hcode] at hlines
      cases hlines
    | ok lines' =>
      rw [hcode] at hlines
      exact congrArg Except.ok (Except.ok.inj hlines)
  have hpos : 0 < lines.toArray.size := by
    cases lines with
    | nil => cases hend
    | cons i lines => simp
  obtain ⟨hsettled, hmore⟩ := (h ▸ Depths.explore_ends).settled (Depths.Underway.initial hpos)
  refine ⟨lines, hdecoded, hmore ?_, hsettled⟩
  have hlength : 0 < lines.length := hpos
  simp [Depths.Reaches, Depths.initial, hlength]

/-- A function that is verified has been analysed. -/
theorem depths_of_verify (h : f.verify constants = .ok ()) : ∃ D, f.depths constants = .ok D := by
  obtain ⟨D, hD, -⟩ := except_bind_eq_ok.mp h
  exact ⟨D, hD⟩

namespace Analysis

theorem lt_of_at {pc d : Nat} (A : f.Analysis lines D) (h : D.At lines pc d) : pc < f.code.size := by
  obtain ⟨k, i, hi, rfl, -⟩ := h
  exact Located.offset_lt_of_mem A.decoded (List.mem_of_getElem? hi)

theorem at_entry (A : f.Analysis lines D) : D.At lines 0 0 := by
  obtain ⟨i, -, -, hi, -⟩ := A.settled A.entry
  rw [List.getElem?_toArray] at hi
  cases lines with
  | nil => cases hi
  | cons first rest => exact ⟨0, first, rfl, (Located.ofCodeFrom_cons A.decoded).1, A.entry⟩

theorem line {k d : Nat} {i : Located} (A : f.Analysis lines D) (hi : lines[k]? = some i)
    (h : D.Reaches k d) : f.Line lines D i d := by
  obtain ⟨i', after, next, hi', hafter, hnext, hreaches⟩ := A.settled h
  have hi'' := hi'
  rw [List.getElem?_toArray, hi] at hi'
  obtain rfl := Option.some.inj hi'
  obtain ⟨hpops, rfl, hroom, hroom'⟩ := Depths.depthAfter_eq_ok hafter
  have hmem : i ∈ lines := List.mem_of_getElem? hi
  refine ⟨hmem, Located.readAt_of_mem A.decoded hmem, hpops, hroom', hroom, fun hgo => ?_, fun hjump => ?_,
    fun hinstr => ?_⟩
  · exact Depths.at_of_starts (Depths.starts_of_goesTo A.decoded hi'' hnext hgo) hreaches
  · exact Depths.at_of_starts (Depths.starts_of_jump hjump hnext) hreaches
  · obtain ⟨hc, hf, hsome⟩ := Depths.starts_handlers hinstr hnext
    exact ⟨fun t ht => Depths.at_of_starts (hc t ht) hreaches,
      fun t ht => Depths.at_of_starts (hf t ht) hreaches, hsome⟩

end Analysis
end Function
end ResourceMachine
