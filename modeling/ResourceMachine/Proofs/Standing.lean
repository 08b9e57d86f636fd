/-
# Where a session stands in code

Between statements, the locals of a session hold the values of the bindings
(`Holds`), and its scopes are those of the regions that dispose (`Fit`): each has
registered what its region can dispose, and has room for what is still to be
registered. A statement that is left normally leads to the code behind it
(`Setting.Stands`); one that is left otherwise, to the code that leaves the
regions around it (`Setting.Leaves`); and if it throws, the operands below those
of the statement are there (`Setting.Throws`).

Key definitions: `Holds`, `Fit`, `Setting.Stands`, `Setting.Leaves`,
`Setting.Throws`, `Setting.Left`, `Stmt.Follows`.
-/
import ResourceMachine.Proofs.BlockEmission
import ResourceMachine.Proofs.PassRun

namespace ResourceMachine

/-! ### Locals -/

/-- The locals of a function hold the values of bindings. -/
structure Holds (t : Target) (scope : Scope) (ρ : Bindings) (L : Array Value) : Prop where
  size : L.size = t.localCount
  agree : List.Forall₂ (fun b v => b.1 = v.1 ∧ L[b.2.toNat]? = some v.2) scope ρ

namespace Holds

variable {t : Target} {scope scope' : Scope} {ρ ρ' : Bindings} {L : Array Value} {name : String}
  {slot : UInt16} {v : Value}

/-- A name stands for the innermost binding, in the locals as in the bindings. -/
theorem lookup (h : Holds t scope ρ L) (hslot : scope.lookup name = some slot) :
    L[slot.toNat]? = some ((ρ.lookup name).getD .undefined) := by
  obtain ⟨-, hagree⟩ := h
  induction hagree with
  | nil => cases hslot
  | @cons b v scope ρ hb _ ih =>
    obtain ⟨key, s⟩ := b
    obtain ⟨key', w⟩ := v
    obtain ⟨rfl, hv⟩ : key = key' ∧ L[s.toNat]? = some w := hb
    rw [List.lookup_cons] at hslot ⊢
    cases hkey : name == key with
    | true =>
      rw [hkey] at hslot
      obtain rfl : s = slot := Option.some.inj hslot
      exact hv
    | false =>
      rw [hkey] at hslot
      exact ih hslot

/-- What is written to locals of no binding changes no binding. -/
theorem of_same {L' : Array Value} (h : Holds t scope ρ L) (hsize : L'.size = L.size)
    (hsame : ∀ b ∈ scope, L'[b.2.toNat]? = L[b.2.toNat]?) : Holds t scope ρ L' := by
  refine ⟨hsize.trans h.size, ?_⟩
  refine ((List.forall₂_and_left scope ρ).mpr ⟨hsame, h.agree⟩).imp ?_
  rintro b v ⟨hb, hname, hv⟩
  exact ⟨hname, hb.trans hv⟩

/-- A pass writes to locals of no binding. -/
theorem overwrite {base : Nat} {vs : List Value} (h : Holds t scope ρ L)
    (hbase : base + 8 ≤ t.localCount) (hvs : vs.length = 8)
    (hfree : ∀ b ∈ scope, b.2.toNat < base ∨ base + 8 ≤ b.2.toNat) :
    Holds t scope ρ (ResourceMachine.overwrite L base vs) := by
  have hsize := h.size
  refine h.of_same (size_overwrite _ _ _) fun b hb => ?_
  have := hfree b hb
  exact getElem?_overwrite_off (by omega) (by omega)

/-- A value is stored in the local of a new name. -/
theorem bind (h : Holds t scope ρ L) (hslot : t.Fresh scope slot) (name : String) (v : Value) :
    Holds t ((name, slot) :: scope) ((name, v) :: ρ) (L.setIfInBounds slot.toNat v) := by
  obtain ⟨hlt, hfree⟩ := hslot
  have hsize := h.size
  have hrest : Holds t scope ρ (L.setIfInBounds slot.toNat v) :=
    h.of_same Array.size_setIfInBounds fun b hb =>
      Array.getElem?_setIfInBounds_ne (Ne.symm (hfree b hb))
  refine ⟨hrest.size, .cons ⟨rfl, ?_⟩ hrest.agree⟩
  exact Array.getElem?_setIfInBounds_self_of_lt (by omega)

/-- What holds where names are bound holds where these are not bound yet. -/
theorem of_suffix {L' : Array Value} (h : Holds t scope' ρ' L') (hscope : scope <:+ scope')
    (hρ : ρ <:+ ρ') (hout : Holds t scope ρ L) : Holds t scope ρ L' := by
  obtain ⟨xs, rfl⟩ := hscope
  obtain ⟨ys, rfl⟩ := hρ
  have hlen := hout.agree.length_eq
  have hlen' := h.agree.length_eq
  have hdrop := List.forall₂_drop xs.length h.agree
  simp only [List.length_append] at hlen'
  rw [List.drop_left, show xs.length = ys.length by omega, List.drop_left] at hdrop
  exact ⟨h.size, hdrop⟩

end Holds

/-! ### Scopes -/

/-- What a region that disposes has to do: whether it awaits, and the room for
what is still to be registered. -/
def Shape.duty : Shape → Option (Bool × Nat)
  | disposable awaits room => some (awaits, room)
  | iteration (some awaits) => some (awaits, 0)
  | _ => none

/-- A scope has registered what its region can dispose. A pass counts with 31 bits. -/
structure Keeps (duty : Bool × Nat) (c : Capability) : Prop where
  covered : Covered duty.1 c.resources
  few : c.resources.length + duty.2 ≤ 2147483647

/-- The scopes of a call are those of the regions that dispose. -/
def Fit (rs : List Shape) (cs : List Capability) : Prop :=
  List.Forall₂ Keeps (rs.filterMap Shape.duty) cs

theorem Keeps.few' {duty : Bool × Nat} {c : Capability} (h : Keeps duty c) :
    c.resources.length ≤ 2147483647 := Nat.le_trans (Nat.le_add_right _ _) h.few

theorem Keeps.crowded {awaits : Bool} {room : Nat} {c : Capability} (h : Keeps (awaits, room) c) :
    Keeps (awaits, 0) c := ⟨h.covered, h.few'⟩

theorem Keeps.empty {duty : Bool × Nat} (h : duty.2 ≤ 2147483647) : Keeps duty .empty :=
  ⟨fun _ _ hr => absurd hr List.not_mem_nil, by simpa [Capability.empty] using h⟩

namespace Fit

variable {awaits : Bool} {room : Nat} {rs : List Shape} {cs : List Capability} {c : Capability}

theorem cons_disposable (hc : Keeps (awaits, room) c) (h : Fit rs cs) :
    Fit (.disposable awaits room :: rs) (c :: cs) := List.Forall₂.cons hc h

theorem of_disposable (h : Fit (.disposable awaits room :: rs) cs) :
    ∃ c outer, cs = c :: outer ∧ Keeps (awaits, room) c ∧ Fit rs outer := by
  cases h with
  | cons hc h => exact ⟨_, _, rfl, hc, h⟩

/-- Behind a declaration, there are more awaits and there is less room. -/
theorem after (h : Fit rs cs) (s : Stmt) : Fit (s.after rs) cs := by
  match rs, h with
  | .disposable awaits room :: rs, h =>
    obtain ⟨c, outer, rfl, ⟨hcovered, hfew⟩, h⟩ := h.of_disposable
    rw [Stmt.after_disposable]
    refine h.cons_disposable ⟨fun hawaits => ?_, ?_⟩
    · exact hcovered (Bool.or_eq_false_iff.mp hawaits).1
    · show c.resources.length + (room - _) ≤ 2147483647
      have : c.resources.length + room ≤ 2147483647 := hfew
      omega
  | [], h => cases s <;> exact h
  | .tryCatch :: _, h => cases s <;> exact h
  | .loop _ _ _ _ :: _, h => cases s <;> exact h
  | .iteration _ :: _, h => cases s <;> exact h

theorem afterAll : ∀ {rs : List Shape} (_ : Fit rs cs) (ss : List Stmt), Fit (Stmt.afterAll ss rs) cs
  | _, h, [] => h
  | _, h, s :: ss => (h.after s).afterAll ss

end Fit

/-- What a declaration registers, its region can dispose. -/
theorem Fit.register {awaits : Bool} {room : Nat} {rs : List Shape} {c : Capability}
    {cs cs' : List Capability} {v : Value} {hint : Hint} (hc : Keeps (awaits, room + 1) c)
    (h : Fit rs cs)
    (hregistered : cs' = c :: cs ∨ ∃ r h h', createResource v hint h = .ok (some r) h' ∧
      cs' = c.add r :: cs) :
    Fit (.disposable (awaits || hint == .async) room :: rs) cs' := by
  obtain ⟨hcovered, hfew⟩ := hc
  have hfew : c.resources.length + (room + 1) ≤ 2147483647 := hfew
  obtain rfl | ⟨r, h₁, h₂, heq, rfl⟩ := hregistered
  · refine h.cons_disposable ⟨fun hawaits => ?_, ?_⟩
    · exact hcovered (Bool.or_eq_false_iff.mp hawaits).1
    · show c.resources.length + room ≤ 2147483647
      omega
  · obtain ⟨hhint, hmethod⟩ := createResource_covered heq
    refine h.cons_disposable ⟨fun hawaits r' hr' => ?_, ?_⟩
    · obtain ⟨hawaits, hasync⟩ := Bool.or_eq_false_iff.mp hawaits
      have hsync : hint = .sync := by
        cases hint with
        | sync => rfl
        | async => cases hasync
      rcases List.mem_append.mp hr' with hr' | hr'
      · exact hcovered hawaits r' hr'
      · obtain rfl := List.mem_singleton.mp hr'
        exact ⟨hhint.trans hsync, hmethod hsync⟩
    · show (c.resources ++ [r]).length + room ≤ 2147483647
      rw [List.length_append, List.length_singleton]
      omega

/-! ### Leaving -/

namespace Target

variable {t : Target} {scope scope' : Scope} {d p d' q : Nat}

theorem FreshSlots.of_suffix {s : PassSlots} (h : t.FreshSlots scope' s) (hscope : scope <:+ scope') :
    t.FreshSlots scope s := by
  obtain ⟨base, hs, hbase, hfree⟩ := h
  exact ⟨base, hs, hbase, fun b hb => hfree b (hscope.subset hb)⟩

theorem Leave.of_suffix {awaits : Bool} (h : t.Leave scope' awaits d p q)
    (hscope : scope <:+ scope') : t.Leave scope awaits d p q := by
  obtain ⟨s, m, hs, hpass, hthrow⟩ := h
  exact ⟨s, m, hs.of_suffix hscope, hpass, hthrow⟩

theorem ExitOf.of_suffix {r : Shape} (h : t.ExitOf scope' r d p d' q) (hscope : scope <:+ scope') :
    t.ExitOf scope r d p d' q := by
  match r, h with
  | .disposable _ _, ⟨m, hleave, hline⟩ => exact ⟨m, hleave.of_suffix hscope, hline⟩
  | .iteration (some _), ⟨m, hleave, hline⟩ => exact ⟨m, hleave.of_suffix hscope, hline⟩
  | .iteration none, h | .tryCatch, h | .loop _ _ _ _, h => exact h

/-- Code that leaves regions where names are bound also leaves them where these are
not bound yet. -/
theorem Leaving.of_suffix : ∀ {rs : List Shape} {x : Exit} {d p q : Nat}, t.Leaving scope' rs x d p q →
    scope <:+ scope' → t.Leaving scope rs x d p q
  | [], _, _, _, _, h, _ => h
  | r :: rs, x, d, p, q, h, hscope => by
    unfold Leaving at h ⊢
    split at h
    · rwa [if_pos ‹_›]
    · obtain ⟨d', q, hexit, hrest⟩ := h
      rw [if_neg ‹_›]
      refine ⟨d', q, hexit.of_suffix hscope, ?_⟩
      split at hrest
      · rwa [if_pos ‹_›]
      · rw [if_neg ‹_›]
        exact hrest.of_suffix hscope

/-- Which value is returned makes no difference to the code that leaves regions. -/
theorem Leaving.ret_congr (v w : Value) : ∀ {rs : List Shape} {d p q : Nat},
    t.Leaving scope rs (.ret v) d p q → t.Leaving scope rs (.ret w) d p q
  | [], _, _, _, h => h
  | r :: rs, d, p, q, h => by
    have hcontinue : r.isContinuedBy (.ret v) = r.isContinuedBy (.ret w) := by cases r <;> rfl
    have hbreak : r.isBrokenBy (.ret v) = r.isBrokenBy (.ret w) := by cases r <;> rfl
    unfold Leaving at h ⊢
    rw [hcontinue, hbreak] at h
    split at h
    · rwa [if_pos ‹_›]
    · obtain ⟨d', q, hexit, hrest⟩ := h
      rw [if_neg ‹_›]
      refine ⟨d', q, hexit, ?_⟩
      split at hrest
      · rwa [if_pos ‹_›]
      · rw [if_neg ‹_›]
        exact hrest.ret_congr v w

theorem LeavesFrom.of_suffix {rs : List Shape} {x : Exit} (h : t.LeavesFrom scope' rs x d p)
    (hscope : scope <:+ scope') : t.LeavesFrom scope rs x d p :=
  h.imp fun _ h => h.of_suffix hscope

theorem LeavesFrom.ret_congr (v w : Value) {rs : List Shape} (h : t.LeavesFrom scope rs (.ret v) d p) :
    t.LeavesFrom scope rs (.ret w) d p :=
  h.imp fun _ h => h.ret_congr v w

end Target

/-! ### Sessions between statements -/

namespace Setting

section

variable {σ : Type} (κ : Setting σ) (scope : Scope) (ρ : Bindings) (rs : List Shape)
  (stk : List Value) (H : List Handler)

/-- Code goes on at `q`, with these operands and handlers. -/
def Stands (q : Nat) (spot : Spot) (S : CallState σ) : Prop :=
  ∃ L, spot.Stands q stk L H ∧ Holds κ.target scope ρ L ∧ Fit rs S.scopes

/-- The code goes on that leaves the regions around a statement. A value that is
returned is in the return slot. -/
def Leaves (x : Exit) (spot : Spot) (S : CallState σ) : Prop :=
  ∃ p, κ.target.LeavesFrom scope rs x stk.length p ∧ κ.Stands scope ρ rs stk H p spot S ∧
    ∀ v, x = .ret v → S.rval = v

/-- An exception is thrown with these operands at the bottom. -/
def Throws (spot : Spot) (S : CallState σ) : Prop :=
  ∃ L, spot.Over stk L H ∧ Holds κ.target scope ρ L ∧ Fit rs S.scopes

/-- Where code goes on when a statement was left, which ends at `q`. -/
def Left (q : Nat) (x : Exit) (spot : Spot) (S : CallState σ) : Prop :=
  if x.isNormal then κ.Stands scope ρ rs stk H q spot S else κ.Leaves scope ρ rs stk H x spot S

/-- Where code goes on when a statement was left that brings names into scope, with the
bindings behind it. -/
def Passed (scope' : Scope) (rs' : List Shape) (q : Nat) (r : Exit × Bindings) (spot : Spot)
    (S : CallState σ) : Prop :=
  if r.1.isNormal then ρ <:+ r.2 ∧ κ.Stands scope' r.2 rs' stk H q spot S
  else κ.Leaves scope ρ rs stk H r.1 spot S

end

variable {σ : Type} {κ : Setting σ} {scope scope' : Scope} {ρ ρ' : Bindings} {rs : List Shape}
  {stk : List Value} {H : List Handler} {q : Nat} {x : Exit} {spot : Spot} {S : CallState σ}
  {L : Array Value}

theorem Left.of_normal (h : κ.Stands scope ρ rs stk H q spot S) (hx : x.isNormal = true) :
    κ.Left scope ρ rs stk H q x spot S := by
  rwa [Left, if_pos hx]

theorem Left.of_abrupt (h : κ.Leaves scope ρ rs stk H x spot S) (hx : x.isNormal = false) :
    κ.Left scope ρ rs stk H q x spot S := by
  rwa [Left, if_neg (by simp [hx])]

theorem Passed.of_normal {rs' : List Shape} (hρ : ρ <:+ ρ') (h : κ.Stands scope' ρ' rs' stk H q spot S) :
    κ.Passed scope ρ rs stk H scope' rs' q (.normal, ρ') spot S := by
  rw [Passed, if_pos (show (Exit.normal, ρ').1.isNormal = true from rfl)]
  exact ⟨hρ, h⟩

theorem Passed.of_abrupt {rs' : List Shape} (h : κ.Leaves scope ρ rs stk H x spot S)
    (hx : x.isNormal = false) : κ.Passed scope ρ rs stk H scope' rs' q (x, ρ') spot S := by
  rwa [Passed, if_neg (by simp [hx])]

/-- A statement that brings no names into scope is left like a block. -/
theorem Left.passed (h : κ.Left scope ρ rs stk H q x spot S) :
    κ.Passed scope ρ rs stk H scope rs q (x, ρ) spot S := by
  unfold Left at h
  unfold Passed
  split at h
  · rw [if_pos ‹_›]
    exact ⟨List.suffix_refl _, h⟩
  · rwa [if_neg ‹_›]

theorem Stands.of_suffix (h : κ.Stands scope' ρ' rs stk H q spot S) (hscope : scope <:+ scope')
    (hρ : ρ <:+ ρ') (hout : Holds κ.target scope ρ L) : κ.Stands scope ρ rs stk H q spot S := by
  obtain ⟨L', hstands, hL', hfit⟩ := h
  exact ⟨L', hstands, hL'.of_suffix hscope hρ hout, hfit⟩

theorem Leaves.of_suffix (h : κ.Leaves scope' ρ' rs stk H x spot S) (hscope : scope <:+ scope')
    (hρ : ρ <:+ ρ') (hout : Holds κ.target scope ρ L) : κ.Leaves scope ρ rs stk H x spot S := by
  obtain ⟨p, hleaving, hstands, hret⟩ := h
  exact ⟨p, hleaving.of_suffix hscope, hstands.of_suffix hscope hρ hout, hret⟩

theorem Left.of_suffix (h : κ.Left scope' ρ' rs stk H q x spot S) (hscope : scope <:+ scope')
    (hρ : ρ <:+ ρ') (hout : Holds κ.target scope ρ L) : κ.Left scope ρ rs stk H q x spot S := by
  unfold Left at h ⊢
  split at h
  · rw [if_pos ‹_›]
    exact h.of_suffix hscope hρ hout
  · rw [if_neg ‹_›]
    exact h.of_suffix hscope hρ hout

theorem Throws.of_suffix (h : κ.Throws scope' ρ' rs stk H spot S) (hscope : scope <:+ scope')
    (hρ : ρ <:+ ρ') (hout : Holds κ.target scope ρ L) : κ.Throws scope ρ rs stk H spot S := by
  obtain ⟨L', hover, hL', hfit⟩ := h
  exact ⟨L', hover, hL'.of_suffix hscope hρ hout, hfit⟩

end Setting

/-! ### Statements -/

namespace Stmt

variable {σ : Type} (κ : Setting σ) (n : Nat)

/-- The code of a statement follows its execution, with fuel for `n` rounds of every
loop. -/
def Follows (s : Stmt) : Prop :=
  ∀ ⦃rs : List Shape⦄ ⦃scope scope' : Scope⦄ ⦃ρ : Bindings⦄ ⦃stk : List Value⦄ ⦃H : List Handler⦄
    ⦃p q : Nat⦄ ⦃spot : Spot⦄ ⦃S : CallState σ⦄,
    s.Laid κ.target rs scope stk.length p scope' q → κ.Stands scope ρ rs stk H p spot S →
    Sim κ n (κ.session spot S) (s.exec κ.host κ.target.kind n ρ S)
      (κ.Passed scope ρ rs stk H scope' (s.after rs) q) (κ.Throws scope ρ rs stk H)

/-- The code of statements follows their execution, until one is left otherwise than
normally. -/
def FollowsAll (ss : List Stmt) : Prop :=
  ∀ ⦃rs : List Shape⦄ ⦃scope : Scope⦄ ⦃ρ : Bindings⦄ ⦃stk : List Value⦄ ⦃H : List Handler⦄
    ⦃p q : Nat⦄ ⦃spot : Spot⦄ ⦃S : CallState σ⦄,
    LaidAll κ.target ss rs scope stk.length p q → κ.Stands scope ρ rs stk H p spot S →
    Sim κ n (κ.session spot S) (execAll κ.host κ.target.kind n ss ρ S)
      (fun x spot S' => ∃ done, done <+: ss ∧ (x.isNormal = true → done = ss) ∧
        κ.Left scope ρ (afterAll done rs) stk H q x spot S')
      (κ.Throws scope ρ (afterAll ss rs) stk H)

end Stmt
end ResourceMachine
