/-
# Which programs compile

Lowering checks a program while it emits its code. It never finds itself at odds with its
own bookkeeping: the regions around a statement stay what they are while the statement is
lowered (`Region.Fits`), so every jump finds the depth that it expects, every scope that
is left is entered, and behind a function no region is left. So what stops it is a limit,
or a fault of the program (`Stmt.lower_ends`); and the functions that it ends with are
laid out, which makes them fit to run. All in all, exactly the programs compile that obey
the rules, as far as the limits allow (`Module.compile_accepts`).

Key definitions: `Enclosure`, `Region.Is`, `Region.Fits`, `Lowering.Inside`,
`Stmt.EndsIn`, `Declaration.WellFormed`.
Key theorems: `Region.exitAll_ends`, `Lower.inBlock_ends`, `Lower.rounds_ends`, `Stmt.lower_ends`,
`Module.compileAll_error`, `Module.verify_of_built`, `Module.compile_accepts`.
-/
import ResourceMachine.Proofs.Assembling
import ResourceMachine.Proofs.Coverage
import ResourceMachine.Proofs.Validity

namespace ResourceMachine

/-! ### Regions around a statement -/

/-- What a region around a statement is, for as long as the statement is lowered. -/
inductive Enclosure where
  | block
  | guarded
  | loop (label : Option String) (isForOf : Bool)
  | round (disposes : Bool)

namespace Enclosure

/-- The label of a loop. -/
def label? : Enclosure → Option (Option String)
  | loop label _ => some label
  | _ => none

/-- The depth outside of a region, inside of which it is `d`. -/
def outside (d : Nat) : Enclosure → Nat
  | loop _ isForOf => if isForOf then d - 1 else d
  | _ => d

/-- How many scopes are entered for a region. -/
def scopes : Enclosure → Nat
  | block => 1
  | round disposes => if disposes then 1 else 0
  | _ => 0

/-- The labels of the loops among regions. -/
abbrev labels (xs : List Enclosure) : List (Option String) := xs.filterMap label?

/-- The depth outside of all regions. -/
def outsideAll (d : Nat) (xs : List Enclosure) : Nat := xs.foldl outside d

/-- How many scopes are entered for all regions. -/
def entered : List Enclosure → Nat
  | [] => 0
  | x :: xs => x.scopes + entered xs

theorem entered_append (xs ys : List Enclosure) : entered (xs ++ ys) = entered xs + entered ys := by
  induction xs with
  | nil => exact (Nat.zero_add _).symm
  | cons x xs ih => rw [List.cons_append, entered, entered, ih, Nat.add_assoc]

end Enclosure

namespace Region

/-- A region is what it is said to be, where the depth inside of it is `d`. -/
inductive Is (k : FunctionKind) (d : Nat) : Region → Enclosure → Prop
  | block {s : DisposalScope} {hs : PendingHandlers} (allowed : s.Allowed k)
    (region : s.region = some ⟨.body hs, d⟩) : Is k d (.disposable s) .block
  | guarded : Is k d .tryCatch .guarded
  | loop {l : LoopRegion} (depth : d = l.exitDepth + if l.isForOf then 1 else 0) :
    Is k d (.loop l) (.loop l.label l.isForOf)
  | plainRound : Is k d (.iteration none) (.round false)
  | round {s : DisposalScope} (allowed : s.Allowed k) : Is k d (.iteration (some s)) (.round true)

/-- Regions are what they are said to be, the innermost first. -/
inductive Fits (k : FunctionKind) : (d : Nat) → List Region → List Enclosure → Prop
  | nil {d : Nat} : Fits k d [] []
  | cons {d : Nat} {r : Region} {rs : List Region} {x : Enclosure} {xs : List Enclosure}
    (head : r.Is k d x) (tail : Fits k (x.outside d) rs xs) : Fits k d (r :: rs) (x :: xs)

variable {V : Prop} {k : FunctionKind} {n d : Nat} {e : Emitter} {r : Region} {rs rs' : List Region}
  {x : Enclosure} {xs xs' : List Enclosure} {l : LoopRegion}

open Enclosure (outsideAll entered)

theorem Fits.append : ∀ {rs : List Region} {xs : List Enclosure} {d : Nat}, Fits k d rs xs →
    Fits k (outsideAll d xs) rs' xs' → Fits k d (rs ++ rs') (xs ++ xs')
  | _, _, _, .nil, h' => h'
  | _, _, _, .cons hr hrs, h' => .cons hr (append hrs h')

/-- What the innermost regions are, and those around them. -/
theorem Fits.split : ∀ {rs : List Region} {xs : List Enclosure} {d : Nat}, Fits k d (rs ++ rs') xs →
    ∃ ys zs, xs = ys ++ zs ∧ Fits k d rs ys ∧ Fits k (outsideAll d ys) rs' zs
  | [], xs, _, h => ⟨[], xs, rfl, .nil, h⟩
  | _ :: _, _, _, .cons hr hrs => by
    obtain ⟨ys, zs, rfl, hys, hzs⟩ := split hrs
    exact ⟨_ :: ys, zs, rfl, .cons hr hys, hzs⟩

/-- A loop that is among the regions is one of the loops around the statement. -/
theorem Fits.exists_loop : ∀ {rs : List Region} {xs : List Enclosure} {d : Nat}, Fits k d rs xs →
    ∀ {label : Option String}, label ∈ Enclosure.labels xs → ∃ l, loop l ∈ rs ∧ l.label = label
  | _, _, _, .cons hr hrs, label, hlabel => by
    have hrest (h : label ∈ Enclosure.labels _) := exists_loop hrs h
    cases hr with
    | @loop l _ =>
      rcases List.mem_cons.mp hlabel with rfl | hlabel
      · exact ⟨l, List.mem_cons_self, rfl⟩
      · obtain ⟨l, hl, heq⟩ := hrest hlabel
        exact ⟨l, List.mem_cons_of_mem _ hl, heq⟩
    | block _ _ | guarded | plainRound | round _ =>
      obtain ⟨l, hl, heq⟩ := hrest hlabel
      exact ⟨l, List.mem_cons_of_mem _ hl, heq⟩

/-! ### Exits -/

/-- A region is left at the depth outside of it, and stays what it is. -/
theorem exit_ends (h : e.At k n d) (hr : r.Is k d x) (hn : x.scopes ≤ n) :
    Ends V r.exit e fun r' e' => r'.Is k d x ∧ e'.At k n (x.outside d) := by
  cases hr with
  | @block s hs allowed region =>
    refine (ScopeEmit.on_ends (Q := fun s' e' => s.Alike s' ∧ e'.At k n d)
      (DisposalScope.leave_ends h allowed (.refl s))).bind ?_
    rintro _ e₁ ⟨⟨slots, rfl⟩, h₁⟩
    refine (Emitter.emit_ends h₁ (Nat.zero_le _) rfl).bind fun _ _ h₂ => ?_
    exact (Emitter.leaveScope_ends h₂ hn).bind fun _ _ h₃ => ⟨.block allowed region, h₃⟩
  | guarded =>
    exact (Emitter.emit_ends h (Nat.zero_le _) rfl).bind fun _ _ h₁ => ⟨.guarded, h₁⟩
  | @loop l depth =>
    unfold Region.exit
    refine .bind_if (Q := fun e' => e'.At k n ((Enclosure.loop l.label l.isForOf).outside d))
      (fun hforOf => ?_) (fun hwhile => ?_) fun _ h₁ => ⟨.loop depth, h₁⟩
    · rw [hforOf] at depth ⊢
      exact Emitter.emit_ends h (by rw [depth]; exact Nat.le_add_left _ _) rfl
    · rw [hwhile]
      exact h
  | plainRound =>
    exact (Emitter.emit_ends h (Nat.zero_le _) rfl).bind fun _ _ h₁ => ⟨.plainRound, h₁⟩
  | @round s allowed =>
    refine (ScopeEmit.on_ends (Q := fun s' e' => s.Alike s' ∧ e'.At k n d)
      (DisposalScope.leave_ends h allowed (.refl s))).bind ?_
    rintro _ e₁ ⟨⟨slots, rfl⟩, h₁⟩
    refine (Emitter.leaveScope_ends h₁ hn).bind fun _ _ h₂ => ?_
    exact (Emitter.emit_ends h₂ (Nat.zero_le _) rfl).bind fun _ _ h₃ => ⟨.round allowed, h₃⟩

theorem exitAll_ends : ∀ {rs : List Region} {xs : List Enclosure} {d : Nat} {e : Emitter},
    e.At k n d → Fits k d rs xs → entered xs ≤ n →
    Ends V (exitAll rs) e fun rs' e' => Fits k d rs' xs ∧ e'.At k n (outsideAll d xs)
  | _, _, _, _, h, .nil, _ => ⟨.nil, h⟩
  | _, _, _, _, h, .cons hr hrs, hn => by
    rw [entered] at hn
    refine (exit_ends h hr (Nat.le_trans (Nat.le_add_right _ _) hn)).bind fun r' e₁ ⟨hr', h₁⟩ => ?_
    refine (exitAll_ends h₁ hrs (Nat.le_trans (Nat.le_add_left _ _) hn)).bind fun rs' e₂ ⟨hrs', h₂⟩ => ?_
    exact ⟨.cons hr' hrs', h₂⟩

/-- A jump finds a loop if there is one that it means. -/
theorem splitAtLoop_ne_none {label : Option String} (h : Fits k d rs xs)
    (hjumps : JumpsTo (Enclosure.labels xs) label) : splitAtLoop label rs ≠ none := by
  obtain ⟨label', hlabel, hnames⟩ := hjumps
  obtain ⟨l, hl, rfl⟩ := h.exists_loop hlabel
  clear h hlabel
  intro hnone
  induction rs with
  | nil => cases hl
  | cons r rs ih =>
    have hrest (h : splitAtLoop label rs = none) : loop l ∉ rs := fun hl => ih hl h
    cases r with
    | loop l' =>
      rw [splitAtLoop] at hnone
      simp only at hnone
      split at hnone
      · cases hnone
      · rename_i hother
        rcases List.mem_cons.mp hl with heq | hl
        · cases heq
          exact hother (by simpa [Exit.names] using hnames)
        · exact hrest (Option.map_eq_none_iff.mp hnone) hl
    | disposable _ | tryCatch | iteration _ =>
      rcases List.mem_cons.mp hl with heq | hl
      · cases heq
      · exact hrest (Option.map_eq_none_iff.mp hnone) hl

end Region

/-! ### Functions being lowered -/

open Enclosure (labels entered outsideAll)

/-- A function is lowered inside of these regions, at depth `d`, where these names are bound
in the innermost scope and in those around it. -/
structure Lowering.Inside (k : FunctionKind) (xs : List Enclosure) (around : List Scope)
    (names : List String) (d : Nat) (S : Lowering) : Prop where
  fits : Region.Fits k d S.regions xs
  around_eq : S.scopes.tail = around
  keys_eq : S.names.keys = names
  nonempty : S.scopes ≠ []

variable {V : Prop} {k : FunctionKind} {xs : List Enclosure} {x : Enclosure} {around : List Scope}
  {names names' : List String} {n d d' : Nat} {S : Lowering}

namespace Lowering.Inside

theorem enter {r : Region} (h : S.Inside k xs around names d) (hr : r.Is k d' x) (hd : x.outside d' = d) :
    Lowering.Inside k (x :: xs) around names d' { S with regions := r :: S.regions } :=
  ⟨.cons hr (hd ▸ h.fits), h.around_eq, h.keys_eq, h.nonempty⟩

/-- Names that are bound from now on go to a scope of their own. -/
theorem opened (h : S.Inside k xs around names d) :
    Lowering.Inside k xs S.scopes names d { S with scopes := [] :: S.scopes } :=
  ⟨h.fits, rfl, h.keys_eq, nofun⟩

end Lowering.Inside

namespace Lower

variable {α : Type}

theorem lift_ends {m : Emit α} {Q : α → Emitter → Prop} (hS : S.Inside k xs around names d)
    (h : Ends V m S.emitter Q) :
    Ends V (liftM m : Lower α) S fun a S' => S'.Inside k xs around names d ∧ Q a S'.emitter := by
  show Ends V (Lower.lift m) S _
  unfold Ends at h ⊢
  unfold Lower.lift
  simp only
  cases hm : m S.emitter with
  | ok a e' =>
    rw [hm] at h
    exact ⟨⟨hS.fits, hS.around_eq, hS.keys_eq, hS.nonempty⟩, h⟩
  | error x e' =>
    rw [hm] at h
    exact h

theorem emit_ends {i : Instr} (hS : S.Inside k xs around names d) (h : S.emitter.At k n d')
    (hpops : i.stackEffect.pops ≤ d') {d'' : Nat}
    (hd'' : d' - i.stackEffect.pops + i.stackEffect.pushes = d'') :
    Ends V (liftM (Emitter.emit i) : Lower Unit) S fun _ S' =>
      S'.Inside k xs around names d ∧ S'.emitter.At k n d'' :=
  lift_ends hS (Emitter.emit_ends h hpops hd'')

/-- A name that is bound is found. -/
theorem lookup_ends {name : String} (hS : S.Inside k xs around names d) (hname : V → name ∈ names) :
    Ends V (lookup name) S fun _ S' => S' = S := by
  refine .reading rfl ?_
  cases hslot : S.scopes.flatten.lookup name with
  | some slot => exact .pure rfl
  | none =>
    refine .fault trivial fun hV => ?_
    have hmem := hname hV
    rw [← hS.keys_eq] at hmem
    obtain ⟨b, hb, rfl⟩ := List.mem_map.mp hmem
    exact absurd (beq_self_eq_true b.1) (by simpa using List.lookup_eq_none_iff.mp hslot b hb)

/-- A new name is bound in the innermost scope. -/
theorem declare_ends {name : String} (hS : S.Inside k xs around names d) (h : S.emitter.At k n d') :
    Ends V (declare name) S fun _ S' =>
      S'.Inside k xs around (name :: names) d ∧ S'.emitter.At k n d' := by
  refine (lift_ends hS (Emitter.allocLocal_ends h)).bind fun slot S₁ ⟨hS₁, h₁⟩ => ?_
  obtain ⟨e₁, scopes, regions⟩ := S₁
  obtain ⟨fits, around_eq, keys_eq, nonempty⟩ := hS₁
  match scopes, nonempty with
  | scope :: scopes, _ => exact ⟨⟨fits, around_eq, congrArg (name :: ·) keys_eq, nofun⟩, h₁⟩

theorem declareAndStore_ends {name : String} (hS : S.Inside k xs around names d)
    (h : S.emitter.At k n (d' + 1)) :
    Ends V (declareAndStore name) S fun _ S' =>
      S'.Inside k xs around (name :: names) d ∧ S'.emitter.At k n d' :=
  (declare_ends hS h).bind fun _ _ ⟨hS₁, h₁⟩ => emit_ends hS₁ h₁ (Nat.le_add_left _ _) rfl

/-- A value is registered with the block around it. -/
theorem registerUsing_ends {hint : Hint} (hS : S.Inside k (.block :: xs) around names d)
    (h : S.emitter.At k n (d' + 1)) (hkind : V → hint = .async → k.isAsync) :
    Ends V (registerUsing hint) S fun _ S' =>
      S'.Inside k (.block :: xs) around names d ∧ S'.emitter.At k n (d' + 1) := by
  obtain ⟨e, scopes, regions⟩ := S
  obtain ⟨fits, around_eq, keys_eq, nonempty⟩ := hS
  cases fits with
  | cons head tail =>
    cases head with
    | block allowed region =>
      refine .reading rfl ?_
      have hregister := ScopeEmit.on_ends
        (Q := fun s' e' => s'.Allowed k ∧ s'.region = _ ∧ e'.At k n (d' + 1))
        (DisposalScope.register_ends (V := V) h allowed hkind)
      refine (lift_ends ⟨.cons (.block allowed region) tail, around_eq, keys_eq, nonempty⟩
        hregister).bind fun s' S₁ ⟨hS₁, allowed', region', h₁⟩ => ?_
      exact ⟨⟨.cons (.block allowed' (region'.trans region)) tail, hS₁.around_eq, hS₁.keys_eq,
        hS₁.nonempty⟩, h₁⟩

/-- The innermost region ends. -/
theorem popRegion_ends (hS : S.Inside k (x :: xs) around names d) (h : S.emitter.At k n d') :
    Ends V popRegion S fun r S' => (∃ r', r = some r' ∧ r'.Is k d x) ∧
      S'.Inside k xs around names (x.outside d) ∧ S'.emitter.At k n d' := by
  obtain ⟨e, scopes, regions⟩ := S
  obtain ⟨fits, around_eq, keys_eq, nonempty⟩ := hS
  cases fits with
  | cons head tail => exact ⟨⟨_, rfl, head⟩, ⟨tail, around_eq, keys_eq, nonempty⟩, h⟩

/-- The innermost scope ends, and the names are those that were bound when it started. -/
theorem popScope_ends {S₀ : Lowering} (hS₀ : S₀.Inside k xs around names d)
    (hS : S.Inside k xs S₀.scopes names' d) (h : S.emitter.At k n d') :
    Ends V popScope S fun _ S' => S'.Inside k xs around names d ∧ S'.emitter.At k n d' := by
  have heq : { S with scopes := S.scopes.tail }.scopes = S₀.scopes := hS.around_eq
  refine ⟨⟨hS.fits, ?_, ?_, ?_⟩, h⟩
  · rw [heq]
    exact hS₀.around_eq
  · rw [Lowering.names, heq]
    exact hS₀.keys_eq
  · rw [heq]
    exact hS₀.nonempty

theorem patchBreaks_ends : ∀ {js : List PendingJump} {e : Emitter}, e.At k n d →
    Ends V (patchBreaks js) e fun _ => Emitter.At k n d
  | [], _, h => h
  | _ :: _, _, h => (Emitter.patchHere_ends h).bind fun _ _ h₁ => patchBreaks_ends h₁

theorem closeLoop_ends {r : Region} {label : Option String} {isForOf : Bool} {d₀ : Nat}
    (hS : S.Inside k xs around names d) (h : S.emitter.At k n d')
    (hr : r.Is k d₀ (.loop label isForOf)) :
    Ends V (closeLoop (some r)) S fun _ S' =>
      S'.Inside k xs around names d ∧ S'.emitter.At k n d' := by
  cases hr
  exact lift_ends hS (patchBreaks_ends h)

/-! ### Jumps -/

/-- The loop that a jump means, with the regions inside and around it. -/
theorem findLoop_ends {label : Option String} {x : CompileError}
    (hS : S.Inside k xs around names d) (hx : x.IsFault) (hjumps : V → JumpsTo (labels xs) label) :
    Ends V (findLoop label x) S fun found S' =>
      S' = S ∧ S.regions = found.1 ++ .loop found.2.1 :: found.2.2 := by
  refine .reading rfl ?_
  cases hsplit : Region.splitAtLoop label S.regions with
  | some found => exact ⟨rfl, (Region.splitAtLoop_eq hsplit).1⟩
  | none =>
    have hnot : ¬ V := fun hV => Region.splitAtLoop_ne_none hS.fits (hjumps hV) hsplit
    cases label with
    | none => exact .fault hx hnot
    | some label => exact .fault trivial hnot

/-- A return leaves all regions, and the code behind it starts at the depth before it. -/
theorem retTop_ends (hS : S.Inside k xs around names d) (h : S.emitter.At k (entered xs) (d + 1)) :
    Ends V retTop S fun _ S' => S'.Inside k xs around names d ∧ S'.emitter.At k (entered xs) d := by
  refine (emit_ends hS h (Nat.le_add_left _ _) rfl).bind fun _ S₁ ⟨hS₁, h₁⟩ => ?_
  refine .reading rfl (.reading rfl ?_)
  refine (lift_ends hS₁ (Region.exitAll_ends h₁ hS₁.fits (Nat.le_refl _))).bind ?_
  rintro regions S₂ ⟨hS₂, fits, h₂⟩
  have hS₃ : Lowering.Inside k xs around names d { S₂ with regions } :=
    ⟨fits, hS₂.around_eq, hS₂.keys_eq, hS₂.nonempty⟩
  refine .modifying ((emit_ends hS₃ h₂ (Nat.zero_le _) rfl).bind fun _ S₄ ⟨hS₄, h₄⟩ => ?_)
  rw [h₁.depth_eq]
  exact lift_ends hS₄ (Emitter.setDepth_ends h₄)

theorem continueLoop_ends {label : Option String} (hS : S.Inside k xs around names d)
    (h : S.emitter.At k (entered xs) d) (hjumps : V → JumpsTo (labels xs) label) :
    Ends V (continueLoop label) S fun _ S' =>
      S'.Inside k xs around names d ∧ S'.emitter.At k (entered xs) d := by
  refine (findLoop_ends (x := .invalidContinue) hS trivial hjumps).bind ?_
  rintro ⟨inner, l, outer⟩ _ ⟨rfl, hregions⟩
  have fits := hS.fits
  rw [hregions] at fits
  obtain ⟨ys, zs, rfl, hys, hzs⟩ := fits.split
  have hn : entered ys ≤ entered (ys ++ zs) := by
    rw [Enclosure.entered_append]
    exact Nat.le_add_right _ _
  refine .reading rfl ((lift_ends hS (Region.exitAll_ends h hys hn)).bind ?_)
  rintro inner' S₁ ⟨hS₁, hys', h₁⟩
  refine (lift_ends hS₁ (Emitter.jumpTo_ends h₁)).bind fun _ S₂ ⟨hS₂, h₂⟩ => ?_
  rw [h.depth_eq]
  exact .modifying (lift_ends ⟨hys'.append hzs, hS₂.around_eq, hS₂.keys_eq, hS₂.nonempty⟩ (Emitter.setDepth_ends h₂))

/-- A `break` leaves no values behind. -/
theorem breakLoop_ends {label : Option String} (hS : S.Inside k xs around names d)
    (h : S.emitter.At k (entered xs) d) (hjumps : V → JumpsTo (labels xs) label) :
    Ends V (breakLoop label) S fun _ S' =>
      S'.Inside k xs around names d ∧ S'.emitter.At k (entered xs) d := by
  refine (findLoop_ends (x := .invalidBreak) hS trivial hjumps).bind ?_
  rintro ⟨inner, l, outer⟩ _ ⟨rfl, hregions⟩
  have fits := hS.fits
  rw [hregions] at fits
  obtain ⟨ys, zs, rfl, hys, hzs⟩ := fits.split
  have hn : entered ys ≤ entered (ys ++ zs) := by
    rw [Enclosure.entered_append]
    exact Nat.le_add_right _ _
  refine .reading rfl ((lift_ends hS (Region.exitAll_ends h hys hn)).bind ?_)
  rintro inner' S₁ ⟨hS₁, hys', h₁⟩
  -- The loop stays what it is when it gains a jump that leads behind it.
  have ⟨depth, hzs'⟩ : outsideAll d ys = l.exitDepth + (if l.isForOf then 1 else 0) ∧
      ∀ breaks, Region.Fits k (outsideAll d ys) (.loop { l with breaks } :: outer) zs := by
    cases hzs with
    | cons head tail =>
      cases head with
      | loop depth => exact ⟨depth, fun _ => .cons (.loop depth) tail⟩
  refine .bind_if (Q := fun S₂ => S₂.Inside k (ys ++ zs) around names d ∧
    S₂.emitter.At k (entered (ys ++ zs)) l.exitDepth) (fun hforOf => ?_) (fun hwhile => ?_)
    fun S₂ ⟨hS₂, h₂⟩ => ?_
  · rw [hforOf] at depth
    refine emit_ends hS₁ h₁ (by rw [depth]; exact Nat.le_add_left _ _) ?_
    rw [depth]
    rfl
  · rw [hwhile] at depth
    rw [depth] at h₁
    exact ⟨hS₁, h₁⟩
  · refine .reading rfl (.cond (fun hne => absurd h₂.depth_eq hne) fun _ => ?_)
    refine (lift_ends hS₂ (Emitter.jump_ends h₂ (Nat.zero_le _) rfl)).bind fun j S₃ ⟨hS₃, h₃⟩ => ?_
    rw [h.depth_eq]
    exact .modifying (lift_ends ⟨hys'.append (hzs' _), hS₃.around_eq, hS₃.keys_eq, hS₃.nonempty⟩
      (Emitter.setDepth_ends h₃))

end Lower

/-! ### Expressions -/

mutual

/-- An expression that is valid is lowered. -/
theorem Expr.lower_ends : ∀ {e : Expr} {V : Prop} {S : Lowering} {d' : Nat},
    S.Inside k xs around names d → S.emitter.At k n d' → (V → e.Valid k names) →
    Ends V e.lower S fun _ S' => S'.Inside k xs around names d ∧ S'.emitter.At k n (d' + 1)
  | .undefined, _, _, _, hS, h, _ | .null, _, _, _, hS, h, _ | .int _, _, _, _, hS, h, _ =>
    Lower.emit_ends hS h (Nat.zero_le _) rfl
  | .bool b, _, _, _, hS, h, _ => by
    cases b <;> exact Lower.emit_ends hS h (Nat.zero_le _) rfl
  | .str _, _, _, _, hS, h, _ | .global _, _, _, _, hS, h, _ =>
    Lower.lift_ends hS ((Emitter.intern_ends h).bind fun _ _ h₁ =>
      Emitter.emit_ends h₁ (Nat.zero_le _) rfl)
  | .binding name, _, _, _, hS, h, hV => by
    refine (Lower.lookup_ends hS hV).bind ?_
    rintro slot _ rfl
    exact Lower.emit_ends hS h (Nat.zero_le _) rfl
  | .call callee args, V, _, d', hS, h, hV => by
    unfold Expr.lower
    refine .cond (fun hmany => .fault trivial fun hv => absurd (hV hv).1 (Nat.not_le.mpr hmany))
      fun hfew => ?_
    refine (Expr.lower_ends hS h fun hv => (hV hv).2.1).bind fun _ S₁ ⟨hS₁, h₁⟩ => ?_
    refine (Lower.emit_ends hS₁ h₁ (Nat.zero_le _) rfl).bind fun _ S₂ ⟨hS₂, h₂⟩ => ?_
    refine (Expr.lowerAll_ends hS₂ h₂ fun hv => (hV hv).2.2).bind fun _ S₃ ⟨hS₃, h₃⟩ => ?_
    have hcount : (UInt8.ofNat args.length).toNat = args.length := by
      rw [UInt8.toNat_ofNat', Nat.mod_eq_of_lt (by omega)]
    refine Lower.emit_ends hS₃ h₃ ?_ ?_
    · rw [Instr.stackEffect_call, hcount]
      show args.length + 2 ≤ d' + 2 + args.length
      omega
    · rw [Instr.stackEffect_call, hcount]
      show d' + 2 + args.length - (args.length + 2) + 1 = d' + 1
      omega
  | .await _, _, _, _, hS, h, hV =>
    (Expr.lower_ends hS h fun hv => (hV hv).2).bind fun _ _ ⟨hS₁, h₁⟩ =>
      Lower.lift_ends hS₁ (Emitter.emitAwait_ends h₁ fun hv => (hV hv).1)
  | .yield _, _, _, _, hS, h, hV =>
    (Expr.lower_ends hS h fun hv => (hV hv).2).bind fun _ _ ⟨hS₁, h₁⟩ =>
      Lower.lift_ends hS₁ (Emitter.emitYield_ends h₁ fun hv => (hV hv).1)

theorem Expr.lowerAll_ends : ∀ {es : List Expr} {V : Prop} {S : Lowering} {d' : Nat},
    S.Inside k xs around names d → S.emitter.At k n d' → (V → Expr.ValidAll k names es) →
    Ends V (Expr.lowerAll es) S fun _ S' =>
      S'.Inside k xs around names d ∧ S'.emitter.At k n (d' + es.length)
  | [], _, _, _, hS, h, _ => ⟨hS, h⟩
  | e :: es, _, _, d', hS, h, hV => by
    refine (Expr.lower_ends hS h fun hv => (hV hv).1).bind fun _ S₁ ⟨hS₁, h₁⟩ => ?_
    refine (Expr.lowerAll_ends hS₁ h₁ fun hv => (hV hv).2).mono fun _ S₂ ⟨hS₂, h₂⟩ => ⟨hS₂, ?_⟩
    rwa [List.length_cons, Nat.add_comm es.length, ← Nat.add_assoc]

end

/-! ### Blocks -/

/-- Statements that declare resources stand in a block that disposes them. -/
def Housed (ss : List Stmt) (xs : List Enclosure) : Prop :=
  ss.any Stmt.isUsing = true → ∃ ys, xs = .block :: ys

/-- Lowering statements ends at the depth that it starts at, with the names that they declare,
wherever the names and the loops around them are those given. -/
def Stmt.EndsIn (V : Prop) (k : FunctionKind) (loops : List (Option String)) (names : List String)
    (d : Nat) (ss : List Stmt) : Prop :=
  ∀ ⦃xs around S⦄, S.Inside k xs around names d → S.emitter.At k (entered xs) d → labels xs = loops →
    Housed ss xs → Ends V (Stmt.lowerAll ss) S fun _ S' =>
      S'.Inside k xs around (Stmt.namesAll ss names) d ∧ S'.emitter.At k (entered xs) d

/-- A block ends with the names and in the regions that it started with. -/
theorem Lower.inBlock_ends {ss : List Stmt} (hS : S.Inside k xs around names d)
    (h : S.emitter.At k (entered xs) d) (hss : Stmt.EndsIn V k (labels xs) names d ss) :
    Ends V (inBlock (ss.any Stmt.isUsing) (Stmt.lowerAll ss)) S fun _ S' =>
      S'.Inside k xs around names d ∧ S'.emitter.At k (entered xs) d := by
  refine .modifying (.cond (fun husing => ?_) fun hnot => ?_)
  · refine (lift_ends hS.opened (ScopeEmit.on_ends (Q := fun s e =>
      (∃ hs, s = ⟨false, some ⟨.body hs, d⟩, none⟩) ∧ e.At k (entered xs + 1) d)
      (DisposalScope.openBody_ends h))).bind ?_
    rintro _ S₁ ⟨hS₁, ⟨hs, rfl⟩, h₁⟩
    have hregion : (Region.disposable ⟨false, some ⟨.body hs, d⟩, none⟩).Is k d .block :=
      .block nofun rfl
    have hn : entered xs + 1 = entered (.block :: xs) := Nat.add_comm _ _
    refine .modifying ((hss (hS₁.enter hregion rfl) (hn ▸ h₁) rfl fun _ => ⟨xs, rfl⟩).bind ?_)
    intro _ S₂ ⟨hS₂, h₂⟩
    refine (popRegion_ends hS₂ h₂).bind ?_
    rintro _ S₃ ⟨⟨r, rfl, hr⟩, hS₃, h₃⟩
    cases hr with
    | @block s hs allowed region =>
      have h₃ : S₃.emitter.At k (entered xs + 1) d := hn ▸ h₃
      refine (lift_ends hS₃ (ScopeEmit.on_ends (Q := fun _ e => e.At k (entered xs) d)
        (DisposalScope.close_ends h₃ allowed region))).bind fun _ S₄ ⟨hS₄, h₄⟩ => ?_
      exact popScope_ends hS hS₄ h₄
  · refine (hss hS.opened h rfl fun husing => absurd husing hnot).bind fun _ S₁ ⟨hS₁, h₁⟩ => ?_
    exact popScope_ends hS hS₁ h₁

/-! ### Rounds of a loop -/

namespace Lower

/-- Open the scope of a round, in which its value is registered. -/
theorem openIteration_ends {slot : UInt16} {hint : Hint} (hS : S.Inside k xs around names d)
    (h : S.emitter.At k n d') (hkind : V → hint = .async → k.isAsync) :
    Ends V (openIteration slot hint) S fun s S' =>
      s.Allowed k ∧ S'.Inside k xs around names d ∧ S'.emitter.At k (n + 1) d' := by
  refine (lift_ends hS (Emitter.enterScope_ends h)).bind fun _ _ ⟨hS₁, h₁⟩ => ?_
  refine (emit_ends hS₁ h₁ (Nat.zero_le _) rfl).bind fun _ _ ⟨hS₂, h₂⟩ => ?_
  refine (lift_ends hS₂ (ScopeEmit.on_ends (Q := fun s e => s.Allowed k ∧ e.At k (n + 1) (d' + 1))
    ((DisposalScope.register_ends h₂ (fun h => absurd h Bool.false_ne_true) hkind).mono
      fun _ _ h => ⟨h.1, h.2.2⟩))).bind
    fun s _ ⟨hS₃, hs, h₃⟩ => ?_
  exact (emit_ends hS₃ h₃ (Nat.le_add_left _ _) rfl).bind fun _ _ ⟨hS₄, h₄⟩ => ⟨hs, hS₄, h₄⟩

theorem leaveIteration_ends {s : DisposalScope} (hS : S.Inside k xs around names d)
    (h : S.emitter.At k (n + 1) d') (hs : s.Allowed k) :
    Ends V (leaveIteration s) S fun s' S' =>
      s'.Allowed k ∧ S'.Inside k xs around names d ∧ S'.emitter.At k (n + 1) d' := by
  refine (lift_ends hS (ScopeEmit.on_ends (Q := fun s' e => s.Alike s' ∧ e.At k (n + 1) d')
    (DisposalScope.leave_ends h hs (.refl s)))).bind ?_
  rintro _ S₁ ⟨hS₁, ⟨slots, rfl⟩, h₁⟩
  exact (lift_ends hS₁ (Emitter.leaveScope_ends h₁ (Nat.succ_pos _))).bind
    fun _ _ ⟨hS₂, h₂⟩ => ⟨hs, hS₂, h₂⟩

theorem leaveIterationByThrow_ends {s : DisposalScope} (hS : S.Inside k xs around names d)
    (h : S.emitter.At k (n + 1) (d' + 1)) (hs : s.Allowed k) :
    Ends V (leaveIterationByThrow s) S fun _ S' =>
      S'.Inside k xs around names d ∧ S'.emitter.At k n (d' + 1) :=
  (lift_ends hS (ScopeEmit.on_ends (Q := fun _ e => e.At k (n + 1) (d' + 1))
    (DisposalScope.leaveByThrow_ends h hs))).bind fun _ _ ⟨hS₁, h₁⟩ =>
      lift_ends hS₁ (Emitter.exitScope_ends h₁)

/-- Behind a loop, the names and the regions are those that it started with. -/
theorem endLoop_ends {S₀ : Lowering} {label : Option String} {done : PendingJump}
    (hS₀ : S₀.Inside k xs around names d) (hS : S.Inside k (.loop label true :: xs) S₀.scopes names' (d + 1))
    (h : S.emitter.At k (entered xs) d') :
    Ends V (endLoop done d) S fun _ S' => S'.Inside k xs around names d ∧ S'.emitter.At k (entered xs) d := by
  refine (popRegion_ends hS h).bind ?_
  rintro _ S₁ ⟨⟨r, rfl, hr⟩, hS₁, h₁⟩
  refine (popScope_ends hS₀ hS₁ h₁).bind fun _ _ ⟨hS₂, h₂⟩ => ?_
  refine (lift_ends hS₂ (Emitter.patchHere_ends h₂)).bind fun _ _ ⟨hS₃, h₃⟩ => ?_
  refine (lift_ends hS₃ (Emitter.setDepth_ends h₃)).bind fun _ _ ⟨hS₄, h₄⟩ => ?_
  refine (emit_ends hS₄ h₄ (i := .popN 2) (Nat.le_add_left 2 _) rfl).bind fun _ _ ⟨hS₅, h₅⟩ => ?_
  exact closeLoop_ends hS₅ h₅ hr

theorem closeRounds_ends {S₀ : Lowering} {label : Option String} {head : Nat}
    {done j : PendingJump} (hS₀ : S₀.Inside k xs around names d)
    (hS : S.Inside k (.loop label true :: xs) S₀.scopes names' (d + 1))
    (h : S.emitter.At k (entered xs) (d + 2)) :
    Ends V (closeRounds ⟨.catching j, d + 1⟩ head done d) S fun _ S' =>
      S'.Inside k xs around names d ∧ S'.emitter.At k (entered xs) d := by
  refine (lift_ends hS (Emitter.emitAll_ends h (Nat.le_add_left 2 _) rfl)).bind fun _ _ ⟨hS₁, h₁⟩ => ?_
  refine (lift_ends hS₁ (TryRegion.close_ends_catch h₁)).bind fun _ _ ⟨hS₂, h₂⟩ => ?_
  refine (lift_ends hS₂ (Emitter.jumpTo_ends h₂)).bind fun _ _ ⟨hS₃, h₃⟩ => ?_
  exact endLoop_ends hS₀ hS₃ h₃

theorem endRound_ends {S₀ : Lowering} {label : Option String} {disposes : Bool} {head : Nat}
    {done : PendingJump} {hs : PendingHandlers} (hS₀ : S₀.Inside k xs around names d)
    (hS : S.Inside k (.round disposes :: .loop label true :: xs) S₀.scopes names' (d + 1))
    (h : S.emitter.At k (entered (.round disposes :: .loop label true :: xs)) (d + 1)) :
    Ends V (endRound ⟨.body hs, d + 1⟩ head done d) S fun _ S' =>
      S'.Inside k xs around names d ∧ S'.emitter.At k (entered xs) d := by
  refine (popRegion_ends hS h).bind ?_
  rintro _ S₁ ⟨⟨r, rfl, hr⟩, hS₁, h₁⟩
  cases hr with
  | plainRound =>
    have h₁ : S₁.emitter.At k (entered xs) (d + 1) := by
      simpa [entered, Enclosure.scopes] using h₁
    refine .reading rfl (.reading rfl ((lift_ends hS₁ (TryRegion.onCatch_ends h₁)).bind ?_))
    rintro _ S₂ ⟨hS₂, h₂, j, rfl⟩
    exact closeRounds_ends hS₀ hS₂ h₂
  | @round s allowed =>
    have h₁ : S₁.emitter.At k (entered xs + 1) (d + 1) := by
      simpa [entered, Enclosure.scopes, Nat.add_comm] using h₁
    refine .reading rfl (Ends.bind (Q := fun s? S' => (∃ s', s? = some s' ∧ s'.Allowed k) ∧
      S'.Inside k (.loop label true :: xs) S₀.scopes names' (d + 1) ∧
        S'.emitter.At k (entered xs + 1) (d + 1)) ?_ ?_)
    · exact (leaveIteration_ends hS₁ h₁ allowed).bind fun s' _ ⟨allowed', hS₂, h₂⟩ =>
        ⟨⟨s', rfl, allowed'⟩, hS₂, h₂⟩
    · rintro _ S₂ ⟨⟨s', rfl, allowed'⟩, hS₂, h₂⟩
      refine (lift_ends hS₂ (TryRegion.onCatch_ends h₂)).bind ?_
      rintro _ S₃ ⟨hS₃, h₃, j, rfl⟩
      refine (leaveIterationByThrow_ends hS₃ h₃ allowed').bind fun _ _ ⟨hS₄, h₄⟩ => ?_
      exact closeRounds_ends hS₀ hS₄ h₄

/-- A round is a region of its own, in which its value is registered if the binding has a
hint; behind it, the loop ends with the names and in the regions that it started with. -/
theorem rounds_ends {S₀ : Lowering} {label : Option String} {slot : UInt16} {hint : Option Hint}
    {head : Nat} {done : PendingJump} {hs : PendingHandlers} {ss : List Stmt}
    (hS₀ : S₀.Inside k xs around names d)
    (hS : S.Inside k (.loop label true :: xs) S₀.scopes names' (d + 1))
    (h : S.emitter.At k (entered xs) (d + 1)) (hkind : V → hint = some .async → k.isAsync)
    (hss : Stmt.EndsIn V k (label :: labels xs) names' (d + 1) ss) :
    Ends V (rounds ⟨.body hs, d + 1⟩ slot hint (ss.any Stmt.isUsing) (Stmt.lowerAll ss) head done d) S
      fun _ S' => S'.Inside k xs around names d ∧ S'.emitter.At k (entered xs) d := by
  have hround {disposes : Bool} {S₁ : Lowering}
      (hS₁ : S₁.Inside k (.round disposes :: .loop label true :: xs) S₀.scopes names' (d + 1))
      (h₁ : S₁.emitter.At k (entered (.round disposes :: .loop label true :: xs)) (d + 1)) :
      Ends V (do
        inBlock (ss.any Stmt.isUsing) (Stmt.lowerAll ss)
        endRound ⟨.body hs, d + 1⟩ head done d) S₁ fun _ S' =>
          S'.Inside k xs around names d ∧ S'.emitter.At k (entered xs) d :=
    (inBlock_ends hS₁ h₁ hss).bind fun _ _ ⟨hS₂, h₂⟩ => endRound_ends hS₀ hS₂ h₂
  cases hint with
  | none =>
    have hn : entered xs = entered (.round false :: .loop label true :: xs) := by
      simp [entered, Enclosure.scopes]
    exact .modifying (hround (hS.enter .plainRound rfl) (hn ▸ h))
  | some hint =>
    have hn : entered xs + 1 = entered (.round true :: .loop label true :: xs) := by
      simp [entered, Enclosure.scopes, Nat.add_comm]
    refine (openIteration_ends hS h fun hv heq => hkind hv (congrArg some heq)).bind
      fun s S₁ ⟨allowed, hS₁, h₁⟩ => ?_
    exact .modifying (hround (hS₁.enter (.round allowed) rfl) (hn ▸ h₁))

/-- A handler finds the exception on the stack, and takes it from there. -/
theorem handle_ends {j : PendingJump} {param : Option String} {ss : List Stmt}
    (hS : S.Inside k xs around names d) (h : S.emitter.At k (entered xs) (d + 1))
    (hss : Stmt.EndsIn V k (labels xs) (param.toList ++ names) d ss) :
    Ends V (handle ⟨.catching j, d⟩ param (ss.any Stmt.isUsing) (Stmt.lowerAll ss)) S fun _ S' =>
      S'.Inside k xs around names d ∧ S'.emitter.At k (entered xs) d := by
  have hcaught {S₁ : Lowering} (hS₁ : S₁.Inside k xs S.scopes (param.toList ++ names) d)
      (h₁ : S₁.emitter.At k (entered xs) d) : Ends V (do
        inBlock (ss.any Stmt.isUsing) (Stmt.lowerAll ss)
        popScope
        let _ ← TryRegion.close ⟨.catching j, d⟩
        pure ()) S₁ fun _ S' =>
          S'.Inside k xs around names d ∧ S'.emitter.At k (entered xs) d := by
    refine (inBlock_ends hS₁ h₁ hss).bind fun _ S₂ ⟨hS₂, h₂⟩ => ?_
    refine (popScope_ends hS hS₂ h₂).bind fun _ S₃ ⟨hS₃, h₃⟩ => ?_
    exact (lift_ends hS₃ (TryRegion.close_ends_catch h₃)).bind fun _ _ h₄ => h₄
  refine .modifying ?_
  cases param with
  | some name => exact (declareAndStore_ends hS.opened h).bind fun _ _ ⟨hS₁, h₁⟩ => hcaught hS₁ h₁
  | none =>
    exact (emit_ends hS.opened h (Nat.le_add_left _ _) rfl).bind fun _ _ ⟨hS₁, h₁⟩ => hcaught hS₁ h₁

end Lower

/-! ### Statements -/

mutual

/-- A statement that is valid is lowered, and the regions around it stay what they are. -/
theorem Stmt.lower_ends : ∀ {s : Stmt} {V : Prop} {xs : List Enclosure} {around : List Scope}
    {names : List String} {d : Nat} {S : Lowering}, S.Inside k xs around names d →
    S.emitter.At k (entered xs) d → (V → s.Valid k (labels xs) names) → Housed [s] xs →
    Ends V s.lower S fun _ S' =>
      S'.Inside k xs around (s.names names) d ∧ S'.emitter.At k (entered xs) d
  | .expr _, _, _, _, _, _, _, hS, h, hV, _ =>
    (Expr.lower_ends hS h hV).bind fun _ _ ⟨hS₁, h₁⟩ => Lower.emit_ends hS₁ h₁ (Nat.le_add_left _ _) rfl
  | .letIn _ _, _, _, _, _, _, _, hS, h, hV, _ =>
    (Expr.lower_ends hS h hV).bind fun _ _ ⟨hS₁, h₁⟩ => Lower.declareAndStore_ends hS₁ h₁
  | .usingIn _ _ _, _, _, _, _, _, _, hS, h, hV, hhoused => by
    obtain ⟨ys, rfl⟩ := hhoused rfl
    refine (Expr.lower_ends hS h fun hv => (hV hv).2).bind fun _ _ ⟨hS₁, h₁⟩ => ?_
    refine (Lower.registerUsing_ends hS₁ h₁ fun hv => (hV hv).1).bind fun _ _ ⟨hS₂, h₂⟩ => ?_
    exact Lower.declareAndStore_ends hS₂ h₂
  | .block body, V, xs, _, names, d, _, hS, h, hV, _ => by
    have hbody : Stmt.EndsIn V k (labels xs) names d body := fun _ _ _ hS' h' hlabels hhoused =>
      Stmt.lowerAll_ends hS' h' (fun hv => hlabels ▸ hV hv) hhoused
    exact Lower.inBlock_ends hS h hbody
  | .ifElse _ yes no, V, xs, _, names, d, _, hS, h, hV, _ => by
    have hyes : Stmt.EndsIn V k (labels xs) names d yes := fun _ _ _ hS' h' hlabels hhoused =>
      Stmt.lowerAll_ends hS' h' (fun hv => hlabels ▸ (hV hv).2.1) hhoused
    have hno : Stmt.EndsIn V k (labels xs) names d no := fun _ _ _ hS' h' hlabels hhoused =>
      Stmt.lowerAll_ends hS' h' (fun hv => hlabels ▸ (hV hv).2.2) hhoused
    refine (Expr.lower_ends hS h fun hv => (hV hv).1).bind fun _ S₁ ⟨hS₁, h₁⟩ => ?_
    refine (Lower.lift_ends hS₁ (Branch.first_ends h₁)).bind fun b S₂ ⟨hS₂, h₂, hb⟩ => ?_
    refine (Lower.inBlock_ends hS₂ h₂ hyes).bind fun _ S₃ ⟨hS₃, h₃⟩ => ?_
    refine .cond (fun _ => Lower.lift_ends hS₃ (b.close_ends h₃ hb)) fun _ => ?_
    refine (Lower.lift_ends hS₃ (b.second_ends h₃ hb)).bind fun b' S₄ ⟨hS₄, h₄, hb'⟩ => ?_
    refine (Lower.inBlock_ends hS₄ h₄ hno).bind fun _ S₅ ⟨hS₅, h₅⟩ => ?_
    exact Lower.lift_ends hS₅ (b'.close_ends h₅ hb')
  | .whileLoop label _ body, V, xs, _, names, d, S, hS, h, hV, _ => by
    have hbody : Stmt.EndsIn V k (label :: labels xs) names d body := fun _ _ _ hS' h' hlabels hhoused =>
      Stmt.lowerAll_ends hS' h' (fun hv => hlabels ▸ (hV hv).2) hhoused
    refine .reading rfl ?_
    refine (Lower.lift_ends hS (Loop.condition_ends h)).bind fun l S₁ ⟨hS₁, h₁, hl⟩ => ?_
    refine (Expr.lower_ends hS₁ h₁ fun hv => (hV hv).1).bind fun _ S₂ ⟨hS₂, h₂⟩ => ?_
    refine (Lower.lift_ends hS₂ (l.body_ends h₂)).bind fun l' S₃ ⟨hS₃, h₃, hl'⟩ => ?_
    have hregion : (Region.loop ⟨label, false, l'.head, [], S.emitter.depth⟩).Is k d (.loop label false) :=
      .loop h.depth_eq.symm
    have hn : entered xs = entered (.loop label false :: xs) := (Nat.zero_add _).symm
    refine .modifying ((Lower.inBlock_ends (hS₃.enter hregion rfl) (hn ▸ h₃) hbody).bind
      fun _ S₄ ⟨hS₄, h₄⟩ => ?_)
    refine (Lower.popRegion_ends hS₄ h₄).bind ?_
    rintro _ S₅ ⟨⟨r, rfl, hr⟩, hS₅, h₅⟩
    refine (Lower.lift_ends hS₅ (l'.close_ends (hn ▸ h₅) (hl'.trans hl))).bind
      fun _ S₆ ⟨hS₆, h₆⟩ => ?_
    exact Lower.closeLoop_ends hS₆ h₆ hr
  | .forOf label binding hint _ body, V, xs, _, names, d, S, hS, h, hV, _ => by
    have hbody : Stmt.EndsIn V k (label :: labels xs) (binding :: names) (d + 1) body :=
      fun _ _ _ hS' h' hlabels hhoused =>
        Stmt.lowerAll_ends hS' h' (fun hv => hlabels ▸ (hV hv).2.2) hhoused
    refine .reading rfl ?_
    refine (Expr.lower_ends hS h fun hv => (hV hv).2.1).bind fun _ S₁ ⟨hS₁, h₁⟩ => ?_
    refine (Lower.emit_ends (i := .getIterator) hS₁ h₁ (Nat.le_add_left _ _) (rfl : _ = d + 1)).bind
      fun _ S₂ ⟨hS₂, h₂⟩ => .reading rfl ?_
    refine (Lower.emit_ends (i := .iterNext) hS₂ h₂ (Nat.le_add_left _ _) (rfl : _ = d + 3)).bind
      fun _ S₃ ⟨hS₃, h₃⟩ => ?_
    have hpops : d + 3 - (JumpKind.ifTrue.instr 0).stackEffect.pops = d + 2 := rfl
    refine (Lower.lift_ends hS₃ (Emitter.jump_ends h₃ (Nat.le_add_left _ _) hpops)).bind
      fun done S₄ ⟨hS₄, h₄⟩ => .modifying ?_
    refine (Lower.declare_ends hS₄.opened h₄).bind fun slot S₅ ⟨hS₅, h₅⟩ => ?_
    refine (Lower.emit_ends (i := .storeLocal slot) hS₅ h₅ (Nat.le_add_left _ _) (rfl : _ = d + 1)).bind
      fun _ S₆ ⟨hS₆, h₆⟩ => ?_
    rw [h.depth_eq]
    have hregion : (Region.loop ⟨label, true, S₂.emitter.code.size, [], d⟩).Is k (d + 1)
        (.loop label true) := .loop rfl
    refine .modifying ((Lower.lift_ends (hS₆.enter hregion rfl) (TryRegion.start_ends h₆)).bind ?_)
    rintro _ S₇ ⟨hS₇, h₇, hs, rfl⟩
    exact Lower.rounds_ends hS₄ hS₇ h₇ (fun hv => (hV hv).1) hbody
  | .tryCatch body param handler, V, xs, around, names, d, S, hS, h, hV, _ => by
    have hbody : Stmt.EndsIn V k (labels xs) names d body := fun _ _ _ hS' h' hlabels hhoused =>
      Stmt.lowerAll_ends hS' h' (fun hv => hlabels ▸ (hV hv).1) hhoused
    have hhandler : Stmt.EndsIn V k (labels xs) (param.toList ++ names) d handler :=
      fun _ _ _ hS' h' hlabels hhoused =>
        Stmt.lowerAll_ends hS' h' (fun hv => hlabels ▸ (hV hv).2) hhoused
    refine (Lower.lift_ends hS (TryRegion.start_ends h)).bind ?_
    rintro _ S₁ ⟨hS₁, h₁, hs, rfl⟩
    have hn : entered xs = entered (.guarded :: xs) := (Nat.zero_add _).symm
    refine .modifying ((Lower.inBlock_ends (hS₁.enter .guarded rfl) (hn ▸ h₁) hbody).bind
      fun _ S₂ ⟨hS₂, h₂⟩ => ?_)
    refine (Lower.popRegion_ends hS₂ h₂).bind fun _ S₃ ⟨_, hS₃, h₃⟩ => ?_
    refine (Lower.lift_ends hS₃ (TryRegion.onCatch_ends (hn ▸ h₃))).bind ?_
    rintro _ S₄ ⟨hS₄, h₄, j, rfl⟩
    exact .reading rfl (.bind_if
      (Q := fun S₅ => S₅.Inside k xs around names d ∧ S₅.emitter.At k (entered xs) (d + 1))
      (fun _ => Lower.lift_ends hS₄ (Emitter.rethrowIfClosing_ends h₄)) (fun _ => ⟨hS₄, h₄⟩)
      fun S₅ ⟨hS₅, h₅⟩ => Lower.handle_ends hS₅ h₅ hhandler)
  | .throw _, _, _, _, _, _, _, hS, h, hV, _ =>
    (Expr.lower_ends hS h hV).bind fun _ _ ⟨hS₁, h₁⟩ => Lower.emit_ends hS₁ h₁ (Nat.le_add_left _ _) rfl
  | .ret e, _, _, _, _, _, S, hS, h, hV, _ => by
    show Ends _ (Lower.ret e) S _
    rw [Lower.ret_eq]
    cases e with
    | some e => exact (Expr.lower_ends hS h hV).bind fun _ _ ⟨hS₁, h₁⟩ => Lower.retTop_ends hS₁ h₁
    | none => exact (Lower.emit_ends hS h (Nat.zero_le _) rfl).bind fun _ _ ⟨hS₁, h₁⟩ =>
        Lower.retTop_ends hS₁ h₁
  | .breakLoop _, _, _, _, _, _, _, hS, h, hV, _ => Lower.breakLoop_ends hS h hV
  | .continueLoop _, _, _, _, _, _, _, hS, h, hV, _ => Lower.continueLoop_ends hS h hV

theorem Stmt.lowerAll_ends : ∀ {ss : List Stmt} {V : Prop} {xs : List Enclosure} {around : List Scope}
    {names : List String} {d : Nat} {S : Lowering}, S.Inside k xs around names d →
    S.emitter.At k (entered xs) d → (V → Stmt.ValidAll k (labels xs) names ss) → Housed ss xs →
    Ends V (Stmt.lowerAll ss) S fun _ S' =>
      S'.Inside k xs around (Stmt.namesAll ss names) d ∧ S'.emitter.At k (entered xs) d
  | [], _, _, _, _, _, _, hS, h, _, _ => ⟨hS, h⟩
  | s :: ss, _, _, _, _, _, _, hS, h, hV, hhoused => by
    have hhead : Housed [s] _ := fun husing => hhoused (by
      rw [List.any_cons, List.any_nil, Bool.or_false] at husing
      rw [List.any_cons, husing, Bool.true_or])
    refine (Stmt.lower_ends hS h (fun hv => (hV hv).1) hhead).bind fun _ _ ⟨hS₁, h₁⟩ => ?_
    exact Stmt.lowerAll_ends hS₁ h₁ (fun hv => (hV hv).2) fun husing => hhoused (by
      rw [List.any_cons, husing, Bool.or_true])

end

/-! ### Functions -/

namespace Declaration

/-- Behind a function, no region is left and no scope is entered. -/
theorem lower_ends {d : Declaration} {e : Emitter} (h : e.At d.kind 0 0) :
    Ends d.Valid d.lower ⟨e, [d.paramScope], []⟩ fun _ _ => True := by
  have hS : Lowering.Inside d.kind [] [] d.params.reverse 0 ⟨e, [d.paramScope], []⟩ := by
    refine ⟨.nil, rfl, ?_, nofun⟩
    rw [← d.keys_paramScope]
    exact congrArg Scope.keys (List.append_nil _)
  have hbody : Stmt.EndsIn d.Valid d.kind [] d.params.reverse 0 d.body :=
    fun _ _ _ hS' h' hlabels hhoused => Stmt.lowerAll_ends hS' h' (fun hv => hlabels ▸ hv) hhoused
  refine (Lower.inBlock_ends hS h hbody).bind fun _ S₁ ⟨hS₁, h₁⟩ => ?_
  refine (Lower.lift_ends hS₁ (Emitter.emitAll_ends h₁ (Nat.zero_le _) rfl)).bind
    fun _ S₂ ⟨hS₂, h₂⟩ => .reading rfl (.cond (fun hleft => ?_) fun _ => trivial)
  have hregions : S₂.regions = [] := by
    have fits := hS₂.fits
    cases h : S₂.regions with
    | nil => rfl
    | cons _ _ =>
      rw [h] at fits
      cases fits
  exact absurd hleft (not_or.mpr ⟨not_not.mpr hregions, not_not.mpr h₂.scopeDepth_eq⟩)

/-- What keeps a function from being compiled is a limit or its own fault. -/
theorem compile_error {d : Declaration} {pool : ConstantPool} {x : CompileError}
    (h : (d.compile pool).1 = .error x) : x.IsLimit ∨ x.IsFault ∧ ¬ d.Valid := by
  unfold compile at h
  cases he : Emitter.start d.name d.kind d.params.length pool with
  | error y =>
    rw [he] at h
    cases h
    unfold Emitter.start at he
    split at he
    · cases he
      exact .inl trivial
    · cases he
  | ok e =>
    rw [he] at h
    have hat : e.At d.kind 0 0 := by
      unfold Emitter.start at he
      split at he
      · cases he
      · cases he
        exact ⟨rfl, rfl, rfl⟩
    have hends := lower_ends hat
    unfold Ends at hends
    simp only at h
    cases hd : d.lower ⟨e, [d.paramScope], []⟩ with
    | ok u S =>
      rw [hd] at h
      cases h
    | error y S =>
      rw [hd] at h hends
      cases h
      exact hends

/-! ### Modules -/

/-- Functions that have different names and are valid. -/
structure WellFormed (ds : List Declaration) : Prop where
  distinct : (ds.map name).Nodup
  valid : ∀ d ∈ ds, d.Valid

end Declaration

namespace Module

open Declaration (WellFormed nodesAll)

/-- What keeps functions from being compiled is a limit or a fault of their own. -/
theorem compileAll_error : ∀ (ds : List Declaration) {ds₀ : List Declaration} {m : Module}
    {x : CompileError}, m.compileAll ds = .error x → Built ds₀ m →
    m.constants.size + nodesAll ds ≤ 4294967296 → x.IsLimit ∨ x.IsFault ∧ ¬ WellFormed (ds₀ ++ ds)
  | [], _, _, _, h, _, _ => nomatch h
  | d :: ds, ds₀, m, x, h, hm, hsize => by
    unfold compileAll at h
    split at h
    · rename_i hold
      cases h
      refine .inr ⟨trivial, fun hwell => ?_⟩
      obtain ⟨f, hf⟩ := Option.isSome_iff_exists.mp hold
      have hmem : d.name ∈ ds₀.map Declaration.name := by
        rw [← hm.names_eq]
        exact List.mem_map.mpr ⟨f, List.mem_of_find?_eq_some hf, by simpa using List.find?_some hf⟩
      have hdistinct := hwell.distinct
      rw [List.map_append, List.nodup_append] at hdistinct
      exact hdistinct.2.2 _ hmem _ List.mem_cons_self rfl
    · rename_i hnew
      have hd := d.compile_adds m.constants
      split at h
      · rename_i y _ hy
        cases h
        refine (d.compile_error (congrArg Prod.fst hy)).imp_right fun ⟨hfault, hnot⟩ => ⟨hfault, fun hwell => ?_⟩
        exact hnot (hwell.valid d (List.mem_append_right _ List.mem_cons_self))
      · rename_i f pool hf
        rw [hf] at hd
        simp only [nodesAll] at hsize hd
        have hnew : m.function? d.name = none := by simpa using hnew
        have := compileAll_error ds h (hm.snoc hnew hf (by omega)) (by
          show pool.size + nodesAll ds ≤ 4294967296
          omega)
        rwa [List.append_assoc] at this

/-- Compiling functions leaves the header of a module as it is. -/
theorem compileAll_header : ∀ (ds : List Declaration) {m m' : Module}, m.compileAll ds = .ok m' →
    m'.magic = m.magic ∧ m'.version = m.version
  | [], _, _, h => by
    cases h
    exact ⟨rfl, rfl⟩
  | d :: ds, m, m', h => by
    unfold compileAll at h
    split at h
    · cases h
    · split at h
      · cases h
      · have := compileAll_header ds h
        exact this

/-- The functions of a module have different names, and their parameters are locals. -/
theorem checkFunctions_of_compiled {pool : ConstantPool} (hsize : pool.size ≤ 4294967296) :
    ∀ {ds : List Declaration} {fs : List Function} {seen : List String},
    List.Forall₂ (Declaration.Compiled pool) ds fs → (ds.map Declaration.name).Nodup →
    (∀ name ∈ seen, name ∉ ds.map Declaration.name) → checkFunctions seen fs = .ok ()
  | _, _, _, .nil, _, _ => rfl
  | d :: ds, f :: fs, seen, .cons hd hds, hnodup, hseen => by
    have hlaid := hd.laid pool hsize (.refl pool)
    have hnew : f.name ∉ seen := fun h => hseen _ h (hd.name_eq ▸ List.mem_cons_self)
    have hparams : ¬ f.localCount < f.paramCount := by
      rw [hd.paramCount_eq, Nat.not_lt]
      exact hlaid.2.1
    rw [List.map_cons, List.nodup_cons] at hnodup
    rw [checkFunctions, if_neg hnew, if_neg hparams]
    refine checkFunctions_of_compiled hsize hds hnodup.2 fun name hname hmem => ?_
    rcases List.mem_cons.mp hname with rfl | hname
    · exact hnodup.1 (hd.name_eq ▸ hmem)
    · exact hseen name hname (List.mem_cons_of_mem _ hmem)

/-- Functions that are laid out are fit to run. -/
theorem verifyFunctions_of_compiled {pool : ConstantPool} (hsize : pool.size ≤ 4294967296)
    {ds : List Declaration} {fs : List Function} (h : List.Forall₂ (Declaration.Compiled pool) ds fs) :
    verifyFunctions pool fs = .ok () := by
  induction h with
  | nil => rfl
  | cons hd _ ih =>
    have hverify := (hd.laid pool hsize (.refl pool)).verify rfl rfl rfl
    rw [verifyFunctions, show Function.verify _ pool = .ok () from hverify]
    exact ih

theorem verify_of_built {ds : List Declaration} {m : Module} (h : Built ds m)
    (hsize : m.constants.size ≤ 4294967296) (hmagic : m.magic = currentMagic)
    (hversion : m.version = currentVersion) : m.verify = .ok () := by
  have hcheck : m.check = .ok () := by
    rw [check, if_neg (not_not.mpr hmagic), if_neg (not_not.mpr hversion)]
    exact checkFunctions_of_compiled hsize h.compiled h.distinct nofun
  rw [verify, hcheck]
  exact verifyFunctions_of_compiled hsize h.compiled

/-- The declarations of a module are well-formed. -/
theorem Built.wellFormed {ds : List Declaration} {m : Module} (h : Built ds m)
    (hsize : m.constants.size ≤ 4294967296) : WellFormed ds := by
  refine ⟨h.distinct, ?_⟩
  have hcompiled := h.compiled
  clear h
  generalize m.functions = fs at hcompiled
  induction hcompiled with
  | nil => exact nofun
  | cons hd _ ih => exact List.forall_mem_cons.mpr ⟨(hd.laid m.constants hsize (.refl _)).valid, ih⟩

/-- The verifier finds nothing in functions that were compiled: the module is what they make it. -/
theorem compile_of_compileAll {name : String} {ds : List Declaration} {m : Module}
    (h : (named name).compileAll ds = .ok m) (hnodes : nodesAll ds < 2147483648) :
    compile name ds = .ok m := by
  have hempty : (named name).constants.size = 0 := rfl
  have hsize := compileAll_adds ds h
  obtain ⟨hmagic, hversion⟩ := compileAll_header ds h
  have hverify := verify_of_built (compileAll_built ds h (.named name) (by omega)) (by omega) hmagic hversion
  rw [compile, h]
  show (do m.verify.mapError .verification; .ok m : Except CompileError Module) = .ok m
  rw [hverify]
  rfl

/-- **Exactly the well-formed programs compile**, as far as the limits on locals and jumps
allow: to a module that is fit to run. Others end with an error, which is never one of the
assembler or of the verifier. -/
theorem compile_accepts {name : String} {ds : List Declaration}
    (hnodes : nodesAll ds < 2147483648) :
    (WellFormed ds → (∃ m, compile name ds = .ok m ∧ m.verify = .ok ()) ∨
      compile name ds = .error .tooManyLocals ∨ compile name ds = .error .jumpTooLarge) ∧
    (¬ WellFormed ds → ∃ x, compile name ds = .error x) ∧
    ∀ x, compile name ds = .error x → (∀ defect, x ≠ .internal defect) ∧ ∀ e, x ≠ .verification e := by
  have hempty : (named name).constants.size = 0 := rfl
  have hcompile : (∃ m, compile name ds = .ok m ∧ m.verify = .ok ()) ∨
      ∃ x, compile name ds = .error x ∧ (x.IsLimit ∨ x.IsFault ∧ ¬ WellFormed ds) := by
    unfold compile
    cases hall : (named name).compileAll ds with
    | error x => exact .inr ⟨x, rfl, compileAll_error ds hall (.named name) (by omega)⟩
    | ok m =>
      have hsize := compileAll_adds ds hall
      obtain ⟨hmagic, hversion⟩ := compileAll_header ds hall
      have hbuilt := compileAll_built ds hall (.named name) (by omega)
      have hverify := verify_of_built hbuilt (by omega) hmagic hversion
      refine .inl ⟨m, ?_, hverify⟩
      show (do m.verify.mapError .verification; .ok m : Except CompileError Module) = .ok m
      rw [hverify]
      rfl
  refine ⟨fun hwell => ?_, fun hill => ?_, fun x hx => ?_⟩
  · rcases hcompile with hok | ⟨x, hx, hlimit | ⟨-, hill⟩⟩
    · exact .inl hok
    · rw [hx]
      cases x <;> cases hlimit
      · exact .inr (.inl rfl)
      · exact .inr (.inr rfl)
    · exact absurd hwell hill
  · rcases hcompile with ⟨m, hm, -⟩ | ⟨x, hx, -⟩
    · obtain ⟨hbuilt, -, hsize⟩ := compile_built hm hnodes
      exact absurd (hbuilt.wellFormed (by omega)) hill
    · exact ⟨x, hx⟩
  · rcases hcompile with ⟨m, hm, -⟩ | ⟨y, hy, hcause⟩
    · cases hm.symm.trans hx
    · cases hy.symm.trans hx
      constructor
      · rintro defect rfl
        rcases hcause with h | ⟨h, -⟩ <;> exact h
      · rintro e rfl
        rcases hcause with h | ⟨h, -⟩ <;> exact h

/-- A function that waits for what it iterates over, and goes on with the loop around it
inside of a block that disposes. -/
def waitingLoop : Declaration :=
  ⟨"f", .asyncGenerator, ["xs"],
    [.forOf (some "rounds") "x" (some .async) (.binding "xs")
      [.usingIn "r" .async (.await (.binding "x")),
       .ifElse (.yield (.binding "r")) [.continueLoop (some "rounds")] [.ret (some (.binding "r"))]]]⟩

theorem wellFormed_waitingLoop : WellFormed [waitingLoop] := by
  refine ⟨List.pairwise_singleton _ _, List.forall_mem_singleton.mpr ?_⟩
  have hjumps : JumpsTo [some "rounds"] (some "rounds") := ⟨_, List.mem_cons_self, rfl⟩
  simp [Declaration.Valid, waitingLoop, Stmt.ValidAll, Stmt.Valid, Expr.Valid, Stmt.names, hjumps,
    FunctionKind.isAsync, FunctionKind.isGenerator]

theorem compile_accepts_waitingLoop : nodesAll [waitingLoop] < 2147483648 ∧
    WellFormed [waitingLoop] ∧ ((∃ m, compile "m" [waitingLoop] = .ok m ∧ m.verify = .ok ()) ∨
      compile "m" [waitingLoop] = .error .tooManyLocals ∨
        compile "m" [waitingLoop] = .error .jumpTooLarge) := by
  have hnodes : nodesAll [waitingLoop] < 2147483648 := by decide
  exact ⟨hnodes, wellFormed_waitingLoop, (compile_accepts hnodes).1 wellFormed_waitingLoop⟩

end Module
end ResourceMachine
