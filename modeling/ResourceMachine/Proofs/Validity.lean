/-
# Valid programs

What a declaration has to obey to be compiled: names are bound before they are read,
a function waits and hands out values only if its kind allows it, a call has no more
arguments than a byte counts, and a jump is inside of a loop that it means. What is
laid out in code is valid (`Declaration.Laid.valid`).

Key definitions: `Expr.Valid`, `Stmt.Valid`, `Stmt.names`, `Declaration.Valid`.
Key theorems: `Stmt.Laid.valid`, `Declaration.Laid.valid`.
-/
import ResourceMachine.Proofs.FunctionEmission

namespace ResourceMachine

/-! ### Validity -/

section

variable (kind : FunctionKind)

mutual

/-- An expression in a function of a kind, where these names are bound. -/
def Expr.Valid (names : List String) : Expr → Prop
  | .undefined | .null | .bool _ | .int _ | .str _ | .global _ => True
  | .binding name => name ∈ names
  | .call callee args => args.length ≤ 255 ∧ callee.Valid names ∧ Expr.ValidAll names args
  | .await e => kind.isAsync ∧ e.Valid names
  | .yield e => kind.isGenerator ∧ e.Valid names

/-- Several expressions, all of them valid. -/
def Expr.ValidAll (names : List String) : List Expr → Prop
  | [] => True
  | e :: es => e.Valid names ∧ Expr.ValidAll names es

end

/-- The names that are bound behind a statement. -/
def Stmt.names : Stmt → List String → List String
  | .letIn name _, names | .usingIn name _ _, names => name :: names
  | _, names => names

/-- The names that are bound behind statements. -/
def Stmt.namesAll (ss : List Stmt) (names : List String) : List String :=
  ss.foldl (fun names s => s.names names) names

/-- Some loop around a jump is one that it means. -/
def JumpsTo (labels : List (Option String)) (label : Option String) : Prop :=
  ∃ l ∈ labels, Exit.names label l = true

mutual

/-- A statement in a function of a kind, inside of loops with these labels and where
these names are bound. -/
def Stmt.Valid (labels : List (Option String)) (names : List String) : Stmt → Prop
  | .expr e | .letIn _ e | .throw e | .ret (some e) => e.Valid kind names
  | .usingIn _ hint e => (hint = .async → kind.isAsync) ∧ e.Valid kind names
  | .block body => Stmt.ValidAll labels names body
  | .ifElse cond yes no =>
    cond.Valid kind names ∧ Stmt.ValidAll labels names yes ∧ Stmt.ValidAll labels names no
  | .whileLoop label cond body => cond.Valid kind names ∧ Stmt.ValidAll (label :: labels) names body
  | .forOf label binding hint iterable body =>
    (hint = some .async → kind.isAsync) ∧ iterable.Valid kind names ∧
      Stmt.ValidAll (label :: labels) (binding :: names) body
  | .tryCatch body param handler =>
    Stmt.ValidAll labels names body ∧ Stmt.ValidAll labels (param.toList ++ names) handler
  | .ret none => True
  | .breakLoop label | .continueLoop label => JumpsTo labels label

/-- Statements in order, all of them valid. -/
def Stmt.ValidAll (labels : List (Option String)) (names : List String) : List Stmt → Prop
  | [] => True
  | s :: ss => s.Valid labels names ∧ Stmt.ValidAll labels (s.names names) ss

end

end

/-- A function whose body is valid. -/
def Declaration.Valid (d : Declaration) : Prop := Stmt.ValidAll d.kind [] d.params.reverse d.body

/-! ### What is laid out is valid -/

variable {t : Target} {scope scope' : Scope} {rs : List Shape} {d p q : Nat}

/-- The names of a scope. -/
abbrev Scope.keys (scope : Scope) : List String := scope.map Prod.fst

theorem Scope.mem_keys {name : String} {slot : UInt16} (h : scope.lookup name = some slot) :
    name ∈ scope.keys := by
  induction scope with
  | nil => cases h
  | cons b scope ih =>
    obtain ⟨key, s⟩ := b
    rw [List.lookup_cons] at h
    cases hkey : name == key with
    | true =>
      rw [eq_of_beq hkey]
      exact List.mem_cons_self
    | false =>
      rw [hkey] at h
      exact List.mem_cons_of_mem _ (ih h)

mutual

theorem Expr.Laid.valid : ∀ {e : Expr} {d p q : Nat}, e.Laid t scope d p q →
    e.Valid t.kind scope.keys
  | .undefined, _, _, _, _ | .null, _, _, _, _ | .bool _, _, _, _, _ | .int _, _, _, _, _
  | .str _, _, _, _, _ | .global _, _, _, _, _ => trivial
  | .binding _, _, _, _, ⟨_, hslot, _⟩ => Scope.mem_keys hslot
  | .call _ _, _, _, _, ⟨_, _, _, hcallee, _, hargs, hlen, _⟩ =>
    ⟨hlen, hcallee.valid, Expr.LaidAll.valid hargs⟩
  | .await _, _, _, _, ⟨hkind, _, he, _⟩ => ⟨hkind, he.valid⟩
  | .yield _, _, _, _, ⟨hkind, _, he, _⟩ => ⟨hkind, he.valid⟩

theorem Expr.LaidAll.valid : ∀ {es : List Expr} {d p q : Nat}, Expr.LaidAll t scope es d p q →
    Expr.ValidAll t.kind scope.keys es
  | [], _, _, _, _ => trivial
  | _ :: _, _, _, _, ⟨_, he, hes⟩ => ⟨he.valid, Expr.LaidAll.valid hes⟩

end

/-- The label of a loop. -/
def Shape.label? : Shape → Option (Option String)
  | loop label _ _ _ => some label
  | _ => none

/-- The labels of the loops around a statement. -/
abbrev labelsOf (rs : List Shape) : List (Option String) := rs.filterMap Shape.label?

theorem JumpsTo.cons {r : Shape} {label : Option String} (h : JumpsTo (labelsOf rs) label) :
    JumpsTo (labelsOf (r :: rs)) label := by
  obtain ⟨l, hl, hnames⟩ := h
  obtain ⟨r', hr', hlabel⟩ := List.mem_filterMap.mp hl
  exact ⟨l, List.mem_filterMap.mpr ⟨r', List.mem_cons_of_mem _ hr', hlabel⟩, hnames⟩

theorem JumpsTo.head {label label' : Option String} {isForOf : Bool} {c b : Nat}
    (h : Exit.names label label' = true) :
    JumpsTo (labelsOf (.loop label' isForOf c b :: rs)) label :=
  ⟨label', List.mem_cons_self, h⟩

/-- A jump that is laid out leads to a loop around it. -/
theorem Target.Leaving.jumpsTo {x : Exit} {label : Option String}
    (hx : x = .breakTo label ∨ x = .continueTo label) : ∀ {rs : List Shape} {d p q : Nat},
    t.Leaving scope rs x d p q → JumpsTo (labelsOf rs) label
  | [], _, _, _, ⟨hreturn, _⟩ => by
    rcases hx with rfl | rfl <;> cases hreturn
  | r :: rs, d, p, q, h => by
    unfold Target.Leaving at h
    split at h
    · rename_i hcontinued
      cases r with
      | loop label' isForOf c b =>
        rcases hx with rfl | rfl
        · cases hcontinued
        · exact .head hcontinued
      | _ => cases hcontinued
    · obtain ⟨_, _, -, h⟩ := h
      split at h
      · rename_i hbroken
        cases r with
        | loop label' isForOf c b =>
          rcases hx with rfl | rfl
          · exact .head hbroken
          · cases hbroken
        | _ => cases hbroken
      · exact (Target.Leaving.jumpsTo hx h).cons

/-- A block is valid if its statements are, wherever they are laid out. -/
theorem Target.Block.valid {ss : List Stmt} {body : List Shape → (d p q : Nat) → Prop}
    {V : List (Option String) → Prop} (h : t.Block scope ss rs body d p q)
    (hbody : ∀ {rs d p q}, body rs d p q → V (labelsOf rs)) : V (labelsOf rs) := by
  unfold Target.Block at h
  split at h
  · obtain ⟨_, _, _, _, _, -, -, h, -⟩ := h
    have hlabels := hbody h
    exact hlabels
  · exact hbody h

theorem labelsOf_after (s : Stmt) : labelsOf (s.after rs) = labelsOf rs := by
  match rs with
  | .disposable _ _ :: _ => cases s <;> rfl
  | [] => cases s <;> rfl
  | .tryCatch :: _ => cases s <;> rfl
  | .loop _ _ _ _ :: _ => cases s <;> rfl
  | .iteration _ :: _ => cases s <;> rfl

/-- Behind a statement, the names are bound that it binds. -/
theorem Stmt.Laid.keys_eq : ∀ {s : Stmt}, s.Laid t rs scope d p scope' q →
    scope'.keys = s.names scope.keys
  | .expr _, ⟨_, _, _, h⟩ | .throw _, ⟨_, _, _, h⟩ | .block _, ⟨_, h⟩ | .breakLoop _, ⟨_, h⟩
  | .continueLoop _, ⟨_, h⟩ => by rw [h]; rfl
  | .letIn _ _, ⟨_, _, _, _, _, h⟩ => by rw [h]; rfl
  | .usingIn _ _ _, ⟨_, _, _, _, _, _, _, _, _, h⟩ => by rw [h]; rfl
  | .ifElse _ _ _, ⟨_, _, _, _, _, h⟩ => by rw [h]; rfl
  | .whileLoop _ _ _, ⟨_, _, _, _, _, _, _, h⟩ => by rw [h]; rfl
  | .forOf _ _ _ _ _, ⟨_, _, _, _, _, _, _, _, _, h⟩ => by
    obtain ⟨-, -, -, -, -, -, -, -, -, -, -, -, -, -, -, -, rfl⟩ := h
    rfl
  | .tryCatch _ _ _, ⟨_, _, _, _, _, _, _, _, _, _, _, _, _, h⟩ => by rw [h]; rfl
  | .ret _, ⟨_, _, _, _, _, h⟩ => by rw [h]; rfl

theorem Target.BindParam.keys_eq {param : Option String}
    (h : t.BindParam scope param d p scope' q) : scope'.keys = param.toList ++ scope.keys := by
  cases param with
  | some name =>
    obtain ⟨_, -, -, rfl⟩ := h
    rfl
  | none =>
    obtain ⟨-, rfl⟩ := h
    rfl

mutual

/-- A statement that is laid out is valid. -/
theorem Stmt.Laid.valid : ∀ {s : Stmt} {rs : List Shape} {scope scope' : Scope} {d p q : Nat},
    s.Laid t rs scope d p scope' q → s.Valid t.kind (labelsOf rs) scope.keys
  | .expr _, _, _, _, _, _, _, ⟨_, he, _⟩ | .throw _, _, _, _, _, _, _, ⟨_, he, _⟩ => he.valid
  | .letIn _ _, _, _, _, _, _, _, ⟨_, _, he, _⟩ => he.valid
  | .usingIn _ _ _, _, _, _, _, _, _, ⟨_, _, _, _, hkind, he, _⟩ => ⟨hkind, he.valid⟩
  | .block body, _, _, _, _, _, _, ⟨hblock, _⟩ =>
    hblock.valid (V := fun labels => Stmt.ValidAll t.kind labels _ body) Stmt.LaidAll.valid
  | .ifElse _ yes no, rs, scope, _, _, _, _, ⟨_, _, hcond, hyes, hno, _⟩ => by
    refine ⟨hcond.valid, hyes.valid (V := fun labels => Stmt.ValidAll t.kind labels _ yes) Stmt.LaidAll.valid, ?_⟩
    split at hno
    · rename_i hempty
      rw [List.isEmpty_iff.mp hempty]
      exact trivial
    · exact hno.2.2.valid (V := fun labels => Stmt.ValidAll t.kind labels _ no) Stmt.LaidAll.valid
  | .whileLoop _ _ body, _, _, _, _, _, _, ⟨_, _, hcond, _, hblock, _⟩ =>
    ⟨hcond.valid, hblock.valid (V := fun labels => Stmt.ValidAll t.kind labels _ body) Stmt.LaidAll.valid⟩
  | .forOf _ _ hint _ body, _, _, _, _, _, _, ⟨_, _, _, _, _, _, _, _, _, h⟩ => by
    obtain ⟨hiterable, -, -, -, -, -, -, hopen, hblock, -⟩ := h
    refine ⟨?_, hiterable.valid, ?_⟩
    · rintro rfl
      exact hopen.1 rfl
    · exact hblock.valid (V := fun labels => Stmt.ValidAll t.kind labels _ body) Stmt.LaidAll.valid
  | .tryCatch body _ handler, rs, scope, _, _, _, _, ⟨_, _, _, _, _, _, hbody, _, _, _, _, hparam, hhandler, _⟩ => by
    refine ⟨hbody.valid (V := fun labels => Stmt.ValidAll t.kind labels _ body) Stmt.LaidAll.valid, ?_⟩
    rw [← hparam.keys_eq]
    exact hhandler.valid (V := fun labels => Stmt.ValidAll t.kind labels _ handler) Stmt.LaidAll.valid
  | .ret (some _), _, _, _, _, _, _, ⟨_, _, he, _⟩ => he.valid
  | .ret none, _, _, _, _, _, _, _ => trivial
  | .breakLoop _, _, _, _, _, _, _, ⟨hleaving, _⟩ => hleaving.jumpsTo (.inl rfl)
  | .continueLoop _, _, _, _, _, _, _, ⟨hleaving, _⟩ => hleaving.jumpsTo (.inr rfl)

theorem Stmt.LaidAll.valid : ∀ {ss : List Stmt} {rs : List Shape} {scope : Scope} {d p q : Nat},
    Stmt.LaidAll t ss rs scope d p q → Stmt.ValidAll t.kind (labelsOf rs) scope.keys ss
  | [], _, _, _, _, _, _ => trivial
  | s :: _, _, _, _, _, _, ⟨_, _, hs, hss⟩ => by
    refine ⟨hs.valid, ?_⟩
    have := Stmt.LaidAll.valid hss
    rwa [labelsOf_after, hs.keys_eq] at this

end

theorem Declaration.keys_paramScope (d : Declaration) : d.paramScope.keys = d.params.reverse := by
  simp [Scope.keys, Declaration.paramScope, List.map_reverse, Function.comp_def]

/-- A function that is laid out is valid. -/
theorem Declaration.Laid.valid {d : Declaration} (h : d.Laid t) : d.Valid := by
  obtain ⟨hkind, -, -, m, hblock, -⟩ := h
  rw [Declaration.Valid, ← hkind, ← d.keys_paramScope]
  exact hblock.valid (V := fun labels => Stmt.ValidAll t.kind labels _ d.body) Stmt.LaidAll.valid

end ResourceMachine
