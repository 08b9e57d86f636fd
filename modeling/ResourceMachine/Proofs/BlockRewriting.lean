/-
# Functions with a block rewritten

A function may have one of its blocks replaced: its body, a nested block, a branch, the body
of a loop, or a part of a `try` statement. If the block and what replaces it are twins
wherever they stand, then so are the functions: calls of them that are made alike can be told
apart by nobody.

Key definitions: `Block.Rewritten`, `Declaration.Rewritten`.
Key theorems: `Stmt.execAll_behind`, `Block.Rewritten.twins`, `Declaration.Rewritten.call_twins`.
-/
import ResourceMachine.Proofs.TwinEvaluation

namespace ResourceMachine

variable {σ : Type} {same : Pairing → σ → σ → Prop} {ρ : Pairing}

/-! ### Rewriting -/

mutual

/-- One block of a statement is replaced as `E` says. -/
inductive Stmt.Rewritten (E : List Stmt → List Stmt → Prop) : Stmt → Stmt → Prop
  | block {b b' : List Stmt} (h : Block.Rewritten E b b') : Stmt.Rewritten E (.block b) (.block b')
  | yes {cond : Expr} {b b' no : List Stmt} (h : Block.Rewritten E b b') :
      Stmt.Rewritten E (.ifElse cond b no) (.ifElse cond b' no)
  | no {cond : Expr} {yes b b' : List Stmt} (h : Block.Rewritten E b b') :
      Stmt.Rewritten E (.ifElse cond yes b) (.ifElse cond yes b')
  | whileLoop {label : Option String} {cond : Expr} {b b' : List Stmt} (h : Block.Rewritten E b b') :
      Stmt.Rewritten E (.whileLoop label cond b) (.whileLoop label cond b')
  | forOf {label : Option String} {binding : String} {hint : Option Hint} {iterable : Expr}
      {b b' : List Stmt} (h : Block.Rewritten E b b') :
      Stmt.Rewritten E (.forOf label binding hint iterable b) (.forOf label binding hint iterable b')
  | tryBody {b b' : List Stmt} {param : Option String} {handler : List Stmt} (h : Block.Rewritten E b b') :
      Stmt.Rewritten E (.tryCatch b param handler) (.tryCatch b' param handler)
  | handler {body : List Stmt} {param : Option String} {b b' : List Stmt} (h : Block.Rewritten E b b') :
      Stmt.Rewritten E (.tryCatch body param b) (.tryCatch body param b')

/-- A block is replaced as `E` says, or one inside of it. -/
inductive Block.Rewritten (E : List Stmt → List Stmt → Prop) : List Stmt → List Stmt → Prop
  | here {b b' : List Stmt} (h : E b b') : Block.Rewritten E b b'
  | inside (before after : List Stmt) {s s' : Stmt} (h : Stmt.Rewritten E s s') :
      Block.Rewritten E (before ++ s :: after) (before ++ s' :: after)

end

/-- One block of a function is replaced as `E` says. -/
structure Declaration.Rewritten (E : List Stmt → List Stmt → Prop) (d d' : Declaration) : Prop where
  name : d'.name = d.name
  kind : d'.kind = d.kind
  params : d'.params = d.params
  body : Block.Rewritten E d.body d'.body

theorem Stmt.Rewritten.isUsing {E : List Stmt → List Stmt → Prop} {s s' : Stmt} (h : s.Rewritten E s') :
    s.isUsing = false ∧ s'.isUsing = false := by
  cases h <;> exact ⟨rfl, rfl⟩

theorem Stmt.readsAny_append (name : String) : ∀ ss ts : List Stmt,
    Stmt.readsAny name (ss ++ ts) = (Stmt.readsAny name ss || Stmt.readsAny name ts)
  | [], ts => by simp [Stmt.readsAny]
  | s :: ss, ts => by
    rw [List.cons_append, Stmt.readsAny, Stmt.readsAny, Stmt.readsAny_append name ss ts, Bool.or_assoc]

/-! ### Twins -/

section

variable {host : Host σ} {kind : FunctionKind} {n : Nat} {N : String → Prop}

/-- Blocks that go on as twins behind the same statements. -/
theorem Stmt.execAll_behind (hhost : host.Blind same) {K : Alignment} {before ss ss' : List Stmt}
    {env env' : Bindings}
    (hreads : ∀ x, Stmt.readsAny x before = true → N x) (hK : K.Takes before) (henv : env.Alike N ρ env')
    (h : ∀ τ env env', ρ ≤ τ → env.Alike N τ env' → Eval.Twins same K K K Exit.Alike τ
      (Stmt.execAll host kind n ss env) (Stmt.execAll host kind n ss' env')) :
    Eval.Twins same K K K Exit.Alike ρ (Stmt.execAll host kind n (before ++ ss) env)
      (Stmt.execAll host kind n (before ++ ss') env') := by
  rw [Stmt.execAll_append, Stmt.execAll_append]
  exact (Stmt.execThrough_twins hhost before hreads hK henv).bind fun τ l l' hτ hl =>
    Stmt.goOn_twins hl (h τ _ _ hτ hl.2) (.pure fun _ hχ => hl.1.mono hχ)

mutual

/-- A statement with a block replaced by a twin of it is a twin. -/
theorem Stmt.Rewritten.twins (hhost : host.Blind same) {E : List Stmt → List Stmt → Prop}
    (hE : ∀ b b', E b b' → (∀ x, Stmt.readsAny x b = true → N x) → Block.Twins same host kind n N b b') :
    ∀ {s s' : Stmt}, s.Rewritten E s' → (∀ x, s.reads x = true → N x) → ∀ {K : Alignment},
      Stmt.Twins same host kind n N K s s'
  | _, _, .block h, hreads, _, _, _, _, henv => Stmt.block_twins (h.twins hhost hE hreads) henv
  | _, _, .yes h, hreads, _, _, _, _, henv =>
    Stmt.ifElse_twins hhost (fun x hx => hreads x (by simp [Stmt.reads, hx]))
      (h.twins hhost hE fun x hx => hreads x (by simp [Stmt.reads, hx]))
      (Block.twins_self hhost _ fun x hx => hreads x (by simp [Stmt.reads, hx])) henv
  | _, _, .no h, hreads, _, _, _, _, henv =>
    Stmt.ifElse_twins hhost (fun x hx => hreads x (by simp [Stmt.reads, hx]))
      (Block.twins_self hhost _ fun x hx => hreads x (by simp [Stmt.reads, hx]))
      (h.twins hhost hE fun x hx => hreads x (by simp [Stmt.reads, hx])) henv
  | _, _, .whileLoop h, hreads, _, _, _, _, henv =>
    Stmt.whileLoop_twins hhost (fun x hx => hreads x (by simp [Stmt.reads, hx]))
      (h.twins hhost hE fun x hx => hreads x (by simp [Stmt.reads, hx])) henv
  | _, _, .forOf h, hreads, _, _, _, _, henv =>
    Stmt.forOf_twins hhost (fun x hx => hreads x (by simp [Stmt.reads, hx]))
      (h.twins hhost hE fun x hx => hreads x (by simp [Stmt.reads, hx])) henv
  | _, _, .tryBody h, hreads, _, _, _, _, henv =>
    Stmt.tryCatch_twins (h.twins hhost hE fun x hx => hreads x (by simp [Stmt.reads, hx]))
      (Block.twins_self hhost _ fun x hx => hreads x (by simp [Stmt.reads, hx])) henv
  | _, _, .handler h, hreads, _, _, _, _, henv =>
    Stmt.tryCatch_twins (Block.twins_self hhost _ fun x hx => hreads x (by simp [Stmt.reads, hx]))
      (h.twins hhost hE fun x hx => hreads x (by simp [Stmt.reads, hx])) henv

/-- A block in which a block is replaced by a twin of it is a twin. -/
theorem Block.Rewritten.twins (hhost : host.Blind same) {E : List Stmt → List Stmt → Prop}
    (hE : ∀ b b', E b b' → (∀ x, Stmt.readsAny x b = true → N x) → Block.Twins same host kind n N b b') :
    ∀ {b b' : List Stmt}, Block.Rewritten E b b' → (∀ x, Stmt.readsAny x b = true → N x) →
      Block.Twins same host kind n N b b'
  | _, _, .here h, hreads, _, _, _, _, henv => hE _ _ h hreads henv
  | _, _, @Block.Rewritten.inside _ before after s s' h, hreads, _, _, _, _, henv => by
    have hany : (before ++ s' :: after).any Stmt.isUsing = (before ++ s :: after).any Stmt.isUsing := by
      simp [h.isUsing]
    rw [hany]
    refine Eval.block_twins hhost fun K₁ hK₁ => ?_
    have hK₁ := Alignment.takes_of_registers hK₁
    refine Stmt.execAll_behind hhost (fun x hx => hreads x (by rw [Stmt.readsAny_append, hx, Bool.true_or]))
      (fun s hs => hK₁ s (List.mem_append_left _ hs)) henv fun τ env env' _ henv => ?_
    rw [Stmt.execAll, Stmt.execAll]
    refine (h.twins hhost hE (fun x hx => hreads x ?_) henv).bind fun τ₁ l l' _ hl =>
      Stmt.goOn_twins hl ?_ (.pure fun _ hχ => hl.1.mono hχ)
    · simp [Stmt.readsAny_append, Stmt.readsAny, hx]
    · refine Stmt.execAll_twins hhost after (fun x hx => hreads x ?_) (fun s hs => hK₁ s ?_) hl.2
      · simp [Stmt.readsAny_append, Stmt.readsAny, hx]
      · simp [hs]

end

/-! ### Calls -/

/-- Arguments that are alike are bound alike. -/
theorem Declaration.bind_alike (d : Declaration) {args args' : List Value} (hargs : Value.AllAlike ρ args args') :
    (d.bind args).Alike N ρ (d.bind args') := fun name _ => by
  refine Value.EntriesAlike.lookup (List.forall₂_reverse_iff.mpr ?_) name
  rw [List.forall₂_map_left_iff, List.forall₂_map_right_iff, List.forall₂_same]
  rintro ⟨param, k⟩ -
  refine ⟨rfl, ?_⟩
  have harg := hargs.getElem? k
  simp only [List.getD_eq_getElem?_getD]
  exact Value.optAlike_getD harg

/-- A call comes to its end with a value, however its body was left. -/
theorem Declaration.call_twins {K : Alignment} {d d' : Declaration} (hkind : d'.kind = d.kind)
    (hparams : d'.params = d.params)
    (h : Block.Twins same host d.kind n N d.body d'.body) {args args' : List Value}
    (hargs : Value.AllAlike ρ args args') :
    Eval.Twins same K K K Value.Alike ρ (d.call host n args) (d'.call host n args') := by
  have hbind : d'.bind args' = d.bind args' := by rw [Declaration.bind, Declaration.bind, hparams]
  unfold Declaration.call
  rw [hbind, hkind]
  refine (h (d.bind_alike hargs)).bind fun τ x x' hτ hx => ?_
  have hend : Eval.Twins same K K K Value.Alike τ (do Eval.returnValue .undefined; return .undefined : Eval σ Value)
      (do Eval.returnValue .undefined; return .undefined) :=
    (Eval.returnValue_twins .undefined).bind fun _ _ _ _ _ => .pure fun _ _ => .undefined
  cases hx with
  | ret hv => exact .pure fun _ hχ => hv.mono hχ
  | _ => exact hend

/-- Functions of which one has a block of the other replaced by a twin of it are called alike. -/
theorem Declaration.Rewritten.call_twins (hhost : host.Blind same) {K : Alignment} {d d' : Declaration}
    {E : List Stmt → List Stmt → Prop} (h : d.Rewritten E d') (hreads : ∀ x, Stmt.readsAny x d.body = true → N x)
    (hE : ∀ b b', E b b' → (∀ x, Stmt.readsAny x b = true → N x) → Block.Twins same host d.kind n N b b')
    {args args' : List Value} (hargs : Value.AllAlike ρ args args') :
    Eval.Twins same K K K Value.Alike ρ (d.call host n args) (d'.call host n args') :=
  Declaration.call_twins h.kind h.params (h.body.twins hhost hE hreads) hargs

end

end ResourceMachine
