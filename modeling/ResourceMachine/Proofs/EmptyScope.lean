/-
# Empty scopes

A scope in which nothing was registered is left without a trace that could be seen: its
passes have nothing to dispose, and what was on its way goes on. So a block may declare a
resource that is nullish, wherever it likes, and even if it has no scope but for that
declaration: as long as nobody reads what is bound, nobody can tell.

Key definitions: `Block.Nullish`, `Alignment.besideEmpty`.
Key theorems: `Eval.Twins.of_unseen`, `Eval.inScope_twins_right`, `Block.Nullish.twins`.
-/
import ResourceMachine.Proofs.BlockRewriting
import ResourceMachine.Proofs.SyncDisposal

namespace ResourceMachine

variable {σ α : Type} {same : Pairing → σ → σ → Prop} {ρ : Pairing}

/-! ### An empty scope on one side -/

/-- The right call has an empty scope more. -/
def Alignment.besideEmpty (K : Alignment) : Alignment where
  fits ρ cs ds := ∃ ds', ds = .empty :: ds' ∧ K.fits ρ cs ds'
  mono := by
    rintro ρ ρ' cs ds hle ⟨ds', rfl, hfits⟩
    exact ⟨ds', rfl, K.mono hle hfits⟩

namespace Eval

variable {host : Host σ} {kind : FunctionKind} {K K' E : Alignment} {P : Pairing → α → α → Prop} {m m' : Eval σ α}

/-- The right call opens a scope. -/
theorem Twins.open_right (K' : Alignment) (hfits : ∀ {τ cs ds}, K.fits τ cs ds → K'.fits τ cs (.empty :: ds))
    {K₁ : Alignment}
    (h : Twins same K' K₁ E P ρ m m') : Twins same K K₁ E P ρ m (openScope >>= fun _ => m') := by
  intro τ S S' hτ hS
  have hopen := hS.unseen (E := K') (.refl S) (.opened S' (.empty :: S'.scopes)) (hfits hS.scopes)
  exact (h τ _ _ hτ hopen).behind (le_refl _) (fun _ => rfl) fun s => bind_of_ok rfl

/-- Evaluations that end at once, and do what is not seen. -/
theorem Twins.of_unseen {m m' : Eval σ Exit} {r r' : Except Value Exit} (hr : Value.ResultAlike Exit.Alike ρ r r')
    (h : ∀ {τ : Pairing} {S S' : CallState σ}, K.fits τ S.scopes S'.scopes → ∃ T T' : CallState σ,
      S.Unseen T ∧ S'.Unseen T' ∧ K'.fits τ T.scopes T'.scopes ∧ (∀ s, m (S.more s) = give r (T.more s)) ∧
        ∀ s, m' (S'.more s) = give r' (T'.more s)) :
    Twins same K K' K' Exit.Alike ρ m m' := .of_give fun {τ S S'} hτ hS => by
  obtain ⟨T, T', hT, hT', hfits, hleft, hright⟩ := h hS.scopes
  have hcalls := hS.unseen hT hT' hfits
  refine ⟨τ, r, T, r', T', le_refl _, hleft, hright, ?_⟩
  cases hr with
  | ok hx => exact .ok (hx.mono hτ) hcalls
  | error he => exact .error (he.mono hτ) hcalls

/-- To leave an empty scope is not seen. -/
theorem finish_twins_right (again : Bool) {m : Eval σ Exit} {r r' : Except Value Exit} (hm : ∀ S, m S = give r S)
    (h : Value.ResultAlike Exit.Alike ρ r r') :
    Twins same K.besideEmpty K K Exit.Alike ρ m (finish host kind again r') :=
  .of_unseen h fun {τ S S'} hfits => by
    obtain ⟨ds, hds, hfits⟩ := hfits
    obtain ⟨k, hfinish⟩ := finish_of_empty host kind hds again r'
    exact ⟨S, S'.outside k ds, .refl S, .outside S' k ds, hfits, fun _ => hm _, hfinish⟩

/-- A scope in which nothing is registered is not seen. -/
theorem inScope_twins_right {body body' : Eval σ Exit}
    (h : Twins same K.besideEmpty K.besideEmpty K.besideEmpty Exit.Alike ρ body body') :
    Twins same K K K Exit.Alike ρ body (inScope host kind body') := by
  rw [inScope_eq]
  have hopen {τ : Pairing} {cs ds : List Capability} (hfits : K.fits τ cs ds) :
      K.besideEmpty.fits τ cs (.empty :: ds) := ⟨ds, rfl, hfits⟩
  refine Twins.open_right K.besideEmpty hopen ?_
  rw [eq_attempt body]
  exact h.attempt_bind (fun _ _ _ _ hx => finish_twins_right true (fun _ => rfl) (.ok hx))
    fun _ _ _ _ he => finish_twins_right true (fun _ => rfl) (.error he)

end Eval

/-! ### Nullish resources -/

/-- A block declares a resource that is nullish, under the name `u`. -/
inductive Block.Nullish (u : String) : List Stmt → List Stmt → Prop
  | intro (before after : List Stmt) {init : Expr} (h : init = .null ∨ init = .undefined) :
    Block.Nullish u (before ++ after) (before ++ .usingIn u .sync init :: after)

section

variable {host : Host σ} {kind : FunctionKind} {n : Nat} {N : String → Prop}

/-- To declare what is nullish does nothing but to bind a name. -/
theorem Stmt.execAll_nullish (host : Host σ) (kind : FunctionKind) (n : Nat) (u : String) (after : List Stmt)
    {init : Expr} (h : init = .null ∨ init = .undefined) (env : Bindings) :
    ∃ v, Stmt.execAll host kind n (.usingIn u .sync init :: after) env =
      Stmt.execAll host kind n after ((u, v) :: env) := by
  rcases h with rfl | rfl
  · exact ⟨.null, rfl⟩
  · exact ⟨.undefined, rfl⟩

/-- **An empty scope is not seen.** A block may declare a resource that is nullish, if nobody
reads its name. -/
theorem Block.Nullish.twins (hhost : host.Blind same) {u : String} (hu : ¬ N u) {b b' : List Stmt}
    (h : Block.Nullish u b b') (hreads : ∀ x, Stmt.readsAny x b = true → N x) :
    Block.Twins same host kind n N b b' := by
  obtain @⟨before, after, init, hinit⟩ := h
  intro K ρ env env' henv
  have hbefore : ∀ x, Stmt.readsAny x before = true → N x := fun x hx =>
    hreads x (by rw [Stmt.readsAny_append, hx, Bool.true_or])
  have hafter : ∀ x, Stmt.readsAny x after = true → N x := fun x hx =>
    hreads x (by rw [Stmt.readsAny_append, hx, Bool.or_true])
  have hbody (K₁ : Alignment) (hK₁ : K₁.Takes (before ++ after)) : Eval.Twins same K₁ K₁ K₁ Exit.Alike ρ
      (Stmt.execAll host kind n (before ++ after) env)
      (Stmt.execAll host kind n (before ++ Stmt.usingIn u .sync init :: after) env') :=
    Stmt.execAll_behind hhost hbefore (fun s hs => hK₁ s (List.mem_append_left _ hs)) henv fun τ env env' _ henv => by
      obtain ⟨v, hv⟩ := Stmt.execAll_nullish host kind n u after hinit env'
      rw [hv]
      exact Stmt.execAll_twins hhost after hafter (fun s hs => hK₁ s (List.mem_append_right _ hs)) (henv.skip hu)
  have hany : (before ++ Stmt.usingIn u .sync init :: after).any Stmt.isUsing = true := by
    simp [Stmt.isUsing]
  rw [hany]
  cases hdisposes : (before ++ after).any Stmt.isUsing with
  | true => exact Eval.inScope_twins hhost (hbody K.inner (Alignment.takes_of_registers fun _ => K.inner_registers))
  | false =>
    -- nothing is declared but what is nullish
    refine Eval.inScope_twins_right (hbody K.besideEmpty (Alignment.takes_of_registers fun h => ?_))
    rw [hdisposes] at h
    cases h

end

end ResourceMachine
