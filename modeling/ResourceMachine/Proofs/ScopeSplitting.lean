/-
# Scopes that are split

A scope may be split in two: what a block declares from some point on gets a block of its own.
If all is declared sync, nobody can tell. One pass over all resources does what two passes do
in turn, the second with what the first has left pending; the signal that closes a generator
gives way in the second pass if it was on its way in the first, and else it is not pending,
as no method throws it.

Key definitions: `Block.Split`, `Alignment.split`.
Key theorems: `Eval.finish_split_twins`, `Block.Split.twins`.
-/
import ResourceMachine.Proofs.EmptyScope
import ResourceMachine.Proofs.TaskEvaluation

namespace ResourceMachine

variable {σ α β : Type} {same : Pairing → σ → σ → Prop} {ρ : Pairing} {host : Host σ} {kind : FunctionKind}

/-! ### Alignments -/

theorem Record.IsSync.of_alike {r s : Resource} (h : r.IsSync) (hrs : Record.Alike ρ r s) : s.IsSync := by
  refine ⟨hrs.hint.symm.trans h.1, ?_⟩
  have hmethod := Eval.method?_alike hrs
  have hsome := h.2
  generalize r.method? = m at hmethod hsome
  generalize s.method? = m' at hmethod
  cases hmethod with
  | none => exact hsome
  | some _ => rfl

theorem isSync_of_forall₂ {rs ss : List Resource} (h : List.Forall₂ (Record.Alike ρ) rs ss)
    (hrs : ∀ r ∈ rs, r.IsSync) : ∀ s ∈ ss, s.IsSync := fun s hs => by
  obtain ⟨r, hr, halike⟩ := exists_left_of_forall₂ h hs
  exact (hrs r hr).of_alike halike

namespace Alignment

/-- Whatever the scopes. -/
def any : Alignment where
  fits _ _ _ := True
  mono _ _ := trivial

/-- The left call has an empty scope more. -/
def emptyBeside (K : Alignment) : Alignment where
  fits ρ cs ds := ∃ cs', cs = .empty :: cs' ∧ K.fits ρ cs' ds
  mono := by
    rintro ρ ρ' cs ds hle ⟨cs', rfl, hfits⟩
    exact ⟨cs', rfl, K.mono hle hfits⟩

/-- Both calls have one scope more, and these have registered alike, and only what is sync. -/
def innerSync (K : Alignment) : Alignment where
  fits ρ cs ds := K.inner.fits ρ cs ds ∧ ∀ c ∈ cs.head?, ∀ r ∈ c.resources, r.IsSync
  mono hle h := ⟨K.inner.mono hle h.1, h.2⟩

/-- The left call has one scope more, in which it has registered what the right call has
registered in two. -/
def split (K : Alignment) : Alignment where
  fits ρ cs ds := ∃ as bs cs' c d ds', cs = ⟨as ++ bs⟩ :: cs' ∧ ds = d :: c :: ds' ∧
    List.Forall₂ (Record.Alike ρ) as c.resources ∧ List.Forall₂ (Record.Alike ρ) bs d.resources ∧
      (∀ r ∈ as ++ bs, r.IsSync) ∧ K.fits ρ cs' ds'
  mono := by
    rintro ρ ρ' cs ds hle ⟨as, bs, cs', c, d, ds', rfl, rfl, has, hbs, hsync, hfits⟩
    exact ⟨as, bs, cs', c, d, ds', rfl, rfl, has.imp fun _ _ h => h.mono hle, hbs.imp fun _ _ h => h.mono hle,
      hsync, K.mono hle hfits⟩

theorem innerSync_registers (K : Alignment) : K.innerSync.Registers .sync := by
  rintro ρ cs ds r s ⟨hfits, hsync⟩ hrs hhint hmethod
  obtain ⟨c, cs', d, ds', rfl, rfl, hadded⟩ := K.inner_registers .sync hfits hrs hhint hmethod
  refine ⟨c, cs', d, ds', rfl, rfl, hadded, fun c' hc' r' hr' => ?_⟩
  obtain rfl := Option.some.inj hc'
  rcases List.mem_append.mp hr' with hr' | hr'
  · exact hsync c rfl r' hr'
  · obtain rfl := List.mem_singleton.mp hr'
    exact ⟨hhint, hmethod rfl⟩

theorem split_registers (K : Alignment) : K.split.Registers .sync := by
  rintro ρ cs ds r s ⟨as, bs, cs', c, d, ds', rfl, rfl, has, hbs, hsync, hfits⟩ hrs hhint hmethod
  refine ⟨⟨as ++ bs⟩, cs', d, c :: ds', rfl, rfl, as, bs ++ [r], cs', c, d.add s, ds', ?_, rfl, has,
    List.rel_append hbs (.cons hrs .nil), ?_, hfits⟩
  · rw [Capability.add, List.append_assoc]
  · rw [← List.append_assoc]
    intro r' hr'
    rcases List.mem_append.mp hr' with hr' | hr'
    · exact hsync r' hr'
    · obtain rfl := List.mem_singleton.mp hr'
      exact ⟨hhint, hmethod rfl⟩

end Alignment

namespace Eval

/-! ### Rules -/

variable {K K' K₁ E : Alignment} {P : Pairing → α → α → Prop} {m m' : Eval σ α}

theorem Twins.of_alignment (h : Twins same K' K₁ E P ρ m m')
    (hfits : ∀ {τ cs ds}, K.fits τ cs ds → K'.fits τ cs ds) : Twins same K K₁ E P ρ m m' :=
  fun τ S S' hτ hS => h τ S S' hτ (hS.realign (hfits hS.scopes))

/-- The left call opens a scope. -/
theorem Twins.open_left (K' : Alignment) (hfits : ∀ {τ cs ds}, K.fits τ cs ds → K'.fits τ (.empty :: cs) ds)
    (h : Twins same K' K₁ E P ρ m m') : Twins same K K₁ E P ρ (openScope >>= fun _ => m) m' := by
  intro τ S S' hτ hS
  have hopen := hS.unseen (E := K') (.opened S (.empty :: S.scopes)) (.refl S') (hfits hS.scopes)
  exact (h τ _ _ hτ hopen).behind (le_refl _) (fun s => bind_of_ok rfl) fun _ => rfl

/-- Twins that come to values at once do so alike. -/
theorem Twin.ends_of_ok {Q : Pairing → Except Value α → CallState σ → Except Value α → CallState σ → Prop}
    {S S' T T' : CallState σ} {a a' : α} (h : Twin same m m' Q ρ S S')
    (hleft : ∀ s, m (S.more s) = .ok a (T.more s)) (hright : ∀ s, m' (S'.more s) = .ok a' (T'.more s)) :
    ∃ τ, ρ ≤ τ ∧ Q τ (.ok a) T (.ok a') T' := by
  have hunique {r : Except Value α} {T₁ T₂ : CallState σ} {a : α} (h : .ok a T₁ = give r T₂) :
      r = .ok a ∧ T₂ = T₁ := by
    cases r <;> cases h
    exact ⟨rfl, rfl⟩
  have hleft := hleft []
  have hright := hright []
  rw [CallState.more_nil, CallState.more_nil] at hleft hright
  cases h with
  | ends le left right alike =>
    have left := left []
    have right := right []
    rw [CallState.more_nil, CallState.more_nil] at left right
    obtain ⟨rfl, rfl⟩ := hunique (hleft.symm.trans left)
    obtain ⟨rfl, rfl⟩ := hunique (hright.symm.trans right)
    exact ⟨_, le, alike⟩
  | spent le left right seen =>
    have hspent := left []
    rw [CallState.more_nil, hleft] at hspent
    cases hspent
  | waits le left right asks seen next =>
    rw [hleft] at left
    cases left

/-- What is attempted is attempted once. -/
theorem attempt_attempt_bind (m : Eval σ α) (f : Except Value α → Eval σ β) {γ : Type} (g : Except Value β → Eval σ γ) :
    attempt (attempt m >>= f) >>= g = attempt m >>= fun r => attempt (f r) >>= g := by
  rw [attempt_bind_assoc]
  funext S
  show EStateM.bind _ _ S = EStateM.bind _ _ S
  unfold EStateM.bind attempt
  cases m S with
  | ok a T => rfl
  | error i T => cases i <;> rfl

theorem attempt_openScope_bind (m : Eval σ α) (f : Except Value α → Eval σ β) :
    attempt (openScope >>= fun _ => m) >>= f = (openScope >>= fun _ => attempt m >>= f) := rfl

/-! ### Leaving a split scope -/

/-- To leave one scope does what it does to leave two, one after the other. -/
theorem finish_split_twins (hhost : host.Blind same) (hclosing : host.Unclosing) {r r' : Except Value Exit}
    (h : Value.ResultAlike Exit.Alike ρ r r') :
    Twins same K.split K K Exit.Alike ρ (finish host kind true r)
      (attempt (finish host kind true r') >>= finish host kind true) := .of_give fun {τ S S'} hτ hS => by
  obtain ⟨as, bs, cs, c, d, ds, hcs, hds, has, hbs, hsync, hfits⟩ := hS.scopes
  have hsyncA : ∀ r ∈ as, r.IsSync := fun r hr => hsync r (List.mem_append_left _ hr)
  have hsyncB : ∀ r ∈ bs, r.IsSync := fun r hr => hsync r (List.mem_append_right _ hr)
  -- the left call leaves its scope, the right call the inner and then the outer one
  obtain ⟨p, T, k, hall, hTscopes, -, -, -, hfinish⟩ :=
    finish_steady host kind hcs hsync true r
  obtain ⟨p', T', k', hall', hTscopes', -, hsome', -, hfinish'⟩ :=
    finish_steady host kind hds (isSync_of_forall₂ hbs hsyncB) true r'
  obtain ⟨p'', T'', k'', hall'', hTscopes'', -, hsome'', -, hfinish''⟩ :=
    finish_steady host kind (S := T'.outside k' (c :: ds)) rfl
      (isSync_of_forall₂ has hsyncA) true (Exit.overtaken r' p')
  have hpending : Exit.pending? (Exit.overtaken r' p') = p' := by
    cases p' with
    | some e => rfl
    | none =>
      cases r' with
      | ok x => rfl
      | error e => cases hsome' rfl
  rw [hpending] at hall'' hsome''
  -- the first of the two passes is a part of the one
  obtain ⟨q, U, hfirst, hUscopes, -, -, hopen⟩ := disposeAll_steady host
    (kind.isGenerator && (Exit.pending? r).isSome) (fun r hr => hsyncB r (List.mem_reverse.mp hr))
    ⟨Exit.pending? r, false, false⟩ rfl (S.taken ⟨as ++ bs⟩ cs)
  have hsecond (s : List (Reply σ)) : disposeAll host (kind.isGenerator && (Exit.pending? r).isSome) as.reverse
      ⟨q, false, false⟩ (U.more s) = .ok ⟨p, false, false⟩ (T.more s) := by
    have hboth := hall s
    rw [List.reverse_append, disposeAll_append] at hboth
    exact (bind_of_ok (hfirst s)).symm.trans hboth
  have hst : PassState.Alike τ ⟨Exit.pending? r, false, false⟩ ⟨Exit.pending? r', false, false⟩ := by
    refine ⟨?_, rfl, rfl⟩
    cases h with
    | ok _ => exact .none
    | error he => exact .some (he.mono hτ)
  have hflag : (Exit.pending? r').isSome = (Exit.pending? r).isSome := by cases h <;> rfl
  rw [hflag] at hall'
  have htaken := hS.unseen (E := .any) (.taken S ⟨as ++ bs⟩ cs) (.taken S' d (c :: ds)) trivial
  obtain ⟨τ₁, hτ₁, hlands⟩ := (disposeAll_twins (E := .any) hhost _ (List.forall₂_reverse_iff.mpr hbs)
    hst τ _ _ (le_refl τ) htaken).ends_of_ok hfirst hall'
  obtain ⟨hq, hU⟩ : Option.Rel (Value.Alike τ₁) q p' ∧ U.Alike same .any τ₁ T' := by
    cases hlands with
    | ok alike calls => exact ⟨alike.pending, calls⟩
  -- the signal gives way in the second pass just if it does in the one
  have hsecond' (s : List (Reply σ)) : disposeAll host (kind.isGenerator && p'.isSome) as.reverse
      ⟨q, false, false⟩ (U.more s) = .ok ⟨p, false, false⟩ (T.more s) := by
    cases h with
    | error he =>
      rw [hsome' rfl]
      exact hsecond s
    | ok hx =>
      rw [← hsecond s]
      exact disposeAll_unwrap hclosing (fun r hr => hsyncA r (List.mem_reverse.mp hr)) rfl
        (hopen hclosing (by simp [Exit.pending?])) _
  have hbetween := hU.unseen (E := .any) (.refl U)
    ((CallState.Unseen.outside T' k' (c :: ds)).trans (.taken _ c ds)) trivial
  have hst₁ : PassState.Alike τ₁ ⟨q, false, false⟩ ⟨p', false, false⟩ := ⟨hq, rfl, rfl⟩
  obtain ⟨τ₂, hτ₂, hlands⟩ := (disposeAll_twins (E := .any) hhost _
    (List.forall₂_reverse_iff.mpr (has.imp fun _ _ h => h.mono hτ₁)) hst₁ τ₁ _ _ (le_refl τ₁) hbetween).ends_of_ok
      hsecond' hall''
  obtain ⟨hp, hT⟩ : Option.Rel (Value.Alike τ₂) p p'' ∧ T.Alike same .any τ₂ T'' := by
    cases hlands with
    | ok alike calls => exact ⟨alike.pending, calls⟩
  have hcalls := hT.unseen (E := K) (.outside T k cs) (.outside T'' k'' ds) (K.mono (hτ₁.trans hτ₂) hfits)
  refine ⟨τ₂, Exit.overtaken r p, T.outside k cs, Exit.overtaken (Exit.overtaken r' p') p'', T''.outside k'' ds,
    hτ₁.trans hτ₂, hfinish, fun s => (attempt_bind_of_give (hfinish' s)).trans (hfinish'' s), ?_⟩
  cases hp with
  | some he => exact .error he hcalls
  | none =>
    have hnone : p' = none := by
      cases p' with
      | none => rfl
      | some e => cases hsome'' rfl
    rw [hnone]
    cases h with
    | ok hx => exact .ok (hx.mono (hτ.trans (hτ₁.trans hτ₂))) hcalls
    | error he => exact .error (he.mono (hτ.trans (hτ₁.trans hτ₂))) hcalls

/-- To leave an empty scope is not seen. -/
theorem finish_twins_left (again : Bool) {m : Eval σ Exit} {r r' : Except Value Exit} (hm : ∀ S, m S = give r' S)
    (h : Value.ResultAlike Exit.Alike ρ r r') :
    Twins same K.emptyBeside K K Exit.Alike ρ (finish host kind again r) m :=
  .of_unseen h fun {τ S S'} hfits => by
    obtain ⟨cs, hcs, hfits⟩ := hfits
    obtain ⟨k, hfinish⟩ := finish_of_empty host kind hcs again r
    exact ⟨S.outside k cs, S', .outside S k cs, .refl S', hfits, hfinish, fun _ => hm _⟩

end Eval

/-! ### Blocks -/

/-- What stands in a block from a declaration on gets a block of its own, and all that is declared
there is sync. -/
inductive Block.Split : List Stmt → List Stmt → Prop
  | intro (before : List Stmt) (x : String) (init : Expr) (rest : List Stmt)
    (h : ∀ s ∈ before ++ .usingIn x .sync init :: rest, s.registers .async = false) :
    Block.Split (before ++ .usingIn x .sync init :: rest) (before ++ [.block (.usingIn x .sync init :: rest)])

/-- Statements that register only what is sync. -/
theorem Alignment.takes_sync {K : Alignment} {ss : List Stmt} (hK : K.Registers .sync)
    (h : ∀ s ∈ ss, s.registers .async = false) : K.Takes ss := fun s hs hint hregisters => by
  cases hint with
  | sync => exact hK
  | async => cases (h s hs).symm.trans hregisters

section

variable {n : Nat} {N : String → Prop} {K : Alignment}

theorem Stmt.execAll_block (x : String) (hint : Hint) (init : Expr) (rest : List Stmt) (env : Bindings) :
    Stmt.execAll host kind n [.block (.usingIn x hint init :: rest)] env =
      Eval.inScope host kind (Stmt.execAll host kind n (.usingIn x hint init :: rest) env) := by
  rw [Stmt.execAll, Stmt.exec, bind_assoc]
  refine (congrArg (Eval.inScope host kind (Stmt.execAll host kind n (.usingIn x hint init :: rest) env) >>= ·)
    (funext fun x => ?_)).trans (bind_pure _)
  cases x <;> rfl

/-- A block in a scope of its own, cut in two. -/
theorem Stmt.inScope_append (ss ts : List Stmt) (env : Bindings) :
    Eval.inScope host kind (Stmt.execAll host kind n (ss ++ ts) env) = (Eval.openScope >>= fun _ =>
      Eval.attempt (Stmt.execThrough host kind n ss env) >>=
        Eval.settled (Stmt.goOn host kind n ts) (Eval.finish host kind true)) := by
  rw [Eval.inScope_eq, Stmt.execAll_append]
  exact congrArg (Eval.openScope >>= ·) (funext fun _ => Eval.attempt_bind_assoc _ _ _)

variable {x : String} {init : Expr} {rest : List Stmt}

/-- The second half of a block that has a scope, on the right in one of its own. -/
theorem Stmt.goOn_split_twins (hhost : host.Blind same) (hclosing : host.Unclosing)
    (hreads : ∀ y, Stmt.readsAny y (.usingIn x .sync init :: rest) = true → N y)
    (hsync : ∀ s ∈ Stmt.usingIn x .sync init :: rest, s.registers .async = false) {l l' : Exit × Bindings}
    (hl : Stmt.LeftAlike N ρ l l') : Eval.Twins same K.innerSync K K Exit.Alike ρ
      (Eval.attempt (Stmt.goOn host kind n (.usingIn x .sync init :: rest) l) >>= Eval.finish host kind true)
      (Eval.attempt (Stmt.goOn host kind n [.block (.usingIn x .sync init :: rest)] l') >>=
        Eval.finish host kind true) := by
  obtain ⟨left, env⟩ := l
  obtain ⟨left', env'⟩ := l'
  obtain ⟨hx, henv⟩ := hl
  show Eval.Twins same K.innerSync K K Exit.Alike ρ
    (Eval.attempt (if left.isNormal = true then _ else _) >>= Eval.finish host kind true)
    (Eval.attempt (if left'.isNormal = true then _ else _) >>= Eval.finish host kind true)
  rw [hx.isNormal_eq]
  split
  · rw [Stmt.execAll_block, Eval.inScope_eq, Eval.attempt_openScope_bind]
    refine Eval.Twins.open_right K.split ?_ ?_
    · rintro τ cs ds ⟨⟨c, cs', d, ds', rfl, rfl, hcd, hfits⟩, hcs⟩
      refine ⟨c.resources, [], cs', d, .empty, ds', by rw [List.append_nil], rfl, hcd, .nil, ?_, hfits⟩
      rw [List.append_nil]
      exact hcs c rfl
    · rw [Eval.attempt_attempt_bind]
      exact (Stmt.execAll_twins hhost _ hreads (Alignment.takes_sync K.split_registers hsync) henv).attempt_bind
        (fun _ _ _ _ hx => Eval.finish_split_twins hhost hclosing (.ok hx))
        fun _ _ _ _ he => Eval.finish_split_twins hhost hclosing (.error he)
  · exact (Eval.finish_twins hhost true (.ok hx)).of_alignment And.left

/-- The second half of a block, on the right in a scope of its own, and on the left in that of the
whole block. -/
theorem Stmt.goOn_late_twins (hhost : host.Blind same)
    (hreads : ∀ y, Stmt.readsAny y (.usingIn x .sync init :: rest) = true → N y) {l l' : Exit × Bindings}
    (hl : Stmt.LeftAlike N ρ l l') : Eval.Twins same K.emptyBeside K K Exit.Alike ρ
      (Eval.attempt (Stmt.goOn host kind n (.usingIn x .sync init :: rest) l) >>= Eval.finish host kind true)
      (Stmt.goOn host kind n [.block (.usingIn x .sync init :: rest)] l') := by
  obtain ⟨left, env⟩ := l
  obtain ⟨left', env'⟩ := l'
  obtain ⟨hx, henv⟩ := hl
  show Eval.Twins same K.emptyBeside K K Exit.Alike ρ
    (Eval.attempt (if left.isNormal = true then _ else _) >>= Eval.finish host kind true)
    (if left'.isNormal = true then _ else _)
  rw [hx.isNormal_eq]
  split
  · rw [Stmt.execAll_block, Eval.inScope_eq]
    refine Eval.Twins.open_right K.inner ?_ ?_
    · rintro τ cs ds ⟨cs', rfl, hfits⟩
      exact ⟨.empty, cs', .empty, ds, rfl, rfl, .nil, hfits⟩
    · exact (Stmt.execAll_twins hhost _ hreads (Alignment.takes_of_registers fun _ => K.inner_registers)
        henv).attempt_bind (fun _ _ _ _ hx => Eval.finish_twins hhost true (.ok hx))
          fun _ _ _ _ he => Eval.finish_twins hhost true (.error he)
  · exact Eval.finish_twins_left true (fun _ => rfl) (.ok hx)

/-- **One scope or two.** Where all is sync, what stands in a block from a declaration on may get a
block of its own. -/
theorem Block.Split.twins (hhost : host.Blind same) (hclosing : host.Unclosing) {b b' : List Stmt}
    (h : Block.Split b b') (hreads : ∀ x, Stmt.readsAny x b = true → N x) :
    Block.Twins same host kind n N b b' := by
  obtain ⟨before, x, init, rest, hsync⟩ := h
  intro K ρ env env' henv
  have hbefore : ∀ y, Stmt.readsAny y before = true → N y := fun y hy =>
    hreads y (by rw [Stmt.readsAny_append, hy, Bool.true_or])
  have hafter : ∀ y, Stmt.readsAny y (.usingIn x .sync init :: rest) = true → N y := fun y hy =>
    hreads y (by rw [Stmt.readsAny_append, hy, Bool.or_true])
  have hany : (before ++ Stmt.usingIn x .sync init :: rest).any Stmt.isUsing = true := by simp [Stmt.isUsing]
  have hany' : (before ++ [Stmt.block (.usingIn x .sync init :: rest)]).any Stmt.isUsing =
      before.any Stmt.isUsing := by
    rw [List.any_append]
    exact Bool.or_false _
  rw [hany, hany', Eval.block, if_pos rfl, Stmt.inScope_append]
  cases hdisposes : before.any Stmt.isUsing with
  | true =>
    rw [Eval.block, if_pos rfl, Stmt.inScope_append]
    refine (Eval.openScope_twins K.innerSync fun {τ cs ds} hfits => ?_).bind fun τ _ _ hτ _ => ?_
    · refine ⟨⟨.empty, cs, .empty, ds, rfl, rfl, .nil, hfits⟩, fun c hc r hr => ?_⟩
      obtain rfl := Option.some.inj hc
      cases hr
    · have htakes : K.innerSync.Takes before := Alignment.takes_sync K.innerSync_registers fun s hs =>
        hsync s (List.mem_append_left _ hs)
      exact (Stmt.execThrough_twins hhost before hbefore htakes (henv.mono hτ)).attempt_bind
        (fun _ _ _ _ hl => Stmt.goOn_split_twins hhost hclosing hafter
          (fun s hs => hsync s (List.mem_append_right _ hs)) hl)
        fun _ _ _ _ he => (Eval.finish_twins hhost true (.error he)).of_alignment And.left
  | false =>
    -- nothing is declared in the first half, so the right call has no scope there
    have htakes : K.emptyBeside.Takes before := Alignment.takes_of_registers fun h => by
      rw [hdisposes] at h
      cases h
    refine Eval.Twins.open_left K.emptyBeside (fun hfits => ⟨_, rfl, hfits⟩) ?_
    rw [Eval.block, if_neg Bool.false_ne_true, Stmt.execAll_append,
      Eval.bind_eq_attempt (Stmt.execThrough host kind n before env')]
    refine (Stmt.execThrough_twins hhost before hbefore htakes henv).attempt_bind ?_ ?_
    · exact fun _ _ _ _ hl => Stmt.goOn_late_twins hhost hafter hl
    · exact fun _ _ _ _ he => Eval.finish_twins_left true (fun _ => rfl) (.error he)

end

end ResourceMachine
