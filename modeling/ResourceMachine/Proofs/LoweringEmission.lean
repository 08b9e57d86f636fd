/-
# What lowering lays out

A function that is lowered is ready for a statement when the regions around the
statement have their shapes. A lowering (`Lowers`) leaves it ready for what
follows, and lays out code in which the jumps out of the loops around it lead
behind them (`LeadOut`).

Key definitions: `Lowering.Ready`, `LeadOut`, `Lowers`.
Key theorems: `Expr.lower_lays`, `Lower.retTop_lowers`, `Lower.breakLoop_lowers`,
`Lower.continueLoop_lowers`.
-/
import ResourceMachine.Proofs.ExitEmission

namespace ResourceMachine

/-! ### Functions being lowered -/

namespace Lowering

/-- The names in sight, the latest first. -/
def names (S : Lowering) : Scope := S.scopes.flatten

/-- The operands that are pending until the regions around a statement end. -/
def pending (S : Lowering) : List PendingJump := S.regions.flatMap Region.pending

/-- A function is ready for a statement inside of regions with these shapes. -/
structure Ready (rs : List Shape) (S : Lowering) : Prop where
  suits : List.Forall₂ (Region.Suits S.names S.emitter) S.regions rs
  bound : S.names.Bound S.emitter.localCount.toNat
  nonempty : S.scopes ≠ []

end Lowering

/-- In finished code, the jumps out of loops lead behind them. -/
def LeadOut (t : Target) : List Region → List Shape → Prop := List.Forall₂ (Region.Breaks t)

/-- A lowering between regions with these shapes, with operands pending before and
after it, and what it lays out in finished code. -/
structure Lowers (O O' : List PendingJump) (rs rs' : List Shape) (S S' : Lowering)
    (P : Target → Prop) : Prop where
  ready : S'.Ready rs'
  becomes : List.Forall₂ Region.Becomes S.regions S'.regions
  breakTo_eq : rs'.map Shape.breakTo = rs.map Shape.breakTo
  tail_eq : S'.scopes.tail = S.scopes.tail
  lays : Lays (O ++ S.pending) (O' ++ S'.pending) S.emitter S'.emitter fun t =>
    LeadOut t S'.regions rs' → P t

/-- A jump that led out of a loop still does. -/
theorem LeadOut.earlier {t : Target} {regions regions' : List Region} {rs rs' : List Shape}
    (h : LeadOut t regions' rs') (hbecomes : List.Forall₂ Region.Becomes regions regions')
    (heq : rs'.map Shape.breakTo = rs.map Shape.breakTo) : LeadOut t regions rs := by
  induction h generalizing regions rs with
  | nil =>
    cases hbecomes
    cases rs with
    | nil => exact .nil
    | cons _ _ => cases heq
  | cons hhead _ ih =>
    cases hbecomes with
    | cons hb hbs =>
      cases rs with
      | nil => cases heq
      | cons x rs =>
        obtain ⟨hx, hrs⟩ := List.cons.inj heq
        refine .cons (fun j hj => ?_) (ih hbs hrs)
        rw [← hx]
        exact hhead j (hb.breaks_subset hj)

theorem becomes_refl (regions : List Region) : List.Forall₂ Region.Becomes regions regions :=
  List.forall₂_same.mpr fun r _ => .refl r

theorem becomes_trans : ∀ {regions regions' regions'' : List Region},
    List.Forall₂ Region.Becomes regions regions' → List.Forall₂ Region.Becomes regions' regions'' →
    List.Forall₂ Region.Becomes regions regions''
  | _, _, _, .nil, .nil => .nil
  | _, _, _, .cons h hs, .cons h' hs' => .cons (h.trans h') (becomes_trans hs hs')

theorem mem_flatten_of_tail {scopes : List Scope} : ∀ b ∈ scopes.tail.flatten, b ∈ scopes.flatten :=
  fun _ hb => by
    obtain ⟨scope, hscope, hb⟩ := List.mem_flatten.mp hb
    exact List.mem_flatten.mpr ⟨scope, List.mem_of_mem_tail hscope, hb⟩

namespace Lowers

variable {O O' O'' : List PendingJump} {rs rs' rs'' : List Shape} {S S' S'' : Lowering}
  {P P' Q : Target → Prop} {e' : Emitter}

theorem trans (h : Lowers O O' rs rs' S S' P) (h' : Lowers O' O'' rs' rs'' S' S'' P') :
    Lowers O O'' rs rs'' S S'' fun t => P t ∧ P' t :=
  ⟨h'.ready, becomes_trans h.becomes h'.becomes, h'.breakTo_eq.trans h.breakTo_eq,
    h'.tail_eq.trans h.tail_eq, (h.lays.trans h'.lays).imp fun _ ⟨hP, hP'⟩ hout =>
      ⟨hP (hout.earlier h'.becomes h'.breakTo_eq), hP' hout⟩⟩

theorem imp (h : Lowers O O' rs rs' S S' P) (hQ : ∀ t, P t → Q t) : Lowers O O' rs rs' S S' Q :=
  { h with lays := h.lays.imp fun t hP hout => hQ t (hP hout) }

/-- The order of pending operands makes no difference. -/
theorem perm (h : Lowers O O' rs rs' S S' P) (hperm : O'.Perm O'') : Lowers O O'' rs rs' S S' P :=
  { h with lays := h.lays.perm (.refl _) (hperm.append_right _) }

/-- Behind the innermost scope, its names are gone. -/
theorem popScope (h : Lowers O O' rs rs' S S' P) (hnonempty : S.scopes.tail ≠ []) :
    Lowers O O' rs rs' { S with scopes := S.scopes.tail } { S' with scopes := S'.scopes.tail } P := by
  obtain ⟨⟨hsuits, hbound, -⟩, hbecomes, hbreakTo, htail, hlays⟩ := h
  have hsub : ∀ b ∈ S'.scopes.tail.flatten, b ∈ S'.names := mem_flatten_of_tail
  refine ⟨⟨hsuits.imp fun _ _ h => h.unbind hsub, fun b hb => hbound b (hsub b hb), ?_⟩,
    hbecomes, hbreakTo, congrArg List.tail htail, hlays⟩
  show S'.scopes.tail ≠ []
  rw [htail]
  exact hnonempty

/-- Behind the innermost region, what was pending in it is still pending. -/
theorem popRegion {x x' : Shape} {r : Region} {regions : List Region}
    (h : Lowers O O' (x :: rs) (x' :: rs') S S' P) (hregions : S.regions = r :: regions) :
    ∃ r' regions', S'.regions = r' :: regions' ∧ r'.Suits S'.names S'.emitter x' ∧
      r.Becomes r' ∧
      Lowers (r.pending ++ O) (r'.pending ++ O') rs rs' { S with regions } { S' with regions := regions' }
        fun t => r'.Breaks t x' → P t := by
  obtain ⟨⟨hsuits, hbound, hnonempty⟩, hbecomes, hbreakTo, htail, hlays⟩ := h
  obtain ⟨r', regions', hr', hregions', hS'⟩ := List.forall₂_cons_right_iff.mp hsuits
  rw [hregions, hS'] at hbecomes
  cases hbecomes with
  | cons hbecomes hbecomes' =>
    refine ⟨r', regions', hS', hr', hbecomes, ⟨hregions', hbound, hnonempty⟩, hbecomes',
      (List.cons.inj hbreakTo).2, htail, ?_⟩
    have hperm : ∀ A B C : List PendingJump, (A ++ (B ++ C)).Perm (B ++ A ++ C) := fun A B C => by
      rw [← List.append_assoc]
      exact List.perm_append_comm.append_right C
    rw [Lowering.pending, Lowering.pending, hregions, hS', List.flatMap_cons, List.flatMap_cons] at hlays
    exact (hlays.perm (hperm _ _ _) (hperm _ _ _)).imp fun t hP hout hbreaks =>
      hP (.cons hbreaks hout)

end Lowers

/-- An emission that leaves regions and names alone. -/
theorem Lays.lowers {O O' : List PendingJump} {rs : List Shape} {S : Lowering} {e' : Emitter}
    {P : Target → Prop} (h : Lays (O ++ S.pending) (O' ++ S.pending) S.emitter e' P)
    (hready : S.Ready rs) : Lowers O O' rs rs S { S with emitter := e' } P :=
  { ready :=
      ⟨hready.suits.imp fun _ _ hsuits => hsuits.grow h.grown,
        fun b hb => Nat.lt_of_lt_of_le (hready.bound b hb) h.grown.localCount_le, hready.nonempty⟩
    becomes := becomes_refl _
    breakTo_eq := rfl
    tail_eq := rfl
    lays := h.imp fun _ hP _ => hP }

theorem Lower.lift_eq_ok {α : Type} {m : Emit α} {a : α} {S S' : Lowering}
    (h : (liftM m : Lower α) S = .ok a S') :
    ∃ e', m S.emitter = .ok a e' ∧ S' = { S with emitter := e' } := by
  obtain ⟨e, scopes, regions⟩ := S
  have h' : Lower.lift m ⟨e, scopes, regions⟩ = .ok a S' := h
  unfold Lower.lift at h'
  simp only at h'
  split at h' <;> cases h'
  exact ⟨_, ‹_›, rfl⟩

/-! ### Expressions -/

section

variable {O : List PendingJump} {u : Unit}

/-- Emitting an instruction changes no names. -/
theorem Lower.emit_lays {i : Instr} {S S' : Lowering} {d d' : Nat}
    (h : (liftM (Emitter.emit i) : Lower Unit) S = .ok u S') (hd : S.emitter.depth = d)
    (hd' : d - i.stackEffect.pops + i.stackEffect.pushes = d') :
    ∃ e', S' = { S with emitter := e' } ∧ e'.depth = d' ∧
      Lays O O S.emitter e' fun t => t.Line d S.emitter.code.size [i] d' e'.code.size := by
  obtain ⟨e', hemit, hS'⟩ := Lower.lift_eq_ok h
  obtain ⟨hdepth, -, hemit⟩ := Emitter.emit_lays (O := O) hemit hd hd'
  exact ⟨e', hS', hdepth, hemit⟩

/-- A name stands for the local of its latest binding. -/
theorem Lower.lookup_eq_ok {name : String} {slot : UInt16} {S S' : Lowering}
    (h : lookup name S = .ok slot S') : S' = S ∧ S.names.lookup name = some slot := by
  obtain ⟨_, _, hget, h⟩ := bind_eq_ok.mp h
  cases hget
  cases hname : S.names.lookup name with
  | some slot' =>
    rw [Lowering.names] at hname
    rw [hname] at h
    cases h
    exact ⟨rfl, rfl⟩
  | none =>
    rw [Lowering.names] at hname
    rw [hname] at h
    cases h

mutual

/-- An expression is laid out where it was lowered. -/
theorem Expr.lower_lays : ∀ {x : Expr} {S S' : Lowering} {d : Nat}, x.lower S = .ok u S' →
    S.emitter.depth = d →
    ∃ e', S' = { S with emitter := e' } ∧ e'.depth = d + 1 ∧
      Lays O O S.emitter e' fun t => x.Laid t S.names d S.emitter.code.size e'.code.size
  | .undefined, _, _, _, h, hd => Lower.emit_lays h hd rfl
  | .null, _, _, _, h, hd => Lower.emit_lays h hd rfl
  | .bool b, _, _, _, h, hd => Lower.emit_lays h hd (by cases b <;> rfl)
  | .int n, _, _, _, h, hd => Lower.emit_lays h hd rfl
  | .str s, S, S', d, h, hd => by
    obtain ⟨e', hstr, rfl⟩ := Lower.lift_eq_ok h
    obtain ⟨index, e₁, hintern, hemit⟩ := bind_eq_ok.mp hstr
    obtain ⟨hd₁, hsize₁, hintern⟩ := Emitter.intern_lays (O := O) hintern
    obtain ⟨hd₂, -, hemit⟩ := Emitter.emit_lays (O := O) hemit (hd₁.trans hd) rfl
    refine ⟨e', rfl, hd₂, (hintern.trans hemit).imp ?_⟩
    rintro t ⟨htext, hemit⟩
    rw [hsize₁] at hemit
    exact ⟨index, htext, hemit⟩
  | .binding name, S, S', d, h, hd => by
    obtain ⟨slot, S₁, hlookup, h⟩ := bind_eq_ok.mp h
    obtain ⟨hS₁, hslot⟩ := Lower.lookup_eq_ok hlookup
    rw [hS₁] at h
    obtain ⟨e', hS', hd', hload⟩ := Lower.emit_lays (O := O) h hd rfl
    exact ⟨e', hS', hd', hload.imp fun t hload => ⟨slot, hslot, hload⟩⟩
  | .global name, S, S', d, h, hd => by
    obtain ⟨e', hglobal, rfl⟩ := Lower.lift_eq_ok h
    obtain ⟨index, e₁, hintern, hemit⟩ := bind_eq_ok.mp hglobal
    obtain ⟨hd₁, hsize₁, hintern⟩ := Emitter.intern_lays (O := O) hintern
    obtain ⟨hd₂, -, hemit⟩ := Emitter.emit_lays (O := O) hemit (hd₁.trans hd) rfl
    refine ⟨e', rfl, hd₂, (hintern.trans hemit).imp ?_⟩
    rintro t ⟨htext, hemit⟩
    rw [hsize₁] at hemit
    exact ⟨index, htext, hemit⟩
  | .call callee args, S, S', d, h, hd => by
    unfold Expr.lower at h
    split at h
    · cases h
    rename_i hargs
    obtain ⟨_, S₁, hcallee, h⟩ := bind_eq_ok.mp h
    obtain ⟨_, S₂, hreceiver, h⟩ := bind_eq_ok.mp h
    obtain ⟨_, S₃, hall, h⟩ := bind_eq_ok.mp h
    obtain ⟨e₁, rfl, hd₁, hcallee⟩ := Expr.lower_lays hcallee hd
    obtain ⟨e₂, rfl, hd₂, hreceiver⟩ := Lower.emit_lays (O := O) hreceiver hd₁ rfl
    obtain ⟨e₃, rfl, hd₃, hall⟩ := Expr.lowerAll_lays hall hd₂
    have hcount : (UInt8.ofNat args.length).toNat = args.length := by
      rw [UInt8.toNat_ofNat', Nat.mod_eq_of_lt (by omega)]
    have heffect : d + 2 + args.length - (Instr.call (UInt8.ofNat args.length)).stackEffect.pops +
        (Instr.call (UInt8.ofNat args.length)).stackEffect.pushes = d + 1 := by
      rw [Instr.stackEffect_call, hcount]
      show d + 2 + args.length - (args.length + 2) + 1 = d + 1
      omega
    obtain ⟨e₄, rfl, hd₄, hcall⟩ := Lower.emit_lays (O := O) h hd₃ heffect
    refine ⟨e₄, rfl, hd₄, (((hcallee.trans hreceiver).trans hall).trans hcall).imp ?_⟩
    rintro t ⟨⟨⟨hcallee, hreceiver⟩, hall⟩, hcall⟩
    exact ⟨_, _, _, hcallee, hreceiver, hall, by omega, hcall⟩
  | .await x, S, S', d, h, hd => by
    obtain ⟨_, S₁, hx, h⟩ := bind_eq_ok.mp h
    obtain ⟨e₁, rfl, hd₁, hx⟩ := Expr.lower_lays hx hd
    obtain ⟨e₂, hawait, rfl⟩ := Lower.lift_eq_ok h
    obtain ⟨hkind, hawait⟩ := Emitter.emitAwait_eq_ok hawait
    obtain ⟨hd₂, -, hawait⟩ := Emitter.emit_lays (O := O) hawait hd₁ rfl
    refine ⟨e₂, rfl, hd₂, ((hx.trans (Lays.ofKind O e₁)).trans hawait).imp ?_⟩
    rintro t ⟨⟨hx, hkind'⟩, hawait⟩
    exact ⟨by rwa [hkind'], _, hx, hawait⟩
  | .yield x, S, S', d, h, hd => by
    obtain ⟨_, S₁, hx, h⟩ := bind_eq_ok.mp h
    obtain ⟨e₁, rfl, hd₁, hx⟩ := Expr.lower_lays hx hd
    obtain ⟨e₂, hyield, rfl⟩ := Lower.lift_eq_ok h
    obtain ⟨hkind, hyield⟩ := Emitter.emitYield_eq_ok hyield
    obtain ⟨hd₂, -, hyield⟩ := Emitter.emit_lays (O := O) hyield hd₁ rfl
    refine ⟨e₂, rfl, hd₂, ((hx.trans (Lays.ofKind O e₁)).trans hyield).imp ?_⟩
    rintro t ⟨⟨hx, hkind'⟩, hyield⟩
    exact ⟨by rwa [hkind'], _, hx, hyield⟩

/-- Expressions are laid out where they were lowered, one after the other. -/
theorem Expr.lowerAll_lays : ∀ {xs : List Expr} {S S' : Lowering} {d : Nat},
    Expr.lowerAll xs S = .ok u S' → S.emitter.depth = d →
    ∃ e', S' = { S with emitter := e' } ∧ e'.depth = d + xs.length ∧
      Lays O O S.emitter e' fun t => Expr.LaidAll t S.names xs d S.emitter.code.size e'.code.size
  | [], S, S', d, h, hd => by
    cases h
    exact ⟨_, rfl, hd, (Lays.refl O _).imp fun _ _ => rfl⟩
  | x :: xs, S, S', d, h, hd => by
    obtain ⟨_, S₁, hx, h⟩ := bind_eq_ok.mp h
    obtain ⟨e₁, rfl, hd₁, hx⟩ := Expr.lower_lays hx hd
    obtain ⟨e₂, rfl, hd₂, hxs⟩ := Expr.lowerAll_lays h hd₁
    refine ⟨e₂, rfl, by rw [hd₂, List.length_cons]; omega, (hx.trans hxs).imp ?_⟩
    rintro t ⟨hx, hxs⟩
    exact ⟨_, hx, hxs⟩

end

end

/-! ### Exits -/

/-- The shapes of the innermost regions, and of those around them. -/
theorem forall₂_append_inv {α β : Type} {R : α → β → Prop} {l₂ : List α} :
    ∀ {l₁ : List α} {l : List β}, List.Forall₂ R (l₁ ++ l₂) l →
      ∃ xs ys, l = xs ++ ys ∧ List.Forall₂ R l₁ xs ∧ List.Forall₂ R l₂ ys
  | [], l, h => ⟨[], l, rfl, .nil, h⟩
  | _ :: l₁, _, .cons hhead htail => by
    obtain ⟨xs, ys, rfl, hxs, hys⟩ := forall₂_append_inv htail
    exact ⟨_ :: xs, ys, rfl, .cons hhead hxs, hys⟩

theorem flatMap_pending_eq : ∀ {regions regions' : List Region},
    List.Forall₂ Region.Alike regions regions' →
    regions'.flatMap Region.pending = regions.flatMap Region.pending
  | _, _, .nil => rfl
  | _, _, .cons h hs => by
    rw [List.flatMap_cons, List.flatMap_cons, h.pending_eq, flatMap_pending_eq hs]

theorem forall₂_replace {α β : Type} {R : α → β → Prop} {a a' : α} {l₂ : List α}
    (ha : ∀ x, R a x → R a' x) : ∀ {l₁ : List α} {l : List β},
    List.Forall₂ R (l₁ ++ a :: l₂) l → List.Forall₂ R (l₁ ++ a' :: l₂) l
  | [], _, .cons hhead htail => .cons (ha _ hhead) htail
  | _ :: _, _, .cons hhead htail => .cons hhead (forall₂_replace ha htail)

theorem forall₂_at {α β : Type} {R : α → β → Prop} {a : α} {x : β} {l₂ : List α} {ys : List β} :
    ∀ {l₁ : List α} {xs : List β}, List.Forall₂ R (l₁ ++ a :: l₂) (xs ++ x :: ys) →
      l₁.length = xs.length → R a x
  | [], [], .cons hhead _, _ => hhead
  | _ :: _, _ :: _, .cons _ htail, hlen => forall₂_at htail (Nat.succ.inj hlen)

/-- An emission that leaves names alone, and of the regions what is pending. -/
theorem Lays.lowers_exit {O O' : List PendingJump} {rs : List Shape} {S : Lowering} {e' : Emitter}
    {regions' : List Region} {P : Target → Prop}
    (h : Lays (O ++ S.pending) (O' ++ S.pending) S.emitter e' P) (hready : S.Ready rs)
    (hsuits : List.Forall₂ (Region.Suits S.names e') regions' rs)
    (halike : List.Forall₂ Region.Alike S.regions regions') :
    Lowers O O' rs rs S { S with emitter := e', regions := regions' } P :=
  { ready :=
      ⟨hsuits, fun b hb => Nat.lt_of_lt_of_le (hready.bound b hb) h.grown.localCount_le,
        hready.nonempty⟩
    becomes := halike.imp fun _ _ h => h.becomes
    breakTo_eq := rfl
    tail_eq := rfl
    lays := by
      show Lays (O ++ S.pending) (O' ++ regions'.flatMap Region.pending) S.emitter e' _
      rw [flatMap_pending_eq halike]
      exact h.imp fun t hP _ => hP }

/-- A jump out of a loop joins those that lead behind it. -/
theorem Lays.lowers_break {O : List PendingJump} {xs ys : List Shape} {x : Shape} {S : Lowering}
    {e' : Emitter} {inner outer : List Region} {l : LoopRegion} {j : PendingJump}
    {P : Target → Prop}
    (h : Lays (O ++ S.pending) (j :: (O ++ S.pending)) S.emitter e' P)
    (hregions : S.regions = inner ++ .loop l :: outer) (hlen : inner.length = xs.length)
    (hready : S.Ready (xs ++ x :: ys)) :
    Lowers O O (xs ++ x :: ys) (xs ++ x :: ys) S
      { S with
        emitter := e'
        regions := inner ++ .loop { l with breaks := l.breaks ++ [j] } :: outer }
      fun t => P t ∧ t.Leads j x.breakTo := by
  obtain ⟨hsuits, hbound, hnonempty⟩ := hready
  have hsuits := hsuits.imp fun _ _ hsuits => hsuits.grow h.grown
  rw [hregions] at hsuits
  have hperm : (j :: (O ++ S.pending)).Perm (O ++ (inner ++
      .loop { l with breaks := l.breaks ++ [j] } :: outer).flatMap Region.pending) := by
    have hpending : ∀ js, Region.pending (.loop { l with breaks := js }) = js := fun _ => rfl
    rw [Lowering.pending, hregions]
    simp only [List.flatMap_append, List.flatMap_cons, hpending, ← List.append_assoc]
    rw [List.append_assoc _ [j], List.singleton_append]
    exact List.perm_middle.symm
  exact
    { ready :=
        ⟨forall₂_replace (fun x hx => by cases hx with | loop hbehind => exact .loop hbehind) hsuits,
          fun b hb => Nat.lt_of_lt_of_le (hbound b hb) h.grown.localCount_le, hnonempty⟩
      becomes := by
        rw [hregions]
        exact List.rel_append (becomes_refl inner)
          (.cons ⟨rfl, fun _ hj => List.mem_append_left _ hj⟩ (becomes_refl outer))
      breakTo_eq := rfl
      tail_eq := rfl
      lays := (h.perm (.refl _) hperm).imp fun t hP hout =>
        ⟨hP, forall₂_at hout hlen j (List.mem_append_right _ List.mem_cons_self)⟩ }

namespace Lower

variable {O : List PendingJump} {rs : List Shape} {S S' : Lowering} {d : Nat} {u : Unit}

/-- Leaving the innermost regions. -/
theorem exits_lowers {inner outer inner' : List Region} {e' : Emitter}
    (h : Region.exitAll inner S.emitter = .ok inner' e') (hregions : S.regions = inner ++ outer)
    (hd : S.emitter.depth = d) (hready : S.Ready rs) :
    ∃ xs ys, rs = xs ++ ys ∧ inner'.length = xs.length ∧
      List.Forall₂ (Region.Suits S.names S.emitter) inner xs ∧
      List.Forall₂ (Region.Suits S.names S.emitter) outer ys ∧
      Lowers O O rs rs S { S with emitter := e', regions := inner' ++ outer } fun t =>
        ∀ x zs q, Region.Passes x xs →
          t.Leaving S.names zs x e'.depth e'.code.size q →
          t.Leaving S.names (xs ++ zs) x d S.emitter.code.size q := by
  have hsuits := hready.suits
  rw [hregions] at hsuits
  obtain ⟨xs, ys, rfl, hxs, hys⟩ := forall₂_append_inv hsuits
  obtain ⟨hxs', halike, hlays⟩ :=
    Region.exitAll_lays (O := O ++ S.pending) h hd hxs hready.bound
  refine ⟨xs, ys, rfl, hxs'.length_eq, hxs, hys, hlays.lowers_exit hready ?_ ?_⟩
  · exact List.rel_append hxs' (hys.imp fun _ _ hsuits => hsuits.grow hlays.grown)
  · rw [hregions]
    exact List.rel_append halike (List.forall₂_same.mpr fun r _ => .refl r)

theorem lift_if_eq_ok {c : Bool} {m : Emit Unit}
    (h : (if c = true then liftM m else pure () : Lower Unit) S = .ok u S') :
    ∃ e', (if c = true then m else pure ()) S.emitter = .ok u e' ∧ S' = { S with emitter := e' } := by
  cases c with
  | true => exact lift_eq_ok h
  | false =>
    cases h
    exact ⟨_, rfl, rfl⟩

/-- What a jump finds is the loop that it names. -/
theorem findLoop_eq_ok {label : Option String} {otherwise : CompileError}
    {inner outer : List Region} {l : LoopRegion}
    (h : findLoop label otherwise S = .ok (inner, l, outer) S') :
    S' = S ∧ S.regions = inner ++ .loop l :: outer ∧ Exit.names label l.label = true ∧
      ∀ l', .loop l' ∈ inner → Exit.names label l'.label = false := by
  obtain ⟨_, _, hget, h⟩ := bind_eq_ok.mp h
  cases hget
  cases hsplit : Region.splitAtLoop label S.regions with
  | some found =>
    rw [hsplit] at h
    cases h
    exact ⟨rfl, Region.splitAtLoop_eq hsplit⟩
  | none =>
    rw [hsplit] at h
    cases label <;> cases h

/-- Emit the return of the value on top. -/
def retTop : Lower Unit := do
  Emitter.emit .setRval
  let depth ← Emitter.currentDepth
  let regions ← Region.exitAll (← get).regions
  modify fun s => { s with regions }
  Emitter.emit .retRval
  Emitter.setDepth depth

theorem ret_eq (x : Option Expr) : ret x = (do
    match x with
    | some x => x.lower
    | none => Emitter.emit .constUndefined
    retTop) := by
  cases x <;> rfl

/-- A return leaves all regions. -/
theorem retTop_lowers (h : retTop S = .ok u S') (hd : S.emitter.depth = d + 1)
    (hready : S.Ready rs) :
    S'.names = S.names ∧ S'.emitter.depth = d ∧
      Lowers O O rs rs S S' fun t => ∃ m, t.Line (d + 1) S.emitter.code.size [.setRval] d m ∧
        t.Leaving S.names rs (.ret .undefined) d m S'.emitter.code.size := by
  obtain ⟨_, S₁, h₁, h⟩ := bind_eq_ok.mp h
  obtain ⟨depth, S₂, h₂, h⟩ := bind_eq_ok.mp h
  obtain ⟨_, S₃, h₃, h⟩ := bind_eq_ok.mp h
  obtain ⟨regions, S₄, h₄, h⟩ := bind_eq_ok.mp h
  obtain ⟨_, S₅, h₅, h⟩ := bind_eq_ok.mp h
  obtain ⟨_, S₆, h₆, h₇⟩ := bind_eq_ok.mp h
  obtain ⟨e₁, rfl, hd₁, hset⟩ := emit_lays (O := O ++ S.pending) h₁ hd rfl
  cases h₂
  cases h₃
  obtain ⟨e₂, hexits, rfl⟩ := lift_eq_ok h₄
  cases h₅
  have hset := hset.lowers hready
  obtain ⟨xs, ys, hrs, -, hxs, hys, hexits⟩ :=
    exits_lowers (O := O) hexits (List.append_nil _).symm hd₁ hset.ready
  cases hys
  rw [List.append_nil] at hrs hexits
  subst hrs
  let S₅ : Lowering := ⟨e₂, S.scopes, regions⟩
  obtain ⟨e₃, rfl, -, hret⟩ := emit_lays (O := O ++ S₅.pending) (S := S₅) h₆ rfl rfl
  obtain ⟨e₄, hend, rfl⟩ := lift_eq_ok h₇
  obtain ⟨hd₄, hsize₄, hend⟩ := Emitter.setDepth_lays (O := O ++ S₅.pending) hend
  have hend := (hret.trans hend).lowers (S := S₅) hexits.ready
  refine ⟨rfl, hd₄.trans hd₁, ((hset.trans hexits).trans hend).imp ?_⟩
  rintro t ⟨⟨hset, hexits⟩, hret, -⟩
  rw [← hsize₄] at hret
  have hleaving := hexits (.ret .undefined) [] _ (Region.passes_ret _ _) ⟨rfl, hret⟩
  rw [List.append_nil] at hleaving
  exact ⟨_, hset, hleaving⟩

/-- A `continue` leaves the regions inside of its loop. -/
theorem continueLoop_lowers {label : Option String} (h : continueLoop label S = .ok u S')
    (hd : S.emitter.depth = d) (hready : S.Ready rs) :
    S'.names = S.names ∧ S'.emitter.depth = d ∧
      Lowers O O rs rs S S' fun t =>
        t.Leaving S.names rs (.continueTo label) d S.emitter.code.size S'.emitter.code.size := by
  obtain ⟨⟨inner, l, outer⟩, S₁, h₁, h⟩ := bind_eq_ok.mp h
  obtain ⟨depth, S₂, h₂, h⟩ := bind_eq_ok.mp h
  obtain ⟨inner', S₃, h₃, h⟩ := bind_eq_ok.mp h
  obtain ⟨_, S₄, h₄, h⟩ := bind_eq_ok.mp h
  obtain ⟨_, S₅, h₅, h₆⟩ := bind_eq_ok.mp h
  obtain ⟨hS₁, hregions, hnames, hinner⟩ := findLoop_eq_ok h₁
  subst hS₁
  cases h₂
  obtain ⟨e₁, hexits, rfl⟩ := lift_eq_ok h₃
  obtain ⟨xs, ys, hrs, -, hxs, hys, hexits⟩ := exits_lowers (O := O) hexits hregions hd hready
  obtain ⟨x, ys, hx, hys, rfl⟩ := List.forall₂_cons_left_iff.mp hys
  obtain ⟨hbehind, breakTo, rfl⟩ := hx.of_loop
  subst hrs
  obtain ⟨e₂, hjump, rfl⟩ := lift_eq_ok h₄
  cases h₅
  obtain ⟨e₃, hend, rfl⟩ := lift_eq_ok h₆
  let S₄ : Lowering := ⟨e₁, S₁.scopes, inner' ++ .loop l :: outer⟩
  obtain ⟨-, hsize₂, hjump⟩ := Emitter.jumpTo_lays (O := O ++ S₄.pending) hjump rfl
    (Nat.le_trans hbehind hexits.lays.grown.size_le)
  obtain ⟨hd₃, hsize₃, hend⟩ := Emitter.setDepth_lays (O := O ++ S₄.pending) hend
  have hend := (hjump.trans hend).lowers (S := S₄) hexits.ready
  refine ⟨rfl, hd₃.trans hd, (hexits.trans hend).imp ?_⟩
  rintro t ⟨hexits, hjump, -⟩
  refine hexits (.continueTo label) _ _ (Region.passes_jump (.inl rfl) hinner hxs) ?_
  have hcontinued : (Shape.loop l.label l.isForOf l.continueTarget breakTo).isContinuedBy
      (.continueTo label) = true := hnames
  rw [Target.Leaving, if_pos hcontinued]
  exact ⟨hjump, hsize₃.trans hsize₂⟩

/-- A `break` leaves its loop and the regions inside of it. -/
theorem breakLoop_lowers {label : Option String} (h : breakLoop label S = .ok u S')
    (hd : S.emitter.depth = d) (hready : S.Ready rs) :
    S'.names = S.names ∧ S'.emitter.depth = d ∧
      Lowers O O rs rs S S' fun t =>
        t.Leaving S.names rs (.breakTo label) d S.emitter.code.size S'.emitter.code.size := by
  obtain ⟨⟨inner, l, outer⟩, S₁, h₁, h⟩ := bind_eq_ok.mp h
  obtain ⟨depth, S₂, h₂, h⟩ := bind_eq_ok.mp h
  obtain ⟨inner', S₃, h₃, h⟩ := bind_eq_ok.mp h
  obtain ⟨hS₁, hregions, hnames, hinner⟩ := findLoop_eq_ok h₁
  subst hS₁
  cases h₂
  obtain ⟨e₁, hexits, rfl⟩ := lift_eq_ok h₃
  obtain ⟨xs, ys, hrs, hlen, hxs, hys, hexits⟩ := exits_lowers (O := O) hexits hregions hd hready
  obtain ⟨x, ys, hx, hys, rfl⟩ := List.forall₂_cons_left_iff.mp hys
  obtain ⟨hbehind, breakTo, rfl⟩ := hx.of_loop
  subst hrs
  obtain ⟨S₄, h₄, h⟩ := bind_if_eq_ok h
  obtain ⟨_, S₅, h₅, h⟩ := bind_eq_ok.mp h
  obtain ⟨e₂, hclose, rfl⟩ := lift_if_eq_ok h₄
  cases h₅
  split at h
  · cases h
  obtain ⟨j, S₆, h₆, h⟩ := bind_eq_ok.mp h
  obtain ⟨_, S₇, h₇, h₈⟩ := bind_eq_ok.mp h
  obtain ⟨e₃, hjump, rfl⟩ := lift_eq_ok h₆
  cases h₇
  obtain ⟨e₄, hend, rfl⟩ := lift_eq_ok h₈
  let S₃ : Lowering := ⟨e₁, S₁.scopes, inner' ++ .loop l :: outer⟩
  have hclose := Region.closeIterator_lays (O := O ++ S₃.pending) hclose rfl
  obtain ⟨-, hsize₃, hjump⟩ := Emitter.jump_lays (O := O ++ S₃.pending) hjump rfl rfl
  obtain ⟨hd₄, hsize₄, hend⟩ := Emitter.setDepth_lays (O := j :: (O ++ S₃.pending)) hend
  have hbreak := ((hclose.trans hjump).trans hend).lowers_break rfl hlen hexits.ready
  refine ⟨rfl, hd₄.trans hd, (hexits.trans hbreak).imp ?_⟩
  rintro t ⟨hexits, ⟨⟨hclose, hjump⟩, -⟩, hleads⟩
  refine hexits (.breakTo label) _ _ (Region.passes_jump (.inr rfl) hinner hxs) ?_
  have hcontinued : (Shape.loop l.label l.isForOf l.continueTarget breakTo).isContinuedBy
      (.breakTo label) = false := rfl
  have hbroken : (Shape.loop l.label l.isForOf l.continueTarget breakTo).isBrokenBy
      (.breakTo label) = true := hnames
  rw [Target.Leaving, hcontinued, hbroken]
  exact ⟨_, _, hclose, hjump _ hleads, hsize₄.trans hsize₃⟩

end Lower

end ResourceMachine
