/-
# The layout of compiled functions

A function that compiles is laid out in the code that it has then, and stays laid out
while further functions add texts to the pool: a module keeps the texts of all its
functions (`Module.Built`).

Key definitions: `ConstantPool.Sound`, `ConstantPool.Extends`, `Function.target`,
`Declaration.Laid`, `Module.Built`.
Key theorems: `Declaration.compile_laid`, `Module.compileAll_built`.
-/
import ResourceMachine.Proofs.PoolGrowth
import ResourceMachine.Proofs.StatementEmission

namespace ResourceMachine

/-! ### Pools -/

namespace ConstantPool

/-- The index of a pool finds texts where they are. -/
def Sound (pool : ConstantPool) : Prop := ∀ s i, pool.find? s = some i → pool.get? i = some s

/-- A pool holds the texts of another one, where they are there. -/
def Extends (pool pool' : ConstantPool) : Prop :=
  ∀ i s, pool.get? i = some s → pool'.get? i = some s

theorem sound_empty : Sound empty := nofun

theorem Extends.refl (pool : ConstantPool) : pool.Extends pool := fun _ _ h => h

theorem Extends.trans {pool pool' pool'' : ConstantPool} (h : pool.Extends pool')
    (h' : pool'.Extends pool'') : pool.Extends pool'' := fun i s hs => h' i s (h i s hs)

end ConstantPool

/-! ### Functions -/

/-- A finished function over a pool. -/
def Function.target (f : Function) (pool : ConstantPool) (h : pool.size ≤ 4294967296) : Target where
  code := f.code
  constants := pool
  kind := f.kind
  maxStack := f.maxStack
  localCount := f.localCount
  addressable := h

namespace Declaration

/-- The code of `Declaration.lower`: the body, and behind it the return of undefined. -/
def Laid (d : Declaration) (t : Target) : Prop :=
  t.kind = d.kind ∧ d.params.length ≤ t.localCount ∧ d.params.length ≤ 65535 ∧
    ∃ m, t.Block d.paramScope d.body []
      (fun rs p p' q => Stmt.LaidAll t d.body rs d.paramScope p p' q) 0 0 m ∧
      t.Line 0 m [.constUndefined, .setRval, .retRval] 0 t.code.size

/-- The parameters of a function have its first locals. -/
theorem paramScope_bound {d : Declaration} {n : Nat} (hn : d.params.length ≤ n)
    (hlt : d.params.length ≤ 65535) : d.paramScope.Bound n := by
  intro b hb
  obtain ⟨⟨name, k⟩, hk, rfl⟩ := List.mem_map.mp (List.mem_reverse.mp hb)
  have hk := (List.mem_zipIdx hk).2.1
  show (UInt16.ofNat k).toNat < n
  rw [UInt16.toNat_ofNat_of_lt' (by show k < 65536; omega)]
  omega

/-- What a function that is started holds. -/
theorem start_eq_ok {d : Declaration} {pool : ConstantPool} {e : Emitter}
    (h : Emitter.start d.name d.kind d.params.length pool = .ok e) :
    d.params.length ≤ 65535 ∧ e.name = d.name ∧ e.kind = d.kind ∧ e.paramCount = d.params.length ∧
      e.constants = pool ∧ e.depth = 0 ∧ e.code.size = 0 ∧
      e.localCount.toNat = d.params.length := by
  unfold Emitter.start at h
  split at h
  · cases h
  · cases h
    have hle : d.params.length ≤ 65535 := by omega
    refine ⟨hle, rfl, rfl, rfl, rfl, rfl, rfl, ?_⟩
    exact UInt16.toNat_ofNat_of_lt' (by show d.params.length < 65536; omega)

/-- A function that is lowered is laid out in the code that is finished then. -/
theorem lower_lays {d : Declaration} {e : Emitter} {u : Unit} {S' : Lowering}
    (h : d.lower ⟨e, [d.paramScope], []⟩ = .ok u S') (hd : e.depth = 0)
    (hbound : d.paramScope.Bound e.localCount.toNat) :
    Lays [] [] e S'.emitter fun t => ∃ m,
      t.Block d.paramScope d.body []
        (fun rs p p' q => Stmt.LaidAll t d.body rs d.paramScope p p' q) 0 e.code.size m ∧
      t.Line 0 m [.constUndefined, .setRval, .retRval] 0 S'.emitter.code.size := by
  let S₀ : Lowering := ⟨e, [d.paramScope], []⟩
  have hnames : S₀.names = d.paramScope := by simp [S₀, Lowering.names]
  have hready : S₀.Ready [] := ⟨.nil, by rw [hnames]; exact hbound, by simp⟩
  obtain ⟨_, S₁, h₁, h⟩ := bind_eq_ok.mp h
  obtain ⟨_, S₂, h₂, h⟩ := bind_eq_ok.mp h
  obtain ⟨_, S₃, h₃, h₄⟩ := bind_eq_ok.mp h
  obtain ⟨-, hd₁, hblock⟩ :=
    Lower.inBlock_lowers (O := []) (Stmt.loweredAll d.body) h₁ hd hnames hready
  obtain ⟨e₂, hemit, rfl⟩ := Lower.lift_eq_ok h₂
  obtain ⟨-, hline⟩ := Emitter.emitAll_lays (O := []) hemit hd₁ rfl
  have hS' : S' = { S₁ with emitter := e₂ } := by
    cases h₃
    split at h₄
    · cases h₄
    · cases h₄
      rfl
  have hregions : S₁.regions = [] := List.forall₂_nil_left_iff.mp hblock.becomes
  have hlays := hblock.lays
  rw [show S₀.pending = [] from rfl, Lowering.pending, hregions] at hlays
  subst hS'
  refine (hlays.trans hline).imp ?_
  rintro t ⟨hblock, hline⟩
  exact ⟨_, hblock .nil, hline⟩

/-- A function that compiles is laid out over every pool that keeps its texts. -/
theorem compile_laid {d : Declaration} {pool pool' : ConstantPool} {f : Function}
    (h : d.compile pool = (.ok f, pool')) (hpool : pool.Sound) (hsize : pool'.size ≤ 4294967296) :
    pool'.Sound ∧ pool.Extends pool' ∧ f.name = d.name ∧ f.kind = d.kind ∧
      f.paramCount = d.params.length ∧
      ∀ pool'' (hsize : pool''.size ≤ 4294967296), pool'.Extends pool'' →
        d.Laid (f.target pool'' hsize) := by
  unfold compile at h
  cases he : Emitter.start d.name d.kind d.params.length pool with
  | error x =>
    rw [he] at h
    cases h
  | ok e =>
    rw [he] at h
    simp only at h
    cases hd : d.lower ⟨e, [d.paramScope], []⟩ with
    | error x S =>
      rw [hd] at h
      cases h
    | ok u S =>
      rw [hd] at h
      cases h
      obtain ⟨hparams, hname, hkind, hparamCount, hconstants, hdepth, hcode, hlocals⟩ :=
        start_eq_ok he
      have hlays := lower_lays hd hdepth (paramScope_bound (Nat.le_of_eq hlocals.symm) hparams)
      have htidy : Tidy [] e := ⟨nofun, .nil, by rw [hconstants]; exact hpool⟩
      have hfits : ∀ pool'' (hsize : pool''.size ≤ 4294967296), S.emitter.constants.Extends pool'' →
          Fits [] S.emitter (S.emitter.finish.target pool'' hsize) := fun pool'' hsize hextends =>
        ⟨Nat.le_refl _, fun _ _ _ => rfl, rfl, Nat.le_refl _, Nat.le_refl _, hextends⟩
      have hheader : S.emitter.header = e.header := hlays.grown.header_eq
      simp only [Emitter.header, Prod.mk.injEq, hname, hkind, hparamCount] at hheader
      obtain ⟨hname', hkind', hparamCount'⟩ := hheader
      refine ⟨(hlays.tidy htidy).pool, ?_, hname', hkind', hparamCount', ?_⟩
      · rw [← hconstants]
        exact (hlays.fits htidy (hfits _ hsize (.refl _))).1.texts
      · intro pool'' hsize hextends
        obtain ⟨-, m, hblock, hline⟩ := hlays.fits htidy (hfits _ hsize hextends)
        rw [hcode] at hblock
        have hcount : d.params.length ≤ S.emitter.localCount.toNat := by
          rw [← hlocals]
          exact hlays.grown.localCount_le
        exact ⟨hkind', hcount, hparams, m, hblock, hline⟩

end Declaration

/-! ### Modules -/

/-- What a compiled function has of its declaration, and that it is laid out over every
pool that keeps the texts of a pool. -/
structure Declaration.Compiled (pool : ConstantPool) (d : Declaration) (f : Function) : Prop where
  name_eq : f.name = d.name
  kind_eq : f.kind = d.kind
  paramCount_eq : f.paramCount = d.params.length
  laid : ∀ pool' (hsize : pool'.size ≤ 4294967296), pool.Extends pool' →
    d.Laid (f.target pool' hsize)

theorem Declaration.Compiled.extend {d : Declaration} {f : Function} {pool pool' : ConstantPool}
    (h : d.Compiled pool f) (hpool : pool.Extends pool') : d.Compiled pool' f :=
  { h with laid := fun pool'' hsize hextends => h.laid pool'' hsize (hpool.trans hextends) }

namespace Module

/-- A module with the functions of these declarations, which have different names. -/
structure Built (ds : List Declaration) (m : Module) : Prop where
  sound : m.constants.Sound
  compiled : List.Forall₂ (Declaration.Compiled m.constants) ds m.functions
  distinct : (ds.map Declaration.name).Nodup

theorem Built.named (name : String) : Built [] (Module.named name) :=
  ⟨ConstantPool.sound_empty, .nil, List.nodup_nil⟩

/-- The functions of a module have the names of its declarations. -/
theorem Built.names_eq {ds : List Declaration} {m : Module} (h : Built ds m) :
    m.functions.map Function.name = ds.map Declaration.name := by
  obtain ⟨-, hcompiled, -⟩ := h
  generalize m.functions = fs at hcompiled
  induction hcompiled with
  | nil => rfl
  | cons hd _ ih => rw [List.map_cons, List.map_cons, hd.name_eq, ih]

/-- A function is added to a module. -/
theorem Built.snoc {ds : List Declaration} {m : Module} {d : Declaration} {f : Function}
    {pool : ConstantPool} (h : Built ds m) (hnew : m.function? d.name = none)
    (hcompile : d.compile m.constants = (.ok f, pool)) (hsize : pool.size ≤ 4294967296) :
    Built (ds ++ [d]) { m with constants := pool, functions := m.functions ++ [f] } := by
  obtain ⟨hsound, hextends, hname, hkind, hparams, hlaid⟩ :=
    Declaration.compile_laid hcompile h.sound hsize
  refine ⟨hsound, ?_, ?_⟩
  · refine List.rel_append (h.compiled.imp fun _ _ h => h.extend hextends) (.cons ?_ .nil)
    exact ⟨hname, hkind, hparams, hlaid⟩
  · rw [List.map_append, List.nodup_append]
    refine ⟨h.distinct, List.pairwise_singleton _ _, ?_⟩
    intro x hx y hy heq
    obtain rfl := List.mem_singleton.mp hy
    rw [← h.names_eq] at hx
    obtain ⟨g, hg, hgname⟩ := List.mem_map.mp hx
    have := List.find?_eq_none.mp hnew g hg
    simp [hgname, heq] at this

/-- A module that functions are compiled into has these and those that it had. -/
theorem compileAll_built : ∀ (ds : List Declaration) {ds₀ : List Declaration} {m m' : Module},
    m.compileAll ds = .ok m' → Built ds₀ m →
    m.constants.size + Declaration.nodesAll ds ≤ 4294967296 → Built (ds₀ ++ ds) m'
  | [], ds₀, m, m', h, hm, _ => by
    cases h
    rwa [List.append_nil]
  | d :: ds, ds₀, m, m', h, hm, hsize => by
    unfold compileAll at h
    split at h
    · cases h
    · rename_i hnew
      have hd := d.compile_adds m.constants
      split at h
      · cases h
      · rename_i f pool hf
        rw [hf] at hd
        simp only [Declaration.nodesAll] at hsize hd
        have hnew : m.function? d.name = none := by simpa using hnew
        have hbuilt := hm.snoc hnew hf (by omega)
        have := compileAll_built ds h hbuilt (by
          show pool.size + Declaration.nodesAll ds ≤ 4294967296
          omega)
        rwa [List.append_assoc] at this

/-- A module that compiles has a function for every declaration, and is fit to run. -/
theorem compile_built {name : String} {ds : List Declaration} {m : Module}
    (h : compile name ds = .ok m) (hnodes : Declaration.nodesAll ds < 2147483648) :
    Built ds m ∧ m.verify = .ok () ∧ m.constants.size ≤ 2147483648 := by
  unfold compile at h
  cases hall : (Module.named name).compileAll ds with
  | error x =>
    rw [hall] at h
    cases h
  | ok m' =>
    rw [hall] at h
    have hsize := compileAll_adds ds hall
    have hempty : (Module.named name).constants.size = 0 := rfl
    have hbuilt := compileAll_built ds hall (.named name) (by omega)
    cases hverify : m'.verify with
    | error x =>
      simp only [bind, Except.bind, hverify, Except.mapError] at h
      cases h
    | ok u =>
      simp only [bind, Except.bind, hverify, Except.mapError] at h
      cases h
      exact ⟨hbuilt, hverify, by omega⟩

end Module
end ResourceMachine
