/-
# Modules with a scope more

What is known of one block is known of machines. If a block of a function is replaced by a twin
of it, machines cannot be told apart into one of which the module is loaded with the function as
it was, and into the other one the module with the function as it is then. So a resource that is
nullish may be declared anywhere (`Moment.bisimilar_nullish`), and where all resources are sync,
a block may be split in two at each of them (`Moment.bisimilar_split`).

The machine numbers the boxes that it makes for its own use, and so the entities that never change
get other numbers on the one side than on the other. Hosts cannot read these (`Host.Blind`).

Key definitions: `Declaration.Twin`, `Module.Variants`.
Key theorems: `Module.Built.twins`, `Moment.bisimilar_of_twin`, `Moment.bisimilar_nullish`,
`Moment.bisimilar_split`.
-/
import ResourceMachine.Proofs.Acceptance
import ResourceMachine.Proofs.ScopeSplitting
import ResourceMachine.Proofs.SynchronousRun
import ResourceMachine.Proofs.TwinMachines

namespace ResourceMachine

variable {σ : Type} {host : Host σ} {same : Pairing → σ → σ → Prop} {ρ : Pairing}

/-! ### Functions that are called alike -/

/-- Functions of one name, calls of which that are made alike can be told apart by nobody. -/
structure Declaration.Twin (host : Host σ) (same : Pairing → σ → σ → Prop) (d d' : Declaration) : Prop where
  name : d'.name = d.name
  kind : d'.kind = d.kind
  call : ∀ {n ρ args args'}, Value.AllAlike ρ args args' →
    Eval.Twins same .any .any .any Value.Alike ρ (d.call host n args) (d'.call host n args')

theorem Declaration.twin_self (hhost : host.Blind same) (d : Declaration) : d.Twin host same d where
  name := rfl
  kind := rfl
  call hargs := Declaration.call_twins (N := fun _ => True) rfl rfl
    (Block.twins_self hhost d.body fun _ _ => trivial) hargs

/-- A function with a block replaced by a twin of it. -/
theorem Declaration.Rewritten.twin (hhost : host.Blind same) {d d' : Declaration} {E : List Stmt → List Stmt → Prop}
    {N : String → Prop} (h : d.Rewritten E d') (hreads : ∀ x, Stmt.readsAny x d.body = true → N x)
    (hE : ∀ n b b', E b b' → (∀ x, Stmt.readsAny x b = true → N x) → Block.Twins same host d.kind n N b b') :
    d.Twin host same d' where
  name := h.name
  kind := h.kind
  call {n} := h.call_twins hhost hreads (hE n)

/-- The code of such functions runs side by side. -/
theorem Declaration.Twin.calls {d d' : Declaration} (h : d.Twin host same d') {c c' : Call} (hc : c.Calls d)
    (hc' : c'.Calls d') (hargs : Value.AllAlike ρ c.args c'.args) {room room' : Nat}
    (hroom : c.function.maxStack ≤ room) (hroom' : c'.function.maxStack ≤ room') :
    c.Twin host same room room' ρ c' where
  kind := hc.kind_eq.trans (h.kind.symm.trans hc'.kind_eq.symm)
  alongside {τ world world' globals globals'} hτ hworld hglobals n := by
    let e : Entry σ := ⟨c, room, world, globals⟩
    let e' : Entry σ := ⟨c', room', world', globals'⟩
    have hstart : (e.initial []).Alike same .any τ (e'.initial []) :=
      ⟨⟨hworld, hglobals, .nil, .undefined⟩, rfl, rfl, trivial⟩
    have htwin : Eval.Twin same (d.call host n e.call.args) (d'.call host n e'.call.args)
        (Eval.Lands same .any .any Value.Alike) τ (e.initial []) (e'.initial []) :=
      h.call hargs τ _ _ hτ hstart
    exact Entry.alongside_of_twin hc hroom hc' hroom' htwin rfl rfl

/-! ### Modules -/

/-- Modules are twins if their functions are, one by one. -/
theorem Module.Built.twins {ds ds' : List Declaration} {m m' : Module} (hm : Built ds m) (hm' : Built ds' m')
    (hsize : m.constants.size ≤ 4294967296) (hsize' : m'.constants.size ≤ 4294967296)
    (hnodes : ∀ d ∈ ds, d.nodes ≤ 2147483647) (hnodes' : ∀ d ∈ ds', d.nodes ≤ 2147483647)
    (hds : List.Forall₂ (Declaration.Twin host same) ds ds') {room room' : Nat}
    (hroom : ∀ f ∈ m.functions, f.maxStack ≤ room) (hroom' : ∀ f ∈ m'.functions, f.maxStack ≤ room') :
    m.Twins host same room room' m' where
  names := by
    rw [hm.names_eq, hm'.names_eq]
    clear hm hm' hnodes hnodes'
    induction hds with
    | nil => rfl
    | cons hd _ ih => rw [List.map_cons, List.map_cons, hd.name, ih]
  calls {ρ c c'} hunit hunit' hindex hargs := by
    subst hunit
    subst hunit'
    have hnamed {ds : List Declaration} {c : Call} (hm : Built ds c.unit) :
        ∃ d, ds[c.index]? = some d ∧ c.function.name = d.name := by
      have hnames := congrArg (·[c.index]?) hm.names_eq
      simp only [List.getElem?_map, c.found, Option.map_some] at hnames
      obtain ⟨d, hd, hname⟩ := Option.map_eq_some_iff.mp hnames.symm
      exact ⟨d, hd, hname.symm⟩
    obtain ⟨d, hd, hname⟩ := hnamed hm
    obtain ⟨d', hd', hname'⟩ := hnamed hm'
    have htwin := getElem?_rel hds c.index
    rw [hd, hindex, hd'] at htwin
    have hmem := List.mem_of_getElem? hd
    have hmem' := List.mem_of_getElem? hd'
    cases htwin with
    | some htwin =>
      exact htwin.calls (hm.calls hsize hmem (hnodes d hmem) rfl hname)
        (hm'.calls hsize' hmem' (hnodes' d' hmem') rfl hname') hargs
        (hroom _ (List.mem_of_getElem? c.found)) (hroom' _ (List.mem_of_getElem? c'.found))

/-- Modules that were compiled from the same declarations but for one, with functions for which
there is room enough. -/
inductive Module.Variants (d d' : Declaration) (room room' : Nat) (m m' : Module) : Prop
  | intro (name : String) (before after : List Declaration)
    (compiled : Module.compile name (before ++ d :: after) = .ok m)
    (compiled' : Module.compile name (before ++ d' :: after) = .ok m')
    (nodes : Declaration.nodesAll (before ++ d :: after) < 2147483648)
    (nodes' : Declaration.nodesAll (before ++ d' :: after) < 2147483648)
    (fits : ∀ f ∈ m.functions, f.maxStack ≤ room) (fits' : ∀ f ∈ m'.functions, f.maxStack ≤ room') :
    Module.Variants d d' room room' m m'

theorem Module.Variants.twins (hhost : host.Blind same) {d d' : Declaration} (hd : d.Twin host same d')
    {room room' : Nat} {m m' : Module} (h : Module.Variants d d' room room' m m') :
    m.Twins host same room room' m' := by
  obtain ⟨_, _, _, compiled, compiled', nodes, nodes', hroom, hroom'⟩ := h
  obtain ⟨hbuilt, -, hsize⟩ := Module.compile_built compiled nodes
  obtain ⟨hbuilt', -, hsize'⟩ := Module.compile_built compiled' nodes'
  have hnodes {ds : List Declaration} (h : Declaration.nodesAll ds < 2147483648) : ∀ d ∈ ds, d.nodes ≤ 2147483647 :=
    fun d hd => by
      have := Declaration.nodes_le_nodesAll hd
      omega
  refine hbuilt.twins hbuilt' (by omega) (by omega) (hnodes nodes) (hnodes nodes') ?_ hroom hroom'
  have hself (ds : List Declaration) : List.Forall₂ (Declaration.Twin host same) ds ds :=
    List.forall₂_same.mpr fun d _ => d.twin_self hhost
  exact List.rel_append (hself _) (.cons hd (hself _))

/-- Functions that are compiled into a module are fit to run. -/
theorem Module.exists_compiled (ds : List Declaration) (room : Nat) (hnodes : Declaration.nodesAll ds < 2147483648)
    (h : ((Module.named "m").compileAll ds).toOption.any
      (fun m => m.functions.all fun f => decide (f.maxStack ≤ room)) = true) :
    ∃ m, Module.compile "m" ds = .ok m ∧ ∀ f ∈ m.functions, f.maxStack ≤ room := by
  obtain ⟨m, hm, hroom⟩ := (Option.any_eq_true _ _).mp h
  exact ⟨m, compile_of_compileAll (ok_of_toOption hm) hnodes,
    fun f hf => of_decide_eq_true (List.all_eq_true.mp hroom f hf)⟩

/-! ### A blind host -/

/-- A host that keeps account of what is called, and answers with the first argument. -/
def Ledger.call : Host (List HostFunction) := fun f _ args w =>
  .ok (args.headD .undefined) ⟨w.heap, w.host ++ [f]⟩

theorem Ledger.blind : Host.Blind Ledger.call fun _ s s' => s = s' where
  mono _ h := h
  call f ρ r r' args args' _ hargs w w' hw := by
    have hanswer : (args.headD .undefined).Alike ρ (args'.headD .undefined) := by
      cases hargs with
      | nil => exact .undefined
      | cons hv _ => exact hv
    exact .ok (le_refl ρ) ⟨hw.heap, congrArg (· ++ [f]) hw.host⟩ hanswer

theorem Ledger.unclosing : Ledger.call.Unclosing := fun h => by cases h

/-- Every entity stands for itself; none has been made that never changes. -/
def Pairing.initial : Pairing := .still fun realm _ => realm ≠ .constant

theorem World.renumbered_empty (s : σ) : World.Renumbered (fun _ s s' => s = s') .initial ⟨.empty, s⟩ ⟨.empty, s⟩ where
  heap :=
    { still := fun hne => ⟨fun h => h.2, fun h => ⟨hne, h⟩⟩
      known := fun h => absurd rfl h.1
      oneToOne := by
        rintro realm a b a' b' ⟨-, rfl⟩ ⟨-, rfl⟩
        exact Iff.rfl
      objects := .nil
      promises := .nil
      iterators := .nil }
  host := rfl

/-! ### Machines -/

namespace Moment

variable {d d' : Declaration} {world world' : World σ}

/-- No host can tell which of two functions a module has that are called alike. -/
theorem bisimilar_of_twin (hhost : host.Blind same) (hd : d.Twin host same d') (room room' : Nat)
    (hworld : World.Renumbered same ρ world world') :
    Bisimilar host same (Module.Variants d d' room room') ρ (.idle (Vm.create ⟨room, none⟩ world) [])
      (.idle (Vm.create ⟨room', none⟩ world') []) :=
  bisimilar_of_twins (fun _ _ hm => hm.twins hhost hd) hworld

/-- **An empty scope is transparent.** Where a nullish resource is declared in a block, under a
name that nobody reads, no host can tell. -/
theorem bisimilar_nullish (hhost : host.Blind same) {u : String} (h : d.Rewritten (Block.Nullish u) d')
    (hfresh : Stmt.readsAny u d.body = false) (room room' : Nat) (hworld : World.Renumbered same ρ world world') :
    Bisimilar host same (Module.Variants d d' room room') ρ (.idle (Vm.create ⟨room, none⟩ world) [])
      (.idle (Vm.create ⟨room', none⟩ world') []) := by
  have hreads (x : String) (hx : Stmt.readsAny x d.body = true) : x ≠ u := by
    rintro rfl
    rw [hfresh] at hx
    cases hx
  exact bisimilar_of_twin hhost (h.twin hhost hreads fun _ _ _ hb hreads => hb.twins hhost (by simp) hreads)
    room room' hworld

/-- A generator that hands out what it is given, item by item. -/
def handing : Declaration := ⟨"f", .generator, ["x"],
  [.forOf none "y" none (.binding "x") [.expr (.yield (.binding "y"))]]⟩

/-- The same with a resource of no use in the loop. -/
def handingInScope : Declaration := ⟨"f", .generator, ["x"],
  [.forOf none "y" none (.binding "x") [.usingIn "u" .sync .null, .expr (.yield (.binding "y"))]]⟩

theorem bisimilar_nullish_handing : handing.Rewritten (Block.Nullish "u") handingInScope ∧
    Stmt.readsAny "u" handing.body = false ∧ (∃ m m', Module.Variants handing handingInScope 16 16 m m') ∧
    Bisimilar Ledger.call (fun _ s s' => s = s') (Module.Variants handing handingInScope 16 16) .initial
      (.idle (Vm.create ⟨16, none⟩ ⟨.empty, []⟩) []) (.idle (Vm.create ⟨16, none⟩ ⟨.empty, []⟩) []) := by
  have h : handing.Rewritten (Block.Nullish "u") handingInScope :=
    ⟨rfl, rfl, rfl, .inside [] [] (.forOf (.here (.intro [] [.expr (.yield (.binding "y"))] (.inl rfl))))⟩
  have hfresh : Stmt.readsAny "u" handing.body = false := by decide
  obtain ⟨m, hm, hroom⟩ := Module.exists_compiled [handing] 16 (by decide) (by decide +kernel)
  obtain ⟨m', hm', hroom'⟩ := Module.exists_compiled [handingInScope] 16 (by decide) (by decide +kernel)
  exact ⟨h, hfresh, ⟨m, m', .intro "m" [] [] hm hm' (by decide) (by decide) hroom hroom'⟩,
    bisimilar_nullish Ledger.blind h hfresh 16 16 (World.renumbered_empty [])⟩

/-- **One scope with several sync resources is as good as nested scopes.** Where a block whose
resources are all sync is split in two at one of them, no host can tell whose functions do not
throw the signal that closes generators. -/
theorem bisimilar_split (hhost : host.Blind same) (hclosing : host.Unclosing) (h : d.Rewritten Block.Split d')
    (room room' : Nat) (hworld : World.Renumbered same ρ world world') :
    Bisimilar host same (Module.Variants d d' room room') ρ (.idle (Vm.create ⟨room, none⟩ world) [])
      (.idle (Vm.create ⟨room', none⟩ world') []) :=
  bisimilar_of_twin hhost (h.twin hhost (N := fun _ => True) (fun _ _ => trivial) fun _ _ _ hb hreads =>
    hb.twins hhost hclosing hreads) room room' hworld

/-- A generator that declares two resources at once. -/
def holding : Declaration := ⟨"f", .generator, ["x", "y"],
  [.usingIn "a" .sync (.binding "x"), .usingIn "b" .sync (.binding "y"), .expr (.yield (.binding "a"))]⟩

/-- The same with a scope for each. -/
def holdingApart : Declaration := ⟨"f", .generator, ["x", "y"],
  [.usingIn "a" .sync (.binding "x"),
    .block [.usingIn "b" .sync (.binding "y"), .expr (.yield (.binding "a"))]]⟩

theorem bisimilar_split_holding : holding.Rewritten Block.Split holdingApart ∧
    (∃ m m', Module.Variants holding holdingApart 16 16 m m') ∧
    Bisimilar Ledger.call (fun _ s s' => s = s') (Module.Variants holding holdingApart 16 16) .initial
      (.idle (Vm.create ⟨16, none⟩ ⟨.empty, []⟩) []) (.idle (Vm.create ⟨16, none⟩ ⟨.empty, []⟩) []) := by
  have hsync : ∀ s ∈ holding.body, s.registers .async = false := by
    simp [holding, Stmt.registers]
  have h : holding.Rewritten Block.Split holdingApart :=
    ⟨rfl, rfl, rfl, .here (.intro [.usingIn "a" .sync (.binding "x")] "b" (.binding "y")
      [.expr (.yield (.binding "a"))] hsync)⟩
  obtain ⟨m, hm, hroom⟩ := Module.exists_compiled [holding] 16 (by decide) (by decide +kernel)
  obtain ⟨m', hm', hroom'⟩ := Module.exists_compiled [holdingApart] 16 (by decide) (by decide +kernel)
  exact ⟨h, ⟨m, m', .intro "m" [] [] hm hm' (by decide) (by decide) hroom hroom'⟩,
    bisimilar_split Ledger.blind Ledger.unclosing h 16 16 (World.renumbered_empty [])⟩

end Moment

end ResourceMachine
