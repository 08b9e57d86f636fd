/-
# Closing a generator is returning at its `yield`

To close a generator that is suspended at a `yield` is to return there: the function that has
`return yield` in its place, and is handed the value, does what can be seen alike from then on, and
comes to the same end. That is proved of the compiled code of both functions, for every place and
every sequence of replies, whether or not methods fail that dispose resources.

It does not extend to iterators that fail to close. While a generator is closed, such an error is
dropped, as it is behind an exception; but a return gives way to it. So both calls go on alike only
up to the first iterator that throws when it is closed (`Entry.Parting.fails`), and from there they may
end differently (`Moment.closing_drops`).

Key definitions: `Entry.Parting`.
Key theorems: `Entry.parting_of_kin`, `Declaration.Outline.parting`.
-/
import ResourceMachine.Host.Scripted
import ResourceMachine.Proofs.ClosedPlaces
import ResourceMachine.Proofs.RewrittenModules
import ResourceMachine.Proofs.Trial

namespace ResourceMachine

variable {σ : Type}

namespace Entry

/-- Two calls run side by side for `n` instructions at least, of which the first one may be closed
where the second one returns. Both go on for so long, and what they do is alike, or both come to an
end or stop alike. Where they have stopped, they go on so whatever replies they get. There they are
resumed alike, but where the first one stands as `there` says, it is closed, and the second one is
handed the value. Since then, they may also have come to an iterator that fails to close. -/
inductive Parting (host : Host σ) (same : Pairing → σ → σ → Prop) (e e' : Entry σ)
    (there : List (Reply σ) → Prop) (n : Nat) : Option Nat → Pairing → List (Reply σ) → List (Reply σ) → Prop
  | lasts {since : Option Nat} {ρ ρ' : Pairing} {script script' : List (Reply σ)} {s s' : Session σ} (le : ρ ≤ ρ')
      (left : e.Lasts host n script s) (right : e'.Lasts host n script' s') (beside : s.Beside same ρ' s') :
      Parting host same e e' there n since ρ script script'
  | comes {since : Option Nat} {ρ ρ' : Pairing} {script script' : List (Reply σ)} {s s' : Session σ} {o o' : Outcome}
      (le : ρ ≤ ρ') (left : e.Comes host script s o) (right : e'.Comes host script' s' o') (alike : o.Alike ρ' o')
      (beside : s.Beside same ρ' s') (elsewhere : ¬ there script)
      (next : ∀ {τ : Pairing} {r r' : Reply σ}, o.suspension?.isSome → ρ' ≤ τ → r.Unclosing → r.Alike same τ r' →
        Parting host same e e' there n since τ (script ++ [r]) (script' ++ [r'])) :
      Parting host same e e' there n since ρ script script'
  | stands {since : Option Nat} {ρ ρ' : Pairing} {script script' : List (Reply σ)} {s s' : Session σ} {v v' : Value}
      (le : ρ ≤ ρ') (left : e.Comes host script s (.yields v)) (right : e'.Comes host script' s' (.yields v'))
      (alike : v.Alike ρ' v') (beside : s.Beside same ρ' s') (stands : there script)
      (next : ∀ {τ : Pairing} {r r' : Reply σ}, ρ' ≤ τ → r.Parts same τ r' →
        Parting host same e e' there n (some s.trace.length) τ (script ++ [r]) (script' ++ [r'])) :
      Parting host same e e' there n since ρ script script'
  | fails {since : Nat} {ρ ρ' : Pairing} {script script' : List (Reply σ)} {s s' : Session σ} {k k' : Nat}
      {es es' : List Event} (le : ρ ≤ ρ') (left : e.Gets host script k s) (right : e'.Gets host script' k' s')
      (started : es <+: s.trace) (started' : es' <+: s'.trace) (seen : Event.SeenAlike ρ' es es')
      (breaks : Event.Breaks since es) : Parting host same e e' there n (some since) ρ script script'

variable {host : Host σ} {same : Pairing → σ → σ → Prop} {e e' : Entry σ} {d d' : Declaration} {ρ : Pairing} {n : Nat}

/-- A session gets to where its call comes to, however that is. -/
theorem exists_gets (hd : e.call.Calls d) (hroom : e.call.function.maxStack ≤ e.room) (script : List (Reply σ)) :
    ∃ k s, e.Gets host script k s ∧ s.trace = (stateOf (d.call host n e.call.args (e.initial script))).trace := by
  obtain ⟨k, s, hgets, -, -, -, htrace⟩ := follows hd hroom host n script
  refine ⟨k, s, hgets, htrace.trans ?_⟩
  unfold Declaration.run
  cases d.call host n e.call.args (e.initial script) with
  | ok v T => rfl
  | error i T =>
    cases i with
    | thrown e => cases e <;> rfl
    | _ => rfl

theorem comes_of_give (hd : e.call.Calls d) (hroom : e.call.function.maxStack ≤ e.room) {script : List (Reply σ)}
    {r : Except Value Value} {T : CallState σ} (h : d.call host n e.call.args (e.initial script) = Eval.give r T) :
    ∃ s, e.Comes host script s (.ofResult T.rval r) ∧ Meets s T :=
  comes_of_run hd hroom (Declaration.run_of_give h)

theorem comes_of_suspended (hd : e.call.Calls d) (hroom : e.call.function.maxStack ≤ e.room) {script : List (Reply σ)}
    {p : Suspension} {T : CallState σ} (h : d.call host n e.call.args (e.initial script) = .error (.suspended p) T) :
    ∃ s, e.Comes host script s p.outcome ∧ Meets s T := by
  refine comes_of_run (n := n) hd hroom ?_
  rw [Declaration.run, h]

theorem lasts_of_outOfFuel (hd : e.call.Calls d) (hroom : e.call.function.maxStack ≤ e.room) {script : List (Reply σ)}
    {T : CallState σ} (h : d.call host n e.call.args (e.initial script) = .error .outOfFuel T) :
    ∃ s, e.Lasts host n script s ∧ Meets s T := by
  refine lasts_of_spent hd hroom ?_
  rw [Declaration.run, h]

/-- How calls end of which the first one was closed, and the second one returns. -/
theorem outcome_of_ends {since : Option Nat} {K : Alignment} {r r' : Except Value Value} {T T' : CallState σ}
    (h : Eval.Ends same K Value.Alike Value.Alike since ρ r T r' T') :
    (Outcome.ofResult T.rval r).Alike ρ (Outcome.ofResult T'.rval r') ∧ T.Beside same ρ T' := by
  cases h with
  | lands hl => exact hl.outcome
  | parted returns calls _ => exact ⟨.completed returns, calls.toBeside⟩

/-- With these replies, the call waits, and the marked one has given up. -/
def Marked (host : Host σ) (d : Declaration) (n : Nat) (marked : Eval σ Value) (e : Entry σ) (script : List (Reply σ)) :
    Prop :=
  (∃ p T, d.call host n e.call.args (e.initial script) = .error (.suspended p) T) ∧
    ∃ T, marked (e.initial script) = .error .outOfFuel T

/-- **The code of functions runs side by side of which one may be closed where the other returns.** -/
theorem parting_of_kin (hd : e.call.Calls d) (hroom : e.call.function.maxStack ≤ e.room)
    (hd' : e'.call.Calls d') (hroom' : e'.call.function.maxStack ≤ e'.room) {K : Alignment} {marked : Eval σ Value}
    {since : Option Nat} {S S' : CallState σ}
    (h : Eval.Kin same (d.call host n e.call.args) (d'.call host n e'.call.args) marked
      (Eval.Ends same K Value.Alike Value.Alike) since ρ S S') :
    ∀ {script script' : List (Reply σ)}, S = e.initial script → S' = e'.initial script' →
      e.Parting host same e' (e.Marked host d n marked) n since ρ script script' := by
  induction h with
  | @ends since ρ ρ' S S' T T' r r' le left mark right alike =>
    rintro script script' rfl rfl
    have hleft := left []
    have hright := right []
    rw [CallState.more_nil, CallState.more_nil] at hleft hright
    obtain ⟨halike, hbeside⟩ := outcome_of_ends alike
    obtain ⟨s, hcomes, hmeets⟩ := comes_of_give hd hroom hleft
    obtain ⟨s', hcomes', hmeets'⟩ := comes_of_give hd' hroom' hright
    refine .comes le hcomes hcomes' halike (hmeets.beside hmeets' hbeside) ?_ fun ho => ?_
    · rintro ⟨⟨p, U, hsuspended⟩, -⟩
      rw [hleft] at hsuspended
      cases r <;> cases hsuspended
    · rw [Outcome.ofResult_suspension?] at ho
      cases ho
  | spent le left right seen =>
    rintro script script' rfl rfl
    have hleft := left []
    have hright := right []
    rw [CallState.more_nil, CallState.more_nil] at hleft hright
    obtain ⟨s, hlasts, hmeets⟩ := lasts_of_outOfFuel hd hroom hleft
    obtain ⟨s', hlasts', hmeets'⟩ := lasts_of_outOfFuel hd' hroom' hright
    exact .lasts le hlasts hlasts' (hmeets.beside hmeets' seen)
  | @waits since ρ ρ' S S' T T' p p' le left mark right asks seen _ ih =>
    rintro script script' rfl rfl
    obtain ⟨s, hcomes, hmeets⟩ := comes_of_suspended hd hroom left
    obtain ⟨s', hcomes', hmeets'⟩ := comes_of_suspended hd' hroom' right
    refine .comes le hcomes hcomes' ?_ (hmeets.beside hmeets' seen) ?_ fun _ hτ hclosing hr =>
      ih hτ hclosing hr (more_initial e script _) (more_initial e' script' _)
    · cases asks with
      | await hv => exact .awaits hv
      | yield hv => exact .yields hv
    · rintro ⟨-, U, hspent⟩
      rw [mark] at hspent
      cases hspent
  | @stands since ρ ρ' S S' T T' U v v' le left mark right asks seen _ ih =>
    rintro script script' rfl rfl
    obtain ⟨s, hcomes, hmeets⟩ := comes_of_suspended hd hroom left
    obtain ⟨s', hcomes', hmeets'⟩ := comes_of_suspended hd' hroom' right
    refine .stands le hcomes hcomes' asks (hmeets.beside hmeets' seen) ⟨⟨_, _, left⟩, _, mark⟩ fun hτ hr => ?_
    rw [hmeets.trace]
    exact ih hτ hr (more_initial e script _) (more_initial e' script' _)
  | @fails since ρ ρ' S S' es es' le left right seen breaks =>
    rintro script script' rfl rfl
    have hleft := left []
    have hright := right []
    rw [CallState.more_nil] at hleft hright
    obtain ⟨k, s, hgets, htrace⟩ := exists_gets hd hroom script
    obtain ⟨k', s', hgets', htrace'⟩ := exists_gets hd' hroom' script'
    exact .fails le hgets hgets' (htrace ▸ hleft) (htrace' ▸ hright) seen breaks

end Entry

/-- A world with an iterator that fails to close. -/
def World.lent (s : σ) : World σ := ⟨{ Heap.empty with iterators := #[.ofList [.int 1] (some (.int 9))] }, s⟩

theorem World.renumbered_lent (s : σ) : World.Renumbered (fun _ s s' => s = s') .initial (.lent s) (.lent s) where
  heap :=
    { (World.renumbered_empty s).heap with
      iterators := .cons ⟨.cons (.int 1) .nil, rfl, rfl, .some (.int 9)⟩ .nil }
  host := rfl

/-! ### Functions -/

namespace Declaration.Outline

/-- With these replies, a call is suspended at the `yield` that stands at the place: it is suspended,
and where that `yield` gives up if there is no reply to it, the call does. -/
abbrev Stands (o : Outline) (host : Host σ) (e : Expr) (n : Nat) (c : Entry σ) : List (Reply σ) → Prop :=
  c.Marked host (o.fill (.expr (.yield e))) n (o.call host n (Stmt.watch host e) c.call.args)

/-- **To close a generator is to return at its `yield`**, until an iterator fails to close. One function
has `yield e` as a statement at some place, and the other one `return yield e`. Calls of them that are
made alike run side by side, with alike replies while they are suspended elsewhere; and where the first
one is closed at the `yield`, with a value that the second one is handed. -/
theorem parting {host : Host σ} {same : Pairing → σ → σ → Prop} {ρ : Pairing} (hhost : host.Blind same)
    (hclosing : host.Unclosing) (o : Outline) (hkind : o.kind.isGenerator = true) (e : Expr) {room room' : Nat}
    {m m' : Module} (h : Module.Variants (o.fill (.expr (.yield e))) (o.fill (.ret (some (.yield e)))) room room' m m')
    {c c' : Call} (hunit : c.unit = m) (hunit' : c'.unit = m') (hname : c.function.name = o.name)
    (hname' : c'.function.name = o.name) (hargs : Value.AllAlike ρ c.args c'.args) {world world' : World σ}
    (hworld : World.Renumbered same ρ world world') {globals globals' : Globals}
    (hglobals : Value.EntriesAlike ρ globals globals') (n : Nat) :
    Entry.Parting host same ⟨c, room, world, globals⟩ ⟨c', room', world', globals'⟩
      (o.Stands host e n ⟨c, room, world, globals⟩) n none ρ [] [] := by
  obtain ⟨name, before, after, hcompile, hcompile', hnodes, hnodes', hfits, hfits'⟩ := h
  have hcalls {s : Stmt} {m : Module} {c : Call} (hcompile : Module.compile name (before ++ o.fill s :: after) = .ok m)
      (hnodes : Declaration.nodesAll (before ++ o.fill s :: after) < 2147483648) (hunit : c.unit = m)
      (hname : c.function.name = o.name) : c.Calls (o.fill s) := by
    obtain ⟨hbuilt, -, hsize⟩ := Module.compile_built hcompile hnodes
    have hmem : o.fill s ∈ before ++ o.fill s :: after := List.mem_append_right _ List.mem_cons_self
    have hle := Declaration.nodes_le_nodesAll hmem
    exact hbuilt.calls (by omega) hmem (by omega) hunit hname
  have hroom : c.function.maxStack ≤ room := hfits _ (hunit ▸ List.mem_of_getElem? c.found)
  have hroom' : c'.function.maxStack ≤ room' := hfits' _ (hunit' ▸ List.mem_of_getElem? c'.found)
  let entry : Entry σ := ⟨c, room, world, globals⟩
  let entry' : Entry σ := ⟨c', room', world', globals'⟩
  have hstart : (entry.initial []).Alike same .any ρ (entry'.initial []) :=
    ⟨⟨hworld, hglobals, .nil, .undefined⟩, rfl, rfl, trivial⟩
  have hc : entry.call.Calls (o.fill (.expr (.yield e))) := hcalls hcompile hnodes hunit hname
  have hc' : entry'.call.Calls (o.fill (.ret (some (.yield e)))) := hcalls hcompile' hnodes' hunit' hname'
  have hkin := o.call_kins (n := n) (K := .any) hhost hclosing hkind e hargs none ρ _ _ (le_refl ρ) hstart
  exact Entry.parting_of_kin (e := entry) hc hroom hc' hroom' hkin rfl rfl

/-- A generator that hands out what it is given, with a resource that it was lent, item by item. -/
def handingOut : Outline := ⟨"f", .generator, ["x", "r"],
  .inside [] (.forOf none "y" none (.binding "x")) (.inside [.usingIn "u" .sync (.binding "r")]
    (.tryBody none []) (.here [] []) []) []⟩

/-- A function that is compiled into a module can be called. -/
theorem exists_call {d : Declaration} {m : Module} (hm : Module.compile "m" [d] = .ok m)
    (hnodes : Declaration.nodesAll [d] < 2147483648) (args : List Value) :
    ∃ c : Call, c.unit = m ∧ c.function.name = d.name ∧ c.args = args := by
  obtain ⟨hbuilt, -, -⟩ := Module.compile_built hm hnodes
  have hnames := congrArg (·[0]?) hbuilt.names_eq
  simp only [List.getElem?_map, List.getElem?_cons_zero, List.map_cons] at hnames
  obtain ⟨f, hf, hname⟩ := Option.map_eq_some_iff.mp hnames
  exact ⟨⟨m, 0, f, args, hf⟩, rfl, hname, rfl⟩

theorem parting_handingOut : ∃ (m m' : Module) (c c' : Call),
    Module.Variants (handingOut.fill (.expr (.yield (.binding "y"))))
      (handingOut.fill (.ret (some (.yield (.binding "y"))))) 16 16 m m' ∧
    c.unit = m ∧ c'.unit = m' ∧ c.function.name = "f" ∧ c'.function.name = "f" ∧
    handingOut.Stands Ledger.call (.binding "y") 1 ⟨c, 16, .lent [], []⟩ [] ∧
    ∀ n, Entry.Parting Ledger.call (fun _ s s' => s = s') ⟨c, 16, .lent [], []⟩ ⟨c', 16, .lent [], []⟩
      (handingOut.Stands Ledger.call (.binding "y") n ⟨c, 16, .lent [], []⟩) n none .initial [] [] := by
  let d := handingOut.fill (.expr (.yield (.binding "y")))
  let d' := handingOut.fill (.ret (some (.yield (.binding "y"))))
  obtain ⟨m, hm, hroom⟩ := Module.exists_compiled [d] 16 (by decide) (by decide +kernel)
  obtain ⟨m', hm', hroom'⟩ := Module.exists_compiled [d'] 16 (by decide) (by decide +kernel)
  obtain ⟨c, hunit, hname, hargs⟩ := exists_call hm (by decide) [.iterator 0]
  obtain ⟨c', hunit', hname', hargs'⟩ := exists_call hm' (by decide) [.iterator 0]
  have hvariants : Module.Variants d d' 16 16 m m' := .intro "m" [] [] hm hm' (by decide) (by decide) hroom hroom'
  have halike : Value.AllAlike .initial c.args c'.args := by
    rw [hargs, hargs']
    exact .cons (.iterator ⟨fun h => (by cases h), rfl⟩) .nil
  have hsuspended : ∃ T, d.call Ledger.call 1 [.iterator 0] (.initial (.lent []) [] []) =
      .error (.suspended (.yield (.int 1))) T := ⟨_, rfl⟩
  have hspent : ∃ T, handingOut.call Ledger.call 1 (Stmt.watch Ledger.call (.binding "y")) [.iterator 0]
      (.initial (.lent []) [] []) = .error .outOfFuel T := ⟨_, rfl⟩
  rw [← hargs] at hsuspended hspent
  have hstands : handingOut.Stands Ledger.call (.binding "y") 1 ⟨c, 16, .lent [], []⟩ [] := ⟨⟨_, hsuspended⟩, hspent⟩
  exact ⟨m, m', c, c', hvariants, hunit, hunit', hname, hname', hstands,
    parting Ledger.blind Ledger.unclosing handingOut rfl (.binding "y") hvariants hunit hunit' hname hname' halike
      (World.renumbered_lent []) .nil⟩

end Declaration.Outline

/-! ### An iterator that fails to close -/

namespace Moment

/-- A generator that hands out what it is given, item by item. -/
def lending : Declaration.Outline :=
  ⟨"g", .generator, ["x"], .inside [] (.forOf none "y" none (.binding "x")) (.here [] []) []⟩

/-- What a task has handed out. -/
def handed? : TaskState → Option Value
  | .yielded v => some v
  | _ => none

/-- The number that is found in the state of the first task, when the generator has this statement and
gets these moves. -/
def found (what : TaskState → Option Value) (s : Stmt) (moves : List Move) : Option Int32 := do
  let μ ← trial Console.call .standard (.lent .empty) [] [lending.fill s] "g" [.iterator 0] moves
  let t ← μ.vm.schedule.get? ⟨0⟩
  match ← what t.state with
  | .int n => some n
  | _ => none

/-- **Closing drops the error.** Both functions have handed out 1. The one is closed with 5, and returns
it, though the iterator has failed to close with 9; the other one is handed 5 and throws 9. -/
theorem closing_drops :
    found handed? (.expr (.yield (.binding "y"))) [.resume ⟨0⟩ .start, .run 20] = some 1 ∧
    found handed? (.ret (some (.yield (.binding "y")))) [.resume ⟨0⟩ .start, .run 20] = some 1 ∧
    found TaskState.returned? (.expr (.yield (.binding "y")))
      [.resume ⟨0⟩ .start, .run 20, .resume ⟨0⟩ (.ret (.int 5)), .run 20] = some 5 ∧
    found TaskState.thrown? (.ret (some (.yield (.binding "y"))))
      [.resume ⟨0⟩ .start, .run 20, .resume ⟨0⟩ (.next (.int 5)), .run 20] = some 9 := by
  decide +kernel

end Moment

end ResourceMachine
