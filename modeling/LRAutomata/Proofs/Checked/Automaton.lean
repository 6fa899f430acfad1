/-
  The construction of an automaton without splitting, with its lookups checked.

  * `Checked.lr0`: the graph, state by state;
  * `Checked.lookaheads`: the relations, for which right-hand sides are read
    from every state with a transition on their nonterminal;
  * `Checked.ofGraph`: the actions of the states.
-/
import LRAutomata.Proofs.Automaton.Lookahead
import LRAutomata.Proofs.Checked.SetEquations

namespace LRAutomata

/-- The items of all states exist. -/
def Graph.InRange (g : Grammar) (a : Graph) : Prop :=
  ∀ {q}, q < a.size → ∀ i ∈ (a.core q).items, i.InRange g

theorem Graph.OfItems.inRange {g : Grammar} {a : Graph} (h : a.OfItems g) (wf : g.WellFormed)
    (reach : a.Reachable) : a.InRange g := by
  intro q hq i hi
  obtain ⟨γ, hγ⟩ := reach q hq
  exact ((h.mem_items_iff wf hγ).1 hi).inRange wf

namespace Checked

/-! ## The graph -/

/-- Look up the items of a state, and the states to which its transitions lead:
    it becomes one of their predecessors. -/
def connections (g : Grammar) (a : Graph) (q : StateId) : Checked Unit := do
  index q a.size
  (a.core q).items.forM (item g)
  (a.core q).edges.forM fun e => index e.target a.size

/-- Complete the state `q`. -/
def expand (g : Grammar) (cores : Array Core) (q : StateId) : Checked (Array Core) := do
  index q cores.size
  connections g ⟨Lr0.expand g cores q⟩ q
  pure (Lr0.expand g cores q)

/-- Complete the states from `q` on. -/
def expandFrom (g : Grammar) : (rounds : Nat) → Array Core → StateId → Checked (Array Core)
  | 0, cores, _ => pure cores
  | rounds + 1, cores, q =>
    if q < cores.size then do expandFrom g rounds (← expand g cores q) (q + 1) else pure cores

/-- The LR(0) automaton of a grammar. -/
def lr0 (g : Grammar) : Checked Graph := do
  let cores ← expandFrom g (subsetCount (Lr0.itemCount g))
    #[Lr0.fresh StateId.start none [Item.start]] StateId.start
  pure (Graph.link ⟨cores⟩)

variable {g : Grammar} {a : Graph} {p q : StateId} {γ : List SymbolId}

theorem connections_eq_ok (wf : g.WellFormed) (narrow : g.Narrow) (h : Lr0.Growing g a (q + 1))
    (hq : q < a.size) : connections g a q = .ok () := by
  have complete := h.complete hq (Nat.lt_succ_self q)
  have items : ∀ i ∈ (a.core q).items, i.InRange g := by
    intro i hi
    rcases List.mem_append.1 hi with hi | hi
    · exact h.inRange hq i hi
    · rw [complete.closure_eq] at hi
      obtain ⟨r, hr, -, rfl⟩ := Grammar.mem_closure.1 hi
      exact ⟨hr, Nat.zero_le _⟩
  simp only [connections, seq_eq_ok, index_eq_ok, forM_eq_ok]
  exact ⟨hq, fun i hi => item_eq_ok wf narrow (items i hi), complete.target_lt⟩

theorem expand_eq_ok (wf : g.WellFormed) (narrow : g.Narrow) {cores : Array Core}
    (h : Lr0.Growing g ⟨cores⟩ q) (hq : q < cores.size) :
    expand g cores q = .ok (Lr0.expand g cores q) := by
  obtain ⟨hgrow, hlt⟩ := h.expand hq
  rw [expand, index_eq_ok.2 hq, ok_bind]
  generalize Lr0.expand g cores q = expanded at hgrow hlt
  rw [connections_eq_ok wf narrow hgrow hlt]
  rfl

theorem expandFrom_eq_ok (wf : g.WellFormed) (narrow : g.Narrow) :
    ∀ (rounds : Nat) {cores : Array Core} {q : StateId}, Lr0.Growing g ⟨cores⟩ q →
      expandFrom g rounds cores q = .ok (Lr0.expandFrom g rounds cores q)
  | 0, _, _, _ => rfl
  | rounds + 1, cores, q, h => by
    rw [expandFrom, Lr0.expandFrom]
    split
    · rename_i hq
      rw [expand_eq_ok wf narrow h hq, ok_bind]
      exact expandFrom_eq_ok wf narrow rounds (h.expand hq).1
    · rfl

theorem lr0_eq_ok (wf : g.WellFormed) (narrow : g.Narrow) : lr0 g = .ok (Lr0.graph g) := by
  rw [lr0, expandFrom_eq_ok wf narrow _ (Lr0.growing_start wf)]
  rfl

/-! ## Lookaheads -/

/-- The state reached by reading a string. -/
def transition (a : Graph) : StateId → List SymbolId → Checked StateId
  | q, [] => pure q
  | q, X :: rest => do
    index q a.size
    (a.next? q X).elim (.error (.noTransition q X)) fun next => transition a next rest

/-- Read a rule from a state: up to the end, and up to each symbol before it. -/
def readRule (g : Grammar) (a : Graph) (q : StateId) (r : RuleId) : Checked Unit := do
  rule g r
  (List.range ((g.rhs r).length + 1)).forM fun n => do
    discard (transition a q ((g.rhs r).take n))

/-- The relations and sets from which lookaheads are computed. -/
def lookaheads (g : Grammar) (a : Graph) : Checked Lookaheads := do
  a.states.forM fun s => s.1.edges.forM fun e => do
    symbol g e.symbol
    index e.target a.size
  let directRead := Lookaheads.directReads g a
  let reads := Lookaheads.readsRelation g a
  let read ← solve ⟨reads, directRead⟩ directRead.keys
  (Lookaheads.gotos g a).forM fun p => (g.rulesOf p.symbol).forM (readRule g a p.source)
  let includes := Lookaheads.includesRelation g a
  let lookback := Lookaheads.lookbackRelation g a
  let follow ← solve ⟨includes, read⟩ directRead.keys
  pure { directRead, reads, read, includes, lookback, follow
         la := Lookaheads.lookaheadSets g a lookback follow }

theorem transition_eq_ok (h : a.OfItems g) : ∀ {γ : List SymbolId} {p : StateId}, p < a.size →
    a.Reads p γ q → transition a p γ = .ok q
  | [], p, _, hγ => by rw [transition, Graph.reads_nil.1 hγ]; rfl
  | X :: γ, p, hp, hγ => by
    obtain ⟨r, hr, hγ⟩ := Graph.reads_cons.1 hγ
    rw [transition, index_eq_ok.2 hp, ok_bind, hr, Option.elim_some]
    exact transition_eq_ok h (h.next?_kernel hp hr).1 hγ

theorem readRule_eq_ok (h : a.OfItems g) (wf : g.WellFormed) {z : Goto}
    (hz : z ∈ Lookaheads.gotos g a) {r : RuleId} (hr : r ∈ g.rulesOf z.symbol) :
    readRule g a z.source r = .ok () := by
  obtain ⟨hr, hlhs⟩ := wf.mem_rulesOf.1 hr
  obtain ⟨last, hlast⟩ := Lookaheads.exists_reads_rhs h wf hz hr hlhs
  simp only [readRule, seq_eq_ok, forM_eq_ok]
  refine ⟨rule_eq_ok wf hr, fun n _ => ?_⟩
  rw [← List.take_append_drop n (g.rhs r)] at hlast
  obtain ⟨s, hs, -⟩ := Graph.reads_append.1 hlast
  rw [transition_eq_ok h ((Lookaheads.mem_gotos h).1 hz).1 hs]
  rfl

theorem symbol_edge_lt (h : a.OfItems g) (wf : g.WellFormed) (inRange : a.InRange g) (hq : q < a.size)
    {e : Edge} (he : e ∈ (a.core q).edges) : e.symbol < g.symbols.size := by
  obtain ⟨i, hi, hnext⟩ := (h.exists_edge_iff hq).1 ⟨e, he, rfl⟩
  exact symbol_next_lt wf (inRange hq i hi) hnext

theorem lookaheads_eq_ok (h : a.OfItems g) (wf : g.WellFormed) (inRange : a.InRange g) :
    lookaheads g a = .ok (Lookaheads.compute g a) := by
  have edges : (a.states.forM fun s => s.1.edges.forM fun e => do
      symbol g e.symbol
      index e.target a.size) = .ok () := by
    simp only [forM_eq_ok, symbol, seq_eq_ok, index_eq_ok]
    rintro ⟨c, q⟩ hs e he
    obtain ⟨hq, rfl⟩ := Graph.mem_states.1 hs
    exact ⟨symbol_edge_lt h wf inRange hq he, h.target_lt hq e he⟩
  have rules : ((Lookaheads.gotos g a).forM fun p =>
      (g.rulesOf p.symbol).forM (readRule g a p.source)) = .ok () := by
    simp only [forM_eq_ok]
    exact fun z hz r hr => readRule_eq_ok h wf hz hr
  simp only [lookaheads, edges, solve_eq_ok, rules, ok_bind]
  rfl

/-! ## Actions -/

/-- Look up what the actions of a state and their conflicts depend on: the
    items, the symbols read, and the precedence of the rules to reduce by. -/
def actions (g : Grammar) (c : Core) : Checked Unit := do
  c.items.forM (item g)
  c.edges.forM fun e => symbol g e.symbol
  (c.completeItems g).forM fun i => forSome (g.rule i.rule).precSymbol (symbol g)

/-- Compute lookaheads and actions for a transition graph. -/
def ofGraph (g : Grammar) (a : Graph) : Checked Automaton := do
  let lookaheads ← lookaheads g a
  a.states.forM fun s => actions g s.1
  pure ⟨(a.states.map fun s => State.ofCore g lookaheads.la s.1 s.2).toArray, lookaheads⟩

theorem actions_eq_ok (h : a.OfItems g) (wf : g.WellFormed) (narrow : g.Narrow)
    (inRange : a.InRange g) (hq : q < a.size) : actions g (a.core q) = .ok () := by
  simp only [actions, symbol, seq_eq_ok, forM_eq_ok, index_eq_ok, forSome_eq_ok]
  refine ⟨fun i hi => item_eq_ok wf narrow (inRange hq i hi),
    fun e he => symbol_edge_lt h wf inRange hq he, fun i hi X hX => ?_⟩
  exact wf.precSymbol_lt (inRange hq i (Lookaheads.mem_completeItems.1 hi).1).1 X hX

theorem ofGraph_eq_ok (h : a.OfItems g) (wf : g.WellFormed) (narrow : g.Narrow)
    (inRange : a.InRange g) : ofGraph g a = .ok (Automaton.ofGraph g a) := by
  have hstates : (a.states.forM fun s => actions g s.1) = .ok () := by
    rw [forM_eq_ok]
    rintro ⟨c, q⟩ hs
    obtain ⟨hq, rfl⟩ := Graph.mem_states.1 hs
    exact actions_eq_ok h wf narrow inRange hq
  rw [ofGraph, lookaheads_eq_ok h wf inRange, ok_bind, hstates]
  rfl

end Checked

end LRAutomata
