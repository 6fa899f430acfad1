/-
  Tracing back inadequacies, with its lookups checked.

  Kernel items are known by their places in the kernel of a state, and these
  places travel: from the equations for what follows a transition into the
  annotations of its state, and from the annotations of a state into those of
  its predecessors.  `LookaheadSources.Traced` is what keeps them within the kernels.

  * `Checked.gotoFollows`, `Checked.kernelLookaheads`: where lookaheads come from;
  * `Checked.trace`: the annotations of all states.
-/
import LRAutomata.Proofs.Automaton.Tracing
import LRAutomata.Proofs.Checked.Automaton

namespace LRAutomata

theorem Automaton.Complete.inRange {g : Grammar} {a : Graph} (h : Complete g a) (wf : g.WellFormed) :
    a.InRange g :=
  h.toOfItems.inRange wf h.reachable

namespace Checked

open LookaheadSources

/-- A complete graph of a grammar whose right-hand sides leave a position beyond
    their ends. -/
structure Ready (g : Grammar) (a : Graph) : Prop extends Automaton.Complete g a where
  wf : g.WellFormed
  narrow : g.Narrow

theorem Ready.kernelItem_eq_ok {g : Grammar} {a : Graph} {q : StateId} {i : Item} (h : Ready g a)
    (hq : q < a.size) (hi : i ∈ (a.core q).kernel) : item g i = .ok () :=
  item_eq_ok h.wf h.narrow (h.inRange h.wf hq i (List.mem_append_left _ hi))

/-! ## What follows a transition -/

/-- The two sources of what follows each transition of an automaton. -/
def gotoFollows (g : Grammar) (a : Automaton) : Checked GotoFollows := do
  let gotos := a.lookaheads.directRead.keys
  (Lookaheads.gotos g a.graph).forM fun p => (g.rulesOf p.symbol).forM (rule g)
  let includes := GotoFollows.alwaysIncludes g a.graph
  let always ← solve ⟨GotoFollows.join a.lookaheads.reads includes, a.lookaheads.directRead⟩ gotos
  gotos.forM fun p => do
    index p.source a.states.size
    (a.graph.core p.source).kernel.forM (item g)
  let direct := OrderedMap.ofList (gotos.map fun p =>
    (p, GotoFollows.directKernelItems g (a.graph.core p.source).kernel p.symbol))
  let kernelItems ← solve ⟨includes, direct⟩ gotos
  pure { always, kernelItems }

variable {g : Grammar} {a : Graph} {p q : StateId} {k : Nat}

theorem kernel_eq_ok (h : Ready g a) (hq : q < a.size) :
    (a.core q).kernel.forM (item g) = .ok () :=
  forM_eq_ok.2 fun _ hi => h.kernelItem_eq_ok hq hi

theorem gotoFollows_eq_ok (h : Ready g a) :
    gotoFollows g (.ofGraph g a) = .ok (GotoFollows.compute g (.ofGraph g a)) := by
  have rules : ((Lookaheads.gotos g (Automaton.ofGraph g a).graph).forM fun p =>
      (g.rulesOf p.symbol).forM (rule g)) = .ok () := by
    simp only [forM_eq_ok]
    exact fun _ _ r hr => rule_eq_ok h.wf (h.wf.mem_rulesOf.1 hr).1
  have sources : ((Automaton.ofGraph g a).lookaheads.directRead.keys.forM fun p => do
      index p.source (Automaton.ofGraph g a).states.size
      ((Automaton.ofGraph g a).graph.core p.source).kernel.forM (item g)) = .ok () := by
    rw [forM_eq_ok, Automaton.graph_ofGraph, Automaton.size_ofGraph]
    rintro ⟨q, A⟩ hp
    have hq := ((Lookaheads.mem_gotos h.toOfItems).1
      (Lookaheads.mem_keys_directReads.1 hp)).1
    rw [seq_eq_ok, index_eq_ok]
    exact ⟨hq, kernel_eq_ok h hq⟩
  simp only [gotoFollows, rules, sources, solve_eq_ok, ok_bind]
  rfl

/-! ## The lookaheads of kernel items -/

/-- Look up the lookahead set of a kernel item. -/
def kernelSet (table : KernelLookaheads) (q : StateId) (k : Nat) : Checked Unit := do
  index q table.size
  index k (table.getD q []).length

/-- Look up what an item has from a predecessor. -/
def fromPredecessor (g : Grammar) (a : Automaton) (table : KernelLookaheads) (i : Item)
    (p : StateId) : Checked Unit := do
  item g i
  index p a.states.size
  (a.state p).kernel.forM (item g)
  whenever (i.position ≠ 1)
    (forSome ((a.state p).kernel.findIdx? fun j => j.precedes i) (kernelSet table p))

/-- Fill in the lookaheads of the kernel items with the dot at `position`. -/
def fill (g : Grammar) (a : Automaton) (table : KernelLookaheads) (position : Nat) :
    Checked KernelLookaheads := do
  a.states.toList.zipIdx.forM fun s => s.1.kernel.zipIdx.forM fun k =>
    whenever (k.1.position = position ∧ k.1.rule ≠ RuleId.accept) do
      s.1.predecessors.forM (fromPredecessor g a table k.1)
      kernelSet table s.2 k.2
  pure (KernelLookaheads.fill g a table position)

/-- The lookaheads of all kernel items. -/
def kernelLookaheads (g : Grammar) (a : Automaton) : Checked KernelLookaheads :=
  let start := (a.states.toList.map fun s => s.kernel.map fun _ => ∅).toArray
  let last := greatest (a.states.toList.flatMap fun s => s.kernel.map Item.position)
  (List.range last).foldlM (fun table n => fill g a table (n + 1)) start

theorem kernelSet_eq_ok {table : KernelLookaheads} (hs : table.Shaped a) (hq : q < a.size)
    (hk : k < (a.core q).kernel.length) : kernelSet table q k = .ok () := by
  rw [kernelSet, seq_eq_ok, index_eq_ok, index_eq_ok, hs.1, hs.2 q hq]
  exact ⟨hq, hk⟩

theorem fill_eq_ok (h : Ready g a) {table : KernelLookaheads} (hs : table.Shaped a) (n : Nat) :
    fill g (.ofGraph g a) table n = .ok (KernelLookaheads.fill g (.ofGraph g a) table n) := by
  simp only [fill, fromPredecessor, seq_eq_ok, forM_eq_ok, whenever_eq_ok, forSome_eq_ok, index_eq_ok,
    pure_eq_ok]
  refine ⟨?_, trivial⟩
  rintro ⟨s, q⟩ hsq ⟨i, k⟩ hik -
  obtain ⟨hq, rfl⟩ := Automaton.mem_zipIdx_states hsq
  rw [Automaton.size_ofGraph] at hq
  rw [Automaton.toCore_state, List.mem_zipIdx_iff_getElem?] at hik
  have hi := List.mem_of_getElem? hik
  refine ⟨fun p hp => ?_, kernelSet_eq_ok hs hq (List.getElem?_eq_some_iff.1 hik).1⟩
  rw [Automaton.toCore_state] at hp
  have hp := ((h.isLinked hq).1 hp).1
  rw [Automaton.size_ofGraph, Automaton.toCore_state]
  refine ⟨h.kernelItem_eq_ok hq hi, hp,
    forM_eq_ok.1 (kernel_eq_ok h hp), fun _ j hj => kernelSet_eq_ok hs hp ?_⟩
  exact (List.findIdx?_eq_some_iff_getElem.1 hj).1

theorem kernelLookaheads_eq_ok (h : Ready g a) :
    kernelLookaheads g (.ofGraph g a) = .ok (KernelLookaheads.compute g (.ofGraph g a)) ∧
      KernelLookaheads.Shaped a (KernelLookaheads.compute g (.ofGraph g a)) :=
  foldlM_eq_ok (P := KernelLookaheads.Shaped a)
    (fun _ hs n _ => ⟨fill_eq_ok h hs (n + 1), KernelLookaheads.shaped_fill hs (n + 1)⟩)
    (KernelLookaheads.filled_start h.toOfItems h.reachable h.wf).1

/-! ## Annotations -/

/-- Look up the kernel items of `q` that bring tokens after the transition on
    `lhs`. -/
def contributions (src : LookaheadSources) (q : StateId) (lhs : SymbolId) : Checked Unit := do
  index q src.kernelLookaheads.size
  (src.follows.kernelItems.getD ⟨q, lhs⟩ ∅).toList.forM (kernelSet src.kernelLookaheads q)

/-- Look up the kernel items that contribute to an action. -/
def manifestation (g : Grammar) (src : LookaheadSources) (q : StateId) : Action → Checked Unit
  | .shift => pure ()
  | .reduce r => do
    rule g r
    whenever ((g.rhs r).isEmpty = true) (contributions src q (g.lhs r))

/-- The annotations of states for their own inadequacies. -/
def tracing (g : Grammar) (a : Automaton) (src : LookaheadSources) : Checked Tracing := do
  a.states.toList.zipIdx.forM fun s => do
    index s.2 a.states.size
    s.1.kernel.forM (item g)
    (src.manifestations g s.1 s.2).toList.forM fun n => n.2.zipIdx.forM fun row => do
      index row.2 n.2.length
      manifestation g src s.2 row.1.action
  pure (Tracing.start g a src)

/-- Look up a kernel item of `q` as it looks from the predecessor `p`. -/
def arrival (g : Grammar) (a : Automaton) (src : LookaheadSources) (p q : StateId) (k : Nat) :
    Checked Unit := do
  index k (a.state q).kernel.length
  let i := (a.state q).kernel.getD k default
  item g i
  whenever (i.position = 1) (contributions src p (i.lhs g))

/-- Look at the transition from `p` to `q`. -/
def look (g : Grammar) (a : Automaton) (src : LookaheadSources) (t : Tracing) (p q : StateId) :
    Checked Tracing := do
  index p a.states.size
  index q a.states.size
  index p t.tables.size
  index q t.tables.size
  (t.tables.getD q ∅).toList.forM fun n => do
    n.2.zipIdx.forM fun row => index row.2 n.2.length
    n.2.contributors.toList.forM (arrival g a src p q)
  (a.state p).kernel.zipIdx.forM fun j => do
    item g j.1
    kernelSet src.kernelLookaheads p j.2
  pure (t.look g a src p q)

/-- Look at the transitions that wait. -/
def runTracing (g : Grammar) (a : Automaton) (src : LookaheadSources) : (rounds : Nat) → Tracing →
    Checked Tracing
  | 0, t => pure t
  | rounds + 1, t => t.pending.pop?.elim (pure t) fun next => do
    let t ← look g a src { t with pending := next.2 } next.1.1 next.1.2
    runTracing g a src rounds t

/-- Trace back the inadequacies of all states. -/
def trace (g : Grammar) (a : Automaton) (src : LookaheadSources) : Checked Tracing := do
  let t ← tracing g a src
  runTracing g a src (Tracing.bound a t) t

variable {src : LookaheadSources} {t : Tracing}

theorem contributions_eq_ok (confined : Confined a src) (hq : q < a.size) (A : SymbolId) :
    contributions src q A = .ok () := by
  rw [contributions, seq_eq_ok, index_eq_ok, forM_eq_ok, confined.shaped.1]
  exact ⟨hq, fun k hk => kernelSet_eq_ok confined.shaped hq
    (confined.kernelItem_lt (NatSet.mem_toList.1 hk))⟩

theorem manifestation_eq_ok (confined : Confined a src) (h : Ready g a) (hq : q < a.size)
    {α : Action} {token : SymbolId}
    (hα : α ∈ actionsOn g ((Automaton.ofGraph g a).state q) token) :
    manifestation g src q α = .ok () := by
  cases α with
  | shift => rfl
  | reduce r =>
    obtain ⟨hitem, -⟩ := ((Automaton.mem_actionsOn h.toOfItems h.wf h.reachable hq).1 hα).1
    rw [manifestation, seq_eq_ok, whenever_eq_ok]
    exact ⟨rule_eq_ok h.wf (h.inRange h.wf hq _ hitem).1, fun _ => contributions_eq_ok confined hq _⟩

theorem tracing_eq_ok (confined : Confined a src) (h : Ready g a) :
    tracing g (.ofGraph g a) src = .ok (Tracing.start g (.ofGraph g a) src) := by
  simp only [tracing, seq_eq_ok, forM_eq_ok, index_eq_ok, pure_eq_ok]
  refine ⟨?_, trivial⟩
  rintro ⟨s, q⟩ hsq
  obtain ⟨hsize, rfl⟩ := Automaton.mem_zipIdx_states hsq
  have hq : q < a.size := by rwa [Automaton.size_ofGraph] at hsize
  refine ⟨hsize, ?_, ?_⟩
  · rw [Automaton.toCore_state]
    exact forM_eq_ok.1 (kernel_eq_ok h hq)
  · rintro ⟨w, n⟩ hn ⟨c, row⟩ hc
    have hc := List.mem_zipIdx_iff_getElem?.1 hc
    refine ⟨(List.getElem?_eq_some_iff.1 hc).1, ?_⟩
    obtain ⟨-, -, rfl⟩ := get?_manifestations.1 (OrderedMap.mem_toList.1 hn)
    obtain ⟨α, hα, rfl⟩ := List.mem_map.1 (List.mem_of_getElem? hc)
    exact manifestation_eq_ok confined h hq hα

theorem look_eq_ok (ht : Traced g a t) (confined : Confined a src) (h : Ready g a) (hp : p < a.size)
    (hq : q < a.size) :
    look g (.ofGraph g a) src t p q = .ok (t.look g (.ofGraph g a) src p q) := by
  simp only [look, arrival, seq_eq_ok, forM_eq_ok, index_eq_ok, whenever_eq_ok, pure_eq_ok,
    Automaton.size_ofGraph, Automaton.toCore_state, ht.size_eq]
  refine ⟨hp, hq, hp, hq, ?_, ?_, trivial⟩
  · rintro ⟨w, n⟩ hn
    refine ⟨fun row hrow => ?_, fun k hk => ?_⟩
    · exact (List.getElem?_eq_some_iff.1 (List.mem_zipIdx_iff_getElem?.1 hrow)).1
    have hlt := ht.contributor_lt q w n (OrderedMap.mem_toList.1 hn) k (NatSet.mem_toList.1 hk)
    have hmem : (a.core q).kernel.getD k default ∈ (a.core q).kernel := by
      rw [List.getD_eq_getElem?_getD, List.getElem?_eq_getElem hlt]; exact List.getElem_mem hlt
    exact ⟨hlt, h.kernelItem_eq_ok hq hmem,
      fun _ => contributions_eq_ok confined hp _⟩
  · rintro ⟨j, l⟩ hj
    have hj := List.mem_zipIdx_iff_getElem?.1 hj
    exact ⟨h.kernelItem_eq_ok hp (List.mem_of_getElem? hj),
      kernelSet_eq_ok confined.shaped hp (List.getElem?_eq_some_iff.1 hj).1⟩

theorem runTracing_eq_ok (confined : Confined a src) (h : Ready g a) :
    ∀ (rounds : Nat) {t : Tracing}, Traced g a t →
      runTracing g (.ofGraph g a) src rounds t = .ok (Tracing.run g (.ofGraph g a) src rounds t) ∧
        Traced g a (Tracing.run g (.ofGraph g a) src rounds t)
  | 0, t, ht => ⟨rfl, ht⟩
  | rounds + 1, t, ht => by
    rw [runTracing, Tracing.run]
    cases hpop : t.pending.pop? with
    | none => exact ⟨rfl, ht⟩
    | some next =>
      obtain ⟨⟨p, q⟩, pending⟩ := next
      obtain ⟨hp, hq, ht'⟩ := ht.pop hpop
      rw [Option.elim_some, look_eq_ok ht' confined h hp hq, ok_bind]
      exact runTracing_eq_ok confined h rounds (ht'.look confined h.toComplete hp)

theorem trace_eq_ok (confined : Confined a src) (h : Ready g a) :
    trace g (.ofGraph g a) src = .ok (src.trace g (.ofGraph g a)) ∧
      Traced g a (src.trace g (.ofGraph g a)) := by
  rw [trace, tracing_eq_ok confined h, ok_bind]
  exact runTracing_eq_ok confined h _ (traced_start confined h.toComplete)

end Checked

end LRAutomata
