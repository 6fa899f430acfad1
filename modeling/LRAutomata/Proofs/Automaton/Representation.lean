/-
  What every automaton that the constructions build looks like.

  `Graph.Represented` is what the transitions, the accessing symbols and the
  isocores of a graph have to do with its items.  The LR(0) automaton has it,
  every step of the walk that splits states keeps it, whatever the lookaheads
  and the isocores are, and so does the removal of unreachable states.

  The right-hand sides of the grammar are taken to fit the positions (`Item`).
-/
import LRAutomata.Automaton.Generate
import LRAutomata.Proofs.Automaton.Pruning
import LRAutomata.Proofs.Automaton.Walk

namespace LRAutomata

/-- The transitions of a graph of items lead where they say, and every state is
    represented by one with the same kernel, which represents itself. -/
structure Graph.Represented (g : Grammar) (a : Graph) : Prop extends a.OfItems g where
  nextItems_eq : ∀ {q}, q < a.size → ∀ e ∈ (a.core q).edges, e.nextItems = (a.core e.target).kernel
  accessing_target : ∀ {q}, q < a.size → ∀ e ∈ (a.core q).edges,
    (a.core e.target).accessing = some e.symbol
  isocore_lt : ∀ {q}, q < a.size → (a.core q).isocore < a.size
  kernel_isocore : ∀ {q}, q < a.size → (a.core (a.core q).isocore).kernel = (a.core q).kernel
  accessing_isocore : ∀ {q}, q < a.size →
    (a.core (a.core q).isocore).accessing = (a.core q).accessing
  isocore_isocore : ∀ {q}, q < a.size → (a.core (a.core q).isocore).isocore = (a.core q).isocore

/-! ## The LR(0) automaton -/

/-- Reading a symbol leads to no other accessing symbol. -/
theorem ItemSet.previous?_of_mem_step {g : Grammar} {kernel : List Item} {X : SymbolId} {j : Item}
    (hj : j ∈ step g kernel X) : j.previous? g = some X := by
  obtain ⟨i, -, hX, rfl⟩ := mem_step.1 hj
  exact hX

/-- Every state of the LR(0) automaton represents itself. -/
theorem Lr0.isocore_graph {g : Grammar} (wf : g.WellFormed) {q : StateId} (hq : q < (graph g).size) :
    ((graph g).core q).isocore = q := by
  rw [graph_eq, Graph.size_link] at hq
  rw [graph_eq, Graph.core_link _ hq]
  exact (growing_cores wf).isocore hq

theorem Lr0.represented_graph {g : Grammar} (wf : g.WellFormed) : (Lr0.graph g).Represented g := by
  have h := growing_cores wf
  have items := ofItems_graph wf
  have size : (graph g).size = Graph.size ⟨allCores g⟩ := Graph.size_link _
  have core : ∀ {q}, q < (graph g).size → (graph g).core q =
      { Graph.core ⟨allCores g⟩ q with predecessors := Graph.predecessorsOf ⟨allCores g⟩ q } :=
    fun hq => Graph.core_link _ (size ▸ hq)
  refine ⟨items, fun {q} hq e he => ?_, fun {q} hq e he => ?_, fun hq => ?_, fun hq => ?_, fun hq => ?_,
    fun hq => ?_⟩
  · have htarget := items.target_lt hq e he
    rw [core hq] at he
    rw [core htarget]
    have hq' : q < Graph.size ⟨allCores g⟩ := size ▸ hq
    exact (h.complete hq' hq').nextItems_eq e he
  · -- The kernel of the target tells its accessing symbol.
    have htarget := items.target_lt hq e he
    obtain ⟨i, hi, hX⟩ := (items.exists_edge_iff hq).1 ⟨e, he, rfl⟩
    have hmem : i.advance ∈ ((graph g).core e.target).kernel := by
      rw [items.kernel_target hq e he]
      exact ItemSet.mem_step.2 ⟨i, by rwa [← items.items_eq hq], hX, rfl⟩
    have hne : e.target ≠ StateId.start := by
      intro heq
      rw [heq, items.kernel_start, List.mem_singleton] at hmem
      exact Nat.succ_ne_zero _ (congrArg Item.position hmem)
    obtain ⟨p, Y, -, ⟨-, hkernel⟩, haccessing⟩ := h.found (size ▸ htarget) hne
    have hmem' : i.advance ∈ ItemSet.step g (Graph.core ⟨allCores g⟩ p).kernel Y := by
      rw [← hkernel]; rw [core htarget] at hmem; exact hmem
    have hprevious : some e.symbol = some Y := hX.symm.trans (ItemSet.previous?_of_mem_step hmem')
    rw [core htarget]
    exact haccessing.trans hprevious.symm
  · rw [isocore_graph wf hq]; exact hq
  all_goals rw [isocore_graph wf hq]
  exact isocore_graph wf hq

/-! ## Steps of the walk -/

namespace Splitting.Walk

/-- The graph `b'` has the states of `b`, with the same kernels, accessing symbols
    and isocores. -/
structure Keeps (b b' : Graph) : Prop where
  size_le : b.size ≤ b'.size
  kernel_eq : ∀ {s}, s < b.size → (b'.core s).kernel = (b.core s).kernel
  accessing_eq : ∀ {s}, s < b.size → (b'.core s).accessing = (b.core s).accessing
  isocore_eq : ∀ {s}, s < b.size → (b'.core s).isocore = (b.core s).isocore

/-- The graph of the walk is represented, and what is listed as a copy of a state
    has its kernel and its accessing symbol. -/
structure Represented (g : Grammar) (w : Walk) : Prop where
  graph : w.graph.Represented g
  copies : ∀ {q s}, s ∈ w.copies.getD q [] → q < w.graph.size ∧ s < w.graph.size ∧
    (w.graph.core s).kernel = (w.graph.core q).kernel ∧
    (w.graph.core s).accessing = (w.graph.core q).accessing

section Represented
variable {g : Grammar} {sp : Splitting} {w : Walk} {b b' : Graph} {q s core : StateId} {X : SymbolId}
variable {source incoming : List NatSet}

theorem Keeps.refl (b : Graph) : Keeps b b :=
  ⟨Nat.le_refl _, fun _ => rfl, fun _ => rfl, fun _ => rfl⟩

theorem Keeps.trans {b'' : Graph} (h₁ : Keeps b b') (h₂ : Keeps b' b'') : Keeps b b'' := by
  have lt : ∀ {s}, s < b.size → s < b'.size := fun hs => Nat.lt_of_lt_of_le hs h₁.size_le
  exact ⟨Nat.le_trans h₁.size_le h₂.size_le,
    fun hs => (h₂.kernel_eq (lt hs)).trans (h₁.kernel_eq hs),
    fun hs => (h₂.accessing_eq (lt hs)).trans (h₁.accessing_eq hs),
    fun hs => (h₂.isocore_eq (lt hs)).trans (h₁.isocore_eq hs)⟩

/-- A transition on the symbol from `q` may lead to `s`. -/
structure LeadsTo (g : Grammar) (b : Graph) (q : StateId) (X : SymbolId) (s : StateId) : Prop where
  lt : s < b.size
  kernel_eq : (b.core s).kernel = ItemSet.step g (b.core q).kernel X
  accessing_eq : (b.core s).accessing = some X

theorem LeadsTo.keeps (h : LeadsTo g b q X s) (hq : q < b.size) (keeps : Keeps b b') :
    LeadsTo g b' q X s :=
  ⟨Nat.lt_of_lt_of_le h.lt keeps.size_le,
    by rw [keeps.kernel_eq h.lt, keeps.kernel_eq hq]; exact h.kernel_eq,
    by rw [keeps.accessing_eq h.lt]; exact h.accessing_eq⟩

theorem keeps_copy (w : Walk) (core : StateId) (incoming : List NatSet) :
    Keeps w.graph (w.copy core incoming).1.graph := by
  refine ⟨(sameCopies_copy w core incoming).size_le, fun {s} hs => ?_, fun {s} hs => ?_, fun {s} hs => ?_⟩ <;>
    rw [core_copy, if_neg (Nat.ne_of_lt hs)]

theorem keeps_retarget (w : Walk) (q : StateId) (X : SymbolId) (target : StateId) :
    Keeps w.graph (w.retarget q X target).graph := by
  refine ⟨by rw [size_retarget], fun {s} _ => ?_, fun {s} _ => ?_, fun {s} _ => ?_⟩ <;>
    rw [core_retarget] <;> split <;> rfl

theorem Represented.deliver (h : Represented g w) (s : StateId) (incoming : List NatSet) :
    Represented g (w.deliver s incoming) :=
  ⟨by rw [graph_deliver]; exact h.graph, by rw [graph_deliver, copies_deliver]; exact h.copies⟩

/-- A copy of a state stays one. -/
theorem Keeps.copies (keeps : Keeps b b') (h : q < b.size ∧ s < b.size ∧
      (b.core s).kernel = (b.core q).kernel ∧ (b.core s).accessing = (b.core q).accessing) :
    q < b'.size ∧ s < b'.size ∧ (b'.core s).kernel = (b'.core q).kernel ∧
      (b'.core s).accessing = (b'.core q).accessing := by
  obtain ⟨hq, hs, hkernel, haccessing⟩ := h
  rw [keeps.kernel_eq hq, keeps.kernel_eq hs, keeps.accessing_eq hq, keeps.accessing_eq hs]
  exact ⟨Nat.lt_of_lt_of_le hq keeps.size_le, Nat.lt_of_lt_of_le hs keeps.size_le, hkernel, haccessing⟩

/-- All states, the new one included, have the items and the transitions of old ones. -/
theorem exists_core_copy (hcore : core < w.graph.size)
    (hself : (w.graph.core core).isocore = core)
    (hs : s < (w.copy core incoming).1.graph.size) : ∃ s' < w.graph.size,
      (w.copy core incoming).1.graph.core s = { w.graph.core s' with
        predecessors := ((w.copy core incoming).1.graph.core s).predecessors } := by
  by_cases heq : s = w.graph.size
  · refine ⟨core, hcore, ?_⟩
    simp only [core_copy, if_pos heq, hself]
  · rw [size_copy] at hs
    refine ⟨s, Nat.lt_of_le_of_ne (Nat.le_of_lt_succ hs) heq, ?_⟩
    rw [core_copy, if_neg heq]

/-- A copy of a state that represents itself. -/
theorem Represented.copy (h : Represented g w) (hcore : core < w.graph.size)
    (hself : (w.graph.core core).isocore = core) (incoming : List NatSet) :
    Represented g (w.copy core incoming).1 := by
  have keeps := keeps_copy w core incoming
  have items := h.graph
  constructor
  case graph =>
    refine ⟨⟨?start_lt, ?kernel_start, fun hs => ?closure_eq, fun hs => ?symbols_eq,
      fun hs e he => ?target_lt, fun hs e he => ?kernel_target⟩, fun hs e he => ?nextItems_eq,
      fun hs e he => ?accessing_target, fun hs => ?isocore_lt, fun hs => ?kernel_isocore,
      fun hs => ?accessing_isocore, fun hs => ?isocore_isocore⟩
    case start_lt => exact Nat.lt_of_lt_of_le items.start_lt keeps.size_le
    case kernel_start => rw [keeps.kernel_eq items.start_lt]; exact items.kernel_start
    all_goals obtain ⟨s', hs', heq⟩ := exists_core_copy hcore hself hs
    case closure_eq => rw [heq]; exact items.closure_eq hs'
    case symbols_eq => rw [heq]; exact items.symbols_eq hs'
    case target_lt =>
      rw [heq] at he
      exact Nat.lt_of_lt_of_le (items.target_lt hs' e he) keeps.size_le
    case kernel_target =>
      rw [heq] at he ⊢
      rw [keeps.kernel_eq (items.target_lt hs' e he)]
      exact items.kernel_target hs' e he
    case nextItems_eq =>
      rw [heq] at he
      rw [keeps.kernel_eq (items.target_lt hs' e he)]
      exact items.nextItems_eq hs' e he
    case accessing_target =>
      rw [heq] at he
      rw [keeps.accessing_eq (items.target_lt hs' e he)]
      exact items.accessing_target hs' e he
    all_goals rw [heq]
    case isocore_lt => exact Nat.lt_of_lt_of_le (items.isocore_lt hs') keeps.size_le
    case kernel_isocore => rw [keeps.kernel_eq (items.isocore_lt hs')]; exact items.kernel_isocore hs'
    case accessing_isocore =>
      rw [keeps.accessing_eq (items.isocore_lt hs')]; exact items.accessing_isocore hs'
    case isocore_isocore =>
      rw [keeps.isocore_eq (items.isocore_lt hs')]; exact items.isocore_isocore hs'
  case copies =>
    intro q s hs
    rcases of_mem_copies_copy hs with hs | ⟨rfl, rfl⟩
    · exact keeps.copies (h.copies hs)
    · have hnew := core_copy w q w.graph.size incoming
      rw [if_pos rfl] at hnew
      rw [hnew, keeps.kernel_eq hcore, keeps.accessing_eq hcore]
      exact ⟨Nat.lt_of_lt_of_le hcore keeps.size_le,
        by rw [size_copy]; exact Nat.lt_succ_self _, rfl, rfl⟩

/-- After a transition is turned to a state where it may lead, every transition
    leads where it may, and lists the kernel there. -/
theorem Represented.leadsTo_retarget (h : Represented g w) (hs : LeadsTo g w.graph q X s)
    {s' : StateId} {e : Edge} (hs' : s' < w.graph.size)
    (he : e ∈ ((w.retarget q X s).graph.core s').edges) :
    LeadsTo g w.graph s' e.symbol e.target ∧ e.nextItems = (w.graph.core e.target).kernel := by
  have items := h.graph
  have old : ∀ {e}, e ∈ (w.graph.core s').edges →
      LeadsTo g w.graph s' e.symbol e.target ∧ e.nextItems = (w.graph.core e.target).kernel :=
    fun he => ⟨⟨items.target_lt hs' _ he, items.kernel_target hs' _ he,
      items.accessing_target hs' _ he⟩, items.nextItems_eq hs' _ he⟩
  rw [core_retarget] at he
  split at he
  · rename_i hsame
    obtain ⟨e', he', rfl⟩ := List.mem_map.1 he
    obtain ⟨hleads, hitems⟩ := old he'
    split
    · rename_i hX
      subst hX
      rw [hsame.1] at hleads ⊢
      exact ⟨hs, by rw [hs.kernel_eq, ← hleads.kernel_eq]; exact hitems⟩
    · exact ⟨hleads, hitems⟩
  · exact old he

/-- A transition is turned to another state where it may lead. -/
theorem Represented.retarget (h : Represented g w) (hs : LeadsTo g w.graph q X s) :
    Represented g (w.retarget q X s) := by
  have keeps := keeps_retarget w q X s
  have hsize := size_retarget w q X s
  have items := h.graph
  constructor
  case graph =>
    refine ⟨⟨?start_lt, ?kernel_start, fun hs' => ?closure_eq, fun hs' => ?symbols_eq,
      fun hs' e he => ?target_lt, fun hs' e he => ?kernel_target⟩, fun hs' e he => ?nextItems_eq,
      fun hs' e he => ?accessing_target, fun hs' => ?isocore_lt, fun hs' => ?kernel_isocore,
      fun hs' => ?accessing_isocore, fun hs' => ?isocore_isocore⟩
    case start_lt => rw [hsize]; exact items.start_lt
    case kernel_start => rw [keeps.kernel_eq items.start_lt]; exact items.kernel_start
    all_goals rw [hsize] at hs'
    case closure_eq => rw [closure_retarget, keeps.kernel_eq hs']; exact items.closure_eq hs'
    case symbols_eq =>
      rw [symbols_retarget, Core.items, closure_retarget, keeps.kernel_eq hs']
      exact items.symbols_eq hs'
    case target_lt => rw [hsize]; exact (h.leadsTo_retarget hs hs' he).1.lt
    case kernel_target =>
      have hleads := (h.leadsTo_retarget hs hs' he).1
      rw [keeps.kernel_eq hleads.lt, keeps.kernel_eq hs']
      exact hleads.kernel_eq
    case nextItems_eq =>
      obtain ⟨hleads, hitems⟩ := h.leadsTo_retarget hs hs' he
      rw [keeps.kernel_eq hleads.lt]
      exact hitems
    case accessing_target =>
      have hleads := (h.leadsTo_retarget hs hs' he).1
      rw [keeps.accessing_eq hleads.lt]
      exact hleads.accessing_eq
    all_goals rw [keeps.isocore_eq hs']
    case isocore_lt => rw [hsize]; exact items.isocore_lt hs'
    case kernel_isocore =>
      rw [keeps.kernel_eq (items.isocore_lt hs'), keeps.kernel_eq hs']; exact items.kernel_isocore hs'
    case accessing_isocore =>
      rw [keeps.accessing_eq (items.isocore_lt hs'), keeps.accessing_eq hs']
      exact items.accessing_isocore hs'
    case isocore_isocore =>
      rw [keeps.isocore_eq (items.isocore_lt hs')]; exact items.isocore_isocore hs'
  case copies => exact fun hs' => keeps.copies (h.copies hs')

/-- A transition is followed to a copy of the isocore of its target, an old one or
    a new one. -/
theorem Represented.follow_cases (h : Represented g w) (hq : q < w.graph.size) {e : Edge}
    (he : LeadsTo g w.graph q e.symbol e.target) {next : StateId}
    (hnext : (w.graph.core e.target).isocore = next)
    (hincoming : propagate g sp core source next = incoming) :
    (∃ s ∈ w.copies.getD next [], LeadsTo g w.graph q e.symbol s ∧
      follow g sp q core source w e = (w.deliver s incoming).retarget q e.symbol s) ∨
    (LeadsTo g (w.copy next incoming).1.graph q e.symbol w.graph.size ∧
      follow g sp q core source w e = (w.copy next incoming).1.retarget q e.symbol w.graph.size) := by
  subst hnext
  have kernel := h.graph.kernel_isocore he.lt
  have accessing := h.graph.accessing_isocore he.lt
  rcases follow_copies g sp q core source w e rfl hincoming with ⟨s, hmem, -, heq⟩ | ⟨-, heq⟩
  · obtain ⟨-, hs, hkernel, haccessing⟩ := h.copies hmem
    exact .inl ⟨s, hmem, ⟨hs, (hkernel.trans kernel).trans he.kernel_eq,
      (haccessing.trans accessing).trans he.accessing_eq⟩, heq⟩
  · refine .inr ⟨⟨by rw [size_copy]; exact Nat.lt_succ_self _, ?_, ?_⟩, heq⟩ <;>
      rw [core_copy, if_pos rfl]
    · rw [(keeps_copy w _ incoming).kernel_eq hq]; exact kernel.trans he.kernel_eq
    · exact accessing.trans he.accessing_eq

/-- Following a transition keeps the graph represented, whatever the lookaheads
    are. -/
theorem Represented.follow (h : Represented g w) (hq : q < w.graph.size) {e : Edge}
    (he : LeadsTo g w.graph q e.symbol e.target) :
    Represented g (follow g sp q core source w e) ∧
      Keeps w.graph (Walk.follow g sp q core source w e).graph := by
  have items := h.graph
  have hcases := h.follow_cases hq he rfl (rfl : propagate g sp core source _ = _)
  rcases hcases with ⟨s, -, hleads, heq⟩ | ⟨hleads, heq⟩
  · rw [heq]
    refine ⟨(h.deliver s _).retarget (by rw [graph_deliver]; exact hleads), ?_⟩
    have := keeps_retarget (w.deliver s (propagate g sp core source
      (w.graph.core e.target).isocore)) q e.symbol s
    rwa [graph_deliver] at this
  · rw [heq]
    exact ⟨(h.copy (items.isocore_lt he.lt) (items.isocore_isocore he.lt) _).retarget hleads,
      (keeps_copy w _ _).trans (keeps_retarget _ _ _ _)⟩

theorem Represented.foldl (hq : q < w.graph.size) : ∀ (edges : List Edge), Represented g w →
    (∀ e ∈ edges, LeadsTo g w.graph q e.symbol e.target) →
      Represented g (edges.foldl (Walk.follow g sp q core source) w) := by
  intro edges
  induction edges generalizing w with
  | nil => exact fun h _ => h
  | cons e edges ih =>
    intro h hedges
    have hstep : Represented g (Walk.follow g sp q core source w e) ∧
        Keeps w.graph (Walk.follow g sp q core source w e).graph :=
      h.follow hq (hedges e List.mem_cons_self)
    obtain ⟨hfollow, keeps⟩ := hstep
    exact ih (Nat.lt_of_lt_of_le hq keeps.size_le) hfollow fun e' he' =>
      (hedges e' (List.mem_cons_of_mem _ he')).keeps hq keeps

theorem Represented.run : ∀ (rounds : Nat) {w : Walk}, Represented g w →
    Represented g (run g sp rounds w) := by
  refine (loop g sp).keeps fun w q queue h _ => ?_
  have h' : Represented g { w with queue } := ⟨h.graph, h.copies⟩
  rw [Walk.visit]
  split
  · exact h'
  · rcases Nat.lt_or_ge q w.graph.size with hq | hq
    · exact Represented.foldl (w := { w with queue }) hq _ h' fun e he => ⟨h.graph.target_lt hq e he,
        h.graph.kernel_target hq e he, h.graph.accessing_target hq e he⟩
    · have hcore : (Walk.graph { w with queue }).core q = default := Graph.core_of_size_le _ hq
      rw [hcore]
      exact h'

theorem represented_start {a : Graph} (h : a.Represented g) :
    Represented g (start (.ofGraph g a)) := by
  refine ⟨by rw [graph_start]; exact h, fun {q s} hs => ?_⟩
  rw [graph_start]
  rw [copies_start] at hs
  split at hs
  · rename_i hq
    obtain rfl := List.mem_singleton.1 hs
    exact ⟨hq, hq, rfl, rfl⟩
  · cases hs

end Represented

end Splitting.Walk

/-- The graph of the walk is represented. -/
theorem Splitting.represented_graph {g : Grammar} {a : Graph} (h : a.Represented g) :
    ((prepare g (.ofGraph g a)).graph g).Represented g :=
  ((Walk.represented_start h).run _).graph

/-! ## Removing unreachable states -/

namespace Graph

variable {g : Grammar} {a : Graph} {p q i : StateId}

theorem Represented.link (h : a.Represented g) : a.link.Represented g := by
  have core : ∀ {q}, q < a.size →
      a.link.core q = { a.core q with predecessors := a.predecessorsOf q } := core_link a
  have lt : ∀ {q}, q < a.link.size → q < a.size := fun hq => by rwa [size_link] at hq
  refine ⟨h.toOfItems.link, fun hq e he => ?_, fun hq e he => ?_, fun hq => ?_, fun hq => ?_, fun hq => ?_,
    fun hq => ?_⟩ <;> replace hq := lt hq
  · rw [core hq] at he
    rw [core (h.target_lt hq e he)]; exact h.nextItems_eq hq e he
  · rw [core hq] at he
    rw [core (h.target_lt hq e he)]; exact h.accessing_target hq e he
  all_goals rw [core hq]
  · rw [size_link]; exact h.isocore_lt hq
  all_goals rw [core (h.isocore_lt hq)]
  · exact h.kernel_isocore hq
  · exact h.accessing_isocore hq
  · exact h.isocore_isocore hq

/-- A state that remains has a representative that remains. -/
theorem Represented.exists_representative (h : a.Represented g) (hq : q < a.size)
    (hremains : a.Remains i q) : ∃ j r, a.representative? a.reachable.toList (a.core q).isocore = some j ∧
      a.Remains j r ∧ (a.core r).isocore = (a.core q).isocore := by
  rw [representative?, renumber?]
  cases hfind : a.reachable.toList.findIdx? (fun p => p = (a.core q).isocore) with
  | some j =>
    obtain ⟨hj, heq, -⟩ := List.findIdx?_eq_some_iff_getElem.1 hfind
    refine ⟨j, _, rfl, List.getElem?_eq_getElem hj, ?_⟩
    rw [of_decide_eq_true heq]; exact h.isocore_isocore hq
  | none =>
    -- The isocore does not remain, but the state itself has it.
    cases hother : a.reachable.toList.findIdx? (fun p => (a.core p).isocore = (a.core q).isocore) with
    | none =>
      have := List.findIdx?_eq_none_iff.1 hother q (List.mem_of_getElem? hremains)
      simp at this
    | some j =>
      obtain ⟨hj, heq, -⟩ := List.findIdx?_eq_some_iff_getElem.1 hother
      exact ⟨j, _, rfl, List.getElem?_eq_getElem hj, of_decide_eq_true heq⟩

/-- The representative of a state of the pruned graph is one of its states, and has the
    isocore that the state has in the graph. -/
theorem Represented.exists_isocore_pruned (h : a.Represented g) (hq : q < a.size)
    (hi : a.Remains i q) : ∃ r, a.Remains (a.pruned.core i).isocore r ∧
      (a.core r).isocore = (a.core q).isocore := by
  obtain ⟨j, r, hrep, hr, hiso⟩ := h.exists_representative hq hi
  have hj : (a.pruned.core i).isocore = j := by
    rw [(core_pruned hi).2, prunedCore, hrep]
    rfl
  exact ⟨r, hj ▸ hr, hiso⟩

theorem Represented.pruned (h : a.Represented g) : a.pruned.Represented g := by
  have items := h.toOfItems
  refine ⟨items.pruned, fun hi e he => ?nextItems_eq, fun hi e he => ?accessing_target,
    fun hi => ?isocore_lt, fun hi => ?kernel_isocore, fun hi => ?accessing_isocore,
    fun hi => ?isocore_isocore⟩
  all_goals obtain ⟨q, hremains, hq, hcore⟩ := items.exists_core_pruned hi
  case nextItems_eq =>
    rw [hcore] at he
    obtain ⟨e', he', -, hitems, htarget⟩ := items.exists_edge_pruned hremains he
    rw [hitems, (core_pruned htarget).2]
    exact h.nextItems_eq hq e' he'
  case accessing_target =>
    rw [hcore] at he
    obtain ⟨e', he', hsymbol, -, htarget⟩ := items.exists_edge_pruned hremains he
    rw [hsymbol, (core_pruned htarget).2]
    exact h.accessing_target hq e' he'
  all_goals
    obtain ⟨r, hrep, hiso⟩ := h.exists_isocore_pruned hq hremains
    have hr := items.lt_of_mem_reachable hrep.mem
    obtain ⟨hlt, hcore'⟩ := core_pruned hrep
  case isocore_lt => exact hlt
  case kernel_isocore =>
    rw [hcore', hcore]
    show (a.core r).kernel = (a.core q).kernel
    rw [← h.kernel_isocore hr, ← h.kernel_isocore hq, hiso]
  case accessing_isocore =>
    rw [hcore', hcore]
    show (a.core r).accessing = (a.core q).accessing
    rw [← h.accessing_isocore hr, ← h.accessing_isocore hq, hiso]
  case isocore_isocore => rw [hcore', hcore, prunedCore, prunedCore, hiso]

theorem Represented.prune (h : a.Represented g) : a.prune.Represented g := by
  rw [prune_eq]; exact h.pruned.link

/-- The predecessors of a state are listed in ascending order. -/
theorem pairwise_predecessorsOf (a : Graph) (q : StateId) :
    (a.predecessorsOf q).Pairwise (· < ·) := by
  have hstates : (a.states.map Prod.snd).Pairwise (· < ·) := by
    rw [states, List.zipIdx_map_snd]; exact List.pairwise_lt_range'
  exact (List.pairwise_map.2 (List.pairwise_map.1 hstates |>.filter _))

end Graph

end LRAutomata
