/-
  Automata of grammars that differ in their numbers only.

  If the grammar `g'` is the grammar `g` with new numbers (`Grammar.Renumbers`), then

  * the same items are viable, and the same terminals follow, after the same
    strings (`Renumbers.viable_iff`, `Renumbers.follows_iff`);
  * the states of the two LR(0) automata can be paired so that the strings that
    lead to them are the same (`Lr0.exists_renumbers`).

  As a state is what can be read on the way to it, everything else about paired
  states follows: they are the same but for the numbers and the order of what they
  list (`Lr0.Paired.core`), and so are the tables of lookahead sets
  (`Lr0.Paired.get?_la`).
-/
import LRAutomata.Proofs.Automaton.Action
import LRAutomata.Proofs.Automaton.Representation
import LRAutomata.Proofs.Data.Permutation
import LRAutomata.Proofs.Grammar.Renumbering

namespace LRAutomata

open Relation

/-! ## Items -/

namespace Grammar.Renumbers

variable {e : Renumbering} {g g' : Grammar} {γ : List SymbolId} {i j : Item} {A t : SymbolId}

theorem start_item (h : g.Renumbers e g') : e.item Item.start = Item.start := by
  rw [Renumbering.item, Item.start, h.accept_eq]

theorem next?_eq (h : g.Renumbers e g') (i : Item) :
    (e.item i).next? g' = (i.next? g).map e.symbol := by
  rw [Item.next?, Item.next?, show (e.item i).rule = e.rule i.rule from rfl, h.rhs_eq]
  exact List.getElem?_map

theorem before_eq (h : g.Renumbers e g') (i : Item) : (e.item i).before g' = e.string (i.before g) := by
  rw [Item.before, Item.before, show (e.item i).rule = e.rule i.rule from rfl, h.rhs_eq]
  exact List.map_take.symm

theorem afterNext_eq (h : g.Renumbers e g') (i : Item) :
    (e.item i).afterNext g' = e.string (i.afterNext g) := by
  rw [Item.afterNext, Item.afterNext, show (e.item i).rule = e.rule i.rule from rfl, h.rhs_eq]
  exact List.map_drop.symm

theorem expands (h : g.Renumbers e g') (hij : i.Expands g j) : (e.item i).Expands g' (e.item j) := by
  obtain ⟨r, hr, hnext, rfl⟩ := hij
  exact ⟨e.rule r, (h.rule_lt r).2 hr, by rw [h.next?_eq, hnext, h.lhs_eq]; rfl, rfl⟩

theorem mem_closure (h : g.Renumbers e g') (wf : g.WellFormed) (wf' : g'.WellFormed)
    {kernel kernel' : List Item} (hkernel : ∀ k ∈ kernel, e.item k ∈ kernel')
    (hi : i ∈ ItemSet.closure g kernel) : e.item i ∈ ItemSet.closure g' kernel' := by
  obtain ⟨k, hk, hki⟩ := wf.mem_closure_iff.1 hi
  exact wf'.mem_closure_iff.2 ⟨_, hkernel k hk,
    TransGen.lift e.item (fun _ _ step => h.expands step) _ _ hki⟩

/-! ## What is viable and what follows -/

theorem viable (h : g.Renumbers e g') (hi : i.Viable g γ) : (e.item i).Viable g' (e.string γ) := by
  induction hi with
  | start => rw [h.start_item]; exact .start
  | @read γ i X _ hX ih =>
    rw [e.string_append]
    exact ih.read (X := e.symbol X) (by rw [h.next?_eq, hX]; rfl)
  | expand _ hij ih => exact ih.expand (h.expands hij)

theorem viable_iff (h : g.Renumbers e g') : (e.item i).Viable g' (e.string γ) ↔ i.Viable g γ :=
  ⟨fun hi => by simpa using h.symm.viable hi, h.viable⟩

theorem follows (h : g.Renumbers e g') (ht : g.Follows γ A t) :
    g'.Follows (e.string γ) (e.symbol A) (e.symbol t) := by
  induction ht with
  | begins hi hnext hbegins =>
    refine .begins (h.viable hi) (by rw [h.next?_eq, hnext]; rfl) ?_
    rw [h.afterNext_eq]
    exact h.begins hbegins
  | @inherits γ i A t _ hr hnext hvanishes ih =>
    rw [e.string_append, ← h.before_eq]
    refine .inherits (i := e.item i) ?_ ((h.rule_lt _).2 hr) (by rw [h.next?_eq, hnext]; rfl) ?_
    · rw [Item.lhs, show (e.item i).rule = e.rule i.rule from rfl, h.lhs_eq]; exact ih
    · rw [h.afterNext_eq]; exact h.vanishes_iff.2 hvanishes

theorem follows_iff (h : g.Renumbers e g') :
    g'.Follows (e.string γ) (e.symbol A) (e.symbol t) ↔ g.Follows γ A t :=
  ⟨fun ht => by simpa using h.symm.follows ht, h.follows⟩

end Grammar.Renumbers

/-! ## Kernels, transitions and sets of symbols -/

namespace Renumbering

variable (e : Renumbering) {items : List Item} {i : Item} {t : SymbolId} {s : NatSet}

/-- The kernel with the new numbers, in its new order. -/
def kernel (items : List Item) : List Item :=
  ItemSet.sorted (items.map e.item)

theorem mem_kernel : e.item i ∈ e.kernel items ↔ i ∈ items := by
  rw [kernel, ItemSet.mem_sorted, List.mem_map]
  exact ⟨fun ⟨j, hj, heq⟩ => e.item_inj.1 heq ▸ hj, fun hi => ⟨i, hi, rfl⟩⟩

/-- A sorted list with the same items is the kernel. -/
theorem eq_kernel {items' : List Item} (h : ItemSet.Sorted items')
    (hmem : ∀ i, e.item i ∈ items' ↔ i ∈ items) : items' = e.kernel items := by
  refine h.eq_of_mem_iff (ItemSet.sorted_sorted _) fun i => ?_
  rw [← e.item_symm_item i, hmem]
  exact e.mem_kernel.symm

theorem symm_kernel_kernel (h : ItemSet.Sorted items) : e.symm.kernel (e.kernel items) = items := by
  refine (e.symm.eq_kernel h fun i => ?_).symm
  rw [← e.mem_kernel, item_symm_item]

/-- The transition with the new numbers, of the states too. -/
def edge (τ : Equiv.Perm StateId) (edge : Edge) : Edge :=
  ⟨e.symbol edge.symbol, τ edge.target, e.kernel edge.nextItems⟩

/-- The set of the new numbers of the symbols. -/
def symbols (s : NatSet) : NatSet :=
  NatSet.ofList (s.toList.map e.symbol)

theorem mem_symbols : e.symbol t ∈ e.symbols s ↔ t ∈ s := by
  simp [symbols]

theorem isEmpty_symbols : (e.symbols s).isEmpty = s.isEmpty := by
  rw [Bool.eq_iff_iff, NatSet.isEmpty_iff, NatSet.isEmpty_iff]
  exact ⟨fun h t ht => h _ (e.mem_symbols.2 ht),
    fun h t ht => h _ (e.mem_symbols.1 ((e.symbol.apply_symm_apply t).symm ▸ ht))⟩

theorem toList_symbols : (e.symbols s).toList.Perm (s.toList.map e.symbol) := by
  have nodup : ∀ s : NatSet, s.toList.Nodup := fun s => (NatSet.pairwise_toList s).imp Nat.ne_of_lt
  refine (List.perm_ext_iff_of_nodup (nodup _) ((nodup s).map e.symbol.injective)).2 fun t => ?_
  rw [NatSet.mem_toList, symbols, NatSet.mem_ofList]

/-- A set of the same symbols is the set with the new numbers. -/
theorem eq_symbols {s' : NatSet} (h : ∀ t, e.symbol t ∈ s' ↔ t ∈ s) : s' = e.symbols s :=
  NatSet.ext fun t => by rw [← e.symbol.apply_symm_apply t, h, mem_symbols]

end Renumbering

theorem Grammar.Renumbers.reached_eq {e : Renumbering} {g g' : Grammar} (h : g.Renumbers e g')
    (wf : g.WellFormed) (wf' : g'.WellFormed) (γ : List SymbolId) :
    ItemSet.reached g' (e.string γ) = e.kernel (ItemSet.reached g γ) := by
  refine e.eq_kernel (ItemSet.sorted_reached g' _) fun i => ?_
  rw [ItemSet.mem_reached_iff_viable wf', ItemSet.mem_reached_iff_viable wf, h.viable_iff]
  have string_nil : e.string γ = [] ↔ γ = [] := List.map_eq_nil_iff
  have item_start : e.item i = Item.start ↔ i = Item.start :=
    ⟨fun heq => e.item_inj.1 (heq.trans h.start_item.symm), by rintro rfl; exact h.start_item⟩
  rw [Ne, string_nil, item_start]
  rfl

/-! ## States -/

/-- The states of the two graphs can be paired so that the same strings lead to them. -/
structure Graph.Renumbers (e : Renumbering) (τ : Equiv.Perm StateId) (a a' : Graph) : Prop where
  size_eq : a'.size = a.size
  lt_iff : ∀ q, τ q < a'.size ↔ q < a.size
  reads_iff : ∀ {γ q}, a'.Reads StateId.start (e.string γ) (τ q) ↔ a.Reads StateId.start γ q

theorem Graph.Renumbers.symm {e : Renumbering} {τ : Equiv.Perm StateId} {a a' : Graph}
    (h : a.Renumbers e τ a') : a'.Renumbers e.symm τ.symm a where
  size_eq := h.size_eq.symm
  lt_iff q := by simpa using (h.lt_iff (τ.symm q)).symm
  reads_iff {γ q} := by simpa using (h.reads_iff (γ := e.symm.string γ) (q := τ.symm q)).symm

namespace Lr0

variable {e : Renumbering} {g g' : Grammar}

theorem sorted_kernel (wf : g.WellFormed) {q : StateId} (hq : q < (graph g).size) :
    ItemSet.Sorted ((graph g).core q).kernel := by
  obtain ⟨γ, hγ⟩ := reached_graph wf q hq
  rw [((ofItems_graph wf).reads_kernel hγ).2]
  exact ItemSet.sorted_reached g γ

/-- The kernels of a graph in the order of its states. -/
def kernels (a : Graph) : List (List Item) :=
  (List.range a.size).map fun q => (a.core q).kernel

theorem mem_kernels {a : Graph} {kernel : List Item} :
    kernel ∈ kernels a ↔ ∃ q < a.size, (a.core q).kernel = kernel := by
  simp [kernels]

theorem nodup_kernels (wf : g.WellFormed) : (kernels (graph g)).Nodup :=
  List.nodup_range.map_on fun _ hp _ hq heq =>
    kernel_injective wf (List.mem_range.1 hp) (List.mem_range.1 hq) heq

/-- Every kernel has its counterpart. -/
theorem kernel_mem_kernels (h : g.Renumbers e g') (wf : g.WellFormed) (wf' : g'.WellFormed)
    {kernel : List Item} (hkernel : kernel ∈ kernels (graph g)) :
    e.kernel kernel ∈ kernels (graph g') ∧ e.symm.kernel (e.kernel kernel) = kernel := by
  have items := ofItems_graph wf
  have items' := ofItems_graph wf'
  obtain ⟨q, hq, rfl⟩ := mem_kernels.1 hkernel
  obtain ⟨γ, hγ⟩ := reached_graph wf q hq
  obtain ⟨i, hi⟩ := (items.exists_reads_iff wf).1 ⟨q, hγ⟩
  obtain ⟨q', hγ'⟩ := (items'.exists_reads_iff wf').2 ⟨_, h.viable hi⟩
  refine ⟨mem_kernels.2 ⟨q', (items'.reads_kernel hγ').1, ?_⟩,
    e.symm_kernel_kernel (sorted_kernel wf hq)⟩
  rw [(items'.reads_kernel hγ').2, h.reached_eq wf wf', (items.reads_kernel hγ).2]

theorem kernels_perm (h : g.Renumbers e g') (wf : g.WellFormed) (wf' : g'.WellFormed) :
    (kernels (graph g')).Perm ((kernels (graph g)).map e.kernel) :=
  List.perm_map_of_mem e.kernel e.symm.kernel (nodup_kernels wf) (nodup_kernels wf')
    (fun _ => kernel_mem_kernels h wf wf') fun _ => kernel_mem_kernels h.symm wf' wf

/-- **The states can be paired** by their kernels. -/
theorem exists_renumbers (h : g.Renumbers e g') (wf : g.WellFormed) (wf' : g'.WellFormed) :
    ∃ τ, (graph g).Renumbers e τ (graph g') := by
  have items := ofItems_graph wf
  have items' := ofItems_graph wf'
  have perm := (kernels_perm h wf wf').symm
  obtain ⟨τ, hτ⟩ := perm.exists_places
  have size_eq : (graph g').size = (graph g).size := by simpa [kernels] using perm.length_eq.symm
  have lt_iff : ∀ q, τ q < (graph g').size ↔ q < (graph g).size := fun q => by
    simpa [kernels] using List.lt_length_of_places hτ q
  have kernel_eq : ∀ {q}, q < (graph g).size →
      ((graph g').core (τ q)).kernel = e.kernel ((graph g).core q).kernel := by
    intro q hq
    have := hτ q
    simpa [kernels, hq, (lt_iff q).2 hq] using this
  -- Where a string leads, the string with the new numbers leads to the counterpart.
  have reads : ∀ {γ q}, (graph g).Reads StateId.start γ q →
      (graph g').Reads StateId.start (e.string γ) (τ q) := by
    intro γ q hγ
    obtain ⟨i, hi⟩ := (items.exists_reads_iff wf).1 ⟨q, hγ⟩
    obtain ⟨q', hγ'⟩ := (items'.exists_reads_iff wf').2 ⟨_, h.viable hi⟩
    obtain ⟨hq, hkernel⟩ := items.reads_kernel hγ
    obtain ⟨hq', hkernel'⟩ := items'.reads_kernel hγ'
    rw [h.reached_eq wf wf', ← hkernel, ← kernel_eq hq] at hkernel'
    rwa [← kernel_injective wf' hq' ((lt_iff q).2 hq) hkernel']
  refine ⟨τ, size_eq, lt_iff, fun {γ q} => ⟨fun hγ' => ?_, reads⟩⟩
  obtain ⟨i, hi⟩ := (items'.exists_reads_iff wf').1 ⟨τ q, hγ'⟩
  rw [← e.item_symm_item i, h.viable_iff] at hi
  obtain ⟨p, hγ⟩ := (items.exists_reads_iff wf).2 ⟨_, hi⟩
  rwa [← τ.injective ((reads hγ).unique hγ')]

end Lr0

/-! ## Paired states -/

/-- The state `c'` is the state `c` with the new numbers, but for the order of what
    it lists. -/
structure Core.Renumbers (e : Renumbering) (τ : Equiv.Perm StateId) (c c' : Core) : Prop where
  accessing_eq : c'.accessing = c.accessing.map e.symbol
  kernel_perm : c'.kernel.Perm (c.kernel.map e.item)
  closure_perm : c'.closure.Perm (c.closure.map e.item)
  edges_perm : c'.edges.Perm (c.edges.map (e.edge τ))
  predecessors_perm : c'.predecessors.Perm (c.predecessors.map τ)
  isocore_eq : c'.isocore = τ c.isocore

/-- The grammars differ in their numbers, and the states of their LR(0) automata are
    paired. -/
structure Lr0.Paired (e : Renumbering) (τ : Equiv.Perm StateId) (g g' : Grammar) : Prop where
  grammar : g.Renumbers e g'
  states : (graph g).Renumbers e τ (graph g')
  wf : g.WellFormed
  wf' : g'.WellFormed

namespace Lr0.Paired

variable {e : Renumbering} {τ : Equiv.Perm StateId} {g g' : Grammar} {q : StateId}

theorem symm (h : Paired e τ g g') : Paired e.symm τ.symm g' g :=
  ⟨h.grammar.symm, h.states.symm, h.wf', h.wf⟩

theorem start_eq (h : Paired e τ g g') : τ StateId.start = StateId.start := by
  have hstart := h.states.reads_iff.2 (Graph.reads_nil.2 rfl)
  exact (Graph.reads_nil.1 hstart).symm

theorem kernel_eq (h : Paired e τ g g') (hq : q < (graph g).size) :
    ((graph g').core (τ q)).kernel = e.kernel ((graph g).core q).kernel := by
  obtain ⟨γ, hγ⟩ := reached_graph h.wf q hq
  rw [((ofItems_graph h.wf').reads_kernel (h.states.reads_iff.2 hγ)).2,
    h.grammar.reached_eq h.wf h.wf', ((ofItems_graph h.wf).reads_kernel hγ).2]

theorem mem_kernel (h : Paired e τ g g') (hq : q < (graph g).size) {i : Item}
    (hi : i ∈ ((graph g).core q).kernel) : e.item i ∈ ((graph g').core (τ q)).kernel := by
  rw [h.kernel_eq hq]
  exact e.mem_kernel.2 hi

theorem mem_closure (h : Paired e τ g g') (hq : q < (graph g).size) {i : Item}
    (hi : i ∈ ((graph g).core q).closure) : e.item i ∈ ((graph g').core (τ q)).closure := by
  rw [(ofItems_graph h.wf).closure_eq hq] at hi
  rw [(ofItems_graph h.wf').closure_eq ((h.states.lt_iff q).2 hq)]
  exact h.grammar.mem_closure h.wf h.wf' (fun k => h.mem_kernel hq) hi

theorem next?_of_next? (h : Paired e τ g g') (hq : q < (graph g).size) {X : SymbolId} {r : StateId}
    (hr : (graph g).next? q X = some r) : (graph g').next? (τ q) (e.symbol X) = some (τ r) := by
  obtain ⟨γ, hγ⟩ := reached_graph h.wf q hq
  have hread := h.states.reads_iff.2 (Graph.reads_snoc.2 ⟨q, hγ, hr⟩)
  rw [e.string_append] at hread
  obtain ⟨p, hp, hX⟩ := Graph.reads_snoc.1 hread
  rwa [hp.unique (h.states.reads_iff.2 hγ)] at hX

theorem mem_edges (h : Paired e τ g g') (hq : q < (graph g).size) {edge : Edge}
    (hedge : edge ∈ ((graph g).core q).edges) : e.edge τ edge ∈ ((graph g').core (τ q)).edges := by
  have represented := represented_graph h.wf
  have represented' := represented_graph h.wf'
  have hq' := (h.states.lt_iff q).2 hq
  have hnext := h.next?_of_next? hq (represented.next?_edge hq hedge)
  obtain ⟨edge', hedge', hsymbol, htarget⟩ := (represented'.next?_eq_some_iff hq').1 hnext
  have hitems := represented'.nextItems_eq hq' edge' hedge'
  rw [htarget, h.kernel_eq (represented.target_lt hq edge hedge),
    ← represented.nextItems_eq hq edge hedge] at hitems
  have heq : edge' = e.edge τ edge := by
    rw [Renumbering.edge, ← hsymbol, ← htarget, ← hitems]
  exact heq ▸ hedge'

theorem symm_edge_edge (h : Paired e τ g g') (hq : q < (graph g).size) {edge : Edge}
    (hedge : edge ∈ ((graph g).core q).edges) : e.symm.edge τ.symm (e.edge τ edge) = edge := by
  have represented := represented_graph h.wf
  have hsorted : ItemSet.Sorted edge.nextItems := by
    rw [represented.nextItems_eq hq edge hedge]
    exact sorted_kernel h.wf (represented.target_lt hq edge hedge)
  simp [Renumbering.edge, e.symm_kernel_kernel hsorted]

theorem mem_predecessors (h : Paired e τ g g') (hq : q < (graph g).size) {p : StateId}
    (hp : p ∈ ((graph g).core q).predecessors) : τ p ∈ ((graph g').core (τ q)).predecessors := by
  obtain ⟨hlt, edge, hedge, rfl⟩ := (Graph.linked_link _ hq).1 hp
  exact (Graph.linked_link _ ((h.states.lt_iff _).2 hq)).2
    ⟨(h.states.lt_iff p).2 hlt, _, h.mem_edges hlt hedge, rfl⟩

theorem accessing_eq (h : Paired e τ g g') (hq : q < (graph g).size) :
    ((graph g').core (τ q)).accessing = ((graph g).core q).accessing.map e.symbol := by
  obtain ⟨γ, hγ⟩ := reached_graph h.wf q hq
  induction γ using List.reverseRecOn with
  | nil =>
    obtain rfl := Graph.reads_nil.1 hγ
    rw [h.start_eq, accessing_start h.wf, accessing_start h.wf']
    rfl
  | append_singleton γ X _ =>
    obtain ⟨p, hp, hX⟩ := Graph.reads_snoc.1 hγ
    have represented := represented_graph h.wf
    have hlt := (represented.reads_kernel hp).1
    obtain ⟨edge, hedge, rfl, rfl⟩ := (represented.next?_eq_some_iff hlt).1 hX
    rw [represented.accessing_target hlt edge hedge]
    exact (represented_graph h.wf').accessing_target ((h.states.lt_iff p).2 hlt) _
      (h.mem_edges hlt hedge)

/-- **Paired states are the same** but for the numbers. -/
theorem core (h : Paired e τ g g') (hq : q < (graph g).size) :
    ((graph g).core q).Renumbers e τ ((graph g').core (τ q)) := by
  have hq' := (h.states.lt_iff q).2 hq
  have items := ofItems_graph h.wf
  have items' := ofItems_graph h.wf'
  have back : τ.symm (τ q) = q := τ.symm_apply_apply q
  constructor
  case accessing_eq => exact h.accessing_eq hq
  case kernel_perm =>
    refine List.perm_map_of_mem e.item e.symm.item (sorted_kernel h.wf hq).nodup
      (sorted_kernel h.wf' hq').nodup (fun i hi => ⟨h.mem_kernel hq hi, e.symm_item_item i⟩)
      fun i hi => ⟨?_, e.item_symm_item i⟩
    exact back ▸ h.symm.mem_kernel hq' hi
  case closure_perm =>
    refine List.perm_map_of_mem e.item e.symm.item ?_ ?_
      (fun i hi => ⟨h.mem_closure hq hi, e.symm_item_item i⟩) fun i hi => ⟨?_, e.item_symm_item i⟩
    · rw [items.closure_eq hq]; exact g.nodup_closure _
    · rw [items'.closure_eq hq']; exact g'.nodup_closure _
    · exact back ▸ h.symm.mem_closure hq' hi
  case edges_perm =>
    refine List.perm_map_of_mem (e.edge τ) (e.symm.edge τ.symm) (items.nodup_symbols hq).of_map
      (items'.nodup_symbols hq').of_map
      (fun edge hedge => ⟨h.mem_edges hq hedge, h.symm_edge_edge hq hedge⟩)
      fun edge hedge => ⟨?_, h.symm.symm_edge_edge hq' hedge⟩
    exact back ▸ h.symm.mem_edges hq' hedge
  case predecessors_perm =>
    refine List.perm_map_of_mem τ τ.symm ?_ ?_
      (fun p hp => ⟨h.mem_predecessors hq hp, τ.symm_apply_apply p⟩)
      fun p hp => ⟨?_, τ.apply_symm_apply p⟩
    · rw [graph_eq, Graph.size_link] at hq
      rw [graph_eq, Graph.core_link _ hq]
      exact Graph.nodup_predecessorsOf _ q
    · rw [graph_eq, Graph.size_link] at hq'
      rw [graph_eq, Graph.core_link _ hq']
      exact Graph.nodup_predecessorsOf _ (τ q)
    · exact back ▸ h.symm.mem_predecessors hq' hp
  case isocore_eq => rw [isocore_graph h.wf hq, isocore_graph h.wf' hq']

/-! ## Lookahead sets -/

theorem mem_keys_la (h : Paired e τ g g') {ρ : RuleId}
    (hkey : (⟨q, ρ⟩ : StateRule) ∈ (Lookaheads.compute g (graph g)).la.keys) :
    (⟨τ q, e.rule ρ⟩ : StateRule) ∈ (Lookaheads.compute g' (graph g')).la.keys := by
  obtain ⟨γ, j, hγ, hj, hexpands⟩ :=
    (Lookaheads.mem_keys_la_iff (ofItems_graph h.wf) h.wf (reachable_graph h.wf)).1 hkey
  refine (Lookaheads.mem_keys_la_iff (ofItems_graph h.wf') h.wf' (reachable_graph h.wf')).2
    ⟨e.string γ, e.item j, ?_, h.grammar.viable hj, h.grammar.expands hexpands⟩
  rw [h.grammar.rhs_eq, ← e.string_append]
  exact h.states.reads_iff.2 hγ

theorem mem_la (h : Paired e τ g g') {ρ : RuleId} {t : SymbolId}
    (hkey : (⟨q, ρ⟩ : StateRule) ∈ (Lookaheads.compute g (graph g)).la.keys)
    (ht : t ∈ (Lookaheads.compute g (graph g)).la.getD ⟨q, ρ⟩ ∅) :
    e.symbol t ∈ (Lookaheads.compute g' (graph g')).la.getD ⟨τ q, e.rule ρ⟩ ∅ := by
  obtain ⟨hq, hi⟩ :=
    Lookaheads.complete_of_mem_keys_la (ofItems_graph h.wf) h.wf (reachable_graph h.wf) hkey
  obtain ⟨hq', hi'⟩ := Lookaheads.complete_of_mem_keys_la (ofItems_graph h.wf') h.wf'
    (reachable_graph h.wf') (h.mem_keys_la hkey)
  obtain ⟨γ, hγ, hfollows⟩ :=
    (Lookaheads.mem_la_iff (ofItems_graph h.wf) h.wf (reachable_graph h.wf) hq hi).1 ht
  refine (Lookaheads.mem_la_iff (ofItems_graph h.wf') h.wf' (reachable_graph h.wf') hq' hi').2
    ⟨e.string γ, ?_, ?_⟩
  · rw [h.grammar.rhs_eq, ← e.string_append]
    exact h.states.reads_iff.2 hγ
  · rw [h.grammar.lhs_eq]
    exact h.grammar.follows hfollows

/-- **The tables of lookahead sets are the same** but for the numbers. -/
theorem get?_la (h : Paired e τ g g') (q : StateId) (ρ : RuleId) :
    (Lookaheads.compute g' (graph g')).la.get? ⟨τ q, e.rule ρ⟩ =
      ((Lookaheads.compute g (graph g)).la.get? ⟨q, ρ⟩).map e.symbols := by
  have back : (⟨τ.symm (τ q), e.symm.rule (e.rule ρ)⟩ : StateRule) = ⟨q, ρ⟩ := by simp
  by_cases hkey : (⟨q, ρ⟩ : StateRule) ∈ (Lookaheads.compute g (graph g)).la.keys
  · have hkey' := h.mem_keys_la hkey
    obtain ⟨la, hla⟩ := Option.isSome_iff_exists.1 (OrderedMap.mem_keys_iff.1 hkey)
    obtain ⟨la', hla'⟩ := Option.isSome_iff_exists.1 (OrderedMap.mem_keys_iff.1 hkey')
    have same : la' = e.symbols la := by
      refine e.eq_symbols fun t => ⟨fun ht => ?_, fun ht => ?_⟩
      · rw [← OrderedMap.getD_of_get? (b := ∅) hla'] at ht
        have hold := h.symm.mem_la hkey' ht
        rw [back, OrderedMap.getD_of_get? hla] at hold
        simpa using hold
      · rw [← OrderedMap.getD_of_get? (b := ∅) hla] at ht
        have hnew := h.mem_la hkey ht
        rwa [OrderedMap.getD_of_get? hla'] at hnew
    rw [hla, hla', same]
    rfl
  · have hkey' : (⟨τ q, e.rule ρ⟩ : StateRule) ∉ (Lookaheads.compute g' (graph g')).la.keys :=
      fun hkey' => hkey (back ▸ h.symm.mem_keys_la hkey')
    rw [OrderedMap.mem_keys_iff, Option.not_isSome_iff_eq_none] at hkey hkey'
    rw [hkey, hkey']
    rfl

end Lr0.Paired

end LRAutomata
