/-
  Splitting rows is splitting the automaton that they stand for.

  * every step of the walk on rows is the step of the walk on graphs, and leaves
    rows whose transitions are those of their shifts (`Table.Walk.run_plain`);
  * dropping rows is pruning their graph, predecessors included
    (`Table.graphOf_prune`).
-/
import LRAutomata.Proofs.Automaton.Calls
import LRAutomata.Proofs.Table.Basic
import LRAutomata.Table.Splitting

namespace LRAutomata

namespace Row

variable {g : Grammar} {r : Row} {X : SymbolId} {q : StateId}

/-- Redirecting a transition of the row redirects that of its core. -/
theorem core_retarget (r : Row) (X : SymbolId) (target : StateId) :
    { r with transitions := r.transitions.insert X target }.core =
      { r.core with edges := r.core.edges.map fun e => if e.symbol = X then { e with target } else e } := by
  rw [core, core, edges, edges, List.map_map]
  refine congrArg (fun edges => { r.core with edges }) (List.map_congr_left fun s _ => ?_)
  rw [OrderedMap.getD_insert, Function.comp]
  by_cases h : X = s.symbol
  · rw [if_pos h, if_pos h.symm]
  · rw [if_neg h, if_neg (Ne.symm h)]

/-- Renumbering the transitions of the row renumbers its edges. -/
theorem Paired.edges_renumber (h : r.Paired) (f : StateId → StateId) :
    { r with transitions := r.transitions.map f }.edges =
      r.edges.map fun e => { e with target := f e.target } := by
  rw [edges, edges, List.map_map]
  refine List.map_congr_left fun s hs => ?_
  have hmem : s.symbol ∈ r.transitions.keys := by rw [h]; exact List.mem_map_of_mem hs
  obtain ⟨target, htarget⟩ := Option.isSome_iff_exists.1 (OrderedMap.mem_keys_iff.1 hmem)
  have hmap : (r.transitions.map f).get? s.symbol = some (f target) := by
    rw [OrderedMap.get?_map, htarget]; rfl
  rw [Function.comp, OrderedMap.getD_of_get? hmap, OrderedMap.getD_of_get? htarget]

theorem appendPredecessor_appendPredecessor (p : StateId) (r : Row) :
    (r.appendPredecessor p).appendPredecessor p = r.appendPredecessor p := by
  rw [appendPredecessor, if_pos]
  rw [appendPredecessor]
  split
  · assumption
  · exact List.mem_append_right _ (List.mem_singleton.2 rfl)

theorem Fits.retarget (h : r.Fits g q) (hX : X ∈ r.transitions.keys) (target : StateId) :
    { r with transitions := r.transitions.insert X target }.Fits g q where
  id_eq := h.id_eq
  paired := (OrderedMap.keys_insert_of_mem hX target).trans h.paired
  items_eq := h.items_eq

end Row

namespace Table

variable {g : Grammar} {rows : Array Row} {p q s t core : StateId} {X : SymbolId}

@[simp] theorem graph_automaton (t : Table) : t.automaton.graph = graphOf t.rows := by
  rw [Automaton.graph, automaton, ← Array.toList_map, Array.toArray_toList, Array.map_map]
  rfl

theorem toCore_state (t : Table) (q : StateId) : (t.automaton.state q).toCore = (t.row q).core := by
  rw [← Automaton.core_graph, graph_automaton, core_graphOf, row]

namespace Walk

variable {sp : Splitting} {w : Walk} {source incoming : List NatSet}

/-- The walk on the graph of the rows. -/
def plain (w : Walk) : Splitting.Walk :=
  ⟨w.rows.map Row.core, w.lookaheads, w.copies, w.queue⟩

theorem plain_start (t : Table) : (start t).plain = Splitting.Walk.start t.automaton := by
  have hkernel : (t.automaton.state StateId.start).kernel = (t.row StateId.start).kernel :=
    congrArg Core.kernel (toCore_state t StateId.start)
  have hcores : t.automaton.graph.cores = t.rows.map Row.core := by rw [graph_automaton]; rfl
  rw [Splitting.Walk.start, hcores, hkernel, Array.size_map]
  rfl

theorem plain_deliver (w : Walk) (q : StateId) (incoming : List NatSet) :
    (w.deliver q incoming).plain = w.plain.deliver q incoming := by
  rw [deliver, Splitting.Walk.deliver, show w.plain.lookaheads? q = w.lookaheads? q from rfl]
  cases w.lookaheads? q <;> dsimp only <;> split <;> rfl

@[simp] theorem rows_deliver (w : Walk) (q : StateId) (incoming : List NatSet) :
    (w.deliver q incoming).rows = w.rows := by
  rw [deliver]
  cases w.lookaheads? q <;> dsimp only <;> split <;> rfl

theorem core_plain (w : Walk) (q : StateId) :
    w.plain.cores.getD q default = (w.rows.getD q default).core :=
  core_graphOf w.rows q

theorem plain_copy (w : Walk) (core : StateId) (incoming : List NatSet) :
    ((w.copy core incoming).1.plain, (w.copy core incoming).2) = w.plain.copy core incoming := by
  rw [Splitting.Walk.copy, core_plain, copy, plain]
  simp only [Array.map_push, plain, Array.size_map]
  rfl

theorem plain_retarget (w : Walk) (q : StateId) (X : SymbolId) (target : StateId) :
    (w.retarget q X target).plain = w.plain.retarget q X target := by
  have hmodify := map_modify (v := fun c : Core =>
    { c with edges := c.edges.map fun e => if e.symbol = X then { e with target } else e })
    (fun r => Row.core_retarget r X target) w.rows q
  rw [retarget, plain, hmodify]
  rfl

/-- The first copy that can take the lookaheads. -/
def taker? (sp : Splitting) (w : Walk) (next : StateId) (incoming : List NatSet) : Option StateId :=
  (w.copies.getD next []).find? fun s =>
    match w.lookaheads? s with
    | some current => sp.isCompatible next current incoming
    | none => true

/-- What follows a transition on rows and on their cores: the lookaheads go to the
    same copy, or to a new one. -/
theorem follow_cases (g : Grammar) (sp : Splitting) (w : Walk) (q core : StateId)
    (source : List NatSet) (e : Edge) : ∃ next incoming,
      (∃ s, follow g sp q core source w (e.symbol, e.target) =
          (w.deliver s incoming).retarget q e.symbol s ∧
        Splitting.Walk.follow g sp q core source w.plain e =
          (w.plain.deliver s incoming).retarget q e.symbol s) ∨
      (follow g sp q core source w (e.symbol, e.target) =
          (w.copy next incoming).1.retarget q e.symbol w.rows.size ∧
        Splitting.Walk.follow g sp q core source w.plain e =
          (w.plain.copy next incoming).1.retarget q e.symbol w.rows.size) := by
  obtain ⟨next, hnext⟩ : ∃ next, (w.rows.getD e.target default).isocore = next := ⟨_, rfl⟩
  obtain ⟨incoming, hincoming⟩ : ∃ incoming, sp.propagate g core source next = incoming := ⟨_, rfl⟩
  have hcopy : (w.plain.copy next incoming).2 = w.rows.size := Array.size_map
  refine ⟨next, incoming, ?_⟩
  rw [Splitting.Walk.follow, core_plain, show (w.rows.getD e.target default).core.isocore = next from hnext,
    follow]
  simp only [hnext, hincoming]
  cases htaker : taker? sp w next incoming with
  | some s =>
    refine .inl ⟨s, ?_, ?_⟩
    all_goals
      split <;> rename_i hfind
      · cases htaker.symm.trans hfind; rfl
      · cases htaker.symm.trans hfind
  | none =>
    refine .inr ⟨?_, hcopy ▸ ?_⟩
    all_goals
      split <;> rename_i hfind
      · cases htaker.symm.trans hfind
      · rfl

/-- Following a transition of a row is following that of its core. -/
theorem plain_follow (w : Walk) (q core : StateId) (source : List NatSet) (e : Edge) :
    (follow g sp q core source w (e.symbol, e.target)).plain =
      Splitting.Walk.follow g sp q core source w.plain e := by
  obtain ⟨next, incoming, ⟨s, hfollow, hplain⟩ | ⟨hfollow, hplain⟩⟩ :=
    follow_cases g sp w q core source e <;> rw [hfollow, hplain, plain_retarget]
  · rw [plain_deliver]
  · rw [← plain_copy]

/-! ## The rows of the walk -/

theorem fits_copy (h : Fits g w.rows) (core : StateId) (incoming : List NatSet) :
    Fits g (w.copy core incoming).1.rows := by
  intro q hq
  rw [copy, getD_push]
  by_cases hlast : q = w.rows.size
  · rw [if_pos hlast, hlast]
    rcases Nat.lt_or_ge core w.rows.size with hcore | hcore
    · exact ⟨rfl, (h core hcore).paired, (h core hcore).items_eq⟩
    · rw [Array.getD, dif_neg (Nat.not_lt_of_ge hcore)]
      exact ⟨rfl, rfl, rfl⟩
  · rw [if_neg hlast]
    rw [copy, Array.size_push] at hq
    exact h q (Nat.lt_of_le_of_ne (Nat.le_of_lt_succ hq) hlast)

theorem fits_retarget (h : Fits g w.rows) (hX : X ∈ (w.rows.getD q default).transitions.keys)
    (target : StateId) : Fits g (w.retarget q X target).rows := by
  intro p hp
  rw [retarget, Array.size_modify] at hp
  rw [retarget, getD_modify]
  by_cases hpq : p = q ∧ q < w.rows.size
  · rw [if_pos hpq]
    rw [← hpq.1] at hX
    exact (h p hp).retarget hX target
  · rw [if_neg hpq]; exact h p hp

theorem keys_retarget (hX : X ∈ (w.rows.getD q default).transitions.keys) (target : StateId) :
    ((w.retarget q X target).rows.getD q default).transitions.keys =
      (w.rows.getD q default).transitions.keys := by
  rw [retarget, getD_modify]
  by_cases hq : q = q ∧ q < w.rows.size
  · rw [if_pos hq]; exact OrderedMap.keys_insert_of_mem hX target
  · rw [if_neg hq]

/-- Following a transition leaves rows that fit, and the row walked from with the
    same transitions. -/
theorem fits_follow (sp : Splitting) (h : Fits g w.rows) (hq : q < w.rows.size) (core : StateId)
    (source : List NatSet) {e : Edge} (he : e.symbol ∈ (w.rows.getD q default).transitions.keys) :
    let w' := follow g sp q core source w (e.symbol, e.target)
    Fits g w'.rows ∧ q < w'.rows.size ∧
      (w'.rows.getD q default).transitions.keys = (w.rows.getD q default).transitions.keys := by
  obtain ⟨next, incoming, ⟨s, hfollow, -⟩ | ⟨hfollow, -⟩⟩ := follow_cases g sp w q core source e <;>
    rw [hfollow]
  · rw [← rows_deliver w s incoming] at h hq he ⊢
    exact ⟨fits_retarget h he s, by rwa [retarget, Array.size_modify], keys_retarget he s⟩
  · have hrow : (w.copy next incoming).1.rows.getD q default = w.rows.getD q default := by
      rw [copy, getD_push, if_neg (Nat.ne_of_lt hq)]
    rw [← hrow] at he ⊢
    refine ⟨fits_retarget (fits_copy h next incoming) he _, ?_, keys_retarget he _⟩
    rw [retarget, Array.size_modify, copy, Array.size_push]
    exact Nat.lt_succ_of_lt hq

/-- Walking from a row is walking from its core. -/
theorem foldl_follow (sp : Splitting) (core : StateId) (source : List NatSet) : ∀ (edges : List Edge) {w : Walk},
    Fits g w.rows → q < w.rows.size →
    (∀ e ∈ edges, e.symbol ∈ (w.rows.getD q default).transitions.keys) →
      let w' := (edges.map fun e => (e.symbol, e.target)).foldl (follow g sp q core source) w
      w'.plain = edges.foldl (Splitting.Walk.follow g sp q core source) w.plain ∧ Fits g w'.rows
  | [], _, h, _, _ => ⟨rfl, h⟩
  | e :: edges, w, h, hq, hkeys => by
    obtain ⟨hfits, hlt, hsame⟩ := fits_follow sp h hq core source (hkeys e (by simp))
    rw [List.map_cons, List.foldl_cons, List.foldl_cons, ← plain_follow]
    exact foldl_follow sp core source edges hfits hlt fun e' he' => by
      rw [hsame]; exact hkeys e' (List.mem_cons_of_mem e he')

/-- Walking from a row is walking from its core. -/
theorem plain_visit (sp : Splitting) (h : Fits g w.rows) (q : StateId) (source : List NatSet) :
    let r := w.rows.getD q default
    let w' := r.transitions.toList.foldl (follow g sp q r.isocore source) w
    w'.plain = r.core.edges.foldl (Splitting.Walk.follow g sp q r.isocore source) w.plain ∧
      Fits g w'.rows := by
  intro r w'
  rcases Nat.lt_or_ge q w.rows.size with hq | hq
  · have hfits : r.Fits g q := h q hq
    have hlist : r.transitions.toList = r.core.edges.map fun e => (e.symbol, e.target) :=
      hfits.paired.toList_transitions
    have := foldl_follow sp r.isocore source r.core.edges h hq fun e he => by
      rw [hfits.paired, ← Row.symbols_edges]; exact List.mem_map_of_mem he
    rwa [← hlist] at this
  · have hrow : r = default := dif_neg (Nat.not_lt_of_ge hq)
    simp only [w', hrow]
    exact ⟨rfl, h⟩

/-- **The walk on rows is the walk on their graph**, and it leaves rows that fit. -/
theorem run_plain (sp : Splitting) : ∀ (rounds : Nat) {w : Walk}, Fits g w.rows →
    (run g sp rounds w).plain = Splitting.Walk.run g sp rounds w.plain ∧
      Fits g (run g sp rounds w).rows
  | 0, _, h => ⟨rfl, h⟩
  | rounds + 1, w, h => by
    rw [run, Splitting.Walk.run, show w.plain.queue = w.queue from rfl]
    cases w.queue.pop? with
    | none => exact ⟨rfl, h⟩
    | some next =>
      obtain ⟨q, queue⟩ := next
      have hlookaheads : ({ w.plain with queue } : Splitting.Walk).lookaheads? q =
        ({ w with queue } : Walk).lookaheads? q := rfl
      dsimp only
      rw [hlookaheads]
      cases ({ w with queue } : Walk).lookaheads? q with
      | none => exact run_plain sp rounds (w := { w with queue }) h
      | some source =>
        obtain ⟨hplain, hfits⟩ := plain_visit sp (w := { w with queue }) h q source
        obtain ⟨hrun, hrows⟩ := run_plain sp rounds hfits
        refine ⟨hrun.trans ?_, hrows⟩
        rw [hplain]
        dsimp only
        rw [core_plain]
        rfl

end Walk

/-! ## Dropping rows -/

/-- Noting a row where its transitions lead. -/
theorem getD_foldl_note (p t : StateId) : ∀ (targets : List StateId) (rows : Array Row),
    (targets.foldl (fun rows q => rows.modify q (Row.appendPredecessor p)) rows).getD t default =
      if t ∈ targets ∧ t < rows.size then (rows.getD t default).appendPredecessor p
      else rows.getD t default
  | [], rows => by simp
  | q :: targets, rows => by
    rw [List.foldl_cons, getD_foldl_note p t targets, getD_modify, Array.size_modify]
    by_cases hq : t = q ∧ q < rows.size
    · rw [if_pos hq, if_pos (show t ∈ q :: targets ∧ t < rows.size from
        ⟨hq.1 ▸ List.mem_cons_self .., hq.1 ▸ hq.2⟩), Row.appendPredecessor_appendPredecessor, ite_self]
    · rw [if_neg hq]
      refine if_congr (and_congr_left fun ht => ?_) rfl rfl
      rw [List.mem_cons, or_iff_right fun heq => hq ⟨heq, heq ▸ ht⟩]

theorem size_foldl_note (p : StateId) (targets : List StateId) (rows : Array Row) :
    (targets.foldl (fun rows q => rows.modify q (Row.appendPredecessor p)) rows).size = rows.size :=
  List.foldlRecOn (motive := fun rows' : Array Row => rows'.size = rows.size) targets _ rfl
    fun _ h _ _ => by rw [Array.size_modify, h]

/-- The transitions of a row lead to the values listed. -/
theorem Fits.mem_values (h : Fits g rows) (hp : p < rows.size) :
    t ∈ (rows.getD p default).transitions.values ↔ leadsTo rows p t = true := by
  rw [OrderedMap.values_eq, (h p hp).paired.toList_transitions, List.map_map, leadsTo, List.any_eq_true,
    List.mem_map]
  simp only [decide_eq_true_eq]
  exact Iff.rfl

/-- The predecessors among the first `n` rows are noted, and nothing else is touched. -/
theorem foldl_notePredecessor (h : Fits g rows)
    (hnone : ∀ t, t < rows.size → (rows.getD t default).predecessors = []) :
    ∀ n, n ≤ rows.size →
      ((List.range n).foldl notePredecessor rows).size = rows.size ∧
      ∀ t, t < rows.size → ((List.range n).foldl notePredecessor rows).getD t default =
        { rows.getD t default with
          predecessors := (List.range n).filter fun p => leadsTo rows p t }
  | 0, _ => ⟨rfl, fun t ht => by
      rw [show (List.range 0).filter _ = [] from rfl, ← hnone t ht]; rfl⟩
  | n + 1, hn => by
    obtain ⟨hsize, hrow⟩ := foldl_notePredecessor h hnone n (Nat.le_of_succ_le hn)
    rw [List.range_succ, List.foldl_append, List.foldl_cons, List.foldl_nil, notePredecessor, hrow n hn]
    refine ⟨(size_foldl_note ..).trans hsize, fun t ht => ?_⟩
    rw [getD_foldl_note, hsize, hrow t ht, List.filter_append, List.filter_singleton]
    have hvalues : t ∈ (rows.getD n default).transitions.values ↔ leadsTo rows n t = true :=
      h.mem_values hn
    cases hleads : leadsTo rows n t with
    | false =>
      rw [if_neg fun h' => by rw [hvalues.1 h'.1] at hleads; cases hleads]
      simp
    | true =>
      rw [if_pos ⟨hvalues.2 hleads, ht⟩, Row.appendPredecessor, if_neg]
      · rfl
      · intro hmem
        exact Nat.lt_irrefl n (List.mem_range.1 (List.mem_filter.1 hmem).1)

/-- A row that remains, before predecessors are noted. -/
def keptRow (rows : Array Row) (q : StateId) : Row :=
  let a := graphOf rows
  let r := rows.getD q default
  { r with
    id := a.renumber q
    isocore := (a.representative? a.reachable.toList r.isocore).getD r.isocore
    transitions := r.transitions.map a.renumber
    predecessors := [] }

/-- The rows that remain, before predecessors are noted. -/
def kept (rows : Array Row) : Array Row :=
  ((graphOf rows).reachable.toList.map (keptRow rows)).toArray

theorem prune_eq (rows : Array Row) :
    prune rows = (List.range (kept rows).size).foldl notePredecessor (kept rows) := rfl

/-- A row that remains is the state of the pruned graph, without predecessors. -/
theorem core_keptRow (h : Fits g rows) (hq : q < rows.size) : (keptRow rows q).core =
    { (graphOf rows).prunedCore q with predecessors := [] } := by
  have hedges := (h q hq).paired.edges_renumber (graphOf rows).renumber
  rw [keptRow, Graph.prunedCore, core_graphOf]
  exact congrArg (fun edges : List Edge => { (rows.getD q default).core with
    edges
    predecessors := []
    isocore := ((graphOf rows).representative? (graphOf rows).reachable.toList
      (rows.getD q default).isocore).getD (rows.getD q default).isocore }) hedges

/-- The rows that remain, by their new numbers. -/
theorem exists_kept (items : (graphOf rows).OfItems g) {i : StateId} (hi : i < (kept rows).size) : ∃ q, q < rows.size ∧
    (graphOf rows).Remains i q ∧ (kept rows).getD i default = keptRow rows q := by
  have hi' : i < (graphOf rows).reachable.toList.length := by simpa [kept] using hi
  have hremains : (graphOf rows).Remains i (graphOf rows).reachable.toList[i] :=
    List.getElem?_eq_getElem hi'
  have hq := items.lt_of_mem_reachable hremains.mem
  rw [size_graphOf] at hq
  exact ⟨_, hq, hremains, by simp [kept, Array.getD, hi']⟩

section Prune
variable (h : Fits g rows) (items : (graphOf rows).OfItems g)
include h items

theorem fits_kept : Fits g (kept rows) := by
  intro i hi
  obtain ⟨q, hq, hremains, hrow⟩ := exists_kept items hi
  rw [hrow]
  constructor
  case id_eq => exact (hremains.inj (Graph.remains_renumber hremains.mem)).symm
  case paired => exact (h q hq).paired
  case items_eq =>
    rw [core_keptRow h hq, Graph.prunedCore, core_graphOf]
    exact (h q hq).items_eq

/-- Pruning the rows only notes predecessors of the rows that remain. -/
theorem getD_prune : (prune rows).size = (kept rows).size ∧ ∀ i, i < (kept rows).size →
    (prune rows).getD i default = { (kept rows).getD i default with
      predecessors := (List.range (kept rows).size).filter fun p => leadsTo (kept rows) p i } := by
  rw [prune_eq]
  refine foldl_notePredecessor (fits_kept h items) (fun i hi => ?_) _ (Nat.le_refl _)
  obtain ⟨q, -, -, hrow⟩ := exists_kept items hi
  rw [hrow]
  rfl

theorem fits_prune : Fits g (prune rows) := by
  obtain ⟨hsize, hrow⟩ := getD_prune h items
  intro i hi
  rw [hsize] at hi
  rw [hrow i hi]
  exact (fits_kept h items i hi).withPredecessors _

theorem noted_prune : Noted (prune rows) (prune rows).size := by
  obtain ⟨hsize, hrow⟩ := getD_prune h items
  intro i hi
  rw [hsize] at hi ⊢
  rw [hrow i hi]
  refine List.filter_congr fun p hp => ?_
  have hedges : ((prune rows).getD p default).edges = ((kept rows).getD p default).edges := by
    rw [hrow p (List.mem_range.1 hp)]
    exact Row.edges_withPredecessors ..
  rw [leadsTo, leadsTo, hedges]

/-- **Dropping rows is pruning their graph.** -/
theorem graphOf_prune : graphOf (prune rows) = (graphOf rows).prune := by
  obtain ⟨hsize, hrow⟩ := getD_prune h items
  rw [← link_graphOf (noted_prune h items), Graph.prune_eq]
  have hpruned : (kept rows).size = (graphOf rows).pruned.size := by
    simp [kept, Graph.pruned, Graph.size]
  refine Graph.link_congr (by rw [size_graphOf, hsize, hpruned]) fun i hi => ?_
  rw [size_graphOf, hsize] at hi
  obtain ⟨q, hq, hremains, hkept⟩ := exists_kept items hi
  rw [core_graphOf, hrow i hi, hkept, (Graph.core_pruned hremains).2]
  have hcore := core_keptRow h hq
  exact congrArg (fun c : Core => { c with predecessors := [] }) hcore

end Prune

end Table

end LRAutomata
