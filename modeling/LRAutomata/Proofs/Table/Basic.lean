/-
  Tables and the automata that they stand for.

  * `Table.Fits` is what every table has: its rows are numbered by their places,
    and their transitions and reductions are those of their items;
  * `Table.Noted` says which predecessors have been noted.  When those of all rows
    have, they are the ones that a graph is given by its links
    (`Table.link_graphOf`);
  * filling rows that are blank gives the automaton of their graph
    (`Table.automaton_fill`), whatever was recorded in them before they were
    cleared.
-/
import LRAutomata.Proofs.Table.Row
import LRAutomata.Table.Basic

namespace LRAutomata

theorem Graph.ext_core {a b : Graph} (size_eq : a.size = b.size)
    (core_eq : ∀ q, q < a.size → a.core q = b.core q) : a = b := by
  obtain ⟨cores⟩ := a
  obtain ⟨cores'⟩ := b
  refine congrArg Graph.mk (Array.ext size_eq fun q hq hq' => ?_)
  simpa [Graph.core, Array.getD, hq, hq'] using core_eq q hq

/-- Linking fills in the same predecessors in graphs that only differ in these. -/
theorem Graph.link_congr {a b : Graph} (size_eq : a.size = b.size)
    (core_eq : ∀ q, q < a.size →
      { a.core q with predecessors := [] } = { b.core q with predecessors := [] }) :
    a.link = b.link := by
  refine ext_core (by rw [size_link, size_link, size_eq]) fun q hq => ?_
  rw [size_link] at hq
  have same : a.predecessorsOf q = b.predecessorsOf q := by
    refine List.Pairwise.eq_of_mem_iff (pairwise_predecessorsOf a q) (pairwise_predecessorsOf b q)
      fun p => ?_
    rw [mem_predecessorsOf, mem_predecessorsOf, size_eq]
    refine and_congr_right fun hp => ?_
    have hedges := congrArg Core.edges (core_eq p (size_eq ▸ hp))
    rw [show (a.core p).edges = (b.core p).edges from hedges]
  have hcore := congrArg (fun c : Core => { c with predecessors := b.predecessorsOf q }) (core_eq q hq)
  rw [core_link a hq, core_link b (size_eq ▸ hq), same]
  exact hcore

namespace Table

variable {g : Grammar} {rows : Array Row} {p q : StateId} {γ : List SymbolId}

/-! ## Rows by their numbers -/

@[simp] theorem size_graphOf (rows : Array Row) : (graphOf rows).size = rows.size := by
  simp [graphOf, Graph.size]

@[simp] theorem core_graphOf (rows : Array Row) (q : StateId) :
    (graphOf rows).core q = (rows.getD q default).core := by
  by_cases hq : q < rows.size
  · simp [graphOf, Graph.core, Array.getD, hq]
  · rw [Graph.core_of_size_le _ (by rw [size_graphOf]; exact Nat.le_of_not_lt hq), Array.getD, dif_neg hq]
    rfl

theorem getD_push (rows : Array Row) (r : Row) (q : StateId) :
    (rows.push r).getD q default = if q = rows.size then r else rows.getD q default := by
  rcases Nat.lt_trichotomy q rows.size with h | rfl | h
  · simp [Array.getD, Nat.lt_succ_of_lt h, Nat.ne_of_lt h, h, Array.getElem_push_lt]
  · simp [Array.getD]
  · simp [Array.getD, Nat.ne_of_gt h, Nat.not_lt_of_gt h, Nat.not_lt_of_ge (Nat.succ_le_of_lt h)]

theorem getD_modify (rows : Array Row) (q p : StateId) (f : Row → Row) :
    (rows.modify q f).getD p default =
      if p = q ∧ q < rows.size then f (rows.getD p default) else rows.getD p default := by
  by_cases hp : p < rows.size
  · by_cases hpq : q = p
    · subst hpq; simp [Array.getD, Array.getElem_modify, hp]
    · simp [Array.getD, Array.getElem_modify, hp, hpq, Ne.symm hpq]
  · have : ¬ (p = q ∧ q < rows.size) := by rintro ⟨rfl, h⟩; exact hp h
    simp [Array.getD, hp, this]

theorem getD_map (rows : Array Row) (f : Row → Row) (hq : q < rows.size) :
    (rows.map f).getD q default = f (rows.getD q default) := by
  simp [Array.getD, hq]

theorem map_modify {α : Type} {f : Row → α} {u : Row → Row} {v : α → α} (h : ∀ r, f (u r) = v (f r))
    (rows : Array Row) (q : StateId) : (rows.modify q u).map f = (rows.map f).modify q v := by
  refine Array.ext (by simp) fun p hp hp' => ?_
  simp only [Array.getElem_map, Array.getElem_modify]
  split
  · exact h _
  · rfl

/-- The rows are numbered by their places, and their transitions and reductions
    are those of their items. -/
def Fits (g : Grammar) (rows : Array Row) : Prop :=
  ∀ q, q < rows.size → (rows.getD q default).Fits g q

/-- The rows have no records. -/
def Blank (g : Grammar) (rows : Array Row) : Prop :=
  ∀ q, q < rows.size → (rows.getD q default).Blank g

/-- The transitions of a row are those of the graph. -/
theorem Fits.next?_graphOf (h : Fits g rows) (hq : q < rows.size) (X : SymbolId) :
    (graphOf rows).next? q X = (rows.getD q default).transitions.get? X := by
  rw [Graph.next?, core_graphOf]; exact (h q hq).paired.next?_core X

/-- Reading a string in the rows is reading it in their graph. -/
theorem Fits.transition?_eq_some_iff (h : Fits g rows) (items : (graphOf rows).OfItems g)
    (hq : q < rows.size) : transition? rows q γ = some p ↔ (graphOf rows).Reads q γ p := by
  induction γ generalizing q with
  | nil => rw [Graph.reads_nil]; exact Option.some_inj
  | cons X γ ih =>
    rw [Graph.reads_cons]
    simp only [h.next?_graphOf hq]
    show ((rows.getD q default).transitions.get? X >>= fun r => transition? rows r γ) = some p ↔ _
    rw [Option.bind_eq_bind, Option.bind_eq_some_iff]
    refine exists_congr fun r => and_congr_right fun hr => ?_
    rw [← h.next?_graphOf hq] at hr
    have hlt := (items.next?_kernel (by rwa [size_graphOf]) hr).1
    exact ih (by rwa [size_graphOf] at hlt)

/-! ## Predecessors -/

theorem predecessors_of_size_le (h : rows.size ≤ p) : (rows.getD p default).predecessors = [] := by
  rw [Array.getD, dif_neg (Nat.not_lt_of_ge h)]; rfl

theorem predecessors_appendPredecessor (p : StateId) (r : Row) :
    (r.appendPredecessor p).predecessors =
      if p ∈ r.predecessors then r.predecessors else r.predecessors ++ [p] := by
  rw [Row.appendPredecessor]; split <;> rfl

/-- The row with the first number has a transition to the one with the second. -/
def leadsTo (rows : Array Row) (p q : StateId) : Bool :=
  (rows.getD p default).edges.any fun e => e.target = q

/-- The predecessors noted of each row are those among the first `n` rows. -/
def Noted (rows : Array Row) (n : Nat) : Prop :=
  ∀ q, q < rows.size →
    (rows.getD q default).predecessors = (List.range n).filter fun p => leadsTo rows p q

theorem predecessorsOf_graphOf (rows : Array Row) (q : StateId) :
    (graphOf rows).predecessorsOf q = (List.range rows.size).filter fun p => leadsTo rows p q := by
  refine List.Pairwise.eq_of_mem_iff (Graph.pairwise_predecessorsOf _ q)
    (List.pairwise_lt_range.filter _) fun p => ?_
  rw [Graph.mem_predecessorsOf, size_graphOf, core_graphOf, List.mem_filter, List.mem_range, leadsTo,
    List.any_eq_true]
  simp only [decide_eq_true_eq]
  exact Iff.rfl

/-- When all predecessors are noted, they are those of the graph. -/
theorem link_graphOf (h : Noted rows rows.size) : (graphOf rows).link = graphOf rows := by
  refine Graph.ext_core (Graph.size_link _) fun q hq => ?_
  rw [Graph.size_link] at hq
  rw [Graph.core_link _ hq, predecessorsOf_graphOf, core_graphOf]
  rw [size_graphOf] at hq
  rw [← h q hq]
  rfl

/-! ## Filling rows -/

theorem rows_fill (g : Grammar) (rows : Array Row) :
    (fill g rows).rows = rows.map (Row.record g (Lookaheads.compute g (graphOf rows)).la) := by
  simp only [fill, Array.map_map]
  rfl

/-- **Blank rows are filled to the automaton of their graph.** -/
theorem automaton_fill (h : Fits g rows) (hblank : Blank g rows)
    (items : (graphOf rows).OfItems g) (wf : g.WellFormed) (reach : (graphOf rows).Reachable) :
    (fill g rows).automaton = Automaton.ofGraph g (graphOf rows) := by
  have hstates : (fill g rows).rows.map Row.state = (Automaton.ofGraph g (graphOf rows)).states := by
    rw [rows_fill, Array.map_map]
    refine Array.ext (by simp [Automaton.ofGraph, Graph.states, graphOf]) fun q hq hq' => ?_
    have hq : q < rows.size := by simpa using hq
    have hlt : q < (graphOf rows).size := by rwa [size_graphOf]
    have hfits := h q hq
    have hrules := Automaton.nodup_reductionsAt items wf reach hlt
    have hstate : (Automaton.ofGraph g (graphOf rows)).states[q] =
        (Automaton.ofGraph g (graphOf rows)).state q := by
      rw [Automaton.state, Array.getD, dif_pos hq']; rfl
    have hrow : rows[q] = rows.getD q default := by simp [Array.getD, hq]
    rw [hstate, Automaton.state_ofGraph g _ hlt, Array.getElem_map, hrow, core_graphOf]
    rw [Automaton.reductionsAt, core_graphOf] at hrules
    have hrecord := Row.state_record (Lookaheads.compute g (graphOf rows)).la hfits.paired
      (hblank q hq) (by rwa [hfits.id_eq])
    rw [hfits.id_eq] at hrecord
    exact hrecord
  rw [automaton, hstates]
  rfl

theorem graphOf_map {f : Row → Row} (core_eq : ∀ r, (f r).core = r.core) (rows : Array Row) :
    graphOf (rows.map f) = graphOf rows := by
  rw [graphOf, graphOf, Array.map_map]
  exact congrArg (fun f => Graph.mk (rows.map f)) (funext core_eq)

/-- Filling touches neither items nor transitions, -/
theorem graphOf_fill (g : Grammar) (rows : Array Row) : graphOf (fill g rows).rows = graphOf rows := by
  rw [rows_fill, graphOf_map (Row.core_record _)]

/-- and keeps the numbers and the reductions. -/
theorem Fits.fill (h : Fits g rows) (hblank : Blank g rows) : Fits g (fill g rows).rows := by
  rw [rows_fill]
  intro q hq
  rw [Array.size_map] at hq
  rw [getD_map rows _ hq]
  exact (h q hq).record (hblank q hq)

theorem Fits.clear (h : Fits g rows) : Fits g (rows.map Row.clear) := by
  intro q hq
  rw [Array.size_map] at hq
  rw [getD_map rows _ hq]
  exact (h q hq).clear

/-- Rows that are cleared are blank. -/
theorem Fits.blank_clear (h : Fits g rows) : Blank g (rows.map Row.clear) := by
  intro q hq
  rw [Array.size_map] at hq
  rw [getD_map rows _ hq]
  exact Row.blank_clear (h q hq)

end Table

end LRAutomata
