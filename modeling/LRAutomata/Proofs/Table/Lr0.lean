/-
  The LR(0) rows are the determinised item automaton.

  Completing a row does to the rows what completing a state does to the LR(0)
  automaton without its predecessors (`Table.bare`); the predecessors are noted on
  the way.  What holds of the rows found so far is `Table.Stage`: those before the
  row to be completed next are complete and noted as predecessors, and the others
  have nothing but their kernels.

  The construction stops only where a dot would be moved out of the range of
  positions, which takes a right-hand side with more symbols than that.
-/
import LRAutomata.Proofs.Automaton.Lr0
import LRAutomata.Proofs.Checked.Basic
import LRAutomata.Proofs.Table.Basic
import LRAutomata.Proofs.Table.Closure
import LRAutomata.Table.Lr0

namespace LRAutomata.Table

variable {g : Grammar} {rows : Array Row} {p q t : StateId} {X : SymbolId} {kernel : List Item}

/-! ## Rows without predecessors -/

/-- The states of the rows, without their predecessors. -/
def bare (rows : Array Row) : Array Core :=
  rows.map fun r => { r.core with predecessors := [] }

@[simp] theorem size_bare (rows : Array Row) : (bare rows).size = rows.size :=
  Array.size_map

theorem core_bare (hq : q < rows.size) :
    Graph.core ⟨bare rows⟩ q = { (rows.getD q default).core with predecessors := [] } := by
  simp [bare, Graph.core, Array.getD, hq]

/-- Linking fills in the same predecessors. -/
theorem link_bare (rows : Array Row) : Graph.link ⟨bare rows⟩ = (graphOf rows).link := by
  have size : Graph.size ⟨bare rows⟩ = rows.size := size_bare rows
  refine Graph.link_congr (by rw [size, size_graphOf]) fun q hq => ?_
  rw [size] at hq
  rw [core_bare hq, core_graphOf]

theorem bare_appendPredecessor (rows : Array Row) (p q : StateId) :
    bare (rows.modify q (Row.appendPredecessor p)) = bare rows := by
  have same : ∀ r : Row, { (r.appendPredecessor p).core with predecessors := [] } =
      { r.core with predecessors := [] } := by
    intro r; rw [Row.appendPredecessor]; split <;> rfl
  rw [bare, map_modify (v := id) same, ← bare]
  refine Array.ext (by simp) fun p hp hp' => ?_
  simp only [Array.getElem_modify, id, ite_self]

/-! ## Finding a row -/

/-- A kernel has a row already, or a new row is added for it. -/
theorem findOrAdd_cases (rows : Array Row) (X : SymbolId) (kernel : List Item) :
    (∃ q, q < rows.size ∧ findOrAdd rows X kernel = (rows, q) ∧
      Lr0.findOrAdd (bare rows) X kernel = (bare rows, q)) ∨
    findOrAdd rows X kernel = (rows.push (Row.fresh rows.size (some X) kernel), rows.size) ∧
      Lr0.findOrAdd (bare rows) X kernel =
        (bare (rows.push (Row.fresh rows.size (some X) kernel)), rows.size) := by
  have same : (bare rows).toList.findIdx? (fun c => c.kernel = kernel) =
      rows.toList.findIdx? fun r => r.kernel = kernel := by
    rw [bare, Array.toList_map, List.findIdx?_map]; rfl
  rw [findOrAdd, Lr0.findOrAdd, same]
  cases hfind : rows.toList.findIdx? fun r => r.kernel = kernel with
  | some q =>
    obtain ⟨hq, -⟩ := List.findIdx?_eq_some_iff_getElem.1 hfind
    exact .inl ⟨q, by simpa using hq, rfl, rfl⟩
  | none =>
    refine .inr ⟨rfl, ?_⟩
    rw [size_bare, bare, bare, Array.map_push]
    rfl

/-! ## The transitions of a row -/

namespace Expansion

/-- The transitions found so far. -/
def edges (x : Expansion) : List Edge :=
  x.shifts.map fun s => ⟨s.symbol, x.transitions.getD s.symbol StateId.start, s.nextItems⟩

/-- The transitions found so far are on the symbols of the shifts. -/
def Paired (x : Expansion) : Prop :=
  x.transitions.keys = x.shifts.map Shift.symbol

variable {x : Expansion} {nextItems : List Item}

theorem symbols_edges (x : Expansion) : x.edges.map Edge.symbol = x.shifts.map Shift.symbol := by
  rw [edges, List.map_map]; rfl

theorem transitions_next (x : Expansion) (q : StateId) (X : SymbolId) (nextItems : List Item) :
    (x.next q (X, nextItems)).transitions =
      x.transitions.insert X (findOrAdd x.rows X nextItems).2 := rfl

theorem shifts_next (x : Expansion) (q : StateId) (X : SymbolId) (nextItems : List Item) :
    (x.next q (X, nextItems)).shifts = x.shifts ++ [⟨X, nextItems, false⟩] := rfl

theorem rows_next (x : Expansion) (q : StateId) (X : SymbolId) (nextItems : List Item) :
    (x.next q (X, nextItems)).rows = (findOrAdd x.rows X nextItems).1.modify
      (findOrAdd x.rows X nextItems).2 (Row.appendPredecessor q) := rfl

theorem Paired.next (h : x.Paired) (hX : X ∉ x.shifts.map Shift.symbol) :
    (x.next q (X, nextItems)).Paired := by
  rw [Paired, transitions_next, shifts_next, OrderedMap.keys_insert, if_neg, h, List.map_append]
  · rfl
  · rwa [OrderedMap.contains_iff, h]

theorem edges_next (q : StateId) (nextItems : List Item) (hX : X ∉ x.shifts.map Shift.symbol) :
    (x.next q (X, nextItems)).edges = x.edges ++ [⟨X, (findOrAdd x.rows X nextItems).2, nextItems⟩] := by
  rw [edges, edges, shifts_next, transitions_next, List.map_append, List.map_singleton,
    OrderedMap.getD_insert, if_pos rfl]
  refine congrArg (· ++ _) (List.map_congr_left fun s hs => ?_)
  rw [OrderedMap.getD_insert, if_neg]
  rintro rfl
  exact hX (List.mem_map_of_mem hs)

/-- The transitions found are those of the LR(0) automaton. -/
theorem bare_foldl (items : List Item) : ∀ (Xs : List SymbolId) (x : Expansion),
    x.Paired → (x.shifts.map Shift.symbol ++ Xs).Nodup →
      let y := (Xs.map fun X => (X, ItemSet.advanceOver g items X)).foldl (next q) x
      (bare y.rows, y.edges) = Xs.foldl (Lr0.connect g items) (bare x.rows, x.edges) ∧ y.Paired
  | [], _, h, _ => ⟨rfl, h⟩
  | X :: Xs, x, h, hnodup => by
    have hX : X ∉ x.shifts.map Shift.symbol := fun hmem =>
      (List.nodup_append.1 hnodup).2.2 X hmem X (List.mem_cons_self ..) rfl
    obtain ⟨hsame, hpaired⟩ := bare_foldl items Xs
      (x.next q (X, ItemSet.advanceOver g items X)) (h.next hX) (by
        rw [shifts_next, List.map_append, List.append_assoc]; exact hnodup)
    refine ⟨?_, hpaired⟩
    rw [List.map_cons, List.foldl_cons, List.foldl_cons, hsame, edges_next _ _ hX, rows_next,
      bare_appendPredecessor, Lr0.connect]
    obtain ⟨t, -, hfind, hfind'⟩ | ⟨hfind, hfind'⟩ :=
      findOrAdd_cases x.rows X (ItemSet.advanceOver g items X) <;> rw [hfind, hfind']

end Expansion

/-! ## Rows while one of them is completed -/

/-- Of the row only the kernel is known, and perhaps predecessors. -/
def Waiting (q : StateId) (r : Row) : Prop :=
  r = { Row.fresh q r.accessing r.kernel with predecessors := r.predecessors }

namespace Expansion

variable {x : Expansion} {nextItems : List Item}

/-- What becomes of the rows while transitions of the row `q` are found: those that
    were there only get predecessors, the others wait, and `q` has been noted as the
    predecessor of the rows to which it leads. -/
structure Found (rows : Array Row) (q : StateId) (x : Expansion) : Prop where
  size_le : rows.size ≤ x.rows.size
  kept : ∀ {p}, p < rows.size → x.rows.getD p default =
    { rows.getD p default with predecessors := (x.rows.getD p default).predecessors }
  waiting : ∀ {p}, rows.size ≤ p → p < x.rows.size → Waiting p (x.rows.getD p default)
  predecessors : ∀ {p}, p < x.rows.size → (x.rows.getD p default).predecessors =
    (rows.getD p default).predecessors ++ if x.edges.any fun e => e.target = p then [q] else []
  target_lt : ∀ e ∈ x.edges, e.target < x.rows.size
  unmarked : ∀ s ∈ x.shifts, s.deselected = false

theorem found_start (rows : Array Row) (q : StateId) : Found rows q ⟨rows, [], ∅⟩ where
  size_le := Nat.le_refl _
  kept _ := rfl
  waiting h h' := absurd h' (Nat.not_lt_of_ge h)
  predecessors _ := (List.append_nil _).symm
  target_lt _ he := by cases he
  unmarked _ hs := by cases hs

/-- A row that is added waits, and nothing leads there yet. -/
theorem Found.push (h : Found rows q x) (X : SymbolId) (kernel : List Item) :
    Found rows q { x with rows := x.rows.push (Row.fresh x.rows.size (some X) kernel) } := by
  have cases : ∀ {p}, p < (x.rows.push (Row.fresh x.rows.size (some X) kernel)).size →
      p < x.rows.size ∨ p = x.rows.size :=
    fun hp => Nat.lt_succ_iff_lt_or_eq.1 (by simpa using hp)
  constructor
  case size_le => simpa using Nat.le_succ_of_le h.size_le
  case kept =>
    intro p hp
    rw [getD_push, if_neg (Nat.ne_of_lt (Nat.lt_of_lt_of_le hp h.size_le))]
    exact h.kept hp
  case waiting =>
    intro p hp hp'
    rw [getD_push]
    rcases cases hp' with hlt | rfl
    · rw [if_neg (Nat.ne_of_lt hlt)]; exact h.waiting hp hlt
    · rw [if_pos rfl]; rfl
  case predecessors =>
    intro p hp
    rw [getD_push]
    rcases cases hp with hlt | rfl
    · rw [if_neg (Nat.ne_of_lt hlt)]; exact h.predecessors hlt
    · have hnone : (x.edges.any fun e => e.target = x.rows.size) = false := by
        rw [List.any_eq_false]
        exact fun e he => by simpa using Nat.ne_of_lt (h.target_lt e he)
      rw [if_pos rfl, predecessors_of_size_le h.size_le]
      exact (if_neg (ne_true_of_eq_false hnone)).symm
  case target_lt =>
    intro e he
    simpa using Nat.lt_succ_of_lt (h.target_lt e he)
  case unmarked => exact h.unmarked

/-- The row `q` is noted where its next transition leads. -/
theorem Found.note {y : Expansion} (h : Found rows q x)
    (hnew : ∀ p, q ∉ (rows.getD p default).predecessors) (ht : t < x.rows.size)
    (hrows : y.rows = x.rows.modify t (Row.appendPredecessor q))
    (hshifts : y.shifts = x.shifts ++ [⟨X, nextItems, false⟩])
    (hedges : y.edges = x.edges ++ [⟨X, t, nextItems⟩]) : Found rows q y := by
  have size : y.rows.size = x.rows.size := by rw [hrows, Array.size_modify]
  have row : ∀ p, y.rows.getD p default = if p = t ∧ t < x.rows.size then
      (x.rows.getD p default).appendPredecessor q else x.rows.getD p default :=
    fun p => by rw [hrows, getD_modify]
  have same : ∀ p, y.rows.getD p default =
      { x.rows.getD p default with predecessors := (y.rows.getD p default).predecessors } := by
    intro p
    rw [row]
    split
    · rw [Row.appendPredecessor]; split <;> rfl
    · rfl
  constructor
  case size_le => rw [size]; exact h.size_le
  case kept =>
    intro p hp
    rw [same, h.kept hp]
  case waiting =>
    intro p hp hp'
    have hwaiting := h.waiting hp (size ▸ hp')
    rw [Waiting] at hwaiting ⊢
    rw [same, hwaiting]
    rfl
  case predecessors =>
    intro p hp
    have hbefore := h.predecessors (size ▸ hp)
    rw [row, hedges, List.any_append]
    by_cases hpt : p = t
    · subst hpt
      rw [if_pos ⟨rfl, ht⟩, predecessors_appendPredecessor, hbefore]
      have hnew := hnew p
      generalize (rows.getD p default).predecessors = before at hnew
      cases x.edges.any fun e => e.target = p <;> simp [hnew]
    · rw [if_neg fun h => hpt h.1, hbefore]
      simp [Ne.symm hpt]
  case target_lt =>
    intro e he
    rw [size]
    rw [hedges] at he
    rcases List.mem_append.1 he with he | he
    · exact h.target_lt e he
    · rw [List.mem_singleton.1 he]; exact ht
  case unmarked =>
    intro s hs
    rw [hshifts] at hs
    rcases List.mem_append.1 hs with hs | hs
    · exact h.unmarked s hs
    · rw [List.mem_singleton.1 hs]

/-- What is found stays so with one more transition. -/
theorem Found.next (h : Found rows q x) (hnew : ∀ p, q ∉ (rows.getD p default).predecessors)
    (hX : X ∉ x.shifts.map Shift.symbol) : Found rows q (x.next q (X, nextItems)) := by
  have hedges := edges_next q nextItems hX
  have hrows := rows_next x q X nextItems
  obtain ⟨t, ht, hfind, -⟩ | ⟨hfind, -⟩ := findOrAdd_cases x.rows X nextItems <;>
    rw [hfind] at hedges hrows
  · exact h.note hnew ht hrows (shifts_next ..) hedges
  · exact (h.push X nextItems).note hnew (by simp) hrows (shifts_next ..) hedges

theorem Found.foldl (hnew : ∀ p, q ∉ (rows.getD p default).predecessors) (items : List Item) :
    ∀ (Xs : List SymbolId) (x : Expansion), Found rows q x →
      (x.shifts.map Shift.symbol ++ Xs).Nodup →
        Found rows q ((Xs.map fun X => (X, ItemSet.advanceOver g items X)).foldl
          (Expansion.next q) x)
  | [], _, h, _ => h
  | X :: Xs, x, h, hnodup => by
    have hX : X ∉ x.shifts.map Shift.symbol := fun hmem =>
      (List.nodup_append.1 hnodup).2.2 X hmem X (List.mem_cons_self ..) rfl
    rw [List.map_cons, List.foldl_cons]
    exact Found.foldl hnew items Xs _ (h.next hnew hX) (by
      rw [shifts_next, List.map_append, List.append_assoc]; exact hnodup)

end Expansion

/-! ## Completing a row -/

/-- The items of a row when it is complete. -/
def itemsOf (g : Grammar) (rows : Array Row) (q : StateId) : List Item :=
  (rows.getD q default).kernel ++ ItemSet.closure g (rows.getD q default).kernel

/-- The transitions of a row that is completed. -/
def transitionsOf (g : Grammar) (rows : Array Row) (q : StateId) : Expansion :=
  let items := itemsOf g rows q
  ((ItemSet.nextSymbols g items).map fun X => (X, ItemSet.advanceOver g items X)).foldl
    (Expansion.next q) ⟨rows, [], ∅⟩

/-- The rows when one of them is completed. -/
def expanded (g : Grammar) (rows : Array Row) (q : StateId) : Array Row :=
  let x := transitionsOf g rows q
  x.rows.modify q fun r =>
    { r with
      closure := ItemSet.closure g (rows.getD q default).kernel
      shifts := x.shifts
      transitions := x.transitions
      reductions := ((itemsOf g rows q).filter fun i => (i.next? g).isNone).map Reduction.fresh }

/-- A row with its closure, its transitions and its reductions. -/
def completed (g : Grammar) (q : StateId) (accessing : Option SymbolId) (kernel : List Item)
    (x : Expansion) (predecessors : List StateId) : Row :=
  { Row.fresh q accessing kernel with
    closure := ItemSet.closure g kernel
    shifts := x.shifts
    transitions := x.transitions
    reductions := ((kernel ++ ItemSet.closure g kernel).filter fun i => (i.next? g).isNone).map
      Reduction.fresh
    predecessors }

section Completed
variable {accessing : Option SymbolId} {x : Expansion} {predecessors : List StateId}

theorem edges_completed :
    (completed g q accessing kernel x predecessors).edges = x.edges := rfl

theorem fits_completed (h : x.Paired) : (completed g q accessing kernel x predecessors).Fits g q :=
  ⟨rfl, h, (List.map_map ..).trans (List.map_id _)⟩

theorem blank_completed (h : ∀ s ∈ x.shifts, s.deselected = false) :
    (completed g q accessing kernel x predecessors).Blank g :=
  ⟨h, rfl, rfl, rfl, rfl⟩

end Completed

theorem nodup_nextSymbols (g : Grammar) (items : List Item) : (ItemSet.nextSymbols g items).Nodup :=
  (NatSet.pairwise_toList _).imp Nat.ne_of_lt

/-- Completing a row completes the state. -/
theorem bare_expanded (hq : q < rows.size) :
    bare (expanded g rows q) = Lr0.expand g (bare rows) q := by
  have hkernel : (Graph.core ⟨bare rows⟩ q).kernel = (rows.getD q default).kernel := by
    rw [core_bare hq]; rfl
  obtain ⟨hsame, -⟩ := Expansion.bare_foldl (g := g) (q := q) (itemsOf g rows q)
    (ItemSet.nextSymbols g (itemsOf g rows q)) ⟨rows, [], ∅⟩ rfl (nodup_nextSymbols g _)
  have hmodify := map_modify (f := fun r : Row => { r.core with predecessors := [] })
    (u := fun r => { r with
      closure := ItemSet.closure g (rows.getD q default).kernel
      shifts := (transitionsOf g rows q).shifts
      transitions := (transitionsOf g rows q).transitions
      reductions := ((itemsOf g rows q).filter fun i => (i.next? g).isNone).map Reduction.fresh })
    (v := fun c => { c with
      closure := ItemSet.closure g (rows.getD q default).kernel
      edges := (transitionsOf g rows q).edges }) (fun _ => rfl) (transitionsOf g rows q).rows q
  rw [Lr0.expand_eq, hkernel]
  refine hmodify.trans ?_
  exact congrArg (fun r : Array Core × List Edge => r.1.modify q fun c =>
    { c with closure := ItemSet.closure g (rows.getD q default).kernel, edges := r.2 }) hsame

/-! ## Rows that are completed one by one -/

/-- The rows when those before `n` are complete. -/
structure Stage (g : Grammar) (rows : Array Row) (n : StateId) : Prop where
  growing : Lr0.Growing g ⟨bare rows⟩ n
  fits : ∀ {q}, q < rows.size → q < n → (rows.getD q default).Fits g q
  blank : ∀ {q}, q < rows.size → q < n → (rows.getD q default).Blank g
  waiting : ∀ {q}, q < rows.size → n ≤ q → Waiting q (rows.getD q default)
  noted : Noted rows n

/-- Nothing leads to rows that there are not yet. -/
theorem Stage.predecessors_eq {n : StateId} (h : Stage g rows n) (hn : n ≤ rows.size) (p : StateId) :
    (rows.getD p default).predecessors = (List.range n).filter fun m => leadsTo rows m p := by
  rcases Nat.lt_or_ge p rows.size with hp | hp
  · exact h.noted p hp
  · rw [predecessors_of_size_le hp, eq_comm, List.filter_eq_nil_iff]
    intro m hm hleads
    have hmn := List.mem_range.1 hm
    have hlt : m < rows.size := Nat.lt_of_lt_of_le hmn hn
    obtain ⟨e, he, htarget⟩ := List.any_eq_true.1 hleads
    have hcomplete := h.growing.complete (by simpa [Graph.size] using hlt) hmn
    have := hcomplete.target_lt e (by rw [core_bare hlt]; exact he)
    rw [of_decide_eq_true htarget] at this
    exact Nat.not_lt_of_ge hp (by simpa [Graph.size] using this)

section Expanded
variable (h : Stage g rows q) (hq : q < rows.size)
include h hq

theorem Stage.found : Expansion.Found rows q (transitionsOf g rows q) := by
  refine Expansion.Found.foldl (fun p hmem => ?_) _ _ _ (Expansion.found_start rows q)
    (nodup_nextSymbols g _)
  rw [h.predecessors_eq (Nat.le_of_lt hq), List.mem_filter, List.mem_range] at hmem
  exact Nat.lt_irrefl q hmem.1

/-- The other rows only get predecessors. -/
theorem Stage.row_expanded_of_ne (hp : p < rows.size) (hpq : p ≠ q) :
    ∃ predecessors, (expanded g rows q).getD p default = { rows.getD p default with predecessors } := by
  rw [expanded, getD_modify, if_neg fun h => hpq h.1]
  exact ⟨_, (h.found hq).kept hp⟩

/-- The row itself gets its closure, its transitions and its reductions. -/
theorem Stage.row_expanded : ∃ predecessors, (expanded g rows q).getD q default =
    completed g q (rows.getD q default).accessing (rows.getD q default).kernel
      (transitionsOf g rows q) predecessors := by
  have found := h.found hq
  have hlt : q < (transitionsOf g rows q).rows.size := Nat.lt_of_lt_of_le hq found.size_le
  rw [expanded, getD_modify, if_pos ⟨rfl, hlt⟩, found.kept hq, h.waiting hq (Nat.le_refl _)]
  exact ⟨_, rfl⟩

theorem Stage.edges_expanded (hp : p < rows.size) : ((expanded g rows q).getD p default).edges =
    if p = q then (transitionsOf g rows q).edges else (rows.getD p default).edges := by
  by_cases hpq : p = q
  · subst hpq
    obtain ⟨predecessors, hrow⟩ := h.row_expanded hq
    rw [if_pos rfl, hrow, edges_completed]
  · obtain ⟨predecessors, hrow⟩ := h.row_expanded_of_ne hq hp hpq
    rw [if_neg hpq, hrow, Row.edges_withPredecessors]

theorem Stage.noted_expanded : Noted (expanded g rows q) (q + 1) := by
  intro p hp
  have found := h.found hq
  have hleads : ∀ m ∈ List.range q, leadsTo (expanded g rows q) m p = leadsTo rows m p := by
    intro m hm
    have hmq := List.mem_range.1 hm
    rw [leadsTo, h.edges_expanded hq (Nat.lt_trans hmq hq), if_neg (Nat.ne_of_lt hmq), leadsTo]
  have hlast : leadsTo (expanded g rows q) q p =
      (transitionsOf g rows q).edges.any fun e => e.target = p := by
    rw [leadsTo, h.edges_expanded hq hq, if_pos rfl]
  have hp : p < (transitionsOf g rows q).rows.size := by
    rwa [expanded, Array.size_modify] at hp
  have hsame : ((expanded g rows q).getD p default).predecessors =
      ((transitionsOf g rows q).rows.getD p default).predecessors := by
    rw [expanded, getD_modify]; split <;> rfl
  rw [hsame, found.predecessors hp, h.predecessors_eq (Nat.le_of_lt hq), List.range_succ,
    List.filter_append, List.filter_congr hleads, List.filter_singleton, hlast]
  cases (transitionsOf g rows q).edges.any fun e => e.target = p <;> rfl

/-- **Completing the next row leaves the next stage.** -/
theorem Stage.expanded : Stage g (expanded g rows q) (q + 1) := by
  have found := h.found hq
  have hsize : (Table.expanded g rows q).size = (transitionsOf g rows q).rows.size := Array.size_modify
  obtain ⟨predecessors, hrow⟩ := h.row_expanded hq
  constructor
  case growing =>
    rw [bare_expanded hq]
    exact (h.growing.expand (by rwa [size_bare])).1
  case fits =>
    intro p hp hpq
    rcases Nat.lt_succ_iff_lt_or_eq.1 hpq with hlt | rfl
    · have hp' := Nat.lt_trans hlt hq
      obtain ⟨_, hrow⟩ := h.row_expanded_of_ne hq hp' (Nat.ne_of_lt hlt)
      rw [hrow]; exact (h.fits hp' hlt).withPredecessors _
    · rw [hrow]
      exact fits_completed (Expansion.bare_foldl (g := g) (itemsOf g rows p) _ ⟨rows, [], ∅⟩ rfl
        (nodup_nextSymbols g _)).2
  case blank =>
    intro p hp hpq
    rcases Nat.lt_succ_iff_lt_or_eq.1 hpq with hlt | rfl
    · have hp' := Nat.lt_trans hlt hq
      obtain ⟨_, hrow⟩ := h.row_expanded_of_ne hq hp' (Nat.ne_of_lt hlt)
      rw [hrow]; exact (h.blank hp' hlt).withPredecessors _
    · rw [hrow]; exact blank_completed found.unmarked
  case waiting =>
    intro p hp hpq
    have hne : p ≠ q := Nat.ne_of_gt hpq
    rcases Nat.lt_or_ge p rows.size with hp' | hp'
    · obtain ⟨_, hrow⟩ := h.row_expanded_of_ne hq hp' hne
      rw [hrow, h.waiting hp' (Nat.le_of_lt hpq)]
      rfl
    · rw [Table.expanded, getD_modify, if_neg fun h => hne h.1]
      exact found.waiting hp' (hsize ▸ hp)
  case noted => exact h.noted_expanded hq

end Expanded

/-! ## Positions -/

/-- The dot would be moved beyond the last position, in a rule that is so long. -/
def Overlong (g : Grammar) (e : Panic) : Prop :=
  ∃ r n, r < g.rules.size ∧ n < (g.rhs r).length ∧ Checked.positionLimit ≤ n + 1 ∧
    e = .positionOverflow n

theorem advance_cases {i : Item} (hi : i.InRange g) (hX : i.next? g = some X) :
    Checked.advance i = .ok i.advance ∨ ∃ e, Checked.advance i = .error e ∧ Overlong g e := by
  rw [Checked.advance]
  split
  · exact .inl rfl
  · rename_i hlimit
    obtain ⟨hlt, -⟩ := List.getElem?_eq_some_iff.1 hX
    exact .inr ⟨_, rfl, _, _, hi.1, hlt, Nat.le_of_not_lt hlimit, rfl⟩

theorem successors_cases {items : List Item} (hitems : ∀ i ∈ items, i.InRange g) :
    successors g items = .ok ((ItemSet.nextSymbols g items).map fun X =>
      (X, ItemSet.advanceOver g items X)) ∨ ∃ e, successors g items = .error e ∧ Overlong g e := by
  refine Checked.mapM_eq_ok_or fun X _ => ?_
  obtain hnext | ⟨e, hnext, he⟩ := Checked.mapM_eq_ok_or (P := Overlong g) (f := Checked.advance)
    (g := Item.advance) (l := items.filter fun i => i.next? g = some X) fun i hi => by
      obtain ⟨hi, hX⟩ := List.mem_filter.1 hi
      exact advance_cases (hitems i hi) (of_decide_eq_true hX)
  · rw [hnext]; exact .inl rfl
  · rw [hnext]; exact .inr ⟨e, rfl, he⟩

/-- A row is completed, or its construction stops. -/
theorem Stage.expand_cases (h : Stage g rows q) (wf : g.WellFormed) (hq : q < rows.size) :
    expand g rows q = .ok (Table.expanded g rows q) ∨
      ∃ e, expand g rows q = .error e ∧ Overlong g e := by
  have hitems : ∀ i ∈ itemsOf g rows q, i.InRange g := by
    intro i hi
    rcases List.mem_append.1 hi with hi | hi
    · refine h.growing.inRange (q := q) (by simpa [Graph.size] using hq) i ?_
      rwa [core_bare hq]
    · obtain ⟨r, hr, -, rfl⟩ := Grammar.mem_closure.1 hi
      exact ⟨hr, Nat.zero_le _⟩
  rw [expand, closure_eq wf]
  obtain hnext | ⟨e, hnext, he⟩ := successors_cases hitems
  · refine .inl ?_
    rw [itemsOf] at hnext
    simp only [hnext]
    rfl
  · refine .inr ⟨e, ?_, he⟩
    rw [itemsOf] at hnext
    simp only [hnext]
    rfl

/-! ## All rows -/

theorem bare_start : bare #[Row.fresh StateId.start none [Item.start]] =
    #[Lr0.fresh StateId.start none [Item.start]] := by
  rw [bare, Array.map_singleton]; rfl

theorem stage_start (wf : g.WellFormed) :
    Stage g #[Row.fresh StateId.start none [Item.start]] StateId.start where
  growing := by rw [bare_start]; exact Lr0.growing_start wf
  fits _ h := absurd h (Nat.not_lt_zero _)
  blank _ h := absurd h (Nat.not_lt_zero _)
  waiting {q} hq _ := by
    obtain rfl : q = StateId.start := Nat.lt_one_iff.1 hq
    rfl
  noted q hq := by
    obtain rfl : q = StateId.start := Nat.lt_one_iff.1 hq
    rfl

/-- If there are rounds for all sets of items, the rows end up complete, or the
    construction stops. -/
theorem Stage.expandFrom_cases (wf : g.WellFormed) : ∀ (rounds : Nat) {rows : Array Row} {q : StateId},
    Stage g rows q → q ≤ rows.size → subsetCount (Lr0.itemCount g) ≤ rounds + q →
      (∃ rows', expandFrom g rounds rows q = .ok rows' ∧ Stage g rows' rows'.size ∧
        bare rows' = Lr0.expandFrom g rounds (bare rows) q) ∨
      ∃ e, expandFrom g rounds rows q = .error e ∧ Overlong g e
  | 0, rows, q, h, hq, hrounds => by
    have hsize := h.growing.size_le
    rw [size_bare] at hsize
    have : q = rows.size := Nat.le_antisymm hq (Nat.le_trans hsize (by simpa using hrounds))
    exact .inl ⟨rows, rfl, this ▸ h, rfl⟩
  | rounds + 1, rows, q, h, hq, hrounds => by
    rw [expandFrom, Lr0.expandFrom, size_bare]
    by_cases hlt : q < rows.size
    · rw [if_pos hlt, if_pos hlt]
      obtain hexpand | ⟨e, hexpand, he⟩ := h.expand_cases wf hlt <;> rw [hexpand]
      · have hstage := h.expanded hlt
        have hle : q + 1 ≤ (Table.expanded g rows q).size := by
          rw [Table.expanded, Array.size_modify]
          exact Nat.lt_of_lt_of_le hlt (h.found hlt).size_le
        rw [← bare_expanded hlt]
        exact Stage.expandFrom_cases wf rounds hstage hle (by rwa [← Nat.add_assoc, Nat.add_right_comm])
      · exact .inr ⟨e, rfl, he⟩
    · rw [if_neg hlt, if_neg hlt]
      rw [Nat.le_antisymm hq (Nat.le_of_not_lt hlt)] at h
      exact .inl ⟨rows, rfl, h, rfl⟩

/-- The rows of the LR(0) automaton are found, or the construction stops. -/
theorem lr0_cases (wf : g.WellFormed) :
    (∃ rows, lr0 g = .ok rows ∧ graphOf rows = Lr0.graph g ∧ Fits g rows ∧ Blank g rows) ∨
      ∃ e, lr0 g = .error e ∧ Overlong g e := by
  obtain ⟨rows, hrows, hstage, hbare⟩ | hstops := (stage_start wf).expandFrom_cases wf
    (subsetCount (Lr0.itemCount g)) (Nat.zero_le _) (Nat.le_refl _)
  · refine .inl ⟨rows, hrows, ?_, fun q hq => hstage.fits hq hq, fun q hq => hstage.blank hq hq⟩
    rw [← link_graphOf hstage.noted, ← link_bare, hbare, bare_start]
    rfl
  · exact .inr hstops

end LRAutomata.Table
