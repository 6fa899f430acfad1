/-
  Tables after a sequence of calls.

  A table is computed anew or split, in any order and any number of times.  Every
  call leaves the table of the automaton that the call builds
  (`Table.run_cases`), so

  * its rows fit together: numbers, transitions, predecessors and isocores
    (`Table.coherent_run`);
  * what is recorded in them is what the lookaheads of the present rows call for,
    and nothing is left of earlier calls (`Table.recorded_run`).
-/
import LRAutomata.Proofs.Table.Lr0
import LRAutomata.Proofs.Table.Splitting

namespace LRAutomata.Table

variable {g : Grammar} {t t' : Table} {rows : Array Row} {q : StateId}

/-! ## Calls -/

/-- The table after one more call. -/
def call (g : Grammar) (t : Table) : Call → Checked Table
  | .lalr => compute g
  | .split => pure (split g t)

/-- The table after a sequence of calls. -/
def run (g : Grammar) (calls : List Call) : Checked Table :=
  calls.foldlM (call g) empty

/-- The table has all rows of a complete graph, and they are filled. -/
structure Built (g : Grammar) (t : Table) : Prop where
  fits : Fits g t.rows
  complete : Automaton.Complete g (graphOf t.rows)
  automaton_eq : t.automaton = Automaton.ofGraph g (graphOf t.rows)

/-- Filling blank rows. -/
theorem built_fill (wf : g.WellFormed) (h : Fits g rows) (hblank : Blank g rows)
    (complete : Automaton.Complete g (graphOf rows)) : Built g (fill g rows) where
  fits := h.fill hblank
  complete := by rwa [graphOf_fill]
  automaton_eq := by
    rw [graphOf_fill, automaton_fill h hblank complete.toOfItems wf complete.reachable]

/-- Computing a table anew. -/
theorem compute_cases (wf : g.WellFormed) :
    (∃ t, compute g = .ok t ∧ Built g t ∧ t.automaton = Automaton.lalr g) ∨
      ∃ e, compute g = .error e ∧ Overlong g e := by
  obtain ⟨rows, hrows, hgraph, hfits, hblank⟩ | ⟨e, he, hlong⟩ := lr0_cases wf
  · have complete : Automaton.Complete g (graphOf rows) := by
      rw [hgraph]; exact Automaton.complete_lr0 wf
    refine .inl ⟨fill g rows, by rw [compute, hrows]; rfl, built_fill wf hfits hblank complete, ?_⟩
    rw [automaton_fill hfits hblank complete.toOfItems wf complete.reachable, hgraph]
    rfl
  · exact .inr ⟨e, by rw [compute, he]; rfl, hlong⟩

/-- The rows walked are those of the walk on the automaton. -/
theorem graphOf_walk (h : Fits g t.rows) (sp : Splitting) (hsp : sp.automaton = t.automaton) :
    let w := Walk.run g sp (sp.bound g) (Walk.start t)
    graphOf w.rows = sp.graph g ∧ Fits g w.rows := by
  obtain ⟨hplain, hfits⟩ := Walk.run_plain sp (sp.bound g) (w := Walk.start t) h
  refine ⟨?_, hfits⟩
  rw [Walk.plain_start, ← hsp] at hplain
  exact congrArg (fun w : Splitting.Walk => Graph.mk w.cores) hplain

/-- Dropping rows, clearing those that remain and filling them again. -/
theorem built_refill (wf : g.WellFormed) (h : Fits g rows) (walk : (graphOf rows).Represented g) :
    Built g (fill g ((prune rows).map Row.clear)) ∧
      (fill g ((prune rows).map Row.clear)).automaton =
        Automaton.ofGraph g (graphOf rows).prune := by
  have items := walk.toOfItems
  have hgraph : graphOf ((prune rows).map Row.clear) = (graphOf rows).prune := by
    rw [graphOf_map Row.core_clear, graphOf_prune h items]
  have complete : Automaton.Complete g (graphOf ((prune rows).map Row.clear)) := by
    rw [hgraph]
    exact ⟨walk.prune, Graph.reachable_prune items, _, Graph.prune_eq _⟩
  have hpruned := fits_prune h items
  refine ⟨built_fill wf hpruned.clear hpruned.blank_clear complete, ?_⟩
  rw [automaton_fill hpruned.clear hpruned.blank_clear complete.toOfItems wf complete.reachable, hgraph]

/-- Splitting the rows of a table. -/
theorem Built.split (h : Built g t) (wf : g.WellFormed) :
    Built g (split g t) ∧ (Table.split g t).automaton = Automaton.split g t.automaton := by
  rw [Table.split, Automaton.split, Automaton.splitGraph?]
  by_cases hneeded : (Splitting.prepare g t.automaton).isNeeded = true
  · rw [if_pos hneeded, if_pos hneeded]
    obtain ⟨hgraph, hfits⟩ := graphOf_walk h.fits (Splitting.prepare g t.automaton) rfl
    have walk := Splitting.represented_graph h.complete.toRepresented
    rw [← h.automaton_eq, ← hgraph] at walk
    rw [← hgraph]
    exact built_refill wf hfits walk
  · rw [if_neg hneeded, if_neg hneeded]
    exact ⟨h, rfl⟩

/-- The table without rows, or one of a complete graph. -/
def Ready (g : Grammar) (t : Table) : Prop :=
  t = empty ∨ Built g t

theorem automaton_empty : empty.automaton = Automaton.empty := by
  simp [automaton, empty, Automaton.empty]

theorem split_empty (g : Grammar) : split g empty = empty := by
  rw [split, automaton_empty, Automaton.isNeeded_empty]; rfl

/-- A call leaves the table of the automaton that it builds, or stops. -/
theorem call_cases (wf : g.WellFormed) (h : Ready g t) (c : Call) :
    (∃ t', call g t c = .ok t' ∧ Ready g t' ∧ t'.automaton = Automaton.call g t.automaton c) ∨
      ∃ e, call g t c = .error e ∧ Overlong g e := by
  cases c with
  | lalr =>
    obtain ⟨t', ht', hbuilt, hautomaton⟩ | hstops := compute_cases wf
    · exact .inl ⟨t', ht', .inr hbuilt, hautomaton⟩
    · exact .inr hstops
  | split =>
    refine .inl ⟨_, rfl, ?_⟩
    obtain rfl | hbuilt := h
    · rw [split_empty, automaton_empty, Automaton.call, Automaton.split_empty]
      exact ⟨.inl rfl, rfl⟩
    · exact ⟨.inr (hbuilt.split wf).1, (hbuilt.split wf).2⟩

theorem foldlM_call_cases (wf : g.WellFormed) : ∀ (calls : List Call) {t : Table}, Ready g t →
    (∃ t', calls.foldlM (call g) t = .ok t' ∧ Ready g t' ∧
      t'.automaton = calls.foldl (Automaton.call g) t.automaton) ∨
      ∃ e, calls.foldlM (call g) t = .error e ∧ Overlong g e
  | [], t, h => .inl ⟨t, rfl, h, rfl⟩
  | c :: calls, t, h => by
    rw [List.foldlM_cons, List.foldl_cons]
    obtain ⟨t', ht', hready, hautomaton⟩ | ⟨e, he, hlong⟩ := call_cases wf h c
    · rw [ht', ← hautomaton]; exact foldlM_call_cases wf calls hready
    · rw [he]; exact .inr ⟨e, rfl, hlong⟩

/-- **The calls on rows build the automata that they stand for**, unless a rule is
    too long for its positions. -/
theorem run_cases (wf : g.WellFormed) (calls : List Call) :
    (∃ t, run g calls = .ok t ∧ Ready g t ∧ t.automaton = Automaton.after g calls) ∨
      ∃ e, run g calls = .error e ∧ Overlong g e := by
  have := foldlM_call_cases wf calls (t := empty) (.inl rfl)
  rwa [automaton_empty] at this

/-- The calls do not stop if no rule is too long. -/
theorem exists_run (wf : g.WellFormed) (narrow : g.Narrow) (calls : List Call) :
    ∃ t, run g calls = .ok t := by
  obtain ⟨t, ht, -⟩ | ⟨_, -, r, n, hr, hn, hlimit, -⟩ := run_cases wf calls
  · exact ⟨t, ht⟩
  · have := narrow r hr
    omega

theorem ready_of_run (wf : g.WellFormed) {calls : List Call} (h : run g calls = .ok t) : Ready g t := by
  obtain ⟨t', ht', hready, -⟩ | ⟨e, he, -⟩ := run_cases wf calls
  · rw [h] at ht'; cases ht'; exact hready
  · rw [h] at he; cases he

theorem state_automaton (hq : q < t.rows.size) : t.automaton.state q = (t.row q).state := by
  simp [Automaton.state, automaton, row, Array.getD, hq]

/-! ## Coherence -/

/-- The numbers, transitions, predecessors and isocores of the rows fit together. -/
structure Coherent (g : Grammar) (t : Table) : Prop where
  /-- The rows are numbered by their places. -/
  numbered : ∀ q, q < t.rows.size → (t.row q).id = q
  reached : ∀ q, q < t.rows.size → ∃ γ, transition? t.rows StateId.start γ = some q
  /-- There is a shift on the symbols after the dots, in ascending order, -/
  symbols : ∀ q, q < t.rows.size → ((t.row q).shifts.map Shift.symbol).Pairwise (· < ·) ∧
    ∀ X, X ∈ (t.row q).shifts.map Shift.symbol ↔
      ∃ i ∈ (t.row q).kernel ++ (t.row q).closure, i.next? g = some X
  /-- and a transition for every shift, in the same order. -/
  keys : ∀ q, q < t.rows.size → (t.row q).transitions.keys = (t.row q).shifts.map Shift.symbol
  /-- A transition leads to the kernel that the shift lists, by the symbol that is read. -/
  target : ∀ q, q < t.rows.size → ∀ s ∈ (t.row q).shifts,
    ∃ r, (t.row q).transitions.get? s.symbol = some r ∧ r < t.rows.size ∧
      (t.row r).kernel = s.nextItems ∧ (t.row r).accessing = some s.symbol
  predecessors : ∀ q, q < t.rows.size → (t.row q).predecessors.Pairwise (· < ·) ∧
    ∀ p, p ∈ (t.row q).predecessors ↔
      p < t.rows.size ∧ ∃ X, (t.row p).transitions.get? X = some q
  isocore : ∀ q, q < t.rows.size → (t.row q).isocore < t.rows.size ∧
    (t.row (t.row q).isocore).kernel = (t.row q).kernel ∧
    (t.row (t.row q).isocore).isocore = (t.row q).isocore
  /-- No two reductions of a row are by the same rule. -/
  rules : ∀ q, q < t.rows.size → ((t.row q).reductions.map Reduction.rule).Nodup

theorem Built.coherent (h : Built g t) (wf : g.WellFormed) : Coherent g t := by
  have fits := h.fits
  have items := h.complete.toOfItems
  have size := size_graphOf t.rows
  have core : ∀ q, (graphOf t.rows).core q = (t.row q).core := core_graphOf t.rows
  constructor
  case numbered => exact fun q hq => (fits q hq).id_eq
  case keys => exact fun q hq => (fits q hq).paired
  all_goals
    intro q hq
    have hq' : q < (graphOf t.rows).size := size ▸ hq
  case reached =>
    obtain ⟨γ, hγ⟩ := h.complete.reachable q hq'
    have hstart : StateId.start < t.rows.size := size ▸ items.start_lt
    exact ⟨γ, (fits.transition?_eq_some_iff items hstart).2 hγ⟩
  case symbols =>
    have hsymbols := items.symbols_eq hq'
    rw [core, show (t.row q).core.edges = (t.row q).edges from rfl, Row.symbols_edges] at hsymbols
    rw [hsymbols]
    exact ⟨NatSet.pairwise_toList _, fun X => ItemSet.mem_nextSymbols⟩
  case target =>
    intro s hs
    have he := List.mem_map_of_mem (f := fun s : Shift => (⟨s.symbol,
      (t.row q).transitions.getD s.symbol StateId.start, s.nextItems⟩ : Edge)) hs
    change _ ∈ (t.row q).core.edges at he
    rw [← core] at he
    refine ⟨_, ?_, size ▸ items.target_lt hq' _ he, ?_, ?_⟩
    · rw [← items.next?_edge hq' he]
      exact (fits.next?_graphOf hq s.symbol).symm
    · have := h.complete.nextItems_eq hq' _ he
      rw [core] at this
      exact this.symm
    · have := h.complete.accessing_target hq' _ he
      rw [core] at this
      exact this
  case predecessors =>
    obtain ⟨b, hb⟩ := h.complete.linked
    have hlinked : (graphOf t.rows).Linked := hb ▸ b.linked_link
    have hlist : (t.row q).predecessors = b.predecessorsOf q := by
      rw [← show ((t.row q).core).predecessors = (t.row q).predecessors from rfl, ← core, hb,
        Graph.core_link b (by rwa [← Graph.size_link, ← hb])]
    refine ⟨hlist ▸ Graph.pairwise_predecessorsOf b q, fun p => ?_⟩
    have hmem := hlinked (p := p) hq'
    rw [core, size] at hmem
    refine hmem.trans (and_congr_right fun hp => ?_)
    have hp' : p < (graphOf t.rows).size := size ▸ hp
    constructor
    · rintro ⟨e, he, rfl⟩
      exact ⟨e.symbol, (fits.next?_graphOf hp _).symm.trans (items.next?_edge hp' he)⟩
    · rintro ⟨X, hX⟩
      rw [row, ← fits.next?_graphOf hp] at hX
      obtain ⟨e, he, -, htarget⟩ := (items.next?_eq_some_iff hp').1 hX
      exact ⟨e, he, htarget⟩
  case isocore =>
    have hlt := h.complete.isocore_lt hq'
    have hkernel := h.complete.kernel_isocore hq'
    have hisocore := h.complete.isocore_isocore hq'
    simp only [core, size] at hlt hkernel hisocore
    exact ⟨hlt, hkernel, hisocore⟩
  case rules =>
    have := items.nodup_completeRules wf h.complete.reachable hq'
    rw [core, row, ← (fits q hq).items_eq, List.map_map] at this
    exact this

theorem coherent_empty (g : Grammar) : Coherent g empty := by
  constructor <;> exact fun q hq => absurd hq (Nat.not_lt_zero q)

/-- **Coherence.**  Every sequence of calls leaves a table unless a rule is too long
    for its positions.  Its rows are numbered by their places and reached from the
    first one; their shifts and their transitions are on the symbols after their
    dots, and lead to the kernels that the shifts list; predecessors are the rows
    with a transition, in ascending order; every row is represented by one with the
    same kernel, which represents itself; and no row has two reductions by the same
    rule. -/
theorem coherent_run {decls : List Declaration} {g : Grammar} (h : Grammar.define decls = .ok g)
    (calls : List Call) :
    (g.Narrow → ∃ t, run g calls = .ok t) ∧ ∀ t, run g calls = .ok t → Coherent g t := by
  have wf := Grammar.wellFormed_of_define h
  refine ⟨fun narrow => exists_run wf narrow calls, fun t ht => ?_⟩
  obtain rfl | hbuilt := ready_of_run wf ht
  · exact coherent_empty g
  · exact hbuilt.coherent wf

/-- The theorem speaks of a table of which a row is split, also when it is split
    again. -/
theorem coherent_run_split : ∃ g t, Grammar.define Grammar.crossing = .ok g ∧
    run g [.lalr, .split, .split] = .ok t ∧
    (∃ q, q < t.rows.size ∧ (t.row q).isocore ≠ q) ∧ Coherent g t := by
  obtain ⟨g, hg, hcheck⟩ := Grammar.exists_define Grammar.crossing
    (fun g => (run g [.lalr, .split, .split]).toOption.any fun t : Table =>
      decide (∃ q, q < t.rows.size ∧ (t.row q).isocore ≠ q))
    (by decide +kernel)
  cases ht : run g [.lalr, .split, .split] with
  | error e => rw [ht] at hcheck; cases hcheck
  | ok t =>
    rw [ht] at hcheck
    exact ⟨g, t, hg, ht, of_decide_eq_true hcheck, (coherent_run hg _).2 t ht⟩

/-! ## Records -/

/-- What is recorded in the rows is what their items and their lookaheads call for. -/
structure Recorded (g : Grammar) (t : Table) : Prop where
  /-- The relations are those of the present rows, -/
  lookaheads_eq : 0 < t.rows.size → t.lookaheads = Lookaheads.compute g (graphOf t.rows)
  /-- and the reductions have the lookaheads found there, if they need any. -/
  lookahead : ∀ q, q < t.rows.size → ∀ red ∈ (t.row q).reductions, red.lookahead =
    if State.needsLookahead g (t.row q).core then t.lookaheads.la.get? ⟨q, red.rule⟩ else none
  /-- The records, the marks and the default reduction are those called for, -/
  records : ∀ q, q < t.rows.size → (t.row q).state.Recorded g
  /-- and every shift is marked if it loses. -/
  shifts : ∀ q, q < t.rows.size → ∀ s ∈ (t.row q).shifts, s.deselected = true ↔
    ∃ c ∈ (t.row q).resolved, c.symbol = s.symbol ∧ (c.resolution = .reduce ∨ c.resolution = .error)

/-- A symbol is among those of the marked shifts if its shift is marked. -/
theorem mem_deselectedShifts {r : Row} (h : r.Paired) {s : Shift} (hs : s ∈ r.shifts) :
    s.symbol ∈ r.deselectedShifts ↔ s.deselected = true := by
  rw [Row.deselectedShifts, NatSet.mem_ofList, List.mem_map]
  constructor
  · rintro ⟨s', hs', hsymbol⟩
    obtain ⟨hs', hdeselected⟩ := List.mem_filter.1 hs'
    rwa [← List.inj_on_of_nodup_map h.nodup hs' hs hsymbol]
  · exact fun hdeselected => ⟨s, List.mem_filter.2 ⟨hs, hdeselected⟩, rfl⟩

theorem Built.recorded (h : Built g t) (wf : g.WellFormed) : Recorded g t := by
  have lookaheads : t.lookaheads = Lookaheads.compute g (graphOf t.rows) :=
    congrArg Automaton.lookaheads h.automaton_eq
  have state : ∀ {q}, q < t.rows.size →
      (t.row q).state = (Automaton.ofGraph g (graphOf t.rows)).state q := fun hq => by
    rw [← h.automaton_eq, state_automaton hq]
  have records : ∀ q, q < t.rows.size → (t.row q).state.Recorded g := fun q hq => by
    rw [state hq]
    exact (Automaton.Built.ofGraph h.complete).recorded wf
      (by rwa [Automaton.size_ofGraph, size_graphOf])
  refine ⟨fun _ => lookaheads, fun q hq red hred => ?_, records, fun q hq s hs => ?_⟩
  · have hred : red ∈ (t.row q).state.reductions := hred
    rw [state hq, Automaton.state_ofGraph g _ (by rwa [size_graphOf]), ← lookaheads,
      core_graphOf] at hred
    obtain ⟨red', hred', rfl⟩ := List.mem_map.1 hred
    obtain ⟨i, -, rfl⟩ := List.mem_map.1 hred'
    rfl
  · have hmark := (records q hq).deselected_shift (t := s.symbol)
    have hmem : (t.row q).state.isSelected s.symbol = false ↔ s.deselected = true := by
      rw [← mem_deselectedShifts (h.fits q hq).paired hs]
      show decide (s.symbol ∉ (t.row q).deselectedShifts) = false ↔ _
      rw [decide_eq_false_iff_not, not_not]
      exact Iff.rfl
    exact hmem.symm.trans hmark

theorem recorded_empty (g : Grammar) : Recorded g empty := by
  refine ⟨fun h => absurd h (Nat.lt_irrefl 0), ?_, ?_, ?_⟩ <;>
    exact fun q hq => absurd hq (Nat.not_lt_zero q)

/-- **Records.**  Every sequence of calls leaves a table unless a rule is too long for
    its positions.  Every row keeps the records that its shifts and its reductions
    call for, with the lookaheads of the present rows, and no others; the actions
    that lose are marked, and there is a default reduction where there should be
    one. -/
theorem recorded_run {decls : List Declaration} {g : Grammar} (h : Grammar.define decls = .ok g)
    (calls : List Call) :
    (g.Narrow → ∃ t, run g calls = .ok t) ∧ ∀ t, run g calls = .ok t → Recorded g t := by
  have wf := Grammar.wellFormed_of_define h
  refine ⟨fun narrow => exists_run wf narrow calls, fun t ht => ?_⟩
  obtain rfl | hbuilt := ready_of_run wf ht
  · exact recorded_empty g
  · exact hbuilt.recorded wf

/-- In addition tests, which are not associated, or only by precedence. -/
def crossingAndTests : List Declaration :=
  [.precedence .nonassoc ["'='"], .precedence .precedence ["'?'"]] ++ Grammar.crossing ++
    [.rule ⟨"S", ["T"], none, 7⟩, .rule ⟨"T", ["T", "'='", "T"], none, 8⟩,
      .rule ⟨"T", ["T", "'?'", "T"], none, 9⟩, .rule ⟨"T", ["'i'"], none, 10⟩]

/-- The theorem speaks of a table that is split twice, and computed anew in between:
    a row has a shift that gives way to an error and one that stays, and another has
    a conflict beside a shift that loses. -/
theorem recorded_run_split : ∃ g t, Grammar.define crossingAndTests = .ok g ∧
    run g [.lalr, .split, .lalr, .split] = .ok t ∧
    (∃ q, q < t.rows.size ∧ (t.row q).isocore ≠ q) ∧
    (∃ q, q < t.rows.size ∧ (t.row q).resolved.map (·.resolution) = [.error, .shift] ∧
      (t.row q).shifts.map Shift.deselected = [true, false]) ∧
    (∃ q, q < t.rows.size ∧ (t.row q).conflicts.length = 1 ∧
      (t.row q).resolved.map (·.resolution) = [.reduce]) ∧ Recorded g t := by
  obtain ⟨g, hg, hcheck⟩ := Grammar.exists_define crossingAndTests
    (fun g => (run g [.lalr, .split, .lalr, .split]).toOption.any fun t : Table =>
      decide (∃ q, q < t.rows.size ∧ (t.row q).isocore ≠ q) &&
      decide (∃ q, q < t.rows.size ∧ (t.row q).resolved.map (·.resolution) = [.error, .shift] ∧
        (t.row q).shifts.map Shift.deselected = [true, false]) &&
      decide (∃ q, q < t.rows.size ∧ (t.row q).conflicts.length = 1 ∧
        (t.row q).resolved.map (·.resolution) = [.reduce]))
    (by decide +kernel)
  cases ht : run g [.lalr, .split, .lalr, .split] with
  | error e => rw [ht] at hcheck; cases hcheck
  | ok t =>
    rw [ht] at hcheck
    have hcheck := hcheck
    simp only [Except.toOption, Option.any_some, Bool.and_eq_true, decide_eq_true_eq] at hcheck
    obtain ⟨⟨hsplit, herror⟩, hconflict⟩ := hcheck
    exact ⟨g, t, hg, ht, hsplit, herror, hconflict, (recorded_run hg _).2 t ht⟩

end LRAutomata.Table
