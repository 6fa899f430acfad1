/-
  The symbols that an automaton uses are those that the grammar reaches.

  * `Grammar.Reachable` are the symbols reached from the start symbol by the rules;
  * the dot of a viable item passes only such symbols and the end marker, and each of
    them stands after the dot of some viable item (`Item.Viable.touches`,
    `Grammar.WellFormed.exists_viable_of_reachable`);
  * what follows a nonterminal is one of them as well (`Grammar.Follows.touches`), so a
    lookahead is a terminal that is read in some state.

  So the terminals that are not used stand on no right-hand side of a rule that can be
  reached, in both modes (`Automaton.mem_unusedTerminals_generate`).

  The right-hand sides of the grammar are taken to fit the positions (`Item`).
-/
import LRAutomata.Proofs.Automaton.Calls

namespace LRAutomata

/-- The start symbol, and every symbol on the right-hand side of a rule of one that is
    reached. -/
inductive Grammar.Reachable (g : Grammar) : SymbolId → Prop
  | start : Reachable g g.start
  | rhs {r : RuleId} {X : SymbolId} : r < g.rules.size → Reachable g (g.lhs r) → X ∈ g.rhs r →
      Reachable g X

/-- What an automaton can touch: symbols that are reached, and the end marker. -/
def Grammar.Touches (g : Grammar) (X : SymbolId) : Prop :=
  X = SymbolId.endMarker ∨ g.Reachable X

variable {g : Grammar} {γ α β : List SymbolId} {i : Item} {X A t : SymbolId}

/-! ## Viable items -/

namespace Grammar

/-- The rules of a nonterminal that is touched touch the symbols on their right-hand
    sides. -/
theorem WellFormed.touches_rhs (wf : g.WellFormed) {r : RuleId} (hr : r < g.rules.size)
    (h : g.Touches (g.lhs r)) : ∀ X ∈ g.rhs r, g.Touches X := by
  intro X hX
  rcases h with heq | h
  · have hnonterminal := wf.lhs_nonterminal hr
    rw [heq, wf.terminal_endMarker] at hnonterminal
    cases hnonterminal
  · exact .inr (.rhs hr h hX)

end Grammar

open Grammar

/-- The rule of a viable item touches the symbols on its right-hand side. -/
theorem Item.Viable.touches (h : i.Viable g γ) (wf : g.WellFormed) : ∀ X ∈ g.rhs i.rule, g.Touches X := by
  induction h with
  | start =>
    intro X hX
    rw [Item.start, wf.rhs_accept] at hX
    rcases List.mem_pair.1 hX with rfl | rfl
    · exact .inr .start
    · exact .inl rfl
  | read _ _ ih => exact ih
  | expand _ hij ih =>
    obtain ⟨r, hr, hnext, rfl⟩ := hij
    exact wf.touches_rhs hr (ih _ (List.mem_of_getElem? hnext))

namespace Grammar

/-- Every symbol that is reached stands after the dot of a viable item. -/
theorem WellFormed.exists_viable_of_reachable (wf : g.WellFormed) (h : g.Reachable X) :
    ∃ γ i, Item.Viable g γ i ∧ i.next? g = some X := by
  induction h with
  | start => exact ⟨[], Item.start, .start, by rw [Item.next?, Item.start, wf.rhs_accept]; rfl⟩
  | @rhs r X hr _ hX ih =>
    obtain ⟨γ, i, hi, hnext⟩ := ih
    obtain ⟨n, hn⟩ := List.mem_iff_getElem?.1 hX
    have hlt := (List.getElem?_eq_some_iff.1 hn).1
    have begun : Item.Viable g γ ⟨r, 0⟩ := hi.expand ⟨r, hr, hnext, rfl⟩
    exact ⟨_, ⟨r, n⟩, begun.read_take (i := ⟨r, n⟩) n (Nat.le_of_lt hlt), hn⟩

/-! ## What follows -/

/-- From symbols that are touched only such symbols are derived. -/
theorem Derives.touches (h : g.Derives α β) (wf : g.WellFormed) (hα : ∀ X ∈ α, g.Touches X) :
    ∀ X ∈ β, g.Touches X := by
  induction h with
  | refl => exact hα
  | tail _ step ih =>
    obtain ⟨μ, ν, hr⟩ := step
    simp only [List.mem_append, List.mem_cons] at ih ⊢
    rintro X (hX | hX | hX)
    · exact ih X (.inl hX)
    · exact wf.touches_rhs hr (ih _ (.inr (.inl rfl))) X hX
    · exact ih X (.inr (.inr hX))

/-- What follows a nonterminal is touched. -/
theorem Follows.touches (h : g.Follows γ A t) (wf : g.WellFormed) : g.Touches t := by
  induction h with
  | begins hi _ hbegins =>
    obtain ⟨-, β, hβ⟩ := hbegins
    exact hβ.touches wf (fun X hX => hi.touches wf X (List.mem_of_mem_drop hX)) _ List.mem_cons_self
  | inherits _ _ _ _ ih => exact ih

/-- A terminal other than the end marker is reached iff it stands on the right-hand side
    of a rule whose left-hand side is. -/
theorem WellFormed.reachable_terminal_iff (wf : g.WellFormed) (ht : g.isTerminal t = true) :
    g.Reachable t ↔ ∃ r, r < g.rules.size ∧ g.Reachable (g.lhs r) ∧ t ∈ g.rhs r := by
  constructor
  · intro h
    cases h with
    | start => rw [wf.start_nonterminal] at ht; cases ht
    | rhs hr hlhs hX => exact ⟨_, hr, hlhs, hX⟩
  · rintro ⟨r, hr, hlhs, hX⟩
    exact .rhs hr hlhs hX

end Grammar

namespace Automaton

/-! ## Used symbols -/

theorem mem_usedSymbols {a : Automaton} : X ∈ a.usedSymbols ↔ ∃ q, q < a.states.size ∧
    ((∃ e ∈ (a.state q).edges, e.symbol = X) ∨ ∃ r ∈ (a.state q).reductions, X ∈ r.tokens) := by
  have used : a.usedSymbols = a.states.toList.foldl (fun used s => used ∪
      (NatSet.ofList (s.edges.map Edge.symbol) ∪ s.reductions.foldl (fun la r => la ∪ r.tokens) ∅)) ∅ := by
    refine congrFun (congrFun (congrArg List.foldl (funext fun used => funext fun s => ?_)) ∅) _
    refine NatSet.ext fun X => ?_
    simp only [NatSet.mem_union, or_assoc]
  rw [used, Lookaheads.mem_foldl_union, or_iff_right (NatSet.not_mem_empty X)]
  simp only [NatSet.mem_union, Lookaheads.mem_foldl_union, NatSet.mem_ofList, List.mem_map,
    NatSet.not_mem_empty, false_or]
  constructor
  · rintro ⟨s, hs, h⟩
    obtain ⟨q, hq, rfl⟩ := List.mem_iff_getElem.1 hs
    have hq' : q < a.states.size := by simpa using hq
    exact ⟨q, hq', by simpa [state, Array.getD, hq'] using h⟩
  · rintro ⟨q, hq, h⟩
    exact ⟨a.state q, by simp [state, Array.getD, hq], h⟩

/-- **Used terminals are reached.**  The terminals that a complete automaton uses, the
    end marker apart, are those that the grammar reaches. -/
theorem Complete.mem_usedSymbols_iff {b : Graph} (h : Complete g b) (wf : g.WellFormed)
    (ht : t ≠ SymbolId.endMarker) : t ∈ (ofGraph g b).usedSymbols ↔ g.Reachable t := by
  rw [mem_usedSymbols, size_ofGraph]
  constructor
  · rintro ⟨q, hq, ⟨e, he, rfl⟩ | ⟨r, hr, htokens⟩⟩
    · rw [toCore_state] at he
      obtain ⟨i, hi, hnext⟩ := (h.exists_edge_iff hq).1 ⟨e, he, rfl⟩
      obtain ⟨γ, hγ⟩ := h.reachable q hq
      have viable := (h.mem_items_iff wf hγ).1 hi
      exact (viable.touches wf _ (List.mem_of_getElem? hnext)).resolve_left ht
    · rw [reductions_eq g b hq] at hr
      obtain ⟨red, hred, rfl⟩ := List.mem_map.1 hr
      obtain ⟨-, hoffers⟩ :=
        (exists_reduction_iff h.toOfItems wf h.reachable hq).1 ⟨red, hred, rfl, htokens⟩
      obtain ⟨γ, -, -, γ', -, hfollows⟩ := (Graph.offers_iff h.toOfItems wf h.reachable hq).1 hoffers
      exact (hfollows.touches wf).resolve_left ht
  · intro hreach
    obtain ⟨γ, i, hi, hnext⟩ := wf.exists_viable_of_reachable hreach
    obtain ⟨q, hγ⟩ := (h.exists_reads_iff wf).2 ⟨i, hi⟩
    have hq := (h.reads_kernel hγ).1
    refine ⟨q, hq, .inl ?_⟩
    rw [toCore_state]
    exact (h.exists_edge_iff hq).2 ⟨i, (h.mem_items_iff wf hγ).2 hi, hnext⟩

/-- **Unused terminals are unreachable.**  In both modes the unused terminals are listed
    in ascending order; they are the terminals other than the reserved ones that stand
    on the right-hand side of no rule whose left-hand side is reached. -/
theorem mem_unusedTerminals_generate {decls : List Declaration} (hg : Grammar.define decls = .ok g)
    (mode : Mode) : (unusedTerminals g (generate g mode)).Pairwise (· < ·) ∧
      ∀ t, t ∈ unusedTerminals g (generate g mode) ↔ g.isTerminal t = true ∧
        t ∉ [SymbolId.endMarker, SymbolId.error, SymbolId.undefined] ∧
        ∀ r, r < g.rules.size → g.Reachable (g.lhs r) → t ∉ g.rhs r := by
  have wf := Grammar.wellFormed_of_define hg
  obtain ⟨b, complete, heq⟩ := exists_complete_generate wf mode
  rw [heq]
  refine ⟨List.pairwise_lt_range.filter _, fun t => ?_⟩
  have hterminal : t ∈ g.terminals ↔ g.isTerminal t = true := by
    rw [Grammar.terminals, List.mem_range, Grammar.isTerminal, decide_eq_true_eq]
  rw [unusedTerminals, List.mem_filter, hterminal]
  simp only [Bool.and_eq_true, decide_eq_true_eq]
  refine and_congr_right fun ht => and_congr_right fun hreserved => ?_
  have hend : t ≠ SymbolId.endMarker := fun heq => hreserved (by simp [heq])
  rw [complete.mem_usedSymbols_iff wf hend, wf.reachable_terminal_iff ht]
  simp only [not_exists, not_and]

/-- In addition a terminal behind a symbol that derives nothing, and a rule that is
    not reached. -/
def crossingAndUnused : List Declaration :=
  Grammar.crossing ++ [.rule ⟨"S", ["N", "'n'"], none, 7⟩, .rule ⟨"N", ["N", "'m'"], none, 8⟩,
    .rule ⟨"U", ["'u'", "'a'"], none, 9⟩]

/-- A state is split in two, and only the terminal of the rule that is not reached is
    unused. -/
theorem mem_unusedTerminals_generate_split : ∃ g, Grammar.define crossingAndUnused = .ok g ∧
    g.find? "'u'" = some 10 ∧ (∃ r, r < g.rules.size ∧ 10 ∈ g.rhs r) ∧
    unusedTerminals g (generate g .ielr) = [10] ∧
    (∀ r, r < g.rules.size → g.Reachable (g.lhs r) → 10 ∉ g.rhs r) := by
  obtain ⟨g, hg, hcheck⟩ := Grammar.exists_define crossingAndUnused
    (fun g => g.find? "'u'" = some 10 ∧ (∃ r, r < g.rules.size ∧ 10 ∈ g.rhs r) ∧
      unusedTerminals g (generate g .ielr) = [10]) (by decide +kernel)
  obtain ⟨hfind, hrule, hunused⟩ := of_decide_eq_true hcheck
  refine ⟨g, hg, hfind, hrule, hunused, ?_⟩
  exact (((mem_unusedTerminals_generate hg .ielr).2 10).1 (by rw [hunused]; simp)).2.2

end Automaton

end LRAutomata
