/-
  Automata of grammars whose rules are declared in another order.

  States with the same items and lookahead sets have the same actions, conflicts
  and resolved conflicts, but for the numbers and the order of what they list
  (`State.renumbers_ofCore`).  So the LALR(1) automata of two grammars that differ in
  the order of their rules are the same but for the numbers, and they have as many
  states and conflicts (`Automaton.lalr_reordered`).

  The default reductions are not compared: of the reductions with the most tokens
  the one by the least rule is chosen, so another order of the rules can lead to
  another choice.

  The right-hand sides of the grammar are taken to fit the positions (`Item`).
-/
import LRAutomata.Proofs.Automaton.Records
import LRAutomata.Proofs.Automaton.Renumbering
import LRAutomata.Proofs.Grammar.RuleOrder

namespace LRAutomata

/-! ## Conflicts and reductions with other numbers -/

/-- The conflicts are the same but for the order of the tokens and that of the two
    reductions. -/
inductive Conflict.Same : Conflict → Conflict → Prop
  | shiftReduce (t : SymbolId) (i : Item) : Same (.shiftReduce t i) (.shiftReduce t i)
  | reduceReduce {ts ts' : List SymbolId} (i j : Item) :
    ts'.Perm ts → Same (.reduceReduce ts i j) (.reduceReduce ts' i j)
  | swapped {ts ts' : List SymbolId} (i j : Item) :
    ts'.Perm ts → Same (.reduceReduce ts i j) (.reduceReduce ts' j i)

namespace Conflict.Same

theorem refl : ∀ c : Conflict, c.Same c
  | .shiftReduce t i => .shiftReduce t i
  | .reduceReduce _ i j => .reduceReduce i j (.refl _)

theorem trans {c c' c'' : Conflict} (h : c.Same c') (h' : c'.Same c'') : c.Same c'' := by
  cases h with
  | shiftReduce => exact h'
  | reduceReduce i j hts =>
    cases h' with
    | reduceReduce _ _ hts' => exact .reduceReduce i j (hts'.trans hts)
    | swapped _ _ hts' => exact .swapped i j (hts'.trans hts)
  | swapped i j hts =>
    cases h' with
    | reduceReduce _ _ hts' => exact .swapped i j (hts'.trans hts)
    | swapped _ _ hts' => exact .reduceReduce i j (hts'.trans hts)

instance : IsTrans Conflict Same := ⟨fun _ _ _ => trans⟩

theorem isShiftReduce_eq {c c' : Conflict} (h : c.Same c') : c'.isShiftReduce = c.isShiftReduce := by
  cases h <;> rfl

end Conflict.Same

namespace Renumbering

variable (e : Renumbering)

/-- The conflict with the new numbers. -/
def conflict : Conflict → Conflict
  | .shiftReduce t i => .shiftReduce (e.symbol t) (e.item i)
  | .reduceReduce ts i j => .reduceReduce (ts.map e.symbol) (e.item i) (e.item j)

/-- The resolved conflict with the new numbers. -/
def resolved (c : ResolvedConflict) : ResolvedConflict :=
  { c with symbol := e.symbol c.symbol, rule := e.rule c.rule }

/-- The encounter with the new numbers. -/
def encounter (m : State.Encounter) : State.Encounter :=
  ⟨e.symbol m.symbol, e.item m.item, m.verdict⟩

/-- The reduction with the new numbers. -/
def reduction (r : Reduction) : Reduction :=
  { r with
    item := e.item r.item
    lookahead := r.lookahead.map e.symbols
    deselected := e.symbols r.deselected }

@[simp] theorem symbols_empty : e.symbols ∅ = ∅ :=
  (e.eq_symbols fun t => by simp).symm

@[simp] theorem tokens_reduction (r : Reduction) : (e.reduction r).tokens = e.symbols r.tokens := by
  cases hla : r.lookahead <;> simp [Reduction.tokens, reduction, hla]

@[simp] theorem isShiftReduce_conflict (c : Conflict) :
    (e.conflict c).isShiftReduce = c.isShiftReduce := by
  cases c <;> rfl

end Renumbering

/-- The reduction `r'` is the reduction `r` with the new numbers; whether it is the
    default does not matter. -/
structure Reduction.Renumbers (e : Renumbering) (r r' : Reduction) : Prop where
  item_eq : r'.item = e.item r.item
  lookahead_eq : r'.lookahead = r.lookahead.map e.symbols
  deselected_eq : r'.deselected = e.symbols r.deselected

/-- The state `s'` is the state `s` with the new numbers, but for the order of what
    it lists, and for the default reduction. -/
structure State.Renumbers (e : Renumbering) (τ : Equiv.Perm StateId) (s s' : State) : Prop
    extends s.toCore.Renumbers e τ s'.toCore where
  deselectedShifts_eq : s'.deselectedShifts = e.symbols s.deselectedShifts
  reductions_rel : Multiset.Rel (Reduction.Renumbers e) s.reductions s'.reductions
  conflicts_rel : Multiset.Rel Conflict.Same (s.conflicts.map e.conflict) s'.conflicts
  resolved_perm : s'.resolved.Perm (s.resolved.map e.resolved)

/-! ## Reductions -/

section Reductions
variable {e : Renumbering} {τ : Equiv.Perm StateId} {g g' : Grammar} {c c' : Core}

theorem Core.Renumbers.completeItems_perm (h : c.Renumbers e τ c') (grammar : g.Renumbers e g') :
    (c'.completeItems g').Perm ((c.completeItems g).map e.item) := by
  have items : c'.items.Perm (c.items.map e.item) := by
    rw [Core.items, Core.items, List.map_append]
    exact h.kernel_perm.append h.closure_perm
  have complete : ((fun i : Item => (i.next? g').isNone) ∘ e.item) = fun i => (i.next? g).isNone := by
    funext i
    simp [grammar.next?_eq]
  have := items.filter fun i => (i.next? g').isNone
  rwa [List.filter_map, complete] at this

theorem Core.Renumbers.needsLookahead_eq (h : c.Renumbers e τ c') (grammar : g.Renumbers e g') :
    State.needsLookahead g' c' = State.needsLookahead g c := by
  have edges : (c'.terminalEdges g').Perm ((c.terminalEdges g).map (e.edge τ)) := by
    have terminal : ((fun edge : Edge => g'.isTerminal edge.symbol) ∘ e.edge τ) =
        fun edge => g.isTerminal edge.symbol := funext fun edge => grammar.isTerminal_eq edge.symbol
    have := h.edges_perm.filter fun edge => g'.isTerminal edge.symbol
    rwa [List.filter_map, terminal] at this
  rw [State.needsLookahead, State.needsLookahead, (h.completeItems_perm grammar).length_eq,
    List.length_map, edges.isEmpty_eq, List.isEmpty_map]

end Reductions

namespace State

/-! ## Encounters and their records -/

section Encounters
variable {e : Renumbering} {τ : Equiv.Perm StateId} {g g' : Grammar} {c c' : Core}
variable {reductions reductions' : List Reduction}

theorem encounters_perm (h : c.Renumbers e τ c') (grammar : g.Renumbers e g')
    (hreductions : reductions'.Perm (reductions.map e.reduction)) :
    (encounters g' c' reductions').Perm ((encounters g c reductions).map e.encounter) := by
  rw [encounters, encounters, List.map_flatMap]
  refine (h.edges_perm.flatMap_right _).trans ?_
  rw [List.flatMap_map]
  refine List.Perm.flatMap_left _ fun edge _ => ?_
  refine ((hreductions.filter _).map _).trans (List.Perm.of_eq ?_)
  have tokens : ((fun r : Reduction => decide (e.symbol edge.symbol ∈ r.tokens)) ∘ e.reduction) =
      fun r => decide (edge.symbol ∈ r.tokens) := by
    funext r
    simp [e.mem_symbols]
  rw [show (e.edge τ edge).symbol = e.symbol edge.symbol from rfl, List.filter_map, tokens, List.map_map,
    List.map_map]
  refine congrArg (List.map · _) (funext fun r => ?_)
  show (⟨_, _, g'.verdict (e.symbol edge.symbol) (e.rule r.rule)⟩ : Encounter) =
    ⟨_, _, g.verdict edge.symbol r.rule⟩
  rw [Grammar.verdict, Grammar.verdict, grammar.rulePrecedence_eq,
    (grammar.symbol_same edge.symbol).precedence_eq]
  rfl

theorem shiftReduceConflicts_map (met : List Encounter) :
    shiftReduceConflicts (met.map e.encounter) = (shiftReduceConflicts met).map e.conflict := by
  rw [shiftReduceConflicts, shiftReduceConflicts, List.filterMap_map, List.map_filterMap]
  refine congrArg (List.filterMap · met) (funext fun m => ?_)
  obtain ⟨t, i, verdict⟩ := m
  cases verdict <;> rfl

theorem resolutions_map (met : List Encounter) :
    resolutions (met.map e.encounter) = (resolutions met).map e.resolved := by
  rw [resolutions, resolutions, List.filterMap_map, List.map_filterMap]
  refine congrArg (List.filterMap · met) (funext fun m => ?_)
  obtain ⟨t, i, verdict⟩ := m
  cases verdict <;> rfl

theorem losingShifts_eq {resolved resolved' : List ResolvedConflict}
    (h : resolved'.Perm (resolved.map e.resolved)) :
    losingShifts resolved' = e.symbols (losingShifts resolved) := by
  refine e.eq_symbols fun t => ?_
  simp only [mem_losingShifts, h.mem_iff, List.mem_map]
  constructor
  · rintro ⟨_, ⟨c, hc, rfl⟩, ht, hloses⟩; exact ⟨c, hc, e.symbol.injective ht, hloses⟩
  · rintro ⟨c, hc, rfl, hloses⟩; exact ⟨_, ⟨c, hc, rfl⟩, rfl, hloses⟩

theorem losingTokens_eq {resolved resolved' : List ResolvedConflict}
    (h : resolved'.Perm (resolved.map e.resolved)) (ρ : RuleId) :
    losingTokens resolved' (e.rule ρ) = e.symbols (losingTokens resolved ρ) := by
  refine e.eq_symbols fun t => ?_
  simp only [mem_losingTokens_iff, h.mem_iff, List.mem_map]
  constructor
  · rintro ⟨_, ⟨c, hc, rfl⟩, ht, hρ, hloses⟩
    exact ⟨c, hc, e.symbol.injective ht, e.rule.injective hρ, hloses⟩
  · rintro ⟨c, hc, rfl, rfl, hloses⟩; exact ⟨_, ⟨c, hc, rfl⟩, rfl, rfl, hloses⟩

end Encounters

/-! ## Conflicts between reductions -/

section ReduceReduce
variable {e : Renumbering} {reductions reductions' : List Reduction}

/-- The conflict between two reductions with a common token. -/
def collision? (r₁ r₂ : Reduction) : Option Conflict :=
  if (r₁.tokens ∩ r₂.tokens).isEmpty then none
  else some (.reduceReduce (r₁.tokens ∩ r₂.tokens).toList r₁.item r₂.item)

theorem reduceReduceConflicts_cons (r : Reduction) (rest : List Reduction) :
    reduceReduceConflicts (r :: rest) =
      rest.filterMap (collision? r) ++ reduceReduceConflicts rest := rfl

theorem collision?_comm (r₁ r₂ : Reduction) :
    Option.Rel Conflict.Same (collision? r₁ r₂) (collision? r₂ r₁) := by
  have common : r₂.tokens ∩ r₁.tokens = r₁.tokens ∩ r₂.tokens :=
    NatSet.ext fun t => by simp [and_comm]
  rw [collision?, collision?, common]
  split
  · exact .none
  · exact .some (.swapped _ _ (.refl _))

theorem collision?_reduction (r₁ r₂ : Reduction) : Option.Rel Conflict.Same
    ((collision? r₁ r₂).map e.conflict) (collision? (e.reduction r₁) (e.reduction r₂)) := by
  have common : (e.reduction r₁).tokens ∩ (e.reduction r₂).tokens =
      e.symbols (r₁.tokens ∩ r₂.tokens) :=
    e.eq_symbols fun t => by simp [e.mem_symbols]
  rw [collision?, collision?, common, e.isEmpty_symbols]
  split
  · exact .none
  · exact .some (.reduceReduce _ _ e.toList_symbols)

/-- The conflicts between reductions in another order. -/
theorem reduceReduceConflicts_perm (h : reductions.Perm reductions') :
    Multiset.Rel Conflict.Same (reduceReduceConflicts reductions)
      (reduceReduceConflicts reductions') := by
  induction h with
  | nil => exact .zero
  | cons r hrest ih =>
    rw [reduceReduceConflicts_cons, reduceReduceConflicts_cons, ← Multiset.coe_add, ← Multiset.coe_add,
      Multiset.coe_eq_coe.2 (hrest.filterMap (collision? r))]
    exact (Multiset.rel_refl_of_refl_on fun c _ => .refl c).add ih
  | swap r₁ r₂ rest =>
    have others := List.perm_append_comm_assoc (rest.filterMap (collision? r₂))
      (rest.filterMap (collision? r₁)) (reduceReduceConflicts rest)
    simp only [reduceReduceConflicts_cons, List.filterMap_cons_eq, List.append_assoc]
    rw [← Multiset.coe_add, Multiset.coe_eq_coe.2 others, ← Multiset.coe_add]
    exact (List.rel_toList (collision?_comm r₂ r₁)).add
      (Multiset.rel_refl_of_refl_on fun c _ => .refl c)
  | trans _ _ ih₁ ih₂ => exact ih₁.trans _ ih₂

/-- The conflicts between reductions with other numbers. -/
theorem reduceReduceConflicts_map (reductions : List Reduction) :
    Multiset.Rel Conflict.Same ((reduceReduceConflicts reductions).map e.conflict)
      (reduceReduceConflicts (reductions.map e.reduction)) := by
  induction reductions with
  | nil => exact .zero
  | cons r rest ih =>
    rw [List.map_cons, reduceReduceConflicts_cons, reduceReduceConflicts_cons, List.map_append,
      List.map_filterMap, List.filterMap_map, ← Multiset.coe_add, ← Multiset.coe_add]
    exact (List.rel_filterMap_of_rel rest fun r' => collision?_reduction r r').add ih

end ReduceReduce

/-! ## States -/

section OfCore
variable {e : Renumbering} {τ : Equiv.Perm StateId} {g g' : Grammar} {c c' : Core} {q q' : StateId}
variable {la la' : OrderedMap StateRule NatSet} {s s' : State}

theorem reductionsOf_perm (h : c.Renumbers e τ c') (grammar : g.Renumbers e g')
    (hla : ∀ ρ, la'.get? ⟨q', e.rule ρ⟩ = (la.get? ⟨q, ρ⟩).map e.symbols) :
    (reductionsOf g' la' c' q').Perm ((reductionsOf g la c q).map e.reduction) := by
  rw [reductionsOf, reductionsOf, h.needsLookahead_eq grammar]
  refine ((h.completeItems_perm grammar).map _).trans (List.Perm.of_eq ?_)
  rw [List.map_map, List.map_map]
  refine List.map_congr_left fun i _ => ?_
  show (⟨e.item i, _, ∅, false⟩ : Reduction) = ⟨e.item i, Option.map e.symbols _, e.symbols ∅, false⟩
  rw [e.symbols_empty]
  split
  · exact congrArg (Reduction.mk (e.item i) · ∅ false) (hla i.rule)
  · rfl

/-- **States with the same items and lookahead sets are the same** but for the
    numbers. -/
theorem renumbers_ofCore (h : c.Renumbers e τ c') (grammar : g.Renumbers e g')
    (hla : ∀ ρ, la'.get? ⟨q', e.rule ρ⟩ = (la.get? ⟨q, ρ⟩).map e.symbols) :
    (ofCore g la c q).Renumbers e τ (ofCore g' la' c' q') := by
  have hreductions := reductionsOf_perm h grammar hla
  have hmet := encounters_perm h grammar hreductions
  have hresolved : (ofCore g' la' c' q').resolved.Perm ((ofCore g la c q).resolved.map e.resolved) := by
    rw [resolved_ofCore, resolved_ofCore, ← resolutions_map]
    exact hmet.filterMap _
  refine ⟨⟨h.accessing_eq, h.kernel_perm, h.closure_perm, h.edges_perm, h.predecessors_perm,
    h.isocore_eq⟩, losingShifts_eq hresolved, ?_, ?_, hresolved⟩
  case refine_1 =>
    refine List.rel_map_of_perm hreductions fun r _ => ⟨rfl, ?_, losingTokens_eq hresolved r.rule⟩
    rfl
  case refine_2 =>
    have hshift : (shiftReduceConflicts (encounters g' c' (reductionsOf g' la' c' q'))).Perm
        ((shiftReduceConflicts (encounters g c (reductionsOf g la c q))).map e.conflict) := by
      rw [← shiftReduceConflicts_map]
      exact hmet.filterMap _
    rw [conflicts_ofCore, conflicts_ofCore, List.map_append, ← Multiset.coe_add, ← Multiset.coe_add,
      Multiset.coe_eq_coe.2 hshift]
    refine (Multiset.rel_refl_of_refl_on fun c _ => .refl c).add ?_
    exact (reduceReduceConflicts_map _).trans _ (reduceReduceConflicts_perm hreductions.symm)

theorem Renumbers.countP_eq (h : s.Renumbers e τ s') {p : Conflict → Bool}
    (hconflict : ∀ c, p (e.conflict c) = p c) (hsame : ∀ c c' : Conflict, c.Same c' → p c' = p c) :
    s'.conflicts.countP p = s.conflicts.countP p := by
  rw [List.countP_eq_of_rel h.conflicts_rel hsame, List.countP_map]
  exact List.countP_congr fun c _ => by simp [hconflict]

theorem Renumbers.shiftReduceCount_eq (h : s.Renumbers e τ s') :
    s'.shiftReduceCount = s.shiftReduceCount := by
  rw [shiftReduceCount, shiftReduceCount, ← List.countP_eq_length_filter, ← List.countP_eq_length_filter]
  exact h.countP_eq e.isShiftReduce_conflict fun _ _ => Conflict.Same.isShiftReduce_eq

theorem Renumbers.reduceReduceCount_eq (h : s.Renumbers e τ s') :
    s'.reduceReduceCount = s.reduceReduceCount := by
  rw [reduceReduceCount, reduceReduceCount, ← List.countP_eq_length_filter,
    ← List.countP_eq_length_filter]
  exact h.countP_eq (fun c => by rw [e.isShiftReduce_conflict])
    fun _ _ hsame => by rw [hsame.isShiftReduce_eq]

end OfCore

end State

/-! ## Automata -/

/-- The automaton `a'` is the automaton `a` with the new numbers, but for the order of
    what its states list, and for their default reductions. -/
structure Automaton.Renumbers (e : Renumbering) (τ : Equiv.Perm StateId) (a a' : Automaton) : Prop where
  size_eq : a'.states.size = a.states.size
  lt_iff : ∀ q, τ q < a'.states.size ↔ q < a.states.size
  start_eq : τ StateId.start = StateId.start
  state : ∀ {q}, q < a.states.size → (a.state q).Renumbers e τ (a'.state (τ q))
  get?_la : ∀ q ρ, a'.lookaheads.la.get? ⟨τ q, e.rule ρ⟩ =
    (a.lookaheads.la.get? ⟨q, ρ⟩).map e.symbols

namespace Automaton

variable {e : Renumbering} {τ : Equiv.Perm StateId} {g g' : Grammar} {a a' : Automaton}

theorem toList_states (a : Automaton) : a.states.toList = (List.range a.states.size).map a.state := by
  refine List.ext_getElem (by simp) fun q hq _ => ?_
  have hq' : q < a.states.size := by simpa using hq
  simp [state, Array.getD, hq']

/-- What is counted alike in paired states is counted alike in the automata. -/
theorem Renumbers.total_eq (h : a.Renumbers e τ a') {count : State → Nat}
    (hcount : ∀ {s s' : State}, s.Renumbers e τ s' → count s' = count s) :
    total (a'.states.toList.map count) = total (a.states.toList.map count) := by
  have places : (List.range a'.states.size).Perm ((List.range a.states.size).map τ) := by
    refine List.perm_map_of_mem τ τ.symm List.nodup_range List.nodup_range (fun q hq => ?_)
      fun q hq => ?_
    · exact ⟨List.mem_range.2 ((h.lt_iff q).2 (List.mem_range.1 hq)), τ.symm_apply_apply q⟩
    · refine ⟨List.mem_range.2 ((h.lt_iff _).1 ?_), τ.apply_symm_apply q⟩
      rw [τ.apply_symm_apply]
      exact List.mem_range.1 hq
  have counts : ((List.range a.states.size).map τ).map (fun q => count (a'.state q)) =
      (List.range a.states.size).map fun q => count (a.state q) := by
    rw [List.map_map]
    exact List.map_congr_left fun q hq => hcount (h.state (List.mem_range.1 hq))
  rw [toList_states, toList_states, List.map_map, List.map_map]
  refine ((places.map fun q => count (a'.state q)).sum_nat).trans ?_
  rw [counts]
  rfl

theorem Renumbers.shiftReduceCount_eq (h : a.Renumbers e τ a') :
    a'.shiftReduceCount = a.shiftReduceCount :=
  h.total_eq fun hs => hs.shiftReduceCount_eq

theorem Renumbers.reduceReduceCount_eq (h : a.Renumbers e τ a') :
    a'.reduceReduceCount = a.reduceReduceCount :=
  h.total_eq fun hs => hs.reduceReduceCount_eq

/-- The LALR(1) automata of grammars that differ in their numbers. -/
theorem exists_renumbers_lalr (h : g.Renumbers e g') (wf : g.WellFormed) (wf' : g'.WellFormed) :
    ∃ τ, (lalr g).Renumbers e τ (lalr g') := by
  obtain ⟨τ, states⟩ := Lr0.exists_renumbers h wf wf'
  have paired : Lr0.Paired e τ g g' := ⟨h, states, wf, wf'⟩
  refine ⟨τ, ?_, fun q => ?_, paired.start_eq, fun {q} hq => ?_, paired.get?_la⟩
  · simp [lalr, states.size_eq]
  · simpa [lalr] using states.lt_iff q
  · rw [lalr, size_ofGraph] at hq
    rw [lalr, lalr, state_ofGraph g _ hq, state_ofGraph g' _ ((states.lt_iff q).2 hq)]
    exact State.renumbers_ofCore (paired.core hq) h (paired.get?_la q)

/-- **The order of the rules does not matter.**  If the start symbol is chosen, then
    declarations with the rules in another order define a grammar iff the old ones
    do.  The grammars are the same but for the numbers of the symbols and the rules,
    and so are the LALR(1) automata but for those of the states too: paired states
    have the same items, transitions, lookahead sets, conflicts and resolved
    conflicts.  There are as many states and as many conflicts of both kinds. -/
theorem lalr_reordered {decls decls' : List Declaration} (h : Declaration.Reordered decls decls') :
    ((∃ g, Grammar.define decls = .ok g) ↔ ∃ g', Grammar.define decls' = .ok g') ∧
    ∀ g g', Grammar.define decls = .ok g → Grammar.define decls' = .ok g' →
      (∃ e τ, g.Renumbers e g' ∧ Grammar.FollowsRules e decls decls' ∧
        (lalr g).Renumbers e τ (lalr g')) ∧
      (lalr g').states.size = (lalr g).states.size ∧
      (lalr g').shiftReduceCount = (lalr g).shiftReduceCount ∧
      (lalr g').reduceReduceCount = (lalr g).reduceReduceCount := by
  refine ⟨⟨fun ⟨g, hg⟩ => ?_, fun ⟨g', hg'⟩ => ?_⟩, fun g g' hg hg' => ?_⟩
  · obtain ⟨g', hg', -⟩ := Grammar.define_reordered h hg
    exact ⟨g', hg'⟩
  · obtain ⟨g, hg, -⟩ := Grammar.define_reordered h.symm hg'
    exact ⟨g, hg⟩
  · obtain ⟨g'', hg'', e, renumbers, follows⟩ := Grammar.define_reordered h hg
    obtain rfl := Except.ok.inj (hg''.symm.trans hg')
    obtain ⟨τ, automata⟩ := exists_renumbers_lalr renumbers (Grammar.wellFormed_of_define hg)
      (Grammar.wellFormed_of_define hg')
    exact ⟨⟨e, τ, renumbers, follows, automata⟩, automata.size_eq, automata.shiftReduceCount_eq,
      automata.reduceReduceCount_eq⟩

/-- The theorem speaks of a grammar with conflicts of both kinds and a resolved one.
    With its rules in another order the symbols have other numbers. -/
theorem lalr_reordered_conflicts : ∃ g g', Grammar.define
      [.start "S", .precedence .left ["'+'"], .rule ⟨"S", ["S", "'+'", "S"], none, 1⟩,
        .rule ⟨"S", ["S", "'?'", "S"], none, 2⟩, .rule ⟨"S", ["'i'"], none, 3⟩,
        .rule ⟨"S", ["A"], none, 4⟩, .rule ⟨"A", ["'i'"], none, 5⟩] = .ok g ∧
    Grammar.define
      [.rule ⟨"A", ["'i'"], none, 5⟩, .start "S", .rule ⟨"S", ["'i'"], none, 3⟩,
        .rule ⟨"S", ["S", "'?'", "S"], none, 2⟩, .precedence .left ["'+'"],
        .rule ⟨"S", ["A"], none, 4⟩, .rule ⟨"S", ["S", "'+'", "S"], none, 1⟩] = .ok g' ∧
    (g.symbol g.start).name = "S" ∧ (g'.symbol g'.start).name = "S" ∧ g.start ≠ g'.start ∧
    (∃ e τ, g.Renumbers e g' ∧ (lalr g).Renumbers e τ (lalr g')) ∧
    (lalr g').shiftReduceCount = 3 ∧ (lalr g').reduceReduceCount = 1 := by
  obtain ⟨g, hg, hcheck⟩ := Grammar.exists_define
    [.start "S", .precedence .left ["'+'"], .rule ⟨"S", ["S", "'+'", "S"], none, 1⟩,
      .rule ⟨"S", ["S", "'?'", "S"], none, 2⟩, .rule ⟨"S", ["'i'"], none, 3⟩,
      .rule ⟨"S", ["A"], none, 4⟩, .rule ⟨"A", ["'i'"], none, 5⟩]
    (fun g => decide ((g.symbol g.start).name = "S" ∧ g.start = 7 ∧
      (lalr g).shiftReduceCount = 3 ∧ (lalr g).reduceReduceCount = 1)) (by decide +kernel)
  obtain ⟨g', hg', hcheck'⟩ := Grammar.exists_define
    [.rule ⟨"A", ["'i'"], none, 5⟩, .start "S", .rule ⟨"S", ["'i'"], none, 3⟩,
      .rule ⟨"S", ["S", "'?'", "S"], none, 2⟩, .precedence .left ["'+'"],
      .rule ⟨"S", ["A"], none, 4⟩, .rule ⟨"S", ["S", "'+'", "S"], none, 1⟩]
    (fun g => decide ((g.symbol g.start).name = "S" ∧ g.start = 8)) (by decide +kernel)
  obtain ⟨hname, hstart, hshift, hreduce⟩ := of_decide_eq_true hcheck
  obtain ⟨hname', hstart'⟩ := of_decide_eq_true hcheck'
  obtain ⟨⟨e, τ, renumbers, -, automata⟩, -, hshift', hreduce'⟩ :=
    (lalr_reordered ⟨by decide, by decide, "S", by decide⟩).2 g g' hg hg'
  exact ⟨g, g', hg, hg', hname, hname', by rw [hstart, hstart']; decide, ⟨e, τ, renumbers, automata⟩,
    hshift'.trans hshift, hreduce'.trans hreduce⟩

end Automaton

end LRAutomata
