/-
  What every completed grammar satisfies.

  A draft that can be completed gives a grammar in which all symbols of the
  rules exist, left-hand sides are nonterminals, and rule 0 produces the start
  symbol and the end marker (`Grammar.WellFormed`).  Automata are proved
  correct for well-formed grammars; `Grammar.wellFormed_of_define` says that
  declarations define no others.
-/
import LRAutomata.Proofs.Grammar.Completion

namespace LRAutomata

namespace Grammar

/-- What every completed grammar satisfies. -/
structure WellFormed (g : Grammar) : Prop where
  accept_lt : RuleId.accept < g.rules.size
  rhs_accept : g.rhs RuleId.accept = [g.start, SymbolId.endMarker]
  rulePrecedence_accept : g.rulePrecedence RuleId.accept = none
  terminal_endMarker : g.isTerminal SymbolId.endMarker = true
  start_nonterminal : g.isTerminal g.start = false
  terminalCount_le : g.terminalCount ≤ g.symbols.size
  lhs_nonterminal : ∀ {r}, r < g.rules.size → g.isTerminal (g.lhs r) = false
  lhs_lt : ∀ {r}, r < g.rules.size → g.lhs r < g.symbols.size
  rhs_lt : ∀ {r}, r < g.rules.size → ∀ X ∈ g.rhs r, X < g.symbols.size
  precSymbol_lt : ∀ {r}, r < g.rules.size → ∀ X ∈ (g.rule r).precSymbol, X < g.symbols.size
  rulesOf_eq : ∀ X, g.rulesOf X = (List.range g.rules.size).filter fun r => g.lhs r = X
  nullable_eq : g.nullable = Nullable.members
    (Nullable.ofRules g.rules g.rulesOf g.terminalCount g.symbols.size).symbols
  nullableRules_eq : g.nullableRules =
    (Nullable.ofRules g.rules g.rulesOf g.terminalCount g.symbols.size).rules.map (·.getD false)
  firstSets_eq : g.firstSets =
    First.ofRules g.rules.toList g.terminalCount (g.symbols.size - g.terminalCount) g.nullable

theorem rule_eq_getElem {g : Grammar} {r : RuleId} (hr : r < g.rules.size) : g.rule r = g.rules[r] := by
  simp [rule, Array.getD, hr]

theorem rule_eq_getD (g : Grammar) (r : RuleId) : g.rule r = g.rules.toList.getD r default := by
  rw [rule, Array.getD_eq_getD_getElem?, List.getD_eq_getElem?_getD, Array.getElem?_toList]

theorem mem_rules_iff {g : Grammar} {x : Rule} :
    x ∈ g.rules.toList ↔ ∃ r, r < g.rules.size ∧ g.rule r = x := by
  rw [Array.mem_toList_iff, Array.mem_iff_getElem]
  exact ⟨fun ⟨r, hr, hx⟩ => ⟨r, hr, by rw [rule_eq_getElem hr, hx]⟩,
    fun ⟨r, hr, hx⟩ => ⟨r, hr, by rw [← rule_eq_getElem hr, hx]⟩⟩

theorem wellFormed_of_prepare {d : Draft} {g : Grammar} (h : d.prepare = .ok g) : g.WellFormed := by
  unfold Draft.prepare at h
  cases hfirst : d.rules[0]? with
  | none => simp only [hfirst] at h; cases h
  | some firstRule =>
  simp only [hfirst] at h
  obtain ⟨_, _, h⟩ := ok_of_bind_ok h
  obtain ⟨terminals, hterminals, h⟩ := ok_of_bind_ok h
  obtain ⟨table, htable, h⟩ := ok_of_bind_ok h
  obtain ⟨start, hstart, h⟩ := ok_of_bind_ok h
  obtain ⟨rules, hrules, h⟩ := ok_of_bind_ok h
  obtain ⟨_, _, h⟩ := ok_of_bind_ok h
  obtain ⟨_, hcheck, h⟩ := ok_of_bind_ok h
  obtain ⟨hnum, hend⟩ := Draft.numberTerminals_numbered hterminals
  have hpos := (Array.getElem?_eq_some_iff.1 hend).1
  have grows := Draft.grows_numberNonterminals htable
  have numbered := grows.numbered hnum
  obtain ⟨hfound, hge⟩ := Draft.resolveStart_eq_ok_iff.1 hstart
  have resolved := Draft.resolveRules_resolved numbered (SymbolTable.resolve_lt numbered hfound)
    (Nat.lt_of_lt_of_le hpos grows.size_le) hrules
  have nonterminal := checkRules_eq_ok_iff.1 hcheck
  cases h
  have inRange : ∀ {r}, (hr : r < rules.size) → Draft.InRange table.symbols.size rules[r] :=
    fun hr => resolved.inRange _ (Array.getElem_mem hr)
  constructor
  case accept_lt => exact resolved.size_pos
  case rhs_accept => exact resolved.accept
  case rulePrecedence_accept =>
    rw [rulePrecedence, rule, resolved.precSymbol, Draft.lastTerminal?_accept hpos, Option.bind_some]
    show (table.symbols.getD SymbolId.endMarker default).precedence = none
    rw [Array.getD_eq_getD_getElem?, grows.symbol_eq hpos, hend]
    rfl
  case terminal_endMarker => exact decide_eq_true hpos
  case start_nonterminal => exact decide_eq_false (Nat.not_lt.2 hge)
  case terminalCount_le => exact grows.size_le
  case lhs_nonterminal =>
    intro r hr
    rw [lhs, rule_eq_getElem hr]
    exact decide_eq_false (nonterminal _ (by simp))
  case lhs_lt =>
    intro r hr
    rw [lhs, rule_eq_getElem hr]; exact (inRange hr).lhs_lt
  case rhs_lt =>
    intro r hr
    rw [rhs, rule_eq_getElem hr]; exact (inRange hr).rhs_lt
  case precSymbol_lt =>
    intro r hr
    rw [rule_eq_getElem hr]; exact (inRange hr).precSymbol_lt
  case rulesOf_eq =>
    intro X
    simp only [lhs, rule_eq_getD]
    rw [← Array.length_toList]
    exact Draft.getD_indexRules (fun r hr => (resolved.inRange r (Array.mem_toList_iff.1 hr)).lhs_lt) X
  case nullable_eq => rfl
  case nullableRules_eq => rfl
  case firstSets_eq => rfl

/-- Declarations define only well-formed grammars. -/
theorem wellFormed_of_define {decls : List Declaration} {g : Grammar}
    (h : Grammar.define decls = .ok g) : g.WellFormed := by
  obtain ⟨d, -, hd⟩ := ok_of_bind_ok h
  exact wellFormed_of_prepare hd

/-- A check that a definition passes is about the grammar that it gives. -/
theorem exists_define (decls : List Declaration) (check : Grammar → Bool)
    (h : (match Grammar.define decls with | .ok g => check g | .error _ => false) = true) :
    ∃ g, Grammar.define decls = .ok g ∧ check g = true := by
  cases hd : Grammar.define decls with
  | error e => rw [hd] at h; cases h
  | ok g => rw [hd] at h; exact ⟨g, rfl, h⟩

/-- The ends of sentences depend on their beginnings: `'e'` is an `E` or an `F` before
    the same tokens, but not after the same ones. -/
def crossing : List Declaration :=
  [.rule ⟨"S", ["'a'", "E", "'c'"], none, 1⟩, .rule ⟨"S", ["'a'", "F", "'d'"], none, 2⟩,
    .rule ⟨"S", ["'b'", "F", "'c'"], none, 3⟩, .rule ⟨"S", ["'b'", "E", "'d'"], none, 4⟩,
    .rule ⟨"E", ["'e'"], none, 5⟩, .rule ⟨"F", ["'e'"], none, 6⟩]

theorem WellFormed.mem_rulesOf {g : Grammar} (wf : g.WellFormed) {X : SymbolId} {r : RuleId} :
    r ∈ g.rulesOf X ↔ r < g.rules.size ∧ g.lhs r = X := by
  simp [wf.rulesOf_eq X]

end Grammar

end LRAutomata
