/-
  Where the accepting symbol and the end marker occur.

  The accepting rule should be the only place of the accepting symbol and the
  end marker (`Grammar.Augmented`).  The names of the two can be written in
  rules, though, and find the reserved symbols: the grammar is augmented as it
  should if and only if no declaration uses them (`Grammar.augmented_iff`).
-/
import LRAutomata.Proofs.Grammar.Numbering

namespace LRAutomata

/-- The names that find the end marker. -/
def endMarkerNames : List String :=
  ["YYEOF", "$end"]

/-- The rule does not mention the reserved symbols of the accepting rule. -/
structure RuleDecl.Plain (decl : RuleDecl) : Prop where
  lhs_ne : decl.lhs ≠ Draft.acceptName
  rhs_ne : Draft.acceptName ∉ decl.rhs
  endMarker_ne : ∀ name ∈ endMarkerNames, name ∉ decl.rhs

instance (decl : RuleDecl) : Decidable decl.Plain :=
  decidable_of_iff (decl.lhs ≠ Draft.acceptName ∧ Draft.acceptName ∉ decl.rhs ∧
    ∀ name ∈ endMarkerNames, name ∉ decl.rhs)
    ⟨fun ⟨h₁, h₂, h₃⟩ => ⟨h₁, h₂, h₃⟩, fun ⟨h₁, h₂, h₃⟩ => ⟨h₁, h₂, h₃⟩⟩

namespace Grammar

variable {decls : List Declaration} {g : Grammar} {name : String}

/-- The accepting symbol is the left-hand side of rule 0 only and stands on no
    right-hand side, and the end marker ends rule 0 and stands nowhere else. -/
structure Augmented (g : Grammar) : Prop where
  lhs_accept_iff : ∀ r < g.rules.size, g.lhs r = g.accept ↔ r = RuleId.accept
  accept_not_mem : ∀ r < g.rules.size, g.accept ∉ g.rhs r
  start_ne : g.start ≠ g.accept
  endMarker_iff : ∀ r < g.rules.size, ∀ i,
    (g.rhs r)[i]? = some SymbolId.endMarker ↔ r = RuleId.accept ∧ i + 1 = (g.rhs r).length

/-! ## The names of the reserved symbols -/

/-- What is found by a name has it as its name or as its alias. -/
theorem NumbersSymbols.name_of_find? (h : g.NumbersSymbols) {X : SymbolId}
    (hX : g.find? name = some X) : X < g.symbols.size ∧
      ((g.symbol X).name = name ∨ (g.symbol X).aliasName = some name) := by
  have lookup : ∀ {p : Symbol → Bool}, g.symbols.toList.findIdx? p = some X →
      X < g.symbols.size ∧ p (g.symbol X) = true := by
    intro p hp
    obtain ⟨hlt, hp, -⟩ := List.findIdx?_eq_some_iff_getElem.1 hp
    rw [Array.length_toList] at hlt
    rw [symbol_eq_getElem hlt]
    exact ⟨hlt, by simpa using hp⟩
  rw [h.find?_eq] at hX
  cases hname : g.symbols.toList.findIdx? (·.name = name) with
  | some Y =>
    rw [hname] at hX
    cases hX
    exact ⟨(lookup hname).1, .inl (of_decide_eq_true (lookup hname).2)⟩
  | none =>
    rw [hname] at hX
    exact ⟨(lookup hX).1, .inr (of_decide_eq_true (lookup hX).2)⟩

theorem NumbersSymbols.find?_accept_iff (h : g.NumbersSymbols) :
    g.find? name = some g.terminalCount ↔ name = Draft.acceptName := by
  constructor
  · intro hname
    obtain ⟨-, hname | halias⟩ := h.name_of_find? hname
    · rw [← hname, h.accept_name]
    · rw [h.aliasName_eq _ h.accept_lt (decide_eq_false (Nat.lt_irrefl _))] at halias
      cases halias
  · rintro rfl
    rw [← h.accept_name]
    exact h.find?_name _ h.accept_lt

/-- No symbol is called like the alias of the end marker, which is no identifier. -/
theorem NumbersSymbols.name_ne_end (h : g.NumbersSymbols) {X : SymbolId} (hX : X < g.symbols.size) :
    (g.symbol X).name ≠ "$end" := by
  intro heq
  by_cases haccept : X = g.terminalCount
  · rw [haccept, h.accept_name] at heq
    exact absurd heq (by decide)
  · have valid := h.name_valid X hX haccept
    rw [heq] at valid
    have invalid : ¬ SymbolTable.IsTerminalName "$end" := by
      unfold SymbolTable.IsTerminalName
      decide +kernel
    exact invalid valid

theorem NumbersSymbols.find?_endMarker_iff (h : g.NumbersSymbols) (wf : g.WellFormed) :
    g.find? name = some SymbolId.endMarker ↔ name ∈ endMarkerNames := by
  have hpos : SymbolId.endMarker < g.symbols.size :=
    Nat.lt_of_lt_of_le (of_decide_eq_true wf.terminal_endMarker) wf.terminalCount_le
  constructor
  · intro hname
    obtain ⟨-, hname | halias⟩ := h.name_of_find? hname
    · rw [h.endMarker_eq] at hname
      simp [endMarkerNames, ← hname, Draft.endMarkerSymbol]
    · rw [h.endMarker_eq] at halias
      simp [endMarkerNames, ← Option.some.inj halias]
  · intro hname
    rcases List.mem_pair.1 hname with rfl | rfl
    · have found := h.find?_name _ hpos
      rwa [h.endMarker_eq] at found
    · -- By its alias, since no symbol has that name.
      have none : g.symbols.toList.findIdx? (·.name = "$end") = none := by
        rw [List.findIdx?_eq_none_iff]
        intro s hs
        obtain ⟨X, hX, rfl⟩ := List.mem_iff_getElem.1 hs
        rw [Array.length_toList] at hX
        rw [Array.getElem_toList, ← symbol_eq_getElem hX]
        exact decide_eq_false (h.name_ne_end hX)
      have first : g.symbols.toList.findIdx? (·.aliasName = some "$end") = some SymbolId.endMarker := by
        rw [List.findIdx?_eq_some_iff_getElem]
        refine ⟨by simpa using hpos, ?_, fun Y hY => absurd hY (Nat.not_lt_zero _)⟩
        rw [Array.getElem_toList, ← symbol_eq_getElem hpos, h.endMarker_eq]
        rfl
      rw [h.find?_eq, none, first]
      rfl

/-! ## Augmented grammars -/

/-- The rule that a declaration is resolved to has the accepting symbol and the end
    marker exactly where the declaration has their names. -/
theorem plain_iff {decl : RuleDecl} {r : RuleId} (wf : g.WellFormed) (h : g.NumbersSymbols)
    (resolves : Draft.Resolves g.table g.terminalCount decl (g.rule r)) :
    decl.Plain ↔ g.lhs r ≠ g.terminalCount ∧ g.terminalCount ∉ g.rhs r ∧
      SymbolId.endMarker ∉ g.rhs r := by
  have mem_rhs_iff : ∀ X, X ∈ g.rhs r ↔ ∃ name ∈ decl.rhs, g.find? name = some X := by
    intro X
    have := congrArg (fun l => some X ∈ l) resolves.rhs_eq
    simpa [rhs, find?, eq_comm] using this.symm
  have lhs_iff : decl.lhs ≠ Draft.acceptName ↔ g.lhs r ≠ g.terminalCount := by
    rw [Ne, ← h.find?_accept_iff, show g.find? decl.lhs = some (g.lhs r) from resolves.lhs_eq,
      Option.some_inj]
  rw [mem_rhs_iff, mem_rhs_iff, ← lhs_iff]
  simp only [h.find?_accept_iff, h.find?_endMarker_iff wf]
  constructor
  · intro plain
    refine ⟨plain.lhs_ne, ?_, ?_⟩
    · rintro ⟨name, hname, rfl⟩; exact plain.rhs_ne hname
    · rintro ⟨name, hname, hend⟩; exact plain.endMarker_ne name hend hname
  · rintro ⟨hlhs, hrhs, hend⟩
    refine ⟨hlhs, fun hmem => ?_, fun name hname hmem => ?_⟩
    · exact hrhs ⟨_, hmem, rfl⟩
    · exact hend ⟨name, hmem, hname⟩

/-- The declared rules are plain if the rules after rule 0 have neither symbol. -/
theorem NumbersRules.forall_plain_iff (h : g.NumbersRules decls) (wf : g.WellFormed)
    (syms : g.NumbersSymbols) : (∀ decl ∈ Declaration.ruleDecls decls, decl.Plain) ↔
      ∀ r, RuleId.accept < r → r < g.rules.size →
        g.lhs r ≠ g.terminalCount ∧ g.terminalCount ∉ g.rhs r ∧ SymbolId.endMarker ∉ g.rhs r := by
  constructor
  · intro all r hpos hr
    obtain ⟨i, rfl⟩ := Nat.exists_eq_add_one.2 hpos
    have hi : i < (Declaration.ruleDecls decls).length :=
      Nat.lt_of_succ_lt_succ (Nat.lt_of_lt_of_eq hr h.size_eq)
    have hdecl := List.getElem?_eq_getElem hi
    exact (plain_iff wf syms (h.resolves i _ hdecl)).1 (all _ (List.getElem_mem hi))
  · intro all decl hdecl
    obtain ⟨i, hi⟩ := List.getElem?_of_mem hdecl
    refine (plain_iff wf syms (h.resolves i _ hi)).2 (all _ (Nat.succ_pos i) ?_)
    rw [h.size_eq]
    exact Nat.succ_lt_succ (List.getElem?_eq_some_iff.1 hi).1

/-- Rule 0 has the two symbols where they should be, unless the accepting symbol is
    the start symbol; so it is for the other rules to be without them. -/
theorem WellFormed.augmented_iff_forall (wf : g.WellFormed) : g.Augmented ↔ g.start ≠ g.accept ∧
    ∀ r, RuleId.accept < r → r < g.rules.size →
      g.lhs r ≠ g.accept ∧ g.accept ∉ g.rhs r ∧ SymbolId.endMarker ∉ g.rhs r := by
  constructor
  · intro aug
    refine ⟨aug.start_ne, fun r hpos hr => ⟨fun heq => ?_, aug.accept_not_mem r hr, fun hmem => ?_⟩⟩
    · exact Nat.ne_of_gt hpos ((aug.lhs_accept_iff r hr).1 heq)
    · obtain ⟨i, hi⟩ := List.getElem?_of_mem hmem
      exact Nat.ne_of_gt hpos ((aug.endMarker_iff r hr i).1 hi).1
  · rintro ⟨start_ne, other⟩
    have cases_rule : ∀ r, r = RuleId.accept ∨ RuleId.accept < r := fun r => Nat.eq_zero_or_pos r
    have nonterminal_ne : ∀ {X}, g.isTerminal X = false → X ≠ SymbolId.endMarker := by
      rintro X hX rfl
      rw [wf.terminal_endMarker] at hX
      cases hX
    have end_ne_start := nonterminal_ne wf.start_nonterminal
    have end_ne_accept : g.accept ≠ SymbolId.endMarker :=
      nonterminal_ne (wf.lhs_nonterminal wf.accept_lt)
    constructor
    case lhs_accept_iff =>
      intro r hr
      refine ⟨fun heq => ?_, fun heq => heq ▸ rfl⟩
      exact (cases_rule r).resolve_right fun hpos => (other r hpos hr).1 heq
    case accept_not_mem =>
      intro r hr
      rcases cases_rule r with rfl | hpos
      · rw [wf.rhs_accept]
        simp [start_ne.symm, end_ne_accept]
      · exact (other r hpos hr).2.1
    case start_ne => exact start_ne
    case endMarker_iff =>
      intro r hr i
      rcases cases_rule r with rfl | hpos
      · rw [wf.rhs_accept]
        match i with
        | 0 => simp [end_ne_start]
        | 1 => simp
        | i + 2 => simp
      · refine ⟨fun hi => absurd (List.mem_of_getElem? hi) (other r hpos hr).2.2, fun ⟨heq, _⟩ => ?_⟩
        exact absurd heq (Nat.ne_of_gt hpos)

/-- **A grammar is augmented as it should if and only if its declarations leave the
    accepting symbol and the end marker alone.** -/
theorem augmented_iff (h : g.DefinedBy decls) :
    g.Augmented ↔ Declaration.startName? decls ≠ some Draft.acceptName ∧
      ∀ decl ∈ Declaration.ruleDecls decls, decl.Plain := by
  obtain ⟨d, records, hd⟩ := h.exists_records
  have wf := wellFormed_of_prepare hd
  obtain ⟨syms, -, rules, -⟩ := numberedBy_of_prepare records hd
  have accept_eq : g.accept = g.terminalCount := by
    rw [accept, lhs, rules.accept_eq]
  obtain ⟨name, hname, hstart⟩ := Option.bind_eq_some_iff.1 rules.start_eq
  have start_iff : Declaration.startName? decls ≠ some Draft.acceptName ↔ g.start ≠ g.accept := by
    rw [hname, Ne, Option.some_inj, ← syms.find?_accept_iff, hstart, Option.some_inj, accept_eq]
  rw [start_iff, rules.forall_plain_iff wf syms, wf.augmented_iff_forall, accept_eq]

theorem augmented_iff_sums : ∃ g : Grammar, g.DefinedBy sums ∧ g.Augmented := by
  obtain ⟨g, hg, -⟩ := exists_define sums (fun _ => true) (by decide +kernel)
  exact ⟨g, .inl hg, (augmented_iff (.inl hg)).2 (by decide +kernel)⟩

/-- The end marker on the right-hand side of a declared rule. -/
def endMarkerUse : List Declaration :=
  [.rule ⟨"S", ["'a'", "YYEOF"], none, 1⟩]

theorem not_augmented : ∃ g, Grammar.define endMarkerUse = .ok g ∧ ¬ g.Augmented := by
  obtain ⟨g, hg, hcheck⟩ := exists_define endMarkerUse (fun g =>
    1 < g.rules.size ∧ (g.rhs 1)[1]? = some SymbolId.endMarker) (by decide +kernel)
  obtain ⟨hlt, hend⟩ := of_decide_eq_true hcheck
  exact ⟨g, hg, fun aug => absurd ((aug.endMarker_iff 1 hlt 1).1 hend).1 (by decide)⟩

end Grammar

end LRAutomata
