/-
  How the symbols and rules of a grammar are numbered.

  A completed draft has the reserved terminals first, then the other terminals,
  the accepting symbol, and the other nonterminals; token numbers are given out
  in this order.  Rule 0 is the accepting rule, and the other rules are those
  declared, in their order, with every name replaced by the symbol that it finds
  (`Grammar.NumberedBy`).  All numbers that a grammar stores are in range
  (`Grammar.InRange`).
-/
import Mathlib.Data.List.Forall2
import LRAutomata.Proofs.Grammar.Declarations
import LRAutomata.Proofs.Grammar.First
import LRAutomata.Proofs.Grammar.SymbolTable

namespace LRAutomata

open Text

/-! ## The two phases of the symbol table -/

/-- The names of the reserved terminals, in the order of their numbers. -/
def reservedNames : List String :=
  ["YYEOF", "YYerror", "YYUNDEF"]

/-- Whether the terminal of that name gets its token number automatically: of
    the reserved terminals all but the end marker, and otherwise those that are
    no literals and whose declarations give no number. -/
def isAutomatic (decls : List Declaration) (name : String) : Bool :=
  if name ∈ reservedNames then name ≠ "YYEOF"
  else !CharLiteral.isLiteral name && !decls.any (Declaration.givesToken name)

namespace Draft

variable {decls : List Declaration} {d : Draft} {t t₀ : SymbolTable} {name : String}

theorem isTerminalName_of_valid (valid : terminalNameError? name = none) :
    SymbolTable.IsTerminalName name := by
  unfold terminalNameError? at valid
  split at valid
  · rename_i h; exact .inl h
  · split at valid
    · rename_i h; exact .inr h
    · cases valid

/-- A table of terminals that begins with the reserved ones. -/
structure TerminalPhase (decls : List Declaration) (t : SymbolTable) : Prop where
  table : t.TerminalTable (isAutomatic decls)
  reserved : reservedNames <+: t.names

theorem TerminalPhase.not_mem_reserved (h : TerminalPhase decls t)
    (hnew : t.byName.contains name = false) : name ∉ reservedNames :=
  fun hmem => h.table.indexed.not_mem hnew (h.reserved.subset hmem)

theorem TerminalPhase.addTerminal {t' : SymbolTable} {aliasName : Option String} {token : Option Nat}
    {precedence : Option Precedence} (h : TerminalPhase decls t)
    (valid : SymbolTable.IsTerminalName name)
    (htoken : (!CharLiteral.isLiteral name && !decls.any (Declaration.givesToken name)) =
      (token.isNone && !CharLiteral.isLiteral name))
    (ht : t.addTerminal name aliasName token precedence = .ok t') : TerminalPhase decls t' := by
  refine ⟨h.table.addTerminal valid (fun hnew => ?_) ht, ?_⟩
  · rw [isAutomatic, if_neg (h.not_mem_reserved hnew), htoken]
  · rw [h.table.indexed.names_addTerminal ht]
    split
    · exact h.reserved
    · exact h.reserved.trans (List.prefix_append _ _)

theorem terminalPhase_of_numberTerminals (records : Records decls d)
    (h : d.numberTerminals = .ok t) : TerminalPhase decls t := by
  refine keeps_numberTerminals (fun t₁ t₂ t₃ h₁ h₂ h₃ => ?reserved)
    (fun entry hentry t t' ht hstep => ?declared) (fun name literal t t' ht hstep => ?literal) h
  case reserved =>
    have table₁ : t₁.TerminalTable (isAutomatic decls) :=
      (SymbolTable.terminalTable_empty _).addTerminal (.inr (by decide +kernel))
        (fun _ => by simp [isAutomatic, reservedNames]) h₁
    have literal₂ : CharLiteral.isLiteral "YYerror" = false := by decide +kernel
    have table₂ := table₁.addTerminal (.inr (by decide +kernel))
        (fun _ => by simp [isAutomatic, reservedNames, literal₂]) h₂
    have literal₃ : CharLiteral.isLiteral "YYUNDEF" = false := by decide +kernel
    have table₃ := table₂.addTerminal (.inr (by decide +kernel))
        (fun _ => by simp [isAutomatic, reservedNames, literal₃]) h₃
    have names₁ := SymbolTable.indexed_empty.names_addTerminal h₁
    have names₂ := table₁.indexed.names_addTerminal h₂
    have names₃ := table₂.indexed.names_addTerminal h₃
    refine ⟨table₃, ?_⟩
    rw [names₃, names₂, names₁]
    simp [SymbolTable.names, SymbolTable.empty, reservedNames]
  case declared =>
    obtain ⟨valid, token_isSome⟩ := records.of_mem_terminals hentry
    refine ht.addTerminal (isTerminalName_of_valid valid) ?_ hstep
    rw [← token_isSome, Option.not_isSome, Bool.and_comm]
  case literal => exact ht.addTerminal (.inl literal) (by simp [literal]) hstep

/-- Nonterminals after the terminals, the accepting symbol first. -/
structure NonterminalPhase (t₀ t : SymbolTable) : Prop where
  table : t₀.NonterminalsAfter t
  accept : t₀.names ++ [acceptName] <+: t.names
  name_valid : ∀ name ∈ t.names, name = acceptName ∨ SymbolTable.IsTerminalName name

theorem NonterminalPhase.addNonterminal {t' : SymbolTable} (h : NonterminalPhase t₀ t)
    (valid : isIdentifier name = true) (ht : t.addNonterminal name = .ok t') :
    NonterminalPhase t₀ t' := by
  have names_eq := h.table.indexed.names_addNonterminal ht
  refine ⟨h.table.addNonterminal ht, ?_, ?_⟩ <;> rw [names_eq] <;> split
  · exact h.accept
  · exact h.accept.trans (List.prefix_append _ _)
  · exact h.name_valid
  · intro other hother
    rcases List.mem_append.1 hother with hold | hnew
    · exact h.name_valid other hold
    · rw [List.mem_singleton.1 hnew]; exact .inr (.inr valid)

/-- No terminal has the name of the accepting symbol. -/
theorem TerminalPhase.not_mem_acceptName (h : TerminalPhase decls t) : acceptName ∉ t.names := by
  intro hmem
  obtain ⟨s, hs, hname⟩ := List.mem_map.1 hmem
  have invalid : ¬ SymbolTable.IsTerminalName acceptName := by
    unfold SymbolTable.IsTerminalName
    decide +kernel
  exact invalid (hname ▸ h.table.name_valid s hs)

theorem isIdentifier_of_valid (valid : nonterminalNameError? name = none) :
    isIdentifier name = true := by
  unfold nonterminalNameError? at valid
  split at valid
  · assumption
  · cases valid

/-- The nonterminals other than the accepting symbol are identifiers. -/
theorem Records.isIdentifier_of_nonterminal (records : Records decls d)
    (hname : name ∈ d.nonterminals.toList ∨ isIdentifier name = true) : isIdentifier name = true :=
  hname.elim (fun declared => isIdentifier_of_valid (records.nonterminal_valid name declared)) id

theorem nonterminalPhase_of_numberNonterminals (records : Records decls d)
    (h₀ : TerminalPhase decls t₀)
    (h : d.numberNonterminals t₀ = .ok t) : NonterminalPhase t₀ t := by
  refine keeps_numberNonterminals (fun t₁ h₁ => ?accept) (fun name hname _ _ ht hstep => ?step) h
  case accept =>
    have names_eq := h₀.table.indexed.names_addNonterminal h₁
    rw [if_neg h₀.not_mem_acceptName] at names_eq
    refine ⟨(SymbolTable.NonterminalsAfter.refl h₀.table.indexed
      h₀.table.nonterminalCount_eq).addNonterminal h₁, ?_, fun name hname => ?_⟩
    · exact ⟨[], by rw [names_eq, List.append_nil]⟩
    · rw [names_eq] at hname
      rcases List.mem_append.1 hname with hterminal | haccept
      · obtain ⟨s, hs, rfl⟩ := List.mem_map.1 hterminal
        exact .inr (h₀.table.name_valid s hs)
      · exact .inl (List.mem_singleton.1 haccept)
  case step => exact ht.addNonterminal (records.isIdentifier_of_nonterminal hname) hstep

/-! ## Names replaced by numbers -/

theorem map_find?_of_mapM_resolve : ∀ {names : List String} {ids : List SymbolId},
    names.mapM t.resolve = .ok ids → names.map t.find? = ids.map some
  | [], ids, h => by cases h; rfl
  | name :: names, ids, h => by
    obtain ⟨id, hid, h⟩ := ok_of_bind_ok (by simpa only [List.mapM_cons] using h)
    obtain ⟨ids', hids, h⟩ := ok_of_bind_ok h
    cases h
    rw [List.map_cons, List.map_cons, SymbolTable.resolve_eq_ok_iff.1 hid, map_find?_of_mapM_resolve hids]

/-- A rule in which every name is replaced by the symbol that it finds; without
    `%prec` it takes the precedence of its last terminal. -/
structure Resolves (t : SymbolTable) (terminalCount : Nat) (decl : RuleDecl) (r : Rule) : Prop where
  lhs_eq : t.find? decl.lhs = some r.lhs
  rhs_eq : decl.rhs.map t.find? = r.rhs.map some
  precSymbol_eq : match decl.prec with
    | some name => r.precSymbol.isSome = true ∧ t.find? name = r.precSymbol
    | none => r.precSymbol = (r.rhs.filter (· < terminalCount)).getLast?
  line_eq : r.line = decl.line

theorem lastTerminal?_eq (n : Nat) (symbols : List SymbolId) :
    lastTerminal? n symbols = (symbols.filter (· < n)).getLast? := by
  rw [lastTerminal?, ← List.head?_filter, List.filter_reverse, List.head?_reverse]

theorem resolves_of_resolveRule {n : Nat} {decl : RuleDecl} {r : Rule}
    (h : resolveRule t n decl = .ok r) : Resolves t n decl r := by
  obtain ⟨hlhs, hrhs, hprec, hline⟩ := resolveRule_eq_ok_iff.1 h
  refine ⟨SymbolTable.resolve_eq_ok_iff.1 hlhs, map_find?_of_mapM_resolve hrhs, ?_, hline⟩
  cases hp : decl.prec with
  | none =>
    simp only [hp] at hprec
    exact hprec.trans (lastTerminal?_eq n r.rhs)
  | some name =>
    simp only [hp] at hprec
    obtain ⟨X, hX, hprec⟩ := hprec
    rw [hprec]
    exact ⟨rfl, SymbolTable.resolve_eq_ok_iff.1 hX⟩

theorem resolves_of_resolveRules {n : Nat} {start : SymbolId} {ruleDecls : List RuleDecl}
    {rules : Array Rule} (h : resolveRules t n start ruleDecls = .ok rules) :
    ∃ accept numbered, t.find? acceptName = some accept ∧
      rules.toList = ⟨accept, [start, SymbolId.endMarker],
        lastTerminal? n [start, SymbolId.endMarker], 0⟩ :: numbered ∧
      List.Forall₂ (Resolves t n) ruleDecls numbered := by
  obtain ⟨accept, numbered, haccept, hrules, hall, -⟩ := resolveRules_eq_ok_iff.1 h
  exact ⟨accept, numbered, SymbolTable.resolve_eq_ok_iff.1 haccept, hrules,
    hall.imp fun _ _ => resolves_of_resolveRule⟩

/-! ## Completed drafts -/

/-- What the parts of a completed draft are made of. -/
structure Completes (d : Draft) (terminals : SymbolTable) (g : Grammar) : Prop where
  terminals_eq : d.numberTerminals = .ok terminals
  terminalCount_eq : g.terminalCount = terminals.symbols.size
  table_eq : d.numberNonterminals terminals = .ok g.table
  start_eq : ∃ first, d.rules[0]? = some first ∧
    d.resolveStart g.table g.terminalCount first.lhs = .ok g.start
  rules_eq : resolveRules g.table g.terminalCount g.start d.rules.toList = .ok g.rules
  rulesBySymbol_eq : g.rulesBySymbol = indexRules g.symbols.size g.rules.toList
  aliases_ok : checkAliases g.symbols.toList = .ok ()
  expect_eq : g.expect = d.expect
  expectReduceReduce_eq : g.expectReduceReduce = d.expectReduceReduce
  settings_eq : g.settings = d.settings

theorem completes_of_prepare {g : Grammar} (h : d.prepare = .ok g) :
    ∃ terminals, d.Completes terminals g := by
  unfold prepare at h
  cases hfirst : d.rules[0]? with
  | none => simp only [hfirst] at h; cases h
  | some first =>
  simp only [hfirst] at h
  obtain ⟨_, hok, h⟩ := ok_of_bind_ok h
  cases hok
  obtain ⟨terminals, hterminals, h⟩ := ok_of_bind_ok h
  obtain ⟨table, htable, h⟩ := ok_of_bind_ok h
  obtain ⟨start, hstart, h⟩ := ok_of_bind_ok h
  obtain ⟨rules, hrules, h⟩ := ok_of_bind_ok h
  obtain ⟨_, haliases, h⟩ := ok_of_bind_ok h
  obtain ⟨_, -, h⟩ := ok_of_bind_ok h
  cases h
  exact ⟨terminals, hterminals, rfl, htable, ⟨first, hfirst, hstart⟩, hrules, rfl, haliases, rfl, rfl,
    rfl⟩

end Draft

namespace Grammar

variable {decls : List Declaration} {g : Grammar}

/-! ## Numbered grammars -/

/-- Terminals come first, beginning with the reserved ones, then the accepting
    symbol and the other nonterminals; only terminals have aliases.  No two symbols
    have the same name, and a name finds the symbol that has it, or else the first
    that has it as its alias. -/
structure NumbersSymbols (g : Grammar) : Prop where
  isTerminal_eq : ∀ X < g.symbols.size, (g.symbol X).isTerminal = g.isTerminal X
  aliasName_eq : ∀ X < g.symbols.size, g.isTerminal X = false → (g.symbol X).aliasName = none
  endMarker_eq : g.symbol SymbolId.endMarker = Draft.endMarkerSymbol
  reserved : reservedNames <+: g.terminals.map fun X => (g.symbol X).name
  accept_lt : g.terminalCount < g.symbols.size
  accept_name : (g.symbol g.terminalCount).name = Draft.acceptName
  name_valid : ∀ X < g.symbols.size, X ≠ g.terminalCount →
    SymbolTable.IsTerminalName (g.symbol X).name
  names_nodup : (g.symbols.toList.map Symbol.name).Nodup
  /-- The number stored for a name is the place of the symbol that has it. -/
  number_eq : ∀ name X, g.table.byName[name]? = some X ↔
    X < g.symbols.size ∧ (g.symbol X).name = name
  find?_name : ∀ X < g.symbols.size, g.find? (g.symbol X).name = some X
  find?_eq : ∀ name, g.find? name = (g.symbols.toList.findIdx? (·.name = name) <|>
    g.symbols.toList.findIdx? (·.aliasName = some name))

/-- The automatic token numbers of terminals count from `firstToken` on, and
    those of nonterminals from 0 on. -/
structure NumbersTokens (decls : List Declaration) (g : Grammar) : Prop where
  automatic : let symbols := (g.terminals.map g.symbol).filter (isAutomatic decls ·.name)
    symbols.map Symbol.token = List.range' SymbolTable.firstToken symbols.length
  nonterminal : g.nonterminals.map (fun X => (g.symbol X).token) = List.range g.nonterminalCount

/-- Rule 0 produces the start symbol and the end marker from the accepting
    symbol; the declared rules follow in their order. -/
structure NumbersRules (decls : List Declaration) (g : Grammar) : Prop where
  start_eq : (Declaration.startName? decls).bind g.find? = some g.start
  accept_eq : g.rule RuleId.accept =
    ⟨g.terminalCount, [g.start, SymbolId.endMarker], some SymbolId.endMarker, 0⟩
  size_eq : g.rules.size = (Declaration.ruleDecls decls).length + 1
  resolves : ∀ i decl, (Declaration.ruleDecls decls)[i]? = some decl →
    Draft.Resolves g.table g.terminalCount decl (g.rule (i + 1))
  lhs_nonterminal : ∀ r < g.rules.size, g.isTerminal (g.lhs r) = false
  rulesOf_eq : ∀ X, g.rulesOf X = (List.range g.rules.size).filter fun r => g.lhs r = X

/-- The numbers that a grammar stores are those of symbols and rules of it. -/
structure InRange (g : Grammar) : Prop where
  start_lt : g.start < g.symbols.size
  rule_inRange : ∀ r < g.rules.size, Draft.InRange g.symbols.size (g.rule r)
  rulesBySymbol_size : g.rulesBySymbol.size = g.symbols.size
  rulesOf_lt : ∀ X, ∀ r ∈ g.rulesOf X, r < g.rules.size
  nullable_lt : ∀ X ∈ g.nullable, X < g.symbols.size
  firstSets_size : g.firstSets.size = g.nonterminalCount
  first_lt : ∀ X, ∀ t ∈ g.first X, t < g.terminalCount

/-- A grammar as the declarations number it. -/
structure NumberedBy (decls : List Declaration) (g : Grammar) : Prop where
  symbols : g.NumbersSymbols
  tokens : g.NumbersTokens decls
  rules : g.NumbersRules decls
  inRange : g.InRange

theorem map_symbol_range (g : Grammar) : (List.range g.symbols.size).map g.symbol = g.symbols.toList :=
  List.ext_getElem (by simp) fun n h₁ h₂ => by
    have hn : n < g.symbols.size := by simpa using h₁
    simp [symbol, Array.getD, hn]

theorem map_symbol_terminals (h : g.terminalCount ≤ g.symbols.size) :
    g.terminals.map g.symbol = g.symbols.toList.take g.terminalCount := by
  rw [← map_symbol_range, ← List.map_take, List.take_range, Nat.min_eq_left h, terminals]

theorem map_symbol_nonterminals (g : Grammar) :
    g.nonterminals.map g.symbol = g.symbols.toList.drop g.terminalCount := by
  rw [← map_symbol_range, ← List.map_drop, nonterminals]

theorem symbol_eq_getElem {X : SymbolId} (hX : X < g.symbols.size) : g.symbol X = g.symbols[X] := by
  simp [symbol, Array.getD, hX]

variable {d : Draft} {terminals : SymbolTable}

theorem mem_nonterminals {X : Nat} :
    X ∈ g.nonterminals ↔ g.terminalCount ≤ X ∧ X < g.symbols.size := by
  rw [nonterminals, List.range_eq_range', List.drop_range', List.mem_range'_1]
  omega

/-- The terminals of a completed draft are those numbered in the first phase, the
    nonterminals those added in the second. -/
theorem symbols_of_completes (wf : g.WellFormed) (h : d.Completes terminals g) {added : List Symbol}
    (symbols_eq : g.table.symbols.toList = terminals.symbols.toList ++ added) :
    g.terminals.map g.symbol = terminals.symbols.toList ∧ g.nonterminals.map g.symbol = added := by
  rw [map_symbol_terminals wf.terminalCount_le, map_symbol_nonterminals, symbols, symbols_eq,
    h.terminalCount_eq, ← Array.length_toList, List.take_left, List.drop_left]
  exact ⟨rfl, rfl⟩

/-- The accepting symbol comes right after the terminals. -/
theorem accept_of_completes (h : d.Completes terminals g)
    (phase : Draft.NonterminalPhase terminals g.table) : g.terminalCount < g.symbols.size ∧
      (g.symbol g.terminalCount).name = Draft.acceptName := by
  obtain ⟨rest, hrest⟩ := phase.accept
  have found : g.table.names[g.terminalCount]? = some Draft.acceptName := by
    rw [← hrest, h.terminalCount_eq]
    simp [SymbolTable.names]
  obtain ⟨hlt, hname⟩ := List.getElem?_eq_some_iff.1 found
  rw [SymbolTable.names, List.length_map, Array.length_toList] at hlt
  refine ⟨hlt, ?_⟩
  rw [symbol_eq_getElem hlt, ← hname]
  simp [SymbolTable.names, symbols]

theorem numbersSymbols_of_completes (wf : g.WellFormed) (records : Draft.Records decls d)
    (h : d.Completes terminals g) : g.NumbersSymbols := by
  have first := Draft.terminalPhase_of_numberTerminals records h.terminals_eq
  have second := Draft.nonterminalPhase_of_numberNonterminals records first h.table_eq
  obtain ⟨added, symbols_eq, nonterminal, -⟩ := second.table.symbols_eq
  obtain ⟨terminals_eq, nonterminals_eq⟩ := symbols_of_completes wf h symbols_eq
  obtain ⟨accept_lt, accept_name⟩ := accept_of_completes h second
  have find?_name : ∀ X < g.symbols.size, g.find? (g.symbol X).name = some X := by
    intro X hX
    rw [symbol_eq_getElem hX]
    exact second.table.indexed.find?_name hX
  have added_of_nonterminal : ∀ X < g.symbols.size, g.isTerminal X = false → g.symbol X ∈ added := by
    intro X hX hterm
    rw [← nonterminals_eq]
    exact List.mem_map_of_mem (mem_nonterminals.2 ⟨Nat.le_of_not_lt (of_decide_eq_false hterm), hX⟩)
  constructor
  case isTerminal_eq =>
    intro X hX
    cases hterm : g.isTerminal X with
    | true =>
      refine first.table.isTerminal _ ?_
      rw [← terminals_eq]
      exact List.mem_map_of_mem (List.mem_range.2 (of_decide_eq_true hterm))
    | false => exact (nonterminal _ (added_of_nonterminal X hX hterm)).1
  case aliasName_eq => exact fun X hX hterm => (nonterminal _ (added_of_nonterminal X hX hterm)).2
  case endMarker_eq =>
    have hend := ((Draft.grows_numberNonterminals h.table_eq).numbered_and
      (Draft.numberTerminals_numbered h.terminals_eq)).2
    rw [symbol, symbols, Array.getD_eq_getD_getElem?, hend, Option.getD_some]
  case reserved =>
    have names_eq : (g.terminals.map fun X => (g.symbol X).name) = terminals.names := by
      rw [SymbolTable.names, ← terminals_eq, List.map_map]
      rfl
    rw [names_eq]
    exact first.reserved
  case accept_lt => exact accept_lt
  case accept_name => exact accept_name
  case name_valid =>
    intro X hX hne
    have mem : (g.symbol X).name ∈ g.table.names :=
      List.mem_map_of_mem (by rw [symbol_eq_getElem hX]; exact Array.getElem_mem_toList hX)
    refine (second.name_valid _ mem).resolve_left fun haccept => hne ?_
    have found := find?_name X hX
    rw [haccept, ← accept_name, find?_name _ accept_lt] at found
    exact (Option.some.inj found).symm
  case names_nodup => exact second.table.indexed.nodup
  case number_eq =>
    intro name X
    rw [second.table.indexed.byName_eq_some_iff]
    constructor
    · rintro ⟨hX, rfl⟩
      exact ⟨hX, congrArg Symbol.name (symbol_eq_getElem hX)⟩
    · rintro ⟨hX, rfl⟩
      exact ⟨hX, congrArg Symbol.name (symbol_eq_getElem hX).symm⟩
  case find?_name => exact find?_name
  case find?_eq => exact second.table.indexed.find?_eq

theorem numbersTokens_of_completes (wf : g.WellFormed) (records : Draft.Records decls d)
    (h : d.Completes terminals g) : g.NumbersTokens decls := by
  have first := Draft.terminalPhase_of_numberTerminals records h.terminals_eq
  have second := Draft.nonterminalPhase_of_numberNonterminals records first h.table_eq
  obtain ⟨added, symbols_eq, -, tokens_eq⟩ := second.table.symbols_eq
  obtain ⟨terminals_eq, nonterminals_eq⟩ := symbols_of_completes wf h symbols_eq
  constructor
  case automatic =>
    rw [terminals_eq]
    have tokens := first.table.tokens
    have length_eq := congrArg List.length tokens
    rw [List.length_map, List.length_range'] at length_eq
    simp only [length_eq]
    exact tokens
  case nonterminal =>
    have map_eq : (g.nonterminals.map fun X => (g.symbol X).token) = added.map Symbol.token := by
      rw [← nonterminals_eq, List.map_map]
      rfl
    have length_eq := congrArg List.length tokens_eq
    rw [List.length_map, List.length_range, ← nonterminals_eq, List.length_map, nonterminals,
      List.length_drop, List.length_range] at length_eq
    rw [map_eq, tokens_eq, ← length_eq, nonterminalCount]

/-- The rules after the accepting one are those that the declared ones are resolved to. -/
theorem resolveRule_of_completes (h : d.Completes terminals g) {i : Nat}
    {decl : RuleDecl} (hdecl : d.rules.toList[i]? = some decl) :
    Draft.resolveRule g.table g.terminalCount decl = .ok (g.rule (i + 1)) := by
  obtain ⟨accept, numbered, -, rules_eq, resolves, -⟩ := Draft.resolveRules_eq_ok_iff.1 h.rules_eq
  obtain ⟨hi, rfl⟩ := List.getElem?_eq_some_iff.1 hdecl
  have hi' : i < numbered.length := resolves.length_eq ▸ hi
  rw [rule_eq_getD, rules_eq, List.getD_cons_succ, List.getD_eq_getElem?_getD,
    List.getElem?_eq_getElem hi', Option.getD_some]
  exact resolves.get hi hi'

theorem numbersRules_of_completes (wf : g.WellFormed) (syms : g.NumbersSymbols)
    (records : Draft.Records decls d) (h : d.Completes terminals g) : g.NumbersRules decls := by
  obtain ⟨accept, numbered, haccept, rules_eq, resolves⟩ := Draft.resolves_of_resolveRules h.rules_eq
  rw [records.rules_eq] at resolves
  have accept_found : accept = g.terminalCount := by
    have found := syms.find?_name _ syms.accept_lt
    rw [syms.accept_name] at found
    exact Option.some.inj (haccept.symm.trans found)
  constructor
  case start_eq =>
    obtain ⟨firstRule, hfirst, hstart⟩ := h.start_eq
    obtain ⟨hX, -⟩ := Draft.resolveStart_eq_ok_iff.1 hstart
    have head_eq : (Declaration.ruleDecls decls).head? = some firstRule := by
      rw [← records.rules_eq, List.head?_eq_getElem?, Array.getElem?_toList, hfirst]
    rw [Declaration.startName?, ← records.start_eq, head_eq]
    cases hname : d.start with
    | none => rw [hname] at hX; exact SymbolTable.resolve_eq_ok_iff.1 hX
    | some name => rw [hname] at hX; exact SymbolTable.resolve_eq_ok_iff.1 hX
  case accept_eq =>
    rw [rule_eq_getD, rules_eq, accept_found,
      Draft.lastTerminal?_accept (of_decide_eq_true wf.terminal_endMarker)]
    rfl
  case size_eq =>
    rw [← Array.length_toList, rules_eq, List.length_cons, resolves.length_eq]
  case resolves =>
    intro i decl hdecl
    rw [← records.rules_eq] at hdecl
    exact Draft.resolves_of_resolveRule (resolveRule_of_completes h hdecl)
  case lhs_nonterminal => exact fun r hr => wf.lhs_nonterminal hr
  case rulesOf_eq => exact wf.rulesOf_eq

theorem inRange_of_completes (wf : g.WellFormed) (h : d.Completes terminals g) : g.InRange := by
  constructor
  case start_lt => exact wf.rhs_lt wf.accept_lt _ (by rw [wf.rhs_accept]; simp)
  case rule_inRange => exact fun r hr => ⟨wf.lhs_lt hr, wf.rhs_lt hr, wf.precSymbol_lt hr⟩
  case rulesBySymbol_size => rw [h.rulesBySymbol_eq, Draft.indexRules, Draft.size_indexRules]
  case rulesOf_lt => exact fun X r hr => (wf.mem_rulesOf.1 hr).1
  case nullable_lt =>
    intro X hX
    rcases Derives.head_rule (wf.mem_nullable_iff.1 hX) with h | ⟨r, hr, rfl, -⟩
    · cases h
    · exact wf.lhs_lt hr
  case firstSets_size => exact wf.size_firstSets
  case first_lt =>
    intro X t ht
    have terminal := wf.firstSets_keeps (P := fun _ t => t < g.terminalCount)
      fun _ _ _ hs _ => isTerminal_of_mem_ofString hs
    exact isTerminal_of_mem_ofString terminal (α := [X]) (First.mem_ofString_cons.2 (.inl ht))

theorem numberedBy_of_prepare (records : Draft.Records decls d) (h : d.prepare = .ok g) :
    g.NumberedBy decls := by
  have wf := wellFormed_of_prepare h
  obtain ⟨terminals, completes⟩ := Draft.completes_of_prepare h
  have syms := numbersSymbols_of_completes wf records completes
  exact ⟨syms, numbersTokens_of_completes wf records completes,
    numbersRules_of_completes wf syms records completes, inRange_of_completes wf completes⟩

/-- The declarations give the grammar: all succeed, or those that fail are passed over. -/
def DefinedBy (decls : List Declaration) (g : Grammar) : Prop :=
  Grammar.define decls = .ok g ∨ (Draft.empty.declareEach decls).1.prepare = .ok g

theorem DefinedBy.exists_records (h : g.DefinedBy decls) :
    ∃ d, Draft.Records decls d ∧ d.prepare = .ok g := by
  rcases h with h | h
  · obtain ⟨d, hd, h⟩ := ok_of_bind_ok h
    exact ⟨d, Draft.records_of_declareAll hd, h⟩
  · exact ⟨_, Draft.records_declareEach, h⟩

/-- **A grammar is numbered as it was declared.** -/
theorem numbered_as_declared (h : g.DefinedBy decls) : g.NumberedBy decls := by
  obtain ⟨d, records, hd⟩ := h.exists_records
  exact numberedBy_of_prepare records hd

/-- A list of sums, with an alias, a token number, literals and `%prec`. -/
def sums : List Declaration :=
  [.precedence .left ["'+'"], .terminal "NUM" (some "number") none, .terminal "ID" none (some 300),
    .nonterminal "list", .start "list", .rule ⟨"sum", ["sum", "'+'", "number"], none, 1⟩,
    .rule ⟨"sum", ["ID", "';'"], some "'-'", 2⟩, .rule ⟨"list", ["list", "sum"], none, 3⟩,
    .rule ⟨"list", [], none, 4⟩]

theorem numbered_as_declared_sums : ∃ g, Grammar.define sums = .ok g ∧ g.NumberedBy sums ∧
    g.symbols.toList.map Symbol.token = [0, 256, 257, 43, 258, 300, 59, 45, 0, 1, 2] ∧
    g.rules.toList.map Rule.precSymbol = [some 0, some 4, some 7, none, none] := by
  obtain ⟨g, hg, hcheck⟩ := exists_define sums (fun g =>
    g.symbols.toList.map Symbol.token = [0, 256, 257, 43, 258, 300, 59, 45, 0, 1, 2] ∧
    g.rules.toList.map Rule.precSymbol = [some 0, some 4, some 7, none, none]) (by decide +kernel)
  exact ⟨g, hg, numbered_as_declared (.inl hg), of_decide_eq_true hcheck⟩

end Grammar

end LRAutomata
