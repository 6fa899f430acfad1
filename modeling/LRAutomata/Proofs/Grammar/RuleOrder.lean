/-
  Grammars whose rules are declared in another order.

  Two sequences of declarations that name the start symbol and differ in the order
  of their rules only (`Declaration.Reordered`) define grammars that differ in
  their numbers only: if one can be completed, so can the other
  (`Grammar.define_reordered`).  Literals that occur only in rules, left-hand sides
  that are not declared, and the rules themselves are numbered as they come; the
  other symbols keep their numbers.
-/
import LRAutomata.Proofs.Grammar.SymbolOrder

namespace LRAutomata

open Text

namespace Declaration

variable {decls decls' : List Declaration}

/-- The declarations that declare no rule. -/
def others (decls : List Declaration) : List Declaration :=
  decls.filter fun decl => decl.rule?.isNone

/-- The declarations choose a start symbol, and they are the same but for the order
    of the rules. -/
structure Reordered (decls decls' : List Declaration) : Prop where
  rules_perm : (ruleDecls decls).Perm (ruleDecls decls')
  others_eq : others decls' = others decls
  start_chosen : ∃ name, start name ∈ decls

theorem ruleDecls_others (decls : List Declaration) : ruleDecls (others decls) = [] := by
  rw [ruleDecls, List.filterMap_eq_nil_iff]
  intro decl hdecl
  exact Option.isNone_iff_eq_none.1 (List.mem_filter.1 hdecl).2

theorem start_mem_others {name : String} : start name ∈ others decls ↔ start name ∈ decls := by
  simp [others, rule?]

theorem Reordered.symm (h : Reordered decls decls') : Reordered decls' decls := by
  refine ⟨h.rules_perm.symm, h.others_eq.symm, ?_⟩
  obtain ⟨name, hname⟩ := h.start_chosen
  exact ⟨name, by rwa [← start_mem_others, h.others_eq, start_mem_others]⟩

end Declaration

namespace Draft

open Declaration SymbolTable

variable {d d' : Draft} {decl : Declaration} {rules rules' : List RuleDecl}

/-! ## Rules added to a draft -/

/-- The draft with more rules. -/
def addRules (d : Draft) (rules : List RuleDecl) : Draft :=
  { d with rules := d.rules ++ rules.toArray }

@[simp] theorem addRules_nil (d : Draft) : d.addRules [] = d := by
  simp [addRules]

theorem toList_addRules (hd : d.rules = #[]) (rules : List RuleDecl) :
    (d.addRules rules).rules.toList = rules := by
  simp [addRules, hd]

@[simp] theorem addRules_addRules (d : Draft) (rules rules' : List RuleDecl) :
    (d.addRules rules).addRules rules' = d.addRules (rules ++ rules') := by
  simp [addRules]

theorem assignPrecedence_addRules (p : Precedence) (rules : List RuleDecl) :
    ∀ (names : List String) (d : Draft), assignPrecedence p (d.addRules rules) names =
      ((assignPrecedence p d names).1.addRules rules, (assignPrecedence p d names).2)
  | [], _ => rfl
  | name :: names, d => by
    unfold assignPrecedence
    split
    · rfl
    · exact assignPrecedence_addRules p rules names
        (d.declareTerminal name fun decl => { decl with precedence := some p })

/-- The other declarations do not look at the rules. -/
theorem declare_addRules (hdecl : decl.rule? = none) (d : Draft) (rules : List RuleDecl) :
    (d.addRules rules).declare decl = ((d.declare decl).1.addRules rules, (d.declare decl).2) := by
  cases decl with
  | rule => cases hdecl
  | precedence assoc names =>
    exact assignPrecedence_addRules ⟨d.nextLevel, assoc⟩ rules names
      { d with nextLevel := d.nextLevel + 1 }
  | terminal name =>
    simp only [declare]
    cases terminalNameError? name <;> rfl
  | nonterminal name =>
    simp only [declare]
    cases nonterminalNameError? name <;> rfl
  | start | expect | expectReduceReduce | define => rfl

theorem declareAll_addRules {decls : List Declaration} (h : ∀ decl ∈ decls, decl.rule? = none)
    (rules : List RuleDecl) : ∀ d : Draft,
      (d.addRules rules).declareAll decls = (·.addRules rules) <$> d.declareAll decls := by
  induction decls with
  | nil => exact fun _ => rfl
  | cons decl decls ih =>
    intro d
    unfold declareAll
    rw [declare_addRules (h decl List.mem_cons_self)]
    rcases d.declare decl with ⟨d₁, _ | e⟩
    · exact ih (fun decl hdecl => h decl (List.mem_cons_of_mem _ hdecl)) d₁
    · rfl

/-- **The rules can be declared after everything else.** -/
theorem declareAll_eq (decls : List Declaration) : ∀ d : Draft,
    d.declareAll decls = (·.addRules (ruleDecls decls)) <$> d.declareAll (others decls) := by
  have no_rule : ∀ (decls : List Declaration), ∀ decl ∈ others decls, decl.rule? = none :=
    fun decls decl hdecl => Option.isNone_iff_eq_none.1 (List.mem_filter.1 hdecl).2
  induction decls with
  | nil => intro d; simp [declareAll, ruleDecls, others]
  | cons decl decls ih =>
    intro d
    cases hrule : decl.rule? with
    | some r =>
      obtain rfl : decl = .rule r := by cases decl <;> simp_all [rule?]
      have hothers : others (.rule r :: decls) = others decls := rfl
      have hrules : ruleDecls (.rule r :: decls) = r :: ruleDecls decls := rfl
      have hfirst : d.declareAll (.rule r :: decls) = (d.addRules [r]).declareAll decls := by
        show ({ d with rules := d.rules.push r } : Draft).declareAll decls = _
        simp [addRules]
      rw [hothers, hrules, hfirst, ih, declareAll_addRules (no_rule decls)]
      cases d.declareAll (others decls) with
      | error => rfl
      | ok d₁ => simp
    | none =>
      have hothers : others (decl :: decls) = decl :: others decls :=
        List.filter_cons_of_pos (by rw [hrule]; rfl)
      have hrules : ruleDecls (decl :: decls) = ruleDecls decls := List.filterMap_cons_none hrule
      rw [hothers, hrules]
      unfold declareAll
      rcases d.declare decl with ⟨d₁, _ | e⟩
      · exact ih d₁
      · rfl

/-- What is declared without the rules is a draft without rules. -/
theorem exists_declareAll_others {decls : List Declaration} (h : empty.declareAll decls = .ok d') :
    ∃ d, empty.declareAll (others decls) = .ok d ∧ d.rules = #[] ∧
      d' = d.addRules (ruleDecls decls) := by
  rw [declareAll_eq] at h
  cases hothers : empty.declareAll (others decls) with
  | error =>
    rw [hothers] at h
    cases h
  | ok d =>
    rw [hothers] at h
    have rules_eq := (records_of_declareAll hothers).rules_eq
    rw [ruleDecls_others, Array.toList_eq_nil_iff] at rules_eq
    exact ⟨d, rfl, rules_eq, (Except.ok.inj h).symm⟩

theorem exists_start {decls : List Declaration} (records : Records (others decls) d) {name : String}
    (hname : Declaration.start name ∈ decls) : ∃ name, d.start = some name := by
  rw [records.start_eq]
  have hne : (others decls).filterMap start? ≠ [] :=
    List.ne_nil_of_mem (List.mem_filterMap.2 ⟨_, start_mem_others.2 hname, rfl⟩)
  exact ⟨_, List.getLast?_eq_some_getLast hne⟩

/-! ## The symbols -/

theorem numberTerminals_addRules (hd : d.rules = #[]) (rules : List RuleDecl) :
    (d.addRules rules).numberTerminals = d.numberTerminals >>= fun t =>
      (rules.flatMap fun r => r.rhs ++ r.prec.toList).foldlM (fun t name =>
        if CharLiteral.isLiteral name && (t.find? name).isNone
          then t.addTerminal name none none none else .ok t) t := by
  simp [numberTerminals, addRules, hd, bind_assoc]

theorem numberNonterminals_addRules (hd : d.rules = #[]) (rules : List RuleDecl) (t : SymbolTable) :
    (d.addRules rules).numberNonterminals t =
      (acceptName :: d.nonterminals.toList).foldlM addNonterminal t >>= fun t =>
        (rules.map RuleDecl.lhs).foldlM (fun t name => if (t.find? name).isSome then .ok t
          else if isIdentifier name then t.addNonterminal name
          else .error (.invalidName name)) t := by
  simp [numberNonterminals, addRules, hd, bind_assoc, List.foldlM_map]

/-- The symbols of a draft with its rules in another order: if they can be numbered in
    one order, so they can in the other, and the tables are alike. -/
theorem exists_tables {others : List Declaration} (records : Records others d) (hd : d.rules = #[])
    (perm : rules.Perm rules') {terminals table : SymbolTable}
    (hterminals : (d.addRules rules).numberTerminals = .ok terminals)
    (htable : (d.addRules rules).numberNonterminals terminals = .ok table) :
    ∃ base terminals' table', TerminalPhase others base ∧
      (d.addRules rules').numberTerminals = .ok terminals' ∧
      (d.addRules rules').numberNonterminals terminals' = .ok table' ∧
      Alike base terminals terminals' ∧ Alike base table table' := by
  rw [numberTerminals_addRules hd] at hterminals
  obtain ⟨base, hbase, hterminals⟩ := ok_of_bind_ok hterminals
  have phase := terminalPhase_of_numberTerminals records hbase
  have indexed := phase.table.indexed
  obtain ⟨terminals', hterminals', halike⟩ := (enters_literal indexed).foldlM_perm
    (perm.flatMap_right _) (.refl (.refl indexed)) hterminals
  rw [numberNonterminals_addRules hd] at htable
  obtain ⟨declared, hdeclared, htable⟩ := ok_of_bind_ok htable
  obtain ⟨declared', hdeclared', halike₁⟩ :=
    enters_nonterminal.foldlM_perm (.refl _) halike hdeclared
  obtain ⟨table', htable', halike₂⟩ :=
    (enters_lhs indexed).foldlM_perm (perm.map _) halike₁ htable
  refine ⟨base, terminals', table', phase, ?_, ?_, halike, halike₂⟩
  · rw [numberTerminals_addRules hd, hbase]; exact hterminals'
  · rw [numberNonterminals_addRules hd, hdeclared']; exact htable'

/-- In a table of terminals with nonterminals after them the terminals are the
    symbols with the first numbers. -/
theorem isTerminal_getD {others : List Declaration} {terminals table : SymbolTable}
    (first : TerminalPhase others terminals) (second : NonterminalPhase terminals table)
    {X : SymbolId} (hX : X < table.symbols.size) :
    (table.symbols.getD X default).isTerminal = decide (X < terminals.symbols.size) := by
  obtain ⟨added, hsymbols, hadded, -⟩ := second.table.symbols_eq
  have hX' : X < table.symbols.toList.length := by simpa using hX
  have hget : table.symbols.getD X default = table.symbols.toList[X] := by simp [Array.getD, hX]
  rw [hget]
  simp only [hsymbols]
  by_cases hlt : X < terminals.symbols.size
  · rw [List.getElem_append_left (by simpa using hlt), decide_eq_true hlt]
    exact first.table.isTerminal _ (List.getElem_mem _)
  · rw [List.getElem_append_right (by simpa using Nat.le_of_not_lt hlt), decide_eq_false hlt]
    exact (hadded _ (List.getElem_mem _)).1

/-! ## The rules -/

section Rules
variable {e : Renumbering} {t t' : SymbolTable} {n : Nat} {name : String} {X : SymbolId}

theorem resolve_renumber (h : Renumbers e.symbol t t') (hX : t.resolve name = .ok X) :
    t'.resolve name = .ok (e.symbol X) := by
  rw [resolve_eq_ok_iff] at hX ⊢
  rw [h.find?_eq, hX]
  rfl

theorem mapM_resolve_renumber (h : Renumbers e.symbol t t') :
    ∀ {names : List String} {ids : List SymbolId}, names.mapM t.resolve = .ok ids →
      names.mapM t'.resolve = .ok (e.string ids)
  | [], ids, hids => by cases hids; rfl
  | name :: names, ids, hids => by
    obtain ⟨X, hX, hids⟩ := ok_of_bind_ok (by simpa only [List.mapM_cons] using hids)
    obtain ⟨ids', hids', hids⟩ := ok_of_bind_ok hids
    cases hids
    rw [List.mapM_cons, resolve_renumber h hX, mapM_resolve_renumber h hids']
    rfl

theorem lastTerminal?_renumber (hn : ∀ X, e.symbol X < n ↔ X < n) (α : List SymbolId) :
    lastTerminal? n (e.string α) = (lastTerminal? n α).map e.symbol := by
  rw [lastTerminal?, lastTerminal?, Renumbering.string, ← List.map_reverse, List.find?_map]
  simp only [Function.comp_def, hn]

/-- A rule is resolved to the rule with the new numbers. -/
theorem resolveRule_renumber (h : Renumbers e.symbol t t') (hn : ∀ X, e.symbol X < n ↔ X < n)
    {decl : RuleDecl} {r : Rule} (hr : resolveRule t n decl = .ok r) :
    resolveRule t' n decl = .ok (e.onRule r) := by
  obtain ⟨hlhs, hrhs, hprec, hline⟩ := resolveRule_eq_ok_iff.1 hr
  refine resolveRule_eq_ok_iff.2
    ⟨resolve_renumber h hlhs, mapM_resolve_renumber h hrhs, ?_, hline⟩
  cases hp : decl.prec with
  | none =>
    simp only [hp] at hprec
    show r.precSymbol.map e.symbol = lastTerminal? n (e.string r.rhs)
    rw [hprec, lastTerminal?_renumber hn]
  | some name =>
    simp only [hp] at hprec
    obtain ⟨X, hX, hprec⟩ := hprec
    refine ⟨e.symbol X, resolve_renumber h hX, ?_⟩
    show r.precSymbol.map e.symbol = some (e.symbol X)
    rw [hprec, Option.map_some]

/-- Rules that can be resolved one by one are numbered, if there are not too many. -/
theorem exists_resolveRules {accept : SymbolId} (start : SymbolId)
    (haccept : t.resolve acceptName = .ok accept)
    (hrules : ∀ decl ∈ rules, ∃ r, resolveRule t n decl = .ok r)
    (hlength : rules.length + 1 ≤ ruleLimit) : ∃ array, resolveRules t n start rules = .ok array := by
  have all : ∀ {rules : List RuleDecl}, (∀ decl ∈ rules, ∃ r, resolveRule t n decl = .ok r) →
      ∃ numbered, List.Forall₂ (fun decl r => resolveRule t n decl = .ok r) rules numbered := by
    intro rules
    induction rules with
    | nil => exact fun _ => ⟨[], .nil⟩
    | cons decl rules ih =>
      intro hrules
      obtain ⟨r, hr⟩ := hrules decl List.mem_cons_self
      obtain ⟨numbered, hall⟩ := ih fun decl hdecl => hrules decl (List.mem_cons_of_mem _ hdecl)
      exact ⟨r :: numbered, .cons hr hall⟩
  obtain ⟨numbered, hall⟩ := all hrules
  refine ⟨_, resolveRules_eq_ok_iff.2 ⟨accept, numbered, haccept, List.toList_toArray, hall, ?_⟩⟩
  rwa [List.size_toArray, List.length_cons, ← hall.length_eq]

end Rules

/-! ## Checks -/

theorem aliasOwners_append {symbols added : List Symbol} (h : ∀ s ∈ added, s.aliasName = none) :
    aliasOwners (symbols ++ added) = aliasOwners symbols := by
  rw [aliasOwners, aliasOwners, List.foldl_append]
  generalize symbols.foldl _ _ = owners
  induction added generalizing owners with
  | nil => rfl
  | cons s added ih =>
    rw [List.foldl_cons, h s List.mem_cons_self]
    exact ih (fun s hs => h s (List.mem_cons_of_mem _ hs)) owners

/-- The aliases are those of the table below. -/
theorem checkAliases_over {base t : SymbolTable} (h : Over base t) :
    checkAliases t.symbols.toList = checkAliases base.symbols.toList := by
  obtain ⟨added, hsymbols, halias⟩ := h.symbols_eq
  rw [checkAliases, checkAliases, hsymbols, aliasOwners_append halias]

/-! ## Completed drafts -/

/-- The tables for the rules in another order, beside those of the grammar `g`. -/
structure Retabled (π : Equiv.Perm SymbolId) (d : Draft) (g : Grammar)
    (terminals' table' : SymbolTable) : Prop where
  terminals_eq : d.numberTerminals = .ok terminals'
  table_eq : d.numberNonterminals terminals' = .ok table'
  size_eq : terminals'.symbols.size = g.terminalCount
  tableSize_eq : table'.symbols.size = g.symbols.size
  renumbers : Renumbers π g.table table'
  terminal_iff : ∀ X, π X < g.terminalCount ↔ X < g.terminalCount
  reserved_eq : ∀ X ∈ [SymbolId.endMarker, SymbolId.error, SymbolId.undefined], π X = X
  aliases_ok : checkAliases table'.symbols.toList = .ok ()

section Completed
variable {decls decls' : List Declaration} {others : List Declaration} {g : Grammar}
variable {terminals : SymbolTable}

theorem exists_retabled (records₀ : Records others d) (hd : d.rules = #[])
    (records : Records decls (d.addRules rules)) (records' : Records decls' (d.addRules rules'))
    (perm : rules.Perm rules') (completes : (d.addRules rules).Completes terminals g) :
    ∃ π terminals' table', Retabled π (d.addRules rules') g terminals' table' := by
  obtain ⟨base, terminals', table', phase, hterminals', htable', halike, halike'⟩ :=
    exists_tables records₀ hd perm completes.terminals_eq completes.table_eq
  obtain ⟨π, renumbers, fixed⟩ := halike'.exists_renumbering phase.table.indexed
  have size_eq : terminals'.symbols.size = g.terminalCount :=
    halike.size_eq.trans completes.terminalCount_eq.symm
  have first := terminalPhase_of_numberTerminals records completes.terminals_eq
  have second := nonterminalPhase_of_numberNonterminals records first completes.table_eq
  have first' := terminalPhase_of_numberTerminals records' hterminals'
  have second' := nonterminalPhase_of_numberNonterminals records' first' htable'
  refine ⟨π, terminals', table', hterminals', htable', size_eq, halike'.size_eq, renumbers,
    fun X => ?_, fun X hX => fixed X ?_, ?_⟩
  · have le : g.terminalCount ≤ g.table.symbols.size := by
      obtain ⟨added, hsymbols, -⟩ := second.table.symbols_eq
      have := congrArg List.length hsymbols
      rw [List.length_append, Array.length_toList, Array.length_toList] at this
      rw [completes.terminalCount_eq]
      omega
    by_cases hX : X < g.table.symbols.size
    · have flag := isTerminal_getD first second hX
      have flag' := isTerminal_getD first' second' ((renumbers.lt_iff X).2 hX)
      rw [(renumbers.same X).isTerminal_eq, flag, ← completes.terminalCount_eq, size_eq] at flag'
      simpa using flag'.symm
    · have hX' := mt (renumbers.lt_iff X).1 hX
      rw [halike'.size_eq] at hX'
      exact ⟨fun h => absurd (Nat.lt_of_lt_of_le h le) hX', fun h => absurd (Nat.lt_of_lt_of_le h le) hX⟩
  · have three : reservedNames.length ≤ base.symbols.size := by
      simpa [names] using phase.reserved.length_le
    refine Nat.lt_of_lt_of_le ?_ three
    simp only [List.mem_cons, List.not_mem_nil, or_false] at hX
    rcases hX with rfl | rfl | rfl <;> decide
  · rw [checkAliases_over halike'.right, ← checkAliases_over halike'.left]
    exact completes.aliases_ok

theorem resolveStart_renumber {e : Renumbering} {t t' : SymbolTable} {n : Nat}
    (h : Renumbers e.symbol t t') (hn : ∀ X, e.symbol X < n ↔ X < n) {name lhs : String}
    (hd : d.start = some name) (hd' : d'.start = some name) {X : SymbolId}
    (hX : d.resolveStart t n lhs = .ok X) (lhs' : String) :
    d'.resolveStart t' n lhs' = .ok (e.symbol X) := by
  obtain ⟨hX, hge⟩ := resolveStart_eq_ok_iff.1 hX
  rw [hd, Option.getD_some] at hX
  refine resolveStart_eq_ok_iff.2 ⟨?_, Nat.le_of_not_lt (mt (hn X).1 (Nat.not_lt.2 hge))⟩
  rw [hd', Option.getD_some]
  exact resolve_renumber h hX

variable {e : Renumbering} {terminals' table' : SymbolTable}

/-- A rule in the other order is resolved to a rule with the new numbers. -/
theorem Retabled.resolveRule_eq (h : Retabled e.symbol (d.addRules rules') g terminals' table')
    (hd : d.rules = #[]) (completes : (d.addRules rules).Completes terminals g) {i : Nat}
    {decl : RuleDecl} (hdecl : rules[i]? = some decl) :
    resolveRule table' g.terminalCount decl = .ok (e.onRule (g.rule (i + 1))) :=
  resolveRule_renumber h.renumbers h.terminal_iff
    (Grammar.resolveRule_of_completes completes (by rwa [toList_addRules hd]))

/-- Every rule in the other order is one of the rules before. -/
theorem Retabled.exists_rule (h : Retabled e.symbol (d.addRules rules') g terminals' table')
    (hd : d.rules = #[]) (perm : rules.Perm rules')
    (completes : (d.addRules rules).Completes terminals g) {decl : RuleDecl} (hdecl : decl ∈ rules') :
    ∃ r < g.rules.size, resolveRule table' g.terminalCount decl = .ok (e.onRule (g.rule r)) := by
  obtain ⟨_, numbered, -, hrules, hnumbered, -⟩ := resolveRules_eq_ok_iff.1 completes.rules_eq
  obtain ⟨i, hi⟩ := List.mem_iff_getElem?.1 (perm.mem_iff.2 hdecl)
  refine ⟨i + 1, ?_, h.resolveRule_eq hd completes hi⟩
  rw [← Array.length_toList, hrules, List.length_cons, ← hnumbered.length_eq, toList_addRules hd]
  exact Nat.succ_lt_succ (List.getElem?_eq_some_iff.1 hi).1

/-- The left-hand sides stay nonterminals. -/
theorem Retabled.lhs_nonterminal (h : Retabled e.symbol (d.addRules rules') g terminals' table')
    (hd : d.rules = #[]) (perm : rules.Perm rules') (wf : g.WellFormed)
    (completes : (d.addRules rules).Completes terminals g) {start : SymbolId} {array : Array Rule}
    (harray : resolveRules table' g.terminalCount start rules' = .ok array) {r : Rule}
    (hr : r ∈ array.toList) : ¬ r.lhs < g.terminalCount := by
  obtain ⟨accept, _, haccept, hrules, -, -⟩ := resolveRules_eq_ok_iff.1 completes.rules_eq
  obtain ⟨accept', numbered', haccept', hrules', hnumbered', -⟩ := resolveRules_eq_ok_iff.1 harray
  have nonterminal : ∀ {r}, r < g.rules.size → ¬ e.symbol (g.lhs r) < g.terminalCount := fun hr =>
    mt (h.terminal_iff _).1 (of_decide_eq_false (wf.lhs_nonterminal hr))
  rw [hrules', List.mem_cons] at hr
  rcases hr with rfl | hr
  · have hlhs : g.lhs RuleId.accept = accept := by
      rw [Grammar.lhs, Grammar.rule_eq_getD, hrules]; rfl
    have := nonterminal wf.accept_lt
    rw [hlhs] at this
    rwa [Except.ok.inj ((resolve_renumber h.renumbers haccept).symm.trans haccept')] at this
  · obtain ⟨i, hi, rfl⟩ := List.mem_iff_getElem.1 hr
    have hi' : i < rules'.length := hnumbered'.length_eq ▸ hi
    obtain ⟨r₀, hr₀, heq⟩ := h.exists_rule hd perm completes (List.getElem_mem hi')
    have hget : numbered'[i] = e.onRule (g.rule r₀) :=
      Except.ok.inj (Eq.trans (Eq.symm (hnumbered'.get hi' hi)) heq)
    rw [hget]
    exact nonterminal hr₀

/-- **The draft with the rules in another order can be completed.** -/
theorem Retabled.exists_prepare (h : Retabled e.symbol (d.addRules rules') g terminals' table')
    (hd : d.rules = #[]) (perm : rules.Perm rules') {name : String} (hname : d.start = some name)
    (wf : g.WellFormed) (completes : (d.addRules rules).Completes terminals g) :
    ∃ g', (d.addRules rules').prepare = .ok g' := by
  obtain ⟨first, hfirst, hstart⟩ := completes.start_eq
  obtain ⟨accept, numbered, haccept, hrules, hnumbered, hlimit⟩ :=
    resolveRules_eq_ok_iff.1 completes.rules_eq
  have hstart' : ∀ lhs, (d.addRules rules').resolveStart table' g.terminalCount lhs =
      .ok (e.symbol g.start) := fun lhs =>
    resolveStart_renumber h.renumbers h.terminal_iff hname hname hstart lhs
  have hlength : rules'.length + 1 ≤ ruleLimit := by
    rwa [← Array.length_toList, hrules, List.length_cons, ← hnumbered.length_eq, toList_addRules hd,
      perm.length_eq] at hlimit
  obtain ⟨array, harray⟩ := exists_resolveRules (e.symbol g.start)
    (resolve_renumber h.renumbers haccept)
    (fun decl hdecl => by
      obtain ⟨r, -, hr⟩ := h.exists_rule hd perm completes hdecl
      exact ⟨_, hr⟩) hlength
  obtain ⟨first', hfirst'⟩ : ∃ first', (d.addRules rules').rules[0]? = some first' := by
    have hpos : 0 < rules'.length := by
      rw [← perm.length_eq, ← toList_addRules hd rules, Array.length_toList]
      exact (Array.getElem?_eq_some_iff.1 hfirst).1
    exact ⟨rules'[0], by
      rw [← Array.getElem?_toList, toList_addRules hd, List.getElem?_eq_getElem hpos]⟩
  have hcheck : checkRules table'.symbols g.terminalCount array.toList = .ok () :=
    checkRules_eq_ok_iff.2 fun r hr => h.lhs_nonterminal hd perm wf completes harray hr
  unfold prepare
  simp only [hfirst', h.terminals_eq, toList_addRules hd, bind, Except.bind]
  simp only [h.size_eq, h.table_eq, hstart', harray, h.aliases_ok, hcheck]
  exact ⟨_, rfl⟩

end Completed

end Draft

namespace Grammar

open Declaration Draft

variable {decls decls' : List Declaration} {g g' : Grammar} {d : Draft} {e : Renumbering}

/-- The renumbering of the rules is that of their declarations. -/
def FollowsRules (e : Renumbering) (decls decls' : List Declaration) : Prop :=
  e.rule RuleId.accept = RuleId.accept ∧ ∀ i, ∃ j, e.rule (i + 1) = j + 1 ∧
    (ruleDecls decls')[j]? = (ruleDecls decls)[i]?

theorem FollowsRules.rule_lt (follows : FollowsRules e decls decls') (numbered : g.NumbersRules decls)
    (numbered' : g'.NumbersRules decls') (r : RuleId) :
    e.rule r < g'.rules.size ↔ r < g.rules.size := by
  rw [numbered.size_eq, numbered'.size_eq]
  cases r with
  | zero =>
    rw [show e.rule 0 = 0 from follows.1]
    exact iff_of_true (Nat.succ_pos _) (Nat.succ_pos _)
  | succ i =>
    obtain ⟨j, hj, heq⟩ := follows.2 i
    rw [hj, Nat.succ_lt_succ_iff, Nat.succ_lt_succ_iff, ← not_iff_not, Nat.not_lt, Nat.not_lt,
      ← List.getElem?_eq_none_iff, ← List.getElem?_eq_none_iff, heq]

theorem accept_renumber (syms : g.NumbersSymbols) (syms' : g'.NumbersSymbols)
    (renumbers : SymbolTable.Renumbers e.symbol g.table g'.table) :
    e.symbol g.terminalCount = g'.terminalCount := by
  have found := syms.find?_name _ syms.accept_lt
  have found' := syms'.find?_name _ syms'.accept_lt
  rw [syms.accept_name] at found
  rw [syms'.accept_name, find?, renumbers.find?_eq, show g.table.find? _ = _ from found] at found'
  exact Option.some.inj found'

section Retabled
variable {terminals terminals' : SymbolTable}

theorem rule_of_retabled (numbered : g.NumberedBy decls) (numbered' : g'.NumberedBy decls')
    (hd : d.rules = #[]) (completes : (d.addRules (ruleDecls decls)).Completes terminals g)
    (completes' : (d.addRules (ruleDecls decls')).Completes terminals' g')
    (retabled : Retabled e.symbol (d.addRules (ruleDecls decls')) g terminals' g'.table)
    (follows : FollowsRules e decls decls') (count_eq : g'.terminalCount = g.terminalCount)
    (start_eq : g'.start = e.symbol g.start) (r : RuleId) :
    g'.rule (e.rule r) = e.onRule (g.rule r) := by
  have end_eq : e.symbol SymbolId.endMarker = SymbolId.endMarker := retabled.reserved_eq _ (by simp)
  by_cases hr : r < g.rules.size
  · cases r with
    | zero =>
      have accept_eq := accept_renumber numbered.symbols numbered'.symbols retabled.renumbers
      rw [show e.rule 0 = RuleId.accept from follows.1, numbered'.rules.accept_eq,
        show g.rule 0 = _ from numbered.rules.accept_eq]
      simp [Renumbering.onRule, accept_eq, start_eq, end_eq]
    | succ i =>
      obtain ⟨j, hj, heq⟩ := follows.2 i
      rw [numbered.rules.size_eq, Nat.succ_lt_succ_iff] at hr
      have hdecl := List.getElem?_eq_getElem hr
      have resolved := retabled.resolveRule_eq hd completes hdecl
      have resolved' := resolveRule_of_completes completes' (i := j)
        (by rw [toList_addRules hd, heq, hdecl])
      rw [count_eq] at resolved'
      rw [hj]
      exact Except.ok.inj (resolved'.symm.trans resolved)
  · -- Beyond the rules there is the empty rule, whose left-hand side is reserved.
    have hr' := mt (follows.rule_lt numbered.rules numbered'.rules r).1 hr
    have default_eq : ∀ {g : Grammar} {r : RuleId}, ¬ r < g.rules.size → g.rule r = default :=
      fun hr => by simp [rule, Array.getD, hr]
    rw [default_eq hr, default_eq hr']
    show (default : Rule) = ⟨e.symbol SymbolId.endMarker, [], none, default⟩
    rw [end_eq]
    rfl

theorem renumbers_of_retabled (numbered : g.NumberedBy decls) (numbered' : g'.NumberedBy decls')
    (hd : d.rules = #[]) {name : String} (hname : d.start = some name)
    (completes : (d.addRules (ruleDecls decls)).Completes terminals g)
    (completes' : (d.addRules (ruleDecls decls')).Completes terminals' g')
    (retabled : Retabled e.symbol (d.addRules (ruleDecls decls')) g terminals' g'.table)
    (follows : FollowsRules e decls decls') (perm : (ruleDecls decls).Perm (ruleDecls decls')) :
    g.Renumbers e g' := by
  have count_eq : g'.terminalCount = g.terminalCount :=
    completes'.terminalCount_eq.trans retabled.size_eq
  have start_eq : g'.start = e.symbol g.start := by
    obtain ⟨first, -, hstart⟩ := completes.start_eq
    obtain ⟨first', -, hstart'⟩ := completes'.start_eq
    have := resolveStart_renumber retabled.renumbers retabled.terminal_iff hname hname hstart first'.lhs
    rw [count_eq] at hstart'
    exact Except.ok.inj (hstart'.symm.trans this)
  constructor
  case symbolCount_eq => exact retabled.tableSize_eq
  case terminalCount_eq => exact count_eq
  case ruleCount_eq => rw [numbered.rules.size_eq, numbered'.rules.size_eq, perm.length_eq]
  case symbol_lt => exact retabled.renumbers.lt_iff
  case rule_lt => exact follows.rule_lt numbered.rules numbered'.rules
  case isTerminal_eq =>
    intro X
    rw [isTerminal, isTerminal, count_eq]
    exact decide_eq_decide.2 (retabled.terminal_iff X)
  case symbol_same => exact retabled.renumbers.same
  case rule_eq =>
    exact rule_of_retabled numbered numbered' hd completes completes' retabled follows count_eq start_eq
  case reserved_eq => exact retabled.reserved_eq
  case accept_eq => exact follows.1
  case start_eq => exact start_eq
  case expect_eq => exact completes'.expect_eq.trans completes.expect_eq.symm
  case expectReduceReduce_eq =>
    exact completes'.expectReduceReduce_eq.trans completes.expectReduceReduce_eq.symm
  case settings_eq => exact completes'.settings_eq.trans completes.settings_eq.symm

end Retabled

/-- **The order of the rules matters for the numbers only.**  Declarations with the
    rules in another order define the same grammar but for the numbers, which follow
    the names of the symbols and the declarations of the rules. -/
theorem define_reordered (h : Reordered decls decls') (hg : define decls = .ok g) :
    ∃ g', define decls' = .ok g' ∧ ∃ e, g.Renumbers e g' ∧ FollowsRules e decls decls' := by
  have wf := wellFormed_of_define hg
  obtain ⟨d₁, hd₁, hprepare⟩ := ok_of_bind_ok hg
  obtain ⟨d, hothers, hd, rfl⟩ := exists_declareAll_others hd₁
  have hd₂ : empty.declareAll decls' = .ok (d.addRules (ruleDecls decls')) := by
    rw [declareAll_eq, h.others_eq, hothers]; rfl
  have records := records_of_declareAll hothers
  obtain ⟨chosen, hchosen⟩ := h.start_chosen
  obtain ⟨name, hname⟩ := exists_start records hchosen
  obtain ⟨terminals, completes⟩ := completes_of_prepare hprepare
  obtain ⟨π, terminals', table', retabled⟩ := exists_retabled records hd (records_of_declareAll hd₁)
    (records_of_declareAll hd₂) h.rules_perm completes
  obtain ⟨ρ, hρ⟩ := h.rules_perm.exists_places
  have retabled : Retabled (Renumbering.mk π (List.shiftPlaces ρ)).symbol
    (d.addRules (ruleDecls decls')) g terminals' table' := retabled
  obtain ⟨g', hg'⟩ := retabled.exists_prepare hd h.rules_perm hname wf completes
  have hdefine : define decls' = .ok g' := by rw [define, hd₂]; exact hg'
  obtain ⟨terminals'', completes'⟩ := completes_of_prepare hg'
  obtain rfl := Except.ok.inj (retabled.terminals_eq.symm.trans completes'.terminals_eq)
  obtain rfl := Except.ok.inj (retabled.table_eq.symm.trans completes'.table_eq)
  have follows : FollowsRules ⟨π, List.shiftPlaces ρ⟩ decls decls' :=
    ⟨rfl, fun i => ⟨ρ i, rfl, hρ i⟩⟩
  exact ⟨g', hdefine, _, renumbers_of_retabled (numbered_as_declared (.inl hg))
    (numbered_as_declared (.inl hdefine)) hd hname completes completes' retabled follows h.rules_perm,
    follows⟩

end Grammar

end LRAutomata
