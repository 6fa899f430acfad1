/-
  From a draft to a grammar.

  The symbols are numbered: the reserved terminals, the declared terminals in
  the order of their declarations, the character literals that occur only in
  rules, the accepting symbol, the declared nonterminals, and the remaining
  left-hand sides.  Then the names in the rules are replaced by numbers, and
  the accepting rule is put in front of them.

  * `Draft.prepare` completes a draft;
  * `Grammar.define` carries out declarations and completes the result.
-/
import LRAutomata.Grammar.Basic
import LRAutomata.Grammar.Draft
import LRAutomata.Grammar.Validity

namespace LRAutomata

open Text

namespace Draft

/-- The name of the accepting symbol. -/
def acceptName : String := "$accept"

/-- Number the terminals. -/
def numberTerminals (d : Draft) : Except GrammarError SymbolTable := do
  let t ← SymbolTable.empty.addTerminal "YYEOF" (some "$end") (some 0) none
  let t ← t.addTerminal "YYerror" (some "error") none none
  let t ← t.addTerminal "YYUNDEF" (some "$undefined") none none
  let t ← d.terminals.toList.foldlM (fun t (name, decl) =>
    t.addTerminal name decl.aliasName decl.token decl.precedence) t
  (d.rules.toList.flatMap fun r => r.rhs ++ r.prec.toList).foldlM (fun t name =>
    if CharLiteral.isLiteral name && (t.find? name).isNone then t.addTerminal name none none none
    else .ok t) t

/-- Number the nonterminals after the terminals. -/
def numberNonterminals (d : Draft) (t : SymbolTable) : Except GrammarError SymbolTable := do
  let t ← t.addNonterminal acceptName
  let t ← d.nonterminals.toList.foldlM SymbolTable.addNonterminal t
  d.rules.toList.foldlM (fun t r =>
    if (t.find? r.lhs).isSome then .ok t
    else if isIdentifier r.lhs then t.addNonterminal r.lhs
    else .error (.invalidName r.lhs)) t

/-- The start symbol, which has to be a nonterminal: the one chosen, or else
    the left-hand side of the first rule. -/
def resolveStart (d : Draft) (t : SymbolTable) (terminalCount : Nat) (firstLhs : String) :
    Except GrammarError SymbolId := do
  let name := d.start.getD firstLhs
  let id ← t.resolve name
  if id < terminalCount then .error (.invalidStartSymbol name) else .ok id

/-- The last terminal of a string. -/
def lastTerminal? (terminalCount : Nat) (symbols : List SymbolId) : Option SymbolId :=
  symbols.reverse.find? (· < terminalCount)

/-- Replace the names in a rule by numbers.  Without `%prec`, a rule takes the
    precedence of its last terminal. -/
def resolveRule (t : SymbolTable) (terminalCount : Nat) (r : RuleDecl) :
    Except GrammarError Rule := do
  let lhs ← t.resolve r.lhs
  let rhs ← r.rhs.mapM t.resolve
  let prec ← match r.prec with
    | some name => some <$> t.resolve name
    | none => .ok none
  .ok { lhs, rhs, precSymbol := prec <|> lastTerminal? terminalCount rhs, line := r.line }

/-- The number of rules that a grammar may have. -/
def ruleLimit : Nat := 65536

/-- Number the rules after the accepting rule. -/
def resolveRules (t : SymbolTable) (terminalCount : Nat) (start : SymbolId)
    (rules : List RuleDecl) : Except GrammarError (Array Rule) := do
  let accept ← t.resolve acceptName
  let rhs := [start, SymbolId.endMarker]
  let acceptRule : Rule :=
    { lhs := accept, rhs, precSymbol := lastTerminal? terminalCount rhs, line := 0 }
  rules.foldlM (fun numbered r => do
    if ruleLimit ≤ numbered.size then .error .tooManyRules
    else .ok (numbered.push (← resolveRule t terminalCount r))) #[acceptRule]

/-- For each symbol the rules with that left-hand side, in ascending order. -/
def indexRules (symbolCount : Nat) (rules : List Rule) : Array (List RuleId) :=
  rules.zipIdx.foldr (fun (r, id) index => index.modify r.lhs (id :: ·))
    (Array.replicate symbolCount [])

/-- Complete a draft. -/
def prepare (d : Draft) : Except GrammarError Grammar := do
  let firstRule ← match d.rules[0]? with
    | some r => .ok r
    | none => .error .emptyGrammar
  let terminals ← d.numberTerminals
  let terminalCount := terminals.symbols.size
  let table ← d.numberNonterminals terminals
  let start ← d.resolveStart table terminalCount firstRule.lhs
  let rules ← resolveRules table terminalCount start d.rules.toList
  checkAliases table.symbols.toList
  checkRules table.symbols terminalCount rules.toList
  let symbolCount := table.symbols.size
  let rulesBySymbol := indexRules symbolCount rules.toList
  let found := Nullable.ofRules rules (fun X => rulesBySymbol.getD X []) terminalCount symbolCount
  let nullable := Nullable.members found.symbols
  .ok
    { table
      terminalCount
      rules
      start
      rulesBySymbol
      nullable
      nullableRules := found.rules.map (·.getD false)
      firstSets := First.ofRules rules.toList terminalCount (symbolCount - terminalCount) nullable
      expect := d.expect
      expectReduceReduce := d.expectReduceReduce
      settings := d.settings }

end Draft

/-- The grammar that the declarations define. -/
def Grammar.define (decls : List Declaration) : Except GrammarError Grammar :=
  Draft.empty.declareAll decls >>= Draft.prepare

end LRAutomata
