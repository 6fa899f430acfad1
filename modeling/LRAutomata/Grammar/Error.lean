/-
  What can be wrong with a grammar, and how it is reported.
-/
import LRAutomata.Grammar.Rule

namespace LRAutomata

/-- The causes for which a grammar is refused. -/
inductive GrammarError where
  /-- A rule or the start declaration uses a name that nothing defines. -/
  | undefinedSymbol (name : String)
  /-- A rule has a terminal on its left-hand side. -/
  | terminalLhs (rule : RuleId) (name : String) (line : Nat)
  /-- Several symbols have the same alias. -/
  | duplicatedAlias (aliasName : String) (names : List String)
  /-- A name is neither an identifier nor a character literal. -/
  | invalidName (name : String)
  /-- A character literal stands for no character. -/
  | invalidCharLiteral (literal : String)
  /-- The start symbol is a terminal. -/
  | invalidStartSymbol (name : String)
  | emptyGrammar
  | tooManySymbols
  | tooManyRules
deriving DecidableEq, Repr

/-- The report of an error. -/
def GrammarError.message : GrammarError → String
  | undefinedSymbol name => s!"symbol not found: `{name}'"
  | terminalLhs rule name line =>
    s!"the left-hand side of rule {rule} (line: {line}) is a terminal `{name}'; " ++
      "it should be a nonterminal"
  | duplicatedAlias aliasName names =>
    s!"symbol alias name {aliasName} is duplicated: " ++ ", ".intercalate names
  | invalidName name => s!"incorrect symbol name: `{name}'"
  | invalidCharLiteral literal => s!"unknown character literal: {literal}"
  | invalidStartSymbol name => s!"the start symbol `{name}' is not a nonterminal"
  | emptyGrammar => "the grammar has no rules"
  | tooManySymbols => "too many symbols"
  | tooManyRules => "too many rules"

end LRAutomata
