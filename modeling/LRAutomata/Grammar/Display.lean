/-
  Grammars as text.
-/
import LRAutomata.Grammar.Basic

namespace LRAutomata.Grammar

/-- The symbols of a string, separated by blanks. -/
def displaySymbols (g : Grammar) (symbols : List SymbolId) : String :=
  " ".intercalate (symbols.map g.display)

/-- A rule as text; an empty right-hand side is written `ε`. -/
def displayRule (g : Grammar) (r : RuleId) : String :=
  let rhs := g.rhs r
  g.display (g.lhs r) ++ " -> " ++ if rhs.isEmpty then "ε" else g.displaySymbols rhs

/-- The symbols and rules of a grammar as text. -/
def displayAll (g : Grammar) : String :=
  let names (symbols : List SymbolId) : String := ", ".intercalate (symbols.map g.display)
  let ruleLine (r : RuleId) : String := s!"- [{r}] " ++ g.displayRule r ++ "\n"
  "#### terminals: " ++ names g.terminals ++ "\n" ++
  "#### nonterminals: " ++ names g.nonterminals ++ "\n" ++
  "#### rules:\n" ++ String.join ((List.range g.rules.size).map ruleLine)

end LRAutomata.Grammar
