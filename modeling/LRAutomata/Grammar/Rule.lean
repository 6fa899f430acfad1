/-
  Production rules.
-/
import LRAutomata.Grammar.Symbol

namespace LRAutomata

/-- The number of a rule; rule `0` is the accepting rule. -/
abbrev RuleId := Nat

/-- The rule that produces the start symbol and the end marker. -/
def RuleId.accept : RuleId := 0

/-- A production rule `lhs → rhs`. -/
structure Rule where
  lhs : SymbolId
  rhs : List SymbolId
  /-- The symbol whose precedence the rule takes. -/
  precSymbol : Option SymbolId
  /-- The line on which the rule was written. -/
  line : Nat
deriving DecidableEq, Repr, Inhabited

end LRAutomata
