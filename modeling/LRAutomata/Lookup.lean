/-
  Lookups that can fail.

  Numbers of symbols, rules and states that come from outside may name nothing,
  and a state need not have a transition on a symbol.
-/
import LRAutomata.Label

namespace LRAutomata

/-- Why a lookup fails. -/
inductive LookupError where
  | unknownSymbol (X : SymbolId)
  | unknownRule (r : RuleId)
  | unknownState (q : StateId)
  | noTransition (q : StateId) (X : SymbolId)
deriving DecidableEq, Repr

/-- The report of a failure, where there is more to say than that a number
    names nothing. -/
def LookupError.message? : LookupError → Option String
  | .noTransition q X =>
    some ("[BUG] no transition from " ++ Label.state q ++ " by " ++ Label.symbol X)
  | _ => none

namespace Grammar

/-- The item at a position of a rule, if the grammar has the rule. -/
def item (g : Grammar) (r : RuleId) (position : Nat) : Except LookupError Item :=
  if r < g.rules.size then .ok ⟨r, position⟩ else .error (.unknownRule r)

/-- The symbols with the given numbers, separated by blanks, if the grammar
    has all of them. -/
def displayNumbered (g : Grammar) (symbols : List SymbolId) : Except LookupError String :=
  match symbols.find? (g.symbols.size ≤ ·) with
  | some X => .error (.unknownSymbol X)
  | none => .ok (g.displaySymbols symbols)

end Grammar

end LRAutomata
