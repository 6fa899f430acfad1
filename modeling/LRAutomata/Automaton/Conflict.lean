/-
  Conflicts between the actions of a state, and their resolution by precedence.

  A shift and a reduction on the same token are compared by the precedence of
  the token and that of the rule.  Two reductions on the same token are always
  a conflict.
-/
import LRAutomata.Label

namespace LRAutomata

/-- Two actions on the same token between which nothing decides. -/
inductive Conflict where
  | shiftReduce (symbol : SymbolId) (reduce : Item)
  /-- Two reductions on the symbols listed. -/
  | reduceReduce (symbols : List SymbolId) (reduce₁ reduce₂ : Item)
deriving DecidableEq, Repr

namespace Conflict

/-- The tokens on which the actions collide. -/
def symbols : Conflict → List SymbolId
  | shiftReduce X _ => [X]
  | reduceReduce symbols _ _ => symbols

/-- Whether a shift is involved. -/
def isShiftReduce : Conflict → Bool
  | shiftReduce .. => true
  | reduceReduce .. => false

/-- A conflict as text. -/
def display (g : Grammar) : Conflict → String
  | shiftReduce X reduce =>
    "shift/reduce conflict on " ++ g.display X ++ ": shift / reduce " ++ g.displayRule reduce.rule
  | reduceReduce symbols reduce₁ reduce₂ =>
    "reduce/reduce conflict on " ++ g.displaySymbols symbols ++ ": reduce " ++
      g.displayRule reduce₁.rule ++ " / reduce " ++ g.displayRule reduce₂.rule

/-- The label of a conflict in logs. -/
def label : Conflict → String
  | shiftReduce X reduce =>
    "ShiftReduce \x7b symbols: " ++ Label.list [Label.symbol X] ++ ", shift: " ++ Label.symbol X ++
      ", reduce: " ++ Label.item reduce ++ " \x7d"
  | reduceReduce symbols reduce₁ reduce₂ =>
    "ReduceReduce \x7b symbols: " ++ Label.list (symbols.map Label.symbol) ++ ", reduce1: " ++
      Label.item reduce₁ ++ ", reduce2: " ++ Label.item reduce₂ ++ " \x7d"

end Conflict

/-- How a conflict between a shift and a reduction is settled. -/
inductive Resolution where
  | shift
  | reduce
  /-- Neither action is taken. -/
  | error
deriving DecidableEq, Repr

/-- A conflict between a shift and a reduction that precedence settles. -/
structure ResolvedConflict where
  symbol : SymbolId
  rule : RuleId
  resolution : Resolution
  /-- Whether the levels are equal and associativity chooses an action. -/
  byAssoc : Bool
deriving DecidableEq, Repr

/-- A resolved conflict as text. -/
def ResolvedConflict.display (g : Grammar) (c : ResolvedConflict) : String :=
  let token := g.display c.symbol
  let rule := ((g.rule c.rule).precSymbol.map g.display).getD ""
  let outcome := match c.resolution, c.byAssoc with
    | .shift, true => s!"resolved as shift (%right {token})"
    | .shift, false => s!"resolved as shift ({rule} < {token})"
    | .reduce, true => s!"resolved as reduce (%left {token})"
    | .reduce, false => s!"resolved as reduce ({token} < {rule})"
    | .error, _ => s!"resolved as an error (%nonassoc {token})"
  let number := c.rule
  s!"Conflict between rule {number} and token {token} {outcome}."

/-- What precedence says about a shift and a reduction. -/
inductive Verdict where
  | undecided
  | decided (resolution : Resolution) (byAssoc : Bool)
deriving DecidableEq, Repr

/-- Compare the precedence of a token with that of a rule.  The stronger level
    wins; at equal levels associativity decides, if there is any. -/
def Verdict.ofPrecedence : (token rule : Option Precedence) → Verdict
  | some token, some rule =>
    if token.level < rule.level then .decided .reduce false
    else if rule.level < token.level then .decided .shift false
    else match token.assoc with
      | .precedence => .undecided
      | .right => .decided .shift true
      | .left => .decided .reduce true
      | .nonassoc => .decided .error false
  | _, _ => .undecided

end LRAutomata
