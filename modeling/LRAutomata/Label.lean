/-
  Labels: short texts that identify symbols, rules, states and pairs of them
  in logs, such as `Y#003`, `R#012`, `S#000` or `(S#004,(R#002,1))`.
-/
import LRAutomata.Data.NatSet
import LRAutomata.StateId

namespace LRAutomata.Label

/-- A number with at least three digits. -/
def padded (n : Nat) : String :=
  let digits := Nat.repr n
  "".pushn '0' (3 - digits.length) ++ digits

/-- The label of a symbol; the reserved terminals are named. -/
def symbol (X : SymbolId) : String :=
  if X = SymbolId.endMarker then "Y#EOF"
  else if X = SymbolId.error then "Y#Error"
  else if X = SymbolId.undefined then "Y#Undef"
  else "Y#" ++ padded X

/-- The label of a rule; the accepting rule is named. -/
def rule (r : RuleId) : String :=
  if r = RuleId.accept then "R#Accept" else "R#" ++ padded r

/-- The label of a state. -/
def state (q : StateId) : String :=
  "S#" ++ padded q

/-- The label of a pair. -/
def pair (a b : String) : String :=
  "(" ++ a ++ "," ++ b ++ ")"

/-- The label of an item. -/
def item (i : Item) : String :=
  pair (rule i.rule) (Nat.repr i.position)

/-- The label of a transition on a nonterminal. -/
def goto (p : Goto) : String :=
  pair (state p.source) (symbol p.symbol)

/-- The label of a reduction in a state. -/
def stateRule (p : StateRule) : String :=
  pair (state p.state) (rule p.rule)

/-- The label of an item of a state. -/
def stateItem (p : StateItem) : String :=
  pair (state p.state) (item p.item)

/-- The labels of a list between brackets. -/
def list (labels : List String) : String :=
  "[" ++ ", ".intercalate labels ++ "]"

/-- The labels of the members of a set of symbols, in ascending order. -/
def symbolSet (s : NatSet) : String :=
  "\x7b" ++ ", ".intercalate (s.toList.map symbol) ++ "\x7d"

end LRAutomata.Label
