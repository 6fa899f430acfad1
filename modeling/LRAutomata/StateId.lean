/-
  Numbers of states, and the pairs of a state with a symbol, a rule or an item
  that the analyses of an automaton are about.
-/
import LRAutomata.Item

namespace LRAutomata

open Std

/-- The number of a state. -/
abbrev StateId := Nat

/-- The state in which every parse begins. -/
def StateId.start : StateId := 0

/-- A transition on a nonterminal: `symbol` is read in the state `source`. -/
structure Goto where
  source : StateId
  symbol : SymbolId
deriving DecidableEq, Repr

namespace Goto

instance : Ord Goto := ⟨compareLex (compareOn source) (compareOn symbol)⟩

instance : TransOrd Goto :=
  inferInstanceAs (TransCmp (compareLex (compareOn source) (compareOn symbol)))

instance : LawfulEqOrd Goto :=
  lawful_compareLex source symbol (by rintro ⟨⟩ ⟨⟩ rfl rfl; rfl)

end Goto

/-- A reduction by a rule in a state. -/
structure StateRule where
  state : StateId
  rule : RuleId
deriving DecidableEq, Repr

namespace StateRule

instance : Ord StateRule := ⟨compareLex (compareOn state) (compareOn rule)⟩

instance : TransOrd StateRule :=
  inferInstanceAs (TransCmp (compareLex (compareOn state) (compareOn rule)))

instance : LawfulEqOrd StateRule :=
  lawful_compareLex state rule (by rintro ⟨⟩ ⟨⟩ rfl rfl; rfl)

end StateRule

/-- An item of a state. -/
structure StateItem where
  state : StateId
  item : Item
deriving DecidableEq, Repr, Inhabited

namespace StateItem

instance : Ord StateItem := ⟨compareLex (compareOn state) (compareOn item)⟩

instance : TransOrd StateItem :=
  inferInstanceAs (TransCmp (compareLex (compareOn state) (compareOn item)))

instance : LawfulEqOrd StateItem :=
  lawful_compareLex state item (by rintro ⟨⟩ ⟨⟩ rfl rfl; rfl)

end StateItem

end LRAutomata
