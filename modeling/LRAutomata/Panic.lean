/-
  What stops a computation.

  A vector is asked for an entry that it does not have, or a number leaves the
  range of its type.
-/
import LRAutomata.StateId

namespace LRAutomata

/-- What can stop the construction of an automaton or of its counterexamples. -/
inductive Panic where
  /-- A vector has no entry with this number. -/
  | outOfRange (index length : Nat)
  /-- Two entries of a vector are asked for that are one, or not both there. -/
  | notApart (i j length : Nat)
  /-- A symbol is read in a state without a transition on it. -/
  | noTransition (q : StateId) (X : SymbolId)
  /-- A transition leads to a state that has been removed. -/
  | removedTarget (q : StateId)
  /-- No state remains of those that a state represented. -/
  | noRepresentative (q : StateId)
  /-- A dot is moved out of the range of positions. -/
  | positionOverflow (position : Nat)
  /-- A path goes on before its first step. -/
  | beforeStart
deriving DecidableEq, Repr

/-- A computation that may stop. -/
abbrev Checked := Except Panic

namespace Checked

/-- The number of positions that a dot can have. -/
def positionLimit : Nat := 65536

/-- The item with the dot one symbol further, if that is still a position. -/
def advance (i : Item) : Checked Item :=
  if i.position + 1 < positionLimit then .ok i.advance else .error (.positionOverflow i.position)

end Checked

end LRAutomata
