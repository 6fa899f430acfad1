/-
  Moves between the items of an automaton, forward and backward.
-/
import LRAutomata.Automaton.Basic

namespace LRAutomata

namespace StateItem

/-- The item with the dot moved over the next symbol, in the next state. -/
def advance? (g : Grammar) (a : Automaton) (p : StateItem) : Option StateItem := do
  let X ← p.item.next? g
  let q ← (a.state p.state).next? X
  if p.item.advance ∈ (a.state q).kernel then some ⟨q, p.item.advance⟩ else none

/-- The items that begin the rules of the nonterminal after the dot. -/
def productions (g : Grammar) (a : Automaton) (p : StateItem) : List StateItem :=
  match p.item.next? g with
  | some X =>
    if g.isTerminal X then []
    else ((a.state p.state).closure.filter fun i => i.lhs g = X).map (⟨p.state, ·⟩)
  | none => []

/-- The items of the same state with the nonterminal of this item after the dot. -/
def producers (g : Grammar) (a : Automaton) (p : StateItem) : List StateItem :=
  ((a.state p.state).items.filter fun i => i.next? g = some (p.item.lhs g)).map (⟨p.state, ·⟩)

/-- The items of the state `q` from which this item is reached over a symbol. -/
def retreats (g : Grammar) (a : Automaton) (q : StateId) (p : StateItem) : List StateItem :=
  ((a.state q).items.map (⟨q, ·⟩)).filter fun before => before.advance? g a = some p

end StateItem

/-- The number of items in the states of an automaton. -/
def Automaton.stateItemCount (a : Automaton) : Nat :=
  total (a.states.toList.map fun s => s.items.length)

end LRAutomata
