/-
  Automata as they are kept while they are built and changed: tables of rows.

  `Table.automaton` is the automaton that a table stands for.
-/
import LRAutomata.Automaton.Basic
import LRAutomata.Table.Row

namespace LRAutomata

/-- The rows of an automaton, and the relations that were computed last. -/
structure Table where
  rows : Array Row
  lookaheads : Lookaheads
deriving Inhabited

namespace Table

/-- The table without rows. -/
def empty : Table :=
  ⟨#[], Automaton.empty.lookaheads⟩

/-- The row with the given number; a table is only asked for its rows. -/
def row (t : Table) (q : StateId) : Row :=
  t.rows.getD q default

/-- The transition graph of rows. -/
def graphOf (rows : Array Row) : Graph :=
  ⟨rows.map Row.core⟩

/-- The automaton that the table stands for. -/
def automaton (t : Table) : Automaton :=
  ⟨t.rows.map Row.state, t.lookaheads⟩

/-- The state reached by reading a string. -/
def transition? (rows : Array Row) (q : StateId) (γ : List SymbolId) : Option StateId :=
  γ.foldlM (fun q X => (rows.getD q default).transitions.get? X) q

/-- Compute lookaheads, record conflicts and choose default reductions. -/
def fill (g : Grammar) (rows : Array Row) : Table :=
  let lookaheads := Lookaheads.compute g (graphOf rows)
  let rows := rows.map (Row.takeLookaheads g lookaheads.la)
  let rows := rows.map (Row.compareShifts g)
  let rows := rows.map Row.compareReductions
  ⟨rows.map Row.chooseDefault, lookaheads⟩

end Table

end LRAutomata
