/-
  The construction of the LR(0) rows.

  Rows are appended as they are found, and completed in that order: a row gets
  its closure, its shifts, its transitions and its reductions, and is noted as a
  predecessor where its transitions lead.

  A position takes sixteen bits.  Where a dot would have to move further, the
  construction stops.
-/
import LRAutomata.Automaton.Lr0
import LRAutomata.Panic
import LRAutomata.Table.Basic
import LRAutomata.Table.Closure

namespace LRAutomata.Table

/-- The row with the given kernel, which is appended if it is new. -/
def findOrAdd (rows : Array Row) (X : SymbolId) (kernel : List Item) : Array Row × StateId :=
  match rows.toList.findIdx? fun r => r.kernel = kernel with
  | some q => (rows, q)
  | none => (rows.push (Row.fresh rows.size (some X) kernel), rows.size)

/-- The kernels to which the items lead, with the symbols read, in ascending order. -/
def successors (g : Grammar) (items : List Item) : Checked (List (SymbolId × List Item)) :=
  (ItemSet.nextSymbols g items).mapM fun X => do
    let next ← (items.filter fun i => i.next? g = some X).mapM Checked.advance
    pure (X, ItemSet.sorted next)

/-- What is found while a row is completed. -/
structure Expansion where
  rows : Array Row
  shifts : List Shift
  transitions : OrderedMap SymbolId StateId

/-- One more transition of the row `q`. -/
def Expansion.next (q : StateId) (x : Expansion) (successor : SymbolId × List Item) : Expansion :=
  let (X, nextItems) := successor
  let (rows, target) := findOrAdd x.rows X nextItems
  { rows := rows.modify target (Row.appendPredecessor q)
    shifts := x.shifts ++ [⟨X, nextItems, false⟩]
    transitions := x.transitions.insert X target }

/-- Complete the row `q`. -/
def expand (g : Grammar) (rows : Array Row) (q : StateId) : Checked (Array Row) := do
  let kernel := (rows.getD q default).kernel
  let closure := closure g kernel
  let items := kernel ++ closure
  let next ← successors g items
  let x := next.foldl (Expansion.next q) ⟨rows, [], ∅⟩
  let reductions := (items.filter fun i => (i.next? g).isNone).map Reduction.fresh
  pure (x.rows.modify q fun r =>
    { r with closure, shifts := x.shifts, transitions := x.transitions, reductions })

/-- Complete the rows from `q` on, at most `rounds` of them. -/
def expandFrom (g : Grammar) : (rounds : Nat) → Array Row → StateId → Checked (Array Row)
  | 0, rows, _ => pure rows
  | rounds + 1, rows, q =>
    if q < rows.size then do expandFrom g rounds (← expand g rows q) (q + 1) else pure rows

/-- The rows of the LR(0) automaton.  As many rounds as there are sets of items
    complete all of them. -/
def lr0 (g : Grammar) : Checked (Array Row) :=
  expandFrom g (subsetCount (Lr0.itemCount g)) #[Row.fresh StateId.start none [Item.start]] StateId.start

end LRAutomata.Table
