/-
  States as they are kept while an automaton is built and changed.

  A `Row` has all that is stored of a state, some of it more than once: its own
  number, its shifts and apart from them the states to which it goes, and for
  every action a mark whether it lost.  Rows are changed in place: their
  conflicts are recorded one by one, the marks are set on the way, and all of
  this is cleared before it is done again.

  `Row.state` is the state that a row stands for.
-/
import LRAutomata.Automaton.State

namespace LRAutomata

/-- A shift or a goto of a state. -/
structure Shift where
  symbol : SymbolId
  /-- The kernel to which it leads. -/
  nextItems : List Item
  /-- Whether it lost to a reduction or an error. -/
  deselected : Bool
deriving DecidableEq, Repr

/-- The shift has lost. -/
def Shift.deselect (s : Shift) : Shift :=
  { s with deselected := true }

namespace Reduction

/-- A reduction of which no lookahead is known. -/
def fresh (i : Item) : Reduction :=
  ⟨i, none, ∅, false⟩

/-- The reduction has lost on a token. -/
def deselect (X : SymbolId) (r : Reduction) : Reduction :=
  { r with deselected := insert X r.deselected }

/-- The reduction without its lookahead and its marks. -/
def clear (r : Reduction) : Reduction :=
  { r with lookahead := none, deselected := ∅, isDefault := false }

end Reduction

/-- What is stored of a state. -/
structure Row where
  id : StateId
  /-- The symbol of the transitions into the state; the start state has none. -/
  accessing : Option SymbolId
  kernel : List Item
  closure : List Item
  shifts : List Shift
  /-- The state reached by each symbol. -/
  transitions : OrderedMap SymbolId StateId
  reductions : List Reduction
  conflicts : List Conflict
  resolved : List ResolvedConflict
  defaultRule : Option RuleId
  predecessors : List StateId
  /-- The state from which this one was split, or its own number. -/
  isocore : StateId
deriving Inhabited

namespace Row

/-- A state of which only the kernel is known. -/
def fresh (id : StateId) (accessing : Option SymbolId) (kernel : List Item) : Row :=
  { id, accessing, kernel, closure := [], shifts := [], transitions := ∅, reductions := [],
    conflicts := [], resolved := [], defaultRule := none, predecessors := [], isocore := id }

/-! ## The state that a row stands for -/

/-- The transitions of the shifts. -/
def edges (r : Row) : List Edge :=
  r.shifts.map fun s => ⟨s.symbol, r.transitions.getD s.symbol StateId.start, s.nextItems⟩

/-- The row without its actions. -/
def core (r : Row) : Core :=
  { accessing := r.accessing, kernel := r.kernel, closure := r.closure, edges := r.edges
    predecessors := r.predecessors, isocore := r.isocore }

/-- The symbols of the shifts that are marked. -/
def deselectedShifts (r : Row) : NatSet :=
  NatSet.ofList ((r.shifts.filter Shift.deselected).map Shift.symbol)

/-- The state that the row stands for. -/
def state (r : Row) : State :=
  { r.core with
    deselectedShifts := r.deselectedShifts
    reductions := r.reductions
    conflicts := r.conflicts
    resolved := r.resolved
    defaultRule := r.defaultRule }

/-! ## Lookaheads -/

/-- Note a predecessor, unless it is known. -/
def appendPredecessor (p : StateId) (r : Row) : Row :=
  if p ∈ r.predecessors then r else { r with predecessors := r.predecessors ++ [p] }

/-- Whether the reductions need lookaheads: a single one without transitions on
    terminals does not. -/
def needsLookahead (g : Grammar) (r : Row) : Bool :=
  r.reductions.length ≠ 1 || r.transitions.keys.any g.isTerminal

/-- Give the reductions the lookaheads found for them. -/
def takeLookaheads (g : Grammar) (la : OrderedMap StateRule NatSet) (r : Row) : Row :=
  { r with reductions := r.reductions.map fun red =>
      match la.get? ⟨r.id, red.rule⟩ with
      | some tokens => if r.needsLookahead g then { red with lookahead := some tokens } else red
      | none => red }

/-! ## Conflicts -/

/-- A shift while it is compared with the reductions of its row, and what was made
    of those with which it has been compared. -/
structure Comparison where
  shift : Shift
  compared : List Reduction
  conflicts : List Conflict
  resolved : List ResolvedConflict

/-- Compare the shift with one more reduction: record how precedence decides, and
    mark what loses. -/
def Comparison.next (g : Grammar) (c : Comparison) (red : Reduction) : Comparison :=
  let X := c.shift.symbol
  if X ∉ red.tokens then { c with compared := c.compared ++ [red] }
  else match Verdict.ofPrecedence (g.symbol X).precedence (g.rulePrecedence red.rule) with
    | .undecided =>
      { c with
        compared := c.compared ++ [red]
        conflicts := c.conflicts ++ [.shiftReduce X red.item] }
    | .decided resolution byAssoc =>
      { c with
        shift := match resolution with
          | .shift => c.shift
          | .reduce | .error => c.shift.deselect
        compared := c.compared ++ [match resolution with
          | .reduce => red
          | .shift | .error => red.deselect X]
        resolved := c.resolved ++ [⟨X, red.rule, resolution, byAssoc⟩] }

/-- Compare a shift with all reductions, and put it back. -/
def compareShift (g : Grammar) (r : Row) (s : Shift) : Row :=
  let c := r.reductions.foldl (Comparison.next g) ⟨s, [], r.conflicts, r.resolved⟩
  { r with
    shifts := r.shifts ++ [c.shift]
    reductions := c.compared
    conflicts := c.conflicts
    resolved := c.resolved }

/-- Compare every shift with every reduction. -/
def compareShifts (g : Grammar) (r : Row) : Row :=
  r.shifts.foldl (compareShift g) { r with shifts := [] }

/-- Record the conflicts between reductions. -/
def compareReductions (r : Row) : Row :=
  { r with conflicts := r.conflicts ++ State.reduceReduceConflicts r.reductions }

/-- Choose the default reduction, and mark it. -/
def chooseDefault (r : Row) : Row :=
  if r.reductions.isEmpty || !r.conflicts.isEmpty || r.shifts.any (fun s => s.symbol = SymbolId.error)
  then r
  else match State.widest? r.reductions with
    | none => r
    | some best =>
      { r with
        defaultRule := some best.rule
        reductions := r.reductions.map fun red =>
          if red.rule = best.rule then { red with isDefault := true } else red }

/-- Forget lookaheads, records, marks and the default reduction. -/
def clear (r : Row) : Row :=
  { r with
    shifts := r.shifts.map fun s => { s with deselected := false }
    reductions := r.reductions.map Reduction.clear
    conflicts := []
    resolved := []
    defaultRule := none }

end Row

end LRAutomata
