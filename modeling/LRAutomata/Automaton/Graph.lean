/-
  Transition graphs: the part of an automaton that does not know lookaheads.

  A `Core` is a state as a set of items with its transitions.  Several states
  of a graph may have the same items; one of them, their isocore, represents
  them.  States are numbered by their place in the graph.

  A graph is what the rows of a `Table` have in common with each other.  These
  store their numbers, and their transitions apart from their shifts, and note
  their predecessors one by one; that they agree with the graph is proved of every
  table that is built (`Table.Fits`, `Table.link_graphOf`).
-/
import LRAutomata.Automaton.ItemSet
import LRAutomata.StateId

namespace LRAutomata

/-- The transition of a state on a symbol. -/
structure Edge where
  symbol : SymbolId
  target : StateId
  /-- The kernel to which the transition leads. -/
  nextItems : List Item
deriving DecidableEq, Repr

/-- A state without lookaheads. -/
structure Core where
  /-- The symbol of the transitions into the state; the start state has none. -/
  accessing : Option SymbolId
  kernel : List Item
  /-- The items added to the kernel, in the order of their rules. -/
  closure : List Item
  /-- The transitions, in the order of their symbols. -/
  edges : List Edge
  /-- The states with a transition to this one, in ascending order. -/
  predecessors : List StateId
  /-- The state that represents those with the same items. -/
  isocore : StateId
deriving DecidableEq, Repr, Inhabited

namespace Core

/-- All items of a state, those of the kernel first. -/
def items (c : Core) : List Item :=
  c.kernel ++ c.closure

/-- The items at the end of their rule. -/
def completeItems (g : Grammar) (c : Core) : List Item :=
  c.items.filter fun i => (i.next? g).isNone

/-- The state reached by reading a symbol. -/
def next? (c : Core) (X : SymbolId) : Option StateId :=
  (c.edges.find? fun e => e.symbol = X).map Edge.target

/-- The transitions on terminals. -/
def terminalEdges (g : Grammar) (c : Core) : List Edge :=
  c.edges.filter fun e => g.isTerminal e.symbol

/-- The transitions on nonterminals. -/
def nonterminalEdges (g : Grammar) (c : Core) : List Edge :=
  c.edges.filter fun e => !g.isTerminal e.symbol

/-- The terminals that can be read. -/
def terminals (g : Grammar) (c : Core) : NatSet :=
  NatSet.ofList ((c.terminalEdges g).map Edge.symbol)

/-- Whether the error token can be read. -/
def hasErrorShift (c : Core) : Bool :=
  c.edges.any fun e => e.symbol = SymbolId.error

end Core

/-- A transition graph. -/
structure Graph where
  cores : Array Core
deriving DecidableEq, Repr

namespace Graph

/-- The number of states. -/
def size (a : Graph) : Nat :=
  a.cores.size

/-- The state with the given number; the graph is only asked for its states. -/
def core (a : Graph) (q : StateId) : Core :=
  a.cores.getD q default

/-- The states with their numbers, in ascending order. -/
def states (a : Graph) : List (Core × StateId) :=
  a.cores.toList.zipIdx

/-- The state reached by reading a symbol. -/
def next? (a : Graph) (q : StateId) (X : SymbolId) : Option StateId :=
  (a.core q).next? X

/-- The state reached by reading a string, with the places passed on the way:
    each symbol with the state in which it is read. -/
def trace? (a : Graph) : StateId → List SymbolId → Option (List Goto × StateId)
  | q, [] => some ([], q)
  | q, X :: rest => do
    let next ← a.next? q X
    let (places, last) ← a.trace? next rest
    some (⟨q, X⟩ :: places, last)

/-- The states with a transition to `q`, in ascending order. -/
def predecessorsOf (a : Graph) (q : StateId) : List StateId :=
  (a.states.filter fun (c, _) => c.edges.any fun e => e.target = q).map Prod.snd

/-- The graph with the predecessors of every state filled in. -/
def link (a : Graph) : Graph :=
  ⟨(a.states.map fun (c, q) => { c with predecessors := a.predecessorsOf q }).toArray⟩

end Graph

end LRAutomata
