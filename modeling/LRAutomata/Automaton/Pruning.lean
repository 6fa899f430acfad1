/-
  Removing the states that cannot be reached from the start state.

  The remaining states keep their order and are renumbered.  States with the
  same items stay represented by one of them: the one that represented them,
  or else the first that remains.
-/
import LRAutomata.Automaton.Graph

namespace LRAutomata.Graph

/-- Add to a set of states those to which their transitions lead. -/
def reachStep (a : Graph) (reached : NatSet) : NatSet :=
  a.states.foldl (fun s (c, q) =>
    if q ∈ s then c.edges.foldl (fun s e => insert e.target s) s else s) reached

/-- The states that can be reached from the start state.  Every round but the
    last reaches a state, which bounds the rounds. -/
def reachable (a : Graph) : NatSet :=
  Fixpoint.iterate (reachStep a) (a.size + 1) {StateId.start}

/-- The new number of a state. -/
def renumber? (remaining : List StateId) (q : StateId) : Option StateId :=
  remaining.findIdx? (· = q)

/-- The state that represents those with the isocore `core`. -/
def representative? (a : Graph) (remaining : List StateId) (core : StateId) : Option StateId :=
  renumber? remaining core <|> remaining.findIdx? fun q => (a.core q).isocore = core

/-- The graph without the states that cannot be reached. -/
def prune (a : Graph) : Graph :=
  let remaining := a.reachable.toList
  let renumber (q : StateId) : StateId := (renumber? remaining q).getD q
  link ⟨(remaining.map fun q =>
    let c := a.core q
    { c with
      edges := c.edges.map fun e => { e with target := renumber e.target }
      isocore := (a.representative? remaining c.isocore).getD c.isocore }).toArray⟩

end LRAutomata.Graph
