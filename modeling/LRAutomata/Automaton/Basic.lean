/-
  LR automata: states with their actions, and the relations from which the
  lookaheads were computed.

  * `Automaton.ofGraph` equips a transition graph with lookaheads and actions;
  * `Automaton.lalr` is the LALR(1) automaton of a grammar.

  An automaton is what a `Table` stands for, whose rows are changed in place: as
  long as no position is too large, calls on tables leave those of the automata
  described here (`Table.run_cases`).
-/
import LRAutomata.Automaton.Lr0
import LRAutomata.Automaton.State
import LRAutomata.Lookup

namespace LRAutomata

/-- An LR automaton. -/
structure Automaton where
  states : Array State
  lookaheads : Lookaheads
deriving Inhabited

namespace Automaton

/-- The automaton without states. -/
def empty : Automaton :=
  ⟨#[], ⟨∅, ∅, ∅, ∅, ∅, ∅, ∅⟩⟩

/-- Compute lookaheads and actions for a transition graph. -/
def ofGraph (g : Grammar) (graph : Graph) : Automaton :=
  let lookaheads := Lookaheads.compute g graph
  { states := (graph.states.map fun (c, q) => State.ofCore g lookaheads.la c q).toArray
    lookaheads }

/-- The LALR(1) automaton of a grammar. -/
def lalr (g : Grammar) : Automaton :=
  ofGraph g (Lr0.graph g)

/-- The transition graph of an automaton. -/
def graph (a : Automaton) : Graph :=
  ⟨(a.states.toList.map State.toCore).toArray⟩

/-- The state with the given number; the automaton is only asked for its states. -/
def state (a : Automaton) (q : StateId) : State :=
  a.states.getD q default

/-- The state reached by reading a string. -/
def transition (a : Automaton) : StateId → List SymbolId → Except LookupError StateId
  | q, [] => .ok q
  | q, X :: rest =>
    match a.states[q]? with
    | none => .error (.unknownState q)
    | some s =>
      match s.next? X with
      | none => .error (.noTransition q X)
      | some next => a.transition next rest

/-- The number of conflicts that involve a shift. -/
def shiftReduceCount (a : Automaton) : Nat :=
  total (a.states.toList.map State.shiftReduceCount)

/-- The number of conflicts between reductions. -/
def reduceReduceCount (a : Automaton) : Nat :=
  total (a.states.toList.map State.reduceReduceCount)

/-- The states with conflicts, in ascending order. -/
def conflictStates (a : Automaton) : List StateId :=
  (a.states.toList.zipIdx.filter fun (s, _) => !s.conflicts.isEmpty).map Prod.snd

/-- The symbols that some state reads or looks ahead for. -/
def usedSymbols (a : Automaton) : NatSet :=
  a.states.toList.foldl (fun used s =>
    used ∪ NatSet.ofList (s.edges.map Edge.symbol) ∪
      s.reductions.foldl (fun la r => la ∪ r.tokens) ∅) ∅

/-- The terminals other than the reserved ones that no state reads or looks
    ahead for, in ascending order. -/
def unusedTerminals (g : Grammar) (a : Automaton) : List SymbolId :=
  let reserved := [SymbolId.endMarker, SymbolId.error, SymbolId.undefined]
  let used := a.usedSymbols
  g.terminals.filter fun X => X ∉ reserved && X ∉ used

/-- The states as text, with an empty line between them. -/
def display (g : Grammar) (a : Automaton) : String :=
  "\n".intercalate (a.states.toList.zipIdx.map fun (s, q) => s.display g q)

end Automaton

end LRAutomata
