/-
  The construction of automata, with the events that it logs.

  * `Automaton.lalr` merges all states with the same items;
  * `Automaton.split` separates them again where the merged lookaheads cause
    inadequacies that separate states would not have;
  * `Automaton.generate` does what a configuration asks for.

  Here a split automaton is made anew from its graph.  `Table.split` changes, clears
  and fills the rows that there are, and comes to the same automaton
  (`Table.Built.split`).
-/
import LRAutomata.Automaton.Pruning
import LRAutomata.Automaton.Splitting
import LRAutomata.Event

namespace LRAutomata

/-- The kind of automaton to be built. -/
inductive Mode where
  /-- States with the same items are one state. -/
  | lalr
  /-- States are split where that avoids inadequacies. -/
  | ielr
deriving DecidableEq, Repr

/-- What to build, and how much to log. -/
structure Config where
  mode : Mode
  /-- Whether to log every state when it is found. -/
  traceStates : Bool
deriving DecidableEq, Repr

/-- Merged states, and no log of them. -/
def Config.default : Config :=
  ⟨.lalr, false⟩

/-- The configuration that a grammar asks for. -/
def Config.ofGrammar (g : Grammar) : Config :=
  { Config.default with mode := if g.wantsSplitting then .ielr else .lalr }

/-- The event logged when a grammar is complete. -/
def Grammar.preparedEvent (g : Grammar) : Event :=
  let terminals := g.terminalCount
  let nonterminals := g.nonterminalCount
  let rules := g.rules.size
  ⟨.debug, s!"prepared grammar: {terminals} terminals, {nonterminals} nonterminals, {rules} rules"⟩

namespace Automaton

/-- The graph of the split automaton before unreachable states are removed, if
    there is anything to split. -/
def splitGraph? (g : Grammar) (a : Automaton) : Option Graph :=
  let sp := Splitting.prepare g a
  if sp.isNeeded then some (sp.graph g) else none

/-- Split states where their merged lookaheads cause inadequacies. -/
def split (g : Grammar) (a : Automaton) : Automaton :=
  match splitGraph? g a with
  | some graph => ofGraph g graph.prune
  | none => a

/-- The automaton that a mode asks for. -/
def generate (g : Grammar) (mode : Mode) : Automaton :=
  match mode with
  | .lalr => lalr g
  | .ielr => split g (lalr g)

/-! ## Events -/

/-- The events of the states as they are found: the predecessors known by then
    are those that come before the state, and the state itself. -/
def stateEvents (g : Grammar) (graph : Graph) : List Event :=
  graph.states.map fun (c, q) =>
    let known := { c with predecessors := c.predecessors.filter (· ≤ q) }
    ⟨.debug, (State.bare g known).display g q⟩

/-- The event logged when an automaton is complete. -/
def countEvent (a : Automaton) : Event :=
  let states := a.states.size
  let sr := a.shiftReduceCount
  let rr := a.reduceReduceCount
  ⟨.debug, s!"{states} states, {sr} shift/reduce conflicts, {rr} reduce/reduce conflicts"⟩

/-- The events logged when states are split: one for each copy, then the numbers
    of states before and after. -/
def splitEvents (before : Nat) (graph : Graph) (after : Nat) : List Event :=
  ((graph.states.drop before).map fun (c, q) =>
    ⟨.trace, "split " ++ Label.state q ++ " from " ++ Label.state c.isocore⟩) ++
  [⟨.debug, s!"split {before} LALR(1) states into {after} IELR(1) states"⟩]

/-- The LALR(1) automaton with the events of its construction. -/
def lalrLogged (g : Grammar) (traceStates : Bool) : Automaton × List Event :=
  let a := lalr g
  (a, (if traceStates then stateEvents g a.graph else []) ++ [a.countEvent])

/-- The split automaton with the events of its construction. -/
def splitLogged (g : Grammar) (a : Automaton) : Automaton × List Event :=
  match splitGraph? g a with
  | some graph =>
    let a' := ofGraph g graph.prune
    (a', splitEvents a.states.size graph a'.states.size)
  | none => (a, [⟨.debug, "no inadequate states, skip splitting"⟩])

/-- The automaton that a configuration asks for, with the events of its
    construction. -/
def generateLogged (g : Grammar) (config : Config) : Automaton × List Event :=
  let (a, events) := lalrLogged g config.traceStates
  match config.mode with
  | .lalr => (a, events)
  | .ielr =>
    let (a, more) := splitLogged g a
    (a, events ++ more)

end Automaton

end LRAutomata
