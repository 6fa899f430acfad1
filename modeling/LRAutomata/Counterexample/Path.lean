/-
  Paths through the items of an automaton.

  A path begins at the start item.  A transition moves the dot over a symbol
  and enters the next state; a production stays in the state and begins a rule
  of the nonterminal after the dot.
-/
import LRAutomata.Label

namespace LRAutomata

/-- A step of a path, with the item at which it arrives. -/
inductive PathStep where
  | start (target : StateItem)
  | transition (source target : StateItem)
  | production (source target : StateItem)
deriving DecidableEq, Repr

namespace PathStep

/-- The item from which the step leads; the first step has none. -/
def source? : PathStep → Option StateItem
  | start _ => none
  | transition source _ | production source _ => some source

/-- The item to which the step leads. -/
def target : PathStep → StateItem
  | start target | transition _ target | production _ target => target

/-- Whether the step moves the dot over a symbol. -/
def isTransition : PathStep → Bool
  | transition .. => true
  | _ => false

/-- The label of a step in logs. -/
def label : PathStep → String
  | start target => "Start \x7b to: " ++ Label.stateItem target ++ " \x7d"
  | transition source target => "Transition \x7b " ++ ends source target ++ " \x7d"
  | production source target => "Production \x7b " ++ ends source target ++ " \x7d"
where
  ends (source target : StateItem) : String :=
    "from: " ++ Label.stateItem source ++ ", to: " ++ Label.stateItem target

/-- The steps that lead from one item to the next.  Only a production arrives
    at the beginning of a rule. -/
def between (source : StateItem) : List StateItem → List PathStep
  | [] => []
  | target :: rest =>
    (if target.item.isInitial then production source target else transition source target) ::
      between target rest

/-- The path through the items listed. -/
def path : List StateItem → List PathStep
  | [] => []
  | first :: rest => start first :: between first rest

end PathStep

end LRAutomata
