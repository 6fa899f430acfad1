/-
  Searches for the paths and derivations of a counterexample.

  * `Counterexample.shortestPath?` finds a shortest path to a reduction such
    that the token on which the actions collide can really come next;
  * `Counterexample.shiftPath?` finds a path to a shift through the same states;
  * `Counterexample.derivationOf?` derives a token from the symbol after a dot.
-/
import LRAutomata.Counterexample.Derivation
import LRAutomata.Counterexample.Moves
import LRAutomata.Counterexample.Path
import LRAutomata.Data.Search

namespace LRAutomata

open Std

/-- An item of a state with the tokens that can really come after its rule. -/
structure PreciseItem where
  place : StateItem
  lookahead : NatSet
deriving DecidableEq, Repr

instance : Ord PreciseItem :=
  ⟨compareLex (compareOn PreciseItem.place) (compareOn PreciseItem.lookahead)⟩

namespace Counterexample

/-- The tokens that can really come after a rule of the nonterminal after the
    dot, given those that can come after the item's own rule. -/
def preciseFollow (g : Grammar) (i : Item) (lookahead : NatSet) : NatSet :=
  let rest := i.afterNext g
  if g.isNullableString rest then g.firstOfString rest ∪ lookahead else g.firstOfString rest

/-- The moves from an item: over the next symbol, then into its rules. -/
def preciseMoves (g : Grammar) (a : Automaton) (p : PreciseItem) : List PreciseItem :=
  let inside := preciseFollow g p.place.item p.lookahead
  ((p.place.advance? g a).map (⟨·, p.lookahead⟩)).toList ++
    (p.place.productions g a).map (⟨·, inside⟩)

/-- A shortest path to an item of the state `q` after whose rule the token can
    really come.  A path passes no item twice with the same tokens, which
    bounds its length. -/
def shortestPath? (g : Grammar) (a : Automaton) (q : StateId) (i : Item) (token : SymbolId) :
    Option (List PathStep) :=
  let start : PreciseItem := ⟨⟨StateId.start, Item.start⟩, {SymbolId.endMarker}⟩
  let bound := a.stateItemCount * subsetCount g.terminalCount + 1
  let isGoal (p : PreciseItem) : Bool := p.place = ⟨q, i⟩ && token ∈ p.lookahead
  (Search.shortest? bound start (preciseMoves g a) isGoal).map fun trail =>
    PathStep.path (trail.forward.map PreciseItem.place)

/-- The states that a path passes, from the start state on. -/
def stateSequence (path : List PathStep) : List StateId :=
  StateId.start :: (path.filter PathStep.isTransition).map fun step => step.target.state

/-- The moves back from an item that is reached in the `k`-th of the states
    listed: out of its rule, or over a symbol into the state before. -/
def backwardMoves (g : Grammar) (a : Automaton) (states : List StateId) (node : StateItem × Nat) :
    List (StateItem × Nat) :=
  let (p, k) := node
  if p.item.isInitial then (p.producers g a).map (·, k)
  else match k with
    | 0 => []
    | k + 1 => match states[k]? with
      | some before => (p.retreats g a before).map (·, k)
      | none => []

/-- A path to an item of the state `q` that passes the same states as another
    path to `q`. -/
def shiftPath? (g : Grammar) (a : Automaton) (other : List PathStep) (q : StateId) (i : Item) :
    Option (List PathStep) :=
  let states := stateSequence other
  if states.getLast? ≠ some q then none
  else
    let bound := a.stateItemCount * (states.length + 1) + 1
    let isGoal (node : StateItem × Nat) : Bool := node.2 = 0 && node.1.item.isStart
    (Search.shortest? bound (⟨q, i⟩, states.length - 1) (backwardMoves g a states) isGoal).map
      fun trail => PathStep.path (trail.backward.map Prod.fst)

/-! ## Deriving a token -/

/-- The extensions of a chain of items by one item, if the token can be derived
    from the symbol after the dot: by a rule that is not yet begun in the
    chain, or over a nullable symbol.  The newest item of a chain comes first. -/
def extendChain (g : Grammar) (a : Automaton) (token : SymbolId) (chain : List StateItem) :
    List (List StateItem) :=
  match chain with
  | [] => []
  | p :: _ =>
    match p.item.next? g with
    | none => []
    | some X =>
      if g.isTerminal X || token ∉ g.first X then []
      else
        let begun := (p.productions g a).filter fun next =>
          !(g.rhs next.item.rule).isEmpty && !chain.contains next
        let passed := if g.isNullable X then (p.advance? g a).toList else []
        (begun ++ passed).map (· :: chain)

/-- The first chain, level by level, that has the token after its last dot. -/
def searchChains (g : Grammar) (a : Automaton) (token : SymbolId) :
    (levels : Nat) → List (List StateItem) → Option (List StateItem)
  | 0, _ => none
  | levels + 1, chains =>
    match chains.find? fun chain => (chain.head?.bind (·.item.next? g)) = some token with
    | some chain => some chain
    | none =>
      let extended := chains.flatMap (extendChain g a token)
      if extended.isEmpty then none else searchChains g a token levels extended

/-- A bound for the length of chains: a rule is begun only once in a state, and
    between two beginnings the dot moves at most to the end of a rule. -/
def chainBound (g : Grammar) (a : Automaton) : Nat :=
  let longest := greatest (g.rules.toList.map fun r => r.rhs.length)
  (a.stateItemCount + 1) * (longest + 1) + 1

/-- A derivation from an item that has the token after its last dot. -/
def derivationOf? (g : Grammar) (a : Automaton) (p : StateItem) (token : SymbolId) :
    Option Derivation :=
  (searchChains g a token (chainBound g a) [[p]]).bind fun chain =>
    chain.foldl (fun below p => some (.above p.item below)) none

end Counterexample

end LRAutomata
