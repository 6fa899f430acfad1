/-
  Lookahead sets, from relations between the transitions on nonterminals.

  For a transition `(p, A)` to the state `r`:

  * its direct reads are the terminals that can be read in `r`;
  * it reads `(r, C)` if `C` is nullable, and its read set is what it reads
    directly or through transitions that it reads;
  * it includes `(q, B)` if `B → β A γ` with nullable `γ`, and `β` leads from
    `q` to `p`; its follow set is what it reads, and what follows a transition
    that it includes;
  * a reduction by `A → ω` in the state `s` looks back to `(p, A)` if `ω`
    leads from `p` to `s`; its lookahead set is what follows there.

  Read and follow sets are the least solutions of these equations.
-/
import LRAutomata.Automaton.Graph
import LRAutomata.Data.SetEquations

namespace LRAutomata

/-- The relations and sets from which lookaheads are computed. -/
structure Lookaheads where
  directRead : OrderedMap Goto NatSet
  reads : OrderedMap Goto (List Goto)
  read : OrderedMap Goto NatSet
  includes : OrderedMap Goto (List Goto)
  lookback : OrderedMap StateRule (List Goto)
  follow : OrderedMap Goto NatSet
  /-- The lookahead set of each reduction. -/
  la : OrderedMap StateRule NatSet
deriving Inhabited

namespace Lookaheads

/-- The transitions on nonterminals, with the states to which they lead. -/
def gotoTargets (g : Grammar) (a : Graph) : List (Goto × StateId) :=
  a.states.flatMap fun (c, q) => (c.nonterminalEdges g).map fun e => (⟨q, e.symbol⟩, e.target)

/-- The transitions on nonterminals. -/
def gotos (g : Grammar) (a : Graph) : List Goto :=
  (gotoTargets g a).map Prod.fst

/-- The terminals that can be read after each transition. -/
def directReads (g : Grammar) (a : Graph) : OrderedMap Goto NatSet :=
  OrderedMap.ofList ((gotoTargets g a).map fun (p, r) => (p, (a.core r).terminals g))

/-- The transitions on nullable nonterminals from a state. -/
def nullableGotos (g : Grammar) (a : Graph) (r : StateId) : List Goto :=
  (((a.core r).nonterminalEdges g).filter fun e => g.isNullable e.symbol).map fun e => ⟨r, e.symbol⟩

/-- The transitions that each transition reads; only those that read any are listed. -/
def readsRelation (g : Grammar) (a : Graph) : OrderedMap Goto (List Goto) :=
  OrderedMap.ofList (((gotoTargets g a).map fun (p, r) => (p, nullableGotos g a r)).filter
    fun entry => !entry.2.isEmpty)

/-- Of the places of a right-hand side, the last first: the nonterminals that
    only nullable symbols follow. -/
def nullableTail (g : Grammar) : List Goto → List Goto
  | [] => []
  | p :: rest =>
    if g.isTerminal p.symbol then []
    else if g.isNullable p.symbol then p :: nullableTail g rest
    else [p]

/-- The transitions with their rules and the way along the right-hand side. -/
def expansions (g : Grammar) (a : Graph) : List (Goto × RuleId × List Goto × StateId) :=
  (gotos g a).flatMap fun p => (g.rulesOf p.symbol).filterMap fun r =>
    (a.trace? p.source (g.rhs r)).map fun way => (p, r, way)

/-- The transitions that each transition includes. -/
def includesRelation (g : Grammar) (a : Graph) : OrderedMap Goto (List Goto) :=
  OrderedMap.group ((expansions g a).flatMap fun (p, _, places, _) =>
    (nullableTail g places.reverse).map fun inner => (inner, p))

/-- The transitions to which each reduction looks back. -/
def lookbackRelation (g : Grammar) (a : Graph) : OrderedMap StateRule (List Goto) :=
  OrderedMap.group ((expansions g a).map fun (p, r, _, last) => (⟨last, r⟩, p))

/-- The lookahead sets of the reductions: what follows where they look back. -/
def lookaheadSets (g : Grammar) (a : Graph) (lookback : OrderedMap StateRule (List Goto))
    (follow : OrderedMap Goto NatSet) : OrderedMap StateRule NatSet :=
  OrderedMap.ofList (a.states.flatMap fun (c, q) => (c.completeItems g).filterMap fun i =>
    let reduction : StateRule := ⟨q, i.rule⟩
    (lookback.get? reduction).map fun ps =>
      (reduction, ps.foldl (fun s p => s ∪ follow.getD p ∅) ∅))

/-- All relations and sets of a graph. -/
def compute (g : Grammar) (a : Graph) : Lookaheads :=
  let directRead := directReads g a
  let reads := readsRelation g a
  let read := SetEquations.solve ⟨reads, directRead⟩ directRead.keys
  let includes := includesRelation g a
  let lookback := lookbackRelation g a
  let follow := SetEquations.solve ⟨includes, read⟩ directRead.keys
  { directRead, reads, read, includes, lookback, follow
    la := lookaheadSets g a lookback follow }

end Lookaheads

end LRAutomata
