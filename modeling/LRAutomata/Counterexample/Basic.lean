/-
  Counterexamples: how a parser comes to a conflict.

  For each of the two actions there is a path to an item that asks for it, and
  the derivation along the path.
-/
import LRAutomata.Counterexample.Search
import LRAutomata.Event

namespace LRAutomata

/-- An example of how a parser comes to a conflict. -/
structure Counterexample where
  conflict : Conflict
  /-- The token on which the actions collide. -/
  symbol : SymbolId
  /-- The path to the shift, or to the first of two reductions. -/
  path₁ : Option (List PathStep)
  /-- The path to the reduction, or to the second one. -/
  path₂ : Option (List PathStep)
  derivation₁ : Option Derivation
  derivation₂ : Option Derivation
deriving DecidableEq, Repr

namespace Counterexample

/-! ## The derivation along a path -/

/-- Put an item above a derivation.  If the token is still to be derived and
    can come from the symbol after the next one, it is derived there, and is
    to be derived no more. -/
def grow (g : Grammar) (a : Automaton) (p : StateItem) (below : Option Derivation)
    (pending : Option SymbolId) : Derivation × Option SymbolId :=
  let d := Derivation.above p.item below
  match pending, p.item.nextNext? g with
  | some token, some X =>
    if token ∈ g.first X then
      (d.withRight ((p.advance? g a).bind fun next => derivationOf? g a next token), none)
    else (d, pending)
  | _, _ => (d, pending)

/-- The derivation along a path, whose steps are given from the last to the
    first.  `inside` tells that the dot was moved to where the derivation
    stands: then the steps back to the beginning of the rule add nothing. -/
def growAlong (g : Grammar) (a : Automaton) :
    (inside : Bool) → (below : Option Derivation) → (pending : Option SymbolId) →
    List PathStep → Option Derivation
  | _, below, _, [] => below
  | false, below, pending, step :: rest =>
    let (d, pending) := grow g a step.target below pending
    match step with
    | .start _ => some d
    | .transition .. => growAlong g a true (some d) pending rest
    | .production .. => growAlong g a false (some d) pending rest
  | true, below, pending, step :: rest =>
    match step with
    | .start p => some (.above p.item below)
    | .transition .. => growAlong g a true below pending rest
    | .production .. => growAlong g a false below pending rest

/-- The derivation along a path.  A path to a reduction also shows where the
    token on which the actions collide comes from. -/
def derivationAlong (g : Grammar) (a : Automaton) (token : SymbolId) (path : List PathStep) :
    Option Derivation :=
  path.getLast?.bind fun last =>
    let pending := if last.target.item.isComplete g then some token else none
    growAlong g a false none pending path.reverse

/-! ## Examples -/

/-- The last item of a path. -/
def lastItem? (path : Option (List PathStep)) : Option Item :=
  (path.bind List.getLast?).map fun step => step.target.item

/-- The example with the given paths. -/
def ofPaths (g : Grammar) (a : Automaton) (conflict : Conflict) (symbol : SymbolId)
    (path₁ path₂ : Option (List PathStep)) : Counterexample :=
  { conflict, symbol, path₁, path₂
    derivation₁ := path₁.bind (derivationAlong g a symbol)
    derivation₂ := path₂.bind (derivationAlong g a symbol) }

/-- The example for a conflict of the state `q`, on its first token. -/
def ofConflict? (g : Grammar) (a : Automaton) (q : StateId) (conflict : Conflict) :
    Option Counterexample :=
  conflict.symbols.head?.map fun token =>
    match conflict with
    | .shiftReduce _ reduce =>
      let path₂ := shortestPath? g a q reduce token
      let shift? := (a.state q).items.find? fun i => i.next? g = some token
      let path₁ := do shiftPath? g a (← path₂) q (← shift?)
      ofPaths g a conflict token path₁ path₂
    | .reduceReduce _ reduce₁ reduce₂ =>
      ofPaths g a conflict token (shortestPath? g a q reduce₁ token)
        (shortestPath? g a q reduce₂ token)

/-- One example for each conflict of a state. -/
def ofState (g : Grammar) (a : Automaton) (q : StateId) :
    Except LookupError (List Counterexample) :=
  match a.states[q]? with
  | some s => .ok (s.conflicts.filterMap (ofConflict? g a q))
  | none => .error (.unknownState q)

/-- The events logged for an example: a missing path is mentioned. -/
def events (x : Counterexample) : List Event :=
  if x.path₁.isNone || x.path₂.isNone then
    [⟨.debug, "no counterexample path for " ++ x.conflict.label⟩]
  else []

end Counterexample

end LRAutomata
