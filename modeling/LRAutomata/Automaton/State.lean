/-
  States with their actions: the transitions that remain, the reductions with
  their lookaheads, the conflicts between them, and the default reduction.

  Everything here is read off the items of a state and the lookahead sets of
  its reductions (`State.ofCore`).  The shift/reduce encounters of a state are
  listed once (`encounters`); conflicts, resolutions and the actions that lose
  are views of that list.

  The rows of a `Table` are filled in place: conflicts are recorded and actions
  marked one after the other, and cleared before that is done again.  They come to
  the same states (`Row.state_record`).
-/
import LRAutomata.Automaton.Conflict
import LRAutomata.Automaton.Lookahead

namespace LRAutomata

/-- A reduction of a state. -/
structure Reduction where
  item : Item
  /-- The tokens on which to reduce; a state whose only action is the
      reduction needs none. -/
  lookahead : Option NatSet
  /-- The tokens on which another action is taken. -/
  deselected : NatSet
  /-- Whether to reduce also on tokens that are not listed. -/
  isDefault : Bool
deriving DecidableEq, Repr

namespace Reduction

/-- The rule by which to reduce. -/
def rule (r : Reduction) : RuleId :=
  r.item.rule

/-- The lookahead, empty if none is needed. -/
def tokens (r : Reduction) : NatSet :=
  r.lookahead.getD ∅

/-- The lookahead without the tokens on which another action is taken. -/
def selected (r : Reduction) : NatSet :=
  r.tokens \ r.deselected

end Reduction

/-- A state with its actions. -/
structure State extends Core where
  /-- The symbols whose shift loses to a reduction or an error. -/
  deselectedShifts : NatSet
  reductions : List Reduction
  conflicts : List Conflict
  resolved : List ResolvedConflict
  /-- The rule by which to reduce on tokens that are not listed. -/
  defaultRule : Option RuleId
deriving DecidableEq, Repr, Inhabited

namespace State

/-- A state before lookaheads are known. -/
def bare (g : Grammar) (c : Core) : State :=
  { c with
    deselectedShifts := ∅
    reductions := (c.completeItems g).map fun i => ⟨i, none, ∅, false⟩
    conflicts := []
    resolved := []
    defaultRule := none }

/-- Whether the reductions of a state need lookaheads: a single reduction of a
    state that reads no terminal does not. -/
def needsLookahead (g : Grammar) (c : Core) : Bool :=
  (c.completeItems g).length ≠ 1 || !(c.terminalEdges g).isEmpty

/-- The reductions of a state with their lookaheads, before any is deselected. -/
def reductionsOf (g : Grammar) (la : OrderedMap StateRule NatSet) (c : Core) (q : StateId) :
    List Reduction :=
  (c.completeItems g).map fun i =>
    ⟨i, if needsLookahead g c then la.get? ⟨q, i.rule⟩ else none, ∅, false⟩

/-- A token that a state can shift and on which it can reduce. -/
structure Encounter where
  symbol : SymbolId
  item : Item
  verdict : Verdict
deriving DecidableEq, Repr

/-- The shifts of a state that meet a reduction on the same token. -/
def encounters (g : Grammar) (c : Core) (reductions : List Reduction) : List Encounter :=
  c.edges.flatMap fun e => (reductions.filter fun r => e.symbol ∈ r.tokens).map fun r =>
    ⟨e.symbol, r.item, .ofPrecedence (g.symbol e.symbol).precedence (g.rulePrecedence r.rule)⟩

/-- The encounters that precedence leaves undecided. -/
def shiftReduceConflicts (met : List Encounter) : List Conflict :=
  met.filterMap fun m => match m.verdict with
    | .undecided => some (.shiftReduce m.symbol m.item)
    | .decided .. => none

/-- The encounters that precedence decides. -/
def resolutions (met : List Encounter) : List ResolvedConflict :=
  met.filterMap fun m => match m.verdict with
    | .undecided => none
    | .decided resolution byAssoc => some ⟨m.symbol, m.item.rule, resolution, byAssoc⟩

/-- The symbols whose shift loses. -/
def losingShifts (resolved : List ResolvedConflict) : NatSet :=
  NatSet.ofList ((resolved.filter fun c => c.resolution ≠ .shift).map (·.symbol))

/-- The tokens on which a reduction loses. -/
def losingTokens (resolved : List ResolvedConflict) (r : RuleId) : NatSet :=
  NatSet.ofList ((resolved.filter fun c => c.rule = r ∧ c.resolution ≠ .reduce).map (·.symbol))

/-- The pairs of reductions with a common token. -/
def reduceReduceConflicts : List Reduction → List Conflict
  | [] => []
  | r₁ :: rest =>
    (rest.filterMap fun r₂ =>
      let common := r₁.tokens ∩ r₂.tokens
      if common.isEmpty then none else some (.reduceReduce common.toList r₁.item r₂.item)) ++
    reduceReduceConflicts rest

/-- The reduction with the most tokens, of those the one with the least rule. -/
def widest? : List Reduction → Option Reduction
  | [] => none
  | r :: rest =>
    match widest? rest with
    | none => some r
    | some best =>
      if best.tokens.size < r.tokens.size ∨
          best.tokens.size = r.tokens.size ∧ r.rule ≤ best.rule then some r
      else some best

/-- The default reduction of a state.  There is none in a state with conflicts
    or with a shift of the error token. -/
def defaultRule? (c : Core) (reductions : List Reduction) (conflicts : List Conflict) :
    Option RuleId :=
  if conflicts.isEmpty && !c.hasErrorShift then
    (widest? reductions).map Reduction.rule
  else none

/-- The actions of the state `q` with the given items and lookahead sets. -/
def ofCore (g : Grammar) (la : OrderedMap StateRule NatSet) (c : Core) (q : StateId) : State :=
  let reductions := reductionsOf g la c q
  let met := encounters g c reductions
  let conflicts := shiftReduceConflicts met ++ reduceReduceConflicts reductions
  let resolved := resolutions met
  let defaultRule := defaultRule? c reductions conflicts
  { c with
    deselectedShifts := losingShifts resolved
    reductions := reductions.map fun r =>
      { r with
        deselected := losingTokens resolved r.rule
        isDefault := defaultRule = some r.rule }
    conflicts
    resolved
    defaultRule }

/-- The reduction by a rule. -/
def reduction? (s : State) (r : RuleId) : Option Reduction :=
  s.reductions.find? fun red => red.rule = r

/-- Whether a transition remains in spite of the reductions of the state. -/
def isSelected (s : State) (X : SymbolId) : Bool :=
  X ∉ s.deselectedShifts

/-- The number of conflicts that involve a shift. -/
def shiftReduceCount (s : State) : Nat :=
  (s.conflicts.filter Conflict.isShiftReduce).length

/-- The number of conflicts between reductions. -/
def reduceReduceCount (s : State) : Nat :=
  (s.conflicts.filter fun c => !c.isShiftReduce).length

/-- The state with the number `q` as text. -/
def display (g : Grammar) (s : State) (q : StateId) : String :=
  let block (title : String) (lines : List String) : List String :=
    if lines.isEmpty then [] else title :: lines.map ("- " ++ ·)
  let edge (e : Edge) : String :=
    g.display e.symbol ++ " => " ++ Label.state e.target ++
      if s.isSelected e.symbol then "" else " (not selected)"
  let reduction (r : Reduction) : String :=
    let tokens := match r.lookahead with
      | some la => "  " ++ Label.list (la.toList.map g.display)
      | none => ""
    g.displayRule r.rule ++ tokens ++ if r.isDefault then " (default)" else ""
  let lines :=
    [s!"## State {q}", "### kernels:"] ++ s.kernel.map (fun i => "- " ++ i.display g) ++
    block "### closure:" (s.closure.map (·.display g)) ++
    block "### transitions:" (s.edges.map edge) ++
    block "### reduces:" (s.reductions.map reduction) ++
    block "### conflicts:" (s.conflicts.map (·.display g)) ++
    block "### resolved conflicts:" (s.resolved.map (·.display g)) ++
    (if s.predecessors.isEmpty then []
      else ["### predecessors: " ++ Label.list (s.predecessors.map Label.state)]) ++
    (if s.isocore = q then [] else ["### split from: " ++ Label.state s.isocore])
  String.join (lines.map (· ++ "\n"))

end State

end LRAutomata
