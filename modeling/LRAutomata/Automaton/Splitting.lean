/-
  Splitting states whose merged lookaheads cause inadequacies.

  The transitions are walked again from the start state, with the lookaheads
  that matter for the annotations.  A state keeps the lookaheads that reach it
  as long as they call for the same actions; lookaheads that call for others
  go to a copy of the state.

  * `Splitting.isCompatible` compares what two sets of lookaheads call for;
  * `Splitting.walk` is the walk, which ends when no lookahead reaches a state
    anew.
-/
import LRAutomata.Automaton.Annotation

namespace LRAutomata

/-- What the walk needs to know of the automaton that it splits. -/
structure Splitting where
  automaton : Automaton
  follows : GotoFollows
  annotations : AnnotationLists
  /-- For each kernel item of each state the tokens that matter. -/
  filters : Array (List NatSet)

namespace Splitting

/-- The tokens of the annotations to which each kernel item contributes. -/
def filtersOf (a : Automaton) (lists : AnnotationLists) : Array (List NatSet) :=
  ((a.states.toList.zip lists.toList).map fun (s, l) =>
    let tokens := l.foldl (fun tokens (w, n) =>
      n.contributors.toList.foldl (fun tokens k => tokens.modify k (insert w.token)) tokens)
      (Array.replicate s.kernel.length ∅)
    tokens.toList).toArray

/-- Trace back the inadequacies of an automaton. -/
def prepare (g : Grammar) (a : Automaton) : Splitting :=
  let src := LookaheadSources.compute g a
  let annotations := src.annotations g a
  { automaton := a, follows := src.follows, annotations, filters := filtersOf a annotations }

/-- Whether any state has an inadequacy. -/
def isNeeded (sp : Splitting) : Bool :=
  sp.annotations.toList.any fun l => !l.isEmpty

/-- The annotations of a state. -/
def annotationsOf (sp : Splitting) (q : StateId) : List (Inadequacy × Annotation) :=
  sp.annotations.getD q []

/-- Whether an action of an inadequacy survives the resolution by precedence. -/
def isSelected (sp : Splitting) (w : Inadequacy) : Action → Bool
  | .shift =>
    let s := sp.automaton.state w.state
    s.edges.any (fun e => e.symbol = w.token) && s.isSelected w.token
  | .reduce r =>
    match (sp.automaton.state w.state).reduction? r with
    | some reduction => w.token ∉ reduction.deselected
    | none => false

/-- The actions that the given lookaheads call for at an inadequacy; `none` if
    they call for no action at all. -/
def dominant? (sp : Splitting) (w : Inadequacy) (n : Annotation) (lookaheads : List NatSet) :
    Option (List Action) :=
  let present := n.filter (·.isPresent w.token lookaheads)
  if present.isEmpty then none
  else some ((present.map Contribution.action).filter (sp.isSelected w))

/-- Whether two lookaheads for the same state call for the same actions. -/
def isCompatible (sp : Splitting) (core : StateId) (current incoming : List NatSet) : Bool :=
  (sp.annotationsOf core).all fun (w, n) =>
    match sp.dominant? w n current, sp.dominant? w n incoming with
    | some here, some there => here = there
    | _, _ => true

/-- The lookaheads that matter for the kernel items of the state `next`, when
    it is reached from `core` with the lookaheads `source`. -/
def propagate (g : Grammar) (sp : Splitting) (core : StateId) (source : List NatSet)
    (next : StateId) : List NatSet :=
  let kernel := (sp.automaton.state core).kernel
  ((sp.automaton.state next).kernel.zip (sp.filters.getD next [])).map fun (i, filter) =>
    let arriving : NatSet :=
      if i.rule = RuleId.accept then ∅
      else if i.position = 1 then
        let p : Goto := ⟨core, i.lhs g⟩
        (sp.follows.kernelItems.getD p ∅).toList.foldl (fun la k => la ∪ source.getD k ∅)
          (sp.follows.always.getD p ∅)
      else match kernel.findIdx? fun j => j.precedes i with
        | some k => source.getD k ∅
        | none => ∅
    arriving ∩ filter

/-- The state of the walk. -/
structure Walk where
  /-- The states so far; copies come after those of the automaton. -/
  cores : Array Core
  /-- The lookaheads that have reached each state; `none` if none have yet. -/
  lookaheads : Array (Option (List NatSet))
  /-- For each state of the automaton itself and its copies. -/
  copies : Array (List StateId)
  queue : Worklist StateId

namespace Walk

/-- The walk before its first step. -/
def start (a : Automaton) : Walk :=
  let cores := a.graph.cores
  let empty := (a.state StateId.start).kernel.map fun _ => (∅ : NatSet)
  { cores
    lookaheads := (Array.replicate cores.size none).setIfInBounds StateId.start (some empty)
    copies := ((List.range cores.size).map ([·])).toArray
    queue := ((∅ : Worklist StateId).push StateId.start).1 }

/-- The lookaheads that have reached a state. -/
def lookaheads? (w : Walk) (q : StateId) : Option (List NatSet) :=
  w.lookaheads.getD q none

/-- Let lookaheads reach a state.  If they are new there, the state has to be
    walked from again. -/
def deliver (w : Walk) (q : StateId) (incoming : List NatSet) : Walk :=
  let merged := match w.lookaheads? q with
    | some current => current.zipWith (· ∪ ·) incoming
    | none => incoming
  if w.lookaheads? q = some merged then w
  else
    { w with
      lookaheads := w.lookaheads.setIfInBounds q (some merged)
      queue := (w.queue.push q).1 }

/-- Make a copy of a state for lookaheads that no other copy can take. -/
def copy (w : Walk) (core : StateId) (incoming : List NatSet) : Walk × StateId :=
  let q := w.cores.size
  ({ cores := w.cores.push { w.cores.getD core default with isocore := core, predecessors := [] }
     lookaheads := w.lookaheads.push (some incoming)
     copies := w.copies.modify core (· ++ [q])
     queue := (w.queue.push q).1 }, q)

/-- Let a transition lead to another state. -/
def retarget (w : Walk) (q : StateId) (X : SymbolId) (target : StateId) : Walk :=
  let change (e : Edge) : Edge := if e.symbol = X then { e with target } else e
  { w with cores := w.cores.modify q fun c => { c with edges := c.edges.map change } }

/-- Follow a transition of the state `q`: the lookaheads go to the first copy
    of its target that can take them, or to a new one. -/
def follow (g : Grammar) (sp : Splitting) (q : StateId) (core : StateId) (source : List NatSet)
    (w : Walk) (e : Edge) : Walk :=
  let next := (w.cores.getD e.target default).isocore
  let incoming := sp.propagate g core source next
  let taker? := (w.copies.getD next []).find? fun s =>
    match w.lookaheads? s with
    | some current => sp.isCompatible next current incoming
    | none => true
  let (w, target) := match taker? with
    | some s => (w.deliver s incoming, s)
    | none => w.copy next incoming
  w.retarget q e.symbol target

/-- Walk from the states that wait, at most `rounds` of them. -/
def run (g : Grammar) (sp : Splitting) : (rounds : Nat) → Walk → Walk
  | 0, w => w
  | rounds + 1, w =>
    match w.queue.pop? with
    | none => w
    | some (q, queue) =>
      let w := { w with queue }
      match w.lookaheads? q with
      | none => run g sp rounds w
      | some source =>
        let c := w.cores.getD q default
        run g sp rounds (c.edges.foldl (follow g sp q c.isocore source) w)

end Walk

/-- A bound for the steps of the walk.  The copies of a state call for
    different actions, which bounds their number; a state is walked from when
    it is reached, and again when one of its lookaheads grows. -/
def bound (g : Grammar) (sp : Splitting) : Nat :=
  let a := sp.automaton
  let width := greatest (a.states.toList.map fun s => s.kernel.length)
  let copies := total (sp.annotations.toList.map fun l =>
    subsetCount (total (l.map fun (_, n) => n.length)))
  (a.states.size + copies) * (width * g.terminalCount + 2) + 1

/-- The walk when no state waits any more. -/
def walk (g : Grammar) (sp : Splitting) : Walk :=
  Walk.run g sp (sp.bound g) (Walk.start sp.automaton)

/-- The graph of the split automaton, with the states that are no longer
    reached still in it. -/
def graph (g : Grammar) (sp : Splitting) : Graph :=
  ⟨(sp.walk g).cores⟩

end Splitting

end LRAutomata
