/-
  Which kernel items are to blame for an inadequacy.

  An inadequacy is a token on which a state has several actions.  It comes from
  lookaheads, and these come from kernel items of the state and, further back,
  of the states before it.  The annotations of a state tell, for each
  inadequacy that its kernel items contribute to and each action there, which
  items they are.

  An action without recorded items is taken whatever the lookaheads are.
-/
import LRAutomata.Automaton.KernelLookahead
import LRAutomata.Data.Worklist

namespace LRAutomata

open Std

/-- A token on which a state has several actions. -/
structure Inadequacy where
  state : StateId
  token : SymbolId
deriving DecidableEq, Repr

namespace Inadequacy

instance : Ord Inadequacy := ⟨compareLex (compareOn state) (compareOn token)⟩

instance : TransOrd Inadequacy :=
  inferInstanceAs (TransCmp (compareLex (compareOn state) (compareOn token)))

instance : LawfulEqOrd Inadequacy :=
  lawful_compareLex state token (by rintro ⟨⟩ ⟨⟩ rfl rfl; rfl)

end Inadequacy

/-- What a parser can do on a token. -/
inductive Action where
  | shift
  | reduce (rule : RuleId)
deriving DecidableEq, Repr

/-- The positions of the kernel items that contribute to an action; `none` if
    the action is taken whatever the lookaheads are. -/
structure Contribution where
  action : Action
  kernelItems : Option NatSet
deriving DecidableEq, Repr

/-- Whether the action is taken with the given lookaheads of the kernel items. -/
def Contribution.isPresent (c : Contribution) (token : SymbolId) (lookaheads : List NatSet) :
    Bool :=
  match c.kernelItems with
  | none => true
  | some ks => ks.toList.any fun k => token ∈ lookaheads.getD k ∅

/-- The contributions to the actions of an inadequacy. -/
abbrev Annotation := List Contribution

namespace Annotation

/-- The positions of the kernel items that contribute to some action. -/
def contributors (n : Annotation) : NatSet :=
  n.foldl (fun ks c => ks ∪ c.kernelItems.getD ∅) ∅

/-- Whether no kernel item contributes. -/
def isUseless (n : Annotation) : Bool :=
  n.contributors.isEmpty

/-- Add further kernel items to the contributions to the same actions. -/
def merge (n added : Annotation) : Annotation :=
  (n.zip added).map fun (c, d) =>
    { c with kernelItems := match c.kernelItems, d.kernelItems with
      | some ks, some ls => some (ks ∪ ls)
      | none, ks | ks, none => ks }

end Annotation

/-- The annotations of each state. -/
abbrev AnnotationLists := Array (List (Inadequacy × Annotation))

/-- Where the lookaheads of an automaton come from. -/
structure LookaheadSources where
  follows : GotoFollows
  kernelLookaheads : KernelLookaheads

namespace LookaheadSources

/-- The sources of lookaheads of an automaton. -/
def compute (g : Grammar) (a : Automaton) : LookaheadSources :=
  ⟨GotoFollows.compute g a, KernelLookaheads.compute g a⟩

/-- The kernel items of `q` whose lookaheads bring the token after the
    transition on `lhs`, or `none` if the token always follows there. -/
def lhsContributions (src : LookaheadSources) (q : StateId) (lhs token : SymbolId) :
    Option NatSet :=
  let p : Goto := ⟨q, lhs⟩
  if token ∈ src.follows.always.getD p ∅ then none
  else
    let items := (src.follows.kernelItems.getD p ∅).toList
    some (NatSet.ofList (items.filter fun k => token ∈ src.kernelLookaheads.get q k))

/-- The kernel items of a state that contribute to an action of its own. -/
def manifestation (g : Grammar) (src : LookaheadSources) (s : State) (q : StateId)
    (token : SymbolId) : Action → Option NatSet
  | .shift => none
  | .reduce r =>
    if (g.rhs r).isEmpty then src.lhsContributions q (g.lhs r) token
    else some (NatSet.ofList ((s.kernel.zipIdx.filter fun (i, _) =>
      i.rule = r && i.isComplete g).map Prod.snd))

/-- The actions of a state on a token. -/
def actionsOn (g : Grammar) (s : State) (token : SymbolId) : List Action :=
  (if token ∈ s.terminals g then [.shift] else []) ++
    (s.reductions.filter fun r => token ∈ r.tokens).map fun r => .reduce r.rule

/-- The annotations of a state for its own inadequacies. -/
def manifestations (g : Grammar) (src : LookaheadSources) (s : State) (q : StateId) :
    OrderedMap Inadequacy Annotation :=
  let tokens := s.reductions.foldl (fun la r => la ∪ r.tokens) (s.terminals g)
  OrderedMap.ofList (tokens.toList.filterMap fun token =>
    let actions := actionsOn g s token
    if actions.length < 2 then none
    else some (⟨q, token⟩, actions.map fun action =>
      ⟨action, src.manifestation g s q token action⟩))

/-- A kernel item, with the positions in the kernel of a predecessor of the
    items from which a transition leads to it. -/
structure Arrival where
  item : Item
  before : List Nat
deriving Inhabited

/-- How the kernel items of `q` are reached from its predecessor `p`. -/
def arrivals (a : Automaton) (p q : StateId) : Array Arrival :=
  let sources := (a.state p).kernel.zipIdx
  ((a.state q).kernel.map fun i =>
    { item := i
      before := (sources.filter fun (j, _) => j.precedes i).map Prod.snd : Arrival }).toArray

/-- The kernel items of the predecessor `p` that contribute through a kernel
    item of one of its successors. -/
def throughItem (g : Grammar) (src : LookaheadSources) (p : StateId) (token : SymbolId)
    (i : Arrival) : Option NatSet :=
  let before := NatSet.ofList (i.before.filter fun k => token ∈ src.kernelLookaheads.get p k)
  if i.item.position = 1 then
    (src.lhsContributions p (i.item.lhs g) token).map (before ∪ ·)
  else some before

/-- The kernel items of the predecessor `p` that contribute through the kernel
    items listed of one of its successors; `none` as soon as through one of
    them the token always comes. -/
def throughItems (g : Grammar) (src : LookaheadSources) (p : StateId) (token : SymbolId)
    (kernel : Array Arrival) (items : NatSet) : Option NatSet :=
  items.toList.foldlM (fun found k =>
    (throughItem g src p token (kernel.getD k default)).map (found ∪ ·)) ∅

/-- An annotation of a state as it looks from its predecessor `p`. -/
def atPredecessor (g : Grammar) (src : LookaheadSources) (p : StateId) (kernel : Array Arrival)
    (token : SymbolId) (n : Annotation) : Annotation :=
  n.map fun c =>
    { c with kernelItems := c.kernelItems.bind (throughItems g src p token kernel) }

/-- Add the annotations listed to those of a state; the answer tells whether
    they were changed. -/
def absorb (own : OrderedMap Inadequacy Annotation) (added : List (Inadequacy × Annotation)) :
    OrderedMap Inadequacy Annotation × Bool :=
  added.foldl (fun (own, changed) (w, n) =>
    if n.isUseless then (own, changed)
    else match own.get? w with
      | none => (own.insert w n, true)
      | some old =>
        let new := old.merge n
        if new = old then (own, changed) else (own.insert w new, true)) (own, false)

/-- The state of tracing back: the annotations found so far, and the
    transitions that have to be looked at. -/
structure Tracing where
  tables : Array (OrderedMap Inadequacy Annotation)
  pending : Worklist (StateId × StateId)

namespace Tracing

/-- Annotations of states for their own inadequacies, with the transitions into
    these states to be looked at. -/
def start (g : Grammar) (a : Automaton) (src : LookaheadSources) : Tracing :=
  let tables := (a.states.toList.zipIdx.map fun (s, q) => src.manifestations g s q).toArray
  let pending := (a.states.toList.zip tables.toList).zipIdx.foldl (fun w ((s, l), q) =>
    if l.isEmpty then w else w.pushAll (s.predecessors.map (·, q))) ∅
  ⟨tables, pending⟩

/-- Look at the transition from `p` to `q`.  When the annotations of `p`
    change, the transitions into it have to be looked at again. -/
def look (g : Grammar) (a : Automaton) (src : LookaheadSources) (t : Tracing) (p q : StateId) :
    Tracing :=
  let kernel := arrivals a p q
  let added := (t.tables.getD q ∅).toList.map fun (w, n) =>
    (w, atPredecessor g src p kernel w.token n)
  let (own, changed) := absorb (t.tables.getD p ∅) added
  { tables := t.tables.setIfInBounds p own
    pending :=
      if changed then t.pending.pushAll ((a.state p).predecessors.map (·, p)) else t.pending }

/-- Look at the transitions that wait, at most `rounds` of them. -/
def run (g : Grammar) (a : Automaton) (src : LookaheadSources) : (rounds : Nat) → Tracing → Tracing
  | 0, t => t
  | rounds + 1, t =>
    match t.pending.pop? with
    | none => t
    | some ((p, q), pending) => run g a src rounds (look g a src { t with pending } p q)

/-- A bound for the transitions that have to be looked at: all of them once,
    and those into a state again whenever one of its annotations is new or has
    a further contribution. -/
def bound (a : Automaton) (t : Tracing) : Nat :=
  let n := a.states.size
  let width := greatest (a.states.toList.map fun s => s.kernel.length)
  let changes := total (t.tables.toList.map fun l =>
    total (l.values.map fun n => 1 + n.length * (width + 1)))
  n * n + n * changes * n + 1

end Tracing

/-- Trace back the inadequacies of all states, until no transition has to be
    looked at. -/
def trace (g : Grammar) (a : Automaton) (src : LookaheadSources) : Tracing :=
  let t := Tracing.start g a src
  Tracing.run g a src (Tracing.bound a t) t

/-- The annotations of all states. -/
def annotations (g : Grammar) (a : Automaton) (src : LookaheadSources) : AnnotationLists :=
  (src.trace g a).tables.map OrderedMap.toList

end LookaheadSources

end LRAutomata
