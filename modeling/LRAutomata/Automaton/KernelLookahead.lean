/-
  Where the tokens after a transition on a nonterminal come from.

  What follows a transition `(p, A)` splits into two parts: tokens that follow
  whatever stands before the state `p`, and tokens that are passed on from the
  lookaheads of kernel items of `p`.

  * `GotoFollows.always` has the first part, `GotoFollows.kernelItems` the
    kernel items from which the second part comes;
  * `kernelLookaheads` are the lookaheads of all kernel items.
-/
import LRAutomata.Automaton.Basic

namespace LRAutomata

/-- The two sources of what follows a transition on a nonterminal. -/
structure GotoFollows where
  /-- The tokens that follow whatever stands before. -/
  always : OrderedMap Goto NatSet
  /-- The positions in the kernel of the items whose lookaheads are passed on. -/
  kernelItems : OrderedMap Goto NatSet

namespace GotoFollows

/-- A transition `(p, A)` includes `(p, B)` in the same state if `B → A γ` with
    nullable `γ`. -/
def alwaysIncludes (g : Grammar) (graph : Graph) : OrderedMap Goto (List Goto) :=
  OrderedMap.group ((Lookaheads.gotos g graph).flatMap fun p =>
    (g.rulesOf p.symbol).filterMap fun r =>
      match g.rhs r with
      | X :: rest =>
        if !g.isTerminal X && g.isNullableString rest then some (⟨p.source, X⟩, p) else none
      | [] => none)

/-- The positions of the kernel items that pass on their lookaheads to what
    follows the transition: those that only nullable symbols separate from
    their end. -/
def directKernelItems (g : Grammar) (kernel : List Item) (X : SymbolId) : NatSet :=
  NatSet.ofList ((kernel.zipIdx.filter fun (i, _) =>
    i.next? g = some X && g.isNullableString (i.afterNext g)).map Prod.snd)

/-- Two relations joined: the targets in the first, then those in the second. -/
def join (r₁ r₂ : OrderedMap Goto (List Goto)) : OrderedMap Goto (List Goto) :=
  r₂.toList.foldl (fun r (p, targets) => r.update p fun ts? => ts?.getD [] ++ targets) r₁

/-- The two sources of what follows each transition of an automaton. -/
def compute (g : Grammar) (a : Automaton) : GotoFollows :=
  let graph := a.graph
  let gotos := a.lookaheads.directRead.keys
  let includes := alwaysIncludes g graph
  let direct := OrderedMap.ofList (gotos.map fun p =>
    (p, directKernelItems g (graph.core p.source).kernel p.symbol))
  { always := SetEquations.solve ⟨join a.lookaheads.reads includes, a.lookaheads.directRead⟩ gotos
    kernelItems := SetEquations.solve ⟨includes, direct⟩ gotos }

end GotoFollows

/-- A lookahead set for each kernel item of each state. -/
abbrev KernelLookaheads := Array (List NatSet)

namespace KernelLookaheads

/-- The lookahead set of a kernel item. -/
def get (table : KernelLookaheads) (q : StateId) (k : Nat) : NatSet :=
  (table.getD q []).getD k ∅

/-- The lookaheads that an item with the dot at `position` has from a
    predecessor: at the first position what follows the item's nonterminal
    there, further on the lookaheads of the item before. -/
def fromPredecessor (g : Grammar) (a : Automaton) (table : KernelLookaheads) (i : Item)
    (p : StateId) : NatSet :=
  if i.position = 1 then a.lookaheads.follow.getD ⟨p, i.lhs g⟩ ∅
  else match (a.state p).kernel.findIdx? fun j => j.precedes i with
    | some k => table.get p k
    | none => ∅

/-- Fill in the lookaheads of the kernel items with the dot at `position`. -/
def fill (g : Grammar) (a : Automaton) (table : KernelLookaheads) (position : Nat) :
    KernelLookaheads :=
  ((a.states.toList.zip table.toList).map fun (s, sets) =>
    (s.kernel.zip sets).map fun (i, set) =>
      if i.position = position && i.rule ≠ RuleId.accept then
        s.predecessors.foldl (fun la p => la ∪ fromPredecessor g a table i p) ∅
      else set).toArray

/-- The lookaheads of all kernel items, by increasing position.  The items of
    the accepting rule have none. -/
def compute (g : Grammar) (a : Automaton) : KernelLookaheads :=
  let start := (a.states.toList.map fun s => s.kernel.map fun _ => ∅).toArray
  let last := greatest (a.states.toList.flatMap fun s => s.kernel.map Item.position)
  (List.range last).foldl (fun table n => fill g a table (n + 1)) start

end KernelLookaheads

end LRAutomata
