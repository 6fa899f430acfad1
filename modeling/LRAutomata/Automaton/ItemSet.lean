/-
  Sets of items: kernels and their closures.

  A kernel is kept as a sorted list without repetitions, so that equal sets
  are equal lists.  The closure of a kernel has the initial items of all rules
  that can be begun where the kernel stands.
-/
import LRAutomata.Data.Fixpoint
import LRAutomata.Data.NatSet
import LRAutomata.Item

namespace LRAutomata.ItemSet

/-- Put an item in its place in a sorted list, unless it is there. -/
def insertSorted (i : Item) : List Item → List Item
  | [] => [i]
  | j :: rest =>
    match compare i j with
    | .lt => i :: j :: rest
    | .eq => j :: rest
    | .gt => j :: insertSorted i rest

/-- The items listed, sorted and without repetitions. -/
def sorted (items : List Item) : List Item :=
  items.foldr insertSorted []

/-- The nonterminals after the dots of the items. -/
def pendingSymbols (g : Grammar) (items : List Item) : NatSet :=
  NatSet.ofList ((items.filterMap (·.next? g)).filter fun X => !g.isTerminal X)

/-- Add to nonterminals those with which one of their rules begins. -/
def expandStep (g : Grammar) (symbols : NatSet) : NatSet :=
  g.rules.toList.foldl (fun s r =>
    match r.rhs with
    | X :: _ => if r.lhs ∈ s ∧ g.isTerminal X = false then insert X s else s
    | [] => s) symbols

/-- The nonterminals that can be begun where the items stand.  Every round but
    the last adds a nonterminal, which bounds the rounds. -/
def expandedSymbols (g : Grammar) (items : List Item) : NatSet :=
  Fixpoint.iterate (expandStep g) (g.nonterminalCount + 1) (pendingSymbols g items)

/-- The initial items of the rules that can be begun where the kernel stands,
    in the order of the rules. -/
def closure (g : Grammar) (kernel : List Item) : List Item :=
  let symbols := expandedSymbols g kernel
  ((List.range g.rules.size).filter fun r => g.lhs r ∈ symbols).map (⟨·, 0⟩)

/-- The symbols after the dots of the items, in ascending order. -/
def nextSymbols (g : Grammar) (items : List Item) : List SymbolId :=
  (NatSet.ofList (items.filterMap (·.next? g))).toList

/-- The kernel reached from the items by reading a symbol. -/
def advanceOver (g : Grammar) (items : List Item) (X : SymbolId) : List Item :=
  sorted ((items.filter fun i => i.next? g = some X).map Item.advance)

end LRAutomata.ItemSet
