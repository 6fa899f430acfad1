/-
  Closures of kernels, by a stack.

  Nonterminals wait on a stack to be expanded to the initial items of their rules.
  One that has been expanded is not put on the stack again, but it may be there
  more than once before.
-/
import LRAutomata.Data.NatSet
import LRAutomata.Item

namespace LRAutomata.Table

/-- A closure while it is computed. -/
structure Closing where
  /-- The nonterminals that have been expanded. -/
  expanded : NatSet
  /-- The stack, its top first. -/
  pending : List SymbolId
  /-- The items found so far. -/
  items : List Item

namespace Closing

/-- The nonterminals after the dots of the kernel wait. -/
def start (g : Grammar) (kernel : List Item) : Closing :=
  let symbols := (kernel.filterMap (·.next? g)).filter fun X => !g.isTerminal X
  { expanded := ∅, pending := symbols.reverse, items := [] }

/-- The nonterminal with which a rule begins, if it has not been expanded. -/
def begins? (g : Grammar) (expanded : NatSet) (r : RuleId) : Option SymbolId :=
  (g.rhs r)[0]?.filter fun X => !g.isTerminal X && X ∉ expanded

/-- Add the initial item of a rule. -/
def addRule (g : Grammar) (c : Closing) (r : RuleId) : Closing :=
  let c := { c with items := c.items ++ [⟨r, 0⟩] }
  match begins? g c.expanded r with
  | some X => { c with pending := X :: c.pending }
  | none => c

/-- Add the initial items of the rules of `X`, unless that has been done. -/
def expand (g : Grammar) (c : Closing) (X : SymbolId) : Closing :=
  if X ∈ c.expanded then c
  else (g.rulesOf X).foldl (addRule g) { c with expanded := insert X c.expanded }

/-- Expand the nonterminals on the stack, at most `rounds` of them. -/
def run (g : Grammar) : (rounds : Nat) → Closing → Closing
  | 0, c => c
  | rounds + 1, c =>
    match c.pending with
    | [] => c
    | X :: pending => run g rounds (expand g { c with pending } X)

end Closing

/-- Put an item in its place in a sorted list. -/
def place (i : Item) : List Item → List Item
  | [] => [i]
  | j :: rest => if (compare i j).isLE then i :: j :: rest else j :: place i rest

/-- The items that are not in the kernel, ordered by rule.  Every round takes a
    nonterminal off the stack, and it got there from the kernel or from a rule. -/
def closure (g : Grammar) (kernel : List Item) : List Item :=
  (Closing.run g (kernel.length + g.rules.size) (Closing.start g kernel)).items.foldr place []

end LRAutomata.Table
