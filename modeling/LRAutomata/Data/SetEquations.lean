/-
  Systems of set equations `F(x) = base(x) ∪ ⋃ { F(y) | x → y }` and their
  least solution.

  The nodes are walked depth first, each once.  Nodes that reach each other
  have the same value, so a strongly connected component is closed as a whole:
  its members take over the value of the member that was entered first.

  * `SetEquations.solve` answers with the nodes in the order in which they are
    met: when they are taken from the domain, or listed as a target of a node
    that is being entered;
  * a value absorbs the values of the targets in the order of the edges, which
    shows where sets remember the order of their members.
-/
import LRAutomata.Data.Counting
import LRAutomata.Data.OrderedMap

namespace LRAutomata

open Std

/-- The equations `F(x) = base(x) ∪ ⋃ { F(y) | y ∈ edges(x) }`.  A node without
    an entry in `base` starts from the empty set, one without an entry in
    `edges` has no targets. -/
structure SetEquations (κ α : Type) [Ord κ] where
  edges : OrderedMap κ (List κ)
  base : OrderedMap κ α

namespace SetEquations

/-- How far the walk has come with a node. -/
inductive Mark where
  /-- Met but not entered. -/
  | fresh
  /-- Entered; `low` is the least depth of an open node known to be reachable. -/
  | opened (low : Nat)
  /-- Its component is finished. -/
  | closed
deriving DecidableEq, Repr

/-- The mark of a node that reaches a node marked `other`. -/
def Mark.absorb : Mark → Mark → Mark
  | .opened low, .opened other => .opened (min low other)
  | mark, _ => mark

/-- What is known of a node: its mark and the value collected so far. -/
structure Cell (α : Type) where
  mark : Mark
  value : α
deriving Repr

/-- The state of the walk: the nodes met so far, and the open ones, the
    deepest first. -/
structure Walk (κ α : Type) [Ord κ] where
  cells : OrderedMap κ (Cell α)
  opens : List κ

variable {κ α : Type} [Ord κ] [TransOrd κ] [LawfulEqOrd κ] [DecidableEq κ]
variable [EmptyCollection α] [Union α]

/-- The targets of a node. -/
def targets (eqs : SetEquations κ α) (x : κ) : List κ :=
  eqs.edges.getD x []

/-- The value a node starts from. -/
def start (eqs : SetEquations κ α) (x : κ) : α :=
  eqs.base.getD x ∅

/-- The least number of nodes that the walk from `domain` certainly suffices with. -/
def nodeBound (eqs : SetEquations κ α) (domain : List κ) : Nat :=
  domain.length + total (eqs.edges.values.map List.length)

namespace Walk

/-- The cell of a node; a node never met is fresh and empty. -/
def cell (w : Walk κ α) (x : κ) : Cell α :=
  w.cells.getD x ⟨.fresh, ∅⟩

/-- Meet a node: if it is new, it is listed after all others. -/
def meet (eqs : SetEquations κ α) (w : Walk κ α) (x : κ) : Walk κ α :=
  if w.cells.contains x then w
  else { w with cells := w.cells.insert x ⟨.fresh, eqs.start x⟩ }

/-- Open a node one level deeper than the open ones, and meet its targets. -/
def enter (eqs : SetEquations κ α) (w : Walk κ α) (x : κ) : Walk κ α :=
  let opens := x :: w.opens
  let cells := w.cells.insert x { w.cell x with mark := .opened opens.length }
  (eqs.targets x).foldl (meet eqs) { cells, opens }

/-- Let `x` absorb its target `y`. -/
def absorb (w : Walk κ α) (x y : κ) : Walk κ α :=
  let source := w.cell x
  let target := w.cell y
  let value := if x = y then source.value else source.value ∪ target.value
  { w with cells := w.cells.insert x ⟨source.mark.absorb target.mark, value⟩ }

/-- Leave a node entered at `depth`.  If it reaches no node above that depth
    it is the entry of a component: the component is closed, and all of it
    takes over the node's value. -/
def leave (w : Walk κ α) (x : κ) (depth : Nat) : Walk κ α :=
  let c := w.cell x
  if c.mark = .opened depth then
    let above := w.opens.takeWhile (· ≠ x)
    { cells := (above ++ [x]).foldl (fun cells y => cells.insert y ⟨.closed, c.value⟩) w.cells
      opens := w.opens.drop (above.length + 1) }
  else w

end Walk

/-- Walk through the nodes reachable from `x`, at most `levels` deep. -/
def visit (eqs : SetEquations κ α) : (levels : Nat) → Walk κ α → κ → Walk κ α
  | 0, w, _ => w
  | levels + 1, w, x =>
    let depth := w.opens.length + 1
    let inside := (eqs.targets x).foldl (fun w y =>
      if (w.cell y).mark = .fresh then (visit eqs levels w y).absorb x y else w.absorb x y)
      (w.enter eqs x)
    inside.leave x depth

/-- The least solution on the nodes reachable from `domain`, in the order in
    which they are met. -/
def solve (eqs : SetEquations κ α) (domain : List κ) : OrderedMap κ α :=
  let walk := domain.foldl (fun w x =>
    let w := w.meet eqs x
    if (w.cell x).mark = .fresh then eqs.visit (eqs.nodeBound domain + 1) w x else w)
    ⟨∅, []⟩
  walk.cells.map Cell.value

end SetEquations

end LRAutomata
