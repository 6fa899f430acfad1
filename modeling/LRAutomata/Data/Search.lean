/-
  Breadth-first search with the path that led to each node.

  The nodes are visited level by level; a node belongs to the first trail
  that reaches it, and within a level the order is that of discovery.  So the
  trail found is a shortest one, and of those the one discovered first.
-/
import Std.Data.TreeSet

namespace LRAutomata.Search

open Std

/-- A node together with the nodes that led to it, the nearest first. -/
structure Trail (α : Type) where
  last : α
  earlier : List α
deriving Repr

/-- The nodes of the trail from its end back to its start. -/
def Trail.backward {α : Type} (t : Trail α) : List α :=
  t.last :: t.earlier

/-- The nodes of the trail from its start to its end. -/
def Trail.forward {α : Type} (t : Trail α) : List α :=
  t.backward.reverse

variable {α : Type} [Ord α]

/-- Extend a trail by the successors of its end that were not seen before.
    `fresh` holds the trails of the level under construction, the newest first. -/
def extend (next : α → List α) (level : List (Trail α) × TreeSet α) (t : Trail α) :
    List (Trail α) × TreeSet α :=
  (next t.last).foldl (fun (fresh, seen) b =>
    if seen.contains b then (fresh, seen)
    else (⟨b, t.backward⟩ :: fresh, seen.insert b)) level

/-- Search the given level and those after it, at most `levels` in number. -/
def searchLevels (next : α → List α) (goal : α → Bool) :
    (levels : Nat) → List (Trail α) → TreeSet α → Option (Trail α)
  | 0, _, _ => none
  | levels + 1, current, seen =>
    match current.find? (fun t => goal t.last) with
    | some t => some t
    | none =>
      let (fresh, seen) := current.foldl (extend next) ([], seen)
      if fresh.isEmpty then none else searchLevels next goal levels fresh.reverse seen

/-- A shortest trail from `start` to a node that satisfies `goal`, of at most
    `levels` nodes. -/
def shortest? (levels : Nat) (start : α) (next : α → List α) (goal : α → Bool) :
    Option (Trail α) :=
  searchLevels next goal levels [⟨start, []⟩] (TreeSet.empty.insert start)

end LRAutomata.Search
