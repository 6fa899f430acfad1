/-
  Finite sets that list their members in insertion order.

  Inserting a member again changes nothing, and a union appends the members
  that are missing, in the order of the second set.
-/
import LRAutomata.Data.OrderedMap

namespace LRAutomata

open Std

/-- A finite set with its members in insertion order. -/
structure OrderedSet (α : Type) [Ord α] where
  /-- The members, as the keys of a map. -/
  index : OrderedMap α Unit

namespace OrderedSet

variable {α : Type} [Ord α]

instance : EmptyCollection (OrderedSet α) := ⟨⟨∅⟩⟩

instance : Inhabited (OrderedSet α) := ⟨∅⟩

/-- The members, the oldest first. -/
def toList (s : OrderedSet α) : List α :=
  s.index.keys

/-- Whether `a` is a member. -/
def contains (s : OrderedSet α) (a : α) : Bool :=
  s.index.contains a

variable [TransOrd α] [LawfulEqOrd α]

/-- The set with `a`, which comes last if it is new. -/
def insert (s : OrderedSet α) (a : α) : OrderedSet α :=
  ⟨s.index.insert a ()⟩

/-- The set of the elements listed, in their order. -/
def ofList (as : List α) : OrderedSet α :=
  as.foldl insert ∅

instance : Union (OrderedSet α) := ⟨fun s t => t.toList.foldl insert s⟩

/-- An insertion appends a new member and keeps an old one where it is. -/
theorem toList_insert (s : OrderedSet α) (a : α) :
    (s.insert a).toList = if s.contains a then s.toList else s.toList ++ [a] :=
  OrderedMap.keys_insert s.index a ()

end OrderedSet

end LRAutomata
