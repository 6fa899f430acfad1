/-
  Finite maps that remember the order in which their keys came.

  A key keeps the place of its first insertion; inserting it again replaces
  the value and moves nothing.  Looking a key up goes through a balanced tree.

  * `get?_insert` and `keys_insert` say what an insertion does to the two
    views of a map, the lookup and the list of keys;
  * `group` collects the values of equal keys, in the order of the pairs.
-/
import Std.Data.TreeMap

namespace LRAutomata

open Std

/-- A finite map with its keys in insertion order. -/
structure OrderedMap (κ : Type) (α : Type) [Ord κ] where
  /-- The keys, the oldest first. -/
  order : Array κ
  /-- The value of each key. -/
  table : TreeMap κ α
  order_nodup : order.toList.Nodup
  mem_order : ∀ k, k ∈ order ↔ k ∈ table

namespace OrderedMap

variable {κ α β : Type} [Ord κ]

/-- The map without keys. -/
def empty : OrderedMap κ α where
  order := #[]
  table := ∅
  order_nodup := by simp
  mem_order := by simp

instance : EmptyCollection (OrderedMap κ α) := ⟨empty⟩

instance : Inhabited (OrderedMap κ α) := ⟨empty⟩

/-- The keys, the oldest first. -/
def keys (m : OrderedMap κ α) : List κ :=
  m.order.toList

/-- The value of a key. -/
def get? (m : OrderedMap κ α) (k : κ) : Option α :=
  m.table[k]?

/-- The value of a key, or `default` if it has none. -/
def getD (m : OrderedMap κ α) (k : κ) (default : α) : α :=
  (m.get? k).getD default

/-- Whether the map has the key. -/
def contains (m : OrderedMap κ α) (k : κ) : Bool :=
  m.table.contains k

/-- The entries in the order of their keys. -/
def toList (m : OrderedMap κ α) : List (κ × α) :=
  m.keys.filterMap fun k => (m.get? k).map (k, ·)

/-- The values in the order of their keys. -/
def values (m : OrderedMap κ α) : List α :=
  m.keys.filterMap m.get?

/-- Whether the map has no keys. -/
def isEmpty (m : OrderedMap κ α) : Bool :=
  m.order.isEmpty

variable [TransOrd κ] [LawfulEqOrd κ]

/-- Give `k` the value `a`; a new key comes last. -/
def insert (m : OrderedMap κ α) (k : κ) (a : α) : OrderedMap κ α :=
  if h : m.table.contains k = true then
    { order := m.order
      table := m.table.insert k a
      order_nodup := m.order_nodup
      mem_order := by
        intro j
        rw [m.mem_order, TreeMap.mem_insert, Std.compare_eq_iff_eq]
        constructor
        · exact Or.inr
        · rintro (rfl | hj)
          · exact h
          · exact hj }
  else
    { order := m.order.push k
      table := m.table.insert k a
      order_nodup := by
        rw [Array.toList_push, List.nodup_append]
        refine ⟨m.order_nodup, by simp, ?_⟩
        intro i hi j hj hij
        rw [List.mem_singleton] at hj
        subst hij hj
        exact h ((m.mem_order i).1 (Array.mem_def.2 hi))
      mem_order := by
        intro j
        rw [Array.mem_push, m.mem_order, TreeMap.mem_insert, Std.compare_eq_iff_eq, or_comm,
          eq_comm] }

/-- Replace the value of `k`, seen as an option, by what `f` makes of it. -/
def update (m : OrderedMap κ α) (k : κ) (f : Option α → α) : OrderedMap κ α :=
  m.insert k (f (m.get? k))

/-- Insert the pairs one after the other; the last value of a key stays. -/
def ofList (entries : List (κ × α)) : OrderedMap κ α :=
  entries.foldl (fun m e => m.insert e.1 e.2) ∅

/-- Apply `f` to every value. -/
def map (f : α → β) (m : OrderedMap κ α) : OrderedMap κ β where
  order := m.order
  table := m.table.map fun _ a => f a
  order_nodup := m.order_nodup
  mem_order := by
    intro k
    rw [m.mem_order, TreeMap.mem_map]

/-- The values of each key collected in the order of the pairs, without
    repetitions.  The keys come in the order of their first pair. -/
def group [DecidableEq α] (pairs : List (κ × α)) : OrderedMap κ (List α) :=
  pairs.foldl (fun m p => m.update p.1 fun as? =>
    let as := as?.getD []
    if p.2 ∈ as then as else as ++ [p.2]) ∅

/-! ## The two views -/

section Views

omit [TransOrd κ] [LawfulEqOrd κ]

@[simp] theorem keys_empty : (∅ : OrderedMap κ α).keys = [] := rfl

theorem keys_nodup (m : OrderedMap κ α) : m.keys.Nodup := m.order_nodup

@[simp] theorem get?_empty [TransOrd κ] (k : κ) : (∅ : OrderedMap κ α).get? k = none :=
  TreeMap.getElem?_emptyc

@[simp] theorem keys_map [TransOrd κ] (f : α → β) (m : OrderedMap κ α) :
    (m.map f).keys = m.keys := rfl

/-- The keys are exactly the places where the map is defined. -/
theorem mem_keys_iff [TransOrd κ] {m : OrderedMap κ α} {k : κ} :
    k ∈ m.keys ↔ (m.get? k).isSome := by
  rw [keys, ← Array.mem_def, m.mem_order, TreeMap.mem_iff_isSome_getElem?]
  rfl

end Views

theorem get?_insert (m : OrderedMap κ α) (k j : κ) (a : α) [DecidableEq κ] :
    (m.insert k a).get? j = if k = j then some a else m.get? j := by
  unfold insert
  split <;> simp [get?, TreeMap.getElem?_insert]

theorem keys_insert (m : OrderedMap κ α) (k : κ) (a : α) :
    (m.insert k a).keys = if m.contains k then m.keys else m.keys ++ [k] := by
  unfold insert contains
  split <;> simp_all [keys]

theorem get?_map (f : α → β) (m : OrderedMap κ α) (k : κ) :
    (m.map f).get? k = (m.get? k).map f := by
  simp [map, get?]

end OrderedMap

end LRAutomata
