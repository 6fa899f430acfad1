/-
  What is found in ordered maps that are built from lists.

  * a map built from entries has the last value listed for a key, so a key
    with one value has that one (`get?_ofList_of_unique`);
  * a grouping has the values paired with a key (`mem_getD_group`), and the keys
    of its pairs (`mem_keys_group`).
-/
import LRAutomata.Data.OrderedMap

namespace LRAutomata.OrderedMap

open Std

variable {κ α : Type} [Ord κ] [TransOrd κ]

theorem contains_iff {m : OrderedMap κ α} {k : κ} : m.contains k = true ↔ k ∈ m.keys := by
  rw [mem_keys_iff, contains, get?, TreeMap.isSome_getElem?_eq_contains]

omit [TransOrd κ] in
theorem getD_of_get? {m : OrderedMap κ α} {k : κ} {a b : α} (h : m.get? k = some a) :
    m.getD k b = a := by
  rw [getD, h]; rfl

theorem getD_of_not_mem {m : OrderedMap κ α} {k : κ} {b : α} (h : k ∉ m.keys) : m.getD k b = b := by
  rw [mem_keys_iff, Option.not_isSome_iff_eq_none] at h
  rw [getD, h]; rfl

/-- The entries are the keys with their values. -/
theorem mem_toList {m : OrderedMap κ α} {k : κ} {a : α} : (k, a) ∈ m.toList ↔ m.get? k = some a := by
  simp only [toList, List.mem_filterMap, Option.map_eq_some_iff, Prod.mk.injEq]
  constructor
  · rintro ⟨_, -, _, h, rfl, rfl⟩; exact h
  · intro h; exact ⟨k, mem_keys_iff.2 (by rw [h]; rfl), a, h, rfl, rfl⟩

/-- The entries are the keys with what is found for them. -/
theorem toList_eq (m : OrderedMap κ α) (b : α) : m.toList = m.keys.map fun k => (k, m.getD k b) := by
  have found : ∀ ks ⊆ m.keys, ks.filterMap (fun k => (m.get? k).map (k, ·)) =
      ks.map fun k => (k, m.getD k b) := by
    intro ks hks
    induction ks with
    | nil => rfl
    | cons k ks ih =>
      obtain ⟨hk, hks⟩ := List.cons_subset.1 hks
      obtain ⟨a, ha⟩ := Option.isSome_iff_exists.1 (mem_keys_iff.1 hk)
      rw [List.filterMap_cons_some (by rw [ha]; rfl), ih hks, List.map_cons, getD_of_get? ha]
  exact found m.keys fun _ h => h

omit [TransOrd κ] in
theorem values_eq (m : OrderedMap κ α) : m.values = m.toList.map Prod.snd := by
  rw [values, toList, List.map_filterMap]
  refine congrArg (m.keys.filterMap ·) (funext fun k => ?_)
  cases m.get? k <;> rfl

theorem mem_values {m : OrderedMap κ α} {a : α} : a ∈ m.values ↔ ∃ k, m.get? k = some a := by
  simp only [values, List.mem_filterMap]
  exact ⟨fun ⟨k, _, h⟩ => ⟨k, h⟩, fun ⟨k, h⟩ => ⟨k, mem_keys_iff.2 (by rw [h]; rfl), h⟩⟩

variable [LawfulEqOrd κ]

theorem mem_keys_insert {m : OrderedMap κ α} {k j : κ} {a : α} :
    j ∈ (m.insert k a).keys ↔ j = k ∨ j ∈ m.keys := by
  rw [keys_insert]
  split
  · rename_i h
    constructor
    · exact .inr
    · rintro (rfl | h')
      · exact contains_iff.1 h
      · exact h'
  · simp [or_comm]

theorem keys_insert_of_mem {m : OrderedMap κ α} {k : κ} (h : k ∈ m.keys) (a : α) :
    (m.insert k a).keys = m.keys := by
  rw [keys_insert, if_pos (contains_iff.2 h)]

variable [DecidableEq κ]

theorem getD_insert (m : OrderedMap κ α) (k j : κ) (a b : α) :
    (m.insert k a).getD j b = if k = j then a else m.getD j b := by
  rw [getD, get?_insert]
  split <;> rfl

theorem get?_update (m : OrderedMap κ α) (k j : κ) (f : Option α → α) :
    (m.update k f).get? j = if k = j then some (f (m.get? k)) else m.get? j :=
  get?_insert m k j _

/-! ## Maps from entries -/

theorem get?_foldl_insert {k : κ} {a : α} : ∀ (entries : List (κ × α)) (m : OrderedMap κ α),
    (entries.foldl (fun m e => m.insert e.1 e.2) m).get? k = some a →
      (k, a) ∈ entries ∨ m.get? k = some a
  | [], _, h => .inr h
  | (j, b) :: entries, m, h => by
    rcases get?_foldl_insert entries (m.insert j b) h with h | h
    · exact .inl (List.mem_cons_of_mem _ h)
    · rw [get?_insert] at h
      split at h
      · rename_i hjk; cases h; subst hjk; exact .inl (List.mem_cons_self ..)
      · exact .inr h

omit [DecidableEq κ] in
theorem mem_keys_foldl_insert {k : κ} : ∀ (entries : List (κ × α)) (m : OrderedMap κ α),
    k ∈ (entries.foldl (fun m e => m.insert e.1 e.2) m).keys ↔
      (∃ a, (k, a) ∈ entries) ∨ k ∈ m.keys
  | [], m => by simp
  | (j, b) :: entries, m => by
    rw [List.foldl_cons, mem_keys_foldl_insert entries, mem_keys_insert]
    simp only [List.mem_cons, Prod.mk.injEq, exists_or, exists_and_left, exists_eq, and_true]
    exact or_left_comm.trans or_assoc.symm

theorem mem_of_get?_ofList {entries : List (κ × α)} {k : κ} {a : α}
    (h : (ofList entries).get? k = some a) : (k, a) ∈ entries := by
  rcases get?_foldl_insert entries ∅ h with h | h
  · exact h
  · rw [get?_empty] at h; cases h

omit [DecidableEq κ] in
theorem mem_keys_ofList {entries : List (κ × α)} {k : κ} :
    k ∈ (ofList entries).keys ↔ ∃ a, (k, a) ∈ entries := by
  rw [ofList, mem_keys_foldl_insert]; simp

/-- A key for which only one value is listed has that value. -/
theorem get?_ofList_of_unique {entries : List (κ × α)} {k : κ} {a : α} (h : (k, a) ∈ entries)
    (unique : ∀ b, (k, b) ∈ entries → b = a) : (ofList entries).get? k = some a := by
  obtain ⟨b, hb⟩ := Option.isSome_iff_exists.1 (mem_keys_iff.1 (mem_keys_ofList.2 ⟨a, h⟩))
  rw [hb, unique b (mem_of_get?_ofList hb)]

omit [DecidableEq κ] in
theorem get?_ofList_eq_none {entries : List (κ × α)} {k : κ} (h : ∀ a, (k, a) ∉ entries) :
    (ofList entries).get? k = none := by
  rw [← Option.not_isSome_iff_eq_none, ← mem_keys_iff, mem_keys_ofList]
  rintro ⟨a, ha⟩; exact h a ha

/-! ## Groups -/

variable [DecidableEq α]

theorem mem_getD_foldl_group {k : κ} {a : α} :
    ∀ (pairs : List (κ × α)) (m : OrderedMap κ (List α)),
      a ∈ (pairs.foldl (fun m p => m.update p.1 fun as? =>
          let as := as?.getD []
          if p.2 ∈ as then as else as ++ [p.2]) m).getD k [] ↔
        (k, a) ∈ pairs ∨ a ∈ m.getD k []
  | [], m => by simp
  | (j, b) :: pairs, m => by
    rw [List.foldl_cons, mem_getD_foldl_group pairs, getD, get?_update, List.mem_cons,
      Prod.mk.injEq, or_comm (a := k = j ∧ a = b), or_assoc]
    apply or_congr_right
    by_cases hjk : j = k
    · subst hjk
      by_cases hb : b ∈ (m.get? j).getD []
      · simp only [if_pos hb, getD, true_and]
        exact ⟨.inr, fun h => h.elim (fun h => h ▸ hb) id⟩
      · simp [hb, getD, or_comm]
    · simp [hjk, Ne.symm hjk, getD]

/-- The values grouped under a key are those paired with it. -/
theorem mem_getD_group {pairs : List (κ × α)} {k : κ} {a : α} :
    a ∈ (group pairs).getD k [] ↔ (k, a) ∈ pairs := by
  rw [group, mem_getD_foldl_group]; simp [getD]

omit [DecidableEq κ] in
theorem mem_keys_foldl_group {k : κ} :
    ∀ (pairs : List (κ × α)) (m : OrderedMap κ (List α)),
      k ∈ (pairs.foldl (fun m p => m.update p.1 fun as? =>
          let as := as?.getD []
          if p.2 ∈ as then as else as ++ [p.2]) m).keys ↔ (∃ a, (k, a) ∈ pairs) ∨ k ∈ m.keys
  | [], m => by simp
  | (j, b) :: pairs, m => by
    rw [List.foldl_cons, mem_keys_foldl_group pairs, update, mem_keys_insert]
    simp only [List.mem_cons, Prod.mk.injEq, exists_or, exists_and_left, exists_eq, and_true]
    exact or_left_comm.trans or_assoc.symm

omit [DecidableEq κ] in
/-- The keys of a grouping are those of its pairs. -/
theorem mem_keys_group {pairs : List (κ × α)} {k : κ} :
    k ∈ (group pairs).keys ↔ ∃ a, (k, a) ∈ pairs := by
  rw [group, mem_keys_foldl_group]; simp

end LRAutomata.OrderedMap
