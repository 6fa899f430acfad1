/-
  Counts from which the bounds of searches and iterations are made.
-/

namespace LRAutomata

/-- The sum of the numbers listed. -/
def total (ns : List Nat) : Nat :=
  ns.foldr (· + ·) 0

/-- The greatest of the numbers listed, or 0. -/
def greatest (ns : List Nat) : Nat :=
  ns.foldr max 0

/-- The number of subsets of a set with `n` elements. -/
def subsetCount (n : Nat) : Nat :=
  1 <<< n

theorem le_total {n : Nat} {ns : List Nat} (h : n ∈ ns) : n ≤ total ns := by
  induction ns with
  | nil => cases h
  | cons m ns ih =>
    rcases List.mem_cons.1 h with rfl | h
    · exact Nat.le_add_right _ _
    · exact Nat.le_trans (ih h) (Nat.le_add_left _ _)

theorem le_greatest {n : Nat} {ns : List Nat} (h : n ∈ ns) : n ≤ greatest ns := by
  induction ns with
  | nil => cases h
  | cons m ns ih =>
    rcases List.mem_cons.1 h with rfl | h
    · exact Nat.le_max_left _ _
    · exact Nat.le_trans (ih h) (Nat.le_max_right _ _)

end LRAutomata
