/-
  Iteration of a function until it changes nothing.

  The number of rounds is bounded by the caller, who knows a measure that
  every changing round moves; `isFixed_iterate` says that a bound which was
  not used up leaves a fixed point.
-/

namespace LRAutomata.Fixpoint

/-- Apply `f` until the value stays the same, for at most `rounds` rounds. -/
def iterate {α : Type} [DecidableEq α] (f : α → α) : (rounds : Nat) → α → α
  | 0, a => a
  | rounds + 1, a =>
    let b := f a
    if b = a then a else iterate f rounds b

/-- If every changing round lowers a measure, as many rounds as the measure
    of the start reach a fixed point. -/
theorem isFixed_iterate {α : Type} [DecidableEq α] {f : α → α} {measure : α → Nat}
    (drop : ∀ a, f a ≠ a → measure (f a) < measure a) {rounds : Nat} {a : α}
    (h : measure a < rounds) : f (iterate f rounds a) = iterate f rounds a := by
  induction rounds generalizing a with
  | zero => exact absurd h (Nat.not_lt_zero _)
  | succ n ih =>
    rw [iterate]
    split
    · assumption
    · rename_i hne
      exact ih (Nat.lt_of_lt_of_le (drop a hne) (Nat.le_of_lt_succ h))

end LRAutomata.Fixpoint
