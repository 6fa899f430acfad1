/-
  Total orders by two keys.

  Pairs are compared lexicographically, and a structure with two fields by the
  first field, then by the second.  `lawful_compareLex` is the step every such
  order needs to tell elements apart exactly: two lawful orders, and keys that
  determine the element.
-/
import Std.Data.TreeMap

namespace LRAutomata

open Std

instance instOrdPair {α β : Type} [Ord α] [Ord β] : Ord (α × β) := lexOrd

instance instTransOrdPair {α β : Type} [Ord α] [Ord β] [TransOrd α] [TransOrd β] :
    TransOrd (α × β) :=
  instTransOrdProd

instance instLawfulEqOrdPair {α β : Type} [Ord α] [Ord β] [LawfulEqOrd α] [LawfulEqOrd β] :
    LawfulEqOrd (α × β) :=
  instLawfulEqOrdProd

/-- Comparing by two keys that determine the element is lawful. -/
theorem lawful_compareLex {α β γ : Type} [Ord β] [Ord γ] [LawfulEqOrd β] [LawfulEqOrd γ]
    (key₁ : α → β) (key₂ : α → γ) (h : ∀ a b, key₁ a = key₁ b → key₂ a = key₂ b → a = b) :
    LawfulEqCmp (compareLex (compareOn key₁) (compareOn key₂)) where
  compare_self := by intro a; exact ReflCmp.compare_self
  eq_of_compare := by
    intro a b hab
    rw [compareLex, Ordering.then_eq_eq] at hab
    exact h a b (LawfulEqOrd.eq_of_compare hab.1) (LawfulEqOrd.eq_of_compare hab.2)

end LRAutomata
