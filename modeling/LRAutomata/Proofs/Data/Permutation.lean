/-
  Lists that differ in their order only.

  * The places of a list are those of a permutation of it, in another order
    (`List.Perm.exists_places`);
  * two lists without repetitions correspond entry by entry, in some order, if
    every entry of one has its counterpart in the other (`List.perm_map_of_mem`).
-/
import Mathlib.Data.List.Perm.Basic
import Mathlib.Data.Multiset.AddSub
import Mathlib.Data.Multiset.Count
import Mathlib.Data.Multiset.MapFold
import Mathlib.Logic.Equiv.Basic

namespace List

variable {α β γ δ : Type}

/-! ## Places -/

/-- The places after the first are moved as the permutation says. -/
def shiftPlaces (π : Equiv.Perm ℕ) : Equiv.Perm ℕ where
  toFun
    | 0 => 0
    | n + 1 => π n + 1
  invFun
    | 0 => 0
    | n + 1 => π.symm n + 1
  left_inv n := by cases n <;> simp
  right_inv n := by cases n <;> simp

/-- Every entry of a list stands somewhere in a permutation of it. -/
theorem Perm.exists_places {l l' : List α} (h : l.Perm l') :
    ∃ π : Equiv.Perm ℕ, ∀ n, l'[π n]? = l[n]? := by
  induction h with
  | nil => exact ⟨Equiv.refl ℕ, fun _ => rfl⟩
  | cons a _ ih =>
    obtain ⟨π, hπ⟩ := ih
    refine ⟨shiftPlaces π, fun n => ?_⟩
    cases n with
    | zero => rfl
    | succ n => exact hπ n
  | swap a b l =>
    refine ⟨Equiv.swap 0 1, fun n => ?_⟩
    match n with
    | 0 => rfl
    | 1 => rfl
    | n + 2 => rw [Equiv.swap_apply_of_ne_of_ne (by simp) (by simp)]; rfl
  | trans _ _ ih₁ ih₂ =>
    obtain ⟨π₁, h₁⟩ := ih₁
    obtain ⟨π₂, h₂⟩ := ih₂
    exact ⟨π₁.trans π₂, fun n => (h₂ _).trans (h₁ n)⟩

/-- The places of a list go to the places of the other. -/
theorem lt_length_of_places {l l' : List α} {π : Equiv.Perm ℕ} (h : ∀ n, l'[π n]? = l[n]?) (n : ℕ) :
    π n < l'.length ↔ n < l.length := by
  rw [← not_iff_not, Nat.not_lt, Nat.not_lt, ← getElem?_eq_none_iff, ← getElem?_eq_none_iff, h]

/-! ## Counterparts -/

/-- Two lists without repetitions correspond, in some order, if every entry of one
    has its counterpart in the other. -/
theorem perm_map_of_mem (f : α → β) (f' : β → α) {l : List α} {l' : List β} (hl : l.Nodup)
    (hl' : l'.Nodup) (left : ∀ a ∈ l, f a ∈ l' ∧ f' (f a) = a)
    (right : ∀ b ∈ l', f' b ∈ l ∧ f (f' b) = b) : l'.Perm (l.map f) := by
  have nodup : (l.map f).Nodup := hl.map_on fun a ha b hb heq => by
    rw [← (left a ha).2, heq, (left b hb).2]
  refine (perm_ext_iff_of_nodup hl' nodup).2 fun b => ⟨fun hb => ?_, fun hb => ?_⟩
  · exact mem_map.2 ⟨f' b, right b hb⟩
  · obtain ⟨a, ha, rfl⟩ := mem_map.1 hb
    exact (left a ha).1

/-- What is made of corresponding entries corresponds. -/
theorem rel_map_of_perm {R : γ → δ → Prop} {f : α → β} {m : α → γ} {m' : β → δ} {l : List α}
    {l' : List β} (h : l'.Perm (l.map f)) (hR : ∀ a ∈ l, R (m a) (m' (f a))) :
    Multiset.Rel R (l.map m) (l'.map m') := by
  rw [Multiset.coe_eq_coe.2 (h.map m'), map_map, ← Multiset.map_coe, ← Multiset.map_coe,
    Multiset.rel_map]
  exact Multiset.rel_refl_of_refl_on hR

theorem filterMap_cons_eq (f : α → Option β) (a : α) (l : List α) :
    (a :: l).filterMap f = (f a).toList ++ l.filterMap f := by
  rw [filterMap_cons]
  cases f a <;> rfl

theorem rel_toList {R : β → β → Prop} {b b' : Option β} (h : Option.Rel R b b') :
    Multiset.Rel R b.toList b'.toList := by
  cases h with
  | none => exact .zero
  | some h => exact .cons h .zero

/-- Corresponding results are kept in corresponding order. -/
theorem rel_filterMap_of_rel {R : β → β → Prop} {f f' : α → Option β} (l : List α)
    (h : ∀ a, Option.Rel R (f a) (f' a)) : Multiset.Rel R (l.filterMap f) (l.filterMap f') := by
  induction l with
  | nil => exact .zero
  | cons a l ih =>
    rw [filterMap_cons_eq, filterMap_cons_eq, ← Multiset.coe_add, ← Multiset.coe_add]
    exact (rel_toList (h a)).add ih

/-- What two corresponding entries share is counted alike in the two lists. -/
theorem countP_eq_of_rel {R : α → β → Prop} {p : α → Bool} {p' : β → Bool} {l : List α} {l' : List β}
    (h : Multiset.Rel R l l') (hp : ∀ a b, R a b → p' b = p a) : l'.countP p' = l.countP p := by
  have count : ∀ {s : Multiset α} {s' : Multiset β}, Multiset.Rel R s s' →
      s'.countP (p' ·) = s.countP (p ·) := by
    intro s s' h
    induction h with
    | zero => rfl
    | cons hab _ ih => simp only [Multiset.countP_cons, ih, hp _ _ hab]
  have := count h
  simpa [Multiset.coe_countP] using this

end List
