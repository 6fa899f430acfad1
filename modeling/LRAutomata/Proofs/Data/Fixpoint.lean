/-
  Iterations that only ever add to finite sets.

  The analyses of grammars and automata build sets of numbers from below: a
  round adds members, all of them below a known bound.  Such an iteration
  reaches a fixed point within as many rounds as there are numbers below the
  bound (`NatSet.isFixed_iterate`), and a fixed point of a fold is a fixed
  point of each of its steps (`eq_of_foldl_eq`).
-/
import LRAutomata.Data.Counting
import LRAutomata.Data.Fixpoint
import LRAutomata.Data.NatSet

namespace LRAutomata

/-- What `f` keeps, its iteration keeps. -/
theorem Fixpoint.iterate_keeps {α : Type} [DecidableEq α] {f : α → α} {P : α → Prop}
    (step : ∀ a, P a → P (f a)) : ∀ (rounds : Nat) {a : α}, P a → P (iterate f rounds a)
  | 0, _, h => h
  | rounds + 1, a, h => by
    rw [iterate]
    split
    · exact h
    · exact iterate_keeps step rounds (step a h)

/-- If every changing round lowers a measure as long as what `f` keeps holds, as
    many rounds as the measure of the start reach a fixed point. -/
theorem Fixpoint.isFixed_iterate_of_keeps {α : Type} [DecidableEq α] {f : α → α} {P : α → Prop}
    {m : α → Nat} (step : ∀ a, P a → P (f a))
    (drop : ∀ a, P a → f a ≠ a → m (f a) < m a) :
    ∀ (rounds : Nat) {a : α}, P a → m a < rounds →
      f (iterate f rounds a) = iterate f rounds a
  | 0, _, _, h => absurd h (Nat.not_lt_zero _)
  | rounds + 1, a, ha, h => by
    rw [iterate]
    split
    · assumption
    · rename_i hne
      exact isFixed_iterate_of_keeps step drop rounds (step a ha)
        (Nat.lt_of_lt_of_le (drop a ha hne) (Nat.le_of_lt_succ h))

/-- Once a fixed point is reached, further rounds change nothing. -/
theorem Fixpoint.iterate_eq_of_le {α : Type} [DecidableEq α] {f : α → α} :
    ∀ {m n : Nat} {a : α}, f (iterate f m a) = iterate f m a → m ≤ n →
      iterate f n a = iterate f m a
  | 0, 0, _, _, _ => rfl
  | 0, n + 1, a, h, _ => by
    show iterate f (n + 1) a = a
    rw [iterate]
    exact if_pos h
  | m + 1, 0, _, _, hle => absurd hle (Nat.not_succ_le_zero m)
  | m + 1, n + 1, a, h, hle => by
    rw [iterate] at h
    rw [iterate, iterate]
    split
    · rfl
    · rename_i hne
      rw [if_neg hne] at h
      exact iterate_eq_of_le h (Nat.le_of_succ_le_succ hle)

/-! ## Sums -/

theorem total_map_le {α : Type} {f g : α → Nat} :
    ∀ {as : List α}, (∀ a ∈ as, f a ≤ g a) → total (as.map f) ≤ total (as.map g)
  | [], _ => Nat.le_refl _
  | a :: as, h => Nat.add_le_add (h a (by simp)) (total_map_le fun b hb => h b (by simp [hb]))

theorem total_map_lt {α : Type} {f g : α → Nat} {a : α} :
    ∀ {as : List α}, (∀ b ∈ as, f b ≤ g b) → a ∈ as → f a < g a →
      total (as.map f) < total (as.map g)
  | [], _, ha, _ => by simp at ha
  | b :: as, h, ha, hlt => by
    have hb := h b (by simp)
    have hle : ∀ c ∈ as, f c ≤ g c := fun c hc => h c (by simp [hc])
    rcases List.mem_cons.1 ha with rfl | ha
    · exact Nat.add_lt_add_of_lt_of_le hlt (total_map_le hle)
    · exact Nat.add_lt_add_of_le_of_lt hb (total_map_lt hle ha hlt)

theorem total_map_le_mul {α : Type} {f : α → Nat} {n : Nat} :
    ∀ {as : List α}, (∀ a ∈ as, f a ≤ n) → total (as.map f) ≤ as.length * n
  | [], _ => Nat.zero_le _
  | a :: as, h => by
    have := total_map_le_mul fun b (hb : b ∈ as) => h b (by simp [hb])
    have := h a (by simp)
    rw [List.length_cons, Nat.succ_mul, List.map_cons, Nat.add_comm]
    exact Nat.add_le_add ‹_› ‹_›

theorem total_flatMap {α β : Type} (f : β → Nat) (l : List α) (h : α → List β) :
    total ((l.flatMap h).map f) = total (l.map fun x => total ((h x).map f)) := by
  induction l with
  | nil => rfl
  | cons x l ih =>
    rw [List.flatMap_cons, List.map_append, List.map_cons]
    exact List.sum_append.trans (congrArg (_ + ·) ih)

/-! ## Folds that only add -/

section Fold
variable {α β : Type} {f : β → α → β} {le : β → β → Prop}

theorem le_foldl (refl : ∀ b, le b b) (trans : ∀ a b c, le a b → le b c → le a c)
    (infl : ∀ b a, le b (f b a)) : ∀ (as : List α) (b : β), le b (as.foldl f b)
  | [], b => refl b
  | a :: as, b => trans _ _ _ (infl b a) (le_foldl refl trans infl as (f b a))

/-- If a fold adds nothing, none of its steps does. -/
theorem eq_of_foldl_eq (refl : ∀ b, le b b) (trans : ∀ a b c, le a b → le b c → le a c)
    (antisymm : ∀ a b, le a b → le b a → a = b) (infl : ∀ b a, le b (f b a)) :
    ∀ (as : List α) (b : β), as.foldl f b = b → ∀ a ∈ as, f b a = b
  | [], _, _, _, ha => by simp at ha
  | a :: as, b, h, a', ha' => by
    have first : f b a = b := by
      have after := le_foldl refl trans infl as (f b a)
      rw [← List.foldl_cons, h] at after
      exact antisymm _ _ after (infl b a)
    rw [List.foldl_cons, first] at h
    rcases List.mem_cons.1 ha' with rfl | ha'
    · exact first
    · exact eq_of_foldl_eq refl trans antisymm infl as b h a' ha'

end Fold

namespace NatSet

theorem subset_refl (s : NatSet) : s ⊆ s := subset_def.2 fun _ h => h

theorem subset_trans {s t u : NatSet} (h₁ : s ⊆ t) (h₂ : t ⊆ u) : s ⊆ u :=
  subset_def.2 fun n hn => subset_def.1 h₂ n (subset_def.1 h₁ n hn)

theorem subset_antisymm {s t : NatSet} (h₁ : s ⊆ t) (h₂ : t ⊆ s) : s = t :=
  ext fun n => ⟨subset_def.1 h₁ n, subset_def.1 h₂ n⟩

/-- A fold of sets adds nothing iff none of its steps does. -/
theorem eq_of_foldl_eq {α : Type} {f : NatSet → α → NatSet} (infl : ∀ s a, s ⊆ f s a)
    {as : List α} {s : NatSet} (h : as.foldl f s = s) : ∀ a ∈ as, f s a = s :=
  LRAutomata.eq_of_foldl_eq subset_refl (fun _ _ _ => subset_trans) (fun _ _ => subset_antisymm)
    infl as s h

/-! ## Members that are missing -/

/-- How many of the numbers listed are not in the set. -/
def missing (ns : List Nat) (s : NatSet) : Nat :=
  (ns.filter (· ∉ s)).length

theorem missing_le (ns : List Nat) (s : NatSet) : missing ns s ≤ ns.length :=
  List.length_filter_le _ _

theorem filter_missing {ns : List Nat} {s t : NatSet} (h : s ⊆ t) :
    ns.filter (· ∉ t) = (ns.filter (· ∉ s)).filter (· ∉ t) := by
  rw [List.filter_filter]
  refine List.filter_congr fun m _ => ?_
  simpa using fun hm hms => hm (subset_def.1 h m hms)

theorem missing_mono {ns : List Nat} {s t : NatSet} (h : s ⊆ t) : missing ns t ≤ missing ns s := by
  rw [missing, filter_missing h]
  exact List.length_filter_le _ _

theorem missing_lt {ns : List Nat} {m : Nat} {s t : NatSet} (h : s ⊆ t) (hm : m ∈ ns) (hs : m ∉ s)
    (ht : m ∈ t) : missing ns t < missing ns s := by
  rw [missing, filter_missing h]
  exact List.length_filter_lt_length_iff_exists.2 ⟨m, by simp [hm, hs], by simp [ht]⟩

theorem exists_new {s t : NatSet} (h : s ⊆ t) (hne : t ≠ s) : ∃ m, m ∈ t ∧ m ∉ s := by
  apply Classical.byContradiction
  intro hall
  exact hne (subset_antisymm (subset_def.2 fun m hm => Classical.byContradiction fun hms =>
    hall ⟨m, hm, hms⟩) h)

/-- A function that only adds, and only numbers listed, reaches a fixed point
    in as many rounds as there are such numbers. -/
theorem isFixed_iterate {f : NatSet → NatSet} {ns : List Nat} (infl : ∀ s, s ⊆ f s)
    (bounded : ∀ s m, m ∈ f s → m ∈ s ∨ m ∈ ns) (s : NatSet) :
    f (Fixpoint.iterate f (ns.length + 1) s) = Fixpoint.iterate f (ns.length + 1) s := by
  refine Fixpoint.isFixed_iterate_of_keeps (P := fun _ => True) (m := missing ns)
    (fun _ _ => trivial) (fun a _ hne => ?_) _ trivial (Nat.lt_succ_of_le (missing_le ns s))
  obtain ⟨m, hm, hms⟩ := exists_new (infl a) hne
  exact missing_lt (infl a) ((bounded a m hm).resolve_left hms) hms hm

end NatSet

end LRAutomata
