/-
  Finite sets of natural numbers, kept as the bits of one number.

  Symbols and kernel positions are small numbers, so a set of them is a bit
  mask: `n ∈ s` says that bit `n` is set.  Sets with the same members are
  equal (`ext`), members are listed in ascending order (`toList`), and the
  operations have the membership lemmas that their names promise.
-/

namespace LRAutomata

/-- A finite set of natural numbers: `n` is a member iff bit `n` of `bits` is set. -/
structure NatSet where
  bits : Nat
deriving DecidableEq, Repr

namespace NatSet

instance : Membership Nat NatSet := ⟨fun s n => s.bits.testBit n = true⟩

instance (n : Nat) (s : NatSet) : Decidable (n ∈ s) :=
  inferInstanceAs (Decidable (s.bits.testBit n = true))

instance : EmptyCollection NatSet := ⟨⟨0⟩⟩

instance : Inhabited NatSet := ⟨∅⟩

instance : Singleton Nat NatSet := ⟨fun n => ⟨1 <<< n⟩⟩

instance : Union NatSet := ⟨fun s t => ⟨s.bits ||| t.bits⟩⟩

instance : Inter NatSet := ⟨fun s t => ⟨s.bits &&& t.bits⟩⟩

instance : SDiff NatSet := ⟨fun s t => ⟨s.bits ^^^ (s.bits &&& t.bits)⟩⟩

instance : Insert Nat NatSet := ⟨fun n s => ⟨s.bits ||| 1 <<< n⟩⟩

instance : HasSubset NatSet := ⟨fun s t => s.bits ||| t.bits = t.bits⟩

instance (s t : NatSet) : Decidable (s ⊆ t) :=
  inferInstanceAs (Decidable (s.bits ||| t.bits = t.bits))

instance : Ord NatSet := ⟨compareOn NatSet.bits⟩

/-- The set without `n`. -/
def erase (s : NatSet) (n : Nat) : NatSet :=
  s \ {n}

/-- The set of the numbers listed. -/
def ofList (ns : List Nat) : NatSet :=
  ns.foldl (fun s n => insert n s) ∅

/-- The positions of the bits of `bits`, which has at most `1 <<< k` of them,
    counted from `offset` and put before `rest`.  Halves without bits are
    skipped. -/
def positions : (k offset bits : Nat) → (rest : List Nat) → List Nat
  | 0, offset, bits, rest => if bits = 0 then rest else offset :: rest
  | k + 1, offset, bits, rest =>
    if bits = 0 then rest
    else
      let half := 1 <<< k
      positions k offset (bits % 1 <<< half) (positions k (offset + half) (bits >>> half) rest)

/-- The members in ascending order. -/
def toList (s : NatSet) : List Nat :=
  positions (s.bits.log2.log2 + 1) 0 s.bits []

/-- The number of members. -/
def size (s : NatSet) : Nat :=
  s.toList.length

/-- Whether the set has no members. -/
def isEmpty (s : NatSet) : Bool :=
  s.bits == 0

/-- Whether the two sets have no common member. -/
def disjoint (s t : NatSet) : Bool :=
  (s ∩ t).isEmpty

/-! ## Membership -/

theorem mem_def {n : Nat} {s : NatSet} : n ∈ s ↔ s.bits.testBit n = true := Iff.rfl

/-- Sets with the same members are equal. -/
theorem ext {s t : NatSet} (h : ∀ n, n ∈ s ↔ n ∈ t) : s = t := by
  have : s.bits = t.bits := Nat.eq_of_testBit_eq fun n => Bool.eq_iff_iff.2 (h n)
  cases s; cases t; simp_all

@[simp] theorem not_mem_empty (n : Nat) : n ∉ (∅ : NatSet) := by
  simp [mem_def, EmptyCollection.emptyCollection]

@[simp] theorem mem_singleton {m n : Nat} : m ∈ ({n} : NatSet) ↔ m = n := by
  simp only [mem_def, Singleton.singleton, Nat.testBit_shiftLeft, Bool.and_eq_true,
    decide_eq_true_eq, Nat.testBit_one_eq_true_iff_self_eq_zero]
  omega

@[simp] theorem mem_union {n : Nat} {s t : NatSet} : n ∈ s ∪ t ↔ n ∈ s ∨ n ∈ t := by
  simp [mem_def, Union.union, Nat.testBit_or]

@[simp] theorem mem_inter {n : Nat} {s t : NatSet} : n ∈ s ∩ t ↔ n ∈ s ∧ n ∈ t := by
  simp [mem_def, Inter.inter, Nat.testBit_and]

@[simp] theorem mem_sdiff {n : Nat} {s t : NatSet} : n ∈ s \ t ↔ n ∈ s ∧ n ∉ t := by
  simp only [mem_def, SDiff.sdiff, Nat.testBit_xor, Nat.testBit_and]
  cases s.bits.testBit n <;> cases t.bits.testBit n <;> simp

@[simp] theorem mem_insert {m n : Nat} {s : NatSet} : m ∈ insert n s ↔ m = n ∨ m ∈ s := by
  have h : m ∈ insert n s ↔ m ∈ s ∨ m ∈ ({n} : NatSet) := by
    simp [mem_def, insert, Insert.insert, Singleton.singleton, Nat.testBit_or]
  rw [h, mem_singleton, or_comm]

@[simp] theorem mem_erase {m n : Nat} {s : NatSet} : m ∈ s.erase n ↔ m ∈ s ∧ m ≠ n := by
  simp [erase]

/-- Inclusion is inclusion of members. -/
theorem subset_def {s t : NatSet} : s ⊆ t ↔ ∀ n, n ∈ s → n ∈ t := by
  constructor
  · intro (h : s.bits ||| t.bits = t.bits) n hn
    have : n ∈ s ∪ t := mem_union.2 (Or.inl hn)
    rwa [mem_def, show (s ∪ t).bits = t.bits from h] at this
  · intro h
    have : s ∪ t = t := ext fun n => by simpa using h n
    exact congrArg NatSet.bits this

theorem low_lt (bits half : Nat) : bits % 1 <<< half < 1 <<< half :=
  Nat.mod_lt _ (by rw [Nat.one_shiftLeft]; exact Nat.two_pow_pos _)

theorem high_lt {k bits : Nat} (h : bits < 1 <<< (1 <<< (k + 1))) :
    bits >>> (1 <<< k) < 1 <<< (1 <<< k) := by
  rw [Nat.shiftRight_eq_div_pow]
  apply Nat.div_lt_of_lt_mul
  simpa only [Nat.one_shiftLeft, ← Nat.pow_add, ← Nat.two_mul, ← Nat.pow_succ'] using h

theorem mem_positions {k offset bits n : Nat} {rest : List Nat} (h : bits < 1 <<< (1 <<< k)) :
    n ∈ positions k offset bits rest ↔
      (offset ≤ n ∧ bits.testBit (n - offset) = true) ∨ n ∈ rest := by
  induction k generalizing offset bits rest with
  | zero =>
    have hb : bits = 0 ∨ bits = 1 := by simp at h; omega
    rcases hb with rfl | rfl
    · simp [positions]
    · simp only [positions, Nat.one_ne_zero, if_false, List.mem_cons,
        Nat.testBit_one_eq_true_iff_self_eq_zero]
      exact or_congr_left (by omega)
  | succ k ih =>
    rw [positions]
    split
    · rename_i h0; simp [h0]
    · simp only []
      rw [ih (low_lt bits _), ih (high_lt h), Nat.testBit_shiftRight, ← or_assoc]
      generalize 1 <<< k = half
      apply or_congr_left
      rw [Nat.one_shiftLeft, Nat.testBit_mod_two_pow, Bool.and_eq_true, decide_eq_true_eq]
      rcases Nat.lt_or_ge n (offset + half) with hn | hn
      · have : ¬ offset + half ≤ n := by omega
        simp only [this, false_and, or_false]
        constructor
        · rintro ⟨ho, _, hb⟩; exact ⟨ho, hb⟩
        · rintro ⟨ho, hb⟩; exact ⟨ho, by omega, hb⟩
      · have hlt : ¬ n - offset < half := by omega
        have heq : half + (n - (offset + half)) = n - offset := by omega
        simp only [hlt, false_and, and_false, false_or, heq, hn, true_and]
        exact ⟨fun hb => ⟨by omega, hb⟩, fun hb => hb.2⟩

theorem pairwise_positions {k offset bits : Nat} {rest : List Nat} (h : bits < 1 <<< (1 <<< k))
    (sorted : rest.Pairwise (· < ·)) (beyond : ∀ n ∈ rest, offset + 1 <<< k ≤ n) :
    (positions k offset bits rest).Pairwise (· < ·) := by
  induction k generalizing offset bits rest with
  | zero =>
    rw [positions]
    split
    · exact sorted
    · refine List.pairwise_cons.2 ⟨fun n hn => ?_, sorted⟩
      have := beyond n hn
      simp at this; omega
  | succ k ih =>
    rw [positions]
    split
    · exact sorted
    · have hdouble : 1 <<< (k + 1) = 1 <<< k + 1 <<< k := by
        rw [Nat.shiftLeft_succ]; omega
      rw [hdouble] at beyond
      refine ih (low_lt bits _) (ih (high_lt h) sorted fun n hn => ?_) fun n hn => ?_
      · have := beyond n hn; omega
      · rcases (mem_positions (high_lt h)).1 hn with ⟨ho, _⟩ | hr
        · exact ho
        · exact Nat.le_trans (by rw [← Nat.add_assoc]; exact Nat.le_add_right _ _) (beyond n hr)

theorem bits_lt (s : NatSet) : s.bits < 1 <<< (1 <<< (s.bits.log2.log2 + 1)) := by
  simp only [Nat.one_shiftLeft]
  exact Nat.lt_of_lt_of_le Nat.lt_log2_self
    (Nat.pow_le_pow_right (by decide) (Nat.succ_le_of_lt Nat.lt_log2_self))

/-- The listing has the members and no others. -/
@[simp] theorem mem_toList {n : Nat} {s : NatSet} : n ∈ s.toList ↔ n ∈ s := by
  rw [toList, mem_positions (bits_lt s), mem_def]
  simp

/-- The listing is ascending, hence without repetitions. -/
theorem pairwise_toList (s : NatSet) : s.toList.Pairwise (· < ·) :=
  pairwise_positions (bits_lt s) List.Pairwise.nil (by simp)

@[simp] theorem mem_ofList {n : Nat} {ns : List Nat} : n ∈ ofList ns ↔ n ∈ ns := by
  have h : ∀ (ns : List Nat) (s : NatSet),
      n ∈ ns.foldl (fun s n => insert n s) s ↔ n ∈ s ∨ n ∈ ns := by
    intro ns
    induction ns with
    | nil => simp
    | cons m ns ih =>
      intro s
      rw [List.foldl_cons, ih, mem_insert, List.mem_cons]
      constructor
      · rintro ((h | h) | h) <;> simp [h]
      · rintro (h | h | h) <;> simp [h]
  rw [ofList, h]
  simp

theorem isEmpty_iff {s : NatSet} : s.isEmpty = true ↔ ∀ n, n ∉ s := by
  constructor
  · intro h n
    have : s = ∅ := by cases s; simpa [isEmpty, EmptyCollection.emptyCollection] using h
    simp [this]
  · intro h
    have : s = ∅ := ext fun n => by simp [h n]
    simp [this, isEmpty, EmptyCollection.emptyCollection]

theorem isEmpty_eq_false_iff {s : NatSet} : s.isEmpty = false ↔ ∃ n, n ∈ s := by
  rw [Bool.eq_false_iff, Ne, isEmpty_iff]
  exact Classical.not_forall_not

end NatSet

end LRAutomata
