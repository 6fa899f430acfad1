/-
  FIRST sets are what their name says.

  They are built from below, so their members have derivations; and a round that
  changes nothing leaves sets that are closed under the rules, so no derivation
  escapes them.

  * a right-hand side adds the terminals with which it can begin by the sets as
    they were before it was read (`First.mem_readRhs`), and a round is marked when
    it changes a set (`First.marked_step`);
  * FIRST of a string has the terminals with which it begins
    (`Grammar.WellFormed.mem_firstOfString_iff`);
  * the rounds end, with the FIRST sets of the symbols (`Grammar.first_exact`).
-/
import LRAutomata.Proofs.Grammar.Nullable

namespace LRAutomata

open Grammar

namespace First

theorem mem_ofString_cons {nullable : NatSet} {first : SymbolId → NatSet} {X t : SymbolId}
    {α : List SymbolId} : t ∈ ofString nullable first (X :: α) ↔
      t ∈ first X ∨ X ∈ nullable ∧ t ∈ ofString nullable first α := by
  rw [ofString]
  split <;> rename_i h <;> simp [h]

/-- The tables have the same size, and every set of the first is in the second. -/
def Le (sets sets' : Array NatSet) : Prop :=
  sets.size = sets'.size ∧ ∀ i, sets.getD i ∅ ⊆ sets'.getD i ∅

theorem Le.refl (sets : Array NatSet) : Le sets sets := ⟨rfl, fun _ => NatSet.subset_refl _⟩

theorem Le.trans (a b c : Array NatSet) (h₁ : Le a b) (h₂ : Le b c) : Le a c :=
  ⟨h₁.1.trans h₂.1, fun i => NatSet.subset_trans (h₁.2 i) (h₂.2 i)⟩

theorem Le.antisymm (a b : Array NatSet) (h₁ : Le a b) (h₂ : Le b a) : a = b := by
  refine Array.ext h₁.1 fun i hi hi' => ?_
  have := NatSet.subset_antisymm (h₁.2 i) (h₂.2 i)
  simpa [Array.getD, hi, hi'] using this

/-- The sets grow, and a mark that was set stays. -/
def Grows (s s' : Array NatSet × Bool) : Prop :=
  Le s.1 s'.1 ∧ (s.2 = true → s'.2 = true)

theorem Grows.refl (s : Array NatSet × Bool) : Grows s s := ⟨.refl _, id⟩

theorem Grows.trans (a b c : Array NatSet × Bool) (h₁ : Grows a b) (h₂ : Grows b c) : Grows a c :=
  ⟨.trans _ _ _ h₁.1 h₂.1, h₂.2 ∘ h₁.2⟩

theorem Grows.antisymm (a b : Array NatSet × Bool) (h₁ : Grows a b) (h₂ : Grows b a) : a = b :=
  Prod.ext (Le.antisymm _ _ h₁.1 h₂.1) (Bool.eq_iff_iff.2 ⟨h₁.2, h₂.2⟩)

/-- The sets have grown since they were `sets`, and the mark tells whether they
    are others. -/
def Marked (sets : Array NatSet) (s : Array NatSet × Bool) : Prop :=
  Le sets s.1 ∧ (s.2 = true ↔ s.1 ≠ sets)

section Read
variable {n i : Nat} {nullable : NatSet} {first first' : SymbolId → NatSet} {sets : Array NatSet}
variable {s : Array NatSet × Bool} {lhs X t : SymbolId} {α : List SymbolId} {rules : List Rule}

theorem mem_modify {s : NatSet} {j : Nat} : t ∈ (sets.modify j (· ∪ s)).getD i ∅ ↔
    t ∈ sets.getD i ∅ ∨ i < sets.size ∧ j = i ∧ t ∈ s := by
  by_cases hi : i < sets.size
  · simp only [Array.getD, Array.size_modify, hi, dif_pos, Array.getInternal_eq_getElem,
      Array.getElem_modify, true_and]
    split <;> rename_i h <;> simp [h]
  · simp [Array.getD, hi]

/-- A gift brings nothing new, or it changes the set of the left-hand side. -/
theorem give_cases (n : Nat) (lhs X : SymbolId) (s : Array NatSet × Bool) :
    ofSymbol n s.1 X ⊆ ofSymbol n s.1 lhs ∧ give n lhs X s = s ∨
      ¬ ofSymbol n s.1 X ⊆ ofSymbol n s.1 lhs ∧
        give n lhs X s = (s.1.modify (lhs - n) (· ∪ ofSymbol n s.1 X), true) := by
  rw [give]
  split
  · rename_i h
    refine .inl ⟨?_, rfl⟩
    rcases h with rfl | h
    · exact NatSet.subset_refl _
    · exact h
  · rename_i h
    exact .inr ⟨fun hsubset => h (.inr hsubset), rfl⟩

theorem grows_give (n : Nat) (lhs X : SymbolId) (s : Array NatSet × Bool) :
    Grows s (give n lhs X s) := by
  obtain ⟨-, heq⟩ | ⟨-, heq⟩ := give_cases n lhs X s <;> rw [heq]
  · exact .refl s
  · exact ⟨⟨Array.size_modify.symm, fun _ => NatSet.subset_def.2 fun _ h => mem_modify.2 (.inl h)⟩,
      fun _ => rfl⟩

theorem mem_give (hlhs : n ≤ lhs) : t ∈ (give n lhs X s).1.getD i ∅ ↔
    t ∈ s.1.getD i ∅ ∨ i < s.1.size ∧ lhs - n = i ∧ t ∈ ofSymbol n s.1 X := by
  obtain ⟨hsubset, heq⟩ | ⟨-, heq⟩ := give_cases n lhs X s <;> rw [heq]
  · rw [ofSymbol.eq_1 n s.1 lhs, if_neg (Nat.not_lt.2 hlhs)] at hsubset
    exact (or_iff_left_of_imp fun ⟨_, hi, ht⟩ => hi ▸ NatSet.subset_def.1 hsubset t ht).symm
  · exact mem_modify

/-- A gift is marked when it changes the sets. -/
theorem Marked.give (hlhs : n ≤ lhs) (hlt : lhs - n < sets.size) (h : Marked sets s) :
    Marked sets (give n lhs X s) := by
  have grows := grows_give n lhs X s
  refine ⟨.trans _ _ _ h.1 grows.1, ?_⟩
  obtain ⟨-, heq⟩ | ⟨hnot, heq⟩ := give_cases n lhs X s
  · rw [heq]; exact h.2
  · refine iff_of_true (by rw [heq]) fun hsame => hnot (NatSet.subset_def.2 fun t ht => ?_)
    -- If the sets are the first ones again, none has changed since.
    have hfirst : s.1 = sets := Le.antisymm _ _ (hsame ▸ grows.1) h.1
    rw [ofSymbol.eq_1 n s.1 lhs, if_neg (Nat.not_lt.2 hlhs), hfirst, ← hsame]
    exact (mem_give hlhs).2 (.inr ⟨hfirst ▸ hlt, rfl, ht⟩)

theorem readRhs_cons (n : Nat) (nullable : NatSet) (lhs X : SymbolId) (α : List SymbolId)
    (s : Array NatSet × Bool) : readRhs n nullable lhs (X :: α) s =
      if X ∈ nullable then readRhs n nullable lhs α (give n lhs X s) else give n lhs X s := rfl

/-- What gifts keep, reading keeps. -/
theorem readRhs_keeps {P : Array NatSet × Bool → Prop} (h : ∀ X s, P s → P (give n lhs X s)) :
    ∀ (α : List SymbolId) {s : Array NatSet × Bool}, P s → P (readRhs n nullable lhs α s)
  | [], _, hs => hs
  | X :: α, s, hs => by
    rw [readRhs_cons]
    split
    · exact readRhs_keeps h α (h X s hs)
    · exact h X s hs

theorem grows_readRhs (n : Nat) (nullable : NatSet) (s : Array NatSet × Bool) (r : Rule) :
    Grows s (readRhs n nullable r.lhs r.rhs s) :=
  readRhs_keeps (fun X s' hs => .trans s s' _ hs (grows_give n r.lhs X s')) r.rhs (.refl s)

/-- What the symbols of a string have more counts only once. -/
theorem mem_ofString_or {P : Prop} (h : ∀ Y, t ∈ first Y → t ∈ first' Y ∨ P)
    (ht : t ∈ ofString nullable first α) : t ∈ ofString nullable first' α ∨ P := by
  induction α with
  | nil => simp [ofString] at ht
  | cons Y α ih =>
    rw [mem_ofString_cons]
    rcases mem_ofString_cons.1 ht with ht | ⟨hY, ht⟩
    · exact (h Y ht).imp_left .inl
    · exact (ih ht).imp_left fun ht => .inr ⟨hY, ht⟩

/-- A symbol has after the gift what it had before, and at most the gift besides. -/
theorem mem_ofSymbol_give (hlhs : n ≤ lhs) (Y : SymbolId) :
    (t ∈ ofSymbol n (give n lhs X s).1 Y → t ∈ ofSymbol n s.1 Y ∨ t ∈ ofSymbol n s.1 X) ∧
      (t ∈ ofSymbol n s.1 Y → t ∈ ofSymbol n (give n lhs X s).1 Y) := by
  rw [ofSymbol, ofSymbol.eq_1 n s.1 Y]
  split
  · exact ⟨.inl, id⟩
  · rw [mem_give hlhs]
    exact ⟨Or.imp_right fun h => h.2.2, .inl⟩

/-- **Reading a right-hand side** adds the terminals with which it can begin, by
    the sets as they were before: what is added on the way adds nothing more. -/
theorem mem_readRhs (hlhs : n ≤ lhs) : t ∈ (readRhs n nullable lhs α s).1.getD i ∅ ↔
    t ∈ s.1.getD i ∅ ∨ i < s.1.size ∧ lhs - n = i ∧ t ∈ ofString nullable (ofSymbol n s.1) α := by
  induction α generalizing s with
  | nil => simp [readRhs, ofString]
  | cons X α ih =>
    rw [readRhs_cons, mem_ofString_cons]
    split
    · rename_i hX
      rw [ih, mem_give hlhs, ← (grows_give n lhs X s).1.1, or_assoc, ← and_or_left, ← and_or_left]
      refine or_congr_right (and_congr_right fun _ => and_congr_right fun _ => ⟨?_, ?_⟩)
      · rintro (ht | ht)
        · exact .inl ht
        · exact (mem_ofString_or (fun Y => (mem_ofSymbol_give hlhs Y).1) ht).symm.imp_right (⟨hX, ·⟩)
      · rintro (ht | ⟨-, ht⟩)
        · exact .inl ht
        · exact .inr ((mem_ofString_or (P := False) (fun Y hY => .inl ((mem_ofSymbol_give hlhs Y).2 hY))
            ht).resolve_right id)
    · rename_i hX
      rw [mem_give hlhs]
      simp [hX]

/-! ## Rounds -/

theorem le_step (n : Nat) (nullable : NatSet) (rules : List Rule) (sets : Array NatSet) :
    Le sets (step n nullable rules sets).1 :=
  (le_foldl Grows.refl Grows.trans (grows_readRhs n nullable) rules (sets, false)).1

/-- A round is marked when it changes the sets. -/
theorem marked_step (hrules : ∀ r ∈ rules, n ≤ r.lhs ∧ r.lhs - n < sets.size) :
    Marked sets (step n nullable rules sets) := by
  refine List.foldlRecOn (motive := Marked sets) rules _ ⟨.refl sets, by simp⟩ fun s hs r hr => ?_
  obtain ⟨hlhs, hlt⟩ := hrules r hr
  exact readRhs_keeps (fun X s => Marked.give hlhs hlt) r.rhs hs

/-- The rounds are an iteration until nothing changes. -/
theorem run_eq_iterate {k : Nat} (hrules : ∀ r ∈ rules, n ≤ r.lhs ∧ r.lhs - n < k) :
    ∀ (rounds : Nat) {sets : Array NatSet}, sets.size = k → run n nullable rules rounds sets =
      Fixpoint.iterate (fun sets => (step n nullable rules sets).1) rounds sets
  | 0, _, _ => rfl
  | rounds + 1, sets, hk => by
    have marked : Marked sets (step n nullable rules sets) := marked_step fun r hr => hk ▸ hrules r hr
    rw [Fixpoint.iterate]
    show (if (step n nullable rules sets).2 then run n nullable rules rounds (step n nullable rules sets).1
      else (step n nullable rules sets).1) = _
    split
    · rename_i hchanged
      rw [if_neg (marked.2.1 hchanged)]
      exact run_eq_iterate hrules rounds (marked.1.1.symm.trans hk)
    · rename_i hsame
      have hsame := Classical.not_not.1 (mt marked.2.2 hsame)
      rw [if_pos hsame, hsame]

end Read

/-- Every member of a set of the table satisfies `P`. -/
def All (P : Nat → SymbolId → Prop) (sets : Array NatSet) : Prop :=
  ∀ i t, t ∈ sets.getD i ∅ → P i t

theorem all_replicate {P : Nat → SymbolId → Prop} (k : Nat) : All P (Array.replicate k ∅) := by
  intro i t ht
  simp only [Array.getD] at ht
  split at ht <;> simp at ht

theorem step_keeps {rules : List Rule} {n : Nat} {nullable : NatSet} {P : Nat → SymbolId → Prop}
    (hlhs : ∀ r ∈ rules, n ≤ r.lhs) (rule : ∀ r ∈ rules, ∀ sets, All P sets →
      ∀ t ∈ ofString nullable (ofSymbol n sets) r.rhs, P (r.lhs - n) t)
    (sets : Array NatSet) (hs : All P sets) : All P (step n nullable rules sets).1 := by
  refine List.foldlRecOn (motive := fun s : Array NatSet × Bool => All P s.1) rules _ hs fun s hs r hr i t ht => ?_
  rcases (mem_readRhs (hlhs r hr)).1 ht with hold | ⟨-, rfl, hnew⟩
  · exact hs i t hold
  · exact rule r hr s.1 hs t hnew

/-- How many terminals are missing in the sets of a table with `k` sets. -/
def missing (k n : Nat) (sets : Array NatSet) : Nat :=
  total ((List.range k).map fun i => NatSet.missing (List.range n) (sets.getD i ∅))

theorem missing_le (k n : Nat) (sets : Array NatSet) : missing k n sets ≤ k * n := by
  have : missing k n sets ≤ (List.range k).length * (List.range n).length :=
    total_map_le_mul fun i _ => NatSet.missing_le (List.range n) (sets.getD i ∅)
  simpa using this

theorem missing_lt {k n : Nat} {sets sets' : Array NatSet} (hk : sets.size = k)
    (h : Le sets sets') (hne : sets' ≠ sets) (bound : All (fun _ t => t < n) sets') :
    missing k n sets' < missing k n sets := by
  obtain ⟨i, hi, hsi⟩ : ∃ i, i < k ∧ sets'.getD i ∅ ≠ sets.getD i ∅ := by
    apply Classical.byContradiction
    intro hall
    refine hne (Array.ext h.1.symm fun i hi hi' => ?_)
    have := Classical.byContradiction fun hc => hall ⟨i, by omega, hc⟩
    simpa [Array.getD, hi, hi'] using this
  obtain ⟨t, ht, hts⟩ := NatSet.exists_new (h.2 i) hsi
  exact total_map_lt (fun j _ => NatSet.missing_mono (h.2 j)) (List.mem_range.2 hi)
    (NatSet.missing_lt (h.2 i) (List.mem_range.2 (bound i t ht)) hts ht)

end First

namespace Grammar

variable {g : Grammar}

theorem WellFormed.terminalCount_le_lhs (wf : g.WellFormed) {r : RuleId} (hr : r < g.rules.size) :
    g.terminalCount ≤ g.lhs r :=
  Nat.le_of_not_lt (of_decide_eq_false (wf.lhs_nonterminal hr))

/-- Every rule has a set to give to. -/
theorem WellFormed.forall_lhs (wf : g.WellFormed) : ∀ x ∈ g.rules.toList,
    g.terminalCount ≤ x.lhs ∧ x.lhs - g.terminalCount < g.nonterminalCount := by
  intro x hx
  obtain ⟨r, hr, rfl⟩ := mem_rules_iff.1 hx
  have hge := wf.terminalCount_le_lhs hr
  exact ⟨hge, Nat.sub_lt_sub_right hge (wf.lhs_lt hr)⟩

theorem WellFormed.firstSets_eq_iterate (wf : g.WellFormed) : g.firstSets =
    Fixpoint.iterate (fun sets => (First.step g.terminalCount g.nullable g.rules.toList sets).1)
      (g.nonterminalCount * g.terminalCount + 1) (Array.replicate g.nonterminalCount ∅) := by
  rw [wf.firstSets_eq]
  exact First.run_eq_iterate wf.forall_lhs _ Array.size_replicate

/-- What the rules keep holds of the members of the FIRST sets. -/
theorem WellFormed.firstSets_keeps (wf : g.WellFormed) {P : Nat → SymbolId → Prop}
    (rule : ∀ r, r < g.rules.size → ∀ sets, First.All P sets →
      ∀ t ∈ First.ofString g.nullable (First.ofSymbol g.terminalCount sets) (g.rhs r),
        P (g.lhs r - g.terminalCount) t) : First.All P g.firstSets := by
  rw [wf.firstSets_eq_iterate]
  refine Fixpoint.iterate_keeps (P := First.All P)
    (First.step_keeps (fun x hx => (wf.forall_lhs x hx).1) fun x hx => ?_) _ (First.all_replicate _)
  obtain ⟨r, hr, rfl⟩ := mem_rules_iff.1 hx
  exact rule r hr

theorem WellFormed.size_firstSets (wf : g.WellFormed) : g.firstSets.size = g.nonterminalCount := by
  rw [wf.firstSets_eq_iterate]
  exact Fixpoint.iterate_keeps (P := fun sets : Array NatSet => sets.size = g.nonterminalCount)
    (fun sets hs => (First.le_step _ _ _ sets).1.symm.trans hs) _ Array.size_replicate

/-- A string begins, by the sets of a table, only with terminals. -/
theorem isTerminal_of_mem_ofString {sets : Array NatSet}
    (hs : First.All (fun _ t => t < g.terminalCount) sets) {α : List SymbolId} {t : SymbolId}
    (ht : t ∈ First.ofString g.nullable (First.ofSymbol g.terminalCount sets) α) :
    t < g.terminalCount := by
  induction α with
  | nil => simp [First.ofString] at ht
  | cons X α ih =>
    rcases First.mem_ofString_cons.1 ht with ht | ⟨-, ht⟩
    · rw [First.ofSymbol] at ht
      split at ht
      · rwa [NatSet.mem_singleton.1 ht]
      · exact hs _ t ht
    · exact ih ht

/-- The last round has changed nothing. -/
theorem WellFormed.firstSets_fixed (wf : g.WellFormed) :
    First.step g.terminalCount g.nullable g.rules.toList g.firstSets = (g.firstSets, false) := by
  have bounded : ∀ sets, First.All (fun _ t => t < g.terminalCount) sets →
      First.All (fun _ t => t < g.terminalCount)
        (First.step g.terminalCount g.nullable g.rules.toList sets).1 :=
    First.step_keeps (fun x hx => (wf.forall_lhs x hx).1)
      fun _ _ _ hs _ => isTerminal_of_mem_ofString hs
  have same : (First.step g.terminalCount g.nullable g.rules.toList g.firstSets).1 = g.firstSets := by
    rw [wf.firstSets_eq_iterate]
    exact Fixpoint.isFixed_iterate_of_keeps
      (P := fun sets => sets.size = g.nonterminalCount ∧ First.All (fun _ t => t < g.terminalCount) sets)
      (m := First.missing g.nonterminalCount g.terminalCount)
      (fun sets hs => ⟨(First.le_step _ _ _ sets).1.symm.trans hs.1, bounded sets hs.2⟩)
      (fun sets hs hne => First.missing_lt hs.1 (First.le_step _ _ _ sets) hne (bounded sets hs.2))
      _ ⟨Array.size_replicate, First.all_replicate _⟩ (Nat.lt_succ_of_le (First.missing_le _ _ _))
  have marked : First.Marked g.firstSets
      (First.step g.terminalCount g.nullable g.rules.toList g.firstSets) :=
    First.marked_step fun x hx => wf.size_firstSets ▸ wf.forall_lhs x hx
  exact Prod.ext same (Bool.eq_false_iff.2 fun hchanged => marked.2.1 hchanged same)

/-- A string begins with what a table of sets says, if the table is right. -/
theorem WellFormed.begins_of_mem_ofString (wf : g.WellFormed) {sets : Array NatSet}
    (hs : First.All (fun i t => g.Begins [i + g.terminalCount] t) sets) {α : List SymbolId}
    {t : SymbolId} (ht : t ∈ First.ofString g.nullable (First.ofSymbol g.terminalCount sets) α) :
    g.Begins α t := by
  induction α with
  | nil => simp [First.ofString] at ht
  | cons X α ih =>
    rw [begins_cons]
    rcases First.mem_ofString_cons.1 ht with ht | ⟨hX, ht⟩
    · left
      rw [First.ofSymbol] at ht
      split at ht
      · rename_i hX
        exact (wf.begins_terminal_iff (decide_eq_true hX)).2 (NatSet.mem_singleton.1 ht)
      · rename_i hX
        simpa only [Nat.sub_add_cancel (Nat.le_of_not_lt hX)] using hs _ t ht
    · exact .inr ⟨wf.mem_nullable_iff.1 hX, ih ht⟩

theorem WellFormed.firstSets_sound (wf : g.WellFormed) :
    First.All (fun i t => g.Begins [i + g.terminalCount] t) g.firstSets := by
  refine wf.firstSets_keeps fun r hr sets hs t ht => ?_
  simp only [Nat.sub_add_cancel (wf.terminalCount_le_lhs hr)]
  exact begins_rule hr (wf.begins_of_mem_ofString hs ht)

/-- The FIRST sets are closed under the rules. -/
theorem WellFormed.first_rule (wf : g.WellFormed) {r : RuleId} (hr : r < g.rules.size) {t : SymbolId}
    (ht : t ∈ g.firstOfString (g.rhs r)) : t ∈ g.first (g.lhs r) := by
  have hge := wf.terminalCount_le_lhs hr
  have fixed : First.readRhs g.terminalCount g.nullable (g.lhs r) (g.rhs r) (g.firstSets, false) =
      (g.firstSets, false) :=
    eq_of_foldl_eq First.Grows.refl First.Grows.trans First.Grows.antisymm
      (First.grows_readRhs g.terminalCount g.nullable) _ _ wf.firstSets_fixed (g.rule r)
      (mem_rules_iff.2 ⟨r, hr, rfl⟩)
  have hmem := (First.mem_readRhs hge (s := (g.firstSets, false))).2
    (.inr ⟨wf.size_firstSets ▸ Nat.sub_lt_sub_right hge (wf.lhs_lt hr), rfl, ht⟩)
  rw [fixed] at hmem
  rwa [first, First.ofSymbol, if_neg (Nat.not_lt.2 hge)]

theorem WellFormed.mem_firstOfString_of_leads (wf : g.WellFormed) {α : List SymbolId} {t : SymbolId}
    (h : g.Leads t α) : t ∈ g.firstOfString α := by
  induction h with
  | here ht =>
    refine First.mem_ofString_cons.2 (.inl ?_)
    rw [first, First.ofSymbol, if_pos (of_decide_eq_true ht)]
    exact NatSet.mem_singleton.2 rfl
  | skip hX _ ih => exact First.mem_ofString_cons.2 (.inr ⟨wf.mem_nullable_iff.2 hX, ih⟩)
  | expand hr _ ih => exact First.mem_ofString_cons.2 (.inl (wf.first_rule hr ih))

/-- FIRST of a string has the terminals with which it begins. -/
theorem WellFormed.mem_firstOfString_iff (wf : g.WellFormed) {α : List SymbolId} {t : SymbolId} :
    t ∈ g.firstOfString α ↔ g.Begins α t :=
  ⟨wf.begins_of_mem_ofString wf.firstSets_sound,
    fun h => wf.mem_firstOfString_of_leads (begins_iff_leads.1 h)⟩

theorem WellFormed.mem_first_iff (wf : g.WellFormed) {X t : SymbolId} :
    t ∈ g.first X ↔ g.Begins [X] t := by
  rw [← wf.mem_firstOfString_iff, firstOfString, First.mem_ofString_cons]
  simp [First.ofString]

/-- **FIRST sets are exact.**  The rounds end: after as many as can add a terminal
    to the set of a nonterminal, and one more, a round changes nothing.  Then FIRST
    of a symbol has the terminals with which a string derived from it begins. -/
theorem first_exact {decls : List Declaration} (h : Grammar.define decls = .ok g) :
    (∀ rounds, g.nonterminalCount * g.terminalCount + 1 ≤ rounds →
      First.run g.terminalCount g.nullable g.rules.toList rounds
        (Array.replicate g.nonterminalCount ∅) = g.firstSets) ∧
    First.step g.terminalCount g.nullable g.rules.toList g.firstSets = (g.firstSets, false) ∧
    ∀ X t, t ∈ g.first X ↔ g.Begins [X] t := by
  have wf := wellFormed_of_define h
  refine ⟨fun rounds hrounds => ?_, wf.firstSets_fixed, fun X t => wf.mem_first_iff⟩
  have fixed := congrArg Prod.fst wf.firstSets_fixed
  rw [First.run_eq_iterate wf.forall_lhs rounds Array.size_replicate]
  rw [wf.firstSets_eq_iterate] at fixed ⊢
  exact Fixpoint.iterate_eq_of_le fixed hrounds

/-- The theorem speaks of a grammar with left recursion through a nullable symbol,
    in which `'c'` stands behind a symbol that is not nullable. -/
theorem first_exact_recursive : ∃ g, Grammar.define
      [.rule ⟨"S", ["A", "B", "'c'"], none, 1⟩, .rule ⟨"A", ["'a'"], none, 2⟩,
        .rule ⟨"A", [], none, 3⟩, .rule ⟨"B", ["'b'"], none, 4⟩, .rule ⟨"B", ["S"], none, 5⟩,
        .rule ⟨"B", ["B", "A"], none, 6⟩] = .ok g ∧
    g.symbols.toList.map Symbol.name =
      ["YYEOF", "YYerror", "YYUNDEF", "'c'", "'a'", "'b'", "$accept", "S", "A", "B"] ∧
    g.Begins [7] 4 ∧ g.Begins [7] 5 ∧ ¬ g.Begins [7] 3 ∧ ¬ g.Begins [8] 5 := by
  obtain ⟨g, hg, hcheck⟩ := exists_define
    [.rule ⟨"S", ["A", "B", "'c'"], none, 1⟩, .rule ⟨"A", ["'a'"], none, 2⟩,
      .rule ⟨"A", [], none, 3⟩, .rule ⟨"B", ["'b'"], none, 4⟩, .rule ⟨"B", ["S"], none, 5⟩,
      .rule ⟨"B", ["B", "A"], none, 6⟩]
    (fun g => decide (g.symbols.toList.map Symbol.name =
        ["YYEOF", "YYerror", "YYUNDEF", "'c'", "'a'", "'b'", "$accept", "S", "A", "B"] ∧
      4 ∈ g.first 7 ∧ 5 ∈ g.first 7 ∧ 3 ∉ g.first 7 ∧ 5 ∉ g.first 8)) (by decide +kernel)
  obtain ⟨hnames, ha, hb, hc, hA⟩ := of_decide_eq_true hcheck
  obtain ⟨-, -, exact_first⟩ := first_exact hg
  exact ⟨g, hg, hnames, (exact_first 7 4).1 ha, (exact_first 7 5).1 hb, mt (exact_first 7 3).2 hc,
    mt (exact_first 8 5).2 hA⟩

end Grammar

end LRAutomata
