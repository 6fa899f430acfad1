/-
  The closure found by a stack is the closure.

  While nonterminals wait on the stack (`Table.Closing.Partial`), the items found
  are those of the nonterminals expanded, and what these begin with is expanded or
  waits.  Every round takes one nonterminal off the stack; a rule puts one there
  when its item is found, and it is found once, so the rounds suffice.
-/
import LRAutomata.Proofs.Automaton.ItemSet
import LRAutomata.Table.Closure

namespace LRAutomata.Table

variable {g : Grammar} {kernel items : List Item} {X : SymbolId} {i : Item}

/-! ## Sorting -/

/-- A new item is put where it is put without repetitions. -/
theorem place_eq : ∀ {items : List Item}, i ∉ items → place i items = ItemSet.insertSorted i items
  | [], _ => rfl
  | j :: items, h => by
    obtain ⟨hj, hi⟩ := not_or.1 (mt List.mem_cons.2 h)
    rw [place, ItemSet.insertSorted, place_eq hi]
    cases hcompare : compare i j with
    | lt => rfl
    | eq => exact absurd (Std.LawfulEqOrd.eq_of_compare hcompare) hj
    | gt => rfl

theorem foldr_place : ∀ {items : List Item}, items.Nodup → items.foldr place [] = ItemSet.sorted items
  | [], _ => rfl
  | i :: items, h => by
    obtain ⟨hi, hitems⟩ := List.nodup_cons.1 h
    rw [List.foldr_cons, foldr_place hitems, place_eq (mt ItemSet.mem_sorted.1 hi)]
    rfl

namespace Closing

variable {c : Closing}

/-! ## Expanding a nonterminal -/

theorem begins?_eq_some_iff {expanded : NatSet} {r : RuleId} : begins? g expanded r = some X ↔
    (g.rhs r)[0]? = some X ∧ g.isTerminal X = false ∧ X ∉ expanded := by
  rw [begins?, Option.filter_eq_some_iff]
  simp

/-- What the rules of a nonterminal add. -/
theorem foldl_addRule : ∀ (rules : List RuleId) (c : Closing), rules.foldl (addRule g) c =
    { expanded := c.expanded
      pending := (rules.filterMap (begins? g c.expanded)).reverse ++ c.pending
      items := c.items ++ rules.map (⟨·, 0⟩) }
  | [], c => by simp
  | r :: rules, c => by
    rw [List.foldl_cons, foldl_addRule rules, addRule]
    cases hbegins : begins? g c.expanded r <;> simp [hbegins]

/-- The nonterminals expanded or waiting. -/
def Known (c : Closing) (X : SymbolId) : Prop :=
  X ∈ c.expanded ∨ X ∈ c.pending

/-- The closure of the kernel, with nonterminals that wait. -/
structure Partial (g : Grammar) (kernel : List Item) (c : Closing) : Prop where
  mem_items : ∀ i, i ∈ c.items ↔ ∃ r, r < g.rules.size ∧ g.lhs r ∈ c.expanded ∧ i = ⟨r, 0⟩
  nodup : c.items.Nodup
  /-- Nothing else is expanded, -/
  sound : ∀ X, c.Known X → X ∈ ItemSet.expandedSymbols g kernel
  /-- what the kernel calls for is, -/
  begun : ∀ X ∈ ItemSet.pendingSymbols g kernel, c.Known X
  /-- and what the rules found begin with. -/
  closed : ∀ r, r < g.rules.size → g.lhs r ∈ c.expanded →
    ∀ X, (g.rhs r)[0]? = some X → g.isTerminal X = false → c.Known X

theorem partial_start (g : Grammar) (kernel : List Item) : Partial g kernel (start g kernel) := by
  have known : ∀ X, (start g kernel).Known X ↔ X ∈ ItemSet.pendingSymbols g kernel := by
    simp [Known, start, ItemSet.pendingSymbols]
  refine ⟨?_, List.nodup_nil, fun X hX => ?_, fun X => (known X).2, ?_⟩
  · simp [start]
  · exact Grammar.mem_expandedSymbols_of_pending ((known X).1 hX)
  · simp [start]

/-! ## A round -/

variable {pending : List SymbolId} {Y : SymbolId}

theorem mem_expanded_expand (c : Closing) : Y ∈ (c.expand g X).expanded ↔ Y = X ∨ Y ∈ c.expanded := by
  rw [expand]
  split
  · next hX => exact ⟨.inr, fun h => h.elim (fun h => h ▸ hX) id⟩
  · rw [foldl_addRule, NatSet.mem_insert]

theorem Partial.mem_items_expand (h : Partial g kernel c) (wf : g.WellFormed) :
    i ∈ ({ c with pending }.expand g X).items ↔
      i ∈ c.items ∨ ∃ r, r < g.rules.size ∧ g.lhs r = X ∧ i = ⟨r, 0⟩ := by
  rw [expand]
  split
  · next hX =>
    refine ⟨.inl, fun hi => hi.elim id ?_⟩
    rintro ⟨r, hr, rfl, rfl⟩
    exact (h.mem_items _).2 ⟨r, hr, hX, rfl⟩
  · simp only [foldl_addRule, List.mem_append, List.mem_map, wf.mem_rulesOf, and_assoc, eq_comm (a := i)]

/-- What a nonterminal taken off the stack makes known. -/
theorem Partial.known_expand (h : Partial g kernel c) (wf : g.WellFormed)
    (hpending : c.pending = X :: pending) : ({ c with pending }.expand g X).Known Y ↔
      c.Known Y ∨ ∃ r, r < g.rules.size ∧ g.lhs r = X ∧
        (g.rhs r)[0]? = some Y ∧ g.isTerminal Y = false := by
  rw [Known, Known, mem_expanded_expand, hpending, List.mem_cons, expand]
  split
  · next hX =>
    constructor
    · rintro ((rfl | hY) | hY)
      · exact .inl (.inl hX)
      · exact .inl (.inl hY)
      · exact .inl (.inr (.inr hY))
    · rintro ((hY | rfl | hY) | ⟨r, hr, rfl, hrhs, ht⟩)
      · exact .inl (.inr hY)
      · exact .inl (.inl rfl)
      · exact .inr hY
      · obtain hY | hY := h.closed r hr hX Y hrhs ht
        · exact .inl (.inr hY)
        · rw [hpending, List.mem_cons] at hY
          exact hY.imp_left .inl
  · simp only [foldl_addRule, List.mem_append, List.mem_reverse, List.mem_filterMap,
      begins?_eq_some_iff, wf.mem_rulesOf, NatSet.mem_insert, not_or]
    constructor
    · rintro ((rfl | hY) | ⟨r, ⟨hr, hlhs⟩, hrhs, ht, -⟩ | hY)
      · exact .inl (.inr (.inl rfl))
      · exact .inl (.inl hY)
      · exact .inr ⟨r, hr, hlhs, hrhs, ht⟩
      · exact .inl (.inr (.inr hY))
    · rintro ((hY | rfl | hY) | ⟨r, hr, hlhs, hrhs, ht⟩)
      · exact .inl (.inr hY)
      · exact .inl (.inl rfl)
      · exact .inr (.inr hY)
      · by_cases hY : Y = X ∨ Y ∈ c.expanded
        · exact .inl hY
        · exact .inr (.inl ⟨r, ⟨hr, hlhs⟩, hrhs, ht, not_or.1 hY⟩)

theorem Partial.nodup_expand (h : Partial g kernel c) (wf : g.WellFormed) :
    ({ c with pending }.expand g X).items.Nodup := by
  rw [expand]
  split
  · exact h.nodup
  · next hX =>
    rw [foldl_addRule]
    refine List.nodup_append.2 ⟨h.nodup, ?_, ?_⟩
    · rw [wf.rulesOf_eq]
      exact (List.nodup_range.filter _).map fun _ _ heq => congrArg Item.rule heq
    · rintro i hi j hj rfl
      obtain ⟨r, -, hlhs, rfl⟩ := (h.mem_items i).1 hi
      obtain ⟨r', hr', heq⟩ := List.mem_map.1 hj
      obtain rfl : r' = r := congrArg Item.rule heq
      exact hX ((wf.mem_rulesOf.1 hr').2 ▸ hlhs)

theorem Partial.expand (h : Partial g kernel c) (wf : g.WellFormed)
    (hpending : c.pending = X :: pending) : Partial g kernel ({ c with pending }.expand g X) where
  mem_items i := by
    simp only [h.mem_items_expand wf, h.mem_items, mem_expanded_expand]
    constructor
    · rintro (⟨r, hr, hlhs, rfl⟩ | ⟨r, hr, hlhs, rfl⟩)
      · exact ⟨r, hr, .inr hlhs, rfl⟩
      · exact ⟨r, hr, .inl hlhs, rfl⟩
    · rintro ⟨r, hr, hlhs | hlhs, rfl⟩
      · exact .inr ⟨r, hr, hlhs, rfl⟩
      · exact .inl ⟨r, hr, hlhs, rfl⟩
  nodup := h.nodup_expand wf
  sound Y hY := by
    obtain hY | ⟨r, hr, hlhs, hrhs, ht⟩ := (h.known_expand wf hpending).1 hY
    · exact h.sound Y hY
    · refine wf.mem_expandedSymbols_of_rule hr ?_ hrhs ht
      exact hlhs ▸ h.sound X (.inr (hpending ▸ List.mem_cons_self ..))
  begun Y hY := (h.known_expand wf hpending).2 (.inl (h.begun Y hY))
  closed r hr hlhs Y hrhs ht := by
    rw [h.known_expand wf hpending]
    obtain hlhs | hlhs := (mem_expanded_expand _).1 hlhs
    · exact .inr ⟨r, hr, hlhs, hrhs, ht⟩
    · exact .inl (h.closed r hr hlhs Y hrhs ht)

/-! ## All rounds -/

theorem Partial.length_le (h : Partial g kernel c) : c.items.length ≤ g.rules.size := by
  have hsub : c.items ⊆ (List.range g.rules.size).map (⟨·, 0⟩) := fun i hi => by
    obtain ⟨r, hr, -, rfl⟩ := (h.mem_items i).1 hi
    exact List.mem_map_of_mem (List.mem_range.2 hr)
  simpa using (h.nodup.subperm hsub).length_le

theorem length_foldl_addRule (rules : List RuleId) (c : Closing) :
    (rules.foldl (addRule g) c).pending.length + c.items.length ≤
      c.pending.length + (rules.foldl (addRule g) c).items.length := by
  rw [foldl_addRule, List.length_append, List.length_append, List.length_reverse, List.length_map]
  have := List.length_filterMap_le (begins? g c.expanded) rules
  omega

/-- A round puts no more symbols on the stack than it finds items. -/
theorem length_expand (c : Closing) : (c.expand g X).pending.length + c.items.length ≤
    c.pending.length + (c.expand g X).items.length := by
  rw [Closing.expand]
  split
  · exact Nat.le_refl _
  · exact length_foldl_addRule (g.rulesOf X) { c with expanded := insert X c.expanded }

/-- If the rounds suffice, nothing waits in the end. -/
theorem Partial.run (wf : g.WellFormed) : ∀ (rounds : Nat) {c : Closing}, Partial g kernel c →
    c.pending.length + g.rules.size ≤ rounds + c.items.length →
      Partial g kernel (run g rounds c) ∧ (run g rounds c).pending = []
  | 0, c, h, hrounds => by
    have := h.length_le
    have hpending : c.pending.length = 0 := by omega
    exact ⟨h, List.length_eq_zero_iff.1 hpending⟩
  | rounds + 1, c, h, hrounds => by
    rw [Closing.run]
    split
    · next hpending => exact ⟨h, hpending⟩
    · next X pending hpending =>
      have := length_expand (g := g) (X := X) { c with pending }
      rw [hpending, List.length_cons] at hrounds
      exact Partial.run wf rounds (h.expand wf hpending) (by simp only at this; omega)

theorem run_start (wf : g.WellFormed) (kernel : List Item) {rounds : Nat}
    (hrounds : kernel.length + g.rules.size ≤ rounds) :
    Partial g kernel (run g rounds (start g kernel)) ∧ (run g rounds (start g kernel)).pending = [] := by
  refine (partial_start g kernel).run wf rounds ?_
  have hnext : (kernel.filterMap (·.next? g)).length ≤ kernel.length := List.length_filterMap_le _ _
  have := List.length_filter_le (fun X => !g.isTerminal X) (kernel.filterMap (·.next? g))
  simp only [start, List.length_reverse, List.length_nil]
  omega

/-- When nothing waits, the symbols to expand have been expanded. -/
theorem Partial.mem_expanded_iff (h : Partial g kernel c) (hpending : c.pending = []) :
    X ∈ c.expanded ↔ X ∈ ItemSet.expandedSymbols g kernel := by
  have known : ∀ X, c.Known X ↔ X ∈ c.expanded := by simp [Known, hpending]
  refine ⟨fun hX => h.sound X ((known X).2 hX), fun hX => ?_⟩
  refine Fixpoint.iterate_keeps (P := fun s : NatSet => ∀ X ∈ s, X ∈ c.expanded)
    (ItemSet.expandStep_keeps fun r hr X hrhs ht hlhs => ?_) _ (fun X hX => ?_) X hX
  · exact (known X).1 (h.closed r hr hlhs X hrhs ht)
  · exact (known X).1 (h.begun X hX)

end Closing

/-- **The stack finds the closure.** -/
theorem closure_eq (wf : g.WellFormed) (kernel : List Item) :
    closure g kernel = ItemSet.closure g kernel := by
  obtain ⟨h, hpending⟩ := Closing.run_start wf kernel (Nat.le_refl _)
  rw [closure, foldr_place h.nodup]
  refine (ItemSet.sorted_sorted _).eq_of_mem_iff (Grammar.sorted_closure g kernel) fun i => ?_
  simp only [ItemSet.mem_sorted, h.mem_items, h.mem_expanded_iff hpending, Grammar.mem_closure]

end LRAutomata.Table
