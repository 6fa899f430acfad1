/-
  Kernels and closures.

  * `ItemSet.sorted` lists a set of items in ascending order, so equal sets
    are equal lists (`eq_of_mem_iff`);
  * an item expands to the initial items of the symbol after its dot
    (`Item.Expands`), and the closure of a kernel has what its items expand
    to in one or more steps (`WellFormed.mem_closure_iff`);
  * all items of a grammar are listed in `ItemSet.all`, and a kernel is one
    of its sublists.
-/
import Mathlib.Data.List.Sort
import Mathlib.Data.List.Sublists
import LRAutomata.Automaton.Lr0
import LRAutomata.Proofs.Grammar.First

namespace LRAutomata

open Std Relation

/-! ## Items -/

namespace Item

variable {g : Grammar} {i : Item} {X : SymbolId}

theorem after_eq_cons (h : i.next? g = some X) : i.after g = X :: i.afterNext g := by
  obtain ⟨hlt, hget⟩ := List.getElem?_eq_some_iff.1 h
  rw [after, List.drop_eq_getElem_cons hlt, hget]
  rfl

theorem next?_of_after {α : List SymbolId} (h : i.after g = X :: α) : i.next? g = some X := by
  have := congrArg List.head? h
  rwa [after, List.head?_drop] at this

theorem next?_of_rhs {r : RuleId} {α β : List SymbolId} (h : g.rhs r = α ++ X :: β) :
    next? g ⟨r, α.length⟩ = some X := by
  rw [next?, h]; simp

theorem before_of_rhs {r : RuleId} {α β : List SymbolId} (h : g.rhs r = α ++ β) :
    before g ⟨r, α.length⟩ = α := by
  rw [before, h, List.take_left]

theorem afterNext_of_rhs {r : RuleId} {α β : List SymbolId} (h : g.rhs r = α ++ X :: β) :
    afterNext g ⟨r, α.length⟩ = β := by
  rw [afterNext, h, ← List.singleton_append, ← List.append_assoc]
  exact List.drop_left' (by simp)

theorem after_advance (i : Item) : i.advance.after g = i.afterNext g := rfl

theorem before_advance (h : i.next? g = some X) : i.advance.before g = i.before g ++ [X] := by
  obtain ⟨hlt, hget⟩ := List.getElem?_eq_some_iff.1 h
  rw [before, before, advance, List.take_add_one, List.getElem?_eq_getElem hlt, hget]
  rfl

theorem length_before (h : i.next? g = some X) : (i.before g).length = i.position := by
  obtain ⟨hlt, -⟩ := List.getElem?_eq_some_iff.1 h
  rw [before, List.length_take, Nat.min_eq_left (Nat.le_of_lt hlt)]

theorem before_append_after (i : Item) : i.before g ++ i.after g = g.rhs i.rule :=
  List.take_append_drop _ _

@[simp] theorem before_initial (r : RuleId) : before g ⟨r, 0⟩ = [] := rfl

theorem advance_inj {i j : Item} (h : i.advance = j.advance) : i = j := by
  cases i; cases j; simp_all [advance]

/-- The item `j` begins a rule of the symbol after the dot of `i`. -/
def Expands (g : Grammar) (i j : Item) : Prop :=
  ∃ r, r < g.rules.size ∧ i.next? g = some (g.lhs r) ∧ j = ⟨r, 0⟩

/-- The rule of the item exists, and the dot is within it. -/
def InRange (g : Grammar) (i : Item) : Prop :=
  i.rule < g.rules.size ∧ i.position ≤ (g.rhs i.rule).length

theorem InRange.advance (h : i.InRange g) (hX : i.next? g = some X) : i.advance.InRange g := by
  obtain ⟨hlt, -⟩ := List.getElem?_eq_some_iff.1 hX
  exact ⟨h.1, hlt⟩

theorem Expands.inRange {j : Item} (h : i.Expands g j) : j.InRange g := by
  obtain ⟨r, hr, -, rfl⟩ := h
  exact ⟨hr, Nat.zero_le _⟩

end Item

namespace ItemSet

/-! ## Sorted lists of items -/

theorem compare_eq_lt {i j : Item} :
    compare i j = .lt ↔ i.rule < j.rule ∨ i.rule = j.rule ∧ i.position < j.position := by
  have : compare i j = (compare i.rule j.rule).then (compare i.position j.position) := rfl
  rw [this, Ordering.then_eq_lt, Nat.compare_eq_lt, Nat.compare_eq_eq, Nat.compare_eq_lt]

/-- The items are in ascending order, without repetitions. -/
def Sorted (items : List Item) : Prop :=
  items.Pairwise fun i j => compare i j = .lt

instance : Std.Irrefl fun i j : Item => compare i j = .lt :=
  ⟨fun i h => by rw [ReflOrd.compare_self] at h; cases h⟩

instance : Std.Antisymm fun i j : Item => compare i j = .lt :=
  ⟨fun i j h₁ h₂ => by rw [OrientedOrd.eq_swap (a := i), h₂] at h₁; cases h₁⟩

theorem Sorted.nodup {items : List Item} (h : Sorted items) : items.Nodup :=
  h.imp fun hlt heq => by rw [heq, ReflOrd.compare_self] at hlt; cases hlt

/-- Sorted lists with the same members are equal. -/
theorem Sorted.eq_of_mem_iff {items items' : List Item} (h : Sorted items) (h' : Sorted items')
    (hmem : ∀ i, i ∈ items ↔ i ∈ items') : items = items' :=
  List.Pairwise.eq_of_mem_iff h h' hmem

theorem mem_insertSorted {i j : Item} {items : List Item} :
    j ∈ insertSorted i items ↔ j = i ∨ j ∈ items := by
  induction items with
  | nil => simp [insertSorted]
  | cons k items ih =>
    rw [insertSorted]
    split
    · simp
    · rename_i h; rw [LawfulEqOrd.eq_of_compare h]; simp
    · rw [List.mem_cons, ih, List.mem_cons]; exact or_left_comm

theorem sorted_insertSorted {i : Item} {items : List Item} (h : Sorted items) :
    Sorted (insertSorted i items) := by
  induction items with
  | nil => simp [insertSorted, Sorted]
  | cons k items ih =>
    obtain ⟨hk, hitems⟩ := List.pairwise_cons.1 h
    rw [insertSorted]
    split
    · rename_i hlt
      refine List.pairwise_cons.2 ⟨fun j hj => ?_, h⟩
      rcases List.mem_cons.1 hj with rfl | hj
      · exact hlt
      · exact TransCmp.lt_trans hlt (hk j hj)
    · exact h
    · rename_i hgt
      refine List.pairwise_cons.2 ⟨fun j hj => ?_, ih hitems⟩
      rcases mem_insertSorted.1 hj with rfl | hj
      · exact OrientedCmp.lt_of_gt hgt
      · exact hk j hj

@[simp] theorem mem_sorted {i : Item} {items : List Item} : i ∈ sorted items ↔ i ∈ items := by
  induction items with
  | nil => simp [sorted]
  | cons j items ih =>
    rw [sorted, List.foldr_cons, mem_insertSorted, ← sorted, ih, List.mem_cons]

theorem sorted_sorted (items : List Item) : Sorted (sorted items) := by
  induction items with
  | nil => simp [sorted, Sorted]
  | cons j items ih => exact sorted_insertSorted ih

/-! ## Kernels reached by reading a symbol -/

theorem mem_nextSymbols {g : Grammar} {items : List Item} {X : SymbolId} :
    X ∈ nextSymbols g items ↔ ∃ i ∈ items, i.next? g = some X := by
  simp [nextSymbols]

theorem mem_advanceOver {g : Grammar} {items : List Item} {X : SymbolId} {j : Item} :
    j ∈ advanceOver g items X ↔ ∃ i ∈ items, i.next? g = some X ∧ j = i.advance := by
  simp only [advanceOver, mem_sorted, List.mem_map, List.mem_filter, decide_eq_true_eq, and_assoc]
  exact ⟨fun ⟨i, hi, hX, hj⟩ => ⟨i, hi, hX, hj.symm⟩, fun ⟨i, hi, hX, hj⟩ => ⟨i, hi, hX, hj.symm⟩⟩

/-! ## Closures -/

/-- What a rule adds in a round of expansion. -/
def expandRule (g : Grammar) (s : NatSet) (r : Rule) : NatSet :=
  match r.rhs with
  | X :: _ => if r.lhs ∈ s ∧ g.isTerminal X = false then insert X s else s
  | [] => s

theorem mem_expandRule {g : Grammar} {s : NatSet} {r : Rule} {X : SymbolId} :
    X ∈ expandRule g s r ↔
      X ∈ s ∨ r.rhs[0]? = some X ∧ r.lhs ∈ s ∧ g.isTerminal X = false := by
  unfold expandRule
  split
  · rename_i Y rest hrhs
    rw [hrhs, List.getElem?_cons_zero, Option.some.injEq]
    split
    · rename_i h
      rw [NatSet.mem_insert]
      constructor
      · rintro (rfl | hX)
        · exact .inr ⟨rfl, h⟩
        · exact .inl hX
      · rintro (hX | ⟨rfl, -⟩)
        · exact .inr hX
        · exact .inl rfl
    · rename_i h
      exact ⟨.inl, fun hX => hX.resolve_right fun ⟨hYX, hr, ht⟩ => h ⟨hr, hYX ▸ ht⟩⟩
  · rename_i hrhs; simp [hrhs]

theorem subset_expandRule (g : Grammar) (s : NatSet) (r : Rule) : s ⊆ expandRule g s r :=
  NatSet.subset_def.2 fun _ h => mem_expandRule.2 (.inl h)

theorem expandStep_eq (g : Grammar) (s : NatSet) :
    expandStep g s = g.rules.toList.foldl (expandRule g) s := rfl

theorem subset_expandStep (g : Grammar) (s : NatSet) : s ⊆ expandStep g s :=
  le_foldl NatSet.subset_refl (fun _ _ _ => NatSet.subset_trans) (subset_expandRule g) _ s

/-- A round adds nonterminals with which a rule of a member begins. -/
theorem expandStep_keeps {g : Grammar} {P : SymbolId → Prop}
    (rule : ∀ r, r < g.rules.size → ∀ X, (g.rhs r)[0]? = some X → g.isTerminal X = false →
      P (g.lhs r) → P X) (s : NatSet) (hs : ∀ X ∈ s, P X) : ∀ X ∈ expandStep g s, P X := by
  rw [expandStep_eq]
  refine List.foldlRecOn (motive := fun s : NatSet => ∀ X ∈ s, P X) _ _ hs fun s hs x hx X hX => ?_
  obtain ⟨r, hr, rfl⟩ := Grammar.mem_rules_iff.1 hx
  rcases mem_expandRule.1 hX with hX | ⟨hrhs, hlhs, ht⟩
  · exact hs X hX
  · exact rule r hr X hrhs ht (hs _ hlhs)

end ItemSet

namespace Grammar

variable {g : Grammar}

theorem WellFormed.expandedSymbols_fixed (wf : g.WellFormed) (kernel : List Item) :
    ItemSet.expandStep g (ItemSet.expandedSymbols g kernel) = ItemSet.expandedSymbols g kernel := by
  have bounded : ∀ (s : NatSet) (X : Nat), X ∈ ItemSet.expandStep g s → X ∈ s ∨ X ∈ g.nonterminals := by
    intro s X hX
    refine ItemSet.expandStep_keeps (P := fun X => X ∈ s ∨ X ∈ g.nonterminals)
      (fun r hr X hrhs ht _ => .inr ?_) s (fun _ => .inl) X hX
    have hlt := wf.rhs_lt hr X (List.mem_of_getElem? hrhs)
    have hge : g.terminalCount ≤ X := Nat.le_of_not_lt (of_decide_eq_false ht)
    rw [nonterminals, List.mem_iff_getElem?]
    exact ⟨X - g.terminalCount, by simp [Nat.add_sub_cancel' hge, hlt]⟩
  have fixed := NatSet.isFixed_iterate (ItemSet.subset_expandStep g) bounded
    (ItemSet.pendingSymbols g kernel)
  have length : g.nonterminals.length = g.nonterminalCount := by
    simp [nonterminals, nonterminalCount]
  rwa [length] at fixed

/-- The symbols to expand are the nonterminals after the dots of the items to
    which the kernel expands. -/
theorem exists_of_mem_expandedSymbols {kernel : List Item} {X : SymbolId}
    (hX : X ∈ ItemSet.expandedSymbols g kernel) :
    ∃ k ∈ kernel, ∃ i, ReflTransGen (Item.Expands g) k i ∧ i.next? g = some X := by
  refine Fixpoint.iterate_keeps (P := fun s : NatSet => ∀ X ∈ s, ∃ k ∈ kernel, ∃ i,
    ReflTransGen (Item.Expands g) k i ∧ i.next? g = some X)
    (ItemSet.expandStep_keeps fun r hr X hrhs _ h => ?_) _ (fun X hX => ?_) X hX
  · obtain ⟨k, hk, i, hi, hnext⟩ := h
    exact ⟨k, hk, ⟨r, 0⟩, hi.tail ⟨r, hr, hnext, rfl⟩, hrhs⟩
  · obtain ⟨⟨k, hk, hnext⟩, -⟩ := by simpa [ItemSet.pendingSymbols] using hX
    exact ⟨k, hk, k, .refl, hnext⟩

/-- The nonterminals after the dots of the kernel are to be expanded. -/
theorem mem_expandedSymbols_of_pending {kernel : List Item} {X : SymbolId}
    (hX : X ∈ ItemSet.pendingSymbols g kernel) : X ∈ ItemSet.expandedSymbols g kernel :=
  Fixpoint.iterate_keeps (P := fun s : NatSet => X ∈ s)
    (fun s hs => NatSet.subset_def.1 (ItemSet.subset_expandStep g s) _ hs) _ hX

theorem WellFormed.mem_expandedSymbols_of_next (wf : g.WellFormed) {kernel : List Item} {k : Item}
    (hk : k ∈ kernel) {r : RuleId} (hr : r < g.rules.size) (hnext : k.next? g = some (g.lhs r)) :
    g.lhs r ∈ ItemSet.expandedSymbols g kernel := by
  refine mem_expandedSymbols_of_pending ?_
  simp only [ItemSet.pendingSymbols, NatSet.mem_ofList, List.mem_filter, List.mem_filterMap]
  exact ⟨⟨k, hk, hnext⟩, by rw [wf.lhs_nonterminal hr]; rfl⟩

/-- A nonterminal with which a rule of a symbol to expand begins is to be expanded. -/
theorem WellFormed.mem_expandedSymbols_of_rule (wf : g.WellFormed) {kernel : List Item} {r : RuleId}
    (hr : r < g.rules.size) (hlhs : g.lhs r ∈ ItemSet.expandedSymbols g kernel) {X : SymbolId}
    (hX : (g.rhs r)[0]? = some X) (ht : g.isTerminal X = false) :
    X ∈ ItemSet.expandedSymbols g kernel := by
  have fixed := NatSet.eq_of_foldl_eq (ItemSet.subset_expandRule g)
    (wf.expandedSymbols_fixed kernel) (g.rule r) (mem_rules_iff.2 ⟨r, hr, rfl⟩)
  rw [← fixed]
  exact ItemSet.mem_expandRule.2 (.inr ⟨hX, hlhs, ht⟩)

theorem nodup_closure (g : Grammar) (kernel : List Item) : (ItemSet.closure g kernel).Nodup :=
  (List.nodup_range.filter _).map fun _ _ heq => congrArg Item.rule heq

theorem mem_closure {kernel : List Item} {i : Item} :
    i ∈ ItemSet.closure g kernel ↔
      ∃ r, r < g.rules.size ∧ g.lhs r ∈ ItemSet.expandedSymbols g kernel ∧ i = ⟨r, 0⟩ := by
  simp only [ItemSet.closure, List.mem_map, List.mem_filter, List.mem_range, decide_eq_true_eq,
    and_assoc]
  exact ⟨fun ⟨r, hr, h, hi⟩ => ⟨r, hr, h, hi.symm⟩, fun ⟨r, hr, h, hi⟩ => ⟨r, hr, h, hi.symm⟩⟩

theorem sorted_closure (g : Grammar) (kernel : List Item) :
    ItemSet.Sorted (ItemSet.closure g kernel) :=
  (List.pairwise_lt_range.filter _).map _ fun _ _ h => ItemSet.compare_eq_lt.2 (.inl h)

/-- The closure of a kernel has the items to which its items expand. -/
theorem WellFormed.mem_closure_iff (wf : g.WellFormed) {kernel : List Item} {i : Item} :
    i ∈ ItemSet.closure g kernel ↔ ∃ k ∈ kernel, TransGen (Item.Expands g) k i := by
  rw [mem_closure]
  constructor
  · rintro ⟨r, hr, h, rfl⟩
    obtain ⟨k, hk, j, hj, hnext⟩ := exists_of_mem_expandedSymbols h
    exact ⟨k, hk, .tail' hj ⟨r, hr, hnext, rfl⟩⟩
  · rintro ⟨k, hk, h⟩
    induction h with
    | single h =>
      obtain ⟨r, hr, hnext, rfl⟩ := h
      exact ⟨r, hr, wf.mem_expandedSymbols_of_next hk hr hnext, rfl⟩
    | tail _ h ih =>
      obtain ⟨r, hr, hlhs, rfl⟩ := ih
      obtain ⟨r', hr', hnext, rfl⟩ := h
      exact ⟨r', hr', wf.mem_expandedSymbols_of_rule hr hlhs hnext (wf.lhs_nonterminal hr'), rfl⟩

/-- A kernel and its closure have the items to which the kernel expands. -/
theorem WellFormed.mem_kernel_append_closure (wf : g.WellFormed) {kernel : List Item} {i : Item} :
    i ∈ kernel ++ ItemSet.closure g kernel ↔ ∃ k ∈ kernel, ReflTransGen (Item.Expands g) k i := by
  simp only [List.mem_append, wf.mem_closure_iff, reflTransGen_iff_eq_or_transGen]
  constructor
  · rintro (h | ⟨k, hk, h⟩)
    · exact ⟨i, h, .inl rfl⟩
    · exact ⟨k, hk, .inr h⟩
  · rintro ⟨k, hk, rfl | h⟩
    · exact .inl hk
    · exact .inr ⟨k, hk, h⟩

end Grammar

/-! ## All items -/

namespace ItemSet

/-- The items of a grammar in ascending order. -/
def all (g : Grammar) : List Item :=
  (List.range g.rules.size).flatMap fun r =>
    (List.range ((g.rhs r).length + 1)).map fun n => ⟨r, n⟩

theorem mem_all {g : Grammar} {i : Item} : i ∈ all g ↔ i.InRange g := by
  simp only [all, List.mem_flatMap, List.mem_map, List.mem_range]
  constructor
  · rintro ⟨r, hr, n, hn, rfl⟩
    exact ⟨hr, Nat.le_of_lt_succ hn⟩
  · exact fun ⟨hr, hn⟩ => ⟨i.rule, hr, i.position, Nat.lt_succ_of_le hn, rfl⟩

theorem sorted_all (g : Grammar) : Sorted (all g) := by
  refine List.pairwise_flatMap.2 ⟨fun r _ => ?_, ?_⟩
  · exact List.Pairwise.map _ (fun m n h => compare_eq_lt.2 (.inr ⟨rfl, h⟩)) List.pairwise_lt_range
  · refine List.pairwise_lt_range.imp fun {r r'} h i hi j hj => compare_eq_lt.2 (.inl ?_)
    obtain ⟨_, -, rfl⟩ := List.mem_map.1 hi
    obtain ⟨_, -, rfl⟩ := List.mem_map.1 hj
    exact h

theorem length_all (g : Grammar) : (all g).length = Lr0.itemCount g := by
  have rules : g.rules.toList = (List.range g.rules.size).map g.rule :=
    List.ext_getElem (by simp) fun r h₁ h₂ => by
      have hr : r < g.rules.size := by simpa using h₁
      simp [Grammar.rule_eq_getElem hr]
  rw [Lr0.itemCount, rules, all]
  induction List.range g.rules.size with
  | nil => rfl
  | cons r rs ih =>
    rw [List.flatMap_cons, List.length_append, ih]
    simp [total, Grammar.rhs]

/-- A sorted list of items of the grammar is a sublist of all of them. -/
theorem Sorted.mem_sublists {g : Grammar} {items : List Item} (h : Sorted items)
    (hin : ∀ i ∈ items, i.InRange g) : items ∈ (all g).sublists := by
  rw [List.mem_sublists]
  have : items = (all g).filter (· ∈ items) := by
    refine h.eq_of_mem_iff ((sorted_all g).filter _) fun i => ?_
    simp only [List.mem_filter, decide_eq_true_eq]
    exact ⟨fun hi => ⟨mem_all.2 (hin i hi), hi⟩, And.right⟩
  rw [this]
  exact List.filter_sublist

end ItemSet

end LRAutomata
