/-
  The lookahead sets of a graph of items are exact.

  * what is read after a transition are the terminals with which the symbols
    after it begin (`Graph.OfItems.mem_read_iff`);
  * what follows a transition `(q, A)` are the terminals that follow `A` after
    some string that leads to `q` (`mem_follow_iff`);
  * the lookahead set of a reduction are the terminals that follow the
    left-hand side where its rule was begun (`mem_la_iff`), and these are the
    canonical LR(1) lookaheads if the grammar is grounded.

  The right-hand sides of the grammar are taken to fit the positions (`Item`).
-/
import LRAutomata.Proofs.Automaton.Lr0
import LRAutomata.Proofs.Automaton.Valid
import LRAutomata.Proofs.Data.LeastSolution

namespace LRAutomata

open Relation

/-- Every state is reached from the start state. -/
def Graph.Reachable (a : Graph) : Prop :=
  ∀ q, q < a.size → ∃ γ, a.Reads StateId.start γ q

namespace Lookaheads

variable {g : Grammar} {a : Graph} {p q r : StateId} {A B C t : SymbolId}

/-! ## Transitions on nonterminals -/

theorem mem_gotoTargets (h : a.OfItems g) :
    ((⟨q, A⟩, r) : Goto × StateId) ∈ gotoTargets g a ↔
      q < a.size ∧ g.isTerminal A = false ∧ a.next? q A = some r := by
  simp only [gotoTargets, List.mem_flatMap, List.mem_map, Core.nonterminalEdges, List.mem_filter,
    Prod.mk.injEq, Goto.mk.injEq]
  constructor
  · rintro ⟨⟨c, q⟩, hc, e, ⟨he, hA⟩, ⟨rfl, rfl⟩, rfl⟩
    obtain ⟨hq, rfl⟩ := Graph.mem_states.1 hc
    exact ⟨hq, by simpa using hA, h.next?_edge hq he⟩
  · rintro ⟨hq, hA, hr⟩
    obtain ⟨e, he, rfl, rfl⟩ := (h.next?_eq_some_iff hq).1 hr
    exact ⟨(a.core q, q), Graph.mem_states.2 ⟨hq, rfl⟩, e, ⟨he, by rw [hA]; rfl⟩, ⟨rfl, rfl⟩, rfl⟩

theorem mem_gotos (h : a.OfItems g) : (⟨q, A⟩ : Goto) ∈ gotos g a ↔
    q < a.size ∧ g.isTerminal A = false ∧ ∃ r, a.next? q A = some r := by
  simp only [gotos, List.mem_map]
  constructor
  · rintro ⟨⟨⟨q, A⟩, r⟩, hmem, ⟨⟩⟩
    obtain ⟨hq, hA, hr⟩ := (mem_gotoTargets h).1 hmem
    exact ⟨hq, hA, r, hr⟩
  · rintro ⟨hq, hA, r, hr⟩; exact ⟨(⟨q, A⟩, r), (mem_gotoTargets h).2 ⟨hq, hA, hr⟩, rfl⟩

/-- The nonterminals after the dots of items are those with a transition. -/
theorem mem_gotos_iff_items (h : a.OfItems g) : (⟨q, A⟩ : Goto) ∈ gotos g a ↔
    q < a.size ∧ g.isTerminal A = false ∧ ∃ i ∈ (a.core q).items, i.next? g = some A := by
  rw [mem_gotos h]
  exact and_congr_right fun hq => and_congr_right fun _ => h.exists_next?_iff hq

theorem mem_keys_directReads :
    (⟨q, A⟩ : Goto) ∈ (directReads g a).keys ↔ (⟨q, A⟩ : Goto) ∈ gotos g a := by
  simp only [directReads, OrderedMap.mem_keys_ofList, gotos, List.mem_map, Prod.mk.injEq]
  constructor
  · rintro ⟨_, ⟨_, r⟩, hmem, rfl, -⟩; exact ⟨(_, r), hmem, rfl⟩
  · rintro ⟨⟨p, r⟩, hmem, rfl⟩; exact ⟨_, (_, r), hmem, rfl, rfl⟩

theorem mem_terminals (h : a.OfItems g) (hr : r < a.size) : t ∈ (a.core r).terminals g ↔
    g.isTerminal t = true ∧ ∃ i ∈ (a.core r).items, i.next? g = some t := by
  rw [← h.exists_edge_iff hr]
  simp only [Core.terminals, Core.terminalEdges, NatSet.mem_ofList, List.mem_map, List.mem_filter]
  constructor
  · rintro ⟨e, ⟨he, ht⟩, rfl⟩; exact ⟨ht, e, he, rfl⟩
  · rintro ⟨ht, e, he, rfl⟩; exact ⟨e, ⟨he, ht⟩, rfl⟩

theorem mem_directReads (h : a.OfItems g) (hq : q < a.size) (hA : g.isTerminal A = false)
    (hr : a.next? q A = some r) : t ∈ (directReads g a).getD ⟨q, A⟩ ∅ ↔
      g.isTerminal t = true ∧ ∃ i ∈ (a.core r).items, i.next? g = some t := by
  have entry : (directReads g a).get? ⟨q, A⟩ = some ((a.core r).terminals g) := by
    refine OrderedMap.get?_ofList_of_unique (List.mem_map.2
      ⟨(⟨q, A⟩, r), (mem_gotoTargets h).2 ⟨hq, hA, hr⟩, rfl⟩) fun s hs => ?_
    obtain ⟨⟨⟨q, A⟩, r'⟩, hmem, ⟨⟩⟩ := List.mem_map.1 hs
    rw [((mem_gotoTargets h).1 hmem).2.2] at hr
    rw [Option.some.inj hr]
  rw [OrderedMap.getD_of_get? entry, mem_terminals h (h.next?_kernel hq hr).1]

theorem mem_nullableGotos (h : a.OfItems g) (wf : g.WellFormed) (hr : r < a.size) {z : Goto} :
    z ∈ nullableGotos g a r ↔ z.source = r ∧ g.isTerminal z.symbol = false ∧
      g.Vanishes [z.symbol] ∧ ∃ s, a.next? r z.symbol = some s := by
  simp only [nullableGotos, Core.nonterminalEdges, List.mem_map, List.mem_filter, wf.isNullable_iff]
  constructor
  · rintro ⟨e, ⟨⟨he, hC⟩, hnull⟩, rfl⟩
    exact ⟨rfl, by simpa using hC, hnull, e.target, h.next?_edge hr he⟩
  · rintro ⟨hsource, hC, hnull, s, hs⟩
    obtain ⟨e, he, hsymbol, -⟩ := (h.next?_eq_some_iff hr).1 hs
    refine ⟨e, ⟨⟨he, by rw [hsymbol, hC]; rfl⟩, by rw [hsymbol]; exact hnull⟩, ?_⟩
    rw [hsymbol, ← hsource]

theorem mem_reads (h : a.OfItems g) (hq : q < a.size) (hA : g.isTerminal A = false)
    (hr : a.next? q A = some r) :
    (readsRelation g a).getD ⟨q, A⟩ [] = nullableGotos g a r := by
  have unique : ∀ ts, ((⟨q, A⟩, ts) : Goto × List Goto) ∈ ((gotoTargets g a).map fun entry =>
      (entry.1, nullableGotos g a entry.2)) → ts = nullableGotos g a r := by
    intro ts hts
    obtain ⟨⟨⟨q, A⟩, r'⟩, hmem, ⟨⟩⟩ := List.mem_map.1 hts
    rw [((mem_gotoTargets h).1 hmem).2.2] at hr
    rw [Option.some.inj hr]
  by_cases hempty : nullableGotos g a r = []
  · rw [hempty]
    refine OrderedMap.getD_of_not_mem fun hkey => ?_
    obtain ⟨ts, hts⟩ := OrderedMap.mem_keys_ofList.1 hkey
    obtain ⟨hmem, hne⟩ := List.mem_filter.1 hts
    rw [unique ts hmem, hempty] at hne; cases hne
  · refine OrderedMap.getD_of_get? (OrderedMap.get?_ofList_of_unique (List.mem_filter.2
      ⟨List.mem_map.2 ⟨(⟨q, A⟩, r), (mem_gotoTargets h).2 ⟨hq, hA, hr⟩, rfl⟩, ?_⟩)
      fun ts hts => unique ts (List.mem_filter.1 hts).1)
    simpa using hempty

/-! ## Read sets -/

/-- The equations of the read sets. -/
def readEquations (g : Grammar) (a : Graph) : SetEquations Goto NatSet :=
  ⟨readsRelation g a, directReads g a⟩

/-- If an item begins with a terminal, so does a kernel item of its state. -/
theorem exists_kernel_begins (h : a.OfItems g) (wf : g.WellFormed) (hr : r < a.size) {i : Item}
    (hi : i ∈ (a.core r).items) (ht : g.Begins (i.after g) t) :
    ∃ k ∈ (a.core r).kernel, g.Begins (k.after g) t := by
  rw [h.items_eq hr, wf.mem_kernel_append_closure] at hi
  obtain ⟨k, hk, hki⟩ := hi
  exact ⟨k, hk, Grammar.begins_of_expands hki ht⟩

/-- A kernel item after a transition comes from an item before it. -/
theorem exists_items_begins (h : a.OfItems g) (wf : g.WellFormed) (hq : q < a.size)
    (hr : a.next? q A = some r) {i : Item} (hi : i ∈ (a.core r).items)
    (ht : g.Begins (i.after g) t) :
    ∃ j ∈ (a.core q).items, j.next? g = some A ∧ g.Begins (j.afterNext g) t := by
  obtain ⟨hlt, hkernel⟩ := h.next?_kernel hq hr
  obtain ⟨k, hk, hbegins⟩ := exists_kernel_begins h wf hlt hi ht
  rw [hkernel] at hk
  obtain ⟨j, hj, hnext, rfl⟩ := ItemSet.mem_step.1 hk
  exact ⟨j, by rw [h.items_eq hq]; exact hj, hnext, hbegins⟩

theorem advance_mem_items (h : a.OfItems g) (hq : q < a.size) (hr : a.next? q A = some r) {i : Item}
    (hi : i ∈ (a.core q).items) (hA : i.next? g = some A) : i.advance ∈ (a.core r).items := by
  obtain ⟨-, hkernel⟩ := h.next?_kernel hq hr
  rw [Core.items, hkernel]
  rw [h.items_eq hq] at hi
  exact List.mem_append_left _ (ItemSet.mem_step.2 ⟨i, hi, hA, rfl⟩)

theorem initial_mem_items (h : a.OfItems g) (wf : g.WellFormed) (hq : q < a.size) {i : Item}
    (hi : i ∈ (a.core q).items) {ρ : RuleId} (hρ : ρ < g.rules.size)
    (hnext : i.next? g = some (g.lhs ρ)) : (⟨ρ, 0⟩ : Item) ∈ (a.core q).items := by
  rw [h.items_eq hq, wf.mem_kernel_append_closure] at hi ⊢
  obtain ⟨k, hk, hki⟩ := hi
  exact ⟨k, hk, hki.tail ⟨ρ, hρ, hnext, rfl⟩⟩

theorem exists_of_contains_read (h : a.OfItems g) (wf : g.WellFormed) {z : Goto}
    (ht : (readEquations g a).Contains z t) (hz : z ∈ gotos g a) :
    ∃ i ∈ (a.core z.source).items, i.next? g = some z.symbol ∧ g.Begins (i.afterNext g) t := by
  obtain ⟨y, hzy, ht⟩ := ht
  induction hzy using ReflTransGen.head_induction_on with
  | refl =>
    obtain ⟨hq, hA, r, hr⟩ := (mem_gotos h).1 hz
    obtain ⟨hterminal, i, hi, hnext⟩ := (mem_directReads h hq hA hr).1 ht
    refine exists_items_begins h wf hq hr hi ?_
    rw [Item.after_eq_cons hnext]
    exact Grammar.begins_cons.2 (.inl ((wf.begins_terminal_iff hterminal).2 rfl))
  | @head z z' hstep _ ih =>
    obtain ⟨hq, hA, r, hr⟩ := (mem_gotos h).1 hz
    have hrlt := (h.next?_kernel hq hr).1
    have hstep : z' ∈ (readsRelation g a).getD z [] := hstep
    rw [mem_reads h hq hA hr, mem_nullableGotos h wf hrlt] at hstep
    obtain ⟨rfl, hC, hvanish, hs⟩ := hstep
    obtain ⟨i, hi, hnext, hbegins⟩ := ih ((mem_gotos h).2 ⟨hrlt, hC, hs⟩)
    refine exists_items_begins h wf hq hr hi ?_
    rw [Item.after_eq_cons hnext]
    exact Grammar.begins_cons.2 (.inr ⟨hvanish, hbegins⟩)

theorem contains_read_of_leads (h : a.OfItems g) (wf : g.WellFormed) {α : List SymbolId}
    (ht : g.Leads t α) : ∀ {q r : StateId} {A : SymbolId} {i : Item}, q < a.size →
      g.isTerminal A = false → a.next? q A = some r → i ∈ (a.core r).items → i.after g = α →
      (readEquations g a).Contains ⟨q, A⟩ t := by
  induction ht with
  | here hterminal =>
    intro q r A i hq hA hr hi hafter
    refine ⟨⟨q, A⟩, .refl, (mem_directReads h hq hA hr).2 ⟨hterminal, i, hi, ?_⟩⟩
    exact Item.next?_of_after hafter
  | @skip X α hvanish _ ih =>
    intro q r A i hq hA hr hi hafter
    have hnext := Item.next?_of_after hafter
    have hrlt := (h.next?_kernel hq hr).1
    have hX : g.isTerminal X = false := by
      cases hX : g.isTerminal X with
      | false => rfl
      | true => exact absurd hvanish (wf.not_vanishes_terminal hX)
    obtain ⟨s, hs⟩ := (h.exists_next?_iff hrlt).2 ⟨i, hi, hnext⟩
    have step : (⟨r, X⟩ : Goto) ∈ (readEquations g a).targets ⟨q, A⟩ := by
      show _ ∈ (readsRelation g a).getD ⟨q, A⟩ []
      rw [mem_reads h hq hA hr, mem_nullableGotos h wf hrlt]
      exact ⟨rfl, hX, hvanish, s, hs⟩
    refine .of_reaches (.single step) (ih hrlt hX hs (advance_mem_items h hrlt hs hi hnext) ?_)
    rw [Item.after_advance]
    exact (List.cons.inj ((Item.after_eq_cons hnext).symm.trans hafter)).2
  | expand hρ _ ih =>
    intro q r A i hq hA hr hi hafter
    exact ih hq hA hr (initial_mem_items h wf (h.next?_kernel hq hr).1 hi hρ
      (Item.next?_of_after hafter)) rfl

/-- **Read sets are exact.** -/
theorem mem_read_iff (h : a.OfItems g) (wf : g.WellFormed) (hgoto : (⟨q, A⟩ : Goto) ∈ gotos g a) :
    t ∈ (compute g a).read.getD ⟨q, A⟩ ∅ ↔
      ∃ i ∈ (a.core q).items, i.next? g = some A ∧ g.Begins (i.afterNext g) t := by
  have domain : (⟨q, A⟩ : Goto) ∈ (directReads g a).keys := mem_keys_directReads.2 hgoto
  show t ∈ ((readEquations g a).solve (directReads g a).keys).getD ⟨q, A⟩ ∅ ↔ _
  rw [SetEquations.mem_solve_iff _ domain]
  constructor
  · exact fun ht => exists_of_contains_read h wf ht hgoto
  · rintro ⟨i, hi, hnext, ht⟩
    obtain ⟨hq, hA, r, hr⟩ := (mem_gotos h).1 hgoto
    exact contains_read_of_leads h wf (Grammar.begins_iff_leads.1 ht) hq hA hr
      (advance_mem_items h hq hr hi hnext) (Item.after_advance i)

/-! ## Follow sets -/

/-- An element stands first in a list, or after the first one. -/
theorem exists_cons_eq_append_iff {α : Type} {P : α → Prop} {x z : α} {xs : List α} :
    (∃ l₁, (∃ l₂, x :: xs = l₁ ++ z :: l₂) ∧ ∀ y ∈ l₁, P y) ↔
      x = z ∨ P x ∧ ∃ l₁, (∃ l₂, xs = l₁ ++ z :: l₂) ∧ ∀ y ∈ l₁, P y := by
  constructor
  · rintro ⟨l₁, ⟨l₂, heq⟩, hl₁⟩
    cases l₁ with
    | nil => exact .inl (List.cons.inj heq).1
    | cons y l₁ =>
      obtain ⟨rfl, rfl⟩ := List.cons.inj heq
      exact .inr ⟨hl₁ x (by simp), l₁, ⟨l₂, rfl⟩, fun y hy => hl₁ y (by simp [hy])⟩
  · rintro (rfl | ⟨hx, l₁, ⟨l₂, rfl⟩, hl₁⟩)
    · exact ⟨[], ⟨xs, rfl⟩, by simp⟩
    · exact ⟨x :: l₁, ⟨l₂, rfl⟩, by simpa using ⟨hx, hl₁⟩⟩

theorem mem_nullableTail (wf : g.WellFormed) {z : Goto} {places : List Goto} :
    z ∈ nullableTail g places ↔ ∃ l₁ l₂, places = l₁ ++ z :: l₂ ∧
      (∀ y ∈ l₁, g.Vanishes [y.symbol]) ∧ g.isTerminal z.symbol = false := by
  simp only [← and_assoc, exists_and_right]
  induction places with
  | nil => simp [nullableTail]
  | cons y places ih =>
    rw [nullableTail, exists_cons_eq_append_iff]
    split
    · rename_i hterminal
      simp only [List.not_mem_nil, false_iff]
      rintro ⟨rfl | ⟨hvanish, -⟩, hz⟩
      · rw [hterminal] at hz; cases hz
      · exact wf.not_vanishes_terminal hterminal hvanish
    rename_i hterminal
    have hy : g.isTerminal y.symbol = false := by simpa using hterminal
    split
    · rename_i hnull
      rw [List.mem_cons, ih]
      constructor
      · rintro (rfl | ⟨h, hz⟩)
        · exact ⟨.inl rfl, hy⟩
        · exact ⟨.inr ⟨wf.isNullable_iff.1 hnull, h⟩, hz⟩
      · rintro ⟨rfl | ⟨-, h⟩, hz⟩
        · exact .inl rfl
        · exact .inr ⟨h, hz⟩
    · rename_i hnull
      rw [List.mem_singleton]
      constructor
      · rintro rfl; exact ⟨.inl rfl, hy⟩
      · rintro ⟨rfl | ⟨hvanish, -⟩, -⟩
        · rfl
        · exact absurd (wf.isNullable_iff.2 hvanish) hnull

/-- From an item of a state, the symbols after its dot can be read. -/
theorem exists_reads_after (h : a.OfItems g) : ∀ (α : List SymbolId) {q : StateId} {i : Item},
    q < a.size → i ∈ (a.core q).items → i.after g = α → ∃ r, a.Reads q α r
  | [], q, _, _, _, _ => ⟨q, Graph.reads_nil.2 rfl⟩
  | X :: α, q, i, hq, hi, hafter => by
    have hnext := Item.next?_of_after hafter
    obtain ⟨r, hr⟩ := (h.exists_next?_iff hq).2 ⟨i, hi, hnext⟩
    have hafter' : i.advance.after g = α :=
      (List.cons.inj ((Item.after_eq_cons hnext).symm.trans hafter)).2
    obtain ⟨s, hs⟩ := exists_reads_after h α (h.next?_kernel hq hr).1
      (advance_mem_items h hq hr hi hnext) hafter'
    exact ⟨s, Graph.reads_cons.2 ⟨r, hr, hs⟩⟩

/-- From a transition on a nonterminal, the rules of the nonterminal can be read. -/
theorem exists_reads_rhs (h : a.OfItems g) (wf : g.WellFormed) {z : Goto} (hz : z ∈ gotos g a)
    {ρ : RuleId} (hρ : ρ < g.rules.size) (hlhs : g.lhs ρ = z.symbol) :
    ∃ r, a.Reads z.source (g.rhs ρ) r := by
  obtain ⟨hq, -, i, hi, hnext⟩ := (mem_gotos_iff_items h).1 hz
  exact exists_reads_after h _ hq (initial_mem_items h wf hq hi hρ (by rw [hlhs]; exact hnext)) rfl

theorem mem_expansions (wf : g.WellFormed) {z : Goto} {ρ : RuleId} {places : List Goto} :
    (z, ρ, places, q) ∈ expansions g a ↔
      z ∈ gotos g a ∧ ρ < g.rules.size ∧ g.lhs ρ = z.symbol ∧
        a.trace? z.source (g.rhs ρ) = some (places, q) := by
  simp only [expansions, List.mem_flatMap, List.mem_filterMap, wf.mem_rulesOf,
    Option.map_eq_some_iff]
  constructor
  · rintro ⟨z, hz, ρ, ⟨hρ, hlhs⟩, way, hway, ⟨⟩⟩; exact ⟨hz, hρ, hlhs, hway⟩
  · rintro ⟨hz, hρ, hlhs, hway⟩; exact ⟨z, hz, ρ, ⟨hρ, hlhs⟩, _, hway, rfl⟩

/-- The transitions that a transition includes. -/
theorem mem_includes (h : a.OfItems g) (wf : g.WellFormed) {y z : Goto} :
    z ∈ (includesRelation g a).getD y [] ↔ z ∈ gotos g a ∧ g.isTerminal y.symbol = false ∧
      ∃ i : Item, i.rule < g.rules.size ∧ i.lhs g = z.symbol ∧ i.next? g = some y.symbol ∧
        g.Vanishes (i.afterNext g) ∧ a.Reads z.source (i.before g) y.source := by
  rw [includesRelation, OrderedMap.mem_getD_group]
  simp only [List.mem_flatMap, List.mem_map, Prod.mk.injEq]
  constructor
  · rintro ⟨⟨z, ρ, places, q⟩, hexp, y, htail, rfl, rfl⟩
    obtain ⟨hz, hρ, hlhs, hway⟩ := (mem_expansions wf).1 hexp
    obtain ⟨l₁, l₂, heq, hvanish, hterminal⟩ := (mem_nullableTail wf).1 htail
    have hplaces : places = l₂.reverse ++ y :: l₁.reverse := by
      rw [← List.reverse_reverse places, heq]; simp
    obtain ⟨hrhs, hreads⟩ := Graph.reads_of_mem_trace? hway hplaces
    refine ⟨hz, hterminal, ⟨ρ, (l₂.reverse.map Goto.symbol).length⟩, hρ, hlhs,
      Item.next?_of_rhs hrhs, ?_, by rw [Item.before_of_rhs hrhs]; exact hreads⟩
    rw [Item.afterNext_of_rhs hrhs, Grammar.vanishes_iff_forall]
    simpa using hvanish
  · rintro ⟨hz, hterminal, i, hrule, hlhs, hnext, hvanish, hreads⟩
    obtain ⟨q, hq⟩ := exists_reads_rhs h wf hz hrule hlhs
    obtain ⟨places, hway⟩ := hq.exists_trace?
    have hrhs : g.rhs i.rule = i.before g ++ y.symbol :: i.afterNext g := by
      rw [← Item.after_eq_cons hnext, Item.before_append_after]
    obtain ⟨before, after, hplaces, hafter⟩ := Graph.mem_trace?_of_reads (hrhs ▸ hway) hreads
    refine ⟨(z, i.rule, places, q), (mem_expansions wf).2 ⟨hz, hrule, hlhs, hway⟩, y,
      (mem_nullableTail wf).2 ⟨after.reverse, before.reverse, by rw [hplaces]; simp, fun u hu => ?_,
        hterminal⟩, rfl, rfl⟩
    rw [← hafter, Grammar.vanishes_iff_forall] at hvanish
    exact hvanish _ (List.mem_map_of_mem (List.mem_reverse.1 hu))

/-- The equations of the follow sets. -/
def followEquations (g : Grammar) (a : Graph) : SetEquations Goto NatSet :=
  ⟨includesRelation g a, (compute g a).read⟩

theorem follows_of_contains (h : a.OfItems g) (wf : g.WellFormed) (reach : a.Reachable) {z : Goto}
    (ht : (followEquations g a).Contains z t) (hz : z ∈ gotos g a) :
    ∃ γ, a.Reads StateId.start γ z.source ∧ g.Follows γ z.symbol t := by
  obtain ⟨y, hzy, ht⟩ := ht
  induction hzy using ReflTransGen.head_induction_on with
  | refl =>
    obtain ⟨i, hi, hnext, hbegins⟩ := (mem_read_iff h wf hz).1 ht
    obtain ⟨γ, hγ⟩ := reach _ ((mem_gotos h).1 hz).1
    exact ⟨γ, hγ, .begins ((h.mem_items_iff wf hγ).1 hi) hnext hbegins⟩
  | head hstep _ ih =>
    obtain ⟨hz', -, i, hrule, hlhs, hnext, hvanish, hreads⟩ := (mem_includes h wf).1 hstep
    obtain ⟨γ, hγ, hfollows⟩ := ih hz'
    rw [← hlhs] at hfollows
    exact ⟨γ ++ i.before g, Graph.reads_append.2 ⟨_, hγ, hreads⟩,
      .inherits hfollows hrule hnext hvanish⟩

theorem contains_of_follows (h : a.OfItems g) (wf : g.WellFormed) {γ : List SymbolId}
    (ht : g.Follows γ A t) : ∀ {q : StateId}, a.Reads StateId.start γ q → g.isTerminal A = false →
      (followEquations g a).Contains ⟨q, A⟩ t := by
  induction ht with
  | begins hi hnext hbegins =>
    intro q hγ hA
    have hi := (h.mem_items_iff wf hγ).2 hi
    have hgoto := (mem_gotos_iff_items h).2 ⟨(h.reads_kernel hγ).1, hA, _, hi, hnext⟩
    exact ⟨_, .refl, (mem_read_iff h wf hgoto).2 ⟨_, hi, hnext, hbegins⟩⟩
  | @inherits γ i A t hfollows hrule hnext hvanish ih =>
    intro q hγ hA
    obtain ⟨p, hp, hreads⟩ := Graph.reads_append.1 hγ
    have hlhs : g.isTerminal (i.lhs g) = false := wf.lhs_nonterminal hrule
    obtain ⟨j, hj, hjnext⟩ := hfollows.exists_viable
    have hgoto : (⟨p, i.lhs g⟩ : Goto) ∈ gotos g a := (mem_gotos_iff_items h).2
      ⟨(h.reads_kernel hp).1, hlhs, j, (h.mem_items_iff wf hp).2 hj, hjnext⟩
    have step : (⟨p, i.lhs g⟩ : Goto) ∈ (followEquations g a).targets ⟨q, A⟩ :=
      (mem_includes h wf).2 ⟨hgoto, hA, i, hrule, rfl, hnext, hvanish, hreads⟩
    exact .of_reaches (.single step) (ih hp hlhs)

/-- **Follow sets are exact.**  What follows a transition follows its symbol
    after some string that leads to its source. -/
theorem mem_follow_iff (h : a.OfItems g) (wf : g.WellFormed) (reach : a.Reachable)
    (hgoto : (⟨q, A⟩ : Goto) ∈ gotos g a) : t ∈ (compute g a).follow.getD ⟨q, A⟩ ∅ ↔
      ∃ γ, a.Reads StateId.start γ q ∧ g.Follows γ A t := by
  have domain : (⟨q, A⟩ : Goto) ∈ (directReads g a).keys := mem_keys_directReads.2 hgoto
  show t ∈ ((followEquations g a).solve (directReads g a).keys).getD ⟨q, A⟩ ∅ ↔ _
  rw [SetEquations.mem_solve_iff _ domain]
  constructor
  · exact fun ht => follows_of_contains h wf reach ht hgoto
  · rintro ⟨γ, hγ, ht⟩; exact contains_of_follows h wf ht hγ ((mem_gotos h).1 hgoto).2.1

/-! ## Lookahead sets -/

theorem mem_lookback (wf : g.WellFormed) {ρ : RuleId} {z : Goto} :
    z ∈ (lookbackRelation g a).getD ⟨q, ρ⟩ [] ↔ z ∈ gotos g a ∧ ρ < g.rules.size ∧
      g.lhs ρ = z.symbol ∧ a.Reads z.source (g.rhs ρ) q := by
  rw [lookbackRelation, OrderedMap.mem_getD_group]
  simp only [List.mem_map, Prod.mk.injEq, StateRule.mk.injEq]
  constructor
  · rintro ⟨⟨z, ρ, places, q⟩, hexp, ⟨rfl, rfl⟩, rfl⟩
    obtain ⟨hz, hρ, hlhs, hway⟩ := (mem_expansions wf).1 hexp
    exact ⟨hz, hρ, hlhs, Graph.reads_of_trace? hway⟩
  · rintro ⟨hz, hρ, hlhs, hreads⟩
    obtain ⟨places, hway⟩ := hreads.exists_trace?
    exact ⟨(z, ρ, places, q), (mem_expansions wf).2 ⟨hz, hρ, hlhs, hway⟩, ⟨rfl, rfl⟩, rfl⟩

theorem mem_completeItems {c : Core} {i : Item} :
    i ∈ c.completeItems g ↔ i ∈ c.items ∧ i.next? g = none := by
  simp [Core.completeItems]

theorem next?_complete (g : Grammar) (ρ : RuleId) :
    Item.next? g ⟨ρ, (g.rhs ρ).length⟩ = none :=
  List.getElem?_eq_none (Nat.le_refl _)

/-- An item of a state without a symbol after its dot has it at the end. -/
theorem eq_complete (h : a.OfItems g) (wf : g.WellFormed) (reach : a.Reachable) (hq : q < a.size)
    {i : Item} (hi : i ∈ (a.core q).items) (hnext : i.next? g = none) :
    i = ⟨i.rule, (g.rhs i.rule).length⟩ := by
  obtain ⟨γ, hγ⟩ := reach q hq
  have hle := (((h.mem_items_iff wf hγ).1 hi).inRange wf).2
  have hge := List.getElem?_eq_none_iff.1 hnext
  rw [← Nat.le_antisymm hle hge]

theorem mem_foldl_union {α : Type} {ps : List α} {f : α → NatSet} {n : Nat} :
    ∀ s : NatSet, n ∈ ps.foldl (fun s p => s ∪ f p) s ↔ n ∈ s ∨ ∃ p ∈ ps, n ∈ f p := by
  induction ps with
  | nil => simp
  | cons p ps ih => intro s; rw [List.foldl_cons, ih]; simp [or_assoc]

/-- The entries of the table of lookahead sets. -/
theorem get?_la (hq : q < a.size) {i : Item} (hi : i ∈ (a.core q).items) (hnext : i.next? g = none) :
    (compute g a).la.get? ⟨q, i.rule⟩ = ((lookbackRelation g a).get? ⟨q, i.rule⟩).map fun ps =>
      ps.foldl (fun s p => s ∪ (compute g a).follow.getD p ∅) ∅ := by
  have entry : ∀ v, ((⟨q, i.rule⟩, v) : StateRule × NatSet) ∈ (a.states.flatMap fun entry =>
      (entry.1.completeItems g).filterMap fun i =>
        ((lookbackRelation g a).get? ⟨entry.2, i.rule⟩).map fun ps =>
          ((⟨entry.2, i.rule⟩ : StateRule), ps.foldl (fun s p => s ∪ (compute g a).follow.getD p ∅) ∅)) ↔
      ((lookbackRelation g a).get? ⟨q, i.rule⟩).map (fun ps =>
        ps.foldl (fun s p => s ∪ (compute g a).follow.getD p ∅) ∅) = some v := by
    intro v
    simp only [List.mem_flatMap, List.mem_filterMap, Option.map_eq_some_iff, Prod.mk.injEq,
      StateRule.mk.injEq]
    constructor
    · rintro ⟨⟨c, q'⟩, -, j, -, ps, hps, ⟨rfl, hrule⟩, rfl⟩
      rw [← hrule]; exact ⟨ps, hps, rfl⟩
    · rintro ⟨ps, hps, rfl⟩
      exact ⟨(a.core q, q), Graph.mem_states.2 ⟨hq, rfl⟩, i, mem_completeItems.2 ⟨hi, hnext⟩, ps, hps,
        ⟨rfl, rfl⟩, rfl⟩
  cases hps : (lookbackRelation g a).get? ⟨q, i.rule⟩ with
  | none => exact OrderedMap.get?_ofList_eq_none fun v hv => by simpa [hps] using (entry v).1 hv
  | some ps =>
    refine OrderedMap.get?_ofList_of_unique ((entry _).2 (by rw [hps]; rfl)) fun v hv => ?_
    have := (entry v).1 hv
    rw [hps] at this
    exact (Option.some.inj this).symm

/-- **Lookahead sets are exact.**  The lookaheads of a reduction are what follows
    the left-hand side of its rule, where the rule was begun on the way to the
    state. -/
theorem mem_la_iff (h : a.OfItems g) (wf : g.WellFormed) (reach : a.Reachable) (hq : q < a.size)
    {ρ : RuleId} (hi : (⟨ρ, (g.rhs ρ).length⟩ : Item) ∈ (a.core q).items) :
    t ∈ (compute g a).la.getD ⟨q, ρ⟩ ∅ ↔
      ∃ γ, a.Reads StateId.start (γ ++ g.rhs ρ) q ∧ g.Follows γ (g.lhs ρ) t := by
  have lookback : t ∈ (compute g a).la.getD ⟨q, ρ⟩ ∅ ↔
      ∃ z ∈ (lookbackRelation g a).getD ⟨q, ρ⟩ [], t ∈ (compute g a).follow.getD z ∅ := by
    rw [OrderedMap.getD, get?_la hq hi (next?_complete g ρ), OrderedMap.getD]
    cases (lookbackRelation g a).get? ⟨q, ρ⟩ with
    | none => simp
    | some ps => simp only [Option.map_some, Option.getD_some, mem_foldl_union]; simp
  rw [lookback]
  constructor
  · rintro ⟨z, hz, ht⟩
    obtain ⟨hgoto, -, hlhs, hreads⟩ := (mem_lookback wf).1 hz
    obtain ⟨γ, hγ, hfollows⟩ := (mem_follow_iff h wf reach hgoto).1 ht
    exact ⟨γ, Graph.reads_append.2 ⟨_, hγ, hreads⟩, by rw [hlhs]; exact hfollows⟩
  · rintro ⟨γ, hγ, hfollows⟩
    obtain ⟨p, hp, hreads⟩ := Graph.reads_append.1 hγ
    obtain ⟨r, hr⟩ := reach q hq
    have hρ : ρ < g.rules.size := (((h.mem_items_iff wf hr).1 hi).inRange wf).1
    obtain ⟨j, hj, hnext⟩ := hfollows.exists_viable
    have hgoto : (⟨p, g.lhs ρ⟩ : Goto) ∈ gotos g a := (mem_gotos_iff_items h).2
      ⟨(h.reads_kernel hp).1, wf.lhs_nonterminal hρ, j, (h.mem_items_iff wf hp).2 hj, hnext⟩
    exact ⟨⟨p, g.lhs ρ⟩, (mem_lookback wf).2 ⟨hgoto, hρ, rfl, hreads⟩,
      (mem_follow_iff h wf reach hgoto).2 ⟨γ, hp, hfollows⟩⟩

/-- A state looks back where the rule was begun, for an item that asks for its
    left-hand side. -/
theorem mem_keys_lookback (h : a.OfItems g) (wf : g.WellFormed) (reach : a.Reachable) {ρ : RuleId} :
    (⟨q, ρ⟩ : StateRule) ∈ (lookbackRelation g a).keys ↔ ∃ (γ : List SymbolId) (j : Item),
      a.Reads StateId.start (γ ++ g.rhs ρ) q ∧ j.Viable g γ ∧ j.Expands g ⟨ρ, 0⟩ := by
  have lookback : (⟨q, ρ⟩ : StateRule) ∈ (lookbackRelation g a).keys ↔
      ∃ z ∈ gotos g a, ρ < g.rules.size ∧ g.lhs ρ = z.symbol ∧ a.Reads z.source (g.rhs ρ) q := by
    simp only [lookbackRelation, OrderedMap.mem_keys_group, ← OrderedMap.mem_getD_group]
    exact ⟨fun ⟨z, hz⟩ => ⟨z, (mem_lookback wf).1 hz⟩, fun ⟨z, hz⟩ => ⟨z, (mem_lookback wf).2 hz⟩⟩
  rw [lookback]
  constructor
  · rintro ⟨z, hz, hρ, hlhs, hreads⟩
    obtain ⟨hsource, -, j, hj, hnext⟩ := (mem_gotos_iff_items h).1 hz
    obtain ⟨γ, hγ⟩ := reach _ hsource
    exact ⟨γ, j, Graph.reads_append.2 ⟨_, hγ, hreads⟩, (h.mem_items_iff wf hγ).1 hj, ρ, hρ,
      by rw [hlhs]; exact hnext, rfl⟩
  · rintro ⟨γ, j, hγ, hj, _, hρ, hnext, ⟨⟩⟩
    obtain ⟨p, hp, hreads⟩ := Graph.reads_append.1 hγ
    exact ⟨⟨p, g.lhs ρ⟩, (mem_gotos_iff_items h).2 ⟨(h.reads_kernel hp).1, wf.lhs_nonterminal hρ, j,
      (h.mem_items_iff wf hp).2 hj, hnext⟩, hρ, rfl, hreads⟩

/-- A rule that was begun and read can be reduced. -/
theorem complete_mem_items (h : a.OfItems g) (wf : g.WellFormed) {ρ : RuleId} {γ : List SymbolId}
    {j : Item} (hγ : a.Reads StateId.start (γ ++ g.rhs ρ) q) (hj : j.Viable g γ)
    (hexpands : j.Expands g ⟨ρ, 0⟩) : (⟨ρ, (g.rhs ρ).length⟩ : Item) ∈ (a.core q).items := by
  have hcomplete := (hj.expand hexpands).read_take (i := ⟨ρ, 0⟩) _ (Nat.le_refl _)
  rw [List.take_length] at hcomplete
  exact (h.mem_items_iff wf hγ).2 hcomplete

/-- **The reductions with lookahead sets** are those of the rules that were begun on
    the way to the state, for an item that asks for them. -/
theorem mem_keys_la_iff (h : a.OfItems g) (wf : g.WellFormed) (reach : a.Reachable) {ρ : RuleId} :
    (⟨q, ρ⟩ : StateRule) ∈ (compute g a).la.keys ↔ ∃ (γ : List SymbolId) (j : Item),
      a.Reads StateId.start (γ ++ g.rhs ρ) q ∧ j.Viable g γ ∧ j.Expands g ⟨ρ, 0⟩ := by
  constructor
  · intro hkey
    obtain ⟨v, hv⟩ := OrderedMap.mem_keys_ofList.1 hkey
    simp only [List.mem_flatMap, List.mem_filterMap, Option.map_eq_some_iff, Prod.mk.injEq,
      StateRule.mk.injEq] at hv
    obtain ⟨⟨_, _⟩, -, i, -, ps, hps, ⟨rfl, rfl⟩, -⟩ := hv
    exact (mem_keys_lookback h wf reach).1 (OrderedMap.mem_keys_iff.2 (by rw [hps]; rfl))
  · rintro ⟨γ, j, hγ, hj, hexpands⟩
    have hkey := (mem_keys_lookback h wf reach).2 ⟨γ, j, hγ, hj, hexpands⟩
    have hi := complete_mem_items h wf hγ hj hexpands
    rw [OrderedMap.mem_keys_iff, get?_la (h.reads_kernel hγ).1 hi (next?_complete g ρ), Option.isSome_map]
    exact OrderedMap.mem_keys_iff.1 hkey

theorem complete_of_mem_keys_la (h : a.OfItems g) (wf : g.WellFormed) (reach : a.Reachable)
    {ρ : RuleId} (hkey : (⟨q, ρ⟩ : StateRule) ∈ (compute g a).la.keys) :
    q < a.size ∧ (⟨ρ, (g.rhs ρ).length⟩ : Item) ∈ (a.core q).items := by
  obtain ⟨γ, j, hγ, hj, hexpands⟩ := (mem_keys_la_iff h wf reach).1 hkey
  exact ⟨(h.reads_kernel hγ).1, complete_mem_items h wf hγ hj hexpands⟩

/-- Every reduction by a rule other than the accepting one has a lookahead set. -/
theorem mem_keys_la (h : a.OfItems g) (wf : g.WellFormed) (reach : a.Reachable) (hq : q < a.size)
    {ρ : RuleId} (hρ : ρ ≠ RuleId.accept)
    (hi : (⟨ρ, (g.rhs ρ).length⟩ : Item) ∈ (a.core q).items) :
    (⟨q, ρ⟩ : StateRule) ∈ (compute g a).la.keys := by
  obtain ⟨γ, hγ⟩ := reach q hq
  obtain ⟨γ', heq, hinitial⟩ := ((h.mem_items_iff wf hγ).1 hi).initial
  rw [heq, Item.before, List.take_length] at hγ
  obtain ⟨-, haccept⟩ | ⟨hlt, j, hj, hnext⟩ := hinitial.parent
  · exact absurd haccept hρ
  · exact (mem_keys_la_iff h wf reach).2 ⟨γ', j, hγ, hj, ρ, hlt, hnext, rfl⟩

end Lookaheads

/-! ## The LALR(1) automaton -/

theorem Lr0.reachable_graph {g : Grammar} (wf : g.WellFormed) : (Lr0.graph g).Reachable :=
  fun q hq => Lr0.reached_graph wf q hq

namespace Automaton

/-- **Lookaheads of the LALR(1) automaton.**  A reduction by a rule other than
    the accepting one has one lookahead set.  It has the terminals that follow
    the left-hand side of the rule where the rule was begun, on any way to the
    state.  All canonical LR(1) lookaheads are among them, and if the grammar is
    grounded there are no others. -/
theorem lalr_lookaheads {decls : List Declaration} {g : Grammar} (h : Grammar.define decls = .ok g)
    {q : StateId} (hq : q < (lalr g).states.size) {ρ : RuleId} (hρ : ρ ≠ RuleId.accept)
    (hi : (⟨ρ, (g.rhs ρ).length⟩ : Item) ∈ ((lalr g).state q).items) :
    (lalr g).lookaheads.la.keys.count ⟨q, ρ⟩ = 1 ∧
    (∀ t, t ∈ (lalr g).lookaheads.la.getD ⟨q, ρ⟩ ∅ ↔
      ∃ γ, (lalr g).transition StateId.start (γ ++ g.rhs ρ) = .ok q ∧ g.Follows γ (g.lhs ρ) t) ∧
    (∀ t γ, (lalr g).transition StateId.start γ = .ok q →
      Item.Valid g γ ⟨ρ, (g.rhs ρ).length⟩ t → t ∈ (lalr g).lookaheads.la.getD ⟨q, ρ⟩ ∅) ∧
    (g.Grounded → ∀ t, t ∈ (lalr g).lookaheads.la.getD ⟨q, ρ⟩ ∅ ↔
      ∃ γ, (lalr g).transition StateId.start γ = .ok q ∧
        Item.Valid g γ ⟨ρ, (g.rhs ρ).length⟩ t) := by
  have wf := Grammar.wellFormed_of_define h
  have items := Lr0.ofItems_graph wf
  have reach := Lr0.reachable_graph wf
  rw [lalr, size_ofGraph] at hq
  rw [lalr, state_ofGraph g _ hq] at hi
  have hi : (⟨ρ, (g.rhs ρ).length⟩ : Item) ∈ ((Lr0.graph g).core q).items := hi
  obtain ⟨δ, hδ⟩ := reach q hq
  have hρlt : ρ < g.rules.size := (((items.mem_items_iff wf hδ).1 hi).inRange wf).1
  have transition : ∀ γ, (lalr g).transition StateId.start γ = .ok q ↔
      (Lr0.graph g).Reads StateId.start γ q := by
    intro γ; rw [transition_eq_ok_iff, lalr, graph_ofGraph]
  have exact_la : ∀ t, t ∈ (lalr g).lookaheads.la.getD ⟨q, ρ⟩ ∅ ↔
      ∃ γ, (lalr g).transition StateId.start (γ ++ g.rhs ρ) = .ok q ∧ g.Follows γ (g.lhs ρ) t := by
    intro t
    simp only [transition]
    exact Lookaheads.mem_la_iff items wf reach hq hi
  have sound : ∀ t γ, (lalr g).transition StateId.start γ = .ok q →
      Item.Valid g γ ⟨ρ, (g.rhs ρ).length⟩ t → t ∈ (lalr g).lookaheads.la.getD ⟨q, ρ⟩ ∅ := by
    intro t γ hγ hvalid
    obtain ⟨γ', rfl, hfollows⟩ := wf.follows_of_valid_complete hρ hvalid
    exact (exact_la t).2 ⟨γ', hγ, hfollows⟩
  refine ⟨?_, exact_la, sound, fun grounded t => ⟨fun ht => ?_, fun ⟨γ, hγ, hvalid⟩ => sound t γ hγ hvalid⟩⟩
  · have hkey := Lookaheads.mem_keys_la items wf reach hq hρ hi
    exact List.count_eq_one_of_mem (OrderedMap.keys_nodup _) hkey
  · obtain ⟨γ, hγ, hfollows⟩ := (exact_la t).1 ht
    refine ⟨γ ++ g.rhs ρ, hγ, ?_⟩
    have := (grounded.valid_of_follows wf hfollows hρlt rfl).read_take _ (Nat.le_refl _)
    rwa [List.take_length] at this

/-- In a grammar of nested pairs, the lookaheads of the reduction by the rule for
    a pair are the canonical ones. -/
theorem lalr_lookaheads_nested : ∃ g, Grammar.define
      [.rule ⟨"S", ["'a'", "S", "'b'"], none, 1⟩, .rule ⟨"S", [], none, 2⟩] = .ok g ∧
    ∃ q, q < (lalr g).states.size ∧ (⟨1, (g.rhs 1).length⟩ : Item) ∈ ((lalr g).state q).items ∧
      ∀ t, t ∈ (lalr g).lookaheads.la.getD ⟨q, 1⟩ ∅ ↔
        ∃ γ, (lalr g).transition StateId.start γ = .ok q ∧
          Item.Valid g γ ⟨1, (g.rhs 1).length⟩ t := by
  obtain ⟨g, hg, hcheck⟩ := Grammar.exists_define
    [.rule ⟨"S", ["'a'", "S", "'b'"], none, 1⟩, .rule ⟨"S", [], none, 2⟩] (fun g =>
      decide (5 < (lalr g).states.size ∧
        (⟨1, (g.rhs 1).length⟩ : Item) ∈ ((lalr g).state 5).items ∧
        ∀ X, X < g.symbols.size → g.isNullable X = true ∨ (g.first X).isEmpty = false))
    (by decide +kernel)
  obtain ⟨hq, hi, hsymbols⟩ := of_decide_eq_true hcheck
  have grounded := (Grammar.wellFormed_of_define hg).grounded_of_forall hsymbols
  exact ⟨g, hg, 5, hq, hi, (lalr_lookaheads hg hq (by decide) hi).2.2.2 grounded⟩

/-- Without grounding there can be other lookaheads.  Here `C → C 'z'` derives no
    terminal string at all, so nothing canonical follows `B`, and `D → 'd'` is
    never valid; but `'t'` is read after `D`. -/
theorem lalr_lookaheads_ungrounded : ∃ g, Grammar.define
      [.rule ⟨"S", ["B", "C"], none, 1⟩, .rule ⟨"C", ["C", "'z'"], none, 2⟩,
        .rule ⟨"B", ["D", "'t'"], none, 3⟩, .rule ⟨"D", ["'d'"], none, 4⟩] = .ok g ∧
    (⟨4, (g.rhs 4).length⟩ : Item) ∈ ((lalr g).state 1).items ∧
    ¬ (4 ∈ (lalr g).lookaheads.la.getD ⟨1, 4⟩ ∅ ↔
      ∃ γ, (lalr g).transition StateId.start γ = .ok 1 ∧
        Item.Valid g γ ⟨4, (g.rhs 4).length⟩ 4) := by
  obtain ⟨g, hg, hcheck⟩ := Grammar.exists_define
    [.rule ⟨"S", ["B", "C"], none, 1⟩, .rule ⟨"C", ["C", "'z'"], none, 2⟩,
      .rule ⟨"B", ["D", "'t'"], none, 3⟩, .rule ⟨"D", ["'d'"], none, 4⟩] (fun g =>
      decide ((⟨4, (g.rhs 4).length⟩ : Item) ∈ ((lalr g).state 1).items ∧
        4 ∈ (lalr g).lookaheads.la.getD ⟨1, 4⟩ ∅ ∧
        ∀ r : Nat, r < 3 → ∀ n, n < (g.rhs r).length → ∀ r' : Nat, r' < g.rules.size →
          (g.rhs r)[n]? = some (g.lhs r') → r' < 3 ∨ Item.isBlind g ⟨r, n⟩ = true))
    (by decide +kernel)
  obtain ⟨hi, hla, hstep⟩ := of_decide_eq_true hcheck
  refine ⟨g, hg, hi, fun hiff => ?_⟩
  obtain ⟨γ, -, hvalid⟩ := hiff.1 hla
  have hlt : 4 < 3 := (Grammar.wellFormed_of_define hg).rule_of_valid (P := (· < 3)) (by decide)
    hstep hvalid
  exact absurd hlt (by decide)

end Automaton

end LRAutomata
