/-
  Splitting refines.

  A graph of items has the strings, items and symbols of every other one; with
  several states of the same kernel, these share the lookaheads that one state
  would have (`Graph.Merges.mem_la_iff_exists`), and a state with fewer lookaheads has
  fewer conflicts (`Automaton.exists_of_mem_conflicts`).  So the split automaton
  refines the one that was split (`Automaton.split_refines`).

  The right-hand sides of the grammar are taken to fit the positions (`Item`).
-/
import LRAutomata.Proofs.Automaton.Calls

namespace LRAutomata

/-- The two actions that collide. -/
def Conflict.actions : Conflict → Action × Action
  | .shiftReduce _ reduce => (.shift, .reduce reduce.rule)
  | .reduceReduce _ reduce₁ reduce₂ => (.reduce reduce₁.rule, .reduce reduce₂.rule)

/-! ## Conflicts of states with more lookaheads -/

namespace State

/-- The reduction `r'` is `r`, perhaps on further tokens. -/
def Wider (r r' : Reduction) : Prop :=
  r'.item = r.item ∧ r.tokens ⊆ r'.tokens

variable {g : Grammar} {c : Conflict} {t : SymbolId} {reductions wider : List Reduction}

theorem exists_wider (h : List.Forall₂ Wider reductions wider) {r : Reduction} (hr : r ∈ reductions) :
    ∃ r' ∈ wider, Wider r r' := by
  induction h with
  | nil => cases hr
  | cons hhead _ ih =>
    rcases List.mem_cons.1 hr with rfl | hr
    · exact ⟨_, List.mem_cons_self, hhead⟩
    · obtain ⟨r', hr', hwider⟩ := ih hr
      exact ⟨r', List.mem_cons_of_mem _ hr', hwider⟩

/-- Two reductions that collide collide on further tokens too. -/
theorem exists_of_mem_reduceReduceConflicts (h : List.Forall₂ Wider reductions wider)
    (hc : c ∈ reduceReduceConflicts reductions) (ht : t ∈ c.symbols) :
    ∃ c' ∈ reduceReduceConflicts wider, t ∈ c'.symbols ∧ c'.actions = c.actions := by
  induction h with
  | nil => cases hc
  | @cons r₁ r₁' rest rest' h₁ hrest ih =>
    rw [reduceReduceConflicts] at hc ⊢
    rcases List.mem_append.1 hc with hc | hc
    · obtain ⟨r₂, hr₂, hcommon⟩ := List.mem_filterMap.1 hc
      obtain ⟨r₂', hr₂', h₂⟩ := exists_wider hrest hr₂
      simp only [Option.ite_none_left_eq_some, Option.some.injEq] at hcommon
      obtain ⟨-, rfl⟩ := hcommon
      obtain ⟨ht₁, ht₂⟩ := NatSet.mem_inter.1 (NatSet.mem_toList.1 ht)
      have ht' : t ∈ r₁'.tokens ∩ r₂'.tokens :=
        NatSet.mem_inter.2 ⟨NatSet.subset_def.1 h₁.2 t ht₁, NatSet.subset_def.1 h₂.2 t ht₂⟩
      have hnonempty : ¬ (r₁'.tokens ∩ r₂'.tokens).isEmpty = true := fun hempty =>
        NatSet.isEmpty_iff.1 hempty t ht'
      refine ⟨.reduceReduce (r₁'.tokens ∩ r₂'.tokens).toList r₁'.item r₂'.item,
        List.mem_append_left _ (List.mem_filterMap.2 ⟨r₂', hr₂', if_neg hnonempty⟩),
        NatSet.mem_toList.2 ht', ?_⟩
      rw [Conflict.actions, Conflict.actions, h₁.1, h₂.1]
    · obtain ⟨c', hc', ht', hactions⟩ := ih hc
      exact ⟨c', List.mem_append_right _ hc', ht', hactions⟩

/-- A shift and a reduction that collide collide where there are further tokens. -/
theorem exists_of_mem_shiftReduceConflicts {core core' : Core}
    (hsymbols : core'.edges.map Edge.symbol = core.edges.map Edge.symbol)
    (h : List.Forall₂ Wider reductions wider)
    (hc : c ∈ shiftReduceConflicts (encounters g core reductions)) (ht : t ∈ c.symbols) :
    ∃ c' ∈ shiftReduceConflicts (encounters g core' wider),
      t ∈ c'.symbols ∧ c'.actions = c.actions := by
  obtain ⟨m, hm, hverdict⟩ := List.mem_filterMap.1 hc
  obtain ⟨e, he, r, hr, hmem, rfl⟩ := mem_encounters.1 hm
  obtain ⟨r', hr', hitem, htokens⟩ := exists_wider h hr
  obtain ⟨e', he', hsymbol⟩ := List.mem_map.1 (hsymbols ▸ List.mem_map_of_mem he)
  have hm' : (⟨e.symbol, r.item, g.verdict e.symbol r.rule⟩ : Encounter) ∈ encounters g core' wider := by
    refine mem_encounters.2 ⟨e', he', r', hr', ?_, ?_⟩
    · rw [hsymbol]; exact NatSet.subset_def.1 htokens _ hmem
    · rw [hsymbol, hitem, Reduction.rule, Reduction.rule, hitem]
  exact ⟨c, List.mem_filterMap.2 ⟨_, hm', hverdict⟩, ht, rfl⟩

end State

/-! ## Graphs of the same items -/

namespace Graph

variable {g : Grammar} {a b : Graph} {q s : StateId} {γ : List SymbolId} {t : SymbolId}

/-- States with the same kernel have the same items and read the same symbols. -/
theorem OfItems.eq_of_kernel (ha : a.OfItems g) (hb : b.OfItems g) (hq : q < a.size) (hs : s < b.size)
    (hkernel : (b.core s).kernel = (a.core q).kernel) :
    (b.core s).closure = (a.core q).closure ∧ (b.core s).items = (a.core q).items ∧
      (b.core s).edges.map Edge.symbol = (a.core q).edges.map Edge.symbol := by
  have hclosure : (b.core s).closure = (a.core q).closure := by
    rw [hb.closure_eq hs, ha.closure_eq hq, hkernel]
  have hitems : (b.core s).items = (a.core q).items := by
    rw [Core.items, Core.items, hkernel, hclosure]
  exact ⟨hclosure, hitems, by rw [hb.symbols_eq hs, ha.symbols_eq hq, hitems]⟩

/-- The same strings lead to states with the same kernel. -/
theorem OfItems.exists_reads (ha : a.OfItems g) (hb : b.OfItems g) (wf : g.WellFormed)
    (hγ : b.Reads StateId.start γ s) :
    ∃ q, q < a.size ∧ a.Reads StateId.start γ q ∧ (b.core s).kernel = (a.core q).kernel := by
  obtain ⟨q, hq⟩ := (ha.exists_reads_iff wf).2 ((hb.exists_reads_iff wf).1 ⟨s, hγ⟩)
  exact ⟨q, (ha.reads_kernel hq).1, hq, (hb.reads_kernel hγ).2.trans (ha.reads_kernel hq).2.symm⟩

/-- Two graphs of the items of a grammar, in the first of which no two states have the
    same kernel. -/
structure Merges (g : Grammar) (a b : Graph) : Prop where
  wf : g.WellFormed
  merged : a.OfItems g
  split : b.OfItems g
  reachable_merged : a.Reachable
  reachable_split : b.Reachable
  injective : ∀ {p q}, p < a.size → q < a.size → (a.core p).kernel = (a.core q).kernel → p = q

/-- **Shared lookaheads.**  The lookaheads of a reduction are those that the states
    with its kernel have together. -/
theorem Merges.mem_la_iff_exists (h : Merges g a b) (hq : q < a.size) {ρ : RuleId}
    (hi : (⟨ρ, (g.rhs ρ).length⟩ : Item) ∈ (a.core q).items) :
    t ∈ (Lookaheads.compute g a).la.getD ⟨q, ρ⟩ ∅ ↔ ∃ s, s < b.size ∧
      (b.core s).kernel = (a.core q).kernel ∧ t ∈ (Lookaheads.compute g b).la.getD ⟨s, ρ⟩ ∅ := by
  rw [Lookaheads.mem_la_iff h.merged h.wf h.reachable_merged hq hi]
  constructor
  · rintro ⟨γ, hγ, hfollows⟩
    obtain ⟨s, hs, hreads, hkernel⟩ := h.split.exists_reads h.merged h.wf hγ
    refine ⟨s, hs, hkernel.symm,
      (Lookaheads.mem_la_iff h.split h.wf h.reachable_split hs ?_).2 ⟨γ, hreads, hfollows⟩⟩
    rw [(h.merged.eq_of_kernel h.split hq hs hkernel.symm).2.1]; exact hi
  · rintro ⟨s, hs, hkernel, ht⟩
    rw [← (h.merged.eq_of_kernel h.split hq hs hkernel).2.1] at hi
    obtain ⟨γ, hγ, hfollows⟩ := (Lookaheads.mem_la_iff h.split h.wf h.reachable_split hs hi).1 ht
    obtain ⟨q', hq', hreads, hkernel'⟩ := h.merged.exists_reads h.split h.wf hγ
    obtain rfl := h.injective hq' hq (hkernel'.symm.trans hkernel)
    exact ⟨γ, hreads, hfollows⟩

/-- Whether lookaheads are needed depends on the items and the symbols read. -/
theorem needsLookahead_congr {c c' : Core} (hitems : c'.items = c.items)
    (hsymbols : c'.edges.map Edge.symbol = c.edges.map Edge.symbol) :
    State.needsLookahead g c' = State.needsLookahead g c := by
  have terminals : ∀ c : Core, (c.terminalEdges g).isEmpty =
      ((c.edges.map Edge.symbol).filter g.isTerminal).isEmpty := by
    intro c
    rw [List.filter_map, List.isEmpty_map]
    rfl
  rw [State.needsLookahead, State.needsLookahead, terminals, terminals, hsymbols, Core.completeItems,
    Core.completeItems, hitems]

/-- The reductions of a state are wider than those of a state of `b` with the same
    kernel. -/
theorem Merges.wider_reductionsAt (h : Merges g a b) (hq : q < a.size) (hs : s < b.size)
    (hkernel : (b.core s).kernel = (a.core q).kernel) :
    List.Forall₂ State.Wider (Automaton.reductionsAt g b s) (Automaton.reductionsAt g a q) := by
  obtain ⟨-, hitems, hsymbols⟩ := h.merged.eq_of_kernel h.split hq hs hkernel
  rw [Automaton.reductionsAt, Automaton.reductionsAt, State.reductionsOf, State.reductionsOf,
    Core.completeItems, Core.completeItems, hitems, List.forall₂_map_left_iff, List.forall₂_map_right_iff,
    List.forall₂_same, needsLookahead_congr hitems hsymbols]
  intro i hi
  obtain ⟨hi, hnext⟩ := Lookaheads.mem_completeItems.1 hi
  refine ⟨rfl, NatSet.subset_def.2 fun t ht => ?_⟩
  rw [Lookaheads.eq_complete h.merged h.wf h.reachable_merged hq hi hnext] at hi
  cases hneeds : State.needsLookahead g (a.core q)
  · rw [hneeds] at ht
    exact absurd ht (NatSet.not_mem_empty t)
  · simp only [hneeds, if_true] at ht
    exact (h.mem_la_iff_exists hq hi).2 ⟨s, hs, hkernel, ht⟩

end Graph

namespace Automaton

variable {g : Grammar} {a b : Graph} {q s : StateId}

/-- The items reduced in a state are its complete items. -/
theorem map_item_reductions (g : Grammar) (a : Graph) (hq : q < a.size) :
    ((ofGraph g a).state q).reductions.map Reduction.item = (a.core q).completeItems g := by
  rw [reductions_eq g a hq, reductionsAt, State.reductionsOf, List.map_map, List.map_map]
  exact List.map_id _

/-- **No new conflicts.**  A conflict of a state on a token is one of the state of
    `a` with the same kernel. -/
theorem exists_of_mem_conflicts (h : Graph.Merges g a b) (hq : q < a.size) (hs : s < b.size)
    (hkernel : (b.core s).kernel = (a.core q).kernel) {c : Conflict}
    (hc : c ∈ ((ofGraph g b).state s).conflicts) {t : SymbolId} (ht : t ∈ c.symbols) :
    ∃ c' ∈ ((ofGraph g a).state q).conflicts, t ∈ c'.symbols ∧ c'.actions = c.actions := by
  have hsymbols := (h.merged.eq_of_kernel h.split hq hs hkernel).2.2.symm
  have hwider := h.wider_reductionsAt hq hs hkernel
  rw [conflicts_eq g b hs] at hc
  rw [conflicts_eq g a hq]
  rcases List.mem_append.1 hc with hc | hc
  · obtain ⟨c', hc', h'⟩ := State.exists_of_mem_shiftReduceConflicts hsymbols hwider hc ht
    exact ⟨c', List.mem_append_left _ hc', h'⟩
  · obtain ⟨c', hc', h'⟩ := State.exists_of_mem_reduceReduceConflicts hwider hc ht
    exact ⟨c', List.mem_append_right _ hc', h'⟩

/-- **Splitting refines.**  The split automaton reads the strings that the LALR(1)
    automaton reads, and reaches states with the same kernel, closure, symbols
    read and items reduced.  The lookaheads of a reduction are those that the
    states with its kernel have together, and every conflict on a token is one
    between the same actions in the LALR(1) state with the same kernel. -/
theorem split_refines {decls : List Declaration} {g : Grammar} (h : Grammar.define decls = .ok g) :
    (∀ γ, ((∃ s, (split g (lalr g)).transition StateId.start γ = .ok s) ↔
        ∃ q, (lalr g).transition StateId.start γ = .ok q) ∧
      ∀ s q, (split g (lalr g)).transition StateId.start γ = .ok s →
        (lalr g).transition StateId.start γ = .ok q →
        ((split g (lalr g)).state s).kernel = ((lalr g).state q).kernel ∧
        ((split g (lalr g)).state s).closure = ((lalr g).state q).closure ∧
        ((split g (lalr g)).state s).edges.map Edge.symbol =
          ((lalr g).state q).edges.map Edge.symbol ∧
        ((split g (lalr g)).state s).reductions.map Reduction.item =
          ((lalr g).state q).reductions.map Reduction.item) ∧
    (∀ q, q < (lalr g).states.size → ∀ ρ, ρ ≠ RuleId.accept →
      (⟨ρ, (g.rhs ρ).length⟩ : Item) ∈ ((lalr g).state q).items →
      ∀ t, t ∈ (lalr g).lookaheads.la.getD ⟨q, ρ⟩ ∅ ↔ ∃ s, s < (split g (lalr g)).states.size ∧
        ((split g (lalr g)).state s).kernel = ((lalr g).state q).kernel ∧
        t ∈ (split g (lalr g)).lookaheads.la.getD ⟨s, ρ⟩ ∅) ∧
    ∀ s, s < (split g (lalr g)).states.size → ∃ q, q < (lalr g).states.size ∧
      ((split g (lalr g)).state s).kernel = ((lalr g).state q).kernel ∧
      ∀ c ∈ ((split g (lalr g)).state s).conflicts, ∀ t ∈ c.symbols,
        ∃ c' ∈ ((lalr g).state q).conflicts, t ∈ c'.symbols ∧ c'.actions = c.actions := by
  have wf := Grammar.wellFormed_of_define h
  have items := Lr0.ofItems_graph wf
  obtain ⟨b, hb, heq⟩ := (complete_lr0 wf).exists_split
  have merges : Graph.Merges g (Lr0.graph g) b :=
    ⟨wf, items, hb.toOfItems, Lr0.reachable_graph wf, hb.reachable, Lr0.kernel_injective wf⟩
  rw [lalr, heq]
  simp only [transition_eq_ok_iff, graph_ofGraph, toCore_state, size_ofGraph]
  refine ⟨fun γ => ⟨?_, fun s q hs hq => ?_⟩, fun q hq ρ _ hi t => ?_, fun s hs => ?_⟩
  · rw [hb.exists_reads_iff wf, items.exists_reads_iff wf]
  · obtain ⟨hslt, hskernel⟩ := hb.reads_kernel hs
    obtain ⟨hqlt, hqkernel⟩ := items.reads_kernel hq
    have hkernel := hskernel.trans hqkernel.symm
    obtain ⟨hclosure, hitems, hsymbols⟩ := items.eq_of_kernel hb.toOfItems hqlt hslt hkernel
    refine ⟨hkernel, hclosure, hsymbols, ?_⟩
    rw [map_item_reductions g b hslt, map_item_reductions g _ hqlt, Core.completeItems,
      Core.completeItems, hitems]
  · exact merges.mem_la_iff_exists hq hi
  · obtain ⟨γ, hγ⟩ := hb.reachable s hs
    obtain ⟨q, hq, -, hkernel⟩ := items.exists_reads hb.toOfItems wf hγ
    exact ⟨q, hq, hkernel, fun c hc t ht => exists_of_mem_conflicts merges hq hs hkernel hc ht⟩

/-- The theorem speaks of a grammar with a state that is split. -/
theorem split_refines_merged : ∃ g, Grammar.define Grammar.crossing = .ok g ∧
    (lalr g).states.size < (split g (lalr g)).states.size ∧
    ∀ γ, (∃ s, (split g (lalr g)).transition StateId.start γ = .ok s) ↔
      ∃ q, (lalr g).transition StateId.start γ = .ok q := by
  obtain ⟨g, hg, hsize⟩ := Grammar.exists_define Grammar.crossing
    (fun g => (lalr g).states.size < (split g (lalr g)).states.size) (by decide +kernel)
  exact ⟨g, hg, of_decide_eq_true hsize, fun γ => ((split_refines hg).1 γ).1⟩

end Automaton

end LRAutomata
