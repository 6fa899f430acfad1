/-
  Every conflict has an example.

  The actions that collide in a state are offered by it (`Collides`).  So there
  is a path to each reduction, as the token is one of its lookaheads, and along
  the states of that path one to a shift of the token: the examples of a state
  show all its conflicts (`Counterexample.ofState_shows`).

  The right-hand sides of the grammar are taken to fit the positions (`Item`).
-/
import LRAutomata.Counterexample.Basic
import LRAutomata.Proofs.Automaton.Records
import LRAutomata.Proofs.Counterexample.Reduction
import LRAutomata.Proofs.Counterexample.Shift

namespace LRAutomata

variable {g : Grammar} {b : Graph} {q : StateId} {c : Conflict} {t : SymbolId}

/-! ## Conflicts -/

/-- The actions of the conflict are offered by the state, on all its tokens. -/
inductive Graph.Collides (g : Grammar) (b : Graph) (q : StateId) : Conflict → Prop
  | shiftReduce {t : SymbolId} {ρ : RuleId} : b.Offers g q .shift t → b.Offers g q (.reduce ρ) t →
      Collides g b q (.shiftReduce t ⟨ρ, (g.rhs ρ).length⟩)
  | reduceReduce {s : NatSet} {ρ₁ ρ₂ : RuleId} : s.isEmpty = false →
      (∀ t ∈ s, b.Offers g q (.reduce ρ₁) t ∧ b.Offers g q (.reduce ρ₂) t) →
      Collides g b q (.reduceReduce s.toList ⟨ρ₁, (g.rhs ρ₁).length⟩ ⟨ρ₂, (g.rhs ρ₂).length⟩)

/-- A state offers the actions of its conflicts. -/
theorem Automaton.Complete.collides (h : Complete g b) (wf : g.WellFormed) (hq : q < b.size)
    (hc : c ∈ ((ofGraph g b).state q).conflicts) : b.Collides g q c := by
  have complete : ∀ {r}, r ∈ reductionsAt g b q →
      r.item = ⟨r.rule, (g.rhs r.rule).length⟩ := by
    intro r hr
    obtain ⟨ρ, -, rfl⟩ := (mem_reductionsAt h.toOfItems wf h.reachable hq).1 hr
    rfl
  have offers : ∀ {r t}, r ∈ reductionsAt g b q → t ∈ r.tokens → b.Offers g q (.reduce r.rule) t :=
    fun {r t} hr ht => ((exists_reduction_iff h.toOfItems wf h.reachable hq).1 ⟨r, hr, rfl, ht⟩).2
  rw [conflicts_eq g b hq, List.mem_append] at hc
  cases c with
  | shiftReduce t i =>
    obtain ⟨m, hm, rfl, rfl, -⟩ :=
      State.mem_shiftReduceConflicts.1 (hc.resolve_right State.shiftReduce_not_mem)
    obtain ⟨hshift, hreduce, -⟩ :=
      (exists_encounter_iff h.toOfItems wf h.reachable hq).1 ⟨m, hm, rfl, rfl, rfl⟩
    obtain ⟨e, he, r, hr, ht, rfl⟩ := State.mem_encounters.1 hm
    dsimp only at hshift hreduce ⊢
    rw [complete hr]
    exact .shiftReduce hshift hreduce
  | reduceReduce ts i₁ i₂ =>
    obtain ⟨_, _, r₁, r₂, -, h₁, h₂, hnonempty, heq⟩ :=
      State.mem_reduceReduceConflicts.1 (hc.resolve_left State.reduceReduce_not_mem)
    have hr₁ := List.mem_of_getElem? h₁
    have hr₂ := List.mem_of_getElem? h₂
    rw [heq, complete hr₁, complete hr₂]
    exact .reduceReduce hnonempty fun t ht =>
      ⟨offers hr₁ (NatSet.mem_inter.1 ht).1, offers hr₂ (NatSet.mem_inter.1 ht).2⟩

/-! ## Examples -/

namespace Counterexample

open Automaton

/-- The paths lead to the two actions of the conflict in the state `q`: to an item
    with the token after its dot and to the reduction, through the same states, or
    to the two reductions. -/
def LeadTo (g : Grammar) (a : Automaton) (q : StateId) (path₁ path₂ : List PathStep) :
    Conflict → Prop
  | .shiftReduce t reduce =>
    (∃ i ∈ (a.state q).items, i.next? g = some t ∧ IsPath g a path₁ ⟨q, i⟩) ∧
      IsPath g a path₂ ⟨q, reduce⟩ ∧ PathStep.entered path₁ = PathStep.entered path₂
  | .reduceReduce _ reduce₁ reduce₂ => IsPath g a path₁ ⟨q, reduce₁⟩ ∧ IsPath g a path₂ ⟨q, reduce₂⟩

/-- The example shows how a parser comes to the conflict in the state `q`, on the
    least of its tokens. -/
structure Shows (g : Grammar) (a : Automaton) (q : StateId) (c : Conflict) (x : Counterexample) :
    Prop where
  conflict_eq : x.conflict = c
  symbol_mem : x.symbol ∈ c.symbols
  symbol_le : ∀ t ∈ c.symbols, x.symbol ≤ t
  paths : ∃ path₁ path₂, x.path₁ = some path₁ ∧ x.path₂ = some path₂ ∧ LeadTo g a q path₁ path₂ c

/-- A reduction has a path on every token of its lookahead. -/
theorem exists_path_reduce (h : Complete g b) (wf : g.WellFormed) (hq : q < b.size) {ρ : RuleId}
    (ht : b.Offers g q (.reduce ρ) t) : ∃ l,
      shortestPath? g (ofGraph g b) q ⟨ρ, (g.rhs ρ).length⟩ t =
        some (PathStep.path (⟨q, ⟨ρ, (g.rhs ρ).length⟩⟩ :: l).reverse) ∧
      Route g (ofGraph g b) (⟨q, ⟨ρ, (g.rhs ρ).length⟩⟩ :: l) := by
  obtain ⟨s, ht, hs⟩ := exists_reached_of_offers h wf hq ht
  obtain ⟨path, hpath⟩ := exists_shortestPath? h wf hs ht
  obtain ⟨l, hl, rfl⟩ := exists_route_of_shortestPath? hpath
  exact ⟨l, hpath, hl⟩

/-- A token that can be shifted stands after the dot of an item. -/
theorem exists_find?_of_offers (h : Complete g b) (hq : q < b.size) (ht : b.Offers g q .shift t) :
    ∃ i, ((ofGraph g b).state q).items.find? (fun i => i.next? g = some t) = some i ∧
      i ∈ ((ofGraph g b).state q).items ∧ i.next? g = some t := by
  obtain ⟨-, i, hi, hnext⟩ := (Lookaheads.mem_terminals h.toOfItems hq).1 ht
  rw [toCore_state]
  cases hfind : (b.core q).items.find? fun i => i.next? g = some t with
  | none => exact absurd (decide_eq_true hnext) (List.find?_eq_none.1 hfind i hi)
  | some j => exact ⟨j, rfl, List.mem_of_find?_eq_some hfind, by simpa using List.find?_some hfind⟩

/-- Whatever collides has an example. -/
theorem exists_ofConflict? (h : Complete g b) (wf : g.WellFormed) (hq : q < b.size)
    (hc : b.Collides g q c) :
    ∃ x, ofConflict? g (ofGraph g b) q c = some x ∧ Shows g (ofGraph g b) q c x := by
  cases hc with
  | @shiftReduce t ρ hshift hreduce =>
    obtain ⟨i, hfind, hi, hnext⟩ := exists_find?_of_offers h hq hshift
    obtain ⟨l₂, hpath₂, hl₂⟩ := exists_path_reduce h wf hq hreduce
    obtain ⟨γ, hγ, hvisits⟩ := hl₂.exists_visits h wf
    have hstands : StateItem.Stands (ofGraph g b) ⟨q, i⟩ := ⟨by rwa [size_ofGraph], hi⟩
    obtain ⟨path₁, hpath₁⟩ := exists_shiftPath? h wf hvisits hγ hstands
    obtain ⟨l₁, hl₁, rfl, hentered⟩ := exists_route_of_shiftPath? h wf hvisits hstands hpath₁
    refine ⟨_, rfl, rfl, List.mem_singleton.2 rfl, fun u hu => Nat.le_of_eq (List.mem_singleton.1 hu).symm,
      _, _, ?_, hpath₂, ⟨i, hi, hnext, hl₁.isPath h wf⟩, hl₂.isPath h wf, hentered⟩
    show ((shortestPath? g (ofGraph g b) q _ t).bind fun path =>
      (((ofGraph g b).state q).items.find? fun i => i.next? g = some t).bind
        (shiftPath? g (ofGraph g b) path q)) = _
    rw [hpath₂, hfind]
    exact hpath₁
  | @reduceReduce s ρ₁ ρ₂ hnonempty hreduce =>
    have hsorted := s.pairwise_toList
    cases htokens : s.toList with
    | nil =>
      obtain ⟨n, hn⟩ := NatSet.isEmpty_eq_false_iff.1 hnonempty
      rw [← NatSet.mem_toList, htokens] at hn
      cases hn
    | cons t rest =>
      rw [htokens] at hsorted
      have ht : t ∈ s := NatSet.mem_toList.1 (htokens ▸ List.mem_cons_self)
      obtain ⟨l₁, hpath₁, hl₁⟩ := exists_path_reduce h wf hq (hreduce t ht).1
      obtain ⟨l₂, hpath₂, hl₂⟩ := exists_path_reduce h wf hq (hreduce t ht).2
      refine ⟨_, rfl, rfl, List.mem_cons_self, fun u hu => ?_, _, _, hpath₁, hpath₂,
        hl₁.isPath h wf, hl₂.isPath h wf⟩
      rcases List.mem_cons.1 hu with rfl | hu
      · exact Nat.le_refl _
      · exact Nat.le_of_lt ((List.pairwise_cons.1 hsorted).1 u hu)

theorem forall₂_filterMap {α β : Type} {P : α → β → Prop} {f : α → Option β} :
    ∀ {as : List α}, (∀ a ∈ as, ∃ x, f a = some x ∧ P a x) → List.Forall₂ P as (as.filterMap f)
  | [], _ => .nil
  | a :: as, h => by
    obtain ⟨⟨x, hx, hP⟩, hrest⟩ := List.forall_mem_cons.1 h
    rw [List.filterMap_cons_some hx]
    exact .cons hP (forall₂_filterMap hrest)

/-- **Every conflict has an example.**  In both modes the examples of a state are
    found, one for each of its conflicts, in their order.  An example is on the
    least token of its conflict, and has two paths from the start item, to the
    actions that collide; to a shift and a reduction they go through the same
    states. -/
theorem ofState_shows {decls : List Declaration} (hg : Grammar.define decls = .ok g) (mode : Mode)
    (hq : q < (generate g mode).states.size) : ∃ examples,
      ofState g (generate g mode) q = .ok examples ∧
      List.Forall₂ (Shows g (generate g mode) q) ((generate g mode).state q).conflicts examples := by
  have wf := Grammar.wellFormed_of_define hg
  obtain ⟨b, hb, heq⟩ := exists_complete_generate wf mode
  rw [heq] at hq ⊢
  have hlt : q < b.size := by rwa [size_ofGraph] at hq
  refine ⟨_, ?_, forall₂_filterMap fun c hc => exists_ofConflict? hb wf hlt (hb.collides wf hlt hc)⟩
  rw [ofState, Array.getElem?_eq_getElem hq, Automaton.state, Array.getD_eq_getD_getElem?,
    Array.getElem?_eq_getElem hq]
  rfl

/-- The theorem speaks of conflicts of both kinds: after `'x'` there are two
    reductions and a shift on `'y'`. -/
theorem ofState_shows_threefold : ∃ g, Grammar.define
      [.rule ⟨"S", ["A", "'y'"], none, 1⟩, .rule ⟨"S", ["B", "'y'"], none, 2⟩,
        .rule ⟨"S", ["'x'", "'y'"], none, 3⟩, .rule ⟨"A", ["'x'"], none, 4⟩,
        .rule ⟨"B", ["'x'"], none, 5⟩] = .ok g ∧
    ∃ examples, ofState g (generate g .ielr) 1 = .ok examples ∧
      List.Forall₂ (Shows g (generate g .ielr) 1)
        [.shiftReduce 3 ⟨4, 1⟩, .shiftReduce 3 ⟨5, 1⟩, .reduceReduce [3] ⟨4, 1⟩ ⟨5, 1⟩] examples := by
  obtain ⟨g, hg, hcheck⟩ := Grammar.exists_define
    [.rule ⟨"S", ["A", "'y'"], none, 1⟩, .rule ⟨"S", ["B", "'y'"], none, 2⟩,
      .rule ⟨"S", ["'x'", "'y'"], none, 3⟩, .rule ⟨"A", ["'x'"], none, 4⟩,
      .rule ⟨"B", ["'x'"], none, 5⟩]
    (fun g => decide (1 < (generate g .ielr).states.size ∧ ((generate g .ielr).state 1).conflicts =
      [.shiftReduce 3 ⟨4, 1⟩, .shiftReduce 3 ⟨5, 1⟩, .reduceReduce [3] ⟨4, 1⟩ ⟨5, 1⟩]))
    (by decide +kernel)
  obtain ⟨hq, hconflicts⟩ := of_decide_eq_true hcheck
  obtain ⟨examples, hexamples, hshows⟩ := ofState_shows hg .ielr hq
  rw [hconflicts] at hshows
  exact ⟨g, hg, examples, hexamples, hshows⟩

end Counterexample

end LRAutomata
