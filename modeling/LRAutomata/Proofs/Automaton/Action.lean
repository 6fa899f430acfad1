/-
  The actions of states, and the actions after a string.

  * `Grammar.Takes` are the actions on a token after a string, read off the
    viable items; `Grammar.Acts` are those of the canonical LR(1) automaton.
    The canonical ones are among them, acceptance apart, and in a grounded
    grammar they are the same (`WellFormed.takes_of_acts`, `Grounded.acts_of_takes`);
  * the actions of a state are those after the strings that lead to it
    (`Graph.offers_iff`), and a state has no conflict iff precedence decides
    between any two of them (`Automaton.conflicts_eq_nil_iff`).
-/
import Mathlib.Data.List.Pairwise
import LRAutomata.Automaton.Annotation
import LRAutomata.Proofs.Automaton.KernelLookahead

namespace LRAutomata

/-- The action is one on the token after the string, as far as the viable items
    tell. -/
def Grammar.Takes (g : Grammar) (γ : List SymbolId) : Action → SymbolId → Prop
  | .shift, t => g.isTerminal t = true ∧ ∃ i : Item, i.Viable g γ ∧ i.next? g = some t
  | .reduce ρ, t => ρ < g.rules.size ∧ Item.Ahead g γ ⟨ρ, (g.rhs ρ).length⟩ t

/-- The action is one on the token in the canonical LR(1) state of the string. -/
def Grammar.Acts (g : Grammar) (γ : List SymbolId) : Action → SymbolId → Prop
  | .shift, t => g.isTerminal t = true ∧ ∃ (i : Item) (u : SymbolId), i.Valid g γ u ∧
      i.next? g = some t
  | .reduce ρ, t => Item.Valid g γ ⟨ρ, (g.rhs ρ).length⟩ t

/-- What precedence says about a shift of the token and a reduction by the rule. -/
def Grammar.verdict (g : Grammar) (t : SymbolId) (ρ : RuleId) : Verdict :=
  .ofPrecedence (g.symbol t).precedence (g.rulePrecedence ρ)

/-- Precedence decides between the two actions on the token. -/
def Grammar.Decides (g : Grammar) (t : SymbolId) : Action → Action → Prop
  | .shift, .reduce ρ | .reduce ρ, .shift => g.verdict t ρ ≠ .undecided
  | _, _ => False

/-- Precedence settles the choice between a shift of the token and a reduction by
    the rule in this way. -/
def Grammar.Settles (g : Grammar) (t : SymbolId) (ρ : RuleId) (resolution : Resolution) : Prop :=
  ∃ byAssoc, g.verdict t ρ = .decided resolution byAssoc

/-- Precedence prefers the first action on the token to the second. -/
def Grammar.Prefers (g : Grammar) (t : SymbolId) : Action → Action → Prop
  | .shift, .reduce ρ => g.Settles t ρ .shift
  | .reduce ρ, .shift => g.Settles t ρ .reduce
  | _, _ => False

theorem Grammar.Settles.unique {g : Grammar} {t : SymbolId} {ρ : RuleId} {r r' : Resolution}
    (h : g.Settles t ρ r) (h' : g.Settles t ρ r') : r = r' := by
  obtain ⟨_, h⟩ := h
  obtain ⟨_, h'⟩ := h'
  rw [h] at h'
  exact (Verdict.decided.inj h').1

/-- The accepting symbol stands on no right-hand side. -/
def Grammar.Proper (g : Grammar) : Prop :=
  ∀ r, r < g.rules.size → g.accept ∉ g.rhs r

namespace Grammar

variable {g : Grammar} {γ : List SymbolId} {α β : Action} {t : SymbolId}

/-- Nothing follows the accepting symbol of a proper grammar. -/
theorem Proper.not_ahead (proper : g.Proper) (wf : g.WellFormed) {i : Item}
    (hi : i.rule = RuleId.accept) : ¬ i.Ahead g γ t := by
  rintro ⟨γ', -, hfollows⟩
  obtain ⟨j, hj, hnext⟩ := hfollows.exists_viable
  rw [Item.lhs, hi] at hnext
  exact proper j.rule (hj.inRange wf).1 (List.mem_of_getElem? hnext)

theorem Takes.isTerminal (h : g.Takes γ α t) : g.isTerminal t = true := by
  cases α with
  | shift => exact h.1
  | reduce ρ =>
    obtain ⟨-, γ', -, hfollows⟩ := h
    exact hfollows.isTerminal

/-- The rule to be reduced has been read. -/
theorem Takes.viable {ρ : RuleId} (h : g.Takes γ (.reduce ρ) t) :
    Item.Viable g γ ⟨ρ, (g.rhs ρ).length⟩ := by
  obtain ⟨hρ, γ', rfl, hfollows⟩ := h
  obtain ⟨i, hi, hnext⟩ := hfollows.exists_viable
  exact (hi.expand ⟨ρ, hρ, hnext, rfl⟩).read_take (i := ⟨ρ, 0⟩) _ (Nat.le_refl _)

/-- The canonical actions are among those that the viable items tell, acceptance
    apart. -/
theorem WellFormed.takes_of_acts (wf : g.WellFormed) (hα : α ≠ .reduce RuleId.accept)
    (h : g.Acts γ α t) : g.Takes γ α t := by
  cases α with
  | shift =>
    obtain ⟨ht, i, u, hi, hnext⟩ := h
    exact ⟨ht, i, hi.viable, hnext⟩
  | reduce ρ =>
    have hρ : ρ ≠ RuleId.accept := fun heq => hα (by rw [heq])
    exact ⟨(h.viable.inRange wf).1, wf.ahead_of_valid hρ h⟩

theorem Grounded.acts_of_takes (grounded : g.Grounded) (wf : g.WellFormed) (h : g.Takes γ α t) :
    g.Acts γ α t := by
  cases α with
  | shift =>
    obtain ⟨ht, i, hi, hnext⟩ := h
    obtain ⟨u, hu⟩ := grounded.exists_valid wf hi
    exact ⟨ht, i, u, hu, hnext⟩
  | reduce ρ =>
    obtain ⟨hρ, hahead⟩ := h
    exact grounded.valid_of_ahead wf hρ (Nat.le_refl _) hahead

end Grammar

/-! ## Reductions -/

namespace Graph

variable {g : Grammar} {a : Graph} {q : StateId} {i : Item}

/-- The kernel items of a state other than the start item have something before
    the dot. -/
theorem OfItems.eq_start_of_initial (h : a.OfItems g) (wf : g.WellFormed) (reach : a.Reachable)
    (hq : q < a.size) (hi : i ∈ (a.core q).kernel) (hpos : i.position = 0) : i = Item.start := by
  obtain ⟨γ, hγ⟩ := reach q hq
  rw [(h.reads_kernel hγ).2, ItemSet.mem_reached_iff_viable wf] at hi
  obtain ⟨-, ⟨-, rfl⟩ | ⟨-, hlt⟩⟩ := hi
  · rfl
  · omega

theorem OfItems.nodup_completeItems (h : a.OfItems g) (wf : g.WellFormed) (reach : a.Reachable)
    (hq : q < a.size) : ((a.core q).completeItems g).Nodup := by
  obtain ⟨γ, hγ⟩ := reach q hq
  have hkernel : (a.core q).kernel.Nodup := by
    rw [(h.reads_kernel hγ).2]; exact (ItemSet.sorted_reached g γ).nodup
  rw [Core.completeItems, h.items_eq hq, List.filter_append]
  refine (hkernel.filter _).append ((Grammar.nodup_closure g _).filter _) fun i hi hi' => ?_
  obtain ⟨hi, hnext⟩ := List.mem_filter.1 hi
  obtain ⟨r, -, -, rfl⟩ := Grammar.mem_closure.1 (List.mem_filter.1 hi').1
  -- Only the start item is in the kernel with its dot at the beginning.
  obtain rfl : r = RuleId.accept := congrArg Item.rule (h.eq_start_of_initial wf reach hq hi rfl)
  simp [Item.next?, wf.rhs_accept] at hnext

theorem OfItems.nodup_completeRules (h : a.OfItems g) (wf : g.WellFormed) (reach : a.Reachable)
    (hq : q < a.size) : (((a.core q).completeItems g).map Item.rule).Nodup := by
  refine List.Nodup.map_on (fun i hi j hj heq => ?_) (h.nodup_completeItems wf reach hq)
  obtain ⟨hi, hnext⟩ := Lookaheads.mem_completeItems.1 hi
  obtain ⟨hj, hnext'⟩ := Lookaheads.mem_completeItems.1 hj
  rw [Lookaheads.eq_complete h wf reach hq hi hnext, Lookaheads.eq_complete h wf reach hq hj hnext', heq]

/-- The state has the action on the token. -/
def Offers (g : Grammar) (a : Graph) (q : StateId) : Action → SymbolId → Prop
  | .shift, t => t ∈ (a.core q).terminals g
  | .reduce ρ, t => (⟨ρ, (g.rhs ρ).length⟩ : Item) ∈ (a.core q).items ∧
      t ∈ (Lookaheads.compute g a).la.getD ⟨q, ρ⟩ ∅

variable {α β : Action} {t : SymbolId}

/-- **The actions of a state** are those after the strings that lead to it. -/
theorem offers_iff (h : a.OfItems g) (wf : g.WellFormed) (reach : a.Reachable) (hq : q < a.size) :
    a.Offers g q α t ↔ ∃ γ, a.Reads StateId.start γ q ∧ g.Takes γ α t := by
  cases α with
  | shift =>
    rw [Offers, Lookaheads.mem_terminals h hq]
    constructor
    · rintro ⟨ht, i, hi, hnext⟩
      obtain ⟨γ, hγ⟩ := reach q hq
      exact ⟨γ, hγ, ht, i, (h.mem_items_iff wf hγ).1 hi, hnext⟩
    · rintro ⟨γ, hγ, ht, i, hi, hnext⟩
      exact ⟨ht, i, (h.mem_items_iff wf hγ).2 hi, hnext⟩
  | reduce ρ =>
    constructor
    · rintro ⟨hi, ht⟩
      obtain ⟨γ, hγ, hfollows⟩ := (Lookaheads.mem_la_iff h wf reach hq hi).1 ht
      have hρ := (((h.mem_items_iff wf hγ).1 hi).inRange wf).1
      exact ⟨γ ++ g.rhs ρ, hγ, hρ, γ, by rw [Item.before, List.take_length], hfollows⟩
    · rintro ⟨γ, hγ, htakes⟩
      have hi := (h.mem_items_iff wf hγ).2 htakes.viable
      obtain ⟨-, γ', rfl, hfollows⟩ := htakes
      rw [Item.before, List.take_length] at hγ
      exact ⟨hi, (Lookaheads.mem_la_iff h wf reach hq hi).2 ⟨γ', hγ, hfollows⟩⟩

/-- All strings that lead to a state have its shifts. -/
theorem takes_shift_iff (h : a.OfItems g) (wf : g.WellFormed) {γ : List SymbolId}
    (hγ : a.Reads StateId.start γ q) : g.Takes γ .shift t ↔ a.Offers g q .shift t := by
  rw [Offers, Lookaheads.mem_terminals h (h.reads_kernel hγ).1]
  simp only [Grammar.Takes, h.mem_items_iff wf hγ]

theorem Offers.isTerminal (h : a.OfItems g) (wf : g.WellFormed) (reach : a.Reachable)
    (hq : q < a.size) (ht : a.Offers g q α t) : g.isTerminal t = true := by
  obtain ⟨γ, -, htakes⟩ := (offers_iff h wf reach hq).1 ht
  exact htakes.isTerminal

/-- A state that can shift a token needs lookaheads. -/
theorem needsLookahead_of_shift (ht : a.Offers g q .shift t) :
    State.needsLookahead g (a.core q) = true := by
  obtain ⟨e, he, -⟩ := List.mem_map.1 (NatSet.mem_ofList.1 ht)
  cases hedges : (a.core q).terminalEdges g with
  | nil => rw [hedges] at he; cases he
  | cons => simp [State.needsLookahead, hedges]

/-- A state with two complete items needs lookaheads. -/
theorem needsLookahead_of_complete {ρ ρ' : RuleId}
    (hρ : (⟨ρ, (g.rhs ρ).length⟩ : Item) ∈ (a.core q).items)
    (hρ' : (⟨ρ', (g.rhs ρ').length⟩ : Item) ∈ (a.core q).items) (hne : ρ ≠ ρ') :
    State.needsLookahead g (a.core q) = true := by
  have hmem := Lookaheads.mem_completeItems.2 ⟨hρ, Lookaheads.next?_complete g ρ⟩
  have hmem' := Lookaheads.mem_completeItems.2 ⟨hρ', Lookaheads.next?_complete g ρ'⟩
  have hlength : ((a.core q).completeItems g).length ≠ 1 := by
    intro hone
    obtain ⟨i, hi⟩ := List.length_eq_one_iff.1 hone
    rw [hi, List.mem_singleton] at hmem hmem'
    exact hne (congrArg Item.rule (hmem.trans hmem'.symm))
  simp [State.needsLookahead, hlength]

/-- A state with two actions on a token needs lookaheads. -/
theorem needsLookahead_of_offers (hα : a.Offers g q α t) (hβ : a.Offers g q β t) (hne : α ≠ β) :
    State.needsLookahead g (a.core q) = true := by
  match α, β, hα, hβ, hne with
  | .shift, _, hα, _, _ => exact needsLookahead_of_shift hα
  | _, .shift, _, hβ, _ => exact needsLookahead_of_shift hβ
  | .reduce ρ, .reduce ρ', ⟨hρ, _⟩, ⟨hρ', _⟩, hne =>
    exact needsLookahead_of_complete hρ hρ' fun heq => hne (congrArg Action.reduce heq)

end Graph

/-! ## Conflicts -/

namespace State

variable {g : Grammar}

theorem shiftReduceConflicts_eq_nil_iff {met : List Encounter} :
    shiftReduceConflicts met = [] ↔ ∀ m ∈ met, m.verdict ≠ .undecided := by
  rw [shiftReduceConflicts, List.filterMap_eq_nil_iff]
  refine forall_congr' fun m => forall_congr' fun _ => ?_
  cases m.verdict <;> simp

theorem reduceReduceConflicts_eq_nil_iff : ∀ {reductions : List Reduction},
    reduceReduceConflicts reductions = [] ↔
      reductions.Pairwise fun r₁ r₂ => ∀ t, t ∈ r₁.tokens → t ∉ r₂.tokens
  | [] => by simp [reduceReduceConflicts]
  | r :: rest => by
    rw [reduceReduceConflicts, List.append_eq_nil_iff, reduceReduceConflicts_eq_nil_iff,
      List.pairwise_cons, List.filterMap_eq_nil_iff]
    refine and_congr_left fun _ => forall_congr' fun r₂ => forall_congr' fun _ => ?_
    have hempty : (r.tokens ∩ r₂.tokens).isEmpty = true ↔ ∀ t, t ∈ r.tokens → t ∉ r₂.tokens := by
      simp [NatSet.isEmpty_iff]
    rw [← hempty]
    simp

theorem mem_encounters {c : Core} {reductions : List Reduction} {m : Encounter} :
    m ∈ encounters g c reductions ↔ ∃ e ∈ c.edges, ∃ r ∈ reductions, e.symbol ∈ r.tokens ∧
      m = ⟨e.symbol, r.item, g.verdict e.symbol r.rule⟩ := by
  simp only [encounters, List.mem_flatMap, List.mem_map, List.mem_filter, decide_eq_true_eq, and_assoc]
  exact exists_congr fun e => and_congr_right fun _ => exists_congr fun r => and_congr_right fun _ =>
    and_congr_right fun _ => eq_comm

end State

namespace Automaton

variable {g : Grammar} {a : Graph} {q : StateId} {α β : Action} {t : SymbolId}

/-- The reductions of a state before any is deselected. -/
def reductionsAt (g : Grammar) (a : Graph) (q : StateId) : List Reduction :=
  State.reductionsOf g (Lookaheads.compute g a).la (a.core q) q

theorem mem_reductionsAt (h : a.OfItems g) (wf : g.WellFormed) (reach : a.Reachable)
    (hq : q < a.size) {red : Reduction} : red ∈ reductionsAt g a q ↔
      ∃ ρ, (⟨ρ, (g.rhs ρ).length⟩ : Item) ∈ (a.core q).items ∧ red = ⟨⟨ρ, (g.rhs ρ).length⟩,
        if State.needsLookahead g (a.core q) then (Lookaheads.compute g a).la.get? ⟨q, ρ⟩ else none,
        ∅, false⟩ := by
  simp only [reductionsAt, State.reductionsOf, List.mem_map]
  constructor
  · rintro ⟨i, hi, rfl⟩
    obtain ⟨hi, hnext⟩ := Lookaheads.mem_completeItems.1 hi
    have heq := Lookaheads.eq_complete h wf reach hq hi hnext
    rw [heq] at hi
    exact ⟨i.rule, hi, by rw [← heq]⟩
  · rintro ⟨ρ, hi, rfl⟩
    exact ⟨_, Lookaheads.mem_completeItems.2 ⟨hi, Lookaheads.next?_complete g ρ⟩, rfl⟩

/-- The actions of a state that needs lookaheads are those of its reductions. -/
theorem exists_reduction_iff (h : a.OfItems g) (wf : g.WellFormed) (reach : a.Reachable)
    (hq : q < a.size) {ρ : RuleId} : (∃ red ∈ reductionsAt g a q, red.rule = ρ ∧ t ∈ red.tokens) ↔
      State.needsLookahead g (a.core q) = true ∧ a.Offers g q (.reduce ρ) t := by
  simp only [mem_reductionsAt h wf reach hq]
  cases hneeds : State.needsLookahead g (a.core q)
  · simp only [Bool.false_eq_true, false_and, iff_false]
    rintro ⟨red, ⟨ρ', -, rfl⟩, -, ht⟩
    simp [Reduction.tokens] at ht
  · simp only [true_and, if_true]
    constructor
    · rintro ⟨red, ⟨ρ', hi, rfl⟩, rfl, ht⟩; exact ⟨hi, ht⟩
    · rintro ⟨hi, ht⟩; exact ⟨_, ⟨ρ, hi, rfl⟩, rfl, ht⟩

theorem nodup_reductionsAt (h : a.OfItems g) (wf : g.WellFormed) (reach : a.Reachable)
    (hq : q < a.size) : ((reductionsAt g a q).map Reduction.rule).Nodup := by
  have := h.nodup_completeRules wf reach hq
  simpa [reductionsAt, State.reductionsOf, Reduction.rule, Function.comp_def] using this

/-- The encounters of a state are its shifts and reductions on the same token. -/
theorem exists_encounter_iff (h : a.OfItems g) (wf : g.WellFormed) (reach : a.Reachable)
    (hq : q < a.size) {ρ : RuleId} {v : Verdict} :
    (∃ m ∈ State.encounters g (a.core q) (reductionsAt g a q), m.symbol = t ∧ m.item.rule = ρ ∧
      m.verdict = v) ↔ a.Offers g q .shift t ∧ a.Offers g q (.reduce ρ) t ∧ g.verdict t ρ = v := by
  constructor
  · rintro ⟨m, hm, rfl, rfl, rfl⟩
    obtain ⟨e, he, red, hred, ht, rfl⟩ := State.mem_encounters.1 hm
    obtain ⟨-, hoffers⟩ := (exists_reduction_iff h wf reach hq).1 ⟨red, hred, rfl, ht⟩
    exact ⟨NatSet.mem_ofList.2
      (List.mem_map_of_mem (List.mem_filter.2 ⟨he, hoffers.isTerminal h wf reach hq⟩)), hoffers, rfl⟩
  · rintro ⟨ht, hρ, rfl⟩
    have hneeds := Graph.needsLookahead_of_offers ht hρ (by simp)
    obtain ⟨e, he, rfl⟩ := List.mem_map.1 (NatSet.mem_ofList.1 ht)
    obtain ⟨red, hred, rfl, htokens⟩ := (exists_reduction_iff h wf reach hq).2 ⟨hneeds, hρ⟩
    exact ⟨_, State.mem_encounters.2 ⟨e, (List.mem_filter.1 he).1, red, hred, htokens, rfl⟩, rfl, rfl, rfl⟩

theorem conflicts_eq (g : Grammar) (a : Graph) (hq : q < a.size) :
    ((ofGraph g a).state q).conflicts =
      State.shiftReduceConflicts (State.encounters g (a.core q) (reductionsAt g a q)) ++
        State.reduceReduceConflicts (reductionsAt g a q) := by
  rw [state_ofGraph g a hq]; rfl

/-- **Conflicts of a state.**  There is none iff precedence decides between any
    two different actions on the same token. -/
theorem conflicts_eq_nil_iff (h : a.OfItems g) (wf : g.WellFormed) (reach : a.Reachable)
    (hq : q < a.size) : ((ofGraph g a).state q).conflicts = [] ↔
      ∀ t α β, a.Offers g q α t → a.Offers g q β t → α = β ∨ g.Decides t α β := by
  rw [conflicts_eq g a hq, List.append_eq_nil_iff, State.shiftReduceConflicts_eq_nil_iff,
    State.reduceReduceConflicts_eq_nil_iff]
  constructor
  · rintro ⟨hshift, hreduce⟩ t α β hα hβ
    by_cases hne : α = β
    · exact .inl hne
    have hneeds := Graph.needsLookahead_of_offers hα hβ hne
    have verdict : ∀ {ρ}, a.Offers g q .shift t → a.Offers g q (.reduce ρ) t →
        g.verdict t ρ ≠ .undecided := by
      intro ρ ht hρ
      obtain ⟨m, hm, -, -, hv⟩ := (exists_encounter_iff h wf reach hq).2 ⟨ht, hρ, rfl⟩
      rw [← hv]; exact hshift m hm
    match α, β, hα, hβ, hne with
    | .shift, .reduce ρ, hα, hβ, _ => exact .inr (verdict hα hβ)
    | .reduce ρ, .shift, hα, hβ, _ => exact .inr (verdict hβ hα)
    | .shift, .shift, _, _, hne => exact absurd rfl hne
    | .reduce ρ, .reduce ρ', hα, hβ, hne =>
      obtain ⟨r₁, hr₁, rfl, ht₁⟩ := (exists_reduction_iff h wf reach hq).2 ⟨hneeds, hα⟩
      obtain ⟨r₂, hr₂, rfl, ht₂⟩ := (exists_reduction_iff h wf reach hq).2 ⟨hneeds, hβ⟩
      have symm : Std.Symm fun r₁ r₂ : Reduction => ∀ t, t ∈ r₁.tokens → t ∉ r₂.tokens :=
        ⟨fun r s hrs t ht ht' => hrs t ht' ht⟩
      exact absurd ht₂ (hreduce.forall hr₁ hr₂ (fun heq => hne (by rw [heq])) t ht₁)
  · intro hall
    constructor
    · intro m hm
      obtain ⟨hshift, hreduce, hv⟩ := (exists_encounter_iff h wf reach hq).1 ⟨m, hm, rfl, rfl, rfl⟩
      rw [← hv]; exact (hall _ _ _ hshift hreduce).resolve_left (by simp)
    · refine (List.pairwise_map.1 (nodup_reductionsAt h wf reach hq)).imp_of_mem ?_
      intro r₁ r₂ hr₁ hr₂ hne t ht₁ ht₂
      obtain ⟨-, h₁⟩ := (exists_reduction_iff h wf reach hq).1 ⟨r₁, hr₁, rfl, ht₁⟩
      obtain ⟨-, h₂⟩ := (exists_reduction_iff h wf reach hq).1 ⟨r₂, hr₂, rfl, ht₂⟩
      rcases hall t _ _ h₁ h₂ with heq | hdecides
      · exact hne (Action.reduce.inj heq)
      · exact hdecides

/-- Precedence settles the choice between the shift and the reduction of a state,
    and not in favour of the action. -/
def Loses (g : Grammar) (a : Graph) (q : StateId) (t : SymbolId) (ρ : RuleId) (keeps : Resolution) :
    Prop :=
  a.Offers g q .shift t ∧ a.Offers g q (.reduce ρ) t ∧
    ∃ resolution, g.Settles t ρ resolution ∧ resolution ≠ keeps

theorem exists_resolved_iff (h : a.OfItems g) (wf : g.WellFormed) (reach : a.Reachable)
    (hq : q < a.size) {ρ : RuleId} {resolution : Resolution} :
    (∃ c ∈ ((ofGraph g a).state q).resolved, c.symbol = t ∧ c.rule = ρ ∧ c.resolution = resolution) ↔
      a.Offers g q .shift t ∧ a.Offers g q (.reduce ρ) t ∧ g.Settles t ρ resolution := by
  have resolved : ((ofGraph g a).state q).resolved =
      State.resolutions (State.encounters g (a.core q) (reductionsAt g a q)) := by
    rw [state_ofGraph g a hq]; rfl
  rw [resolved]
  simp only [State.resolutions, List.mem_filterMap]
  constructor
  · rintro ⟨c, ⟨m, hm, hc⟩, rfl, rfl, rfl⟩
    split at hc
    · cases hc
    · rename_i resolution byAssoc hv
      cases hc
      obtain ⟨hshift, hreduce, hverdict⟩ := (exists_encounter_iff h wf reach hq).1 ⟨m, hm, rfl, rfl, hv⟩
      exact ⟨hshift, hreduce, byAssoc, hverdict⟩
  · rintro ⟨hshift, hreduce, byAssoc, hverdict⟩
    obtain ⟨m, hm, rfl, rfl, hv⟩ := (exists_encounter_iff h wf reach hq).2 ⟨hshift, hreduce, hverdict⟩
    exact ⟨_, ⟨m, hm, by rw [hv]⟩, rfl, rfl, rfl⟩

theorem exists_lost_iff (h : a.OfItems g) (wf : g.WellFormed) (reach : a.Reachable) (hq : q < a.size)
    {ρ : RuleId} {keeps : Resolution} :
    (∃ c ∈ ((ofGraph g a).state q).resolved, c.resolution ≠ keeps ∧ c.symbol = t ∧ c.rule = ρ) ↔
      Loses g a q t ρ keeps := by
  constructor
  · rintro ⟨c, hc, hne, rfl, rfl⟩
    obtain ⟨hshift, hreduce, hsettles⟩ := (exists_resolved_iff h wf reach hq).1 ⟨c, hc, rfl, rfl, rfl⟩
    exact ⟨hshift, hreduce, _, hsettles, hne⟩
  · rintro ⟨hshift, hreduce, resolution, hsettles, hne⟩
    obtain ⟨c, hc, rfl, rfl, rfl⟩ := (exists_resolved_iff h wf reach hq).2 ⟨hshift, hreduce, hsettles⟩
    exact ⟨c, hc, hne, rfl, rfl⟩

theorem mem_deselectedShifts (h : a.OfItems g) (wf : g.WellFormed) (reach : a.Reachable)
    (hq : q < a.size) :
    t ∈ ((ofGraph g a).state q).deselectedShifts ↔ ∃ ρ, Loses g a q t ρ .shift := by
  have deselected : ((ofGraph g a).state q).deselectedShifts =
      State.losingShifts ((ofGraph g a).state q).resolved := by
    rw [state_ofGraph g a hq]; rfl
  simp only [← exists_lost_iff h wf reach hq, deselected, State.losingShifts, NatSet.mem_ofList,
    List.mem_map, List.mem_filter, decide_eq_true_eq]
  constructor
  · rintro ⟨c, ⟨hc, hne⟩, rfl⟩; exact ⟨c.rule, c, hc, hne, rfl, rfl⟩
  · rintro ⟨ρ, c, hc, hne, rfl, rfl⟩; exact ⟨c, ⟨hc, hne⟩, rfl⟩

theorem mem_losingTokens (h : a.OfItems g) (wf : g.WellFormed) (reach : a.Reachable)
    (hq : q < a.size) {ρ : RuleId} :
    t ∈ State.losingTokens ((ofGraph g a).state q).resolved ρ ↔ Loses g a q t ρ .reduce := by
  simp only [← exists_lost_iff h wf reach hq, State.losingTokens, NatSet.mem_ofList, List.mem_map,
    List.mem_filter, decide_eq_true_eq]
  constructor
  · rintro ⟨c, ⟨hc, rfl, hne⟩, rfl⟩; exact ⟨c, hc, hne, rfl, rfl⟩
  · rintro ⟨c, hc, hne, rfl, rfl⟩; exact ⟨c, ⟨hc, rfl, hne⟩, rfl⟩

theorem reductions_eq (g : Grammar) (a : Graph) (hq : q < a.size) :
    ((ofGraph g a).state q).reductions = (reductionsAt g a q).map fun r =>
      { r with
        deselected := State.losingTokens ((ofGraph g a).state q).resolved r.rule
        isDefault := ((ofGraph g a).state q).defaultRule = some r.rule } := by
  rw [state_ofGraph g a hq]; rfl

open LookaheadSources in
theorem mem_actionsOn (h : a.OfItems g) (wf : g.WellFormed) (reach : a.Reachable) (hq : q < a.size) :
    α ∈ actionsOn g ((ofGraph g a).state q) t ↔ a.Offers g q α t ∧
      (α = .shift ∨ State.needsLookahead g (a.core q) = true) := by
  rw [actionsOn, reductions_eq g a hq, toCore_state]
  cases α with
  | shift => simp [Graph.Offers]
  | reduce ρ =>
    rw [and_comm, or_iff_right (by simp), ← exists_reduction_iff h wf reach hq]
    simp only [List.mem_append, List.mem_map, List.mem_filter, decide_eq_true_eq]
    constructor
    · rintro (hshift | ⟨_, ⟨⟨red, hred, rfl⟩, ht⟩, hρ⟩)
      · split at hshift <;> simp at hshift
      · exact ⟨red, hred, Action.reduce.inj hρ, ht⟩
    · rintro ⟨red, hred, rfl, ht⟩; exact .inr ⟨_, ⟨⟨red, hred, rfl⟩, ht⟩, rfl⟩

open LookaheadSources in
theorem nodup_actionsOn (h : a.OfItems g) (wf : g.WellFormed) (reach : a.Reachable)
    (hq : q < a.size) (t : SymbolId) : (actionsOn g ((ofGraph g a).state q) t).Nodup := by
  have hrules : (((ofGraph g a).state q).reductions.map Reduction.rule).Nodup := by
    have := nodup_reductionsAt h wf reach hq
    rw [reductions_eq g a hq, List.map_map]
    exact this
  have hreduce : ((((ofGraph g a).state q).reductions.filter fun r => t ∈ r.tokens).map fun r =>
      Action.reduce r.rule).Nodup := by
    rw [← Function.comp_def Action.reduce, ← List.map_map]
    exact (hrules.sublist (List.filter_sublist.map _)).map fun _ _ => Action.reduce.inj
  rw [actionsOn]
  refine List.Nodup.append ?_ hreduce fun α hα hα' => ?_
  · split <;> simp
  · obtain ⟨r, -, rfl⟩ := List.mem_map.1 hα'
    split at hα <;> simp at hα

/-- An automaton counts no conflicts iff no state has any. -/
theorem counts_eq_zero_iff (a : Automaton) : a.shiftReduceCount = 0 ∧ a.reduceReduceCount = 0 ↔
    ∀ q, q < a.states.size → (a.state q).conflicts = [] := by
  have total_eq_zero : ∀ ns : List Nat, total ns = 0 ↔ ∀ n ∈ ns, n = 0 := by
    intro ns
    induction ns with
    | nil => simp [total]
    | cons n ns ih => simpa [total] using fun _ => ih
  have counts : ∀ s : State, s.shiftReduceCount = 0 ∧ s.reduceReduceCount = 0 ↔ s.conflicts = [] := by
    intro s
    cases hs : s.conflicts with
    | nil => simp [State.shiftReduceCount, State.reduceReduceCount, hs]
    | cons c rest =>
      cases hc : c.isShiftReduce <;> simp [State.shiftReduceCount, State.reduceReduceCount, hs, hc]
  simp only [shiftReduceCount, reduceReduceCount, total_eq_zero, List.forall_mem_map, ← forall_and,
    counts]
  constructor
  · intro hall q hq
    exact hall _ (by simp [state, Array.getD, hq])
  · intro hall s hs
    obtain ⟨q, hq, rfl⟩ := List.mem_iff_getElem.1 hs
    have hq' : q < a.states.size := by simpa using hq
    simpa [state, Array.getD, hq'] using hall q hq'

end Automaton

end LRAutomata
