/-
  The actions of a state that remain when precedence has chosen.

  A state without conflicts selects an action and no other iff precedence
  prefers the action to all others of the state (`Automaton.selects_iff`).
-/
import LRAutomata.Proofs.Automaton.Action

namespace LRAutomata

/-- The action on the token remains: a shift that is not marked, or a reduction
    with the token among those selected.  A reduction without lookahead is taken
    on every token. -/
def State.Selects (s : State) : Action → SymbolId → Prop
  | .shift, t => (∃ e ∈ s.edges, e.symbol = t) ∧ s.isSelected t = true
  | .reduce ρ, t => ∃ red ∈ s.reductions, red.rule = ρ ∧ (red.lookahead = none ∨ t ∈ red.selected)

instance (s : State) (α : Action) (t : SymbolId) : Decidable (s.Selects α t) :=
  match α with
  | .shift => inferInstanceAs (Decidable ((∃ e ∈ s.edges, e.symbol = t) ∧ s.isSelected t = true))
  | .reduce ρ => inferInstanceAs (Decidable (∃ red ∈ s.reductions, red.rule = ρ ∧
      (red.lookahead = none ∨ t ∈ red.selected)))

/-- Precedence has chosen so between a shift of the token and a reduction. -/
def State.Resolves (s : State) (t : SymbolId) (resolution : Resolution) : Prop :=
  ∃ c ∈ s.resolved, c.symbol = t ∧ c.resolution = resolution

instance (s : State) (t : SymbolId) (resolution : Resolution) : Decidable (s.Resolves t resolution) :=
  inferInstanceAs (Decidable (∃ c ∈ s.resolved, c.symbol = t ∧ c.resolution = resolution))

/-- The end marker stands on no right-hand side but that of the accepting rule. -/
def Grammar.EndsOnce (g : Grammar) : Prop :=
  ∀ r, r < g.rules.size → r ≠ RuleId.accept → SymbolId.endMarker ∉ g.rhs r

variable {g : Grammar} {a : Graph} {q : StateId} {γ : List SymbolId} {α β : Action} {t : SymbolId}

/-- Where the accepting rule is complete there is no other item. -/
theorem Grammar.EndsOnce.eq_complete (ends : g.EndsOnce) (wf : g.WellFormed) {i : Item}
    (haccept : Item.Viable g γ ⟨RuleId.accept, (g.rhs RuleId.accept).length⟩) (hi : i.Viable g γ) :
    i = ⟨RuleId.accept, (g.rhs RuleId.accept).length⟩ := by
  obtain ⟨γ', rfl, -⟩ := haccept.initial
  have hbefore : γ' ++ Item.before g ⟨RuleId.accept, (g.rhs RuleId.accept).length⟩ =
      (γ' ++ [g.start]) ++ [SymbolId.endMarker] := by
    rw [Item.before, List.take_length, wf.rhs_accept]; simp
  rw [hbefore] at hi
  obtain ⟨j, hj, hnext, hji⟩ := Item.viable_snoc_iff.1 hi
  have hrule : j.rule = RuleId.accept := by
    by_contra hne
    exact ends _ (hj.inRange wf).1 hne (List.mem_of_getElem? hnext)
  have hadvance : j.advance = ⟨RuleId.accept, (g.rhs RuleId.accept).length⟩ := by
    rw [Item.next?, hrule, wf.rhs_accept] at hnext
    have hstart : g.start ≠ SymbolId.endMarker := by
      intro heq
      have := wf.start_nonterminal
      rw [heq, wf.terminal_endMarker] at this
      cases this
    rcases hpos : j.position with _ | _ | n
    · rw [hpos] at hnext; exact absurd (Option.some.inj hnext) hstart
    · rw [Item.advance, hrule, hpos, wf.rhs_accept]; rfl
    · rw [hpos] at hnext; cases hnext
  rw [hadvance] at hji
  -- Nothing is expanded from a complete item.
  rcases Relation.ReflTransGen.cases_head hji with heq | ⟨k, ⟨r, -, hnext, -⟩, -⟩
  · exact heq.symm
  · rw [Lookaheads.next?_complete] at hnext; cases hnext

/-- No other action is taken where the accepting rule is complete. -/
theorem Grammar.EndsOnce.eq_accept_of_takes (ends : g.EndsOnce) (wf : g.WellFormed)
    (haccept : Item.Viable g γ ⟨RuleId.accept, (g.rhs RuleId.accept).length⟩) (h : g.Takes γ α t) :
    α = .reduce RuleId.accept := by
  cases α with
  | shift =>
    obtain ⟨-, i, hi, hnext⟩ := h
    rw [ends.eq_complete wf haccept hi, Lookaheads.next?_complete] at hnext
    cases hnext
  | reduce ρ => exact congrArg Action.reduce (congrArg Item.rule (ends.eq_complete wf haccept h.viable))

namespace Automaton

theorem selects_shift_iff (h : a.OfItems g) (wf : g.WellFormed) (reach : a.Reachable)
    (hq : q < a.size) (ht : g.isTerminal t = true) : ((ofGraph g a).state q).Selects .shift t ↔
      a.Offers g q .shift t ∧ ∀ ρ, ¬ Loses g a q t ρ .shift := by
  have hedge : (∃ e ∈ (a.core q).edges, e.symbol = t) ↔ a.Offers g q .shift t := by
    simp only [Graph.Offers, Core.terminals, Core.terminalEdges, NatSet.mem_ofList, List.mem_map,
      List.mem_filter]
    constructor
    · rintro ⟨e, he, rfl⟩; exact ⟨e, ⟨he, ht⟩, rfl⟩
    · rintro ⟨e, ⟨he, -⟩, rfl⟩; exact ⟨e, he, rfl⟩
  rw [State.Selects, State.isSelected, decide_eq_true_eq, mem_deselectedShifts h wf reach hq,
    toCore_state, hedge, not_exists]

theorem selects_reduce_iff (h : a.OfItems g) (wf : g.WellFormed) (reach : a.Reachable)
    (hq : q < a.size) {ρ : RuleId} (hρ : ρ ≠ RuleId.accept) :
    ((ofGraph g a).state q).Selects (.reduce ρ) t ↔
      (⟨ρ, (g.rhs ρ).length⟩ : Item) ∈ (a.core q).items ∧
        (State.needsLookahead g (a.core q) = true →
          a.Offers g q (.reduce ρ) t ∧ ¬ Loses g a q t ρ .reduce) := by
  have hselects : ((ofGraph g a).state q).Selects (.reduce ρ) t ↔
      ∃ red ∈ reductionsAt g a q, red.rule = ρ ∧ (red.lookahead = none ∨
        t ∈ red.tokens ∧ ¬ Loses g a q t ρ .reduce) := by
    simp only [State.Selects, reductions_eq g a hq, List.mem_map, exists_exists_and_eq_and]
    refine exists_congr fun red => and_congr_right fun _ => and_congr_right ?_
    rintro rfl
    rw [← mem_losingTokens h wf reach hq]
    exact or_congr_right NatSet.mem_sdiff
  simp only [hselects, mem_reductionsAt h wf reach hq]
  constructor
  · rintro ⟨red, ⟨ρ', hi, rfl⟩, rfl, hla⟩
    refine ⟨hi, fun hneeds => ?_⟩
    simp only [hneeds, if_true, Reduction.tokens] at hla
    -- A state has a lookahead set for each of its reductions but acceptance.
    rcases hla with hnone | ⟨ht, hloses⟩
    · have hkey := OrderedMap.mem_keys_iff.1 (Lookaheads.mem_keys_la h wf reach hq hρ hi)
      exact absurd hnone (Option.isSome_iff_ne_none.1 hkey)
    · exact ⟨⟨hi, ht⟩, hloses⟩
  · rintro ⟨hi, hneeds⟩
    refine ⟨_, ⟨ρ, hi, rfl⟩, rfl, ?_⟩
    cases hla : State.needsLookahead g (a.core q)
    · exact .inl rfl
    · obtain ⟨⟨-, ht⟩, hloses⟩ := hneeds hla
      exact .inr ⟨ht, hloses⟩

section NoConflicts

variable (h : a.OfItems g) (wf : g.WellFormed) (reach : a.Reachable) (hq : q < a.size)
  (hconflicts : ((ofGraph g a).state q).conflicts = [])

include h wf reach hq hconflicts

/-- The choice between a shift and a reduction of a state is settled. -/
theorem exists_settles {ρ : RuleId} (hshift : a.Offers g q .shift t)
    (hreduce : a.Offers g q (.reduce ρ) t) : ∃ resolution, g.Settles t ρ resolution := by
  have hdecides := ((conflicts_eq_nil_iff h wf reach hq).1 hconflicts t _ _ hshift hreduce).resolve_left
    (by simp)
  have hdecides : g.verdict t ρ ≠ .undecided := hdecides
  cases hv : g.verdict t ρ with
  | undecided => exact absurd hv hdecides
  | decided resolution byAssoc => exact ⟨resolution, byAssoc, hv⟩

theorem eq_of_offers_reduce {ρ ρ' : RuleId} (hρ : a.Offers g q (.reduce ρ) t)
    (hρ' : a.Offers g q (.reduce ρ') t) : ρ = ρ' := by
  rcases (conflicts_eq_nil_iff h wf reach hq).1 hconflicts t _ _ hρ hρ' with heq | hfalse
  · exact Action.reduce.inj heq
  · cases hfalse

theorem selects_only_shift_iff (hshift : a.Offers g q .shift t) :
    (∀ β, β ≠ .reduce RuleId.accept → (((ofGraph g a).state q).Selects β t ↔ β = .shift)) ↔
      ∀ ρ, a.Offers g q (.reduce ρ) t → g.Settles t ρ .shift := by
  have ht := hshift.isTerminal h wf reach hq
  constructor
  · intro honly ρ hρ
    obtain ⟨resolution, hsettles⟩ := exists_settles h wf reach hq hconflicts hshift hρ
    by_cases heq : resolution = .shift
    · rwa [← heq]
    · have hselects := (selects_shift_iff h wf reach hq ht).1 ((honly .shift (by simp)).2 rfl)
      exact absurd ⟨hshift, hρ, resolution, hsettles, heq⟩ (hselects.2 ρ)
  · intro hall β hβ
    cases β with
    | shift =>
      refine iff_of_true ((selects_shift_iff h wf reach hq ht).2 ⟨hshift, ?_⟩) rfl
      rintro ρ ⟨-, hρ, resolution, hsettles, hne⟩
      exact hne (hsettles.unique (hall ρ hρ))
    | reduce ρ =>
      refine iff_of_false (fun hselects => ?_) (by simp)
      have hneeds := Graph.needsLookahead_of_shift hshift
      obtain ⟨-, hselects⟩ := (selects_reduce_iff h wf reach hq (by simpa using hβ)).1 hselects
      obtain ⟨hρ, hloses⟩ := hselects hneeds
      exact hloses ⟨hshift, hρ, .shift, hall ρ hρ, by simp⟩

theorem selects_only_reduce_iff {ρ : RuleId} (haccept : ρ ≠ RuleId.accept)
    (hρ : a.Offers g q (.reduce ρ) t) :
    (∀ β, β ≠ .reduce RuleId.accept → (((ofGraph g a).state q).Selects β t ↔ β = .reduce ρ)) ↔
      (a.Offers g q .shift t → g.Settles t ρ .reduce) := by
  have ht := hρ.isTerminal h wf reach hq
  constructor
  · intro honly hshift
    obtain ⟨resolution, hsettles⟩ := exists_settles h wf reach hq hconflicts hshift hρ
    by_cases heq : resolution = .reduce
    · rwa [← heq]
    · have hselects := (honly (.reduce ρ) (by simpa using haccept)).2 rfl
      obtain ⟨-, hselects⟩ := (selects_reduce_iff h wf reach hq haccept).1 hselects
      obtain ⟨-, hloses⟩ := hselects (Graph.needsLookahead_of_shift hshift)
      exact absurd ⟨hshift, hρ, resolution, hsettles, heq⟩ hloses
  · intro hsettles β hβ
    cases β with
    | shift =>
      refine iff_of_false (fun hselects => ?_) (by simp)
      obtain ⟨hshift, hkeeps⟩ := (selects_shift_iff h wf reach hq ht).1 hselects
      exact hkeeps ρ ⟨hshift, hρ, .reduce, hsettles hshift, by simp⟩
    | reduce ρ' =>
      rw [selects_reduce_iff h wf reach hq (by simpa using hβ)]
      constructor
      · rintro ⟨hi, hselects⟩
        by_contra hne
        have hneeds := Graph.needsLookahead_of_complete hi hρ.1 fun heq => hne (by rw [heq])
        exact hne (congrArg Action.reduce
          (eq_of_offers_reduce h wf reach hq hconflicts (hselects hneeds).1 hρ))
      · intro heq
        obtain rfl := Action.reduce.inj heq
        refine ⟨hρ.1, fun _ => ⟨hρ, ?_⟩⟩
        rintro ⟨hshift, -, resolution, hresolution, hne⟩
        exact hne (hresolution.unique (hsettles hshift))

/-- **Selected actions.**  A state without conflicts selects an action on a token
    and no other iff precedence prefers it to all others on the token. -/
theorem selects_iff (hα : α ≠ .reduce RuleId.accept) (hoffers : a.Offers g q α t) :
    (∀ β, β ≠ .reduce RuleId.accept → (((ofGraph g a).state q).Selects β t ↔ β = α)) ↔
      ∀ β, a.Offers g q β t → β = α ∨ g.Prefers t α β := by
  cases α with
  | shift =>
    rw [selects_only_shift_iff h wf reach hq hconflicts hoffers]
    constructor
    · intro hall β hβ
      cases β with
      | shift => exact .inl rfl
      | reduce ρ => exact .inr (hall ρ hβ)
    · exact fun hall ρ hρ => (hall _ hρ).resolve_left (by simp)
  | reduce ρ =>
    rw [selects_only_reduce_iff h wf reach hq hconflicts (by simpa using hα) hoffers]
    constructor
    · intro hshift β hβ
      cases β with
      | shift => exact .inr (hshift hβ)
      | reduce ρ' =>
        exact .inl (congrArg Action.reduce (eq_of_offers_reduce h wf reach hq hconflicts hβ hoffers))
    · exact fun hall hshift => (hall _ hshift).resolve_left (by simp)

end NoConflicts

end Automaton

end LRAutomata
