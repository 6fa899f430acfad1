/-
  What splitting achieves.

  Where the annotations for an inadequacy are in step, strings that lead to the
  same split state and call for different actions share the actions that
  precedence keeps (`Automaton.exists_separates`).  If in addition the lookaheads
  are the canonical ones,

  * the split automaton of an LR(1) grammar has no conflicts
    (`Automaton.conflictFree_of_isLr1`);
  * where precedence has settled all conflicts, the only canonical action of a
    string is the one that is selected; if it has chosen an error, as long as no
    string to the same state calls for another (`Automaton.selects_canonical`).

  Neither holds without these conditions.

  The right-hand sides of the grammar are taken to fit the positions (`Item`).
-/
import LRAutomata.Proofs.Automaton.Canonical
import LRAutomata.Proofs.Automaton.Inadequacy
import LRAutomata.Proofs.Automaton.Refinement
import LRAutomata.Proofs.Automaton.Selection
import LRAutomata.Proofs.Automaton.Separation

namespace LRAutomata.Automaton

open LookaheadSources

variable {g : Grammar} {a : Graph} {q s : StateId} {γ δ : List SymbolId} {α β : Action} {t : SymbolId}

/-! ## Strings that are separated -/

/-- Precedence keeps the action of a state on a token. -/
def Survives (g : Grammar) (a : Graph) (q : StateId) (t : SymbolId) : Action → Prop
  | .shift => ∀ ρ, ¬ Loses g a q t ρ .shift
  | .reduce ρ => ¬ Loses g a q t ρ .reduce

/-- Only where a token is shifted precedence drops an action. -/
theorem offers_shift_of_not_survives (h : ¬ Survives g a q t α) : a.Offers g q .shift t := by
  cases α with
  | shift =>
    obtain ⟨ρ, hloses⟩ := not_forall.1 h
    exact (not_not.1 hloses).1
  | reduce ρ => exact (not_not.1 h).1

theorem isSelected_iff (items : a.OfItems g) (wf : g.WellFormed) (reach : a.Reachable)
    (hq : q < a.size) (hα : a.Offers g q α t) :
    (Splitting.prepare g (.ofGraph g a)).isSelected ⟨q, t⟩ α = true ↔ Survives g a q t α := by
  cases α with
  | shift => exact Splitting.isSelected_shift items wf reach hq hα
  | reduce ρ => exact Splitting.isSelected_reduce items wf reach hq hα.1

/-- The graph separates strings: if two that lead to the same state take different
    actions on a token for which annotations are in step, each takes what the other
    takes and precedence keeps. -/
structure Separates (g : Grammar) (b : Graph) : Prop extends Complete g b where
  shared : ∀ {γ δ s}, b.Reads StateId.start γ s → b.Reads StateId.start δ s →
    ∃ q, (Lr0.graph g).Reads StateId.start γ q ∧ (Lr0.graph g).Reads StateId.start δ q ∧
      ∀ {t α β}, Splitting.InStep g (Lr0.graph g) ⟨q, t⟩ → g.Takes γ α t → g.Takes δ β t → α ≠ β →
        Survives g (Lr0.graph g) q t α → g.Takes δ α t

/-- **The split automaton separates strings.** -/
theorem exists_separates (wf : g.WellFormed) (accepts : AcceptsAlone g (Lr0.graph g)) :
    ∃ b, Separates g b ∧ generate g .ielr = ofGraph g b := by
  have complete := complete_lr0 wf
  have items := complete.toOfItems
  have reach := complete.reachable
  have link : (Lr0.graph g).Linked := by rw [Lr0.graph_eq]; exact Graph.linked_link _
  have isocore := fun {q} => Lr0.isocore_graph wf (q := q)
  have offers : ∀ {γ q α t}, (Lr0.graph g).Reads StateId.start γ q → g.Takes γ α t →
      (Lr0.graph g).Offers g q α t := fun hγ hα =>
    (Graph.offers_iff items wf reach (items.reads_kernel hγ).1).2 ⟨_, hγ, hα⟩
  rw [generate, split, splitGraph?]
  by_cases hneeded : (Splitting.prepare g (lalr g)).isNeeded = true
  · rw [if_pos hneeded]
    have walk := Splitting.represented_graph complete.toRepresented
    refine ⟨_, ⟨⟨walk.prune, Graph.reachable_prune walk.toOfItems, _, Graph.prune_eq _⟩, ?_⟩, rfl⟩
    intro γ δ s hγ hδ
    obtain ⟨s', hs', hγ⟩ := (Graph.reads_prune_iff walk.toOfItems).1 hγ
    obtain ⟨s'', hs'', hδ⟩ := (Graph.reads_prune_iff walk.toOfItems).1 hδ
    obtain rfl : s' = s'' := Option.some.inj (hs'.symm.trans hs'')
    obtain ⟨q, hγq, hδq, hsame⟩ :=
      Splitting.takes_iff_of_reads items wf link reach isocore accepts hγ hδ
    refine ⟨q, hγq, hδq, fun {t α β} inStep hα hβ hne hsurvives => ?_⟩
    have hq := (items.reads_kernel hγq).1
    obtain ⟨hαmem, hβmem, hlength⟩ :=
      two_le_actionsOn items wf reach hq (offers hγq hα) (offers hδq hβ) hne
    exact (hsame t inStep hlength ⟨α, hαmem, hα⟩ ⟨β, hβmem, hβ⟩ α hαmem
      ((isSelected_iff items wf reach hq (offers hγq hα)).2 hsurvives)).1 hα
  · -- Nothing is split, as no state has two actions on a token.
    rw [if_neg hneeded]
    refine ⟨_, ⟨complete, fun {γ δ s} hγ hδ => ⟨s, hγ, hδ, fun {t α β} _ hα hβ hne _ => ?_⟩⟩, rfl⟩
    exact absurd ((isNeeded_iff items wf reach).2 ⟨s, t, α, β, (items.reads_kernel hγ).1, hne,
      offers hγ hα, offers hδ hβ⟩) hneeded

namespace Separates

variable {b : Graph}

/-- What is offered after splitting was offered before. -/
theorem offers_lr0 (h : Separates g b) (wf : g.WellFormed) (hγ : b.Reads StateId.start γ s)
    (hγq : (Lr0.graph g).Reads StateId.start γ q) (hα : b.Offers g s α t) :
    (Lr0.graph g).Offers g q α t := by
  have items := Lr0.ofItems_graph wf
  obtain ⟨δ, hδ, hα⟩ := (Graph.offers_iff h.toOfItems wf h.reachable (h.reads_kernel hγ).1).1 hα
  obtain ⟨q', hγq', hδq, -⟩ := h.shared hγ hδ
  obtain rfl := hγq.unique hγq'
  exact (Graph.offers_iff items wf (Lr0.reachable_graph wf) (items.reads_kernel hγq).1).2 ⟨δ, hδq, hα⟩

/-- A reduction that precedence prefers to the only action of a string is not
    offered after it. -/
theorem not_offers (h : Separates g b) (wf : g.WellFormed) (hγ : b.Reads StateId.start γ s)
    (hγq : (Lr0.graph g).Reads StateId.start γ q)
    (inStep : Splitting.InStep g (Lr0.graph g) ⟨q, t⟩) (hα : g.Takes γ α t)
    (only : ∀ {β}, g.Takes γ β t → β = α) (hne : β ≠ α) (hsurvives : Survives g (Lr0.graph g) q t β) :
    ¬ b.Offers g s β t := by
  intro hβ
  obtain ⟨δ, hδ, hβ⟩ := (Graph.offers_iff h.toOfItems wf h.reachable (h.reads_kernel hγ).1).1 hβ
  obtain ⟨q', -, hγq', shared⟩ := h.shared hδ hγ
  obtain rfl := hγq.unique hγq'
  exact hne (only (shared inStep hβ hα hne hsurvives))

end Separates

/-! ## Grammars that are LR(1) -/

/-- **Splitting removes the conflicts that are not canonical.**  The split automaton
    of an LR(1) grammar has no conflicts, if lookaheads are grounded, acceptance
    is in no inadequacy, and the annotations are in step. -/
theorem conflictFree_of_isLr1 {decls : List Declaration} {g : Grammar}
    (h : Grammar.define decls = .ok g) (grounded : g.Grounded)
    (accepts : AcceptsAlone g (Lr0.graph g)) (inStep : ∀ v, Splitting.InStep g (Lr0.graph g) v)
    (lr1 : g.IsLr1) :
    (generate g .ielr).shiftReduceCount = 0 ∧ (generate g .ielr).reduceReduceCount = 0 := by
  have wf := Grammar.wellFormed_of_define h
  have items := Lr0.ofItems_graph wf
  obtain ⟨b, hb, heq⟩ := exists_separates wf accepts
  rw [heq, counts_eq_zero_iff]
  intro s hs
  rw [size_ofGraph] at hs
  refine (conflicts_eq_nil_iff hb.toOfItems wf hb.reachable hs).2 fun t α β hα hβ => .inl ?_
  obtain ⟨γ, hγ, hα⟩ := (Graph.offers_iff hb.toOfItems wf hb.reachable hs).1 hα
  obtain ⟨δ, hδ, hβ⟩ := (Graph.offers_iff hb.toOfItems wf hb.reachable hs).1 hβ
  obtain ⟨q, hγq, hδq, shared⟩ := hb.shared hγ hδ
  have unique : ∀ {γ α β}, g.Takes γ α t → g.Takes γ β t → α = β := fun hα hβ =>
    lr1 _ _ _ _ (grounded.acts_of_takes wf hα) (grounded.acts_of_takes wf hβ)
  by_contra hne
  by_cases hsurvives : Survives g (Lr0.graph g) q t α
  · exact hne (unique (shared (inStep _) hα hβ hne hsurvives) hβ)
  · -- The token is shifted after both strings, so the shift is what both call for.
    have hshift := offers_shift_of_not_survives hsurvives
    have hγshift := (Graph.takes_shift_iff items wf hγq).2 hshift
    have hδshift := (Graph.takes_shift_iff items wf hδq).2 hshift
    exact hne ((unique hα hγshift).trans (unique hδshift hβ))

/-- The theorem speaks of a grammar whose LALR(1) automaton has a conflict. -/
theorem conflictFree_of_isLr1_split : ∃ g, Grammar.define Grammar.crossing = .ok g ∧
    (lalr g).reduceReduceCount ≠ 0 ∧
    (generate g .ielr).shiftReduceCount = 0 ∧ (generate g .ielr).reduceReduceCount = 0 := by
  obtain ⟨g, hg, hcheck⟩ := Grammar.exists_define Grammar.crossing
    (fun g => (lalr g).reduceReduceCount ≠ 0 ∧
      (∀ X, X < g.symbols.size → g.isNullable X = true ∨ (g.first X).isEmpty = false) ∧
      (∀ r, r < g.rules.size → g.accept ∉ g.rhs r) ∧
      Splitting.Checks g (Lr0.graph g) (Splitting.trails g (Lr0.graph g) 10) (Canonical.collection g 10) ∧
      Canonical.IsCollection g 10 (Canonical.collection g 10) ∧
      Canonical.IsConsistent g (Canonical.collection g 10))
    (by decide +kernel)
  obtain ⟨hlalr, hsymbols, hproper, checks, hcollection, hconsistent⟩ := of_decide_eq_true hcheck
  have wf := Grammar.wellFormed_of_define hg
  have items := Lr0.ofItems_graph wf
  have grounded := wf.grounded_of_forall hsymbols
  exact ⟨g, hg, hlalr, conflictFree_of_isLr1 hg grounded
    (acceptsAlone_of_proper items wf (Lr0.reachable_graph wf) hproper)
    (fun v => checks.inStep items wf grounded hcollection)
    (Canonical.isLr1_of_isCollection wf hcollection hconsistent)⟩

/-- The conditions are needed: these grammars are LR(1), and their split automata
    have conflicts. -/
theorem isLr1_with_conflicts : List.Forall
    (fun decls => ∃ g, Grammar.define decls = .ok g ∧ g.IsLr1 ∧ (generate g .ielr).reduceReduceCount ≠ 0) [
      -- `C` derives no terminal string, so `D` and `E` are never valid.
      [.rule ⟨"S", ["B", "C"], none, 1⟩, .rule ⟨"C", ["C", "'z'"], none, 2⟩,
        .rule ⟨"B", ["D", "'t'"], none, 3⟩, .rule ⟨"B", ["E", "'t'"], none, 4⟩,
        .rule ⟨"D", ["'d'"], none, 5⟩, .rule ⟨"E", ["'d'"], none, 6⟩],
      -- The lookaheads of the accepting rule are not followed.
      [.rule ⟨"S", ["'p'", "$accept", "'x'"], none, 1⟩, .rule ⟨"S", ["'p'", "C", "'y'"], none, 2⟩,
        .rule ⟨"S", ["'q'", "$accept", "'y'"], none, 3⟩, .rule ⟨"S", ["'q'", "C", "'x'"], none, 4⟩,
        .rule ⟨"S", ["'z'"], none, 5⟩, .rule ⟨"C", ["S", "YYEOF"], none, 6⟩],
      -- `A` gets its lookaheads from `X` after `'c'` and from `Y` after `'d'`, `B` the
      -- other way round; the annotations of the state after `'u'` blame both for both.
      [.rule ⟨"S", ["'x'", "X", "'1'"], none, 1⟩, .rule ⟨"S", ["'x'", "Y", "'2'"], none, 2⟩,
        .rule ⟨"S", ["'y'", "X", "'2'"], none, 3⟩, .rule ⟨"S", ["'y'", "Y", "'1'"], none, 4⟩,
        .rule ⟨"X", ["'u'", "P"], none, 5⟩, .rule ⟨"Y", ["'u'", "Q"], none, 6⟩,
        .rule ⟨"P", ["'c'", "A"], none, 7⟩, .rule ⟨"P", ["'d'", "B"], none, 8⟩,
        .rule ⟨"Q", ["'c'", "B"], none, 9⟩, .rule ⟨"Q", ["'d'", "A"], none, 10⟩,
        .rule ⟨"A", ["'e'"], none, 11⟩, .rule ⟨"B", ["'e'"], none, 12⟩]] := by
  refine List.forall_iff_forall_mem.2 fun decls hdecls => ?_
  obtain ⟨g, hg, hcheck⟩ := Grammar.exists_define decls
    (fun g => Canonical.IsCollection g 10 (Canonical.collection g 10) ∧
      Canonical.IsConsistent g (Canonical.collection g 10) ∧ (generate g .ielr).reduceReduceCount ≠ 0)
    (by revert decls; decide +kernel)
  obtain ⟨hcollection, hconsistent, hconflicts⟩ := of_decide_eq_true hcheck
  exact ⟨g, hg, Canonical.isLr1_of_isCollection (Grammar.wellFormed_of_define hg) hcollection hconsistent,
    hconflicts⟩

/-! ## Conflicts that precedence settles -/

/-- Acceptance has no precedence, so it is in no inadequacy when all conflicts are
    settled. -/
theorem acceptsAlone_of_conflictFree (items : a.OfItems g) (wf : g.WellFormed) (reach : a.Reachable)
    (hfree : ∀ q, q < a.size → ((ofGraph g a).state q).conflicts = []) : AcceptsAlone g a := by
  intro q t hq hlength haccept
  obtain ⟨α, hα, hne⟩ : ∃ α ∈ actionsOn g ((ofGraph g a).state q) t, α ≠ .reduce RuleId.accept := by
    refine (((nodup_actionsOn items wf reach hq t).ne_singleton_iff _).1 fun heq => ?_).resolve_left
      (List.ne_nil_of_mem haccept)
    rw [heq] at hlength
    exact absurd hlength (by decide)
  have offers := fun {α} hα => ((mem_actionsOn items wf reach hq (α := α) (t := t)).1 hα).1
  rcases (conflicts_eq_nil_iff items wf reach hq).1 (hfree q hq) t _ _ (offers hα) (offers haccept) with
    heq | hdecides
  · exact hne heq
  · cases α with
    | shift =>
      refine hdecides ?_
      rw [Grammar.verdict, wf.rulePrecedence_accept]
      cases (g.symbol t).precedence <;> rfl
    | reduce ρ => exact hdecides

namespace Separates

variable {b : Graph}

/-- If precedence has settled all conflicts of the LALR(1) state, it prefers the only
    action of a string to every other that is offered.  Where it has chosen an error
    it does so as long as there is no other. -/
theorem prefers_iff (h : Separates g b) (wf : g.WellFormed) (hγ : b.Reads StateId.start γ s)
    (hγq : (Lr0.graph g).Reads StateId.start γ q) (hfree : ((lalr g).state q).conflicts = [])
    (inStep : ((lalr g).state q).Resolves t .reduce → Splitting.InStep g (Lr0.graph g) ⟨q, t⟩)
    (hα : g.Takes γ α t) (only : ∀ {β}, g.Takes γ β t → β = α) :
    (∀ β, b.Offers g s β t → β = α ∨ g.Prefers t α β) ↔
      (((lalr g).state q).Resolves t .error → ∀ β, b.Offers g s β t → β = α) := by
  have items := Lr0.ofItems_graph wf
  have reach := Lr0.reachable_graph wf
  have hq := (items.reads_kernel hγq).1
  have hα' : (Lr0.graph g).Offers g q α t := (Graph.offers_iff items wf reach hq).2 ⟨γ, hγq, hα⟩
  have offered := fun {β} => h.offers_lr0 wf hγ hγq (α := β) (t := t)
  -- Where the token is shifted, the shift is the only action of the string.
  have eq_shift (hshift : (Lr0.graph g).Offers g q .shift t) : α = .shift :=
    (only ((Graph.takes_shift_iff items wf hγq).2 hshift)).symm
  constructor
  · rintro hprefers ⟨c, hc, rfl, hresolution⟩ β hβ
    obtain ⟨hshift, hreduce, hsettles⟩ :=
      (exists_resolved_iff items wf reach hq).1 ⟨c, hc, rfl, rfl, hresolution⟩
    obtain rfl := eq_shift hshift
    refine (hprefers β hβ).resolve_right fun hsettles' => ?_
    cases β with
    | shift => cases hsettles'
    | reduce ρ =>
      obtain rfl := eq_of_offers_reduce items wf reach hq hfree hreduce (offered hβ)
      cases hsettles.unique hsettles'
  · intro halone β hβ
    refine or_iff_not_imp_left.2 fun hne => ?_
    cases β with
    | shift => exact absurd (eq_shift (offered hβ)).symm hne
    | reduce ρ =>
      cases α with
      | reduce ρ' =>
        exact absurd (congrArg Action.reduce (eq_of_offers_reduce items wf reach hq hfree (offered hβ) hα'))
          hne
      | shift =>
        obtain ⟨resolution, hsettles⟩ := exists_settles items wf reach hq hfree hα' (offered hβ)
        obtain ⟨c, hc, hsymbol, -, hresolution⟩ :=
          (exists_resolved_iff items wf reach hq).2 ⟨hα', offered hβ, hsettles⟩
        cases resolution with
        | shift => exact hsettles
        | reduce =>
          refine absurd hβ (h.not_offers wf hγ hγq (inStep ⟨c, hc, hsymbol, hresolution⟩) hα only hne ?_)
          rintro ⟨-, -, resolution, hother, hneq⟩
          exact hneq (hother.unique hsettles)
        | error => exact absurd (halone ⟨c, hc, hsymbol, hresolution⟩ _ hβ) hne

/-- Acceptance is not selected after a string that takes another action, if the end
    marker ends strings only. -/
theorem not_selects_accept (h : Separates g b) (wf : g.WellFormed) (hγ : b.Reads StateId.start γ s)
    (ends : g.EndsOnce) (hα : g.Takes γ α t) (hne : α ≠ .reduce RuleId.accept) :
    ¬ ((ofGraph g b).state s).Selects (.reduce RuleId.accept) t := by
  rintro ⟨red, hred, hrule, -⟩
  have hrule : red.item.rule = RuleId.accept := hrule
  have hitem : red.item ∈ (b.core s).completeItems g := by
    rw [← map_item_reductions g b (h.reads_kernel hγ).1]
    exact List.mem_map_of_mem hred
  obtain ⟨hmem, hnext⟩ := Lookaheads.mem_completeItems.1 hitem
  have hcomplete := Lookaheads.eq_complete h.toOfItems wf h.reachable (h.reads_kernel hγ).1 hmem hnext
  rw [hcomplete, hrule] at hmem
  exact hne (ends.eq_accept_of_takes wf ((h.mem_items_iff wf hγ).1 hmem) hα)

end Separates

/-- **Precedence chooses as it would in the canonical automaton.**  If precedence
    settles all conflicts of the LALR(1) automaton and lookaheads are grounded, the
    only canonical action of a string on a token is the one that is selected.  Where
    the token is resolved in favour of a reduction, the annotations have to be in
    step; where an error is chosen, it is so iff no string to the same state calls
    for another action.  Acceptance, which has no lookahead, is selected as well
    only if the end marker is used in rules. -/
theorem selects_canonical {decls : List Declaration} {g : Grammar} (h : Grammar.define decls = .ok g)
    (grounded : g.Grounded) (hfree : ∀ q, q < (lalr g).states.size → ((lalr g).state q).conflicts = [])
    {γ : List SymbolId} {t : SymbolId} {α : Action} (hα : α ≠ .reduce RuleId.accept)
    (unique : ∀ β, g.Acts γ β t ↔ β = α)
    (inStep : ∀ q, (lalr g).transition StateId.start γ = .ok q →
      ((lalr g).state q).Resolves t .reduce → Splitting.InStep g (Lr0.graph g) ⟨q, t⟩) :
    ∃ q s, (lalr g).transition StateId.start γ = .ok q ∧
      (generate g .ielr).transition StateId.start γ = .ok s ∧
      ((∀ β, β ≠ .reduce RuleId.accept → (((generate g .ielr).state s).Selects β t ↔ β = α)) ↔
        (((lalr g).state q).Resolves t .error → ∀ δ β,
          (generate g .ielr).transition StateId.start δ = .ok s → β ≠ .reduce RuleId.accept →
          g.Acts δ β t → β = α)) ∧
      (g.EndsOnce → ¬ ((generate g .ielr).state s).Selects (.reduce RuleId.accept) t) := by
  have wf := Grammar.wellFormed_of_define h
  have items := Lr0.ofItems_graph wf
  have reach := Lr0.reachable_graph wf
  rw [lalr, size_ofGraph] at hfree
  have accepts : AcceptsAlone g (Lr0.graph g) := acceptsAlone_of_conflictFree items wf reach hfree
  obtain ⟨b, hb, heq⟩ := exists_separates wf accepts
  have htakes : g.Takes γ α t := wf.takes_of_acts hα ((unique α).2 rfl)
  have only : ∀ {β}, g.Takes γ β t → β = α := fun hβ =>
    (unique _).1 (grounded.acts_of_takes wf hβ)
  obtain ⟨s, hγ⟩ : ∃ s, b.Reads StateId.start γ s := by
    refine (hb.exists_reads_iff wf).2 ?_
    cases α with
    | shift => obtain ⟨-, i, hi, -⟩ := htakes; exact ⟨i, hi⟩
    | reduce ρ => exact ⟨_, htakes.viable⟩
  have hs := (hb.reads_kernel hγ).1
  obtain ⟨q, hγq, -, -⟩ := hb.shared hγ hγ
  have hq := (items.reads_kernel hγq).1
  have hlalr : (lalr g).transition StateId.start γ = .ok q :=
    (transition_eq_ok_iff _).2 (by rwa [lalr, graph_ofGraph])
  have offered := fun {u β} => hb.offers_lr0 wf hγ hγq (α := β) (t := u)
  have settled := (conflicts_eq_nil_iff items wf reach hq).1 (hfree q hq)
  have hconflicts : ((ofGraph g b).state s).conflicts = [] :=
    (conflicts_eq_nil_iff hb.toOfItems wf hb.reachable hs).2 fun u β β' hβ hβ' =>
      settled u β β' (offered hβ) (offered hβ')
  have hαoffers := (Graph.offers_iff hb.toOfItems wf hb.reachable hs).2 ⟨γ, hγ, htakes⟩
  have reads {δ} : (ofGraph g b).transition StateId.start δ = .ok s ↔ b.Reads StateId.start δ s := by
    rw [transition_eq_ok_iff, graph_ofGraph]
  rw [heq]
  refine ⟨q, s, hlalr, reads.2 hγ, ?_, fun ends => hb.not_selects_accept wf hγ ends htakes hα⟩
  rw [selects_iff hb.toOfItems wf hb.reachable hs hconflicts hα hαoffers,
    hb.prefers_iff wf hγ hγq (hfree q hq) (inStep q hlalr) htakes only]
  refine imp_congr_right fun hresolves => ⟨fun halone δ β hδ hβ hacts => ?_, fun halone β hβ => ?_⟩
  · exact halone β ((Graph.offers_iff hb.toOfItems wf hb.reachable hs).2
      ⟨δ, reads.1 hδ, wf.takes_of_acts hβ hacts⟩)
  · obtain ⟨δ, hδ, htakes'⟩ := (Graph.offers_iff hb.toOfItems wf hb.reachable hs).1 hβ
    refine halone δ β (reads.2 hδ) ?_ (grounded.acts_of_takes wf htakes')
    -- Acceptance would be one of two actions of the LALR(1) state.
    rintro rfl
    obtain ⟨-, haccept, hlength⟩ := two_le_actionsOn items wf reach hq (offered hαoffers) (offered hβ) hα
    exact accepts hq hlength haccept

/-- The theorem speaks of a grammar in which `Z` is recursive, a state is split and
    the shift that loses after one string is chosen after another. -/
theorem selects_canonical_split : ∃ g, Grammar.define
      [.precedence .precedence ["'t'"], .precedence .precedence ["'h'"],
        .rule ⟨"S", ["'x'", "Z", "'t'"], none, 1⟩, .rule ⟨"S", ["'y'", "Z", "'v'"], none, 2⟩,
        .rule ⟨"Z", ["'e'", "'t'", "Z"], none, 3⟩, .rule ⟨"Z", ["'e'"], some "'h'", 4⟩] = .ok g ∧
    (lalr g).states.size < (generate g .ielr).states.size ∧
    ∃ q s, (lalr g).transition StateId.start [6, 8] = .ok q ∧ ((lalr g).state q).Resolves 3 .reduce ∧
      (generate g .ielr).transition StateId.start [6, 8] = .ok s ∧
      ∀ β, β ≠ .reduce RuleId.accept → (((generate g .ielr).state s).Selects β 3 ↔ β = .shift) := by
  obtain ⟨g, hg, hcheck⟩ := Grammar.exists_define
    [.precedence .precedence ["'t'"], .precedence .precedence ["'h'"],
      .rule ⟨"S", ["'x'", "Z", "'t'"], none, 1⟩, .rule ⟨"S", ["'y'", "Z", "'v'"], none, 2⟩,
      .rule ⟨"Z", ["'e'", "'t'", "Z"], none, 3⟩, .rule ⟨"Z", ["'e'"], some "'h'", 4⟩]
    (fun g => (lalr g).states.size < (generate g .ielr).states.size ∧
      (∀ X, X < g.symbols.size → g.isNullable X = true ∨ (g.first X).isEmpty = false) ∧
      (∀ q, q < (lalr g).states.size → ((lalr g).state q).conflicts = []) ∧
      (∃ q ∈ ((lalr g).transition StateId.start [6, 8]).toOption,
        ((lalr g).state q).Resolves 3 .reduce ∧ ¬ ((lalr g).state q).Resolves 3 .error) ∧
      Splitting.Checks g (Lr0.graph g) (Splitting.trails g (Lr0.graph g) 10) (Canonical.collection g 10) ∧
      Canonical.IsCollection g 10 (Canonical.collection g 10) ∧
      Canonical.isOnlyAction g 10 [6, 8] .shift 3 = true)
    (by decide +kernel)
  obtain ⟨hsize, hsymbols, hfree, ⟨q, hq, hreduce, herror⟩, checks, hcollection, honly⟩ :=
    of_decide_eq_true hcheck
  have wf := Grammar.wellFormed_of_define hg
  have grounded := wf.grounded_of_forall hsymbols
  obtain ⟨q', s, hq', hs, hselects, -⟩ := selects_canonical hg grounded hfree (by decide)
    (Canonical.acts_iff_of_isOnlyAction wf hcollection honly)
    fun _ _ _ => checks.inStep (Lr0.ofItems_graph wf) wf grounded hcollection
  obtain rfl : q' = q := by rw [hq'] at hq; exact Option.some.inj hq
  exact ⟨g, hg, hsize, q', s, hq', hreduce, hs, hselects.2 fun hresolves => absurd hresolves herror⟩

/-- A string of a grammar, the only canonical action after it on a token, and an
    action on the token that is selected, or not selected, against this. -/
structure Deviation where
  decls : List Declaration
  string : List SymbolId
  token : SymbolId
  canonical : Action
  deviant : Action

/-- Precedence settles all conflicts of the LALR(1) automaton, and still the deviant
    action is selected though it is not canonical, or the other way round. -/
def Deviation.Occurs (d : Deviation) : Prop :=
  ∃ g, Grammar.define d.decls = .ok g ∧
    (∀ q, q < (lalr g).states.size → ((lalr g).state q).conflicts = []) ∧
    d.canonical ≠ .reduce RuleId.accept ∧ (∀ β, g.Acts d.string β d.token ↔ β = d.canonical) ∧
    ∃ s, (generate g .ielr).transition StateId.start d.string = .ok s ∧
      ¬ (((generate g .ielr).state s).Selects d.deviant d.token ↔ d.deviant = d.canonical)

/-- The conditions are needed, and acceptance has to be excepted. -/
theorem deviations : List.Forall Deviation.Occurs [
      -- `C` derives no terminal string, so the reduction to `D` that wins is never valid.
      { decls := [.precedence .precedence ["'t'"], .precedence .precedence ["'h'"],
          .rule ⟨"S", ["B", "C"], none, 1⟩, .rule ⟨"S", ["X"], none, 2⟩,
          .rule ⟨"C", ["C", "'z'"], none, 3⟩, .rule ⟨"B", ["D", "'t'"], none, 4⟩,
          .rule ⟨"D", ["'d'"], some "'h'", 5⟩, .rule ⟨"X", ["'d'", "'t'"], none, 6⟩]
        string := [6], token := 3, canonical := .shift, deviant := .shift },
      -- An error is chosen after `'x' 'e'`, and the state is not split for `'y' 'e'`.
      { decls := [.precedence .nonassoc ["'t'"],
          .rule ⟨"S", ["'x'", "X"], none, 1⟩, .rule ⟨"S", ["'x'", "Y", "'t'"], none, 2⟩,
          .rule ⟨"S", ["'y'", "X"], none, 3⟩, .rule ⟨"S", ["'y'", "Y", "'v'"], none, 4⟩,
          .rule ⟨"X", ["'e'", "'t'"], none, 5⟩, .rule ⟨"Y", ["'e'"], some "'t'", 6⟩]
        string := [5, 7], token := 3, canonical := .shift, deviant := .shift },
      -- Acceptance has no lookahead, and the end marker is read elsewhere too.
      { decls := [.rule ⟨"S", ["C", "'x'"], none, 1⟩, .rule ⟨"S", ["'a'"], none, 2⟩,
          .rule ⟨"C", ["S", "YYEOF"], none, 3⟩]
        string := [6, 0], token := 3, canonical := .reduce 3, deviant := .reduce RuleId.accept },
      -- `A` gets its lookaheads from `X` after `'c'` and from `Y` after `'d'`; the
      -- annotations of the state after `'u'` blame both.
      { decls := [.precedence .precedence ["'t'"], .precedence .precedence ["'h'"],
          .rule ⟨"S", ["'x'", "X", "'t'"], none, 1⟩, .rule ⟨"S", ["'x'", "Y", "'v'"], none, 2⟩,
          .rule ⟨"S", ["'y'", "X", "'v'"], none, 3⟩, .rule ⟨"S", ["'y'", "Y", "'t'"], none, 4⟩,
          .rule ⟨"X", ["'u'", "P"], none, 5⟩, .rule ⟨"Y", ["'u'", "Q"], none, 6⟩,
          .rule ⟨"P", ["'c'", "A"], none, 7⟩, .rule ⟨"P", ["'c'", "B"], none, 8⟩,
          .rule ⟨"Q", ["'d'", "A"], none, 9⟩, .rule ⟨"Q", ["'d'", "B"], none, 10⟩,
          .rule ⟨"A", ["'e'"], some "'h'", 11⟩, .rule ⟨"B", ["'e'", "'t'"], none, 12⟩]
        string := [7, 8, 9, 11], token := 3, canonical := .shift, deviant := .shift }] := by
  refine List.forall_iff_forall_mem.2 fun d hd => ?_
  obtain ⟨g, hg, hcheck⟩ := Grammar.exists_define d.decls
    (fun g => (∀ q, q < (lalr g).states.size → ((lalr g).state q).conflicts = []) ∧
      d.canonical ≠ .reduce RuleId.accept ∧
      Canonical.IsCollection g 10 (Canonical.collection g 10) ∧
      Canonical.isOnlyAction g 10 d.string d.canonical d.token = true ∧
      ∃ s ∈ ((generate g .ielr).transition StateId.start d.string).toOption,
        ¬ (((generate g .ielr).state s).Selects d.deviant d.token ↔ d.deviant = d.canonical))
    (by revert d; decide +kernel)
  obtain ⟨hfree, haccept, hcollection, honly, s, hs, hdeviates⟩ := of_decide_eq_true hcheck
  have wf := Grammar.wellFormed_of_define hg
  refine ⟨g, hg, hfree, haccept, Canonical.acts_iff_of_isOnlyAction wf hcollection honly, s, ?_, hdeviates⟩
  cases htransition : (generate g .ielr).transition StateId.start d.string with
  | error e => rw [htransition] at hs; cases hs
  | ok q => rw [htransition] at hs; cases hs; rfl

end LRAutomata.Automaton
