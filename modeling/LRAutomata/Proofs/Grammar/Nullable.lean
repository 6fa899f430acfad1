/-
  The passes find out which rules and symbols derive the empty string.

  * a verdict, in either way, is never wrong, after however many passes
    (`Grammar.WellFormed.truthful_judged`);
  * a pass that leaves as much unknown as before has changed nothing, so the
    passes end (`Grammar.pass_findings`);
  * what vanishes is known to then, and everything else is not nullable
    (`Grammar.nullable_exact`).
-/
import LRAutomata.Proofs.Data.Fixpoint
import LRAutomata.Proofs.Grammar.Derivation

namespace LRAutomata

namespace Nullable

/-! ## Verdicts are extended -/

namespace Verdicts

variable {v : Verdicts} {judge : Nat → Option Bool} {n : Nat} {b : Bool}

theorem lt_of_known (h : v.of n = some b) : n < v.size := by
  apply Nat.lt_of_not_le
  intro hle
  rw [of, Array.getD_eq_getD_getElem?, Array.getElem?_eq_none hle] at h
  cases h

@[simp] theorem size_extend : (v.extend judge).size = v.size :=
  Array.size_mapIdx

theorem of_extend (hn : n < v.size) : (v.extend judge).of n = (v.of n).or (judge n) := by
  simp [of, extend, Array.getD, hn]

theorem known_of_extend (h : (v.extend judge).of n = some b) : v.of n = some b ∨ judge n = some b := by
  have hn : n < v.size := by simpa using lt_of_known h
  rw [of_extend hn, Option.or_eq_some_iff] at h
  exact h.imp_right And.right

/-- What can be judged is known when nothing is left to extend. -/
theorem known_of_extend_eq (h : v.extend judge = v) (hn : n < v.size) (hjudge : judge n = some b) :
    ∃ b', v.of n = some b' := by
  have hof : (v.extend judge).of n = (v.of n).or (judge n) := of_extend hn
  rw [h, hjudge] at hof
  cases hv : v.of n with
  | none => rw [hv] at hof; cases hof
  | some b' => exact ⟨b', rfl⟩

theorem countP_mapIdx_or : ∀ (known : List (Option Bool)) (judge : Nat → Option Bool),
    (known.mapIdx fun n b => b.or (judge n)).countP Option.isNone ≤ known.countP Option.isNone ∧
      ((known.mapIdx fun n b => b.or (judge n)).countP Option.isNone = known.countP Option.isNone →
        (known.mapIdx fun n b => b.or (judge n)) = known)
  | [], _ => ⟨Nat.le_refl _, fun _ => rfl⟩
  | some b :: known, judge => by
    obtain ⟨hle, heq⟩ := countP_mapIdx_or known fun n => judge (n + 1)
    simpa [List.mapIdx_cons] using ⟨hle, heq⟩
  | none :: known, judge => by
    obtain ⟨hle, heq⟩ := countP_mapIdx_or known fun n => judge (n + 1)
    cases hjudge : judge 0 with
    | none => simpa [List.mapIdx_cons, hjudge] using ⟨hle, heq⟩
    | some b =>
      simp only [List.mapIdx_cons, hjudge, Option.none_or, List.countP_cons, Option.isNone_some,
        Option.isNone_none, if_true]
      exact ⟨Nat.le_succ_of_le hle, fun h => by simp at h; omega⟩

theorem unknowns_extend_le (v : Verdicts) (judge : Nat → Option Bool) :
    (v.extend judge).unknowns ≤ v.unknowns := by
  simpa only [unknowns, extend, Array.toList_mapIdx] using (countP_mapIdx_or v.toList judge).1

/-- As much is unknown as before only if nothing was settled. -/
theorem extend_eq_of_unknowns (h : (v.extend judge).unknowns = v.unknowns) : v.extend judge = v := by
  rw [unknowns, unknowns, extend, Array.toList_mapIdx] at h
  rw [extend, ← Array.toList_inj, Array.toList_mapIdx]
  exact (countP_mapIdx_or v.toList judge).2 h

theorem getD_map_getD : (v.map (·.getD false)).getD n false = true ↔ v.of n = some true := by
  rw [Array.getD_eq_getD_getElem?, Array.getElem?_map, of, Array.getD_eq_getD_getElem?]
  rcases v[n]? with _ | _ | _ | _ <;> simp

theorem mem_members : n ∈ members v ↔ v.of n = some true := by
  simp only [members, NatSet.mem_ofList, List.mem_filter, List.mem_range, decide_eq_true_eq]
  exact ⟨And.right, fun h => ⟨lt_of_known h, h⟩⟩

end Verdicts

/-! ## The passes end -/

section Passes
variable {rules : Array Rule} {rulesOf : SymbolId → List RuleId} {terminalCount : Nat} {k : Findings}

theorem unknowns_rules_pass_le :
    (pass rules rulesOf terminalCount k).rules.unknowns ≤ k.rules.unknowns :=
  Verdicts.unknowns_extend_le _ _

theorem unknowns_symbols_pass_le :
    (pass rules rulesOf terminalCount k).symbols.unknowns ≤ k.symbols.unknowns :=
  Verdicts.unknowns_extend_le _ _

/-- A pass that leaves as much unknown as before has changed nothing. -/
theorem unknowns_pass_eq_iff : (pass rules rulesOf terminalCount k).unknowns = k.unknowns ↔
    pass rules rulesOf terminalCount k = k := by
  refine ⟨fun h => ?_, congrArg Findings.unknowns⟩
  have hrules : (pass rules rulesOf terminalCount k).rules.unknowns ≤ k.rules.unknowns :=
    unknowns_rules_pass_le
  have hsymbols : (pass rules rulesOf terminalCount k).symbols.unknowns ≤ k.symbols.unknowns :=
    unknowns_symbols_pass_le
  rw [Findings.unknowns, Findings.unknowns] at h
  have hboth : (pass rules rulesOf terminalCount k).rules.unknowns = k.rules.unknowns ∧
      (pass rules rulesOf terminalCount k).symbols.unknowns = k.symbols.unknowns := by omega
  exact Findings.ext (Verdicts.extend_eq_of_unknowns hboth.1) (Verdicts.extend_eq_of_unknowns hboth.2)

theorem unknowns_pass_lt (h : pass rules rulesOf terminalCount k ≠ k) :
    (pass rules rulesOf terminalCount k).unknowns < k.unknowns :=
  Nat.lt_of_le_of_ne (Nat.add_le_add unknowns_rules_pass_le unknowns_symbols_pass_le)
    (mt unknowns_pass_eq_iff.1 h)

theorem settle_eq_iterate : ∀ (passes : Nat) (k : Findings),
    settle rules rulesOf terminalCount passes k =
      Fixpoint.iterate (pass rules rulesOf terminalCount) passes k
  | 0, _ => rfl
  | passes + 1, k => by
    rw [settle, Fixpoint.iterate]
    simp only [unknowns_pass_eq_iff]
    split
    · assumption
    · exact settle_eq_iterate passes _

theorem unknowns_start_le (ruleCount terminalCount symbolCount : Nat) :
    (Findings.start ruleCount terminalCount symbolCount).unknowns ≤ ruleCount + symbolCount := by
  refine Nat.add_le_add (Nat.le_trans List.countP_le_length ?_)
    (Nat.le_trans List.countP_le_length ?_) <;> simp [Findings.start]

end Passes

/-! ## The verdicts are true -/

open Grammar

section Truth
variable {g : Grammar} {rules symbols : Verdicts} {k : Findings} {α : List SymbolId} {X : SymbolId}
variable {b : Bool}

/-- A verdict on a string is right if those on the symbols are. -/
theorem vanishes_iff_of_judgeString (wf : g.WellFormed)
    (true_symbols : ∀ {X b}, symbols.of X = some b → (b = true ↔ g.Vanishes [X]))
    (h : judgeString g.terminalCount symbols α = some b) : b = true ↔ g.Vanishes α := by
  rw [judgeString] at h
  split at h
  · rename_i hempty
    cases h
    rw [List.isEmpty_iff.1 hempty]
    simp
  split at h
  · rename_i hterminal
    cases h
    obtain ⟨t, ht, hlt⟩ := List.any_eq_true.1 hterminal
    exact iff_of_false Bool.false_ne_true fun hα =>
      wf.not_vanishes_terminal hlt (vanishes_iff_forall.1 hα t ht)
  split at h
  · rename_i hall
    cases h
    have hvanish := fun X hX => (true_symbols (of_decide_eq_true (List.all_eq_true.1 hall X hX))).1 rfl
    exact iff_of_true rfl (vanishes_iff_forall.2 hvanish)
  split at h
  · rename_i hany
    cases h
    obtain ⟨X, hX, hfalse⟩ := List.any_eq_true.1 hany
    have hnot : ¬ g.Vanishes [X] := fun hvanish =>
      Bool.false_ne_true ((true_symbols (of_decide_eq_true hfalse)).2 hvanish)
    exact iff_of_false Bool.false_ne_true fun hα => hnot (vanishes_iff_forall.1 hα X hX)
  · cases h

/-- A verdict on a symbol is right if those on the rules are. -/
theorem vanishes_iff_of_judgeSymbol (wf : g.WellFormed)
    (true_rules : ∀ {r b}, rules.of r = some b → (b = true ↔ g.Vanishes (g.rhs r)))
    (h : judgeSymbol rules (g.rulesOf X) = some b) : b = true ↔ g.Vanishes [X] := by
  rw [judgeSymbol] at h
  rw [wf.vanishes_symbol_iff]
  split at h
  · rename_i hany
    cases h
    obtain ⟨r, hr, htrue⟩ := List.any_eq_true.1 hany
    exact iff_of_true rfl ⟨r, hr, (true_rules (of_decide_eq_true htrue)).1 rfl⟩
  split at h
  · rename_i hall
    cases h
    refine iff_of_false Bool.false_ne_true ?_
    rintro ⟨r, hr, hvanish⟩
    have hfalse := of_decide_eq_true (List.all_eq_true.1 hall r hr)
    exact Bool.false_ne_true ((true_rules hfalse).2 hvanish)
  · cases h

/-- There is a verdict on every rule and symbol or none yet, and none is wrong. -/
structure Findings.Truthful (g : Grammar) (k : Findings) : Prop where
  rules_size : k.rules.size = g.rules.size
  symbols_size : k.symbols.size = g.symbols.size
  rule : ∀ {r b}, k.rules.of r = some b → (b = true ↔ g.Vanishes (g.rhs r))
  symbol : ∀ {X b}, k.symbols.of X = some b → (b = true ↔ g.Vanishes [X])

theorem truthful_start (wf : g.WellFormed) :
    (Findings.start g.rules.size g.terminalCount g.symbols.size).Truthful g := by
  refine ⟨by simp [Findings.start], by simp [Findings.start], fun {r b} h => ?_, fun {X b} h => ?_⟩
  · have hlt := Verdicts.lt_of_known h
    simp [Findings.start, Verdicts.of, Array.getD] at h hlt
  · have hlt : X < g.symbols.size := by simpa [Findings.start] using Verdicts.lt_of_known h
    simp only [Findings.start, Verdicts.of, Array.getD, List.size_toArray, List.length_map,
      List.length_range, hlt, dif_pos, Array.getInternal_eq_getElem, List.getElem_toArray,
      List.getElem_map, List.getElem_range] at h
    split at h
    · rename_i hterminal
      cases h
      exact iff_of_false Bool.false_ne_true (wf.not_vanishes_terminal (decide_eq_true hterminal))
    · cases h

/-- **A pass gives no wrong verdict.** -/
theorem Findings.Truthful.pass (h : k.Truthful g) (wf : g.WellFormed) :
    (pass g.rules g.rulesOf g.terminalCount k).Truthful g := by
  have true_rules : ∀ {r b}, (Nullable.pass g.rules g.rulesOf g.terminalCount k).rules.of r = some b →
      (b = true ↔ g.Vanishes (g.rhs r)) := fun hr =>
    (Verdicts.known_of_extend hr).elim h.rule (vanishes_iff_of_judgeString wf h.symbol)
  exact ⟨Verdicts.size_extend.trans h.rules_size, Verdicts.size_extend.trans h.symbols_size, true_rules,
    fun hX => (Verdicts.known_of_extend hX).elim h.symbol (vanishes_iff_of_judgeSymbol wf true_rules)⟩

/-! ## What vanishes is known in the end -/

/-- A string of symbols known to be nullable is judged. -/
theorem exists_judgeString (h : ∀ X ∈ α, symbols.of X = some true) (terminalCount : Nat) :
    ∃ b, judgeString terminalCount symbols α = some b := by
  have hall : α.all (symbols.of · = some true) = true :=
    List.all_eq_true.2 fun X hX => decide_eq_true (h X hX)
  rw [judgeString, if_pos hall]
  split
  · exact ⟨_, rfl⟩
  · split <;> exact ⟨_, rfl⟩

section Fixed
variable (h : k.Truthful g) (fixed : Nullable.pass g.rules g.rulesOf g.terminalCount k = k)
include h fixed

/-- A rule whose symbols are known to be nullable is known to be. -/
theorem Findings.Truthful.rule_of_symbols {r : RuleId} (hr : r < g.rules.size)
    (hsymbols : ∀ X ∈ g.rhs r, k.symbols.of X = some true) : k.rules.of r = some true := by
  obtain ⟨b, hb⟩ := exists_judgeString hsymbols g.terminalCount
  obtain ⟨b, hknown⟩ := Verdicts.known_of_extend_eq (congrArg Findings.rules fixed)
    (by rw [h.rules_size]; exact hr) hb
  have hvanish : g.Vanishes (g.rhs r) :=
    vanishes_iff_forall.2 fun X hX => (h.symbol (hsymbols X hX)).1 rfl
  rw [hknown, (h.rule hknown).2 hvanish]

/-- A symbol with a rule that is known to be nullable is known to be. -/
theorem Findings.Truthful.symbol_of_rule (wf : g.WellFormed) {r : RuleId} (hr : r < g.rules.size)
    (hrule : k.rules.of r = some true) : k.symbols.of (g.lhs r) = some true := by
  have hany : (g.rulesOf (g.lhs r)).any (k.rules.of · = some true) = true :=
    List.any_eq_true.2 ⟨r, wf.mem_rulesOf.2 ⟨hr, rfl⟩, decide_eq_true hrule⟩
  have hjudge : judgeSymbol (Nullable.pass g.rules g.rulesOf g.terminalCount k).rules
      (g.rulesOf (g.lhs r)) = some true := by
    rw [fixed, judgeSymbol, if_pos hany]
  obtain ⟨b, hknown⟩ := Verdicts.known_of_extend_eq (congrArg Findings.symbols fixed)
    (by rw [h.symbols_size]; exact wf.lhs_lt hr) hjudge
  have hvanish := vanishes_rule hr ((h.rule hrule).1 rfl)
  rw [hknown, (h.symbol hknown).2 hvanish]

/-- Every string that vanishes is made of symbols known to be nullable. -/
theorem Findings.Truthful.symbol_of_vanishes (wf : g.WellFormed) (hα : g.Vanishes α) :
    ∀ X ∈ α, k.symbols.of X = some true := by
  induction hα using Relation.ReflTransGen.head_induction_on with
  | refl => simp
  | head step _ ih =>
    obtain ⟨μ, ν, hr⟩ := step
    intro X hX
    simp only [List.mem_append, List.mem_cons] at hX ih
    rcases hX with hX | rfl | hX
    · exact ih X (.inl hX)
    · exact h.symbol_of_rule fixed wf hr (h.rule_of_symbols fixed hr fun Y hY => ih Y (.inr (.inl hY)))
    · exact ih X (.inr (.inr hX))

end Fixed

end Truth

end Nullable

/-! ## Nullable symbols and rules of a grammar -/

namespace Grammar

open Nullable

variable {g : Grammar} {X : SymbolId} {α : List SymbolId} {r : RuleId}

/-- What is known after so many passes, unless they end before. -/
def judged (g : Grammar) (passes : Nat) : Findings :=
  settle g.rules g.rulesOf g.terminalCount passes
    (Findings.start g.rules.size g.terminalCount g.symbols.size)

/-- What is known when the passes have ended. -/
def findings (g : Grammar) : Findings :=
  ofRules g.rules g.rulesOf g.terminalCount g.symbols.size

/-- No verdict is wrong, after however many passes. -/
theorem WellFormed.truthful_judged (wf : g.WellFormed) (passes : Nat) : (g.judged passes).Truthful g := by
  rw [judged, settle_eq_iterate]
  exact Fixpoint.iterate_keeps (fun k hk => hk.pass wf) passes (truthful_start wf)

theorem WellFormed.truthful_findings (wf : g.WellFormed) : g.findings.Truthful g :=
  wf.truthful_judged _

/-- The bound covers all passes that settle anything. -/
theorem pass_findings (g : Grammar) :
    pass g.rules g.rulesOf g.terminalCount g.findings = g.findings := by
  rw [findings, ofRules, settle_eq_iterate]
  exact Fixpoint.isFixed_iterate (fun _ => unknowns_pass_lt) (Nat.lt_succ_of_le (unknowns_start_le _ _ _))

/-- Further passes change nothing. -/
theorem judged_eq_findings {passes : Nat} (h : g.rules.size + g.symbols.size + 1 ≤ passes) :
    g.judged passes = g.findings := by
  have fixed := pass_findings g
  rw [findings, ofRules, settle_eq_iterate] at fixed ⊢
  rw [judged, settle_eq_iterate]
  exact Fixpoint.iterate_eq_of_le fixed h

/-- The symbols that vanish are found, and no others. -/
theorem WellFormed.symbol_findings_iff (wf : g.WellFormed) :
    g.findings.symbols.of X = some true ↔ g.Vanishes [X] :=
  ⟨fun h => (wf.truthful_findings.symbol h).1 rfl,
    fun h => wf.truthful_findings.symbol_of_vanishes (pass_findings g) wf h X (List.mem_singleton.2 rfl)⟩

/-- The rules whose right-hand sides vanish are found, and no others. -/
theorem WellFormed.rule_findings_iff (wf : g.WellFormed) (hr : r < g.rules.size) :
    g.findings.rules.of r = some true ↔ g.Vanishes (g.rhs r) :=
  ⟨fun h => (wf.truthful_findings.rule h).1 rfl,
    fun h => wf.truthful_findings.rule_of_symbols (pass_findings g) hr
      (wf.truthful_findings.symbol_of_vanishes (pass_findings g) wf h)⟩

theorem WellFormed.mem_nullable_iff (wf : g.WellFormed) : X ∈ g.nullable ↔ g.Vanishes [X] := by
  rw [wf.nullable_eq, Verdicts.mem_members]
  exact wf.symbol_findings_iff

theorem WellFormed.isNullable_iff (wf : g.WellFormed) : g.isNullable X = true ↔ g.Vanishes [X] := by
  rw [isNullable, decide_eq_true_eq, wf.mem_nullable_iff]

theorem covers_iff {s : NatSet} : covers s α = true ↔ ∀ X ∈ α, X ∈ s := by
  simp [covers]

theorem WellFormed.isNullableString_iff (wf : g.WellFormed) :
    g.isNullableString α = true ↔ g.Vanishes α := by
  rw [isNullableString, covers_iff, vanishes_iff_forall]
  simp only [wf.mem_nullable_iff]

theorem WellFormed.isNullableRule_iff (wf : g.WellFormed) (hr : r < g.rules.size) :
    g.isNullableRule r = true ↔ g.Vanishes (g.rhs r) := by
  rw [isNullableRule, wf.nullableRules_eq, Verdicts.getD_map_getD]
  exact wf.rule_findings_iff hr

/-- **Nullable rules and symbols are exact.**  After however many passes no verdict
    is wrong.  The passes end: after as many as there are rules and symbols, and
    one more, nothing changes and as much stays unknown as was unknown.  Then the
    symbols found to be nullable are those that derive the empty string, and the
    rules those whose right-hand sides do. -/
theorem nullable_exact {decls : List Declaration} (h : Grammar.define decls = .ok g) :
    (∀ passes, (g.judged passes).Truthful g) ∧
    (∀ passes, g.rules.size + g.symbols.size + 1 ≤ passes → g.judged passes = g.findings) ∧
    (pass g.rules g.rulesOf g.terminalCount g.findings).unknowns = g.findings.unknowns ∧
    (∀ X, g.isNullable X = true ↔ g.Vanishes [X]) ∧
    ∀ r, r < g.rules.size → (g.isNullableRule r = true ↔ g.Vanishes (g.rhs r)) := by
  have wf := wellFormed_of_define h
  exact ⟨wf.truthful_judged, fun _ => judged_eq_findings, unknowns_pass_eq_iff.2 (pass_findings g),
    fun _ => wf.isNullable_iff, fun _ => wf.isNullableRule_iff⟩

/-- The theorem speaks of a grammar with a nonterminal without rules, one that is
    found to be nullable in the third pass only, and one of which nothing is ever
    known. -/
theorem nullable_exact_late : ∃ g, Grammar.define
      [.nonterminal "N", .rule ⟨"S", ["A", "B"], none, 1⟩, .rule ⟨"A", ["A", "A"], none, 2⟩,
        .rule ⟨"A", [], none, 3⟩, .rule ⟨"B", ["N"], none, 4⟩, .rule ⟨"B", ["A"], none, 5⟩,
        .rule ⟨"C", ["B", "'c'"], none, 6⟩, .rule ⟨"C", ["C", "N"], none, 7⟩,
        .rule ⟨"D", ["D"], none, 8⟩] = .ok g ∧
    g.symbols.toList.map Symbol.name =
      ["YYEOF", "YYerror", "YYUNDEF", "'c'", "$accept", "N", "S", "A", "B", "C", "D"] ∧
    (g.judged 2).symbols.of 6 = none ∧ (g.judged 3).symbols.of 6 = some true ∧
    g.findings.symbols.of 10 = none ∧ g.Vanishes [6] ∧ g.Vanishes (g.rhs 1) ∧
    ¬ g.Vanishes [5] ∧ ¬ g.Vanishes [9] ∧ ¬ g.Vanishes [10] := by
  obtain ⟨g, hg, hcheck⟩ := exists_define
    [.nonterminal "N", .rule ⟨"S", ["A", "B"], none, 1⟩, .rule ⟨"A", ["A", "A"], none, 2⟩,
      .rule ⟨"A", [], none, 3⟩, .rule ⟨"B", ["N"], none, 4⟩, .rule ⟨"B", ["A"], none, 5⟩,
      .rule ⟨"C", ["B", "'c'"], none, 6⟩, .rule ⟨"C", ["C", "N"], none, 7⟩,
      .rule ⟨"D", ["D"], none, 8⟩]
    (fun g => decide (g.symbols.toList.map Symbol.name =
        ["YYEOF", "YYerror", "YYUNDEF", "'c'", "$accept", "N", "S", "A", "B", "C", "D"] ∧
      (g.judged 2).symbols.of 6 = none ∧ (g.judged 3).symbols.of 6 = some true ∧
      g.findings.symbols.of 10 = none ∧ g.isNullable 6 = true ∧ 1 < g.rules.size ∧
      g.isNullableRule 1 = true ∧ g.isNullable 5 = false ∧ g.isNullable 9 = false ∧
      g.isNullable 10 = false)) (by decide +kernel)
  obtain ⟨hnames, hsecond, hthird, hunknown, hS, hsize, hrule, hN, hC, hD⟩ := of_decide_eq_true hcheck
  obtain ⟨-, -, -, symbols, rules⟩ := nullable_exact hg
  have not_vanishes : ∀ {X}, g.isNullable X = false → ¬ g.Vanishes [X] := fun hX hvanish => by
    rw [(symbols _).2 hvanish] at hX; cases hX
  exact ⟨g, hg, hnames, hsecond, hthird, hunknown, (symbols 6).1 hS, (rules 1 hsize).1 hrule,
    not_vanishes hN, not_vanishes hC, not_vanishes hD⟩

end Grammar

end LRAutomata
