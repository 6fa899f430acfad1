/-
  The records that a state keeps of its conflicts, the marks of the actions that
  lose, and the default reduction.

  A shift and a reduction meet where the symbol shifted is among the tokens of
  the reduction (`State.Meets`).  `State.Recorded` says that

  * there is one record of every meeting and of nothing else: a conflict where
    precedence leaves it undecided, and else a resolved conflict that says what
    precedence says;
  * the conflicts between reductions are the pairs of reductions with common
    tokens;
  * an action is marked where a record says that it loses;
  * the default reduction is the one with the most tokens, if there is any.

  It holds of every state of an automaton that was built (`Automaton.Built.recorded`).

  The right-hand sides of the grammar are taken to fit the positions (`Item`).
-/
import LRAutomata.Proofs.Automaton.Calls

namespace LRAutomata

/-! ## What precedence says -/

/-- Precedence decides between a token and a rule: the higher level wins, and at
    equal levels the associativity of the token, if it has any. -/
inductive Precedence.Judges (token rule : Precedence) : Resolution → (byAssoc : Bool) → Prop where
  | lower : token.level < rule.level → Judges token rule .reduce false
  | higher : rule.level < token.level → Judges token rule .shift false
  | left : token.level = rule.level → token.assoc = .left → Judges token rule .reduce true
  | right : token.level = rule.level → token.assoc = .right → Judges token rule .shift true
  | nonassoc : token.level = rule.level → token.assoc = .nonassoc → Judges token rule .error false

/-- Precedence leaves the choice open: one of them has none, or the levels are
    equal and the token has no associativity. -/
def Precedence.LeavesOpen (token rule : Option Precedence) : Prop :=
  token = none ∨ rule = none ∨ ∃ p p' : Precedence, token = some p ∧ rule = some p' ∧
    p.level = p'.level ∧ p.assoc = .precedence

theorem Verdict.ofPrecedence_eq_decided_iff {token rule : Option Precedence}
    {resolution : Resolution} {byAssoc : Bool} :
    ofPrecedence token rule = .decided resolution byAssoc ↔
      ∃ p p', token = some p ∧ rule = some p' ∧ p.Judges p' resolution byAssoc := by
  constructor
  · intro h
    match token, rule with
    | none, _ => cases h
    | some _, none => cases h
    | some p, some p' =>
      refine ⟨p, p', rfl, rfl, ?_⟩
      rw [ofPrecedence] at h
      split at h
      case isTrue hlt => cases h; exact .lower hlt
      split at h
      case isTrue hlt => cases h; exact .higher hlt
      have heq : p.level = p'.level := by omega
      split at h <;> cases h
      case h_2 hassoc => exact .right heq hassoc
      case h_3 hassoc => exact .left heq hassoc
      case h_4 hassoc => exact .nonassoc heq hassoc
  · rintro ⟨p, p', rfl, rfl, h⟩
    rw [ofPrecedence]
    cases h with
    | lower hlt => rw [if_pos hlt]
    | higher hlt => rw [if_neg (by omega), if_pos hlt]
    | left heq hassoc | right heq hassoc | nonassoc heq hassoc =>
      rw [if_neg (by omega), if_neg (by omega), hassoc]

theorem Verdict.ofPrecedence_eq_undecided_iff {token rule : Option Precedence} :
    ofPrecedence token rule = .undecided ↔ Precedence.LeavesOpen token rule := by
  constructor
  · intro h
    match token, rule with
    | none, _ => exact .inl rfl
    | some _, none => exact .inr (.inl rfl)
    | some p, some p' =>
      rw [ofPrecedence] at h
      split at h
      · cases h
      split at h
      · cases h
      split at h <;> cases h
      case h_1 hassoc => exact .inr (.inr ⟨p, p', rfl, rfl, by omega, hassoc⟩)
  · rintro (rfl | rfl | ⟨p, p', rfl, rfl, heq, hassoc⟩)
    · rfl
    · cases token <;> rfl
    · rw [ofPrecedence, if_neg (by omega), if_neg (by omega), hassoc]

namespace State

/-! ## What a state should record -/

/-- The state can shift the symbol, and reduce on it. -/
def Meets (s : State) (t : SymbolId) (r : Reduction) : Prop :=
  t ∈ s.edges.map Edge.symbol ∧ r ∈ s.reductions ∧ t ∈ r.tokens

/-- How many records there are of a shift of the symbol and the reduction of the item. -/
def recordCount (s : State) (t : SymbolId) (i : Item) : Nat :=
  s.conflicts.count (.shiftReduce t i) +
    s.resolved.countP fun c => c.symbol = t ∧ c.rule = i.rule

/-- The reduction has more tokens than the other, or as many and no greater rule. -/
def Precedes (r r' : Reduction) : Prop :=
  r'.tokens.size < r.tokens.size ∨ r'.tokens.size = r.tokens.size ∧ r.rule ≤ r'.rule

/-- The records, the marks and the default reduction of a state are those that
    its shifts and its reductions call for. -/
structure Recorded (g : Grammar) (s : State) : Prop where
  nodup_shifts : (s.edges.map Edge.symbol).Nodup
  nodup_rules : (s.reductions.map Reduction.rule).Nodup
  /-- Of every meeting there is one record, -/
  one_record : ∀ {t r}, s.Meets t r → s.recordCount t r.item = 1
  /-- a conflict where precedence leaves it open, -/
  shiftReduce_iff : ∀ {t i}, .shiftReduce t i ∈ s.conflicts ↔ ∃ r, s.Meets t r ∧ r.item = i ∧
    Precedence.LeavesOpen (g.symbol t).precedence (g.rulePrecedence r.rule)
  /-- and else what precedence says; there are no other records. -/
  resolved_iff : ∀ {c}, c ∈ s.resolved ↔ ∃ r, s.Meets c.symbol r ∧ r.rule = c.rule ∧
    ∃ p p', (g.symbol c.symbol).precedence = some p ∧ g.rulePrecedence c.rule = some p' ∧
      p.Judges p' c.resolution c.byAssoc
  /-- The conflicts between reductions are the pairs with common tokens, which are
      listed in ascending order. -/
  reduceReduce_iff : ∀ {ts i₁ i₂}, .reduceReduce ts i₁ i₂ ∈ s.conflicts ↔
    ∃ (n₁ n₂ : Nat) (r₁ r₂ : Reduction), n₁ < n₂ ∧ s.reductions[n₁]? = some r₁ ∧ s.reductions[n₂]? = some r₂ ∧
      r₁.item = i₁ ∧ r₂.item = i₂ ∧ ts ≠ [] ∧ ts.Pairwise (· < ·) ∧
      ∀ t, t ∈ ts ↔ t ∈ r₁.tokens ∧ t ∈ r₂.tokens
  nodup_conflicts : s.conflicts.Nodup
  nodup_resolved : s.resolved.Nodup
  /-- A shift is deselected where it loses, -/
  deselected_shift : ∀ {t}, s.isSelected t = false ↔
    ∃ c ∈ s.resolved, c.symbol = t ∧ (c.resolution = .reduce ∨ c.resolution = .error)
  /-- and so is a token of a reduction. -/
  deselected_token : ∀ {r t}, r ∈ s.reductions → (t ∈ r.deselected ↔ ∃ c ∈ s.resolved,
    c.symbol = t ∧ c.rule = r.rule ∧ (c.resolution = .shift ∨ c.resolution = .error))
  /-- There is a default reduction unless something speaks against it; -/
  hasDefault_iff : s.defaultRule.isSome ↔ s.reductions ≠ [] ∧ s.conflicts = [] ∧
    SymbolId.error ∉ s.edges.map Edge.symbol
  /-- it precedes the other reductions, and is marked. -/
  default_precedes : ∀ {ρ}, s.defaultRule = some ρ →
    ∃ r ∈ s.reductions, r.rule = ρ ∧ ∀ r' ∈ s.reductions, Precedes r r'
  isDefault_iff : ∀ {r}, r ∈ s.reductions → (r.isDefault = true ↔ s.defaultRule = some r.rule)

/-! ## Meetings and their records -/

section Encounters
variable {g : Grammar} {c : Core} {reductions : List Reduction} {m m' : Encounter}

theorem verdict_of_mem_encounters (hm : m ∈ encounters g c reductions) :
    m.verdict = g.verdict m.symbol m.item.rule := by
  obtain ⟨e, -, r, -, -, rfl⟩ := mem_encounters.1 hm
  rfl

/-- No shift meets a reduction twice. -/
theorem nodup_encounters (hedges : (c.edges.map Edge.symbol).Nodup)
    (hrules : (reductions.map Reduction.rule).Nodup) :
    ((encounters g c reductions).map fun m => (m.symbol, m.item.rule)).Nodup := by
  have keys : (encounters g c reductions).map (fun m => (m.symbol, m.item.rule)) =
      c.edges.flatMap fun e =>
        (reductions.filter fun r => e.symbol ∈ r.tokens).map fun r => (e.symbol, r.rule) := by
    simp only [encounters, List.map_flatMap, List.map_map]; rfl
  rw [keys, List.nodup_flatMap]
  constructor
  · intro e _
    refine List.Nodup.of_map Prod.snd ?_
    rw [List.map_map]
    exact hrules.sublist (List.filter_sublist.map _)
  · refine (List.pairwise_map.1 hedges).imp fun {e e'} hne k hk hk' => hne ?_
    obtain ⟨_, -, rfl⟩ := List.mem_map.1 hk
    obtain ⟨_, -, heq⟩ := List.mem_map.1 hk'
    exact (congrArg Prod.fst heq).symm

theorem mem_shiftReduceConflicts {met : List Encounter} {t : SymbolId} {i : Item} :
    .shiftReduce t i ∈ shiftReduceConflicts met ↔
      ∃ m ∈ met, m.symbol = t ∧ m.item = i ∧ m.verdict = .undecided := by
  rw [shiftReduceConflicts, List.mem_filterMap]
  refine exists_congr fun m => and_congr_right fun _ => ?_
  cases m.verdict <;> simp

theorem reduceReduce_not_mem {met : List Encounter} {ts : List SymbolId} {i₁ i₂ : Item} :
    .reduceReduce ts i₁ i₂ ∉ shiftReduceConflicts met := by
  intro h
  obtain ⟨m, -, heq⟩ := List.mem_filterMap.1 h
  split at heq <;> cases heq

theorem mem_resolutions {met : List Encounter} {r : ResolvedConflict} :
    r ∈ resolutions met ↔ ∃ m ∈ met, m.symbol = r.symbol ∧ m.item.rule = r.rule ∧
      m.verdict = .decided r.resolution r.byAssoc := by
  rw [resolutions, List.mem_filterMap]
  refine exists_congr fun m => and_congr_right fun _ => ?_
  obtain ⟨t, ρ, resolution, byAssoc⟩ := r
  cases m.verdict <;> simp

/-- The records of a symbol and a rule are as many as their meetings. -/
theorem count_records {met : List Encounter} (t : SymbolId) (i : Item)
    (hitem : ∀ m ∈ met, m.item.rule = i.rule → m.item = i) :
    (shiftReduceConflicts met).count (.shiftReduce t i) +
        (resolutions met).countP (fun c => c.symbol = t ∧ c.rule = i.rule) =
      (met.map fun m => (m.symbol, m.item.rule)).count (t, i.rule) := by
  induction met with
  | nil => rfl
  | cons m met ih =>
    have ih := ih fun m hm => hitem m (List.mem_cons_of_mem _ hm)
    have same : m.item = i ↔ m.item.rule = i.rule :=
      ⟨congrArg Item.rule, hitem m List.mem_cons_self⟩
    rw [List.map_cons, List.count_cons, ← ih]
    cases hv : m.verdict with
    | undecided =>
      rw [shiftReduceConflicts, resolutions, List.filterMap_cons_some (by rw [hv]),
        List.filterMap_cons_none (by rw [hv]), List.count_cons]
      simp only [beq_iff_eq, Conflict.shiftReduce.injEq, Prod.mk.injEq, same]
      exact Nat.add_right_comm ..
    | decided resolution byAssoc =>
      rw [shiftReduceConflicts, resolutions, List.filterMap_cons_none (by rw [hv]),
        List.filterMap_cons_some (by rw [hv]), List.countP_cons]
      simp only [beq_iff_eq, Prod.mk.injEq, decide_eq_true_eq]
      exact (Nat.add_assoc ..).symm

end Encounters

/-! ## Conflicts between reductions -/

section ReduceReduce
variable {reductions : List Reduction} {c : Conflict}

theorem mem_reduceReduceConflicts : c ∈ reduceReduceConflicts reductions ↔
    ∃ (n₁ n₂ : Nat) (r₁ r₂ : Reduction), n₁ < n₂ ∧ reductions[n₁]? = some r₁ ∧ reductions[n₂]? = some r₂ ∧
      (r₁.tokens ∩ r₂.tokens).isEmpty = false ∧
      c = .reduceReduce (r₁.tokens ∩ r₂.tokens).toList r₁.item r₂.item := by
  induction reductions with
  | nil => simp [reduceReduceConflicts]
  | cons r rest ih =>
    rw [reduceReduceConflicts, List.mem_append, ih, List.mem_filterMap]
    simp only [Option.ite_none_left_eq_some, Option.some.injEq, Bool.not_eq_true]
    constructor
    · rintro (⟨r₂, hr₂, hne, rfl⟩ | ⟨n₁, n₂, r₁, r₂, hlt, h₁, h₂, hne, rfl⟩)
      · obtain ⟨n, hn⟩ := List.mem_iff_getElem?.1 hr₂
        exact ⟨0, n + 1, r, r₂, by omega, rfl, hn, hne, rfl⟩
      · exact ⟨n₁ + 1, n₂ + 1, r₁, r₂, by omega, h₁, h₂, hne, rfl⟩
    · rintro ⟨n₁, n₂, r₁, r₂, hlt, h₁, h₂, hne, rfl⟩
      obtain ⟨n₂, rfl⟩ : ∃ n, n₂ = n + 1 := ⟨n₂ - 1, by omega⟩
      cases n₁ with
      | zero =>
        obtain rfl := Option.some.inj h₁
        exact .inl ⟨r₂, List.mem_of_getElem? h₂, hne, rfl⟩
      | succ n₁ => exact .inr ⟨n₁, n₂, r₁, r₂, by omega, h₁, h₂, hne, rfl⟩

theorem shiftReduce_not_mem {t : SymbolId} {i : Item} :
    .shiftReduce t i ∉ reduceReduceConflicts reductions := by
  intro h
  obtain ⟨_, _, _, _, -, -, -, -, ⟨⟩⟩ := mem_reduceReduceConflicts.1 h

/-- Two reductions are recorded together once. -/
theorem nodup_reduceReduceConflicts (hrules : (reductions.map Reduction.rule).Nodup) :
    (reduceReduceConflicts reductions).Nodup := by
  induction reductions with
  | nil => exact .nil
  | cons r rest ih =>
    rw [List.map_cons, List.nodup_cons] at hrules
    rw [reduceReduceConflicts]
    refine List.Nodup.append ?_ (ih hrules.2) ?_
    · refine (List.pairwise_map.1 hrules.2).filterMap _ fun r₁ r₂ hne c₁ h₁ c₂ h₂ heq => hne ?_
      simp only [Option.ite_none_left_eq_some, Option.some.injEq] at h₁ h₂
      have hsame := h₁.2.trans (heq.trans h₂.2.symm)
      exact congrArg Item.rule (Conflict.reduceReduce.inj hsame).2.2
    · intro c hc hc'
      obtain ⟨r₂, -, h⟩ := List.mem_filterMap.1 hc
      obtain ⟨n₁, _, r₁, _, -, hr₁, -, -, rfl⟩ := mem_reduceReduceConflicts.1 hc'
      simp only [Option.ite_none_left_eq_some, Option.some.injEq] at h
      have hitem := (Conflict.reduceReduce.inj h.2).2.1
      have hrule : r.rule = r₁.rule := congrArg Item.rule hitem
      exact hrules.1 (hrule ▸ List.mem_map_of_mem (List.mem_of_getElem? hr₁))

end ReduceReduce

/-! ## The default reduction -/

section Widest
variable {reductions : List Reduction} {r r' r'' : Reduction}

theorem Precedes.refl (r : Reduction) : Precedes r r :=
  .inr ⟨rfl, Nat.le_refl _⟩

theorem Precedes.trans (h : Precedes r r') (h' : Precedes r' r'') : Precedes r r'' := by
  rcases h with hlt | ⟨heq, hle⟩
  · rcases h' with hlt' | ⟨heq', -⟩
    · exact .inl (Nat.lt_trans hlt' hlt)
    · exact .inl (heq' ▸ hlt)
  · rcases h' with hlt' | ⟨heq', hle'⟩
    · exact .inl (heq ▸ hlt')
    · exact .inr ⟨heq'.trans heq, Nat.le_trans hle hle'⟩

theorem Precedes.total (r r' : Reduction) : Precedes r r' ∨ Precedes r' r := by
  rcases Nat.lt_trichotomy r.tokens.size r'.tokens.size with hlt | heq | hlt
  · exact .inr (.inl hlt)
  · exact (Nat.le_total r.rule r'.rule).imp (fun h => .inr ⟨heq.symm, h⟩) fun h => .inr ⟨heq, h⟩
  · exact .inl (.inl hlt)

theorem widest?_isSome : (widest? reductions).isSome ↔ reductions ≠ [] := by
  cases reductions with
  | nil => simp [widest?]
  | cons r rest =>
    rw [widest?]
    split
    · simp
    · split <;> simp

theorem precedes_of_widest? (h : widest? reductions = some r) :
    r ∈ reductions ∧ ∀ r' ∈ reductions, Precedes r r' := by
  induction reductions generalizing r with
  | nil => cases h
  | cons r₀ rest ih =>
    rw [widest?] at h
    split at h
    · rename_i hnone
      obtain rfl := Option.some.inj h
      have hrest : rest = [] := by
        apply Classical.byContradiction
        intro hne
        have hsome := widest?_isSome.2 hne
        rw [hnone] at hsome; cases hsome
      simp [hrest, Precedes.refl]
    · rename_i best hbest
      obtain ⟨hmem, hall⟩ := ih hbest
      split at h <;> obtain rfl := Option.some.inj h
      · rename_i hwider
        have hfirst : Precedes r₀ best := hwider
        refine ⟨List.mem_cons_self, List.forall_mem_cons.2 ⟨.refl _, fun r' hr' => ?_⟩⟩
        exact hfirst.trans (hall r' hr')
      · rename_i hnot
        have hbest : Precedes best r₀ := (Precedes.total r₀ best).resolve_left hnot
        exact ⟨List.mem_cons_of_mem _ hmem, List.forall_mem_cons.2 ⟨hbest, hall⟩⟩

end Widest

/-! ## States from their items -/

section OfCore
variable {g : Grammar} {la : OrderedMap StateRule NatSet} {c : Core} {q : StateId} {t : SymbolId}
variable {r : Reduction} {i : Item}

/-- The reductions are those before any is marked. -/
theorem mem_reductions_ofCore : r ∈ (ofCore g la c q).reductions ↔
    ∃ r₀ ∈ reductionsOf g la c q, r = { r₀ with
      deselected := losingTokens (ofCore g la c q).resolved r₀.rule
      isDefault := (ofCore g la c q).defaultRule = some r₀.rule } := by
  show r ∈ (reductionsOf g la c q).map _ ↔ _
  rw [List.mem_map]
  exact exists_congr fun r₀ => and_congr_right fun _ => eq_comm

theorem exists_meets_ofCore : (∃ r, (ofCore g la c q).Meets t r ∧ r.item = i) ↔
    ∃ m ∈ encounters g c (reductionsOf g la c q), m.symbol = t ∧ m.item = i := by
  constructor
  · rintro ⟨r, ⟨ht, hr, htokens⟩, rfl⟩
    obtain ⟨e, he, rfl⟩ := List.mem_map.1 ht
    obtain ⟨r₀, hr₀, rfl⟩ := mem_reductions_ofCore.1 hr
    exact ⟨_, mem_encounters.2 ⟨e, he, r₀, hr₀, htokens, rfl⟩, rfl, rfl⟩
  · rintro ⟨m, hm, rfl, rfl⟩
    obtain ⟨e, he, r₀, hr₀, htokens, rfl⟩ := mem_encounters.1 hm
    exact ⟨_, ⟨List.mem_map_of_mem he, mem_reductions_ofCore.2 ⟨r₀, hr₀, rfl⟩, htokens⟩, rfl⟩

theorem getElem?_reductions_ofCore {n : Nat} : (ofCore g la c q).reductions[n]? = some r ↔
    ∃ r₀, (reductionsOf g la c q)[n]? = some r₀ ∧ r = { r₀ with
      deselected := losingTokens (ofCore g la c q).resolved r₀.rule
      isDefault := (ofCore g la c q).defaultRule = some r₀.rule } := by
  show ((reductionsOf g la c q).map _)[n]? = some r ↔ _
  rw [List.getElem?_map, Option.map_eq_some_iff]
  exact exists_congr fun r₀ => and_congr_right fun _ => eq_comm

theorem conflicts_ofCore : (ofCore g la c q).conflicts =
    shiftReduceConflicts (encounters g c (reductionsOf g la c q)) ++
      reduceReduceConflicts (reductionsOf g la c q) := rfl

theorem resolved_ofCore : (ofCore g la c q).resolved =
    resolutions (encounters g c (reductionsOf g la c q)) := rfl

theorem defaultRule_ofCore : (ofCore g la c q).defaultRule =
    defaultRule? c (reductionsOf g la c q) (ofCore g la c q).conflicts := rfl

theorem reductions_ofCore_eq_nil_iff : (ofCore g la c q).reductions = [] ↔
    reductionsOf g la c q = [] :=
  List.map_eq_nil_iff

theorem shiftReduce_mem_conflicts_ofCore : .shiftReduce t i ∈ (ofCore g la c q).conflicts ↔
    .shiftReduce t i ∈ shiftReduceConflicts (encounters g c (reductionsOf g la c q)) := by
  rw [conflicts_ofCore, List.mem_append, or_iff_left shiftReduce_not_mem]

/-- The tokens on which an action loses, from the records. -/
theorem mem_losingShifts {resolved : List ResolvedConflict} : t ∈ losingShifts resolved ↔
    ∃ c ∈ resolved, c.symbol = t ∧ (c.resolution = .reduce ∨ c.resolution = .error) := by
  simp only [losingShifts, NatSet.mem_ofList, List.mem_map, List.mem_filter, decide_eq_true_eq]
  refine exists_congr fun c => ?_
  cases c.resolution <;> simp

theorem mem_losingTokens_iff {resolved : List ResolvedConflict} {ρ : RuleId} :
    t ∈ losingTokens resolved ρ ↔ ∃ c ∈ resolved, c.symbol = t ∧ c.rule = ρ ∧
      (c.resolution = .shift ∨ c.resolution = .error) := by
  simp only [losingTokens, NatSet.mem_ofList, List.mem_map, List.mem_filter, decide_eq_true_eq]
  refine exists_congr fun c => ?_
  cases c.resolution <;> simp [and_comm, and_assoc]

theorem toList_ne_nil {s : NatSet} : s.toList ≠ [] ↔ s.isEmpty = false := by
  rw [← Bool.not_eq_true, NatSet.isEmpty_iff, Ne, List.eq_nil_iff_forall_not_mem]
  simp only [NatSet.mem_toList]

theorem hasErrorShift_iff : c.hasErrorShift = true ↔ SymbolId.error ∈ c.edges.map Edge.symbol := by
  simp [Core.hasErrorShift, List.any_eq_true]

theorem items_eq_of_rule_eq (hrules : ((reductionsOf g la c q).map Reduction.rule).Nodup)
    {m m' : Encounter} (hm : m ∈ encounters g c (reductionsOf g la c q))
    (hm' : m' ∈ encounters g c (reductionsOf g la c q)) (heq : m.item.rule = m'.item.rule) :
    m.item = m'.item := by
  obtain ⟨_, -, r, hr, -, rfl⟩ := mem_encounters.1 hm
  obtain ⟨_, -, r', hr', -, rfl⟩ := mem_encounters.1 hm'
  exact congrArg Reduction.item (List.inj_on_of_nodup_map hrules hr hr' heq)

/-- A meeting is recorded once. -/
theorem recordCount_ofCore (hedges : (c.edges.map Edge.symbol).Nodup)
    (hrules : ((reductionsOf g la c q).map Reduction.rule).Nodup)
    (hr : (ofCore g la c q).Meets t r) : (ofCore g la c q).recordCount t r.item = 1 := by
  obtain ⟨m, hm, rfl, hitem⟩ := exists_meets_ofCore.1 ⟨r, hr, rfl⟩
  rw [recordCount, conflicts_ofCore, resolved_ofCore, List.count_append,
    List.count_eq_zero_of_not_mem shiftReduce_not_mem, Nat.add_zero,
    count_records m.symbol r.item fun m' hm' hrule => by
      rw [← hitem] at hrule ⊢; exact items_eq_of_rule_eq hrules hm' hm hrule]
  refine List.count_eq_one_of_mem (nodup_encounters hedges hrules) (List.mem_map.2 ⟨m, hm, ?_⟩)
  rw [hitem]

theorem shiftReduce_mem_ofCore_iff : .shiftReduce t i ∈ (ofCore g la c q).conflicts ↔
    ∃ r, (ofCore g la c q).Meets t r ∧ r.item = i ∧
      Precedence.LeavesOpen (g.symbol t).precedence (g.rulePrecedence r.rule) := by
  rw [shiftReduce_mem_conflicts_ofCore, mem_shiftReduceConflicts]
  constructor
  · rintro ⟨m, hm, rfl, rfl, hv⟩
    obtain ⟨r, hr, hitem⟩ := exists_meets_ofCore.2 ⟨m, hm, rfl, rfl⟩
    refine ⟨r, hr, hitem, Verdict.ofPrecedence_eq_undecided_iff.1 ?_⟩
    rw [← hv, verdict_of_mem_encounters hm, Reduction.rule, hitem]; rfl
  · rintro ⟨r, hr, rfl, hopen⟩
    obtain ⟨m, hm, rfl, hitem⟩ := exists_meets_ofCore.1 ⟨r, hr, rfl⟩
    refine ⟨m, hm, rfl, hitem, ?_⟩
    rw [verdict_of_mem_encounters hm, hitem]
    exact Verdict.ofPrecedence_eq_undecided_iff.2 hopen

theorem mem_resolved_ofCore_iff {d : ResolvedConflict} : d ∈ (ofCore g la c q).resolved ↔
    ∃ r, (ofCore g la c q).Meets d.symbol r ∧ r.rule = d.rule ∧
      ∃ p p', (g.symbol d.symbol).precedence = some p ∧ g.rulePrecedence d.rule = some p' ∧
        p.Judges p' d.resolution d.byAssoc := by
  rw [resolved_ofCore, mem_resolutions]
  constructor
  · rintro ⟨m, hm, ht, hrule, hv⟩
    obtain ⟨r, hr, hitem⟩ := exists_meets_ofCore.2 ⟨m, hm, rfl, rfl⟩
    refine ⟨r, ht ▸ hr, by rw [Reduction.rule, hitem, hrule],
      Verdict.ofPrecedence_eq_decided_iff.1 ?_⟩
    rw [← hv, verdict_of_mem_encounters hm, ht, hrule]; rfl
  · rintro ⟨r, hr, hrule, hjudges⟩
    obtain ⟨m, hm, ht, hitem⟩ := exists_meets_ofCore.1 ⟨r, hr, rfl⟩
    have hrule' : m.item.rule = d.rule := by rw [hitem]; exact hrule
    refine ⟨m, hm, ht, hrule', ?_⟩
    rw [verdict_of_mem_encounters hm, ht, hrule']
    exact Verdict.ofPrecedence_eq_decided_iff.2 hjudges

theorem reduceReduce_mem_ofCore_iff {ts : List SymbolId} {i₁ i₂ : Item} :
    .reduceReduce ts i₁ i₂ ∈ (ofCore g la c q).conflicts ↔
      ∃ (n₁ n₂ : Nat) (r₁ r₂ : Reduction), n₁ < n₂ ∧
        (ofCore g la c q).reductions[n₁]? = some r₁ ∧ (ofCore g la c q).reductions[n₂]? = some r₂ ∧
        r₁.item = i₁ ∧ r₂.item = i₂ ∧ ts ≠ [] ∧ ts.Pairwise (· < ·) ∧
        ∀ t, t ∈ ts ↔ t ∈ r₁.tokens ∧ t ∈ r₂.tokens := by
  rw [conflicts_ofCore, List.mem_append, or_iff_right reduceReduce_not_mem,
    mem_reduceReduceConflicts]
  simp only [getElem?_reductions_ofCore]
  constructor
  · rintro ⟨n₁, n₂, r₁, r₂, hlt, h₁, h₂, hne, heq⟩
    obtain ⟨rfl, rfl, rfl⟩ := Conflict.reduceReduce.inj heq
    exact ⟨n₁, n₂, _, _, hlt, ⟨r₁, h₁, rfl⟩, ⟨r₂, h₂, rfl⟩, rfl, rfl, toList_ne_nil.2 hne,
      NatSet.pairwise_toList _, fun t => by rw [NatSet.mem_toList, NatSet.mem_inter]; rfl⟩
  · rintro ⟨n₁, n₂, _, _, hlt, ⟨r₁, h₁, rfl⟩, ⟨r₂, h₂, rfl⟩, rfl, rfl, hne, hsorted, hmem⟩
    have hts : ts = (r₁.tokens ∩ r₂.tokens).toList := by
      refine List.Pairwise.eq_of_mem_iff hsorted (NatSet.pairwise_toList _) fun t => ?_
      rw [hmem, NatSet.mem_toList, NatSet.mem_inter]; rfl
    exact ⟨n₁, n₂, r₁, r₂, hlt, h₁, h₂, toList_ne_nil.1 (hts ▸ hne), by rw [hts]⟩

theorem nodup_conflicts_ofCore (hedges : (c.edges.map Edge.symbol).Nodup)
    (hrules : ((reductionsOf g la c q).map Reduction.rule).Nodup) :
    (ofCore g la c q).conflicts.Nodup := by
  have nodup := nodup_encounters (g := g) hedges hrules
  rw [conflicts_ofCore]
  refine List.Nodup.append ?_ (nodup_reduceReduceConflicts hrules) ?_
  · refine (List.pairwise_map.1 nodup).filterMap _ fun m m' hne d h d' h' heq => hne ?_
    split at h <;> cases h
    split at h' <;> cases h'
    obtain ⟨hsymbol, hitem⟩ := Conflict.shiftReduce.inj heq
    rw [hsymbol, hitem]
  · intro d hd hd'
    obtain ⟨_, _, _, _, -, -, -, -, rfl⟩ := mem_reduceReduceConflicts.1 hd'
    exact reduceReduce_not_mem hd

theorem nodup_resolved_ofCore (hedges : (c.edges.map Edge.symbol).Nodup)
    (hrules : ((reductionsOf g la c q).map Reduction.rule).Nodup) :
    (ofCore g la c q).resolved.Nodup := by
  have nodup := nodup_encounters (g := g) hedges hrules
  refine (List.pairwise_map.1 nodup).filterMap _ fun m m' hne d h d' h' heq => hne ?_
  split at h <;> cases h
  split at h' <;> cases h'
  obtain ⟨hsymbol, hrule, -⟩ := ResolvedConflict.mk.inj heq
  rw [hsymbol, hrule]

theorem hasDefault_ofCore_iff : (ofCore g la c q).defaultRule.isSome ↔
    (ofCore g la c q).reductions ≠ [] ∧ (ofCore g la c q).conflicts = [] ∧
      SymbolId.error ∉ (ofCore g la c q).edges.map Edge.symbol := by
  have herror : SymbolId.error ∉ (ofCore g la c q).edges.map Edge.symbol ↔
      c.hasErrorShift = false := by
    rw [← Bool.not_eq_true, hasErrorShift_iff]; rfl
  rw [herror, Ne, reductions_ofCore_eq_nil_iff, defaultRule_ofCore, defaultRule?]
  split
  · rename_i h
    simp only [Bool.and_eq_true, List.isEmpty_iff, Bool.not_eq_true'] at h
    simp [h, widest?_isSome]
  · rename_i h
    simp only [Bool.and_eq_true, List.isEmpty_iff, Bool.not_eq_true'] at h
    simpa using fun _ hnil hshift => h ⟨hnil, hshift⟩

theorem precedes_of_defaultRule_ofCore {ρ : RuleId} (h : (ofCore g la c q).defaultRule = some ρ) :
    ∃ r ∈ (ofCore g la c q).reductions, r.rule = ρ ∧
      ∀ r' ∈ (ofCore g la c q).reductions, Precedes r r' := by
  rw [defaultRule_ofCore, defaultRule?] at h
  split at h
  · obtain ⟨r, hr, rfl⟩ := Option.map_eq_some_iff.1 h
    obtain ⟨hmem, hall⟩ := precedes_of_widest? hr
    refine ⟨_, mem_reductions_ofCore.2 ⟨r, hmem, rfl⟩, rfl, fun r' hr' => ?_⟩
    obtain ⟨r₀, hr₀, rfl⟩ := mem_reductions_ofCore.1 hr'
    exact hall r₀ hr₀
  · cases h

/-- **A state keeps the records that its shifts and reductions call for**, if
    these are on different symbols and by different rules. -/
theorem recorded_ofCore (hedges : (c.edges.map Edge.symbol).Nodup)
    (hrules : ((reductionsOf g la c q).map Reduction.rule).Nodup) :
    (ofCore g la c q).Recorded g where
  nodup_shifts := hedges
  nodup_rules := by
    show (((reductionsOf g la c q).map _).map Reduction.rule).Nodup
    rw [List.map_map]; exact hrules
  one_record := recordCount_ofCore hedges hrules
  shiftReduce_iff := shiftReduce_mem_ofCore_iff
  resolved_iff := mem_resolved_ofCore_iff
  reduceReduce_iff := reduceReduce_mem_ofCore_iff
  nodup_conflicts := nodup_conflicts_ofCore hedges hrules
  nodup_resolved := nodup_resolved_ofCore hedges hrules
  deselected_shift {t} := by
    rw [← mem_losingShifts]
    show decide (t ∉ losingShifts (ofCore g la c q).resolved) = false ↔ _
    simp
  deselected_token {r t} hr := by
    obtain ⟨r₀, hr₀, rfl⟩ := mem_reductions_ofCore.1 hr
    exact mem_losingTokens_iff
  hasDefault_iff := hasDefault_ofCore_iff
  default_precedes := precedes_of_defaultRule_ofCore
  isDefault_iff {r} hr := by
    obtain ⟨r₀, hr₀, rfl⟩ := mem_reductions_ofCore.1 hr
    exact decide_eq_true_iff

end OfCore

end State

namespace Automaton

theorem Built.recorded {g : Grammar} {a : Automaton} (h : Built g a) (wf : g.WellFormed)
    {q : StateId} (hq : q < a.states.size) : (a.state q).Recorded g := by
  cases h with
  | empty => cases hq
  | @ofGraph b hb =>
    rw [size_ofGraph] at hq
    rw [state_ofGraph g b hq]
    exact State.recorded_ofCore (hb.nodup_symbols hq) (nodup_reductionsAt hb.toOfItems wf hb.reachable hq)

end Automaton

end LRAutomata
