/-
  What lookaheads call for, and what is passed on when states are split.

  * the dominant actions of lookaheads are the selected ones that the annotation
    calls for (`Splitting.dominant?_eq_some_iff`), and joining compatible
    lookaheads does not change them (`Splitting.dominant?_join`);
  * the lookaheads that are passed on to a state are those that its annotations
    ask for (`Splitting.mem_propagate`), so they call there for what the
    annotations of the predecessor call for (`Splitting.calls_propagate`).
-/
import LRAutomata.Automaton.Splitting
import LRAutomata.Proofs.Automaton.Annotation

namespace LRAutomata.Splitting

open LookaheadSources

/-- The annotation calls for the action with the given lookaheads. -/
def CallsFor (n : Annotation) (t : SymbolId) (lookaheads : List NatSet) (α : Action) : Prop :=
  n.Calls (fun k => t ∈ lookaheads.getD k ∅) α

/-- All lookaheads of the first list are in the second. -/
def Below (lookaheads lookaheads' : List NatSet) : Prop :=
  ∀ k t, t ∈ lookaheads.getD k ∅ → t ∈ lookaheads'.getD k ∅

section Dominant
variable {sp : Splitting} {w : Inadequacy} {n : Annotation} {current incoming : List NatSet}
variable {D : List Action} {α : Action} {t : SymbolId}

theorem callsFor_of_mem {c : Contribution} (nodup : (n.map Contribution.action).Nodup) (hc : c ∈ n) :
    CallsFor n t current c.action ↔ c.isPresent t current = true := by
  rw [Contribution.isPresent_iff]
  constructor
  · rintro ⟨c', hc', haction, hbrought⟩
    rwa [List.inj_on_of_nodup_map nodup hc' hc haction] at hbrought
  · exact fun hbrought => ⟨c, hc, rfl, hbrought⟩

open Classical in
/-- The dominant actions are the selected ones among those called for. -/
theorem dominant?_eq_some_iff (nodup : (n.map Contribution.action).Nodup) :
    sp.dominant? w n current = some D ↔ (∃ α, CallsFor n w.token current α) ∧
      D = (n.map Contribution.action).filter fun α =>
        sp.isSelected w α && decide (CallsFor n w.token current α) := by
  have present : (n.filter (·.isPresent w.token current)).map Contribution.action =
      (n.map Contribution.action).filter fun α => decide (CallsFor n w.token current α) := by
    rw [List.filter_map]
    refine congrArg _ (List.filter_congr fun c hc => ?_)
    rw [Function.comp_apply, Bool.eq_iff_iff, decide_eq_true_eq, callsFor_of_mem nodup hc]
  have nonempty : (n.filter (·.isPresent w.token current)).isEmpty = false ↔
      ∃ α, CallsFor n w.token current α := by
    rw [List.isEmpty_eq_false_iff_exists_mem]
    constructor
    · rintro ⟨c, hc⟩
      obtain ⟨hc, hpresent⟩ := List.mem_filter.1 hc
      exact ⟨c.action, (callsFor_of_mem nodup hc).2 hpresent⟩
    · rintro ⟨_, c, hc, rfl, hbrought⟩
      exact ⟨c, List.mem_filter.2 ⟨hc, Contribution.isPresent_iff.2 hbrought⟩⟩
  rw [dominant?, present, ← nonempty, List.filter_filter]
  cases (n.filter (·.isPresent w.token current)).isEmpty
  · simp [eq_comm]
  · simp

theorem dominant?_eq_none_iff (nodup : (n.map Contribution.action).Nodup) :
    sp.dominant? w n current = none ↔ ∀ α, ¬ CallsFor n w.token current α := by
  constructor
  · intro hnone α hα
    rw [(dominant?_eq_some_iff nodup).2 ⟨⟨α, hα⟩, rfl⟩] at hnone; cases hnone
  · intro hnot
    cases hD : sp.dominant? w n current with
    | none => rfl
    | some D =>
      obtain ⟨⟨α, hα⟩, -⟩ := (dominant?_eq_some_iff nodup).1 hD
      exact absurd hα (hnot α)

theorem mem_dominant? (nodup : (n.map Contribution.action).Nodup)
    (hD : sp.dominant? w n current = some D) :
    α ∈ D ↔ CallsFor n w.token current α ∧ sp.isSelected w α = true := by
  obtain ⟨-, rfl⟩ := (dominant?_eq_some_iff nodup).1 hD
  simp only [List.mem_filter, Bool.and_eq_true, decide_eq_true_eq]
  rw [and_comm (a := sp.isSelected w α = true)]
  refine and_iff_right_of_imp fun ⟨hα, _⟩ => ?_
  obtain ⟨c, hc, rfl, -⟩ := hα
  exact List.mem_map_of_mem hc

open Classical in
/-- Lookaheads that call for the same selected actions have the same dominant ones. -/
theorem dominant?_eq_of_callsFor (nodup : (n.map Contribution.action).Nodup)
    (hD : sp.dominant? w n current = some D) (hcalls : ∃ α, CallsFor n w.token incoming α)
    (hsame : ∀ α, sp.isSelected w α = true →
      (CallsFor n w.token current α ↔ CallsFor n w.token incoming α)) :
    sp.dominant? w n incoming = some D := by
  obtain ⟨-, rfl⟩ := (dominant?_eq_some_iff nodup).1 hD
  refine (dominant?_eq_some_iff nodup).2 ⟨hcalls, List.filter_congr fun α _ => ?_⟩
  rw [Bool.eq_iff_iff, Bool.and_eq_true, Bool.and_eq_true, decide_eq_true_eq, decide_eq_true_eq]
  exact and_congr_right (hsame α)

/-- Two lookahead lists, one joined to the other. -/
def join (current incoming : List NatSet) : List NatSet :=
  current.zipWith (· ∪ ·) incoming

theorem mem_join (h : current.length = incoming.length) {k : Nat} :
    t ∈ (join current incoming).getD k ∅ ↔ t ∈ current.getD k ∅ ∨ t ∈ incoming.getD k ∅ := by
  rw [join, List.getD_eq_getElem?_getD, List.getD_eq_getElem?_getD, List.getD_eq_getElem?_getD,
    List.getElem?_zipWith]
  rcases Nat.lt_or_ge k current.length with hk | hk
  · rw [List.getElem?_eq_getElem hk, List.getElem?_eq_getElem (h ▸ hk)]
    simp
  · rw [List.getElem?_eq_none hk, List.getElem?_eq_none (h ▸ hk)]
    simp

theorem callsFor_join (h : current.length = incoming.length) :
    CallsFor n t (join current incoming) α ↔ CallsFor n t current α ∨ CallsFor n t incoming α := by
  simp only [CallsFor, mem_join h, Annotation.calls_or]

/-- **Joining compatible lookaheads** keeps the dominant actions. -/
theorem dominant?_join (nodup : (n.map Contribution.action).Nodup)
    (h : current.length = incoming.length) (hD : sp.dominant? w n current = some D)
    (hcompatible : ∀ D', sp.dominant? w n incoming = some D' → D = D') :
    sp.dominant? w n (join current incoming) = some D := by
  obtain ⟨⟨α, hα⟩, -⟩ := (dominant?_eq_some_iff nodup).1 hD
  refine dominant?_eq_of_callsFor nodup hD ⟨α, (callsFor_join h).2 (.inl hα)⟩ fun β hβ => ?_
  rw [callsFor_join h]
  refine ⟨.inl, fun hor => hor.elim id fun hincoming => ?_⟩
  cases hD' : sp.dominant? w n incoming with
  | none => exact absurd hincoming ((dominant?_eq_none_iff nodup).1 hD' β)
  | some D' =>
    have hmem := (mem_dominant? nodup hD').2 ⟨hincoming, hβ⟩
    rw [← hcompatible D' hD'] at hmem
    exact ((mem_dominant? nodup hD).1 hmem).1

theorem dominant?_join_right (nodup : (n.map Contribution.action).Nodup)
    (h : current.length = incoming.length) (hD : sp.dominant? w n incoming = some D)
    (hcompatible : ∀ D', sp.dominant? w n current = some D' → D' = D) :
    sp.dominant? w n (join current incoming) = some D := by
  cases hcurrent : sp.dominant? w n current with
  | some D' =>
    obtain rfl := hcompatible D' hcurrent
    exact dominant?_join nodup h hcurrent fun D' hD' => Option.some.inj (hD.symm.trans hD')
  | none =>
    have hnot := (dominant?_eq_none_iff nodup).1 hcurrent
    obtain ⟨⟨α, hα⟩, -⟩ := (dominant?_eq_some_iff nodup).1 hD
    refine dominant?_eq_of_callsFor nodup hD ⟨α, (callsFor_join h).2 (.inr hα)⟩ fun β _ => ?_
    rw [callsFor_join h, or_iff_right (hnot β)]

theorem isCompatible_iff {q : StateId} : sp.isCompatible q current incoming = true ↔
    ∀ w n, (w, n) ∈ sp.annotationsOf q → ∀ D D', sp.dominant? w n current = some D →
      sp.dominant? w n incoming = some D' → D = D' := by
  simp only [isCompatible, List.all_eq_true]
  constructor
  · intro hall w n hmem D D' hD hD'
    have := hall (w, n) hmem
    simpa [hD, hD'] using this
  · rintro hall ⟨w, n⟩ hmem
    dsimp only
    split
    · rename_i D D' hD hD'; exact decide_eq_true (hall w n hmem D D' hD hD')
    · rfl

theorem exists_of_not_isCompatible {q : StateId} (h : sp.isCompatible q current incoming = false) :
    ∃ w n D D', (w, n) ∈ sp.annotationsOf q ∧ sp.dominant? w n current = some D ∧
      sp.dominant? w n incoming = some D' ∧ D ≠ D' := by
  apply Classical.byContradiction
  intro hnone
  rw [isCompatible_iff.2 fun w n hmem D D' hD hD' => Classical.byContradiction fun hne =>
    hnone ⟨w, n, D, D', hmem, hD, hD', hne⟩] at h
  cases h

end Dominant

/-! ## Annotations and filters -/

section Prepare
variable {g : Grammar} {a : Graph} {p q : StateId} {t : SymbolId} {w : Inadequacy} {n : Annotation}
variable {k : Nat}

theorem size_tables (src : LookaheadSources) :
    (src.trace g (.ofGraph g a)).tables.size = a.size := by
  have run : ∀ (rounds : Nat) (tr : Tracing),
      (Tracing.run g (.ofGraph g a) src rounds tr).tables.size = tr.tables.size := by
    intro rounds
    induction rounds with
    | zero => intro tr; rfl
    | succ rounds ih =>
      intro tr
      rw [Tracing.run]
      split
      · rfl
      · rw [ih, Tracing.look]; exact Array.size_setIfInBounds
  rw [trace, run]
  simp [Tracing.start]

theorem annotations_prepare (g : Grammar) (b : Automaton) : (prepare g b).annotations =
    ((compute g b).trace g b).tables.map OrderedMap.toList := rfl

theorem mem_annotationsOf : (w, n) ∈ (prepare g (.ofGraph g a)).annotationsOf q ↔
    ((compute g (.ofGraph g a)).trace g (.ofGraph g a)).Finds q w n := by
  rw [annotationsOf, annotations_prepare, Tracing.Finds, ← OrderedMap.mem_toList,
    Array.getD_eq_getD_getElem?, Array.getD_eq_getD_getElem?, Array.getElem?_map]
  cases ((compute g (.ofGraph g a)).trace g (.ofGraph g a)).tables[q]? <;> rfl

/-- The token of an inadequacy added at each position listed. -/
def addToken (u : SymbolId) (tokens : Array NatSet) (ks : List Nat) : Array NatSet :=
  ks.foldl (fun tokens k => tokens.modify k (insert u)) tokens

theorem size_addToken (u : SymbolId) (ks : List Nat) (tokens : Array NatSet) :
    (addToken u tokens ks).size = tokens.size := by
  induction ks generalizing tokens with
  | nil => rfl
  | cons k ks ih => rw [addToken, List.foldl_cons, ← addToken, ih, Array.size_modify]

theorem mem_addToken {u : SymbolId} {ks : List Nat} {tokens : Array NatSet} :
    t ∈ (addToken u tokens ks).getD k ∅ ↔
      t ∈ tokens.getD k ∅ ∨ t = u ∧ k ∈ ks ∧ k < tokens.size := by
  have modify : ∀ (tokens : Array NatSet) (j : Nat), t ∈ (tokens.modify j (insert u)).getD k ∅ ↔
      t ∈ tokens.getD k ∅ ∨ t = u ∧ k = j ∧ k < tokens.size := by
    intro tokens j
    rw [Array.getD_eq_getD_getElem?, Array.getElem?_modify, Array.getD_eq_getD_getElem?]
    by_cases hk : k < tokens.size
    · by_cases hj : j = k
      · simp [hj, hk, NatSet.mem_insert, or_comm]
      · simp [hj, hk, Ne.symm hj]
    · simp [hk]
  induction ks generalizing tokens with
  | nil => simp [addToken]
  | cons j ks ih =>
    rw [addToken, List.foldl_cons, ← addToken]
    refine ih.trans ?_
    rw [Array.size_modify, modify, List.mem_cons, or_and_right, and_or_left, or_assoc]

theorem size_foldl_addToken (l : List (Inadequacy × Annotation)) (tokens : Array NatSet) :
    (l.foldl (fun tokens (w, n) => addToken w.token tokens n.contributors.toList) tokens).size =
      tokens.size := by
  induction l generalizing tokens with
  | nil => rfl
  | cons entry l ih => rw [List.foldl_cons, ih, size_addToken]

/-- The tokens of the annotations listed, at the positions to which they belong. -/
theorem mem_foldl_addToken {l : List (Inadequacy × Annotation)} {tokens : Array NatSet} :
    t ∈ (l.foldl (fun tokens (w, n) => addToken w.token tokens n.contributors.toList) tokens).getD k ∅ ↔
      t ∈ tokens.getD k ∅ ∨
        k < tokens.size ∧ ∃ w n, (w, n) ∈ l ∧ w.token = t ∧ k ∈ n.contributors := by
  induction l generalizing tokens with
  | nil => simp
  | cons entry l ih =>
    obtain ⟨w, n⟩ := entry
    rw [List.foldl_cons, ih, size_addToken, mem_addToken, NatSet.mem_toList, or_assoc]
    refine or_congr_right ?_
    constructor
    · rintro (⟨rfl, hk, hlt⟩ | ⟨hlt, w', n', hmem, htoken, hk⟩)
      · exact ⟨hlt, w, n, List.mem_cons_self, rfl, hk⟩
      · exact ⟨hlt, w', n', List.mem_cons_of_mem _ hmem, htoken, hk⟩
    · rintro ⟨hlt, w', n', hmem, rfl, hk⟩
      rcases List.mem_cons.1 hmem with heq | hmem
      · obtain ⟨rfl, rfl⟩ := Prod.mk.inj heq
        exact .inl ⟨rfl, hk, hlt⟩
      · exact .inr ⟨hlt, w', n', hmem, rfl, hk⟩

theorem getD_filters (hq : q < a.size) : (prepare g (.ofGraph g a)).filters.getD q [] =
    (((prepare g (.ofGraph g a)).annotationsOf q).foldl
      (fun tokens (w, n) => addToken w.token tokens n.contributors.toList)
      (Array.replicate (a.core q).kernel.length ∅)).toList := by
  have hsize : (prepare g (.ofGraph g a)).annotations.size = a.size := by
    rw [annotations_prepare, Array.size_map, size_tables]
  have hq₁ : q < (Automaton.ofGraph g a).states.size := by simpa using hq
  have hstate : (Automaton.ofGraph g a).states[q].toCore = a.core q := by
    rw [← Automaton.toCore_state g a q, Automaton.state]; simp [Array.getD, hq]
  show (filtersOf (.ofGraph g a) (prepare g (.ofGraph g a)).annotations).getD q [] = _
  rw [filtersOf, annotationsOf, Array.getD_eq_getD_getElem?]
  simp [hq, hsize, hstate, Array.getD, addToken]

theorem length_filters (hq : q < a.size) :
    ((prepare g (.ofGraph g a)).filters.getD q []).length = (a.core q).kernel.length := by
  rw [getD_filters hq, Array.length_toList, size_foldl_addToken, Array.size_replicate]

/-- The tokens of annotations matter for the kernel items that contribute. -/
theorem mem_filters (hq : q < a.size) :
    t ∈ ((prepare g (.ofGraph g a)).filters.getD q []).getD k ∅ ↔ k < (a.core q).kernel.length ∧
      ∃ w n, (w, n) ∈ (prepare g (.ofGraph g a)).annotationsOf q ∧ w.token = t ∧
        k ∈ n.contributors := by
  have hnone : t ∉ (Array.replicate (a.core q).kernel.length (∅ : NatSet)).getD k ∅ := by
    rw [Array.getD_eq_getD_getElem?, Array.getElem?_replicate]
    split <;> exact NatSet.not_mem_empty t
  rw [getD_filters hq, List.getD_eq_getElem?_getD, Array.getElem?_toList, ← Array.getD_eq_getD_getElem?,
    mem_foldl_addToken, or_iff_right hnone, Array.size_replicate]

/-- The actions that an annotation lists are different. -/
theorem nodup_annotation (h : a.OfItems g) (wf : g.WellFormed) (reach : a.Reachable)
    (hmem : (w, n) ∈ (prepare g (.ofGraph g a)).annotationsOf q) :
    (n.map Contribution.action).Nodup := by
  obtain ⟨hlt, hactions, -⟩ := map_action_of_finds (mem_annotationsOf.1 hmem)
  rw [hactions]
  exact Automaton.nodup_actionsOn h wf reach hlt _

/-! ## Passing on lookaheads -/

variable {source : List NatSet}

/-- The kernel items of a state are without repetitions. -/
theorem nodup_kernel (h : a.OfItems g) (reach : a.Reachable) (hq : q < a.size) :
    (a.core q).kernel.Nodup := by
  obtain ⟨γ, hγ⟩ := reach q hq
  rw [(h.reads_kernel hγ).2]
  exact (ItemSet.sorted_reached g γ).nodup

/-- The lookaheads of the item before `i`, which the kernel has at most once. -/
theorem mem_before {kernel : List Item} {i : Item} (nodup : kernel.Nodup) :
    (t ∈ match kernel.findIdx? fun j => j.precedes i with
      | some l => source.getD l ∅
      | none => ∅) ↔ ∃ l j, kernel[l]? = some j ∧ j.advance = i ∧ t ∈ source.getD l ∅ := by
  cases hfind : kernel.findIdx? fun j => j.precedes i with
  | none =>
    rw [List.findIdx?_eq_none_iff] at hfind
    simp only [NatSet.not_mem_empty, false_iff]
    rintro ⟨l, j, hj, hadvance, -⟩
    have := hfind j (List.mem_of_getElem? hj)
    simp [Item.precedes, hadvance] at this
  | some l =>
    obtain ⟨hl, hprecedes, -⟩ := List.findIdx?_eq_some_iff_getElem.1 hfind
    have hadvance : kernel[l].advance = i := by simpa [Item.precedes] using hprecedes
    constructor
    · intro ht; exact ⟨l, _, List.getElem?_eq_getElem hl, hadvance, ht⟩
    · rintro ⟨l', j, hj, hadvance', ht⟩
      obtain rfl := Item.advance_inj (hadvance'.trans hadvance.symm)
      rwa [(List.getElem?_inj hl nodup).1 ((List.getElem?_eq_getElem hl).trans hj.symm)]

theorem length_propagate (hq : q < a.size) :
    (propagate g (prepare g (.ofGraph g a)) p source q).length = (a.core q).kernel.length := by
  have hkernel : ((prepare g (.ofGraph g a)).automaton.state q).kernel = (a.core q).kernel := by
    rw [← Automaton.toCore_state g a q]; rfl
  rw [propagate, List.length_map, List.length_zip, length_filters hq, hkernel, Nat.min_self]

/-- **The lookaheads passed on** are those that matter of what the kernel items
    of the predecessor bring. -/
theorem mem_propagate (h : a.OfItems g) (reach : a.Reachable) (hp : p < a.size) (hq : q < a.size) :
    t ∈ (propagate g (prepare g (.ofGraph g a)) p source q).getD k ∅ ↔
      Passed g a (GotoFollows.compute g (.ofGraph g a)) p q t (fun l => t ∈ source.getD l ∅) k ∧
        t ∈ ((prepare g (.ofGraph g a)).filters.getD q []).getD k ∅ := by
  have hkernel : ∀ q, ((prepare g (.ofGraph g a)).automaton.state q).kernel = (a.core q).kernel := by
    intro q; rw [← Automaton.toCore_state g a q]; rfl
  have hfollows : (prepare g (.ofGraph g a)).follows = GotoFollows.compute g (.ofGraph g a) := rfl
  rw [propagate, hkernel, hkernel, hfollows, List.getD_eq_getElem?_getD, List.getElem?_map]
  rcases Nat.lt_or_ge k (a.core q).kernel.length with hk | hk
  · have hk' : k < ((prepare g (.ofGraph g a)).filters.getD q []).length := by
      rw [length_filters hq]; exact hk
    have hi := List.getElem?_eq_getElem hk
    have hzip : ((a.core q).kernel.zip ((prepare g (.ofGraph g a)).filters.getD q []))[k]? =
        some ((a.core q).kernel[k], ((prepare g (.ofGraph g a)).filters.getD q []).getD k ∅) := by
      rw [List.getElem?_eq_getElem (by rw [List.length_zip]; exact Nat.lt_min.2 ⟨hk, hk'⟩), List.getElem_zip,
        List.getD_eq_getElem?_getD, List.getElem?_eq_getElem hk', Option.getD_some]
    rw [hzip]
    generalize (a.core q).kernel[k] = i at hi
    simp only [Option.map_some, Option.getD_some, NatSet.mem_inter]
    refine and_congr_left fun _ => ?_
    have passed : Passed g a (GotoFollows.compute g (.ofGraph g a)) p q t
        (fun l => t ∈ source.getD l ∅) k ↔ i.rule ≠ RuleId.accept ∧
        if i.position = 1 then
          t ∈ (GotoFollows.compute g (.ofGraph g a)).always.getD ⟨p, i.lhs g⟩ ∅ ∨
            ∃ l, l ∈ (GotoFollows.compute g (.ofGraph g a)).kernelItems.getD ⟨p, i.lhs g⟩ ∅ ∧
              t ∈ source.getD l ∅
        else ∃ l j, (a.core p).kernel[l]? = some j ∧ j.advance = i ∧ t ∈ source.getD l ∅ := by
      simp [Passed, hi]
    rw [passed]
    by_cases hrule : i.rule = RuleId.accept
    · simp [hrule]
    by_cases hpos : i.position = 1
    · simp only [hrule, hpos, if_true, if_false, Lookaheads.mem_foldl_union, NatSet.mem_toList]
      exact (and_iff_right hrule).symm
    · simp only [hrule, hpos, if_false, ne_eq, not_false_eq_true, true_and]
      exact mem_before (nodup_kernel h reach hp)
  · rw [List.getElem?_eq_none (by simp [hk])]
    simp only [Option.map_none, Option.getD_none, NatSet.not_mem_empty, false_iff, not_and]
    rintro ⟨i, hi, -⟩
    rw [List.getElem?_eq_none hk] at hi; cases hi

/-- The lookaheads are among those of the kernel items of the state. -/
def Bounded (g : Grammar) (a : Graph) (q : StateId) (lookaheads : List NatSet) : Prop :=
  lookaheads.length = (a.core q).kernel.length ∧
    ∀ k t, t ∈ lookaheads.getD k ∅ → t ∈ (KernelLookaheads.compute g (.ofGraph g a)).get q k

theorem bounded_propagate (h : a.OfItems g) (wf : g.WellFormed) (link : a.Linked)
    (reach : a.Reachable) (hp : p < a.size) {X : SymbolId} (hX : a.next? p X = some q)
    (hsource : Bounded g a p source) :
    Bounded g a q (propagate g (prepare g (.ofGraph g a)) p source q) := by
  have hq := (h.next?_kernel hp hX).1
  refine ⟨length_propagate hq, fun k t ht => ?_⟩
  obtain ⟨hpassed, -⟩ := (mem_propagate h reach hp hq).1 ht
  exact mem_get_of_passed h wf link reach hp hX (hpassed.mono fun l => hsource.2 l t)

theorem bounded_join {current incoming : List NatSet} (h₁ : Bounded g a q current)
    (h₂ : Bounded g a q incoming) : Bounded g a q (join current incoming) := by
  have hlength := h₁.1.trans h₂.1.symm
  refine ⟨by rw [join, List.length_zipWith, h₁.1, h₂.1, Nat.min_self], fun k t ht => ?_⟩
  exact ((mem_join hlength).1 ht).elim (h₁.2 k t) (h₂.2 k t)

/-- **What is passed on calls for the same actions**: after a transition an
    annotation, of which the recorded one lists the kernel items, calls for what it
    calls for, seen from the predecessor. -/
theorem calls_propagate (h : a.OfItems g) (wf : g.WellFormed) (reach : a.Reachable) (hp : p < a.size)
    (hq : q < a.size) (hsource : Bounded g a p source) {m : Annotation}
    (hmem : (w, m) ∈ (prepare g (.ofGraph g a)).annotationsOf q)
    (hsub : ∀ k ∈ n.contributors, k ∈ m.contributors) (hn : InKernel a q n) {α : Action} :
    CallsFor n w.token (propagate g (prepare g (.ofGraph g a)) p source q) α ↔
      CallsFor (atPredecessor g (compute g (.ofGraph g a)) p (arrivals (.ofGraph g a) p q) w.token n)
        w.token source α := by
  have hP : ∀ l, w.token ∈ source.getD l ∅ →
      w.token ∈ (compute g (.ofGraph g a)).kernelLookaheads.get p l := fun l => hsource.2 l w.token
  rw [CallsFor, CallsFor, calls_atPredecessor h wf reach hp hP hn, follows_compute]
  refine Annotation.calls_congr fun k hk => ?_
  obtain ⟨i, hi, -⟩ := hn k hk
  rw [mem_propagate h reach hp hq]
  exact and_iff_left ((mem_filters hq).2 ⟨(List.getElem?_eq_some_iff.1 hi).1, w, m, hmem, rfl, hsub k hk⟩)

end Prepare

end LRAutomata.Splitting
