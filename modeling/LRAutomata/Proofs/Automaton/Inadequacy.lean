/-
  Conflicts and annotations are found in the same automata.

  A state that can do two things on a token has a conflict, which precedence may
  resolve, and an annotation for the inadequacy.  Both come down to the actions that
  the state offers:

  * an automaton is adequate iff no state offers two actions on a token
    (`Automaton.adequate_iff`);
  * the annotation of a state for its own inadequacy is entered at first and stays
    while the inadequacies are traced back (`exists_finds_of_manifestation`), and
    where no state has one nothing is ever entered.

  So splitting is needed iff a state has a conflict, be it resolved or not
  (`Automaton.annotations_iff_conflicts`).

  The right-hand sides of the grammar are taken to fit the positions (`Item`).
-/
import LRAutomata.Proofs.Automaton.Tracing

namespace LRAutomata

/-! ## Annotations stay -/

namespace LookaheadSources

variable {g : Grammar} {src : LookaheadSources} {a : Graph} {b : Automaton} {q : StateId} {w : Inadequacy}

/-- A state that has an annotation for an inadequacy keeps one when others are added. -/
theorem absorb_enters {own : OrderedMap Inadequacy Annotation} {added : List (Inadequacy × Annotation)}
    (hown : (own.get? w).isSome) : ((absorb own added).1.get? w).isSome := by
  have insert : ∀ {own : OrderedMap Inadequacy Annotation} (w' : Inadequacy) (n : Annotation),
      (own.get? w).isSome → ((own.insert w' n).get? w).isSome := by
    intro own w' n hown
    rw [OrderedMap.get?_insert]
    split
    · rfl
    · exact hown
  refine List.foldlRecOn
    (motive := fun r : OrderedMap Inadequacy Annotation × Bool => (r.1.get? w).isSome) added _ hown ?_
  rintro ⟨own, changed⟩ hown ⟨w', n⟩ -
  dsimp only
  split
  · exact hown
  · split
    · exact insert w' n hown
    · split
      · exact hown
      · exact insert w' _ hown

namespace Tracing

variable {t : Tracing}

/-- The state has an annotation for the inadequacy. -/
def Annotates (t : Tracing) (q : StateId) (w : Inadequacy) : Prop :=
  ((t.tables.getD q ∅).get? w).isSome

theorem Annotates.look (h : t.Annotates q w) (p q' : StateId) :
    (look g b src t p q').Annotates q w := by
  rw [Annotates, getD_look]
  split
  · rename_i hp
    obtain ⟨rfl, -⟩ := hp
    exact absorb_enters h
  · exact h

theorem Annotates.run : ∀ (rounds : Nat) {t : Tracing}, t.Annotates q w →
    (run g b src rounds t).Annotates q w :=
  (loop g b src).keeps fun t e pending h _ => Annotates.look (t := { t with pending }) h e.1 e.2

end Tracing

/-- The annotation of a state for its own inadequacy is entered and stays. -/
theorem exists_finds_of_manifestation (hq : q < a.size) {n : Annotation}
    (hn : (src.manifestations g ((Automaton.ofGraph g a).state q) q).get? w = some n) :
    ∃ n, (src.trace g (.ofGraph g a)).Finds q w n := by
  have hstart : (Tracing.start g (.ofGraph g a) src).Annotates q w :=
    Option.isSome_iff_exists.2 ⟨n, finds_start.2 ⟨hq, hn⟩⟩
  exact Option.isSome_iff_exists.1 (hstart.run _)

end LookaheadSources

namespace Automaton

open LookaheadSources

variable {g : Grammar} {a : Graph} {q : StateId} {α β : Action} {t : SymbolId}

/-! ## Inadequate states -/

/-- No state has a conflict, be it resolved or not. -/
def Adequate (a : Automaton) : Prop :=
  ∀ q, q < a.states.size → (a.state q).conflicts = [] ∧ (a.state q).resolved = []

instance (a : Automaton) : Decidable a.Adequate :=
  inferInstanceAs (Decidable (∀ q, q < a.states.size → _))

/-- A conflict is resolved only between a shift and a reduction on the same token. -/
theorem resolved_eq_nil_iff (items : a.OfItems g) (wf : g.WellFormed) (reach : a.Reachable)
    (hq : q < a.size) : ((ofGraph g a).state q).resolved = [] ↔
      ∀ t ρ, a.Offers g q .shift t → a.Offers g q (.reduce ρ) t → g.verdict t ρ = .undecided := by
  constructor
  · intro hresolved t ρ hshift hreduce
    cases hv : g.verdict t ρ with
    | undecided => rfl
    | decided resolution byAssoc =>
      obtain ⟨c, hc, -⟩ := (exists_resolved_iff items wf reach hq).2
        ⟨hshift, hreduce, byAssoc, hv⟩
      rw [hresolved] at hc
      cases hc
  · intro hall
    refine List.eq_nil_iff_forall_not_mem.2 fun c hc => ?_
    obtain ⟨hshift, hreduce, byAssoc, hv⟩ :=
      (exists_resolved_iff items wf reach hq).1 ⟨c, hc, rfl, rfl, rfl⟩
    rw [hall _ _ hshift hreduce] at hv
    cases hv

/-- **In an adequate automaton no state has two actions on a token.** -/
theorem adequate_iff (items : a.OfItems g) (wf : g.WellFormed) (reach : a.Reachable) :
    (ofGraph g a).Adequate ↔ ∀ q, q < a.size → ∀ t α β, a.Offers g q α t → a.Offers g q β t →
      α = β := by
  rw [Adequate, size_ofGraph]
  refine forall_congr' fun q => forall_congr' fun hq => ?_
  rw [conflicts_eq_nil_iff items wf reach hq, resolved_eq_nil_iff items wf reach hq]
  constructor
  · rintro ⟨hdecides, hundecided⟩ t α β hα hβ
    rcases hdecides t α β hα hβ with heq | hdecides
    · exact heq
    · match α, β, hα, hβ, hdecides with
      | .shift, .reduce ρ, hα, hβ, hdecides => exact absurd (hundecided t ρ hα hβ) hdecides
      | .reduce ρ, .shift, hα, hβ, hdecides => exact absurd (hundecided t ρ hβ hα) hdecides
  · intro hall
    exact ⟨fun t α β hα hβ => .inl (hall t α β hα hβ),
      fun t ρ hshift hreduce => by cases hall t _ _ hshift hreduce⟩

/-- Two actions on a token are an inadequacy. -/
theorem two_le_actionsOn (items : a.OfItems g) (wf : g.WellFormed) (reach : a.Reachable)
    (hq : q < a.size) (hα : a.Offers g q α t) (hβ : a.Offers g q β t) (hne : α ≠ β) :
    α ∈ actionsOn g ((ofGraph g a).state q) t ∧ β ∈ actionsOn g ((ofGraph g a).state q) t ∧
      2 ≤ (actionsOn g ((ofGraph g a).state q) t).length := by
  have hneeds := Graph.needsLookahead_of_offers hα hβ hne
  have hαmem := (mem_actionsOn items wf reach hq).2 ⟨hα, .inr hneeds⟩
  have hβmem := (mem_actionsOn items wf reach hq).2 ⟨hβ, .inr hneeds⟩
  refine ⟨hαmem, hβmem, ?_⟩
  match hactions : actionsOn g ((ofGraph g a).state q) t with
  | [] => rw [hactions] at hαmem; cases hαmem
  | [κ] =>
    rw [hactions, List.mem_singleton] at hαmem hβmem
    exact absurd (hαmem.trans hβmem.symm) hne
  | _ :: _ :: rest => exact Nat.le_add_left 2 rest.length

/-! ## Whether splitting is needed -/

/-- The annotations of the states before they are split are not all empty. -/
theorem isNeeded_iff_exists_finds : (Splitting.prepare g (ofGraph g a)).isNeeded = true ↔
    ∃ q w n, ((compute g (ofGraph g a)).trace g (ofGraph g a)).Finds q w n := by
  rw [Splitting.isNeeded, List.any_eq_true]
  constructor
  · rintro ⟨list, hlist, hne⟩
    obtain ⟨q, hq, rfl⟩ := List.mem_iff_getElem.1 hlist
    obtain ⟨⟨w, n⟩, hmem⟩ := List.exists_mem_of_ne_nil _ (by simpa using hne)
    refine ⟨q, w, n, Splitting.mem_annotationsOf.1 ?_⟩
    rw [Array.length_toList] at hq
    simpa [Splitting.annotationsOf, Array.getD, hq] using hmem
  · rintro ⟨q, w, n, hfinds⟩
    have hmem := Splitting.mem_annotationsOf.2 hfinds
    rw [Splitting.annotationsOf, Array.getD_eq_getD_getElem?] at hmem
    cases hlist : (Splitting.prepare g (ofGraph g a)).annotations[q]? with
    | none => rw [hlist] at hmem; cases hmem
    | some list =>
      rw [hlist, Option.getD_some] at hmem
      refine ⟨list, Array.mem_toList_iff.2 (Array.mem_of_getElem? hlist), ?_⟩
      cases list with
      | nil => cases hmem
      | cons => rfl

/-- **Splitting is needed** iff a state has two actions on a token. -/
theorem isNeeded_iff (items : a.OfItems g) (wf : g.WellFormed) (reach : a.Reachable) :
    (Splitting.prepare g (ofGraph g a)).isNeeded = true ↔
      ∃ q t α β, q < a.size ∧ α ≠ β ∧ a.Offers g q α t ∧ a.Offers g q β t := by
  rw [isNeeded_iff_exists_finds]
  constructor
  · rintro ⟨q, w, n, hfinds⟩
    obtain ⟨hw, -, hlength⟩ := map_action_of_finds hfinds
    have nodup := nodup_actionsOn items wf reach hw w.token
    have offers := fun α => (mem_actionsOn items wf reach hw (α := α) (t := w.token)).1
    rcases hactions : actionsOn g ((ofGraph g a).state w.state) w.token with _ | ⟨α, _ | ⟨β, rest⟩⟩
    · rw [hactions] at hlength; cases hlength
    · rw [hactions] at hlength; cases hlength; contradiction
    · rw [hactions] at nodup offers
      refine ⟨w.state, w.token, α, β, hw, ?_, (offers α (by simp)).1, (offers β (by simp)).1⟩
      rintro rfl
      simp at nodup
  · rintro ⟨q, t, α, β, hq, hne, hα, hβ⟩
    obtain ⟨-, -, hlength⟩ := two_le_actionsOn items wf reach hq hα hβ hne
    obtain ⟨n, hfinds⟩ := exists_finds_of_manifestation hq
      (get?_manifestations.2 ⟨(rfl : (⟨q, t⟩ : Inadequacy).state = q), hlength, rfl⟩)
    exact ⟨q, _, n, hfinds⟩

/-- Splitting is needed iff the automaton is not adequate. -/
theorem isNeeded_iff_not_adequate (items : a.OfItems g) (wf : g.WellFormed) (reach : a.Reachable) :
    (Splitting.prepare g (ofGraph g a)).isNeeded = true ↔ ¬ (ofGraph g a).Adequate := by
  rw [isNeeded_iff items wf reach, adequate_iff items wf reach]
  constructor
  · rintro ⟨q, t, α, β, hq, hne, hα, hβ⟩ hall
    exact hne (hall q hq t α β hα hβ)
  · intro hnot
    by_contra hnone
    exact hnot fun q hq t α β hα hβ => by_contra fun hne => hnone ⟨q, t, α, β, hq, hne, hα, hβ⟩

/-- An adequate automaton has no annotations, so there is nothing to split. -/
theorem Adequate.split_eq (h : (ofGraph g a).Adequate) (items : a.OfItems g) (wf : g.WellFormed)
    (reach : a.Reachable) : split g (ofGraph g a) = ofGraph g a := by
  rw [split, splitGraph?, if_neg fun hneeded => (isNeeded_iff_not_adequate items wf reach).1 hneeded h]

/-- **Conflicts and annotations are found together.**  The annotations of the LALR(1)
    automaton are not all empty iff one of its states has a conflict, be it resolved or
    not; where no state has one, splitting gives the LALR(1) automaton itself. -/
theorem annotations_iff_conflicts {decls : List Declaration} (hg : Grammar.define decls = .ok g) :
    ((∃ l ∈ ((compute g (lalr g)).annotations g (lalr g)).toList, l ≠ []) ↔
      ∃ q, q < (lalr g).states.size ∧
        (((lalr g).state q).conflicts ≠ [] ∨ ((lalr g).state q).resolved ≠ [])) ∧
    ((∀ q, q < (lalr g).states.size →
        ((lalr g).state q).conflicts = [] ∧ ((lalr g).state q).resolved = []) →
      generate g .ielr = generate g .lalr) := by
  have wf := Grammar.wellFormed_of_define hg
  have complete := complete_lr0 wf
  constructor
  · have hneeded := isNeeded_iff_not_adequate complete.toOfItems wf complete.reachable
    rw [Splitting.isNeeded, List.any_eq_true] at hneeded
    have hnot : ¬ (lalr g).Adequate ↔ ∃ q, q < (lalr g).states.size ∧
        (((lalr g).state q).conflicts ≠ [] ∨ ((lalr g).state q).resolved ≠ []) := by
      simp only [Adequate, not_forall, exists_prop, not_and_or, ne_eq]
    rw [← hnot, lalr, ← hneeded]
    simp [Splitting.prepare]
  · intro adequate
    exact Adequate.split_eq adequate complete.toOfItems wf complete.reachable

/-- The theorem speaks of an automaton in which precedence settles everything, and of one
    with an empty rule and nothing to settle. -/
theorem annotations_iff_conflicts_sums :
    (∃ g, Grammar.define [.precedence .left ["'+'"], .rule ⟨"E", ["E", "'+'", "E"], none, 1⟩,
        .rule ⟨"E", ["'n'"], none, 2⟩] = .ok g ∧
      (lalr g).shiftReduceCount = 0 ∧ (lalr g).reduceReduceCount = 0 ∧
      ∃ l ∈ ((compute g (lalr g)).annotations g (lalr g)).toList, l ≠ []) ∧
    ∃ g, Grammar.define [.rule ⟨"L", ["L", "'n'"], none, 1⟩, .rule ⟨"L", [], none, 2⟩] = .ok g ∧
      generate g .ielr = generate g .lalr := by
  constructor
  · obtain ⟨g, hg, hcheck⟩ := Grammar.exists_define [.precedence .left ["'+'"],
        .rule ⟨"E", ["E", "'+'", "E"], none, 1⟩, .rule ⟨"E", ["'n'"], none, 2⟩]
      (fun g => (lalr g).shiftReduceCount = 0 ∧ (lalr g).reduceReduceCount = 0 ∧
        ∃ q < (lalr g).states.size, ((lalr g).state q).resolved ≠ []) (by decide +kernel)
    obtain ⟨hshift, hreduce, q, hq, hresolved⟩ := of_decide_eq_true hcheck
    exact ⟨g, hg, hshift, hreduce, (annotations_iff_conflicts hg).1.2 ⟨q, hq, .inr hresolved⟩⟩
  · obtain ⟨g, hg, hcheck⟩ := Grammar.exists_define
      [.rule ⟨"L", ["L", "'n'"], none, 1⟩, .rule ⟨"L", [], none, 2⟩]
      (fun g => (lalr g).Adequate) (by decide +kernel)
    exact ⟨g, hg, (annotations_iff_conflicts hg).2 (of_decide_eq_true hcheck)⟩

end Automaton

end LRAutomata
