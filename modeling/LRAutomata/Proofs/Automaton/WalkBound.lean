/-
  The walk that splits states ends.

  Every state of the walk belongs to a state of the automaton, and two that
  belong to the same one call for different actions (`Walk.Spread`).  A state
  goes on calling for the same actions when further lookaheads reach it, so there
  are no more states than such choices (`Walk.Spread.size_le_choiceCount`).  Every
  step uses up some of what states may still receive (`Walk.potential`), and the
  bound of the walk covers all of it: when the walk stops, no state waits
  (`Splitting.queue_walk`).
-/
import LRAutomata.Proofs.Automaton.Walk

namespace LRAutomata.Splitting

open LookaheadSources

variable {g : Grammar} {a : Graph} {q s : StateId} {v : Inadequacy} {n : Annotation}

/-! ## The number of copies -/

/-- The actions of all inadequacies to which a state contributes. -/
def labels (sp : Splitting) (q : StateId) : List (Inadequacy × Action) :=
  (sp.annotationsOf q).flatMap fun (v, n) => n.map fun c => (v, c.action)

/-- The actions that lookaheads call for at all inadequacies. -/
def choices (sp : Splitting) (q : StateId) (lookaheads : List NatSet) : List (Inadequacy × Action) :=
  (sp.annotationsOf q).flatMap fun (v, n) =>
    ((sp.dominant? v n lookaheads).getD []).map fun α => (v, α)

theorem dominant?_sublist (sp : Splitting) (v : Inadequacy) (n : Annotation)
    (lookaheads : List NatSet) :
    ((sp.dominant? v n lookaheads).getD []).Sublist (n.map Contribution.action) := by
  rw [dominant?]
  split
  · exact List.nil_sublist _
  · exact List.filter_sublist.trans (List.filter_sublist.map _)

theorem choices_sublist (sp : Splitting) (q : StateId) (lookaheads : List NatSet) :
    (sp.choices q lookaheads).Sublist (sp.labels q) := by
  rw [choices, labels]
  induction sp.annotationsOf q with
  | nil => exact List.Sublist.refl _
  | cons entry l ih =>
    rw [List.flatMap_cons, List.flatMap_cons]
    refine List.Sublist.append ?_ ih
    have := (dominant?_sublist sp entry.1 entry.2 lookaheads).map fun α => (entry.1, α)
    rwa [List.map_map] at this

/-- The choices tell what is called for at each inadequacy. -/
theorem mem_choices {lookaheads : List NatSet} {D : List Action} {α : Action}
    (hmem : (v, n) ∈ (prepare g (.ofGraph g a)).annotationsOf q)
    (hD : (prepare g (.ofGraph g a)).dominant? v n lookaheads = some D) :
    (v, α) ∈ (prepare g (.ofGraph g a)).choices q lookaheads ↔ α ∈ D := by
  simp only [choices, List.mem_flatMap, List.mem_map, Prod.mk.injEq]
  constructor
  · rintro ⟨⟨v', n'⟩, hmem', α, hα, rfl, rfl⟩
    obtain rfl := Option.some.inj
      ((mem_annotationsOf.1 hmem').symm.trans (mem_annotationsOf.1 hmem) : some n' = some n)
    rwa [hD] at hα
  · intro hα; exact ⟨(v, n), hmem, α, by rw [hD]; exact hα, rfl, rfl⟩

/-- Different actions are different choices. -/
theorem choices_ne_of_apart (items : a.OfItems g) (wf : g.WellFormed) (reach : a.Reachable)
    {current incoming : List NatSet}
    (h : Walk.Apart (prepare g (.ofGraph g a)) q current incoming) :
    (prepare g (.ofGraph g a)).choices q current ≠ (prepare g (.ofGraph g a)).choices q incoming := by
  obtain ⟨v, n, D, D', hmem, hD, hD', hne⟩ := h
  have nodup := nodup_annotation items wf reach hmem
  intro heq
  have hsame : ∀ α, α ∈ D ↔ α ∈ D' := by
    intro α
    rw [← mem_choices hmem hD, heq, mem_choices hmem hD']
  refine hne ?_
  obtain ⟨-, rfl⟩ := (dominant?_eq_some_iff nodup).1 hD
  obtain ⟨-, rfl⟩ := (dominant?_eq_some_iff nodup).1 hD'
  refine List.filter_congr fun α hα => ?_
  have := hsame α
  simp only [List.mem_filter, hα, true_and] at this
  exact Bool.eq_iff_iff.2 this

/-- The number of choices that lookaheads have, over all states. -/
def choiceCount (sp : Splitting) : Nat :=
  total (sp.annotations.toList.map fun l => subsetCount (total (l.map fun (_, n) => n.length)))

theorem choiceCount_eq (g : Grammar) (a : Graph) : (prepare g (.ofGraph g a)).choiceCount =
    ((List.range a.size).flatMap fun q =>
      ((prepare g (.ofGraph g a)).labels q).sublists.map fun l => (q, l)).length := by
  have hsize : (prepare g (.ofGraph g a)).annotations.size = a.size := by
    rw [annotations_prepare, Array.size_map, size_tables]
  have hlist : (prepare g (.ofGraph g a)).annotations.toList =
      (List.range a.size).map (prepare g (.ofGraph g a)).annotationsOf := by
    refine List.ext_getElem (by simp [hsize]) fun q h₁ h₂ => ?_
    have hq : q < (prepare g (.ofGraph g a)).annotations.size := by simpa using h₁
    simp [annotationsOf, Array.getD, hq]
  rw [choiceCount, hlist, List.map_map, List.length_flatMap]
  refine congrArg total (List.map_congr_left fun q _ => ?_)
  rw [Function.comp_apply, List.length_map, List.length_sublists, Lr0.subsetCount_eq, labels,
    List.length_flatMap]
  refine congrArg (2 ^ ·) (congrArg total (List.map_congr_left fun entry _ => ?_))
  rw [List.length_map]

/-! ## The states of the walk -/

/-- There is a lookahead set for each kernel item of the state, and they are sets
    of terminals. -/
structure Fits (g : Grammar) (a : Graph) (q : StateId) (lookaheads : List NatSet) : Prop where
  length_eq : lookaheads.length = (a.core q).kernel.length
  terminal : ∀ k t, t ∈ lookaheads.getD k ∅ → t ∈ g.terminals

theorem fits_join {current incoming : List NatSet} (h₁ : Fits g a q current)
    (h₂ : Fits g a q incoming) : Fits g a q (join current incoming) := by
  have hlength := h₁.length_eq.trans h₂.length_eq.symm
  refine ⟨by rw [join, List.length_zipWith, h₁.length_eq, h₂.length_eq, Nat.min_self], fun k t ht => ?_⟩
  exact ((mem_join hlength).1 ht).elim (h₁.terminal k t) (h₂.terminal k t)

/-- Only tokens of annotations are passed on, and these are terminals. -/
theorem fits_propagate (items : a.OfItems g) (wf : g.WellFormed) (reach : a.Reachable) {p : StateId}
    (hp : p < a.size) (hq : q < a.size) (source : List NatSet) :
    Fits g a q (propagate g (prepare g (.ofGraph g a)) p source q) := by
  refine ⟨length_propagate hq, fun k t ht => ?_⟩
  obtain ⟨-, hfilter⟩ := (mem_propagate items reach hp hq).1 ht
  obtain ⟨-, w, n, hmem, rfl, -⟩ := (mem_filters hq).1 hfilter
  obtain ⟨hlt, -, hlength⟩ := map_action_of_finds (mem_annotationsOf.1 hmem)
  obtain ⟨α, hα⟩ := List.exists_mem_of_length_pos (Nat.lt_of_lt_of_le Nat.two_pos hlength)
  have hoffers := ((Automaton.mem_actionsOn items wf reach hlt).1 hα).1
  exact List.mem_range.2 (of_decide_eq_true (hoffers.isTerminal items wf reach hlt))

namespace Walk

/-- The state of the automaton to which a state of the walk belongs: a state of
    the automaton to itself, a copy to the state that was copied. -/
def owner (a : Graph) (w : Walk) (s : StateId) : StateId :=
  if s < a.size then s else (w.graph.core s).isocore

/-- What holds between two steps of the walk, whatever the isocores of the
    automaton are.  A state that has no lookaheads yet is the only one that
    belongs to its state of the automaton. -/
structure Spread (g : Grammar) (a : Graph) (w : Walk) : Prop where
  size_le : a.size ≤ w.graph.size
  size_lookaheads : w.lookaheads.size = w.graph.size
  size_copies : w.copies.size = a.size
  isocore_lt : ∀ s, (w.graph.core s).isocore < a.size
  mem_copies : ∀ {q s}, q < a.size →
    (s ∈ w.copies.getD q [] ↔ s < w.graph.size ∧ owner a w s = q)
  queue : w.queue.Sound
  fits : ∀ {s lookaheads}, w.lookaheads? s = some lookaheads → Fits g a (owner a w s) lookaheads
  apart : ∀ {s s'}, s < w.graph.size → s' < w.graph.size → s ≠ s' → owner a w s = owner a w s' →
    ∃ current incoming, w.lookaheads? s = some current ∧ w.lookaheads? s' = some incoming ∧
      Apart (prepare g (.ofGraph g a)) (owner a w s) current incoming

variable {w : Walk} {incoming current : List NatSet} {core : StateId} {X : SymbolId}

theorem Spread.owner_lt (h : Spread g a w) (s : StateId) : owner a w s < a.size := by
  rw [owner]
  split
  · assumption
  · exact h.isocore_lt s

/-- The lookaheads known of a state are those of an existing state. -/
theorem Spread.lt_of_lookaheads? (h : Spread g a w) {lookaheads : List NatSet}
    (hs : w.lookaheads? s = some lookaheads) : s < w.graph.size := by
  rw [← h.size_lookaheads]
  apply Nat.lt_of_not_le
  intro hle
  rw [lookaheads?, Array.getD_eq_getD_getElem?, Array.getElem?_eq_none hle] at hs
  cases hs

/-- **The number of states**: there are no more than choices. -/
theorem Spread.size_le_choiceCount (h : Spread g a w) (items : a.OfItems g) (wf : g.WellFormed)
    (reach : a.Reachable) : w.graph.size ≤ (prepare g (.ofGraph g a)).choiceCount := by
  have nodup : ((List.range w.graph.size).map fun s => (owner a w s,
      (prepare g (.ofGraph g a)).choices (owner a w s) ((w.lookaheads? s).getD []))).Nodup := by
    refine List.nodup_range.map_on fun s hs s' hs' heq => Classical.byContradiction fun hne => ?_
    obtain ⟨howner, hchoices⟩ := Prod.mk.inj heq
    obtain ⟨l, l', hl, hl', hapart⟩ :=
      h.apart (List.mem_range.1 hs) (List.mem_range.1 hs') hne howner
    rw [hl, hl', ← howner] at hchoices
    exact choices_ne_of_apart items wf reach hapart hchoices
  have subset : ((List.range w.graph.size).map fun s => (owner a w s,
      (prepare g (.ofGraph g a)).choices (owner a w s) ((w.lookaheads? s).getD []))) ⊆
      (List.range a.size).flatMap fun q =>
        ((prepare g (.ofGraph g a)).labels q).sublists.map fun l => (q, l) := by
    intro code hcode
    obtain ⟨s, -, rfl⟩ := List.mem_map.1 hcode
    exact List.mem_flatMap.2 ⟨_, List.mem_range.2 (h.owner_lt s), List.mem_map.2
      ⟨_, List.mem_sublists.2 (choices_sublist _ _ _), rfl⟩⟩
  have := (nodup.subperm subset).length_le
  rwa [← choiceCount_eq, List.length_map, List.length_range] at this

/-! ## The steps of the walk -/

theorem spread_start (items : a.OfItems g) (isocore : ∀ {q}, q < a.size → (a.core q).isocore < a.size) :
    Spread g a (start (.ofGraph g a)) := by
  have howner : ∀ {s}, s < a.size → owner a (start (.ofGraph g a)) s = s := fun hs => if_pos hs
  have hsize : a.cores.size = a.size := rfl
  constructor
  case size_le => rw [graph_start]
  case size_lookaheads => rw [graph_start]; simp [start, hsize]
  case size_copies => simp [start, hsize]
  case isocore_lt =>
    intro s
    rw [graph_start]
    rcases Nat.lt_or_ge s a.size with hs | hs
    · exact isocore hs
    · rw [Graph.core_of_size_le a hs]; exact items.start_lt
  case mem_copies =>
    intro q s hq
    rw [graph_start, copies_start, if_pos hq, List.mem_singleton]
    constructor
    · rintro rfl; exact ⟨hq, howner hq⟩
    · rintro ⟨hs, rfl⟩; exact (howner hs).symm
  case queue => exact Worklist.sound_empty.push _
  case fits =>
    intro s l hl
    rw [lookaheads?_start items] at hl
    split at hl
    · rename_i hs
      cases hl
      rw [hs, howner items.start_lt]
      refine ⟨List.length_map _, fun k t ht => ?_⟩
      rw [List.getD_eq_getElem?_getD, List.getElem?_map] at ht
      cases hk : (a.core StateId.start).kernel[k]? <;> rw [hk] at ht <;>
        exact absurd ht (NatSet.not_mem_empty t)
    · cases hl
  case apart =>
    intro s s' hs hs' hne heq
    rw [graph_start] at hs hs'
    rw [howner hs, howner hs'] at heq
    exact absurd heq hne

theorem owner_deliver : owner a (w.deliver s incoming) = owner a w := by
  funext s'
  rw [owner, owner, graph_deliver]

/-- What the lookaheads of a state call for, they still call for after a delivery. -/
theorem Spread.dominant?_deliver (h : Spread g a w) (items : a.OfItems g) (wf : g.WellFormed)
    (reach : a.Reachable) (hs : s < w.graph.size) (hincoming : Fits g a (owner a w s) incoming)
    (htakes : ∀ current, w.lookaheads? s = some current →
      (prepare g (.ofGraph g a)).isCompatible (owner a w s) current incoming = true)
    {s' : StateId} {l : List NatSet} {D : List Action} (hl : w.lookaheads? s' = some l)
    (hmem : (v, n) ∈ (prepare g (.ofGraph g a)).annotationsOf (owner a w s'))
    (hD : (prepare g (.ofGraph g a)).dominant? v n l = some D) :
    ∃ l', (w.deliver s incoming).lookaheads? s' = some l' ∧
      (prepare g (.ofGraph g a)).dominant? v n l' = some D := by
  rw [lookaheads?_deliver (by rw [h.size_lookaheads]; exact hs)]
  split
  · rename_i heq
    subst heq
    refine ⟨_, rfl, ?_⟩
    rw [merged_of_some hl]
    have nodup := nodup_annotation items wf reach hmem
    exact dominant?_join nodup
      ((h.fits hl).length_eq.trans hincoming.length_eq.symm) hD fun D' hD' =>
        isCompatible_iff.1 (htakes l hl) v n hmem D D' hD hD'
  · exact ⟨l, hl, hD⟩

/-- A state keeps calling for the same actions. -/
theorem Spread.deliver (h : Spread g a w) (items : a.OfItems g) (wf : g.WellFormed)
    (reach : a.Reachable) (hs : s < w.graph.size) (hincoming : Fits g a (owner a w s) incoming)
    (htakes : ∀ current, w.lookaheads? s = some current →
      (prepare g (.ofGraph g a)).isCompatible (owner a w s) current incoming = true) :
    Spread g a (w.deliver s incoming) := by
  have lookaheads := lookaheads?_deliver
    (by rw [h.size_lookaheads]; exact hs : s < w.lookaheads.size) incoming
  constructor
  all_goals try rw [owner_deliver]
  all_goals try rw [graph_deliver]
  case size_le => exact h.size_le
  case size_lookaheads => rw [size_lookaheads_deliver]; exact h.size_lookaheads
  case size_copies => rw [copies_deliver]; exact h.size_copies
  case isocore_lt => exact h.isocore_lt
  case mem_copies => rw [copies_deliver]; exact h.mem_copies
  case queue => exact sound_deliver h.queue
  case fits =>
    intro s' l hl
    rw [lookaheads] at hl
    split at hl
    · rename_i heq
      cases hl
      subst heq
      exact merged_of hincoming fun hcurrent => fits_join (h.fits hcurrent) hincoming
    · exact h.fits hl
  case apart =>
    intro s₁ s₂ hs₁ hs₂ hne howner
    obtain ⟨l₁, l₂, hl₁, hl₂, v, n, D, D', hmem, hD, hD', hDD'⟩ := h.apart hs₁ hs₂ hne howner
    obtain ⟨l₁', hl₁', hD⟩ := h.dominant?_deliver items wf reach hs hincoming htakes hl₁ hmem hD
    obtain ⟨l₂', hl₂', hD'⟩ :=
      h.dominant?_deliver items wf reach hs hincoming htakes hl₂ (howner ▸ hmem) hD'
    exact ⟨l₁', l₂', hl₁', hl₂', v, n, D, D', hmem, hD, hD', hDD'⟩

theorem owner_copy (hsize : a.size ≤ w.graph.size) (core s : StateId) (incoming : List NatSet) :
    owner a (w.copy core incoming).1 s = if s = w.graph.size then core else owner a w s := by
  rw [owner, core_copy]
  by_cases hs : s = w.graph.size
  · rw [if_pos hs, if_pos hs, if_neg (Nat.not_lt_of_ge (hs ▸ hsize))]
  · rw [if_neg hs, if_neg hs, owner]

/-- A copy is made for lookaheads that call for other actions than all states
    there are. -/
theorem Spread.copy (h : Spread g a w) (hcore : core < a.size) (hincoming : Fits g a core incoming)
    (hrefused : ∀ s, s < w.graph.size → owner a w s = core → ∃ current,
      w.lookaheads? s = some current ∧ Apart (prepare g (.ofGraph g a)) core current incoming) :
    Spread g a (w.copy core incoming).1 := by
  have lookaheads := fun s => lookaheads?_copy h.size_lookaheads core s incoming
  have howner := fun s => owner_copy h.size_le core s incoming
  have hsize := size_copy w core incoming
  have old : ∀ {s}, s < w.graph.size + 1 → s ≠ w.graph.size → s < w.graph.size := fun hs hne =>
    Nat.lt_of_le_of_ne (Nat.le_of_lt_succ hs) hne
  constructor
  case size_le => rw [hsize]; exact Nat.le_succ_of_le h.size_le
  case size_lookaheads => rw [hsize, ← h.size_lookaheads]; exact Array.size_push _
  case size_copies => rw [← h.size_copies]; exact Array.size_modify
  case isocore_lt =>
    intro s
    rw [core_copy]
    split
    · exact hcore
    · exact h.isocore_lt s
  case mem_copies =>
    intro q s hq
    rw [mem_copies_copy (by rw [h.size_copies]; exact hq), h.mem_copies hq, hsize, howner]
    by_cases hs : s = w.graph.size
    · simp [hs, eq_comm]
    · rw [if_neg hs]
      simp only [hs, and_false, or_false]
      exact and_congr_left fun _ => ⟨Nat.lt_succ_of_lt, fun hlt => old hlt hs⟩
  case queue => exact h.queue.push _
  case fits =>
    intro s l hl
    rw [lookaheads] at hl
    rw [howner]
    split at hl
    · rename_i heq; cases hl; rw [if_pos heq]; exact hincoming
    · rename_i hne; rw [if_neg hne]; exact h.fits hl
  case apart =>
    intro s₁ s₂ hs₁ hs₂ hne heq
    rw [hsize] at hs₁ hs₂
    rw [howner, howner] at heq
    rw [lookaheads, lookaheads, howner]
    by_cases hn₁ : s₁ = w.graph.size
    · have hn₂ : s₂ ≠ w.graph.size := fun hn₂ => hne (hn₁.trans hn₂.symm)
      rw [if_pos hn₁, if_neg hn₂] at heq
      obtain ⟨current, hcurrent, v, n, D, D', hmem, hD, hD', hDD'⟩ :=
        hrefused s₂ (old hs₂ hn₂) heq.symm
      rw [if_pos hn₁, if_neg hn₂, if_pos hn₁]
      exact ⟨incoming, current, rfl, hcurrent, v, n, D', D, hmem, hD', hD, hDD'.symm⟩
    · rw [if_neg hn₁] at heq ⊢
      rw [if_neg hn₁]
      by_cases hn₂ : s₂ = w.graph.size
      · rw [if_pos hn₂] at heq ⊢
        obtain ⟨current, hcurrent, hapart⟩ := hrefused s₁ (old hs₁ hn₁) heq
        rw [heq]
        exact ⟨current, incoming, hcurrent, rfl, hapart⟩
      · rw [if_neg hn₂] at heq ⊢
        exact h.apart (old hs₁ hn₁) (old hs₂ hn₂) hne heq

theorem Spread.retarget (h : Spread g a w) (q : StateId) (X : SymbolId) (target : StateId) :
    Spread g a (w.retarget q X target) := by
  have howner : owner a (w.retarget q X target) = owner a w := by
    funext s
    rw [owner, owner, isocore_retarget]
  constructor
  all_goals try rw [howner]
  all_goals try rw [size_retarget]
  case size_le => exact h.size_le
  case size_lookaheads => exact h.size_lookaheads
  case size_copies => exact h.size_copies
  case isocore_lt => intro s; rw [isocore_retarget]; exact h.isocore_lt s
  case mem_copies => exact h.mem_copies
  case queue => exact h.queue
  case fits => exact h.fits
  case apart => exact h.apart

/-- The lookaheads go to a state that can take them, or to a new copy if there is
    none. -/
theorem Spread.follow_cases (h : Spread g a w) (q core : StateId) (source : List NatSet) (e : Edge)
    {next : StateId} (hnext : (w.graph.core e.target).isocore = next)
    (hincoming : propagate g (prepare g (.ofGraph g a)) core source next = incoming) :
    (∃ s, s < w.graph.size ∧ owner a w s = next ∧
      (∀ current, w.lookaheads? s = some current →
        (prepare g (.ofGraph g a)).isCompatible next current incoming = true) ∧
      follow g (prepare g (.ofGraph g a)) q core source w e =
        (w.deliver s incoming).retarget q e.symbol s) ∨
    ((∀ s, s < w.graph.size → owner a w s = next → ∃ current, w.lookaheads? s = some current ∧
        Apart (prepare g (.ofGraph g a)) next current incoming) ∧
      follow g (prepare g (.ofGraph g a)) q core source w e =
        (w.copy next incoming).1.retarget q e.symbol w.graph.size) := by
  have hlt : next < a.size := hnext ▸ h.isocore_lt e.target
  rcases follow_copies g (prepare g (.ofGraph g a)) q core source w e hnext hincoming with
    ⟨s, hmem, htakes, heq⟩ | ⟨hrefused, heq⟩
  · obtain ⟨hs, howner⟩ := (h.mem_copies hlt).1 hmem
    exact .inl ⟨s, hs, howner, htakes, heq⟩
  · exact .inr ⟨fun s hs howner => hrefused s ((h.mem_copies hlt).2 ⟨hs, howner⟩), heq⟩

/-! ## What states may still receive -/

/-- A bound for the number of lookaheads of a state. -/
def capacity (g : Grammar) (a : Graph) : Nat :=
  (Automaton.ofGraph g a).kernelWidth * g.terminalCount

/-- What a state with these lookaheads may still receive. -/
def weight (g : Grammar) (a : Graph) : Option (List NatSet) → Nat
  | none => capacity g a + 1
  | some lookaheads => total (lookaheads.map (NatSet.missing g.terminals))

/-- A bound for the steps that remain. -/
def potential (g : Grammar) (a : Graph) (w : Walk) : Nat :=
  ((prepare g (.ofGraph g a)).choiceCount - w.graph.size) * (capacity g a + 2) +
    total ((List.range w.graph.size).map fun s => weight g a (w.lookaheads? s)) + w.queue.size

theorem weight_le_capacity (hq : q < a.size) (h : Fits g a q current) :
    weight g a (some current) ≤ capacity g a :=
  calc weight g a (some current) ≤ current.length * g.terminalCount :=
        total_map_le_mul fun s _ => (NatSet.missing_le _ _).trans (by simp [Grammar.terminals])
    _ ≤ capacity g a :=
        Nat.mul_le_mul_right _ (h.length_eq ▸ Automaton.length_kernel_le g hq)

/-- Lookaheads that change a state use up what it may receive. -/
theorem weight_join_lt (hcurrent : Fits g a q current) (hincoming : Fits g a q incoming)
    (hne : join current incoming ≠ current) :
    weight g a (some (join current incoming)) < weight g a (some current) := by
  have hlength : current.length = incoming.length := hcurrent.length_eq.trans hincoming.length_eq.symm
  have hjoin := fits_join hcurrent hincoming
  have hlength' : (join current incoming).length = current.length :=
    hjoin.length_eq.trans hcurrent.length_eq.symm
  have subset : ∀ k, current.getD k ∅ ⊆ (join current incoming).getD k ∅ := fun k =>
    NatSet.subset_def.2 fun t ht => (mem_join hlength).2 (.inl ht)
  have weights : ∀ {l : List NatSet}, l.length = current.length → weight g a (some l) =
      total ((List.range current.length).map fun k => NatSet.missing g.terminals (l.getD k ∅)) := by
    intro l hl
    refine congrArg total (List.ext_getElem (by simp [hl]) fun k h₁ h₂ => ?_)
    have hk : k < l.length := by simpa using h₁
    simp [hk]
  -- One of the sets has grown.
  obtain ⟨k, hk, hgrown⟩ : ∃ k, k < current.length ∧
      (join current incoming).getD k ∅ ≠ current.getD k ∅ := by
    apply Classical.byContradiction
    intro hnone
    refine hne (List.ext_getElem hlength' fun k h₁ h₂ => Classical.byContradiction fun hdiff =>
      hnone ⟨k, h₂, ?_⟩)
    rwa [List.getD_eq_getElem?_getD, List.getD_eq_getElem?_getD, List.getElem?_eq_getElem h₁,
      List.getElem?_eq_getElem h₂]
  obtain ⟨t, ht, hnew⟩ := NatSet.exists_new (subset k) hgrown
  rw [weights hlength', weights rfl]
  exact total_map_lt (fun k _ => NatSet.missing_mono (subset k)) (List.mem_range.2 hk)
    (NatSet.missing_lt (subset k) (hjoin.terminal k t ht) hnew ht)

theorem Spread.potential_deliver_le (h : Spread g a w) (hs : s < w.graph.size)
    (hincoming : Fits g a (owner a w s) incoming) :
    potential g a (w.deliver s incoming) ≤ potential g a w := by
  by_cases hsame : w.lookaheads? s = some (w.merged s incoming)
  · rw [deliver_eq, if_pos hsame]
  have lookaheads := lookaheads?_deliver (by rw [h.size_lookaheads]; exact hs : s < w.lookaheads.size)
    incoming
  have hweight : weight g a (some (w.merged s incoming)) < weight g a (w.lookaheads? s) := by
    cases hcurrent : w.lookaheads? s with
    | none =>
      rw [merged_of_none hcurrent]
      exact Nat.lt_succ_of_le (weight_le_capacity (h.owner_lt s) hincoming)
    | some current =>
      rw [merged_of_some hcurrent] at hsame ⊢
      exact weight_join_lt (h.fits hcurrent) hincoming fun heq => hsame (by rw [heq, hcurrent])
  have hqueue : (w.deliver s incoming).queue.size ≤ w.queue.size + 1 := by
    rw [deliver_eq, if_neg hsame]; exact Worklist.size_push_le h.queue s
  have htotal : total ((List.range w.graph.size).map fun s' =>
      weight g a ((w.deliver s incoming).lookaheads? s')) <
      total ((List.range w.graph.size).map fun s' => weight g a (w.lookaheads? s')) := by
    refine total_map_lt (fun s' _ => ?_) (List.mem_range.2 hs) (by rw [lookaheads, if_pos rfl]; exact hweight)
    rw [lookaheads]
    split
    · rename_i heq; rw [heq]; exact Nat.le_of_lt hweight
    · exact Nat.le_refl _
  rw [potential, potential, graph_deliver]
  omega

theorem Spread.potential_copy_le (h : Spread g a w) (items : a.OfItems g) (wf : g.WellFormed)
    (reach : a.Reachable) (hcore : core < a.size) (hincoming : Fits g a core incoming)
    (hcopy : Spread g a (w.copy core incoming).1) :
    potential g a (w.copy core incoming).1 ≤ potential g a w := by
  have hsize := hcopy.size_le_choiceCount items wf reach
  have lookaheads := fun s => lookaheads?_copy h.size_lookaheads core s incoming
  have hweight := weight_le_capacity hcore hincoming
  have hqueue : (w.copy core incoming).1.queue.size ≤ w.queue.size + 1 := Worklist.size_push_le h.queue _
  have htotal : total ((List.range (w.graph.size + 1)).map fun s =>
      weight g a ((w.copy core incoming).1.lookaheads? s)) =
      total ((List.range w.graph.size).map fun s => weight g a (w.lookaheads? s)) +
        weight g a (some incoming) := by
    have hold : (List.range w.graph.size).map (fun s =>
        weight g a ((w.copy core incoming).1.lookaheads? s)) =
        (List.range w.graph.size).map fun s => weight g a (w.lookaheads? s) :=
      List.map_congr_left fun s hs => by
        rw [lookaheads, if_neg (Nat.ne_of_lt (List.mem_range.1 hs))]
    rw [List.range_succ, List.map_append, hold, List.map_singleton, lookaheads, if_pos rfl]
    exact List.sum_append
  rw [size_copy] at hsize
  have hproduct : ((prepare g (.ofGraph g a)).choiceCount - w.graph.size) * (capacity g a + 2) =
      ((prepare g (.ofGraph g a)).choiceCount - (w.graph.size + 1)) * (capacity g a + 2) +
        (capacity g a + 2) := by
    rw [← Nat.succ_mul]
    congr 1
    omega
  rw [potential, potential, size_copy, htotal, hproduct]
  omega

theorem potential_retarget (w : Walk) (q : StateId) (X : SymbolId) (s : StateId) :
    potential g a (w.retarget q X s) = potential g a w := by
  rw [potential, potential, size_retarget]; rfl

/-! ## The end -/

/-- **Following a transition** keeps states of the same owner apart, and uses no more
    than what states may receive. -/
theorem Spread.follow (h : Spread g a w) (items : a.OfItems g) (wf : g.WellFormed)
    (reach : a.Reachable) (q : StateId) (hcore : core < a.size) (source : List NatSet) (e : Edge) :
    Spread g a (Walk.follow g (prepare g (.ofGraph g a)) q core source w e) ∧
      potential g a (Walk.follow g (prepare g (.ofGraph g a)) q core source w e) ≤
        potential g a w := by
  have hnext := h.isocore_lt e.target
  have hfits := fits_propagate items wf reach hcore hnext source
  rcases h.follow_cases q core source e rfl rfl with ⟨s, hs, howner, htakes, heq⟩ | ⟨hrefused, heq⟩ <;>
    rw [heq, potential_retarget]
  · rw [← howner] at hfits htakes ⊢
    exact ⟨(h.deliver items wf reach hs hfits htakes).retarget _ _ _, h.potential_deliver_le hs hfits⟩
  · have hcopy := h.copy hnext hfits hrefused
    exact ⟨hcopy.retarget _ _ _, h.potential_copy_le items wf reach hnext hfits hcopy⟩

theorem Spread.pop (h : Spread g a w) {queue : Worklist StateId}
    (hpop : w.queue.pop? = some (q, queue)) : Spread g a { w with queue } :=
  ⟨h.size_le, h.size_lookaheads, h.size_copies, h.isocore_lt, h.mem_copies, (h.queue.pop hpop).1,
    h.fits, h.apart⟩

/-- **A step of the walk** keeps states of the same owner apart, and uses up some of
    what states may receive. -/
theorem Spread.visit (h : Spread g a w) (items : a.OfItems g) (wf : g.WellFormed)
    (reach : a.Reachable) {queue : Worklist StateId} (hpop : w.queue.pop? = some (q, queue)) :
    Spread g a (Walk.visit g (prepare g (.ofGraph g a)) { w with queue } q) ∧
      potential g a (Walk.visit g (prepare g (.ofGraph g a)) { w with queue } q) <
        potential g a w := by
  have hpopped := h.pop hpop
  have hpotential : potential g a w = potential g a { w with queue } + 1 := by
    obtain ⟨hlist, -⟩ := Worklist.pop?_eq_some hpop
    rw [potential, Worklist.size_eq, hlist, List.length_cons, ← Worklist.size_eq]
    rfl
  suffices Spread g a (Walk.visit g (prepare g (.ofGraph g a)) { w with queue } q) ∧
      potential g a (Walk.visit g (prepare g (.ofGraph g a)) { w with queue } q) ≤
        potential g a { w with queue } from ⟨this.1, by omega⟩
  rw [Walk.visit]
  split
  · exact ⟨hpopped, Nat.le_refl _⟩
  · rename_i source _
    exact List.foldlRecOn (motive := fun w' => Spread g a w' ∧
        potential g a w' ≤ potential g a { w with queue })
      _ _ ⟨hpopped, Nat.le_refl _⟩ fun w' hw' e _ => by
        obtain ⟨hspread, hle⟩ := hw'.1.follow items wf reach q (hpopped.isocore_lt q) source e
        exact ⟨hspread, hle.trans hw'.2⟩

theorem Spread.run (items : a.OfItems g) (wf : g.WellFormed) (reach : a.Reachable) :
    ∀ (rounds : Nat) {w : Walk}, Spread g a w →
      Spread g a (run g (prepare g (.ofGraph g a)) rounds w) :=
  (loop g _).keeps fun _ _ _ h hpop => (h.visit items wf reach hpop).1

/-- With enough rounds the walk goes on until no state waits. -/
theorem Spread.queue_run (items : a.OfItems g) (wf : g.WellFormed) (reach : a.Reachable) :
    ∀ (rounds : Nat) {w : Walk}, Spread g a w → potential g a w ≤ rounds →
      (Walk.run g (prepare g (.ofGraph g a)) rounds w).queue.toList = [] :=
  (loop g _).runs_empty (fun _ _ => Nat.le_add_left _ _)
    fun _ _ _ h hpop => h.visit items wf reach hpop

theorem potential_start_le (items : a.OfItems g) (wf : g.WellFormed) (reach : a.Reachable)
    (isocore : ∀ {q}, q < a.size → (a.core q).isocore < a.size) :
    potential g a (start (.ofGraph g a)) ≤ (prepare g (.ofGraph g a)).bound g := by
  have hbound : (prepare g (.ofGraph g a)).bound g =
      (a.size + (prepare g (.ofGraph g a)).choiceCount) * (capacity g a + 2) + 1 := by
    rw [← Automaton.size_ofGraph g a]; rfl
  have hstart := spread_start items isocore
  have hsize := hstart.size_le_choiceCount items wf reach
  have hqueue : (start (.ofGraph g a)).queue.size ≤ 1 :=
    Worklist.size_push_le Worklist.sound_empty StateId.start
  have htotal : total ((List.range a.size).map fun s =>
      weight g a ((start (.ofGraph g a)).lookaheads? s)) ≤ a.size * (capacity g a + 2) := by
    refine (total_map_le_mul fun s _ => ?_).trans_eq (by rw [List.length_range])
    cases hs : (start (.ofGraph g a)).lookaheads? s with
    | none => exact Nat.le_succ _
    | some l => exact (weight_le_capacity (hstart.owner_lt s) (hstart.fits hs)).trans (by omega)
  rw [graph_start] at hsize
  have hproduct : ((prepare g (.ofGraph g a)).choiceCount - a.size) * (capacity g a + 2) ≤
      (prepare g (.ofGraph g a)).choiceCount * (capacity g a + 2) :=
    Nat.mul_le_mul_right _ (Nat.sub_le _ _)
  rw [potential, graph_start, hbound, Nat.add_mul]
  omega

end Walk

/-- **The walk ends**: when it stops, no state waits. -/
theorem queue_walk (items : a.OfItems g) (wf : g.WellFormed) (reach : a.Reachable)
    (isocore : ∀ {q}, q < a.size → (a.core q).isocore < a.size) :
    ((prepare g (.ofGraph g a)).walk g).queue.toList = [] :=
  Walk.Spread.queue_run items wf reach _ (Walk.spread_start items isocore)
    (Walk.potential_start_le items wf reach isocore)

end LRAutomata.Splitting
