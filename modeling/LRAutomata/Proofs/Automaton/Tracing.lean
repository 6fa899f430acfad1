/-
  Tracing back inadequacies ends.

  The kernel items that annotations list are places in the kernels of their
  states (`Traced`), so an annotation can change only so often: at first it is
  entered, then each change lists a kernel item more, or lists some where there
  were none (`Annotation.room`).  A transition that is looked at either changes
  no annotation or uses up some of this room, and the bound of the tracing
  covers all of it: when it stops, no transition waits
  (`LookaheadSources.pending_trace`).
-/
import Mathlib.Data.List.ProdSigma
import LRAutomata.Proofs.Automaton.Calls

namespace LRAutomata

/-! ## Room for changes -/

/-- The kernel items listed for an action, and those to be added. -/
def Contribution.unite : Option NatSet → Option NatSet → Option NatSet
  | some ks, some ls => some (ks ∪ ls)
  | none, ks | ks, none => ks

/-- How often the kernel items listed for an action can change, when there are
    `width` places for them. -/
def Contribution.slack (width : Nat) : Option NatSet → Nat
  | none => width + 1
  | some ks => NatSet.missing (List.range width) ks

theorem Contribution.slack_le (width : Nat) (ks : Option NatSet) : slack width ks ≤ width + 1 := by
  cases ks with
  | none => exact Nat.le_refl _
  | some ks =>
    have := NatSet.missing_le (List.range width) ks
    rw [List.length_range] at this
    exact Nat.le_succ_of_le this

/-- Adding kernel items changes nothing, or uses up room. -/
theorem Contribution.unite_cases {width : Nat} (ks : Option NatSet) {ls : Option NatSet}
    (hls : ∀ s, ls = some s → ∀ k ∈ s, k < width) :
    unite ks ls = ks ∨ slack width (unite ks ls) < slack width ks := by
  cases ks with
  | none =>
    cases ls with
    | none => exact .inl rfl
    | some ls =>
      refine .inr (Nat.lt_succ_of_le ?_)
      have := NatSet.missing_le (List.range width) ls
      rwa [List.length_range] at this
  | some ks =>
    cases ls with
    | none => exact .inl rfl
    | some ls =>
      have subset : ks ⊆ ks ∪ ls := NatSet.subset_def.2 fun k hk => NatSet.mem_union.2 (.inl hk)
      by_cases hsame : ks ∪ ls = ks
      · exact .inl (congrArg some hsame)
      · obtain ⟨k, hk, hnot⟩ := NatSet.exists_new subset hsame
        have hlt := hls ls rfl k ((NatSet.mem_union.1 hk).resolve_left hnot)
        exact .inr (NatSet.missing_lt subset (List.mem_range.2 hlt) hnot hk)

namespace Annotation

variable {width : Nat} {n added : Annotation}

/-- How often the annotation can change. -/
def room (width : Nat) (n : Annotation) : Nat :=
  total (n.map fun c => Contribution.slack width c.kernelItems)

theorem room_le (width : Nat) (n : Annotation) : n.room width ≤ n.length * (width + 1) :=
  total_map_le_mul fun c _ => Contribution.slack_le width c.kernelItems

theorem merge_cons (c d : Contribution) (n added : Annotation) : merge (c :: n) (d :: added) =
    { c with kernelItems := Contribution.unite c.kernelItems d.kernelItems } :: merge n added := rfl

/-- A merge changes nothing, or uses up room. -/
theorem merge_cases : ∀ {n added : Annotation}, n.length = added.length →
    (∀ k ∈ added.contributors, k < width) →
    n.merge added = n ∨ (n.merge added).room width < n.room width
  | [], _, _, _ => .inl rfl
  | c :: n, d :: added, hlength, hadded => by
    have listed : ∀ e ∈ d :: added, ∀ s, e.kernelItems = some s → ∀ k ∈ s, k < width :=
      fun e he s hs k hk => hadded k (mem_contributors.2 ⟨e, he, s, hs, hk⟩)
    have hrest : merge n added = n ∨ room width (merge n added) < room width n :=
        merge_cases (Nat.succ.inj hlength) fun k hk => by
      obtain ⟨e, he, s, hs, hk⟩ := mem_contributors.1 hk
      exact listed e (List.mem_cons_of_mem _ he) s hs k hk
    have room_cons : ∀ (c : Contribution) (n : Annotation), room width (c :: n) =
        Contribution.slack width c.kernelItems + room width n := fun _ _ => rfl
    rw [merge_cons, room_cons, room_cons]
    rcases Contribution.unite_cases c.kernelItems (listed d List.mem_cons_self) with hc | hc <;>
      rcases hrest with hn | hn
    · exact .inl (by rw [hc, hn])
    · exact .inr (by rw [hc]; exact Nat.add_lt_add_left hn _)
    · exact .inr (by rw [hn]; exact Nat.add_lt_add_right hc _)
    · exact .inr (Nat.add_lt_add hc hn)

end Annotation

namespace LookaheadSources

/-- How often a state's annotation for an inadequacy can change, the first time
    when it is entered; `e.2` has as many actions. -/
def roomFor (width : Nat) (own : OrderedMap Inadequacy Annotation) (e : Inadequacy × Annotation) :
    Nat :=
  match own.get? e.1 with
  | none => 1 + e.2.length * (width + 1)
  | some n => n.room width

/-- How often the annotations of a state for the inadequacies listed can change. -/
def tableRoom (width : Nat) (origins : List (Inadequacy × Annotation))
    (own : OrderedMap Inadequacy Annotation) : Nat :=
  total (origins.map (roomFor width own))

/-- The annotation is for one of the inadequacies listed, with the actions listed
    there, and its kernel items are among `width` places. -/
structure Fits (width : Nat) (origins : List (Inadequacy × Annotation)) (w : Inadequacy)
    (n : Annotation) : Prop where
  exists_origin : ∃ m, (w, m) ∈ origins
  length_eq : ∀ m, (w, m) ∈ origins → n.length = m.length
  contributor_lt : ∀ k ∈ n.contributors, k < width

section Absorb
variable {width : Nat} {origins : List (Inadequacy × Annotation)} {w : Inadequacy}
variable {n m : Annotation} {own : OrderedMap Inadequacy Annotation}

theorem Fits.merge (hn : Fits width origins w n) (hm : Fits width origins w m) :
    Fits width origins w (n.merge m) := by
  refine ⟨hn.exists_origin, fun o ho => ?_, fun k hk => ?_⟩
  · show ((n.zip m).map _).length = o.length
    rw [List.length_map, List.length_zip, hn.length_eq o ho, hm.length_eq o ho, Nat.min_self]
  · rcases Annotation.mem_contributors_merge hk with hk | hk
    · exact hn.contributor_lt k hk
    · exact hm.contributor_lt k hk

/-- Entering an annotation with less room than there was for it uses up room. -/
theorem tableRoom_insert_lt (hn : Fits width origins w n)
    (hlt : ∀ m, (w, m) ∈ origins → n.room width < roomFor width own (w, m)) :
    tableRoom width origins (own.insert w n) < tableRoom width origins own := by
  obtain ⟨m, hm⟩ := hn.exists_origin
  have roomFor_insert : ∀ e, roomFor width (own.insert w n) e =
      if w = e.1 then n.room width else roomFor width own e := by
    intro e
    rw [roomFor, OrderedMap.get?_insert]
    by_cases heq : w = e.1
    · rw [if_pos heq, if_pos heq]
    · rw [if_neg heq, if_neg heq, roomFor]
  refine total_map_lt (fun e he => ?_) hm ?_ <;> rw [roomFor_insert]
  · split
    · rename_i heq; subst heq; exact Nat.le_of_lt (hlt e.2 he)
    · exact Nat.le_refl _
  · rw [if_pos rfl]; exact hlt m hm

/-- **Adding annotations** to those of a state changes nothing, or uses up room. -/
theorem absorb_cases {added : List (Inadequacy × Annotation)}
    (hown : ∀ w n, own.get? w = some n → Fits width origins w n)
    (hadded : ∀ w n, (w, n) ∈ added → Fits width origins w n) :
    absorb own added = (own, false) ∨
      (absorb own added).2 = true ∧
        tableRoom width origins (absorb own added).1 < tableRoom width origins own := by
  refine (List.foldlRecOn (motive := fun r : OrderedMap Inadequacy Annotation × Bool =>
    (∀ w n, r.1.get? w = some n → Fits width origins w n) ∧ (r = (own, false) ∨
      r.2 = true ∧ tableRoom width origins r.1 < tableRoom width origins own))
    added _ ⟨hown, .inl rfl⟩ ?_).2
  rintro ⟨own', changed⟩ ⟨hown', hroom⟩ ⟨w, n⟩ hmem
  have hn := hadded w n hmem
  -- Entering an annotation that leaves less room than there was.
  have enter : ∀ m, Fits width origins w m →
      (∀ o, (w, o) ∈ origins → m.room width < roomFor width own' (w, o)) →
      (∀ w' n', (own'.insert w m).get? w' = some n' → Fits width origins w' n') ∧
        ((own'.insert w m, true) = (own, false) ∨ true = true ∧
          tableRoom width origins (own'.insert w m) < tableRoom width origins own) := by
    intro m hm hlt
    refine ⟨fun w' n' hget => ?_, .inr ⟨rfl, Nat.lt_of_lt_of_le (tableRoom_insert_lt hm hlt) ?_⟩⟩
    · rw [OrderedMap.get?_insert] at hget
      split at hget
      · rename_i heq; cases hget; exact heq ▸ hm
      · exact hown' w' n' hget
    · rcases hroom with heq | ⟨-, hlt⟩
      · rw [(Prod.mk.inj heq).1]
      · exact Nat.le_of_lt hlt
  dsimp only
  split
  · exact ⟨hown', hroom⟩
  split
  · rename_i hget
    refine enter n hn fun o ho => ?_
    rw [roomFor, hget, ← hn.length_eq o ho]
    have hle := Annotation.room_le width n
    exact Nat.lt_of_le_of_lt hle (Nat.lt_add_of_pos_left Nat.one_pos)
  · rename_i old hget
    have hold := hown' w old hget
    split
    · exact ⟨hown', hroom⟩
    · rename_i hne
      refine enter _ (hold.merge hn) fun o ho => ?_
      rw [roomFor, hget]
      have hcases := Annotation.merge_cases ((hold.length_eq o ho).trans (hn.length_eq o ho).symm)
        hn.contributor_lt
      exact hcases.resolve_left hne

end Absorb

/-! ## The kernel items listed -/

variable {g : Grammar} {a : Graph} {p q : StateId} {k : Nat} {w : Inadequacy} {n : Annotation}

/-- The kernel items from which lookaheads come are in the kernels of their
    states. -/
structure Confined (a : Graph) (src : LookaheadSources) : Prop where
  kernelItem_lt : ∀ {z k}, k ∈ src.follows.kernelItems.getD z ∅ → k < (a.core z.source).kernel.length
  shaped : src.kernelLookaheads.Shaped a

theorem confined_compute (h : Automaton.Complete g a) (wf : g.WellFormed) :
    Confined a (compute g (.ofGraph g a)) :=
  ⟨GotoFollows.kernelItems_lt wf, (KernelLookaheads.filled_compute h.toOfItems wf h.isLinked h.reachable).1⟩

variable {src : LookaheadSources} {t : Tracing}

theorem contributor_manifestation_lt (confined : Confined a src)
    (hn : (src.manifestations g ((Automaton.ofGraph g a).state q) q).get? w = some n)
    (hk : k ∈ n.contributors) : k < (a.core q).kernel.length := by
  obtain ⟨rfl, -, rfl⟩ := get?_manifestations.1 hn
  obtain ⟨c, hc, ks, hks, hk⟩ := Annotation.mem_contributors.1 hk
  obtain ⟨α, -, rfl⟩ := List.mem_map.1 hc
  cases α with
  | shift => cases hks
  | reduce r =>
    have hks : src.manifestation g _ w.state w.token (.reduce r) = some ks := hks
    rw [manifestation] at hks
    split at hks
    · exact (KernelLookaheads.lt_of_mem_get confined.shaped (mem_lhsContributions hks hk)).2
    · cases hks
      rw [Automaton.toCore_state] at hk
      simp only [NatSet.mem_ofList, List.mem_map, List.mem_filter, List.mem_zipIdx_iff_getElem?] at hk
      obtain ⟨⟨i, _⟩, ⟨hi, -⟩, rfl⟩ := hk
      exact (List.getElem?_eq_some_iff.1 hi).1

/-! ## The transitions that wait -/

/-- What holds of the annotations found so far: they list the actions of their
    inadequacies, the kernel items listed are in the kernels of the states, and
    the transitions that wait are between states. -/
structure Traced (g : Grammar) (a : Graph) (t : Tracing) : Prop where
  size_eq : t.tables.size = a.size
  listsActions : ∀ q w n, t.Finds q w n → ListsActions g a w n
  contributor_lt : ∀ q w n, t.Finds q w n → ∀ k ∈ n.contributors, k < (a.core q).kernel.length
  pending : t.pending.Sound
  pending_lt : ∀ e ∈ t.pending.toList, e.1 < a.size ∧ e.2 < a.size

theorem tables_start (g : Grammar) (a : Graph) (src : LookaheadSources) :
    (Tracing.start g (.ofGraph g a) src).tables.toList =
      (List.range a.size).map fun q => src.manifestations g ((Automaton.ofGraph g a).state q) q := by
  refine List.ext_getElem (by simp [Tracing.start]) fun q h₁ h₂ => ?_
  have hq : q < a.size := by simpa using h₂
  simp [Tracing.start, Automaton.state, Array.getD, hq]

theorem finds_start : (Tracing.start g (.ofGraph g a) src).Finds q w n ↔ q < a.size ∧
    (src.manifestations g ((Automaton.ofGraph g a).state q) q).get? w = some n := by
  rw [Tracing.Finds, Array.getD_eq_getD_getElem?, ← Array.getElem?_toList, tables_start,
    List.getElem?_map]
  by_cases hq : q < a.size
  · rw [List.getElem?_range hq]; exact (and_iff_right hq).symm
  · rw [List.getElem?_eq_none (by simpa using hq)]
    exact iff_of_false (fun h => by cases h) fun h => hq h.1

/-- Predecessors are states. -/
theorem predecessor_lt (h : Automaton.Complete g a) (hq : q < a.size)
    (hp : p ∈ ((Automaton.ofGraph g a).state q).predecessors) : p < a.size := by
  rw [Automaton.toCore_state] at hp
  exact ((h.isLinked hq).1 hp).1

theorem pending_start (h : Automaton.Complete g a) (src : LookaheadSources) :
    (Tracing.start g (.ofGraph g a) src).pending.Sound ∧
      ∀ e ∈ (Tracing.start g (.ofGraph g a) src).pending.toList, e.1 < a.size ∧ e.2 < a.size := by
  have hstates : ∀ x ∈ ((Automaton.ofGraph g a).states.toList.zip
      (Tracing.start g (.ofGraph g a) src).tables.toList).zipIdx,
      x.2 < a.size ∧ x.1.1 = (Automaton.ofGraph g a).state x.2 := by
    intro x hx
    obtain ⟨hstate, -⟩ := List.getElem?_zip_eq_some.1 (List.mem_zipIdx_iff_getElem?.1 hx)
    have := Automaton.mem_zipIdx_states (List.mem_zipIdx_iff_getElem?.2 hstate)
    rwa [Automaton.size_ofGraph] at this
  -- Only transitions into a state from its predecessors are pushed.
  refine List.foldlRecOn _ _ (motive := fun w : Worklist (StateId × StateId) =>
    w.Sound ∧ ∀ e ∈ w.toList, e.1 < a.size ∧ e.2 < a.size)
    ⟨Worklist.sound_empty, fun e he => absurd he List.not_mem_nil⟩ fun w hw x hx => ?_
  obtain ⟨hx, hstate⟩ := hstates x hx
  dsimp only
  split
  · exact hw
  · refine ⟨hw.1.pushAll _, fun e he => ?_⟩
    rcases Worklist.mem_of_mem_pushAll he with he | he
    · exact hw.2 e he
    · obtain ⟨p, hp, rfl⟩ := List.mem_map.1 he
      exact ⟨predecessor_lt h hx (hstate ▸ hp), hx⟩

theorem traced_start (confined : Confined a src) (h : Automaton.Complete g a) :
    Traced g a (Tracing.start g (.ofGraph g a) src) := by
  obtain ⟨hpending, hlt⟩ := pending_start h src
  constructor
  case size_eq => rw [← Array.length_toList, tables_start, List.length_map, List.length_range]
  case listsActions =>
    intro q w n hn
    obtain ⟨hq, hn⟩ := finds_start.1 hn
    exact listsActions_manifestation hq hn
  case contributor_lt =>
    intro q w n hn k hk
    exact contributor_manifestation_lt confined (finds_start.1 hn).2 hk
  case pending => exact hpending
  case pending_lt => exact hlt

theorem Traced.look (ht : Traced g a t) (confined : Confined a src) (h : Automaton.Complete g a)
    (hp : p < a.size) : Traced g a (t.look g (.ofGraph g a) src p q) := by
  constructor
  case size_eq => rw [Tracing.look]; exact Array.size_setIfInBounds.trans ht.size_eq
  case listsActions =>
    exact Tracing.look_keeps (G := fun _ w n => ListsActions g a w n)
      (fun _ _ _ _ hn => hn.atPredecessor _) (fun _ _ _ _ hn hm => hn.merge hm) ht.listsActions p q
  case contributor_lt =>
    exact Tracing.look_keeps (G := fun q _ n => ∀ k ∈ n.contributors, k < (a.core q).kernel.length)
      (fun p q w n _ k hk =>
        (KernelLookaheads.lt_of_mem_get confined.shaped (mem_contributors_atPredecessor hk)).2)
      (fun p w n m hn hm k hk => by
        rcases Annotation.mem_contributors_merge hk with hk | hk
        · exact hn k hk
        · exact hm k hk)
      ht.contributor_lt p q
  case pending =>
    rw [Tracing.look]
    dsimp only
    split
    · exact ht.pending.pushAll _
    · exact ht.pending
  case pending_lt =>
    intro e he
    rw [Tracing.look] at he
    dsimp only at he
    split at he
    · rcases Worklist.mem_of_mem_pushAll he with he | he
      · exact ht.pending_lt e he
      · obtain ⟨p', hp', rfl⟩ := List.mem_map.1 he
        exact ⟨predecessor_lt h hp hp', hp⟩
    · exact ht.pending_lt e he

/-- The transition taken from those that wait is between states. -/
theorem Traced.pop (ht : Traced g a t) {pending : Worklist (StateId × StateId)}
    (hpop : t.pending.pop? = some ((p, q), pending)) :
    p < a.size ∧ q < a.size ∧ Traced g a { t with pending } := by
  obtain ⟨hlist, -⟩ := Worklist.pop?_eq_some hpop
  obtain ⟨hp, hq⟩ := ht.pending_lt (p, q) (by rw [hlist]; exact List.mem_cons_self)
  exact ⟨hp, hq, ht.size_eq, ht.listsActions, ht.contributor_lt, (ht.pending.pop hpop).1,
    fun e he => ht.pending_lt e (by rw [hlist]; exact List.mem_cons_of_mem _ he)⟩

/-! ## The end -/

/-- The annotations of all states for their own inadequacies. -/
def origins (g : Grammar) (a : Graph) (src : LookaheadSources) : List (Inadequacy × Annotation) :=
  (List.range a.size).flatMap fun q =>
    (src.manifestations g ((Automaton.ofGraph g a).state q) q).toList

theorem mem_origins : (w, n) ∈ origins g a src ↔ w.state < a.size ∧
    (src.manifestations g ((Automaton.ofGraph g a).state w.state) w.state).get? w = some n := by
  simp only [origins, List.mem_flatMap, List.mem_range, OrderedMap.mem_toList]
  constructor
  · rintro ⟨q, hq, hn⟩
    obtain ⟨rfl, -⟩ := get?_manifestations.1 hn
    exact ⟨hq, hn⟩
  · rintro ⟨hq, hn⟩; exact ⟨_, hq, hn⟩

/-- The annotations found so far fit into the room counted. -/
theorem fits_of_listsActions (hn : ListsActions g a w n) (hq : q < a.size)
    (hlt : ∀ k ∈ n.contributors, k < (a.core q).kernel.length) :
    Fits (Automaton.ofGraph g a).kernelWidth (origins g a src) w n := by
  refine ⟨⟨_, mem_origins.2 ⟨hn.1, get?_manifestations.2 ⟨rfl, hn.2.2, rfl⟩⟩⟩, fun m hm => ?_,
    fun k hk => Nat.lt_of_lt_of_le (hlt k hk) (Automaton.length_kernel_le g hq)⟩
  obtain ⟨hm, hget⟩ := mem_origins.1 hm
  exact hn.length_eq (listsActions_manifestation hm hget)

theorem Traced.fits (ht : Traced g a t) (hn : t.Finds q w n) :
    Fits (Automaton.ofGraph g a).kernelWidth (origins g a src) w n := by
  have hq : q < a.size := by
    rw [← ht.size_eq]
    by_contra hge
    rw [Tracing.Finds, Array.getD_eq_getD_getElem?,
      Array.getElem?_eq_none (Nat.le_of_not_lt hge)] at hn
    cases hn
  exact fits_of_listsActions (ht.listsActions q w n hn) hq (ht.contributor_lt q w n hn)

/-- How often the annotations of all states can still change. -/
def Tracing.room (g : Grammar) (a : Graph) (src : LookaheadSources) (t : Tracing) : Nat :=
  total ((List.range a.size).map fun q =>
    tableRoom (Automaton.ofGraph g a).kernelWidth (origins g a src) (t.tables.getD q ∅))

/-- A bound for the transitions that are still to be looked at. -/
def Tracing.potential (g : Grammar) (a : Graph) (src : LookaheadSources) (t : Tracing) : Nat :=
  t.room g a src * a.size + t.pending.size

theorem length_predecessors_le (h : Automaton.Complete g a) (hq : q < a.size) :
    ((Automaton.ofGraph g a).state q).predecessors.length ≤ a.size := by
  obtain ⟨b, rfl⟩ := h.linked
  rw [Graph.size_link] at hq ⊢
  rw [Automaton.toCore_state, Graph.core_link b hq, Graph.predecessorsOf, List.length_map]
  refine (List.length_filter_le _ _).trans_eq ?_
  rw [Graph.states, List.length_zipIdx, Array.length_toList]
  rfl

/-- The annotations seen from a predecessor fit into the room counted. -/
theorem Traced.fits_of_mem_passed (ht : Traced g a t) (confined : Confined a src) (hp : p < a.size)
    (hn : (w, n) ∈ Tracing.passed g (.ofGraph g a) src t p q) :
    Fits (Automaton.ofGraph g a).kernelWidth (origins g a src) w n := by
  obtain ⟨m, hm, rfl⟩ := Tracing.mem_passed.1 hn
  exact fits_of_listsActions ((ht.listsActions q w m hm).atPredecessor _) hp fun k hk =>
    (KernelLookaheads.lt_of_mem_get confined.shaped (mem_contributors_atPredecessor hk)).2

/-- Looking at a transition changes no annotation, or uses up room and makes the
    transitions into its source wait. -/
theorem Traced.look_cases (ht : Traced g a t) (confined : Confined a src) (hp : p < a.size) :
    ((t.look g (.ofGraph g a) src p q).room g a src = t.room g a src ∧
        (t.look g (.ofGraph g a) src p q).pending = t.pending) ∨
      (t.look g (.ofGraph g a) src p q).room g a src < t.room g a src ∧
        (t.look g (.ofGraph g a) src p q).pending =
          t.pending.pushAll (((Automaton.ofGraph g a).state p).predecessors.map (·, p)) := by
  have tables : ∀ q', (t.look g (.ofGraph g a) src p q).tables.getD q' ∅ = if q' = p then
      (absorb (t.tables.getD p ∅) (Tracing.passed g (.ofGraph g a) src t p q)).1
      else t.tables.getD q' ∅ := fun q' => by
    simp only [Tracing.getD_look, ht.size_eq, hp, and_true]
  rcases absorb_cases (fun w n hn => ht.fits hn)
    (fun w n hn => ht.fits_of_mem_passed confined hp (q := q) hn) with hsame | ⟨hchanged, hlt⟩
  · refine .inl ⟨congrArg total (List.map_congr_left fun q' _ => ?_), by rw [Tracing.look_eq, hsame]; rfl⟩
    rw [tables, hsame]
    split
    · rename_i heq; rw [heq]
    · rfl
  · refine .inr ⟨total_map_lt (fun q' _ => ?_) (List.mem_range.2 hp) ?_,
      by rw [Tracing.look_eq]; exact if_pos hchanged⟩ <;> rw [tables]
    · split
      · rename_i heq; rw [heq]; exact Nat.le_of_lt hlt
      · exact Nat.le_refl _
    · rwa [if_pos rfl]

/-- **Looking at a transition** changes no annotation, or uses up room for the
    transitions that then have to be looked at again. -/
theorem Traced.potential_look_le (ht : Traced g a t) (confined : Confined a src)
    (h : Automaton.Complete g a) (hp : p < a.size) :
    (t.look g (.ofGraph g a) src p q).potential g a src ≤ t.potential g a src := by
  rw [Tracing.potential, Tracing.potential]
  rcases ht.look_cases confined hp (q := q) with ⟨hroom, hpending⟩ | ⟨hroom, hpending⟩
  · rw [hroom, hpending]
  · have hsize := Worklist.size_pushAll_le
      (((Automaton.ofGraph g a).state p).predecessors.map (·, p)) ht.pending
    rw [List.length_map] at hsize
    have hlength := length_predecessors_le h hp
    have hproduct := Nat.mul_le_mul_right a.size (Nat.succ_le_of_lt hroom)
    rw [Nat.succ_mul] at hproduct
    rw [hpending]
    omega

/-- With enough rounds the tracing goes on until no transition waits. -/
theorem Traced.run (confined : Confined a src) (h : Automaton.Complete g a) :
    ∀ (rounds : Nat) {t : Tracing}, Traced g a t → t.potential g a src ≤ rounds →
      (Tracing.run g (.ofGraph g a) src rounds t).pending.toList = [] := by
  refine (Tracing.loop g _ src).runs_empty (fun _ _ => Nat.le_add_left _ _) ?_
  rintro t ⟨p, q⟩ pending ht hpop
  obtain ⟨hp, -, ht'⟩ := ht.pop hpop
  refine ⟨ht'.look confined h hp, ?_⟩
  have hlook := ht'.potential_look_le (q := q) confined h hp
  have hpotential : t.potential g a src = Tracing.potential g a src { t with pending } + 1 := by
    obtain ⟨hlist, -⟩ := Worklist.pop?_eq_some hpop
    rw [Tracing.potential, Worklist.size_eq, hlist, List.length_cons, ← Worklist.size_eq]
    rfl
  exact Nat.lt_of_le_of_lt hlook (by omega)

theorem room_start_le (confined : Confined a src) (h : Automaton.Complete g a) :
    (Tracing.start g (.ofGraph g a) src).room g a src ≤
      a.size * total ((origins g a src).map fun e =>
        1 + e.2.length * ((Automaton.ofGraph g a).kernelWidth + 1)) := by
  refine (total_map_le_mul fun q _ => total_map_le fun e he => ?_).trans_eq
    (by rw [List.length_range])
  rw [roomFor]
  split
  · exact Nat.le_refl _
  · rename_i m hm
    rw [← ((traced_start confined h).fits hm).length_eq e.2 he]
    refine Nat.le_trans ?_ (Nat.le_add_left _ _)
    exact Annotation.room_le _ m

theorem size_pending_start_le (h : Automaton.Complete g a) (src : LookaheadSources) :
    (Tracing.start g (.ofGraph g a) src).pending.size ≤ a.size * a.size := by
  obtain ⟨hsound, hlt⟩ := pending_start h src
  have subset : (Tracing.start g (.ofGraph g a) src).pending.toList ⊆
      List.range a.size ×ˢ List.range a.size := fun e he =>
    List.mem_product.2 ⟨List.mem_range.2 (hlt e he).1, List.mem_range.2 (hlt e he).2⟩
  have := (hsound.nodup.subperm subset).length_le
  rwa [← Worklist.size_eq, List.length_product, List.length_range] at this

/-- The bound covers what can happen. -/
theorem potential_start_lt (confined : Confined a src) (h : Automaton.Complete g a) :
    (Tracing.start g (.ofGraph g a) src).potential g a src <
      Tracing.bound (.ofGraph g a) (Tracing.start g (.ofGraph g a) src) := by
  have hbound : Tracing.bound (.ofGraph g a) (Tracing.start g (.ofGraph g a) src) =
      a.size * a.size + a.size * total ((origins g a src).map fun e =>
        1 + e.2.length * ((Automaton.ofGraph g a).kernelWidth + 1)) * a.size + 1 := by
    rw [Tracing.bound, tables_start, origins, total_flatMap, Automaton.size_ofGraph, List.map_map]
    simp only [Function.comp_def, OrderedMap.values_eq, List.map_map]
    rfl
  have hroom := Nat.mul_le_mul_right a.size (room_start_le confined h)
  have hpending := size_pending_start_le h src
  rw [hbound, Tracing.potential]
  omega

/-- **The tracing ends**: when it stops, no transition waits. -/
theorem pending_trace (h : Automaton.Complete g a) (wf : g.WellFormed) :
    ((compute g (.ofGraph g a)).trace g (.ofGraph g a)).pending.toList = [] := by
  have confined := confined_compute h wf
  exact Traced.run confined h _ (traced_start confined h)
    (Nat.le_of_lt (potential_start_lt confined h))

end LookaheadSources

end LRAutomata
