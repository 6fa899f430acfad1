/-
  Removing states that cannot be reached changes no path.

  * the states that remain are those to which a string leads
    (`Graph.mem_reachable_iff`);
  * the pruned graph reads the same strings, to the same states under their new
    numbers (`Graph.reads_prune_iff`); of a graph of items it is one again, and
    all its states are reached (`Graph.OfItems.prune`, `Graph.reachable_prune`).
-/
import LRAutomata.Automaton.Pruning
import LRAutomata.Proofs.Automaton.Lookahead

namespace LRAutomata.Graph

variable {g : Grammar} {a : Graph} {p q i : StateId} {γ : List SymbolId} {X : SymbolId}

/-! ## Reachable states -/

/-- The states to which the transitions of a state lead, if it is reached. -/
def reachFrom (s : NatSet) (c : Core × StateId) : NatSet :=
  if c.2 ∈ s then c.1.edges.foldl (fun s e => insert e.target s) s else s

theorem reachStep_eq (a : Graph) (s : NatSet) : reachStep a s = a.states.foldl reachFrom s := rfl

theorem mem_foldl_insert {edges : List Edge} {s : NatSet} {m : Nat} :
    m ∈ edges.foldl (fun s e => insert e.target s) s ↔ m ∈ s ∨ ∃ e ∈ edges, e.target = m := by
  induction edges generalizing s with
  | nil => simp
  | cons e edges ih =>
    rw [List.foldl_cons, ih, NatSet.mem_insert]
    simp only [List.mem_cons, exists_eq_or_imp, eq_comm (a := m), or_assoc]
    exact or_left_comm

theorem mem_reachFrom {s : NatSet} {c : Core × StateId} {m : Nat} :
    m ∈ reachFrom s c ↔ m ∈ s ∨ c.2 ∈ s ∧ ∃ e ∈ c.1.edges, e.target = m := by
  rw [reachFrom]
  split
  · rename_i h; simp only [mem_foldl_insert, h, true_and]
  · rename_i h; simp [h]

theorem subset_reachFrom (s : NatSet) (c : Core × StateId) : s ⊆ reachFrom s c :=
  NatSet.subset_def.2 fun _ h => mem_reachFrom.2 (.inl h)

/-- What transitions keep, a round of reaching keeps. -/
theorem reachStep_keeps {P : StateId → Prop}
    (step : ∀ q, q < a.size → P q → ∀ e ∈ (a.core q).edges, P e.target) (s : NatSet)
    (hs : ∀ m ∈ s, P m) : ∀ m ∈ reachStep a s, P m := by
  rw [reachStep_eq]
  refine List.foldlRecOn (motive := fun s : NatSet => ∀ m ∈ s, P m) _ _ hs fun s hs c hc m hm => ?_
  obtain ⟨hq, hcore⟩ := mem_states.1 (show (c.1, c.2) ∈ a.states from hc)
  rcases mem_reachFrom.1 hm with hm | ⟨hreached, e, he, rfl⟩
  · exact hs m hm
  · rw [hcore] at he; exact step c.2 hq (hs c.2 hreached) e he

/-- **The states that remain** are those to which a string leads. -/
theorem mem_reachable_iff (h : a.OfItems g) : q ∈ a.reachable ↔ ∃ γ, a.Reads StateId.start γ q := by
  constructor
  · refine fun hq => Fixpoint.iterate_keeps (P := fun s : NatSet => ∀ q ∈ s, ∃ γ, a.Reads StateId.start γ q)
      (reachStep_keeps fun q hq ⟨γ, hγ⟩ e he => ⟨γ ++ [e.symbol], ?_⟩) _ (fun q hq => ?_) q hq
    · exact reads_snoc.2 ⟨q, hγ, h.next?_edge hq he⟩
    · exact ⟨[], reads_nil.2 (NatSet.mem_singleton.1 hq).symm⟩
  · have bounded : ∀ (s : NatSet) (m : Nat), m ∈ reachStep a s → m ∈ s ∨ m ∈ List.range a.size :=
      fun s => reachStep_keeps (P := fun m => m ∈ s ∨ m ∈ List.range a.size)
        (fun q hq _ e he => .inr (List.mem_range.2 (h.target_lt hq e he))) s fun _ => .inl
    have inflates : ∀ s, s ⊆ reachStep a s := fun s => le_foldl NatSet.subset_refl
      (fun _ _ _ => NatSet.subset_trans) subset_reachFrom _ s
    have fixed := NatSet.isFixed_iterate inflates bounded {StateId.start}
    rw [List.length_range] at fixed
    have fixed : a.states.foldl reachFrom a.reachable = a.reachable := fixed
    have hstart : StateId.start ∈ a.reachable :=
      Fixpoint.iterate_keeps (P := fun s : NatSet => StateId.start ∈ s)
        (fun s hs => NatSet.subset_def.1 (inflates s) _ hs) _ (NatSet.mem_singleton.2 rfl)
    rintro ⟨γ, hγ⟩
    induction γ using List.reverseRecOn generalizing q with
    | nil => rw [← reads_nil.1 hγ]; exact hstart
    | append_singleton γ X ih =>
      obtain ⟨p, hp, hX⟩ := reads_snoc.1 hγ
      have hplt := (h.reads_kernel hp).1
      obtain ⟨e, he, -, rfl⟩ := (h.next?_eq_some_iff hplt).1 hX
      rw [← NatSet.eq_of_foldl_eq subset_reachFrom fixed _ (mem_states.2 ⟨hplt, rfl⟩)]
      exact mem_reachFrom.2 (.inr ⟨ih hp, e, he, rfl⟩)

/-! ## New numbers -/

/-- The state `q` is that with the number `i` when the others are removed. -/
def Remains (a : Graph) (i q : StateId) : Prop :=
  a.reachable.toList[i]? = some q

theorem Remains.mem (h : a.Remains i q) : q ∈ a.reachable :=
  NatSet.mem_toList.1 (List.mem_of_getElem? h)

theorem Remains.inj {j : StateId} (h : a.Remains i q) (h' : a.Remains j q) : i = j := by
  have nodup : a.reachable.toList.Nodup := (NatSet.pairwise_toList _).imp Nat.ne_of_lt
  exact (List.getElem?_inj (List.getElem?_eq_some_iff.1 h).1 nodup).1 (Eq.trans h (Eq.symm h'))

/-- The number of a state that remains. -/
def renumber (a : Graph) (q : StateId) : StateId :=
  (renumber? a.reachable.toList q).getD q

theorem remains_renumber (hq : q ∈ a.reachable) : a.Remains (a.renumber q) q := by
  rw [renumber, renumber?]
  cases hfind : a.reachable.toList.findIdx? (fun p => p = q) with
  | none =>
    have := List.findIdx?_eq_none_iff.1 hfind q (NatSet.mem_toList.2 hq)
    simp at this
  | some i =>
    obtain ⟨hi, heq, -⟩ := List.findIdx?_eq_some_iff_getElem.1 hfind
    rw [Option.getD_some, Remains, List.getElem?_eq_getElem hi]
    exact congrArg some (of_decide_eq_true heq)

/-- The start state keeps its number. -/
theorem remains_start (h : a.OfItems g) : a.Remains StateId.start StateId.start := by
  have hstart : StateId.start ∈ a.reachable.toList :=
    NatSet.mem_toList.2 ((mem_reachable_iff h).2 ⟨[], reads_nil.2 rfl⟩)
  have hsorted := NatSet.pairwise_toList a.reachable
  rw [Remains]
  cases hlist : a.reachable.toList with
  | nil => rw [hlist] at hstart; cases hstart
  | cons q rest =>
    rw [hlist] at hstart hsorted
    rcases List.mem_cons.1 hstart with heq | hrest
    · exact congrArg some heq.symm
    · exact absurd ((List.pairwise_cons.1 hsorted).1 _ hrest) (Nat.not_lt_zero _)

/-! ## The pruned graph -/

/-- A state of the pruned graph, before its predecessors are filled in. -/
def prunedCore (a : Graph) (q : StateId) : Core :=
  { a.core q with
    edges := (a.core q).edges.map fun e => { e with target := a.renumber e.target }
    isocore := (a.representative? a.reachable.toList (a.core q).isocore).getD (a.core q).isocore }

/-- The pruned graph before predecessors are filled in. -/
def pruned (a : Graph) : Graph :=
  ⟨(a.reachable.toList.map a.prunedCore).toArray⟩

theorem prune_eq (a : Graph) : a.prune = a.pruned.link := rfl

theorem core_pruned (h : a.Remains i q) : i < a.pruned.size ∧ a.pruned.core i = a.prunedCore q := by
  obtain ⟨hi, rfl⟩ := List.getElem?_eq_some_iff.1 h
  have hi' : i < (a.reachable.toList.map a.prunedCore).length := by rwa [List.length_map]
  refine ⟨by simpa [pruned, size] using hi, ?_⟩
  simp [pruned, core, Array.getD, hi]

theorem exists_remains (hi : i < a.pruned.size) : ∃ q, a.Remains i q := by
  have hi : i < a.reachable.toList.length := by simpa [pruned, size] using hi
  exact ⟨_, List.getElem?_eq_getElem hi⟩

theorem OfItems.lt_of_mem_reachable (h : a.OfItems g) (hq : q ∈ a.reachable) : q < a.size := by
  obtain ⟨γ, hγ⟩ := (mem_reachable_iff h).1 hq
  exact (h.reads_kernel hγ).1

/-- A transition of a state that is reached leads to one that is reached. -/
theorem OfItems.target_mem_reachable (h : a.OfItems g) (hq : q ∈ a.reachable) {e : Edge}
    (he : e ∈ (a.core q).edges) : e.target ∈ a.reachable := by
  obtain ⟨γ, hγ⟩ := (mem_reachable_iff h).1 hq
  exact (mem_reachable_iff h).2
    ⟨γ ++ [e.symbol], reads_snoc.2 ⟨q, hγ, h.next?_edge (h.lt_of_mem_reachable hq) he⟩⟩

/-- A state of the pruned graph comes from a state of the graph. -/
theorem OfItems.exists_core_pruned (h : a.OfItems g) (hi : i < a.pruned.size) :
    ∃ q, a.Remains i q ∧ q < a.size ∧ a.pruned.core i = a.prunedCore q := by
  obtain ⟨q, hq⟩ := exists_remains hi
  exact ⟨q, hq, h.lt_of_mem_reachable hq.mem, (core_pruned hq).2⟩

/-- So does a transition. -/
theorem OfItems.exists_edge_pruned (h : a.OfItems g) (hi : a.Remains i q) {e : Edge}
    (he : e ∈ (a.prunedCore q).edges) : ∃ e' ∈ (a.core q).edges,
      e.symbol = e'.symbol ∧ e.nextItems = e'.nextItems ∧ a.Remains e.target e'.target := by
  obtain ⟨e', he', rfl⟩ := List.mem_map.1 he
  exact ⟨e', he', rfl, rfl, remains_renumber (h.target_mem_reachable hi.mem he')⟩

theorem OfItems.pruned (h : a.OfItems g) : a.pruned.OfItems g := by
  constructor
  case start_lt => exact (core_pruned (remains_start h)).1
  case kernel_start => rw [(core_pruned (remains_start h)).2]; exact h.kernel_start
  all_goals
    intro i hi
    obtain ⟨q, hremains, hq, hcore⟩ := h.exists_core_pruned hi
  case closure_eq => rw [hcore]; exact h.closure_eq hq
  case symbols_eq =>
    rw [hcore, prunedCore, List.map_map]
    exact h.symbols_eq hq
  all_goals
    intro e he
    rw [hcore] at he
    obtain ⟨e', he', hsymbol, -, htarget⟩ := h.exists_edge_pruned hremains he
  case target_lt => exact (core_pruned htarget).1
  case kernel_target =>
    rw [(core_pruned htarget).2, hcore, hsymbol]
    exact h.kernel_target hq e' he'

theorem OfItems.prune (h : a.OfItems g) : a.prune.OfItems g := by
  rw [prune_eq]; exact h.pruned.link

/-! ## Paths -/

theorem next?_link (a : Graph) (p : StateId) (X : SymbolId) : a.link.next? p X = a.next? p X := by
  rw [Graph.next?, Graph.next?]
  rcases Nat.lt_or_ge p a.size with hp | hp
  · rw [core_link a hp]; rfl
  · rw [core_of_size_le a hp, core_of_size_le _ (by rwa [size_link])]

theorem reads_link : a.link.Reads p γ q ↔ a.Reads p γ q := by
  induction γ generalizing p with
  | nil => rw [reads_nil, reads_nil]
  | cons X γ ih => simp only [reads_cons, next?_link, ih]

theorem next?_pruned (h : a.OfItems g) {j : StateId} (hj : a.Remains j p) :
    a.pruned.next? j X = some i ↔ ∃ q, a.next? p X = some q ∧ a.Remains i q := by
  have hnext : a.pruned.next? j X = (a.next? p X).map a.renumber := by
    rw [Graph.next?, (core_pruned hj).2, prunedCore, Core.next?, Graph.next?, Core.next?,
      List.find?_map, Option.map_map, Option.map_map]
    rfl
  obtain ⟨γ, hγ⟩ := (mem_reachable_iff h).1 hj.mem
  rw [hnext, Option.map_eq_some_iff]
  refine exists_congr fun q => and_congr_right fun hX => ?_
  have hq := remains_renumber ((mem_reachable_iff h).2 ⟨γ ++ [X], reads_snoc.2 ⟨p, hγ, hX⟩⟩)
  exact ⟨fun heq => heq ▸ hq, fun hi => hq.inj hi⟩

/-- **The pruned graph reads the same strings**, to the same states. -/
theorem reads_prune_iff (h : a.OfItems g) :
    a.prune.Reads StateId.start γ i ↔ ∃ q, a.Remains i q ∧ a.Reads StateId.start γ q := by
  rw [prune_eq, reads_link]
  induction γ using List.reverseRecOn generalizing i with
  | nil =>
    simp only [reads_nil]
    constructor
    · rintro rfl; exact ⟨_, remains_start h, rfl⟩
    · rintro ⟨q, hq, rfl⟩; exact (remains_start h).inj hq
  | append_singleton γ X ih =>
    simp only [reads_snoc, ih]
    constructor
    · rintro ⟨j, ⟨p, hj, hγ⟩, hX⟩
      obtain ⟨q, hX, hi⟩ := (next?_pruned h hj).1 hX
      exact ⟨q, hi, p, hγ, hX⟩
    · rintro ⟨q, hi, p, hγ, hX⟩
      have hj := remains_renumber ((mem_reachable_iff h).2 ⟨γ, hγ⟩)
      exact ⟨_, ⟨p, hj, hγ⟩, (next?_pruned h hj).2 ⟨q, hX, hi⟩⟩

theorem reachable_prune (h : a.OfItems g) : a.prune.Reachable := by
  intro i hi
  rw [prune_eq, size_link] at hi
  obtain ⟨q, hq⟩ := exists_remains hi
  obtain ⟨γ, hγ⟩ := (mem_reachable_iff h).1 hq.mem
  exact ⟨γ, (reads_prune_iff h).2 ⟨q, hq, hγ⟩⟩

end LRAutomata.Graph
