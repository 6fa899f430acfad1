/-
  A path to a shift that visits the states of a path to a reduction.

  The search goes back from the item with the token after its dot, through the
  states of the other path.  What it finds is a path that visits these states
  (`exists_route_of_shiftPath?`), and it finds one: the item is viable after the
  string along the other path, and from a viable item the item automaton is
  followed back to the start item (`leads_back`).
-/
import LRAutomata.Proofs.Counterexample.Path

namespace LRAutomata.Counterexample

open Std Search Automaton StateItem

variable {g : Grammar} {b : Graph} {q : StateId} {i : Item} {γ δ : List SymbolId} {k : Nat}
  {states : List StateId} {other : List PathStep} {m n : StateItem × Nat}

/-- Where the search for a shift can be: at an item of the `k`-th state listed. -/
def StandsAt (a : Automaton) (states : List StateId) (n : StateItem × Nat) : Prop :=
  n.1.Stands a ∧ states[n.2]? = some n.1.state

theorem mem_backwardMoves {a : Automaton} : m ∈ backwardMoves g a states n ↔
    n.1.item.isInitial = true ∧ m.1 ∈ n.1.producers g a ∧ m.2 = n.2 ∨
      n.1.item.isInitial = false ∧ m.2 + 1 = n.2 ∧
        ∃ before, states[m.2]? = some before ∧ m.1 ∈ n.1.retreats g a before := by
  obtain ⟨p, k⟩ := n
  obtain ⟨p', k'⟩ := m
  simp only [backwardMoves]
  cases hinitial : p.item.isInitial
  · cases k with
    | zero => simp
    | succ k =>
      cases hk : states[k]? with
      | none => simp +contextual [hk]
      | some before => simp +contextual [hk, and_comm, eq_comm]
  · simp [and_comm, eq_comm]

namespace StandsAt

theorem move (h : Complete g b) (n : StateItem × Nat) (hstates : b.Visits γ states)
    (hn : StandsAt (ofGraph g b) states n) :
    ∀ m ∈ backwardMoves g (ofGraph g b) states n, StandsAt (ofGraph g b) states m := by
  intro m hm
  rcases mem_backwardMoves.1 hm with ⟨-, hm, hk⟩ | ⟨-, -, before, hbefore, hm⟩
  · refine ⟨hn.1.of_mem_producers hm, ?_⟩
    rw [hk, (mem_producers.1 hm).1]
    exact hn.2
  · have hlt : before < (ofGraph g b).states.size := by
      rw [size_ofGraph]
      exact (h.reads_kernel (hstates.reads hbefore)).1
    refine ⟨stands_of_mem_retreats hlt hm, ?_⟩
    rw [(mem_retreats.1 hm).1]
    exact hbefore

/-- A move back is a move forward, seen from its end. -/
theorem mem_moves (h : Complete g b) (wf : g.WellFormed) (hn : StandsAt (ofGraph g b) states n)
    (hm : m ∈ backwardMoves g (ofGraph g b) states n) : n.1 ∈ m.1.moves g (ofGraph g b) := by
  rcases mem_backwardMoves.1 hm with ⟨hinitial, hm, -⟩ | ⟨-, -, before, -, hm⟩
  · exact StateItem.mem_moves.2 (.inr (h.mem_productions_of_mem_producers wf hn.1 hinitial hm))
  · exact StateItem.mem_moves.2 (.inl (mem_retreats.1 hm).2.2)

end StandsAt

/-- The transitions from the head of a way back visit the states that are left. -/
theorem entered_of_way {a : Automaton} {start : StateItem × Nat} {l : List (StateItem × Nat)}
    (hl : Way (backwardMoves g a states) start (n :: l)) (hstart : start.2 + 1 = states.length)
    (hstands : ∀ m ∈ n :: l, StandsAt a states m) :
    PathStep.entered (PathStep.between n.1 (l.map Prod.fst)) = states.drop (n.2 + 1) := by
  generalize hnodes : n :: l = nodes at hl
  induction hl generalizing n l with
  | start =>
    cases hnodes
    rw [hstart, List.drop_length]
    rfl
  | @step n m l _ hm ih =>
    cases hnodes
    obtain ⟨-, hstands⟩ := List.forall_mem_cons.1 hstands
    have hcons := PathStep.entered_append [PathStep.along m.1 n.1]
      (PathStep.between n.1 (l.map Prod.fst))
    rw [PathStep.entered_along, ih hstands rfl] at hcons
    refine hcons.trans ?_
    rcases mem_backwardMoves.1 hm with ⟨hinitial, -, hk⟩ | ⟨hinitial, hk, -⟩
    · rw [if_pos hinitial, hk, List.nil_append]
    · rw [if_neg (by rw [hinitial]; exact Bool.false_ne_true), hk]
      obtain ⟨hlt, hget⟩ := List.getElem?_eq_some_iff.1 (hstands n List.mem_cons_self).2
      rw [List.drop_eq_getElem_cons hlt, hget]
      rfl

/-- A way back to the start item is a route, seen from its end. -/
theorem exists_route_of_way (h : Complete g b) (wf : g.WellFormed) {l : List (StateItem × Nat)}
    (hl : Way (backwardMoves g (ofGraph g b) states) (⟨q, i⟩, k)
      ((⟨StateId.start, Item.start⟩, 0) :: l))
    (hstands : ∀ m ∈ (⟨StateId.start, Item.start⟩, 0) :: l, StandsAt (ofGraph g b) states m) :
    ∃ l', Route g (ofGraph g b) (⟨q, i⟩ :: l') ∧
      (⟨q, i⟩ :: l').reverse = ⟨StateId.start, Item.start⟩ :: l.map Prod.fst := by
  have hroute : Route g (ofGraph g b)
      (((⟨StateId.start, Item.start⟩, 0) :: l).reverse.map Prod.fst) :=
    hl.map_reverse hstands fun m hm m' hm' => StandsAt.mem_moves h wf hm hm'
  obtain ⟨l', heq⟩ := hl.exists_append
  have hnodes : ((⟨StateId.start, Item.start⟩, 0) :: l).reverse.map Prod.fst =
      (⟨q, i⟩ :: l'.reverse.map Prod.fst : List StateItem) := by
    rw [heq, List.reverse_append]
    rfl
  rw [hnodes] at hroute
  refine ⟨_, hroute, ?_⟩
  rw [← hnodes, ← List.map_reverse, List.reverse_reverse]
  rfl

/-- The path found leads to the item that was searched, and its transitions visit
    the states of the other path. -/
theorem exists_route_of_shiftPath? (h : Complete g b) (wf : g.WellFormed)
    (hother : b.Visits γ (stateSequence other)) (hi : StateItem.Stands (ofGraph g b) ⟨q, i⟩)
    {path : List PathStep} (hpath : shiftPath? g (ofGraph g b) other q i = some path) :
    ∃ l, Route g (ofGraph g b) (⟨q, i⟩ :: l) ∧ path = PathStep.path (⟨q, i⟩ :: l).reverse ∧
      PathStep.entered path = PathStep.entered other := by
  rw [shiftPath?] at hpath
  dsimp only at hpath
  split at hpath
  · cases hpath
  rename_i hlast
  rw [not_not, List.getLast?_eq_getElem?] at hlast
  obtain ⟨⟨n, l⟩, htrail, rfl⟩ := Option.map_eq_some_iff.1 hpath
  obtain ⟨hway, hgoal⟩ := way_of_shortest? htrail
  obtain ⟨hzero, hstart⟩ := Bool.and_eq_true_iff.1 hgoal
  have hstands : ∀ m ∈ n :: l, StandsAt (ofGraph g b) (stateSequence other) m :=
    hway.forall_mem ⟨hi, hlast⟩ fun m hm => StandsAt.move h m hother hm
  -- The goal is the start item in the first of the states, which is the start state.
  have hn : n = (⟨StateId.start, Item.start⟩, 0) := by
    obtain ⟨⟨r, j⟩, k⟩ := n
    obtain rfl : k = 0 := of_decide_eq_true hzero
    obtain rfl : j = Item.start := of_decide_eq_true hstart
    have hstate := (hstands _ List.mem_cons_self).2
    cases hstate
    rfl
  subst hn
  obtain ⟨l', hroute, hreverse⟩ := exists_route_of_way h wf hway hstands
  refine ⟨l', hroute, by rw [hreverse]; rfl, ?_⟩
  exact entered_of_way hway (Nat.sub_add_cancel (Nat.succ_pos _)) hstands

/-! ## The way back -/

/-- A viable item leads back to the start item, through the states to which the
    string leads. -/
theorem leads_back (h : Complete g b) (wf : g.WellFormed) (hstates : b.Visits γ states)
    (hi : i.Viable g δ) : ∀ {k q}, k < states.length → δ = γ.take k → b.Reads StateId.start δ q →
      Relation.ReflTransGen (fun n m => m ∈ backwardMoves g (ofGraph g b) states n)
        (⟨q, i⟩, k) (⟨StateId.start, Item.start⟩, 0) := by
  induction hi with
  | start =>
    intro k q hk hδ hq
    obtain rfl := Graph.reads_nil.1 hq
    have hzero : k = 0 := by rw [← hstates.length_take hk, ← hδ]; rfl
    rw [hzero]
  | @read δ i X hi hX ih =>
    intro k q hk hδ hq
    obtain ⟨p, hp, hnext⟩ := Graph.reads_snoc.1 hq
    -- The symbol was read in the state listed before.
    have hlength : k = δ.length + 1 := by rw [← hstates.length_take hk, ← hδ]; simp
    subst hlength
    have hδ : δ = γ.take δ.length := by
      have := congrArg (List.take δ.length) hδ
      rwa [List.take_left', List.take_take, Nat.min_eq_left (Nat.le_succ _)] at this
      rfl
    have hlt := Nat.lt_of_succ_lt hk
    have hstands := h.stands_of_viable wf hi hp
    refine .head ?_ (ih hlt hδ hp)
    exact mem_backwardMoves.2 (.inr ⟨rfl, rfl, p, hstates.getElem?_eq hlt (hδ ▸ hp),
      mem_retreats.2 ⟨rfl, hstands.2, h.advance?_of_next hstands hX hnext⟩⟩)
  | @expand δ i j hi hij ih =>
    intro k q hk hδ hq
    refine .head ?_ (ih hk hδ hq)
    obtain ⟨r, hr, hnext, rfl⟩ := hij
    exact mem_backwardMoves.2 (.inl ⟨rfl,
      mem_producers.2 ⟨rfl, (h.stands_of_viable wf hi hq).2, hnext⟩, rfl⟩)

/-- All items of states with the numbers of all states listed. -/
def placesAlong (a : Automaton) (states : List StateId) : List (StateItem × Nat) :=
  a.places.flatMap fun p => (List.range states.length).map (p, ·)

theorem length_placesAlong (a : Automaton) (states : List StateId) :
    (placesAlong a states).length = a.stateItemCount * states.length := by
  rw [placesAlong, List.length_flatMap]
  simp [length_places]

theorem StandsAt.mem_placesAlong {a : Automaton} (hn : StandsAt a states n) :
    n ∈ placesAlong a states :=
  List.mem_flatMap.2 ⟨n.1, mem_places hn.1, List.mem_map.2
    ⟨n.2, List.mem_range.2 (List.getElem?_eq_some_iff.1 hn.2).1, rfl⟩⟩

/-- Every item of the state in which a path ends has a path through the same states. -/
theorem exists_shiftPath? (h : Complete g b) (wf : g.WellFormed)
    (hother : b.Visits γ (stateSequence other)) (hγ : b.Reads StateId.start γ q)
    (hi : StateItem.Stands (ofGraph g b) ⟨q, i⟩) :
    ∃ path, shiftPath? g (ofGraph g b) other q i = some path := by
  have hlast := hother.getLast?_eq hγ
  have hlength : (stateSequence other).length - 1 = γ.length := by
    rw [hother.length_eq, Nat.add_sub_cancel]
  have hviable : i.Viable g γ := (h.mem_items_iff wf hγ).1 (Complete.stands_iff.1 hi).2
  have hlt : γ.length < (stateSequence other).length := by
    rw [hother.length_eq]; exact Nat.lt_succ_self _
  obtain ⟨l, hl⟩ := exists_way (leads_back h wf hother hviable hlt (List.take_length).symm hγ)
  have hnodes : ∀ {l}, Way (backwardMoves g (ofGraph g b) (stateSequence other)) (⟨q, i⟩, γ.length) l →
      ∀ n ∈ l, n ∈ placesAlong (ofGraph g b) (stateSequence other) := fun hl n hn =>
    (hl.forall_mem ⟨hi, hother.getElem?_eq hlt (by rwa [List.take_length])⟩
      (fun m hm => StandsAt.move h m hother hm) n hn).mem_placesAlong
  have hbound : (placesAlong (ofGraph g b) (stateSequence other)).length <
      (ofGraph g b).stateItemCount * ((stateSequence other).length + 1) + 1 := by
    rw [length_placesAlong]
    exact Nat.lt_succ_of_le (Nat.mul_le_mul_left _ (Nat.le_succ _))
  obtain ⟨trail, htrail⟩ : ∃ trail, shortest? _ (⟨q, i⟩, γ.length)
      (backwardMoves g (ofGraph g b) (stateSequence other))
      (fun n => n.2 = 0 && n.1.item.isStart) = some trail :=
    exists_shortest? hnodes hbound hl rfl
  rw [shiftPath?]
  dsimp only
  rw [if_neg (not_not.2 hlast), hlength, htrail]
  exact ⟨_, rfl⟩

end LRAutomata.Counterexample
