/-
  Splitting ends, whatever was built before.

  Both worklists run empty: that of the transitions at which inadequacies are
  traced back, and that of the states from which the walk goes on.  So further
  rounds change nothing, and there are only so many states
  (`Automaton.splitEnds_after`).

  The right-hand sides of the grammar are taken to fit the positions (`Item`).
-/
import LRAutomata.Proofs.Automaton.Tracing
import LRAutomata.Proofs.Automaton.WalkBound

namespace LRAutomata

open LookaheadSources

namespace Automaton

/-! ## Any sequence of calls -/

/-- Splitting the states of the automaton ends: the tracing back and the walk stop
    because nothing waits any more, however many rounds they may go on for, and
    the walk has at no time more states than there are choices of actions. -/
structure SplitEnds (g : Grammar) (a : Automaton) : Prop where
  /-- No transition waits after as many rounds as the bound of the tracing. -/
  pending : ∀ rounds, Tracing.bound a (Tracing.start g a (compute g a)) ≤ rounds →
    (Tracing.run g a (compute g a) rounds (Tracing.start g a (compute g a))).pending.toList = []
  /-- Then the annotations are those for which the states are split. -/
  traced : ∀ rounds, Tracing.bound a (Tracing.start g a (compute g a)) ≤ rounds →
    Tracing.run g a (compute g a) rounds (Tracing.start g a (compute g a)) = (compute g a).trace g a
  /-- No state waits after as many rounds as the bound of the walk. -/
  queue : ∀ rounds, (Splitting.prepare g a).bound g ≤ rounds →
    (Splitting.Walk.run g (Splitting.prepare g a) rounds (Splitting.Walk.start a)).queue.toList = []
  /-- Then the graph is the one of the split automaton. -/
  walked : ∀ rounds, (Splitting.prepare g a).bound g ≤ rounds →
    (Splitting.Walk.run g (Splitting.prepare g a) rounds (Splitting.Walk.start a)).graph =
      (Splitting.prepare g a).graph g
  states : ∀ rounds,
    (Splitting.Walk.run g (Splitting.prepare g a) rounds (Splitting.Walk.start a)).graph.size ≤
      (Splitting.prepare g a).choiceCount

variable {g : Grammar}

/-- What runs empty within the bounds stays as it is. -/
theorem splitEnds_of_empty {a : Automaton} (pending : ((compute g a).trace g a).pending.toList = [])
    (queue : ((Splitting.prepare g a).walk g).queue.toList = [])
    (states : ∀ rounds, (Splitting.Walk.run g (Splitting.prepare g a) rounds
      (Splitting.Walk.start a)).graph.size ≤ (Splitting.prepare g a).choiceCount) :
    SplitEnds g a := by
  have traced : ∀ rounds, Tracing.bound a (Tracing.start g a (compute g a)) ≤ rounds →
      Tracing.run g a (compute g a) rounds (Tracing.start g a (compute g a)) =
        (compute g a).trace g a := fun rounds hle => (Tracing.loop g a _).run_eq_of_le pending hle
  have walked : ∀ rounds, (Splitting.prepare g a).bound g ≤ rounds →
      Splitting.Walk.run g (Splitting.prepare g a) rounds (Splitting.Walk.start a) =
        (Splitting.prepare g a).walk g := fun rounds hle => (Splitting.Walk.loop g _).run_eq_of_le queue hle
  exact ⟨fun rounds hle => by rw [traced rounds hle]; exact pending, traced,
    fun rounds hle => by rw [walked rounds hle]; exact queue,
    fun rounds hle => by rw [walked rounds hle]; rfl, states⟩

theorem Complete.splitEnds {a : Graph} (h : Complete g a) (wf : g.WellFormed) :
    SplitEnds g (ofGraph g a) :=
  splitEnds_of_empty (pending_trace h wf)
    (Splitting.queue_walk h.toOfItems wf h.reachable fun hq => h.isocore_lt hq)
    fun rounds => ((Splitting.Walk.spread_start h.toOfItems fun hq => h.isocore_lt hq).run h.toOfItems wf
      h.reachable rounds).size_le_choiceCount h.toOfItems wf h.reachable

/-- Without states nothing is traced back, and the walk does not go on from the
    start state. -/
theorem splitEnds_empty (g : Grammar) : SplitEnds g empty := by
  have first : (Splitting.Walk.run g (Splitting.prepare g empty) 1
      (Splitting.Walk.start empty)).queue.toList = [] ∧
      (Splitting.Walk.run g (Splitting.prepare g empty) 1 (Splitting.Walk.start empty)).graph.size = 0 := by
    have hpop : (Splitting.Walk.start empty).queue.pop? = some (StateId.start, ⟨[], [], _⟩) := rfl
    rw [Splitting.Walk.run_succ, hpop]
    exact ⟨rfl, rfl⟩
  refine splitEnds_of_empty ?_ ?_ fun rounds => ?_
  · have hpop : (∅ : Worklist (StateId × StateId)).pop? = none := rfl
    simp [trace, Tracing.start, Tracing.bound, Tracing.run, empty, hpop, Worklist.pop?_eq_none hpop]
  · have hwalk : (Splitting.prepare g empty).walk g = _ :=
      (Splitting.Walk.loop g _).run_eq_of_le first.1 (Nat.le_add_left 1 _)
    rw [hwalk]
    exact first.1
  · cases rounds with
    | zero => exact Nat.zero_le _
    | succ rounds =>
      rw [(Splitting.Walk.loop g _).run_eq_of_le first.1 (Nat.le_add_left 1 rounds), first.2]
      exact Nat.zero_le _

theorem Built.splitEnds {a : Automaton} (h : Built g a) (wf : g.WellFormed) : SplitEnds g a := by
  cases h with
  | empty => exact splitEnds_empty g
  | ofGraph h => exact h.splitEnds wf

/-- **Splitting ends.**  After every sequence of calls the states of the automaton
    can be split in finitely many steps. -/
theorem splitEnds_after {decls : List Declaration} (h : Grammar.define decls = .ok g)
    (calls : List Call) : SplitEnds g (after g calls) :=
  (built_after (Grammar.wellFormed_of_define h) calls).splitEnds (Grammar.wellFormed_of_define h)

/-- The theorem speaks of an automaton in which transitions are traced back and a
    state is copied, also when that automaton is split again. -/
theorem splitEnds_after_split : ∃ g, Grammar.define Grammar.crossing = .ok g ∧
    (Tracing.start g (after g [.lalr]) (compute g (after g [.lalr]))).pending.toList ≠ [] ∧
    (after g [.lalr]).states.size < ((Splitting.prepare g (after g [.lalr])).graph g).size ∧
    SplitEnds g (after g [.lalr]) ∧ SplitEnds g (after g [.lalr, .split]) := by
  obtain ⟨g, hg, hcheck⟩ := Grammar.exists_define Grammar.crossing
    (fun g => decide
      ((Tracing.start g (after g [.lalr]) (compute g (after g [.lalr]))).pending.toList ≠ [] ∧
        (after g [.lalr]).states.size < ((Splitting.prepare g (after g [.lalr])).graph g).size))
    (by decide +kernel)
  obtain ⟨hpending, hsize⟩ := of_decide_eq_true hcheck
  exact ⟨g, hg, hpending, hsize, splitEnds_after hg _, splitEnds_after hg _⟩

end Automaton

end LRAutomata
