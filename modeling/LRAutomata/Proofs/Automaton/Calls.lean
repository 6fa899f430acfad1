/-
  Automata after a sequence of calls.

  An automaton is computed anew or split, in any order and any number of times.
  After every sequence of these calls it is that of a complete graph, or has no
  states (`Automaton.built_after`).  On tables the calls stop where a position is
  too large, and else leave the same automata (`Table.run_cases`).
-/
import LRAutomata.Proofs.Automaton.Action
import LRAutomata.Proofs.Automaton.Representation

namespace LRAutomata

/-- What can be asked of an automaton under construction. -/
inductive Call where
  /-- Compute the LALR(1) automaton, whatever there was before. -/
  | lalr
  /-- Split the states of the automaton that there is. -/
  | split
deriving DecidableEq, Repr

namespace Automaton

/-- The automaton after one more call. -/
def call (g : Grammar) (a : Automaton) : Call → Automaton
  | .lalr => lalr g
  | .split => split g a

/-- The automaton after a sequence of calls. -/
def after (g : Grammar) (calls : List Call) : Automaton :=
  calls.foldl (call g) empty

/-! ## What the calls build -/

/-- The graph of an automaton that was built: it is represented, all its states
    are reached, and its predecessors are those filled in last. -/
structure Complete (g : Grammar) (a : Graph) : Prop extends a.Represented g where
  reachable : a.Reachable
  linked : ∃ b : Graph, a = b.link

/-- The automaton without states, or one with the actions of a complete graph. -/
inductive Built (g : Grammar) : Automaton → Prop
  | empty : Built g empty
  | ofGraph {a : Graph} : Complete g a → Built g (ofGraph g a)

variable {g : Grammar} {a : Automaton}

theorem Complete.isLinked {b : Graph} (h : Complete g b) : b.Linked := by
  obtain ⟨c, rfl⟩ := h.linked
  exact c.linked_link

theorem complete_lr0 (wf : g.WellFormed) : Complete g (Lr0.graph g) :=
  ⟨Lr0.represented_graph wf, Lr0.reachable_graph wf, _, Lr0.graph_eq g⟩

/-- Splitting the states of an automaton over a complete graph leaves one over a
    complete graph. -/
theorem Complete.exists_split {b : Graph} (h : Complete g b) :
    ∃ b', Complete g b' ∧ split g (ofGraph g b) = ofGraph g b' := by
  have walk := Splitting.represented_graph h.toRepresented
  rw [split, splitGraph?]
  by_cases hneeded : (Splitting.prepare g (ofGraph g b)).isNeeded = true
  · rw [if_pos hneeded]
    exact ⟨_, ⟨walk.prune, Graph.reachable_prune walk.toOfItems, _, Graph.prune_eq _⟩, rfl⟩
  · rw [if_neg hneeded]
    exact ⟨b, h, rfl⟩

theorem isNeeded_empty (g : Grammar) : (Splitting.prepare g empty).isNeeded = false := by
  have hpop : (∅ : Worklist (StateId × StateId)).pop? = none := rfl
  have htables : (Splitting.prepare g empty).annotations = #[] := by
    simp [Splitting.prepare, LookaheadSources.annotations, LookaheadSources.trace,
      LookaheadSources.Tracing.start, LookaheadSources.Tracing.bound, LookaheadSources.Tracing.run,
      empty, hpop]
  rw [Splitting.isNeeded, htables]
  rfl

/-- There is nothing to split without states. -/
theorem split_empty (g : Grammar) : split g empty = empty := by
  rw [split, splitGraph?, isNeeded_empty]
  rfl

theorem Built.call (wf : g.WellFormed) (h : Built g a) (c : Call) : Built g (call g a c) := by
  cases c with
  | lalr => exact .ofGraph (complete_lr0 wf)
  | split =>
    cases h with
    | empty => rw [Automaton.call, split_empty]; exact .empty
    | ofGraph hb =>
      obtain ⟨b', hb', heq⟩ := hb.exists_split
      rw [Automaton.call, heq]
      exact .ofGraph hb'

/-- Every sequence of calls builds an automaton over a complete graph, or none. -/
theorem built_after (wf : g.WellFormed) (calls : List Call) : Built g (after g calls) :=
  List.foldlRecOn (motive := Built g) calls _ .empty fun _ h c _ => h.call wf c

/-- Both modes build an automaton over a complete graph. -/
theorem exists_complete_generate (wf : g.WellFormed) (mode : Mode) :
    ∃ b, Complete g b ∧ generate g mode = ofGraph g b := by
  cases mode with
  | lalr => exact ⟨_, complete_lr0 wf, rfl⟩
  | ielr => exact (complete_lr0 wf).exists_split

end Automaton

end LRAutomata
