/-
  What is left of earlier calls.

  Computing an automaton anew forgets all that was done before, so an automaton
  is the LALR(1) automaton, split as often as was asked for since it was last
  computed (`Automaton.after_eq_iterate`).  Splitting it once gives what a
  configuration asks for; splitting it again changes nothing if the first
  splitting left no inadequate state (`Automaton.after_eq_generate`).  Otherwise
  it may merge states again that were split (`Automaton.splits_merged_again`).

  The right-hand sides of the grammar are taken to fit the positions (`Item`).
-/
import Mathlib.Logic.Function.Iterate
import LRAutomata.Proofs.Automaton.Inadequacy

namespace LRAutomata

/-- How many splittings come after the last computation. -/
def splitsSince (calls : List Call) : Nat :=
  (calls.reverse.takeWhile (· = .split)).length

/-- The mode that asks for splitting if any comes after the last computation. -/
def lastMode (calls : List Call) : Mode :=
  if splitsSince calls = 0 then .lalr else .ielr

theorem splitsSince_lalr (calls : List Call) : splitsSince (calls ++ [.lalr]) = 0 := by
  simp [splitsSince]

theorem splitsSince_split (calls : List Call) :
    splitsSince (calls ++ [.split]) = splitsSince calls + 1 := by
  simp [splitsSince]

namespace Automaton

variable {g : Grammar} {calls : List Call}

/-! ## Sequences of calls -/

/-- The calls before the last computation are forgotten. -/
theorem after_eq_iterate (g : Grammar) (h : .lalr ∈ calls) :
    after g calls = (split g)^[splitsSince calls] (lalr g) := by
  induction calls using List.reverseRecOn with
  | nil => cases h
  | append_singleton calls c ih =>
    have snoc : after g (calls ++ [c]) = call g (after g calls) c := by simp [after]
    rw [snoc]
    cases c with
    | lalr => rw [splitsSince_lalr]; rfl
    | split =>
      have before : .lalr ∈ calls := by simpa using h
      rw [splitsSince_split, Function.iterate_succ_apply', ← ih before]
      rfl

/-- The automaton is what a configuration asks for, whatever was called before, iff
    splitting twice is splitting once. -/
theorem after_eq_generate_iff (g : Grammar) :
    (∀ calls, .lalr ∈ calls → after g calls = generate g (lastMode calls)) ↔
      split g (generate g .ielr) = generate g .ielr := by
  constructor
  · intro all
    have := all [.lalr, .split, .split] (by simp)
    exact this
  · intro idem calls hcalls
    rw [after_eq_iterate g hcalls, lastMode]
    match splitsSince calls with
    | 0 => rfl
    | n + 1 =>
      have fixed : (split g)^[n] (generate g .ielr) = generate g .ielr := Function.iterate_fixed idem n
      rw [Function.iterate_succ_apply, if_neg (Nat.succ_ne_zero n)]
      exact fixed

/-- **The history of calls does not matter** as long as an automaton that has
    inadequate states is not split again. -/
theorem after_eq_generate {decls : List Declaration} {g : Grammar} (h : Grammar.define decls = .ok g)
    {calls : List Call} (hcalls : .lalr ∈ calls)
    (once : splitsSince calls ≤ 1 ∨ (generate g .ielr).Adequate) :
    after g calls = generate g (lastMode calls) := by
  have wf := Grammar.wellFormed_of_define h
  rcases once with once | adequate
  · rw [after_eq_iterate g hcalls, lastMode]
    obtain hnone | hone := Nat.le_one_iff_eq_zero_or_eq_one.1 once
    · rw [hnone]; rfl
    · rw [hone]; rfl
  · obtain ⟨b, complete, heq⟩ := exists_complete_generate wf .ielr
    refine (after_eq_generate_iff g).2 ?_ calls hcalls
    rw [heq] at adequate ⊢
    exact adequate.split_eq complete.toOfItems wf complete.reachable

/-- The theorem speaks of an automaton of which a state is split, and that is split
    again. -/
theorem after_eq_generate_split : ∃ g, Grammar.define Grammar.crossing = .ok g ∧
    (generate g .lalr).states.size < (generate g .ielr).states.size ∧
    after g [.split, .lalr, .split, .split] = generate g .ielr := by
  obtain ⟨g, hg, hcheck⟩ := Grammar.exists_define Grammar.crossing
    (fun g => (generate g .lalr).states.size < (generate g .ielr).states.size ∧
      (generate g .ielr).Adequate) (by decide +kernel)
  obtain ⟨hsize, adequate⟩ := of_decide_eq_true hcheck
  exact ⟨g, hg, hsize, after_eq_generate hg (by simp) (.inr adequate)⟩

/-- Two sentences whose ends depend on their beginnings, and an ambiguous list. -/
def endsAndList : List Declaration :=
  Grammar.crossing ++ [.rule ⟨"S", ["L"], none, 7⟩, .rule ⟨"L", ["L", "'+'", "L"], none, 8⟩,
    .rule ⟨"L", ["'n'"], none, 9⟩]

/-- The conflict of the list stays, so the automaton is split again, and the state
    that was split for the ends is merged. -/
theorem splits_merged_again : ∃ g, Grammar.define endsAndList = .ok g ∧
    after g [.lalr, .split, .split] ≠ after g [.lalr, .split] ∧
    (after g [.lalr, .split]).reduceReduceCount = 0 ∧
    (after g [.lalr, .split, .split]).reduceReduceCount = 1 := by
  obtain ⟨g, hg, hcheck⟩ := Grammar.exists_define endsAndList
    (fun g => (after g [.lalr, .split]).reduceReduceCount = 0 ∧
      (after g [.lalr, .split, .split]).reduceReduceCount = 1) (by decide +kernel)
  obtain ⟨honce, htwice⟩ := of_decide_eq_true hcheck
  refine ⟨g, hg, fun heq => ?_, honce, htwice⟩
  rw [heq, honce] at htwice
  cases htwice

end Automaton

end LRAutomata
