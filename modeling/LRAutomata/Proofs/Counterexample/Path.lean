/-
  Paths through the items of an automaton.

  * `IsPath` says what a path is, step by step; the moves forward from the start
    item make one (`Route.isPath`);
  * `Graph.Visits` are the states through which a string leads; along a path the
    transitions visit the states of the string that is read
    (`Route.exists_visits`);
  * `PathStep.word` is this string, and leads to the last state of the path
    (`IsPath.reads_word`).
-/
import LRAutomata.Counterexample.Search
import LRAutomata.Proofs.Counterexample.Moves
import LRAutomata.Proofs.Data.Search

namespace LRAutomata

open Search

/-- The steps lead from the start item to the item: each begins where the one
    before it ended, and moves the dot over a symbol, to the kernel item of the
    next state, or stays in the state and begins a rule of the nonterminal after
    the dot. -/
inductive IsPath (g : Grammar) (a : Automaton) : List PathStep → StateItem → Prop
  | start : IsPath g a [.start ⟨StateId.start, Item.start⟩] ⟨StateId.start, Item.start⟩
  | transition {path : List PathStep} {p : StateItem} {X : SymbolId} {q : StateId} :
      IsPath g a path p → p.item.next? g = some X → (a.state p.state).next? X = some q →
      p.item.advance ∈ (a.state q).kernel →
      IsPath g a (path ++ [.transition p ⟨q, p.item.advance⟩]) ⟨q, p.item.advance⟩
  | production {path : List PathStep} {p : StateItem} {r : RuleId} :
      IsPath g a path p → r < g.rules.size → p.item.next? g = some (g.lhs r) →
      (⟨r, 0⟩ : Item) ∈ (a.state p.state).closure →
      IsPath g a (path ++ [.production p ⟨p.state, ⟨r, 0⟩⟩]) ⟨p.state, ⟨r, 0⟩⟩

/-- The states that the transitions of a path enter. -/
def PathStep.entered (path : List PathStep) : List StateId :=
  (path.filter isTransition).map fun step => step.target.state

/-- The symbols over which the transitions of a path move the dot. -/
def PathStep.word (g : Grammar) (path : List PathStep) : List SymbolId :=
  path.filterMap fun step =>
    match step with
    | .transition p _ => p.item.next? g
    | .start _ | .production .. => none

/-- The items listed, the last one first, of which each is a move away from the
    one before it, from the start item on. -/
def Route (g : Grammar) (a : Automaton) (l : List StateItem) : Prop :=
  Way (StateItem.moves g a) ⟨StateId.start, Item.start⟩ l

/-- The states, from the start state on, through which the string leads. -/
structure Graph.Visits (b : Graph) (γ : List SymbolId) (states : List StateId) : Prop where
  length_eq : states.length = γ.length + 1
  reads : ∀ {k q}, states[k]? = some q → b.Reads StateId.start (γ.take k) q

namespace PathStep

/-- The step from one item to the next. -/
def along (p n : StateItem) : PathStep :=
  if n.item.isInitial then production p n else transition p n

theorem between_append (source p n : StateItem) (l : List StateItem) :
    between source (l ++ [p, n]) = between source (l ++ [p]) ++ [along p n] := by
  induction l generalizing source with
  | nil => rfl
  | cons m l ih => rw [List.cons_append, List.cons_append, between, between, ih]; rfl

theorem path_append (p n : StateItem) : ∀ l : List StateItem,
    path (l ++ [p, n]) = path (l ++ [p]) ++ [along p n]
  | [] => rfl
  | m :: l => by
    rw [List.cons_append, List.cons_append, path, path, between_append]; rfl

theorem path_reverse_cons (p n : StateItem) (l : List StateItem) :
    path (n :: p :: l).reverse = path (p :: l).reverse ++ [along p n] := by
  rw [List.reverse_cons, List.reverse_cons, List.append_assoc]
  exact path_append p n l.reverse

theorem length_between (source : StateItem) (l : List StateItem) : (between source l).length = l.length := by
  induction l generalizing source with
  | nil => rfl
  | cons n l ih => exact congrArg Nat.succ (ih n)

@[simp] theorem length_path (l : List StateItem) : (path l).length = l.length := by
  cases l with
  | nil => rfl
  | cons n l => exact congrArg Nat.succ (length_between n l)

theorem entered_append (path path' : List PathStep) :
    entered (path ++ path') = entered path ++ entered path' := by
  rw [entered, List.filter_append, List.map_append]; rfl

theorem word_snoc_transition {g : Grammar} {path : List PathStep} {p n : StateItem} {X : SymbolId}
    (hX : p.item.next? g = some X) : word g (path ++ [transition p n]) = word g path ++ [X] := by
  simp [word, hX]

theorem word_snoc_production {g : Grammar} {path : List PathStep} {p n : StateItem} :
    word g (path ++ [production p n]) = word g path := by
  simp [word]

theorem entered_along (p n : StateItem) :
    entered [along p n] = if n.item.isInitial then [] else [n.state] := by
  rw [along]
  cases n.item.isInitial <;> rfl

end PathStep

namespace IsPath

variable {g : Grammar} {a : Automaton} {path : List PathStep} {p : StateItem}

/-- The string along a path leads to its last state. -/
theorem reads_word (h : IsPath g a path p) :
    a.graph.Reads StateId.start (PathStep.word g path) p.state := by
  induction h with
  | start => exact Graph.reads_nil.2 rfl
  | transition _ hX hq _ ih =>
    rw [PathStep.word_snoc_transition hX]
    refine Graph.reads_snoc.2 ⟨_, ih, ?_⟩
    rw [Graph.next?, Automaton.core_graph]
    exact hq
  | production _ _ _ _ ih => rwa [PathStep.word_snoc_production]

end IsPath

namespace Graph.Visits

variable {b : Graph} {γ : List SymbolId} {states : List StateId} {p q : StateId} {X : SymbolId}

theorem start (b : Graph) : b.Visits [] [StateId.start] := by
  refine ⟨rfl, fun {k q} hk => ?_⟩
  cases k with
  | zero => cases hk; exact reads_nil.2 rfl
  | succ => cases hk

theorem length_take (h : b.Visits γ states) {k : Nat} (hk : k < states.length) :
    (γ.take k).length = k := by
  rw [h.length_eq] at hk
  rw [List.length_take, Nat.min_eq_left (Nat.le_of_lt_succ hk)]

theorem getElem?_eq (h : b.Visits γ states) {k : Nat} (hk : k < states.length)
    (hq : b.Reads StateId.start (γ.take k) q) : states[k]? = some q := by
  have hget := List.getElem?_eq_getElem hk
  rw [hget, (h.reads hget).unique hq]

/-- The last state is the one to which the string leads. -/
theorem getLast?_eq (h : b.Visits γ states) (hγ : b.Reads StateId.start γ q) :
    states.getLast? = some q := by
  rw [List.getLast?_eq_getElem?, h.length_eq, Nat.add_sub_cancel]
  exact h.getElem?_eq (by rw [h.length_eq]; exact Nat.lt_succ_self _) (by rwa [List.take_length])

theorem snoc (h : b.Visits γ states) (hγ : b.Reads StateId.start γ p) (hq : b.next? p X = some q) :
    b.Visits (γ ++ [X]) (states ++ [q]) := by
  refine ⟨by simp [h.length_eq], fun {k r} hk => ?_⟩
  rcases Nat.lt_or_ge k states.length with hlt | hge
  · rw [List.getElem?_append_left hlt] at hk
    rw [List.take_append_of_le_length (by have := h.length_eq; omega)]
    exact h.reads hk
  · obtain ⟨hlt, -⟩ := List.getElem?_eq_some_iff.1 hk
    have hlength : k = states.length := by simp at hlt; omega
    subst hlength
    rw [List.getElem?_append_right (Nat.le_refl _), Nat.sub_self] at hk
    cases hk
    rw [h.length_eq, List.take_of_length_le (by simp)]
    exact reads_snoc.2 ⟨p, hγ, hq⟩

end Graph.Visits

namespace Route

open Automaton StateItem

variable {g : Grammar} {b : Graph} {p n : StateItem} {l : List StateItem}

theorem stands (h : Complete g b) (wf : g.WellFormed) (hl : Route g (ofGraph g b) l) :
    ∀ p ∈ l, p.Stands (ofGraph g b) :=
  hl.forall_mem (h.stands_start wf) fun p hp n hn => by
    rcases mem_moves.1 hn with hn | hn
    · exact h.stands_of_advance? hp hn
    · exact hp.of_mem_productions hn

/-- Moves forward from the start item make a path. -/
theorem isPath (h : Complete g b) (wf : g.WellFormed) (hl : Route g (ofGraph g b) (p :: l)) :
    IsPath g (ofGraph g b) (PathStep.path (p :: l).reverse) p := by
  generalize hnodes : p :: l = nodes at hl
  induction hl generalizing p l with
  | start => cases hnodes; exact .start
  | @step p n l hl hn ih =>
    cases hnodes
    have hp : p.Stands (ofGraph g b) := Route.stands h wf hl p List.mem_cons_self
    rw [PathStep.path_reverse_cons, PathStep.along]
    rcases mem_moves.1 hn with hn | hn
    · obtain ⟨X, hX, hq, hitem, hkernel⟩ := advance?_eq_some_iff.1 hn
      obtain ⟨q, i⟩ := n
      cases hitem
      exact (ih rfl).transition hX hq hkernel
    · obtain ⟨hstate, hi, hnext, -⟩ := mem_productions.1 hn
      obtain ⟨r, hr, -, hitem⟩ := h.expands_of_mem_productions hp hn
      obtain ⟨q, i⟩ := n
      cases hstate
      cases hitem
      exact (ih rfl).production hr hnext hi

/-- The transitions along a path visit the states of the string that is read. -/
theorem exists_visits (h : Complete g b) (wf : g.WellFormed)
    (hl : Route g (ofGraph g b) (p :: l)) : ∃ γ, b.Reads StateId.start γ p.state ∧
      b.Visits γ (Counterexample.stateSequence (PathStep.path (p :: l).reverse)) := by
  generalize hnodes : p :: l = nodes at hl
  induction hl generalizing p l with
  | start => cases hnodes; exact ⟨[], Graph.reads_nil.2 rfl, .start b⟩
  | @step p n l hl hn ih =>
    cases hnodes
    obtain ⟨γ, hγ, hvisits⟩ := ih rfl
    have hstates : Counterexample.stateSequence (PathStep.path (n :: p :: l).reverse) =
        Counterexample.stateSequence (PathStep.path (p :: l).reverse) ++
          if n.item.isInitial then [] else [n.state] := by
      rw [PathStep.path_reverse_cons, ← PathStep.entered_along p n]
      exact congrArg (StateId.start :: ·) (PathStep.entered_append _ _)
    rw [hstates]
    rcases mem_moves.1 hn with hn | hn
    · obtain ⟨X, hX, hq, hitem, -⟩ := advance?_eq_some_iff.1 hn
      rw [toCore_state] at hq
      rw [hitem]
      exact ⟨γ ++ [X], Graph.reads_snoc.2 ⟨_, hγ, hq⟩, hvisits.snoc hγ hq⟩
    · have hp : p.Stands (ofGraph g b) := Route.stands h wf hl p List.mem_cons_self
      obtain ⟨hstate, -⟩ := mem_productions.1 hn
      obtain ⟨r, -, -, hitem⟩ := h.expands_of_mem_productions hp hn
      rw [hstate, hitem, if_pos (show Item.isInitial ⟨r, 0⟩ = true from rfl), List.append_nil]
      exact ⟨γ, hγ, hvisits⟩

end Route

end LRAutomata
