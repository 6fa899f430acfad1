/-
  The moves between the items of an automaton.

  * `StateItem.moves` are the moves forward: over the symbol after the dot, and
    into its rules;
  * over a complete graph a transition is found for every symbol after a dot
    (`advance?_of_next`), a production for every expansion
    (`mem_productions_of_expands`), and the moves back are moves forward, seen
    from their ends (`mem_productions_of_mem_producers`);
  * `Automaton.places` lists the items of all states.
-/
import LRAutomata.Counterexample.Moves
import LRAutomata.Proofs.Automaton.Calls

namespace LRAutomata

namespace StateItem

/-- The item is one of its state. -/
def Stands (a : Automaton) (p : StateItem) : Prop :=
  p.state < a.states.size ∧ p.item ∈ (a.state p.state).items

instance (a : Automaton) (p : StateItem) : Decidable (p.Stands a) :=
  inferInstanceAs (Decidable (_ ∧ _))

/-- The moves forward from an item: over the next symbol, then into its rules. -/
def moves (g : Grammar) (a : Automaton) (p : StateItem) : List StateItem :=
  (p.advance? g a).toList ++ p.productions g a

variable {g : Grammar} {a : Automaton} {p n : StateItem} {q : StateId}

theorem mem_moves : n ∈ p.moves g a ↔ p.advance? g a = some n ∨ n ∈ p.productions g a := by
  rw [moves, List.mem_append, Option.mem_toList]

theorem advance?_eq_some_iff : p.advance? g a = some n ↔
    ∃ X, p.item.next? g = some X ∧ (a.state p.state).next? X = some n.state ∧
      n.item = p.item.advance ∧ p.item.advance ∈ (a.state n.state).kernel := by
  simp only [advance?, Option.bind_eq_bind, Option.bind_eq_some_iff, Option.ite_none_right_eq_some,
    Option.some.injEq]
  constructor
  · rintro ⟨X, hX, q, hq, hkernel, rfl⟩; exact ⟨X, hX, hq, rfl, hkernel⟩
  · rintro ⟨X, hX, hq, hitem, hkernel⟩; exact ⟨X, hX, n.state, hq, hkernel, by rw [← hitem]⟩

theorem mem_productions : n ∈ p.productions g a ↔
    n.state = p.state ∧ n.item ∈ (a.state p.state).closure ∧
      p.item.next? g = some (n.item.lhs g) ∧ g.isTerminal (n.item.lhs g) = false := by
  rw [productions]
  cases hnext : p.item.next? g with
  | none => simp
  | some X =>
    dsimp only
    split
    · rename_i hX
      simp only [List.not_mem_nil, Option.some.injEq, false_iff]
      rintro ⟨-, -, rfl, hlhs⟩
      rw [hX] at hlhs; cases hlhs
    · rename_i hX
      simp only [List.mem_map, List.mem_filter, decide_eq_true_eq, Option.some.injEq]
      constructor
      · rintro ⟨i, ⟨hi, rfl⟩, rfl⟩; exact ⟨rfl, hi, rfl, Bool.eq_false_iff.2 hX⟩
      · rintro ⟨hstate, hi, rfl, -⟩; exact ⟨n.item, ⟨hi, rfl⟩, by rw [← hstate]⟩

theorem mem_producers : n ∈ p.producers g a ↔
    n.state = p.state ∧ n.item ∈ (a.state p.state).items ∧ n.item.next? g = some (p.item.lhs g) := by
  simp only [producers, List.mem_map, List.mem_filter, decide_eq_true_eq]
  constructor
  · rintro ⟨i, ⟨hi, hnext⟩, rfl⟩; exact ⟨rfl, hi, hnext⟩
  · rintro ⟨hstate, hi, hnext⟩; exact ⟨n.item, ⟨hi, hnext⟩, by rw [← hstate]⟩

theorem mem_retreats : n ∈ p.retreats g a q ↔
    n.state = q ∧ n.item ∈ (a.state q).items ∧ n.advance? g a = some p := by
  simp only [retreats, List.mem_filter, List.mem_map, decide_eq_true_eq]
  constructor
  · rintro ⟨⟨i, hi, rfl⟩, hadvance⟩; exact ⟨rfl, hi, hadvance⟩
  · rintro ⟨rfl, hi, hadvance⟩; exact ⟨⟨n.item, hi, rfl⟩, hadvance⟩

theorem Stands.of_advance? (hlt : ∀ {X r}, (a.state p.state).next? X = some r → r < a.states.size)
    (h : p.advance? g a = some n) : n.Stands a := by
  obtain ⟨X, -, hq, hitem, hkernel⟩ := advance?_eq_some_iff.1 h
  exact ⟨hlt hq, hitem ▸ List.mem_append_left _ hkernel⟩

theorem Stands.of_mem_productions (hp : p.Stands a) (h : n ∈ p.productions g a) : n.Stands a := by
  obtain ⟨hstate, hi, -⟩ := mem_productions.1 h
  rw [Stands, hstate]
  exact ⟨hp.1, List.mem_append_right _ hi⟩

theorem Stands.of_mem_producers (hp : p.Stands a) (h : n ∈ p.producers g a) : n.Stands a := by
  obtain ⟨hstate, hi, -⟩ := mem_producers.1 h
  rw [Stands, hstate]
  exact ⟨hp.1, hi⟩

/-- Where an item stands, there is a complete graph. -/
theorem Stands.exists_complete (hp : p.Stands a) (h : Automaton.Built g a) :
    ∃ b, Automaton.Complete g b ∧ a = Automaton.ofGraph g b := by
  cases h with
  | empty => exact absurd hp.1 (Nat.not_lt_zero _)
  | ofGraph hb => exact ⟨_, hb, rfl⟩

theorem stands_of_mem_retreats (hq : q < a.states.size) (h : n ∈ p.retreats g a q) : n.Stands a := by
  obtain ⟨rfl, hi, -⟩ := mem_retreats.1 h
  exact ⟨hq, hi⟩

end StateItem

/-! ## Complete graphs -/

namespace Automaton.Complete

open StateItem

variable {g : Grammar} {b : Graph} {p n : StateItem} {q : StateId} {i : Item} {γ : List SymbolId}

theorem stands_iff : p.Stands (ofGraph g b) ↔ p.state < b.size ∧ p.item ∈ (b.core p.state).items := by
  rw [Stands, size_ofGraph, toCore_state]

/-- What stands in an automaton is an item of the grammar. -/
theorem inRange_of_stands (h : Complete g b) (wf : g.WellFormed) (hp : p.Stands (ofGraph g b)) :
    p.item.InRange g := by
  obtain ⟨hlt, hi⟩ := stands_iff.1 hp
  obtain ⟨γ, hγ⟩ := h.reachable _ hlt
  exact ((h.mem_items_iff wf hγ).1 hi).inRange wf

/-- The items viable after a string stand in the state to which it leads. -/
theorem stands_of_viable (h : Complete g b) (wf : g.WellFormed) (hi : i.Viable g γ)
    (hγ : b.Reads StateId.start γ q) : Stands (ofGraph g b) ⟨q, i⟩ :=
  stands_iff.2 ⟨(h.reads_kernel hγ).1, (h.mem_items_iff wf hγ).2 hi⟩

theorem stands_start (h : Complete g b) (wf : g.WellFormed) :
    Stands (ofGraph g b) ⟨StateId.start, Item.start⟩ :=
  h.stands_of_viable wf .start (Graph.reads_nil.2 rfl)

/-- The dot moves over every symbol of which there is a transition. -/
theorem advance?_of_next (h : Complete g b) (hp : p.Stands (ofGraph g b)) {X : SymbolId}
    (hX : p.item.next? g = some X) (hq : b.next? p.state X = some q) :
    p.advance? g (ofGraph g b) = some ⟨q, p.item.advance⟩ := by
  obtain ⟨hlt, hi⟩ := stands_iff.1 hp
  rw [h.items_eq hlt] at hi
  refine advance?_eq_some_iff.2 ⟨X, hX, by rw [toCore_state]; exact hq, rfl, ?_⟩
  rw [toCore_state, (h.next?_kernel hlt hq).2]
  exact ItemSet.mem_step.2 ⟨p.item, hi, hX, rfl⟩

theorem stands_of_advance? (h : Complete g b) (hp : p.Stands (ofGraph g b))
    (hn : p.advance? g (ofGraph g b) = some n) : n.Stands (ofGraph g b) := by
  refine .of_advance? (fun {X r} hr => ?_) hn
  rw [toCore_state] at hr
  rw [size_ofGraph]
  exact (h.next?_kernel (stands_iff.1 hp).1 hr).1

/-- An item is produced from those that expand to it. -/
theorem mem_productions_of_expands (h : Complete g b) (wf : g.WellFormed)
    (hp : p.Stands (ofGraph g b)) (hexpands : p.item.Expands g i) :
    ⟨p.state, i⟩ ∈ p.productions g (ofGraph g b) := by
  obtain ⟨hlt, hi⟩ := stands_iff.1 hp
  rw [h.items_eq hlt, wf.mem_kernel_append_closure] at hi
  obtain ⟨k, hk, hki⟩ := hi
  have hclosure : i ∈ (b.core p.state).closure := by
    rw [h.closure_eq hlt, wf.mem_closure_iff]
    exact ⟨k, hk, .tail' hki hexpands⟩
  obtain ⟨r, hr, hnext, rfl⟩ := hexpands
  exact mem_productions.2 ⟨rfl, by rw [toCore_state]; exact hclosure, hnext, wf.lhs_nonterminal hr⟩

/-- What is produced begins a rule. -/
theorem expands_of_mem_productions (h : Complete g b) (hp : p.Stands (ofGraph g b))
    (hn : n ∈ p.productions g (ofGraph g b)) : p.item.Expands g n.item := by
  obtain ⟨-, hi, hnext, -⟩ := mem_productions.1 hn
  rw [toCore_state, h.closure_eq (stands_iff.1 hp).1] at hi
  obtain ⟨r, hr, -, heq⟩ := Grammar.mem_closure.1 hi
  rw [heq] at hnext
  exact ⟨r, hr, hnext, heq⟩

/-- Producers produce: the moves back out of a rule are moves into it. -/
theorem mem_productions_of_mem_producers (h : Complete g b) (wf : g.WellFormed)
    (hp : p.Stands (ofGraph g b)) (hinitial : p.item.isInitial = true)
    (hn : n ∈ p.producers g (ofGraph g b)) : p ∈ n.productions g (ofGraph g b) := by
  obtain ⟨hstate, -, hnext⟩ := mem_producers.1 hn
  have hr : p.item.rule < g.rules.size := (h.inRange_of_stands wf hp).1
  have hitem : p.item = ⟨p.item.rule, 0⟩ := by
    rw [← of_decide_eq_true hinitial]
  have := h.mem_productions_of_expands wf (hp.of_mem_producers hn) ⟨_, hr, hnext, hitem⟩
  rwa [hstate] at this

end Automaton.Complete

/-! ## Places -/

namespace Automaton

variable {a : Automaton} {p : StateItem}

/-- The items of all states. -/
def places (a : Automaton) : List StateItem :=
  a.states.toList.zipIdx.flatMap fun (s, q) => s.items.map (⟨q, ·⟩)

theorem mem_places (hp : p.Stands a) : p ∈ a.places := by
  obtain ⟨hq, hi⟩ := hp
  refine List.mem_flatMap.2 ⟨(a.state p.state, p.state), ?_, List.mem_map.2 ⟨p.item, hi, rfl⟩⟩
  rw [List.mem_zipIdx_iff_getElem?, Array.getElem?_toList, Array.getElem?_eq_getElem hq, state,
    Array.getD_eq_getD_getElem?, Array.getElem?_eq_getElem hq]
  rfl

theorem length_places (a : Automaton) : a.places.length = a.stateItemCount := by
  have lengths : ∀ (states : List State) (n : Nat), ((states.zipIdx n).flatMap fun (s, q) =>
      s.items.map (StateItem.mk q)).length = total (states.map fun s => s.items.length) := by
    intro states
    induction states with
    | nil => intro n; rfl
    | cons s states ih =>
      intro n
      simp only [List.zipIdx_cons, List.flatMap_cons, List.length_append, List.length_map, ih]
      rfl
  exact lengths a.states.toList 0

end Automaton

end LRAutomata
