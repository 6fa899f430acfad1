/-
  A path to every reduction, on every token of its lookahead.

  The search for a path keeps the tokens that can really come after the rule of
  an item.  Every viable item is reached (`exists_reached_of_viable`); what
  follows a nonterminal is carried into its rules (`exists_reached_of_follows`),
  also where the tokens carried so far tell nothing of it, as FIRST sets are taken
  anew at each production.  The items with sets of terminals are finite in number,
  so the search comes to its end (`exists_shortestPath?`).
-/
import LRAutomata.Proofs.Counterexample.Path

namespace LRAutomata

open Std Search

namespace NatSet

instance : TransOrd NatSet :=
  inferInstanceAs (TransCmp (compareOn NatSet.bits))

instance : LawfulEqOrd NatSet where
  compare_self := ReflOrd.compare_self (α := Nat)
  eq_of_compare h := congrArg NatSet.mk (LawfulEqOrd.eq_of_compare (α := Nat) h)

/-- A set of numbers below `n` is one of the first `2 ^ n`. -/
theorem bits_lt_two_pow {s : NatSet} {n : Nat} (h : ∀ m ∈ s, m < n) : s.bits < 2 ^ n :=
  Nat.lt_pow_two_of_testBit _ fun m hm => Bool.eq_false_iff.2 fun hbit =>
    absurd (h m hbit) (Nat.not_lt_of_ge hm)

end NatSet

namespace PreciseItem

instance : TransOrd PreciseItem :=
  inferInstanceAs (TransCmp (compareLex (compareOn place) (compareOn lookahead)))

instance : LawfulEqOrd PreciseItem :=
  lawful_compareLex place lookahead (by rintro ⟨⟩ ⟨⟩ rfl rfl; rfl)

end PreciseItem

namespace Counterexample

open Automaton StateItem

variable {g : Grammar} {b : Graph} {q : StateId} {i : Item} {s : NatSet} {γ : List SymbolId}
  {A t : SymbolId}

/-- Where the search for a reduction begins. -/
def preciseStart : PreciseItem :=
  ⟨⟨StateId.start, Item.start⟩, {SymbolId.endMarker}⟩

/-- The search for a reduction comes to the item, with these tokens after its rule. -/
def Reached (g : Grammar) (a : Automaton) (p : PreciseItem) : Prop :=
  Relation.ReflTransGen (fun p n => n ∈ preciseMoves g a p) preciseStart p

/-- Where the search can be: at an item of a state, with a set of terminals. -/
def InBounds (g : Grammar) (a : Automaton) (p : PreciseItem) : Prop :=
  p.place.Stands a ∧ ∀ t ∈ p.lookahead, t < g.terminalCount

/-! ## Moves of the search -/

theorem mem_preciseMoves {a : Automaton} {p n : PreciseItem} : n ∈ preciseMoves g a p ↔
    p.place.advance? g a = some n.place ∧ n.lookahead = p.lookahead ∨
      n.place ∈ p.place.productions g a ∧ n.lookahead = preciseFollow g p.place.item p.lookahead := by
  obtain ⟨place, lookahead⟩ := n
  simp only [preciseMoves, List.mem_append, Option.mem_toList, Option.map_eq_some_iff, List.mem_map,
    PreciseItem.mk.injEq]
  constructor
  · rintro (⟨_, hadvance, rfl, rfl⟩ | ⟨_, hproduction, rfl, rfl⟩)
    · exact .inl ⟨hadvance, rfl⟩
    · exact .inr ⟨hproduction, rfl⟩
  · rintro (⟨hadvance, rfl⟩ | ⟨hproduction, rfl⟩)
    · exact .inl ⟨_, hadvance, rfl, rfl⟩
    · exact .inr ⟨_, hproduction, rfl, rfl⟩

/-- The search moves forward through the items. -/
theorem place_mem_moves {a : Automaton} {p n : PreciseItem} (h : n ∈ preciseMoves g a p) :
    n.place ∈ p.place.moves g a :=
  mem_moves.2 ((mem_preciseMoves.1 h).imp And.left And.left)

theorem mem_preciseFollow (wf : g.WellFormed) : t ∈ preciseFollow g i s ↔
    g.Begins (i.afterNext g) t ∨ g.Vanishes (i.afterNext g) ∧ t ∈ s := by
  rw [← wf.mem_firstOfString_iff, ← wf.isNullableString_iff, preciseFollow]
  split <;> simp_all

theorem inBounds_start (h : Complete g b) (wf : g.WellFormed) :
    InBounds g (ofGraph g b) preciseStart := by
  refine ⟨h.stands_start wf, fun t ht => ?_⟩
  rw [NatSet.mem_singleton.1 ht]
  exact of_decide_eq_true wf.terminal_endMarker

theorem InBounds.move (h : Complete g b) (wf : g.WellFormed) (p : PreciseItem)
    (hp : InBounds g (ofGraph g b) p) :
    ∀ n ∈ preciseMoves g (ofGraph g b) p, InBounds g (ofGraph g b) n := by
  intro n hn
  rcases mem_preciseMoves.1 hn with ⟨hadvance, hlookahead⟩ | ⟨hproduction, hlookahead⟩
  · exact ⟨h.stands_of_advance? hp.1 hadvance, hlookahead ▸ hp.2⟩
  · refine ⟨hp.1.of_mem_productions hproduction, fun t ht => ?_⟩
    rw [hlookahead, mem_preciseFollow wf] at ht
    rcases ht with hbegins | ⟨-, ht⟩
    · exact of_decide_eq_true hbegins.1
    · exact hp.2 t ht

/-! ## Items and tokens that are reached -/

namespace Reached

theorem inBounds (h : Complete g b) (wf : g.WellFormed) {p : PreciseItem}
    (hp : Reached g (ofGraph g b) p) : InBounds g (ofGraph g b) p := by
  obtain ⟨l, hl⟩ := exists_way hp
  exact hl.forall_mem (inBounds_start h wf) (InBounds.move h wf) p List.mem_cons_self

theorem read (h : Complete g b) (wf : g.WellFormed) {r : StateId} {X : SymbolId}
    (hi : Reached g (ofGraph g b) ⟨⟨q, i⟩, s⟩) (hX : i.next? g = some X) (hr : b.next? q X = some r) :
    Reached g (ofGraph g b) ⟨⟨r, i.advance⟩, s⟩ :=
  hi.tail (mem_preciseMoves.2 (.inl ⟨h.advance?_of_next (hi.inBounds h wf).1 hX hr, rfl⟩))

theorem expand (h : Complete g b) (wf : g.WellFormed) {j : Item}
    (hi : Reached g (ofGraph g b) ⟨⟨q, i⟩, s⟩) (hij : i.Expands g j) :
    Reached g (ofGraph g b) ⟨⟨q, j⟩, preciseFollow g i s⟩ :=
  hi.tail (mem_preciseMoves.2
    (.inr ⟨h.mem_productions_of_expands wf (hi.inBounds h wf).1 hij, rfl⟩))

/-- The dot of an item that is reached moves over any number of symbols. -/
theorem read_take (h : Complete g b) (wf : g.WellFormed) {ρ : RuleId} {p : StateId}
    (hi : Reached g (ofGraph g b) ⟨⟨p, ⟨ρ, 0⟩⟩, s⟩) : ∀ {n : Nat} {q : StateId},
      n ≤ (g.rhs ρ).length → b.Reads p ((g.rhs ρ).take n) q →
      Reached g (ofGraph g b) ⟨⟨q, ⟨ρ, n⟩⟩, s⟩
  | 0, q, _, hq => by
    rw [List.take_zero] at hq
    rwa [← Graph.reads_nil.1 hq]
  | n + 1, q, hn, hq => by
    have hX : Item.next? g ⟨ρ, n⟩ = some (g.rhs ρ)[n] := List.getElem?_eq_getElem hn
    rw [← List.take_append_getElem hn, Graph.reads_snoc] at hq
    obtain ⟨r, hr, hq⟩ := hq
    exact (read_take h wf hi (Nat.le_of_succ_le hn) hr).read h wf hX hq

end Reached

/-- Every viable item is reached, with some tokens. -/
theorem exists_reached_of_viable (h : Complete g b) (wf : g.WellFormed) (hi : i.Viable g γ) :
    ∀ {q}, b.Reads StateId.start γ q → ∃ s, Reached g (ofGraph g b) ⟨⟨q, i⟩, s⟩ := by
  induction hi with
  | start =>
    intro q hq
    obtain rfl := Graph.reads_nil.1 hq
    exact ⟨_, .refl⟩
  | read _ hX ih =>
    intro q hq
    obtain ⟨p, hp, hq⟩ := Graph.reads_snoc.1 hq
    obtain ⟨s, hs⟩ := ih hp
    exact ⟨s, hs.read h wf hX hq⟩
  | expand _ hij ih =>
    intro q hq
    obtain ⟨s, hs⟩ := ih hq
    exact ⟨_, hs.expand h wf hij⟩

/-- What follows a nonterminal is among the tokens with which its rules are reached. -/
theorem exists_reached_of_follows (h : Complete g b) (wf : g.WellFormed) (ht : g.Follows γ A t) :
    ∀ {q ρ}, b.Reads StateId.start γ q → ρ < g.rules.size → g.lhs ρ = A →
      ∃ s, t ∈ s ∧ Reached g (ofGraph g b) ⟨⟨q, ⟨ρ, 0⟩⟩, s⟩ := by
  induction ht with
  | begins hi hnext hbegins =>
    rintro q ρ hq hρ rfl
    obtain ⟨s, hs⟩ := exists_reached_of_viable h wf hi hq
    exact ⟨_, (mem_preciseFollow wf).2 (.inl hbegins), hs.expand h wf ⟨ρ, hρ, hnext, rfl⟩⟩
  | @inherits γ i A t _ hrule hnext hvanish ih =>
    rintro q ρ hq hρ rfl
    obtain ⟨p, hp, hq⟩ := Graph.reads_append.1 hq
    obtain ⟨s, ht, hs⟩ := ih hp hrule rfl
    have hlt := (List.getElem?_eq_some_iff.1 hnext).1
    have hi : Reached g (ofGraph g b) ⟨⟨q, i⟩, s⟩ := hs.read_take h wf (Nat.le_of_lt hlt) hq
    exact ⟨_, (mem_preciseFollow wf).2 (.inr ⟨hvanish, ht⟩), hi.expand h wf ⟨ρ, hρ, hnext, rfl⟩⟩

/-- A reduction is reached with every token of its lookahead. -/
theorem exists_reached_of_offers (h : Complete g b) (wf : g.WellFormed) (hq : q < b.size)
    {ρ : RuleId} (ht : b.Offers g q (.reduce ρ) t) :
    ∃ s, t ∈ s ∧ Reached g (ofGraph g b) ⟨⟨q, ⟨ρ, (g.rhs ρ).length⟩⟩, s⟩ := by
  obtain ⟨hi, hla⟩ := ht
  obtain ⟨γ, hγ, hfollows⟩ := (Lookaheads.mem_la_iff h.toOfItems wf h.reachable hq hi).1 hla
  have hρ : ρ < g.rules.size := (((h.mem_items_iff wf hγ).1 hi).inRange wf).1
  obtain ⟨p, hp, hreads⟩ := Graph.reads_append.1 hγ
  obtain ⟨s, ht, hs⟩ := exists_reached_of_follows h wf hfollows hp hρ rfl
  exact ⟨s, ht, hs.read_take h wf (Nat.le_refl _) (by rwa [List.take_length])⟩

/-! ## The search -/

/-- All items of states with all sets of terminals. -/
def precisePlaces (g : Grammar) (a : Automaton) : List PreciseItem :=
  a.places.flatMap fun p => (List.range (2 ^ g.terminalCount)).map fun bits => ⟨p, ⟨bits⟩⟩

theorem length_precisePlaces (g : Grammar) (a : Automaton) :
    (precisePlaces g a).length = a.stateItemCount * subsetCount g.terminalCount := by
  rw [precisePlaces, List.length_flatMap]
  simp [length_places, subsetCount, Nat.one_shiftLeft]

theorem InBounds.mem_precisePlaces {a : Automaton} {p : PreciseItem} (hp : InBounds g a p) :
    p ∈ precisePlaces g a :=
  List.mem_flatMap.2 ⟨p.place, mem_places hp.1, List.mem_map.2
    ⟨p.lookahead.bits, List.mem_range.2 (NatSet.bits_lt_two_pow hp.2), rfl⟩⟩

/-- An item that is reached with the token has a path. -/
theorem exists_shortestPath? (h : Complete g b) (wf : g.WellFormed)
    (hs : Reached g (ofGraph g b) ⟨⟨q, i⟩, s⟩) (ht : t ∈ s) :
    ∃ path, shortestPath? g (ofGraph g b) q i t = some path := by
  obtain ⟨l, hl⟩ := exists_way hs
  have hnodes : ∀ {l}, Way (preciseMoves g (ofGraph g b)) preciseStart l →
      ∀ p ∈ l, p ∈ precisePlaces g (ofGraph g b) := fun hl p hp =>
    (hl.forall_mem (inBounds_start h wf) (InBounds.move h wf) p hp).mem_precisePlaces
  have hbound : (precisePlaces g (ofGraph g b)).length <
      (ofGraph g b).stateItemCount * subsetCount g.terminalCount + 1 := by
    rw [length_precisePlaces]
    exact Nat.lt_succ_self _
  obtain ⟨trail, htrail⟩ : ∃ trail, shortest? _ preciseStart (preciseMoves g (ofGraph g b))
      (fun p => p.place = ⟨q, i⟩ && t ∈ p.lookahead) = some trail :=
    exists_shortest? hnodes hbound hl (by simpa using ht)
  exact ⟨_, Option.map_eq_some_iff.2 ⟨trail, htrail, rfl⟩⟩

/-- The path found leads through items to the one that was searched. -/
theorem exists_route_of_shortestPath? {a : Automaton} {path : List PathStep}
    (hpath : shortestPath? g a q i t = some path) :
    ∃ l, Route g a (⟨q, i⟩ :: l) ∧ path = PathStep.path (⟨q, i⟩ :: l).reverse := by
  obtain ⟨trail, htrail, rfl⟩ := Option.map_eq_some_iff.1 hpath
  obtain ⟨hway, hgoal⟩ := way_of_shortest? htrail
  obtain ⟨hplace, -⟩ := Bool.and_eq_true_iff.1 hgoal
  have hroute : Route g a (trail.backward.map PreciseItem.place) :=
    hway.map fun p n => place_mem_moves
  rw [Trail.backward, List.map_cons, of_decide_eq_true hplace] at hroute
  refine ⟨_, hroute, ?_⟩
  rw [Trail.forward, Trail.backward, List.map_reverse, List.map_cons, of_decide_eq_true hplace]

end Counterexample

end LRAutomata
