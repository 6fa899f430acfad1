/-
  The states of the canonical LR(1) automaton.

  The items valid for a string are computed by reading its symbols and closing
  what has been read (`Canonical.stateOf`).  A finite collection of sets that is
  closed under reading has the states of all strings (`Canonical.stateOf_mem`),
  so whether a grammar is LR(1) can be checked on the collection
  (`Canonical.isLr1_of_isCollection`).
-/
import LRAutomata.Proofs.Automaton.Action

namespace LRAutomata

/-- No string has two actions on the same token: the canonical LR(1) automaton has
    no conflicts. -/
def Grammar.IsLr1 (g : Grammar) : Prop :=
  ∀ γ α β t, g.Acts γ α t → g.Acts γ β t → α = β

namespace Canonical

/-! ## Sets of items with lookaheads -/

/-- The items that are begun where an item stands, with what can follow them. -/
def begun (g : Grammar) (x : Item × SymbolId) : List (Item × SymbolId) :=
  ((List.range g.rules.size).filter fun r => x.1.next? g = some (g.lhs r)).flatMap fun r =>
    (g.firstOfString (x.1.afterNext g ++ [x.2])).toList.map fun v => (⟨r, 0⟩, v)

/-- Add what is begun, for at most `rounds` rounds. -/
def close (g : Grammar) (rounds : Nat) (xs : List (Item × SymbolId)) : List (Item × SymbolId) :=
  Fixpoint.iterate (fun xs => (xs ++ xs.flatMap (begun g)).eraseDups) rounds xs

/-- The items that are reached by reading a symbol. -/
def read (g : Grammar) (xs : List (Item × SymbolId)) (X : SymbolId) : List (Item × SymbolId) :=
  (xs.filter fun x => x.1.next? g = some X).map fun x => (x.1.advance, x.2)

/-- The items of the start state. -/
def initial (g : Grammar) (rounds : Nat) : List (Item × SymbolId) :=
  close g rounds [(Item.start, SymbolId.endMarker)]

/-- The items of the state of a string. -/
def stateOf (g : Grammar) (rounds : Nat) (γ : List SymbolId) : List (Item × SymbolId) :=
  γ.foldl (fun xs X => close g rounds (read g xs X)) (initial g rounds)

/-- The actions for which the items call, each with its token. -/
def actions (g : Grammar) (xs : List (Item × SymbolId)) : List (Action × SymbolId) :=
  xs.filterMap fun x =>
    match x.1.next? g with
    | none => some (.reduce x.1.rule, x.2)
    | some X => if g.isTerminal X then some (.shift, X) else none

variable {g : Grammar} {rounds : Nat} {γ : List SymbolId} {α : Action} {X t u : SymbolId}
variable {xs : List (Item × SymbolId)} {i : Item}

theorem mem_begun (wf : g.WellFormed) {x y : Item × SymbolId} : y ∈ begun g x ↔
    x.1.Expands g y.1 ∧ g.Begins (x.1.afterNext g ++ [x.2]) y.2 := by
  obtain ⟨j, v⟩ := y
  simp only [begun, List.mem_flatMap, List.mem_filter, List.mem_range, decide_eq_true_eq, List.mem_map,
    NatSet.mem_toList, wf.mem_firstOfString_iff, Prod.mk.injEq]
  constructor
  · rintro ⟨r, ⟨hr, hnext⟩, v, hv, rfl, rfl⟩
    exact ⟨⟨r, hr, hnext, rfl⟩, hv⟩
  · rintro ⟨⟨r, hr, hnext, rfl⟩, hv⟩
    exact ⟨r, ⟨hr, hnext⟩, v, hv, rfl, rfl⟩

theorem mem_read : (i, u) ∈ read g xs X ↔ ∃ j : Item, (j, u) ∈ xs ∧ j.next? g = some X ∧ i = j.advance := by
  simp only [read, List.mem_map, List.mem_filter, decide_eq_true_eq, Prod.exists, Prod.mk.injEq]
  constructor
  · rintro ⟨j, v, ⟨hj, hnext⟩, rfl, rfl⟩; exact ⟨j, hj, hnext, rfl⟩
  · rintro ⟨j, hj, hnext, rfl⟩; exact ⟨j, u, ⟨hj, hnext⟩, rfl, rfl⟩

theorem stateOf_snoc (g : Grammar) (rounds : Nat) (γ : List SymbolId) (X : SymbolId) :
    stateOf g rounds (γ ++ [X]) = close g rounds (read g (stateOf g rounds γ) X) := by
  rw [stateOf, List.foldl_append]
  rfl

/-! ## What is computed is valid -/

theorem close_keeps (wf : g.WellFormed) (h : ∀ i u, (i, u) ∈ xs → i.Valid g γ u) :
    ∀ i u, (i, u) ∈ close g rounds xs → i.Valid g γ u := by
  refine Fixpoint.iterate_keeps (P := fun xs => ∀ (i : Item) u, (i, u) ∈ xs → i.Valid g γ u)
    (fun xs h i u hi => ?_) rounds h
  rcases List.mem_append.1 (List.mem_eraseDups.1 hi) with hi | hi
  · exact h i u hi
  · obtain ⟨⟨j, v⟩, hj, hi⟩ := List.mem_flatMap.1 hi
    obtain ⟨hexpands, hbegins⟩ := (mem_begun wf).1 hi
    exact (h j v hj).expand hexpands hbegins

theorem subset_close (g : Grammar) (rounds : Nat) (xs : List (Item × SymbolId)) :
    ∀ x ∈ xs, x ∈ close g rounds xs := by
  intro x hx
  exact Fixpoint.iterate_keeps (P := fun xs => x ∈ xs)
    (fun xs hx => List.mem_eraseDups.2 (List.mem_append_left _ hx)) rounds hx

theorem valid_of_mem_stateOf (wf : g.WellFormed) (h : (i, u) ∈ stateOf g rounds γ) :
    i.Valid g γ u := by
  induction γ using List.reverseRecOn generalizing i u with
  | nil =>
    refine close_keeps wf (fun j v hj => ?_) i u h
    obtain ⟨rfl, rfl⟩ := Prod.mk.inj (List.mem_singleton.1 hj)
    exact .start
  | append_singleton γ X ih =>
    rw [stateOf_snoc] at h
    refine close_keeps wf (fun j v hj => ?_) i u h
    obtain ⟨k, hk, hnext, rfl⟩ := mem_read.1 hj
    exact (ih hk).read hnext

/-! ## Collections of sets -/

/-- With every item the set has what is begun there. -/
def IsClosed (g : Grammar) (xs : List (Item × SymbolId)) : Prop :=
  ∀ x ∈ xs, ∀ y ∈ begun g x, y ∈ xs

/-- The sets are closed, and with every set the collection has those that are
    reached by reading a symbol. -/
structure IsCollection (g : Grammar) (rounds : Nat) (sets : List (List (Item × SymbolId))) : Prop where
  empty : [] ∈ sets
  initial : Canonical.initial g rounds ∈ sets
  closed : ∀ xs ∈ sets, IsClosed g xs
  reads : ∀ xs ∈ sets, ∀ X ∈ xs.filterMap (·.1.next? g), close g rounds (read g xs X) ∈ sets

instance (g : Grammar) (xs : List (Item × SymbolId)) : Decidable (IsClosed g xs) :=
  inferInstanceAs (Decidable (∀ x ∈ xs, ∀ y ∈ begun g x, y ∈ xs))

instance (g : Grammar) (rounds : Nat) (sets : List (List (Item × SymbolId))) :
    Decidable (IsCollection g rounds sets) :=
  decidable_of_iff ([] ∈ sets ∧ Canonical.initial g rounds ∈ sets ∧ (∀ xs ∈ sets, IsClosed g xs) ∧
      ∀ xs ∈ sets, ∀ X ∈ xs.filterMap (·.1.next? g), close g rounds (read g xs X) ∈ sets)
    ⟨fun ⟨h₁, h₂, h₃, h₄⟩ => ⟨h₁, h₂, h₃, h₄⟩, fun h => ⟨h.empty, h.initial, h.closed, h.reads⟩⟩

/-- Add the sets that are reached from those found last, for at most `rounds`
    rounds. -/
def collect (g : Grammar) (rounds : Nat) :
    Nat → (found last : List (List (Item × SymbolId))) → List (List (Item × SymbolId))
  | 0, found, _ => found
  | n + 1, found, last =>
    let next := (last.flatMap fun xs => (xs.filterMap (·.1.next? g)).map fun X =>
      close g rounds (read g xs X)).eraseDups.filter (· ∉ found)
    if next.isEmpty then found else collect g rounds n (found ++ next) next

/-- The states of the canonical automaton, if the rounds suffice. -/
def collection (g : Grammar) (rounds : Nat) : List (List (Item × SymbolId)) :=
  collect g rounds rounds [[], initial g rounds] [initial g rounds]

variable {sets : List (List (Item × SymbolId))}

theorem close_nil (g : Grammar) (rounds : Nat) : close g rounds [] = [] :=
  Fixpoint.iterate_keeps (P := fun xs => xs = []) (by rintro _ rfl; rfl) rounds rfl

/-- The states of all strings are in the collection. -/
theorem stateOf_mem (h : IsCollection g rounds sets) (γ : List SymbolId) :
    stateOf g rounds γ ∈ sets := by
  induction γ using List.reverseRecOn with
  | nil => exact h.initial
  | append_singleton γ X ih =>
    rw [stateOf_snoc]
    by_cases hX : X ∈ (stateOf g rounds γ).filterMap (·.1.next? g)
    · exact h.reads _ ih X hX
    · have hread : read g (stateOf g rounds γ) X = [] := by
        refine List.eq_nil_iff_forall_not_mem.2 fun ⟨i, u⟩ hi => hX ?_
        obtain ⟨j, hj, hnext, -⟩ := mem_read.1 hi
        exact List.mem_filterMap.2 ⟨(j, u), hj, hnext⟩
      rw [hread, close_nil]
      exact h.empty

/-- What is valid for a string is in its state. -/
theorem mem_stateOf_of_valid (wf : g.WellFormed) (h : IsCollection g rounds sets)
    (hi : i.Valid g γ u) : (i, u) ∈ stateOf g rounds γ := by
  induction hi with
  | start => exact subset_close g rounds _ _ List.mem_cons_self
  | read _ hnext ih =>
    rw [stateOf_snoc]
    exact subset_close g rounds _ _ (mem_read.2 ⟨_, ih, hnext, rfl⟩)
  | expand _ hexpands hbegins ih =>
    exact h.closed _ (stateOf_mem h _) _ ih _ ((mem_begun wf).2 ⟨hexpands, hbegins⟩)

/-- The actions of a string are those for which its state calls. -/
theorem acts_iff (wf : g.WellFormed) (h : IsCollection g rounds sets) :
    g.Acts γ α t ↔ (α, t) ∈ actions g (stateOf g rounds γ) := by
  have valid_iff : ∀ {i : Item} {u}, i.Valid g γ u ↔ (i, u) ∈ stateOf g rounds γ :=
    ⟨mem_stateOf_of_valid wf h, valid_of_mem_stateOf wf⟩
  rw [actions, List.mem_filterMap]
  cases α with
  | shift =>
    constructor
    · rintro ⟨ht, i, u, hi, hnext⟩
      exact ⟨(i, u), valid_iff.1 hi, by simp [hnext, ht]⟩
    · rintro ⟨⟨i, u⟩, hi, haction⟩
      split at haction
      · cases haction
      · rename_i X hnext
        split at haction
        · rename_i hX
          cases haction
          exact ⟨hX, i, u, valid_iff.2 hi, hnext⟩
        · cases haction
  | reduce ρ =>
    constructor
    · intro hi
      exact ⟨(⟨ρ, (g.rhs ρ).length⟩, t), valid_iff.1 hi, by simp [Lookaheads.next?_complete]⟩
    · rintro ⟨⟨i, u⟩, hi, haction⟩
      split at haction
      · rename_i hnext
        cases haction
        have hvalid := valid_iff.2 hi
        have hle := (hvalid.viable.inRange wf).2
        have hcomplete : i = ⟨i.rule, (g.rhs i.rule).length⟩ := by
          have := List.getElem?_eq_none_iff.1 hnext
          rw [Nat.le_antisymm this hle]
        rw [hcomplete] at hvalid
        exact hvalid
      · split at haction <;> cases haction

/-- Whether the state of a string calls for the action on the token and no other. -/
def isOnlyAction (g : Grammar) (rounds : Nat) (γ : List SymbolId) (α : Action) (t : SymbolId) : Bool :=
  (α, t) ∈ actions g (stateOf g rounds γ) ∧
    ∀ x ∈ actions g (stateOf g rounds γ), x.2 = t → x.1 = α

theorem acts_iff_of_isOnlyAction (wf : g.WellFormed) (h : IsCollection g rounds sets)
    (honly : isOnlyAction g rounds γ α t = true) (β : Action) : g.Acts γ β t ↔ β = α := by
  obtain ⟨hα, hall⟩ := of_decide_eq_true honly
  rw [acts_iff wf h]
  constructor
  · exact fun hβ => hall _ hβ rfl
  · rintro rfl; exact hα

/-- No set of the collection calls for two actions on the same token. -/
def IsConsistent (g : Grammar) (sets : List (List (Item × SymbolId))) : Prop :=
  ∀ xs ∈ sets, ∀ x ∈ actions g xs, ∀ y ∈ actions g xs, x.2 = y.2 → x.1 = y.1

instance (g : Grammar) (sets : List (List (Item × SymbolId))) : Decidable (IsConsistent g sets) :=
  inferInstanceAs (Decidable (∀ xs ∈ sets, ∀ x ∈ actions g xs, ∀ y ∈ actions g xs,
    x.2 = y.2 → x.1 = y.1))

/-- A grammar is LR(1) if a collection of its states is consistent. -/
theorem isLr1_of_isCollection (wf : g.WellFormed) (h : IsCollection g rounds sets)
    (consistent : IsConsistent g sets) : g.IsLr1 := by
  intro γ α β t hα hβ
  exact consistent _ (stateOf_mem h γ) _ ((acts_iff wf h).1 hα) _ ((acts_iff wf h).1 hβ) rfl

end Canonical

end LRAutomata
