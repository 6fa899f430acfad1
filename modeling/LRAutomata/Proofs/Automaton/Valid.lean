/-
  What can follow: canonical LR(1) lookaheads and the follow relation.

  * `Item.Valid` is the canonical LR(1) automaton, an item with a lookahead
    that is valid after a string;
  * `Grammar.Follows` says that a terminal follows a nonterminal after a
    string.  It looks at the items alone: an item that could never be
    completed, as a symbol after its dot derives nothing, still counts;
  * valid lookaheads follow (`Valid.follows`), and the converse holds where
    every symbol that stands after the dot derives something
    (`Grammar.Grounded`, `Grounded.valid_of_follows`).
-/
import LRAutomata.Proofs.Automaton.ItemAutomaton

namespace LRAutomata

/-- The LR(1) item `[i, t]` is valid after the string: the dot moves over the
    symbol read, and without reading `[A → α • B β, u]` gives `[B → • ω, v]` for
    every `v` with which `β u` begins. -/
inductive Item.Valid (g : Grammar) : List SymbolId → Item → SymbolId → Prop
  | start : Valid g [] Item.start SymbolId.endMarker
  | read {γ : List SymbolId} {i : Item} {u X : SymbolId} :
      Valid g γ i u → i.next? g = some X → Valid g (γ ++ [X]) i.advance u
  | expand {γ : List SymbolId} {i j : Item} {u v : SymbolId} :
      Valid g γ i u → i.Expands g j → g.Begins (i.afterNext g ++ [u]) v → Valid g γ j v

/-- The terminal `t` follows the nonterminal after the string: the symbols after
    it in a viable item begin with `t`, or they vanish and `t` follows the
    left-hand side where the item was begun. -/
inductive Grammar.Follows (g : Grammar) : List SymbolId → SymbolId → SymbolId → Prop
  | begins {γ : List SymbolId} {i : Item} {A t : SymbolId} :
      i.Viable g γ → i.next? g = some A → g.Begins (i.afterNext g) t → Follows g γ A t
  | inherits {γ : List SymbolId} {i : Item} {A t : SymbolId} :
      Follows g γ (i.lhs g) t → i.rule < g.rules.size → i.next? g = some A →
      g.Vanishes (i.afterNext g) → Follows g (γ ++ i.before g) A t

/-- Every symbol that stands after the next one in a viable item derives the
    empty string or a string that begins with a terminal. -/
def Grammar.Grounded (g : Grammar) : Prop :=
  ∀ (γ : List SymbolId) (i : Item), i.Viable g γ → ∀ X ∈ i.afterNext g,
    g.Vanishes [X] ∨ ∃ t, g.Begins [X] t

/-- The symbols after the next one neither vanish nor begin with a terminal. -/
def Item.isBlind (g : Grammar) (i : Item) : Bool :=
  (g.firstOfString (i.afterNext g)).isEmpty && !g.isNullableString (i.afterNext g)

variable {g : Grammar} {γ : List SymbolId} {i : Item} {A t u : SymbolId}

namespace Item

theorem Valid.viable (h : i.Valid g γ t) : i.Viable g γ := by
  induction h with
  | start => exact .start
  | read _ hX ih => exact ih.read hX
  | expand _ hij _ ih => exact ih.expand hij

theorem Valid.isTerminal (wf : g.WellFormed) (h : i.Valid g γ t) : g.isTerminal t = true := by
  induction h with
  | start => exact wf.terminal_endMarker
  | read _ _ ih => exact ih
  | expand _ _ hv _ => exact hv.1

/-- The dot of a valid item moves over any number of symbols. -/
theorem Valid.read_take {r : RuleId} (h : Valid g γ ⟨r, 0⟩ t) :
    ∀ n, n ≤ (g.rhs r).length → Valid g (γ ++ (g.rhs r).take n) ⟨r, n⟩ t
  | 0, _ => by simpa using h
  | n + 1, hn => by
    have hX : next? g ⟨r, n⟩ = some (g.rhs r)[n] := List.getElem?_eq_getElem hn
    have := (read_take h n (Nat.le_of_succ_le hn)).read hX
    rwa [List.append_assoc, List.take_append_getElem hn] at this

/-- An initial item is the start item, or it is expanded from an item. -/
theorem Viable.parent {r : RuleId} (h : Viable g γ ⟨r, 0⟩) :
    γ = [] ∧ r = RuleId.accept ∨
      r < g.rules.size ∧ ∃ i : Item, i.Viable g γ ∧ i.next? g = some (g.lhs r) := by
  generalize hj : (⟨r, 0⟩ : Item) = j at h
  cases h with
  | start => exact .inl ⟨rfl, congrArg Item.rule hj⟩
  | read _ _ => exact absurd (congrArg Item.position hj) (Nat.succ_ne_zero _).symm
  | expand hi hij =>
    obtain ⟨r', hr', hnext, rfl⟩ := hij
    obtain rfl : r = r' := congrArg Item.rule hj
    exact .inr ⟨hr', _, hi, hnext⟩

end Item

namespace Grammar

theorem Follows.isTerminal (h : g.Follows γ A t) : g.isTerminal t = true := by
  induction h with
  | begins _ _ h => exact h.1
  | inherits _ _ _ _ ih => exact ih

/-- What is followed stands after the dot of a viable item. -/
theorem Follows.exists_viable (h : g.Follows γ A t) :
    ∃ i : Item, i.Viable g γ ∧ i.next? g = some A := by
  induction h with
  | begins hi hA _ => exact ⟨_, hi, hA⟩
  | @inherits γ i A t _ hr hA _ ih =>
    obtain ⟨j, hj, hnext⟩ := ih
    have hi : Item.Viable g γ ⟨i.rule, 0⟩ := hj.expand ⟨i.rule, hr, hnext, rfl⟩
    have hlt := (List.getElem?_eq_some_iff.1 hA).1
    exact ⟨i, hi.read_take i.position (Nat.le_of_lt hlt), hA⟩

theorem begins_of_expands {k i : Item} (hki : Relation.ReflTransGen (Item.Expands g) k i)
    (ht : g.Begins (i.after g) t) : g.Begins (k.after g) t := by
  induction hki with
  | refl => exact ht
  | tail _ hstep ih =>
    obtain ⟨r, hr, hnext, rfl⟩ := hstep
    refine ih ?_
    rw [Item.after_eq_cons hnext]
    exact begins_cons.2 (.inl (begins_rule hr ht))

/-- What follows a vanishing symbol follows the symbol read before it. -/
theorem Follows.of_snoc {C : SymbolId} (h : g.Follows (γ ++ [A]) C t) (hC : g.Vanishes [C]) :
    g.Follows γ A t := by
  generalize hδ : γ ++ [A] = δ at h
  induction h with
  | @begins δ i C t hi hnext hbegins =>
    subst hδ
    obtain ⟨j, hj, hA, hji⟩ := Item.viable_snoc_iff.1 hi
    refine .begins hj hA (begins_of_expands hji ?_)
    rw [Item.after_eq_cons hnext]
    exact begins_cons.2 (.inr ⟨hC, hbegins⟩)
  | @inherits δ i C t hfollows hr hnext hvanish ih =>
    -- Either `C` begins the rule, and the left-hand side vanishes, or the symbol
    -- read before it stands before it in the rule.
    rcases hpos : i.position with _ | n
    · have hrhs : i.after g = g.rhs i.rule := by rw [Item.after, hpos, List.drop_zero]
      rw [Item.after_eq_cons hnext] at hrhs
      have hbefore : i.before g = [] := by rw [Item.before, hpos, List.take_zero]
      rw [hbefore, List.append_nil] at hδ
      refine ih (vanishes_rule hr ?_) hδ
      rw [← hrhs]
      exact vanishes_cons.2 ⟨hC, hvanish⟩
    · obtain ⟨hlt, -⟩ := List.getElem?_eq_some_iff.1 hnext
      have hn : n < (g.rhs i.rule).length := by omega
      have hj : Item.next? g ⟨i.rule, n⟩ = some (g.rhs i.rule)[n] := List.getElem?_eq_getElem hn
      have hadvance : i = Item.advance ⟨i.rule, n⟩ := by rw [Item.advance, ← hpos]
      rw [hadvance, Item.before_advance hj, ← List.append_assoc] at hδ
      obtain ⟨rfl, rfl⟩ := List.append_singleton_inj.1 hδ
      refine .inherits (i := ⟨i.rule, n⟩) hfollows hr hj ?_
      rw [← Item.after_advance, ← hadvance, Item.after_eq_cons hnext]
      exact vanishes_cons.2 ⟨hC, hvanish⟩

/-- The end marker after the start symbol does not vanish. -/
theorem WellFormed.not_vanishes_accept (wf : g.WellFormed) (hi : i.rule = RuleId.accept)
    (hA : i.next? g = some A) (hnonterminal : g.isTerminal A = false) :
    ¬ g.Vanishes (i.afterNext g) := by
  rw [Item.next?, hi, wf.rhs_accept] at hA
  rw [Item.afterNext, hi, wf.rhs_accept]
  rcases hpos : i.position with _ | _ | n
  · exact wf.not_vanishes_terminal wf.terminal_endMarker
  · rw [hpos] at hA
    obtain rfl := Option.some.inj hA
    rw [wf.terminal_endMarker] at hnonterminal; cases hnonterminal
  · rw [hpos] at hA; cases hA

/-- A valid lookahead of a rule other than the accepting one follows its
    left-hand side where the rule was begun. -/
theorem WellFormed.follows_of_valid (wf : g.WellFormed) (h : i.Valid g γ t) :
    ∃ γ', γ = γ' ++ i.before g ∧
      (γ' = [] ∧ i.rule = RuleId.accept ∨ g.Follows γ' (i.lhs g) t) := by
  induction h with
  | start => exact ⟨[], rfl, .inl ⟨rfl, rfl⟩⟩
  | read _ hX ih =>
    obtain ⟨γ', rfl, h⟩ := ih
    exact ⟨γ', by rw [Item.before_advance hX, List.append_assoc], h⟩
  | @expand γ i j u v hi hij hv ih =>
    have hu := hi.isTerminal wf
    obtain ⟨r, hr, hnext, rfl⟩ := hij
    refine ⟨γ, by simp, .inr ?_⟩
    rcases (wf.begins_snoc hu).1 hv with hv | ⟨hvanish, rfl⟩
    · exact .begins hi.viable hnext hv
    · obtain ⟨γ', rfl, ⟨rfl, haccept⟩ | hfollows⟩ := ih
      · exact absurd hvanish (wf.not_vanishes_accept haccept hnext (wf.lhs_nonterminal hr))
      · exact .inherits hfollows (hi.viable.inRange wf).1 hnext hvanish

/-- A valid lookahead of a complete item follows its left-hand side. -/
theorem WellFormed.follows_of_valid_complete (wf : g.WellFormed) {ρ : RuleId}
    (hρ : ρ ≠ RuleId.accept) (h : Item.Valid g γ ⟨ρ, (g.rhs ρ).length⟩ t) :
    ∃ γ', γ = γ' ++ g.rhs ρ ∧ g.Follows γ' (g.lhs ρ) t := by
  obtain ⟨γ', heq, ⟨-, haccept⟩ | hfollows⟩ := wf.follows_of_valid h
  · exact absurd haccept hρ
  · exact ⟨γ', by rw [heq, Item.before, List.take_length], hfollows⟩

theorem Grounded.exists_begins (h : g.Grounded) (wf : g.WellFormed) (hi : i.Viable g γ)
    (hu : g.isTerminal u = true) : ∃ v, g.Begins (i.afterNext g ++ [u]) v := by
  have hsymbols := h γ i hi
  generalize i.afterNext g = α at hsymbols
  induction α with
  | nil => exact ⟨u, (wf.begins_terminal_iff hu).2 rfl⟩
  | cons X α ih =>
    rcases hsymbols X (by simp) with hX | ⟨v, hv⟩
    · obtain ⟨v, hv⟩ := ih fun Y hY => hsymbols Y (by simp [hY])
      exact ⟨v, begins_cons.2 (.inr ⟨hX, hv⟩)⟩
    · exact ⟨v, begins_cons.2 (.inl hv)⟩

/-- In a grounded grammar every viable item has a valid lookahead. -/
theorem Grounded.exists_valid (h : g.Grounded) (wf : g.WellFormed) (hi : i.Viable g γ) :
    ∃ t, i.Valid g γ t := by
  induction hi with
  | start => exact ⟨_, .start⟩
  | read _ hX ih =>
    obtain ⟨t, ht⟩ := ih
    exact ⟨t, ht.read hX⟩
  | expand hi hij ih =>
    obtain ⟨u, hu⟩ := ih
    obtain ⟨v, hv⟩ := h.exists_begins wf hi (hu.isTerminal wf)
    exact ⟨v, hu.expand hij hv⟩

/-- In a grounded grammar, what follows a nonterminal is a lookahead with which
    its rules are valid. -/
theorem Grounded.valid_of_follows (h : g.Grounded) (wf : g.WellFormed) (ht : g.Follows γ A t)
    {r : RuleId} (hr : r < g.rules.size) (hA : g.lhs r = A) : Item.Valid g γ ⟨r, 0⟩ t := by
  induction ht generalizing r with
  | begins hi hnext hbegins =>
    obtain ⟨u, hu⟩ := h.exists_valid wf hi
    subst hA
    exact hu.expand ⟨r, hr, hnext, rfl⟩
      ((wf.begins_snoc (hu.isTerminal wf)).2 (.inl hbegins))
  | @inherits γ i A t hfollows hrule hnext hvanish ih =>
    have hlt := (List.getElem?_eq_some_iff.1 hnext).1
    have hi : i.Valid g (γ ++ i.before g) t :=
      (ih hrule rfl).read_take i.position (Nat.le_of_lt hlt)
    subst hA
    exact hi.expand ⟨r, hr, hnext, rfl⟩
      ((wf.begins_snoc (hi.isTerminal wf)).2 (.inr ⟨hvanish, rfl⟩))

/-- Rules stay out of reach of valid items if they would be expanded from items
    with nothing after the next symbol that could begin or vanish. -/
theorem WellFormed.rule_of_valid (wf : g.WellFormed) {P : RuleId → Prop} (haccept : P RuleId.accept)
    (hstep : ∀ r, P r → ∀ n, n < (g.rhs r).length → ∀ r', r' < g.rules.size →
      (g.rhs r)[n]? = some (g.lhs r') → P r' ∨ Item.isBlind g ⟨r, n⟩ = true)
    (h : i.Valid g γ t) : P i.rule := by
  induction h with
  | start => exact haccept
  | read _ _ ih => exact ih
  | @expand γ i j u v hi hij hv ih =>
    have hu := hi.isTerminal wf
    obtain ⟨r, hr, hnext, rfl⟩ := hij
    have hlt := (List.getElem?_eq_some_iff.1 hnext).1
    rcases hstep i.rule ih i.position hlt r hr hnext with h | hblind
    · exact h
    · obtain ⟨hfirst, hnull⟩ := Bool.and_eq_true_iff.1 hblind
      exfalso
      rcases (wf.begins_snoc hu).1 hv with hv | ⟨hvanish, -⟩
      · exact NatSet.isEmpty_iff.1 hfirst v (wf.mem_firstOfString_iff.2 hv)
      · have hnull' : g.isNullableString (i.afterNext g) = true := wf.isNullableString_iff.2 hvanish
        have hnull : (!g.isNullableString (i.afterNext g)) = true := hnull
        rw [hnull'] at hnull; cases hnull

/-- A grammar is grounded if every symbol is nullable or has a FIRST set that is
    not empty. -/
theorem WellFormed.grounded_of_forall (wf : g.WellFormed)
    (h : ∀ X, X < g.symbols.size → g.isNullable X = true ∨ (g.first X).isEmpty = false) :
    g.Grounded := by
  intro γ i hi X hX
  have hlt := wf.rhs_lt (hi.inRange wf).1 X (List.mem_of_mem_drop hX)
  rcases h X hlt with hnull | hfirst
  · exact .inl (wf.isNullable_iff.1 hnull)
  · obtain ⟨t, ht⟩ := NatSet.isEmpty_eq_false_iff.1 hfirst
    exact .inr ⟨t, wf.mem_firstOfString_iff.1 (First.mem_ofString_cons.2 (.inl ht))⟩

end Grammar

end LRAutomata
