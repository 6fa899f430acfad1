/-
  Where lookaheads come from, after a given string.

  A terminal is ahead of an item after a string if it follows the item's rule
  where that was begun (`Item.Ahead`).

  * what follows a transition after a string always follows it in this state,
    or is ahead of one of the kernel items listed for it
    (`GotoFollows.follows_iff`);
  * the lookaheads of a kernel item are what is ahead of it after any string
    that leads to the state (`KernelLookaheads.mem_get_iff`).  Those of a
    complete item are the lookaheads of its reduction
    (`KernelLookaheads.get?_la_eq_get`), and in a grounded grammar they are the
    canonical ones (`Automaton.kernel_lookaheads`).

  Taken over all strings, the first splits what follows a transition into what
  always follows it and the lookaheads of its kernel items
  (`Automaton.follow_splits`).

  The right-hand sides of the grammar are taken to fit the positions (`Item`).
-/
import LRAutomata.Automaton.KernelLookahead
import LRAutomata.Proofs.Automaton.Lookahead

namespace LRAutomata

open Relation

/-- The terminal follows the left-hand side of the item where its rule was begun. -/
def Item.Ahead (g : Grammar) (γ : List SymbolId) (i : Item) (t : SymbolId) : Prop :=
  ∃ γ', γ = γ' ++ i.before g ∧ g.Follows γ' (i.lhs g) t

namespace Item

variable {g : Grammar} {γ : List SymbolId} {i : Item} {X t : SymbolId}

theorem ahead_advance (hX : i.next? g = some X) :
    i.advance.Ahead g (γ ++ [X]) t ↔ i.Ahead g γ t := by
  simp only [Ahead, before_advance hX, ← List.append_assoc, List.append_left_inj]
  rfl

theorem ahead_initial {r : RuleId} : Ahead g γ ⟨r, 0⟩ t ↔ g.Follows γ (g.lhs r) t := by
  simp [Ahead, lhs]

theorem Ahead.follows {A : SymbolId} (h : i.Ahead g γ t) (hr : i.rule < g.rules.size)
    (hA : i.next? g = some A) (hvanish : g.Vanishes (i.afterNext g)) : g.Follows γ A t := by
  obtain ⟨γ', rfl, hfollows⟩ := h
  exact .inherits hfollows hr hA hvanish

end Item

namespace Grammar

variable {g : Grammar} {γ : List SymbolId} {i : Item} {t : SymbolId}

/-- The canonical lookaheads of an item are ahead of it. -/
theorem WellFormed.ahead_of_valid (wf : g.WellFormed) (hrule : i.rule ≠ RuleId.accept)
    (h : i.Valid g γ t) : i.Ahead g γ t := by
  obtain ⟨γ', heq, ⟨-, haccept⟩ | hfollows⟩ := wf.follows_of_valid h
  · exact absurd haccept hrule
  · exact ⟨γ', heq, hfollows⟩

/-- In a grounded grammar, what is ahead of an item is a canonical lookahead. -/
theorem Grounded.valid_of_ahead (grounded : g.Grounded) (wf : g.WellFormed)
    (hrule : i.rule < g.rules.size) (hpos : i.position ≤ (g.rhs i.rule).length)
    (h : i.Ahead g γ t) : i.Valid g γ t := by
  obtain ⟨γ', rfl, hfollows⟩ := h
  exact (grounded.valid_of_follows wf hfollows hrule rfl).read_take i.position hpos

end Grammar

/-! ## The two sources of what follows -/

namespace GotoFollows

variable {g : Grammar} {a : Graph} {q : StateId} {A t : SymbolId} {γ : List SymbolId}

theorem mem_alwaysIncludes (wf : g.WellFormed) {y z : Goto} :
    z ∈ (alwaysIncludes g a).getD y [] ↔ z ∈ Lookaheads.gotos g a ∧ y.source = z.source ∧
      g.isTerminal y.symbol = false ∧ ∃ r, r < g.rules.size ∧ g.lhs r = z.symbol ∧
        Item.next? g ⟨r, 0⟩ = some y.symbol ∧ g.Vanishes (Item.afterNext g ⟨r, 0⟩) := by
  rw [alwaysIncludes, OrderedMap.mem_getD_group]
  simp only [List.mem_flatMap, List.mem_filterMap, wf.mem_rulesOf, Item.next?, Item.afterNext]
  constructor
  · rintro ⟨z, hz, r, ⟨hr, hlhs⟩, hsome⟩
    split at hsome
    · rename_i X rest hrhs
      split at hsome
      · rename_i hcond
        cases hsome
        simp only [Bool.and_eq_true, Bool.not_eq_true', wf.isNullableString_iff] at hcond
        exact ⟨hz, rfl, hcond.1, r, hr, hlhs, by rw [hrhs]; rfl, by rw [hrhs]; exact hcond.2⟩
      · cases hsome
    · cases hsome
  · rintro ⟨hz, hsource, hterminal, r, hr, hlhs, hnext, hvanish⟩
    refine ⟨z, hz, r, ⟨hr, hlhs⟩, ?_⟩
    cases hrhs : g.rhs r with
    | nil => rw [hrhs] at hnext; cases hnext
    | cons X rest =>
      rw [hrhs] at hnext hvanish
      obtain rfl : X = y.symbol := by simpa using hnext
      have hnull : g.isNullableString rest = true := wf.isNullableString_iff.2 (by simpa using hvanish)
      simp [hterminal, hnull, ← hsource]

theorem mem_directKernelItems (wf : g.WellFormed) {kernel : List Item} {k : Nat} :
    k ∈ directKernelItems g kernel A ↔ ∃ i, kernel[k]? = some i ∧ i.next? g = some A ∧
      g.Vanishes (i.afterNext g) := by
  simp [directKernelItems, List.mem_zipIdx_iff_getElem?, wf.isNullableString_iff]

theorem mem_join {r₁ r₂ : OrderedMap Goto (List Goto)} {y z : Goto} :
    z ∈ (join r₁ r₂).getD y [] ↔ z ∈ r₁.getD y [] ∨ z ∈ r₂.getD y [] := by
  have fold : ∀ (entries : List (Goto × List Goto)) (r : OrderedMap Goto (List Goto)),
      z ∈ (entries.foldl (fun r entry => r.update entry.1 fun ts? => ts?.getD [] ++ entry.2)
        r).getD y [] ↔ z ∈ r.getD y [] ∨ ∃ ts, (y, ts) ∈ entries ∧ z ∈ ts := by
    intro entries
    induction entries with
    | nil => simp
    | cons entry entries ih =>
      intro r
      obtain ⟨p, ts⟩ := entry
      rw [List.foldl_cons, ih, OrderedMap.getD, OrderedMap.get?_update]
      by_cases hp : p = y
      · subst hp
        simp [OrderedMap.getD, or_and_right, exists_or, or_assoc]
      · simp [hp, Ne.symm hp, OrderedMap.getD]
  refine (fold _ _).trans (or_congr_right ?_)
  simp only [OrderedMap.mem_toList, OrderedMap.getD]
  cases r₂.get? y <;> simp

/-- The equations of the tokens that always follow. -/
def alwaysEquations (g : Grammar) (a : Graph) : SetEquations Goto NatSet :=
  ⟨join (Lookaheads.readsRelation g a) (alwaysIncludes g a), Lookaheads.directReads g a⟩

/-- The equations of the kernel items that pass on their lookaheads. -/
def kernelEquations (g : Grammar) (a : Graph) : SetEquations Goto NatSet :=
  ⟨alwaysIncludes g a, OrderedMap.ofList ((Lookaheads.directReads g a).keys.map fun p =>
    (p, directKernelItems g (a.core p.source).kernel p.symbol))⟩

theorem always_eq (g : Grammar) (a : Graph) : (compute g (.ofGraph g a)).always =
    (alwaysEquations g a).solve (Lookaheads.directReads g a).keys := by
  rw [compute, Automaton.graph_ofGraph]; rfl

theorem kernelItems_eq (g : Grammar) (a : Graph) : (compute g (.ofGraph g a)).kernelItems =
    (kernelEquations g a).solve (Lookaheads.directReads g a).keys := by
  rw [compute, Automaton.graph_ofGraph]; rfl

theorem start_kernelEquations {z : Goto} (hz : z ∈ (Lookaheads.directReads g a).keys) :
    (kernelEquations g a).start z = directKernelItems g (a.core z.source).kernel z.symbol := by
  refine OrderedMap.getD_of_get? (OrderedMap.get?_ofList_of_unique (List.mem_map_of_mem hz)
    fun v hv => ?_)
  obtain ⟨p, -, hp⟩ := List.mem_map.1 hv
  obtain ⟨rfl, rfl⟩ := Prod.mk.inj hp
  rfl

theorem follows_of_contains_always (h : a.OfItems g) (wf : g.WellFormed) {z : Goto}
    (ht : (alwaysEquations g a).Contains z t) (hz : z ∈ Lookaheads.gotos g a) :
    ∀ {γ : List SymbolId}, a.Reads StateId.start γ z.source → g.Follows γ z.symbol t := by
  obtain ⟨y, hzy, ht⟩ := ht
  induction hzy using ReflTransGen.head_induction_on with
  | refl =>
    intro γ hγ
    have hread : (Lookaheads.readEquations g a).Contains y t := ⟨y, .refl, ht⟩
    obtain ⟨i, hi, hnext, hbegins⟩ := Lookaheads.exists_of_contains_read h wf hread hz
    exact .begins ((h.mem_items_iff wf hγ).1 hi) hnext hbegins
  | @head z z' hstep _ ih =>
    intro γ hγ
    rcases mem_join.1 hstep with hstep | hstep
    · obtain ⟨hq, hA, r, hr⟩ := (Lookaheads.mem_gotos h).1 hz
      have hrlt := (h.next?_kernel hq hr).1
      rw [Lookaheads.mem_reads h hq hA hr, Lookaheads.mem_nullableGotos h wf hrlt] at hstep
      obtain ⟨rfl, hC, hvanish, hs⟩ := hstep
      exact (ih ((Lookaheads.mem_gotos h).2 ⟨hrlt, hC, hs⟩)
        (Graph.reads_snoc.2 ⟨_, hγ, hr⟩)).of_snoc hvanish
    · obtain ⟨hz', hsource, -, r, hr, hlhs, hnext, hvanish⟩ := (mem_alwaysIncludes wf).1 hstep
      have := ih hz' (hsource ▸ hγ)
      rw [← hlhs] at this
      exact (Item.ahead_initial.2 this).follows hr hnext hvanish

theorem follows_of_contains_kernel (h : a.OfItems g) (wf : g.WellFormed) {z : Goto} {k : Nat}
    (hk : (kernelEquations g a).Contains z k) (hz : z ∈ Lookaheads.gotos g a)
    (hγ : a.Reads StateId.start γ z.source) {i : Item} (hi : (a.core z.source).kernel[k]? = some i)
    (ht : i.Ahead g γ t) : g.Follows γ z.symbol t := by
  obtain ⟨y, hzy, hk⟩ := hk
  induction hzy using ReflTransGen.head_induction_on with
  | refl =>
    rw [start_kernelEquations (Lookaheads.mem_keys_directReads.2 hz)] at hk
    obtain ⟨j, hj, hnext, hvanish⟩ := (mem_directKernelItems wf).1 hk
    obtain rfl := Option.some.inj (hi.symm.trans hj)
    have hmem : i ∈ (a.core y.source).items := List.mem_append_left _ (List.mem_of_getElem? hi)
    exact ht.follows (((h.mem_items_iff wf hγ).1 hmem).inRange wf).1 hnext hvanish
  | @head z z' hstep _ ih =>
    obtain ⟨hz', hsource, -, r, hr, hlhs, hnext, hvanish⟩ := (mem_alwaysIncludes wf).1 hstep
    have := ih hz' (hsource ▸ hγ) (hsource ▸ hi)
    rw [← hlhs] at this
    exact (Item.ahead_initial.2 this).follows hr hnext hvanish

/-- An item whose dot is not at the beginning is a kernel item of the state that the
    string before its dot leads to. -/
theorem mem_kernel_of_viable (h : a.OfItems g) (wf : g.WellFormed) {q : StateId} {i : Item}
    (hγ : a.Reads StateId.start (γ ++ i.before g) q) (hviable : i.Viable g (γ ++ i.before g))
    (hnext : i.next? g = some A) (hpos : i.position ≠ 0) : i ∈ (a.core q).kernel := by
  have hne : γ ++ i.before g ≠ [] := by
    intro hnil
    have hlen := congrArg List.length hnil
    rw [List.length_append, Item.length_before hnext, List.length_nil] at hlen
    omega
  rw [(h.reads_kernel hγ).2, ItemSet.mem_reached_iff_viable wf]
  exact ⟨hviable, .inr ⟨hne, Nat.pos_of_ne_zero hpos⟩⟩

theorem contains_of_follows (h : a.OfItems g) (wf : g.WellFormed) (ht : g.Follows γ A t) :
    ∀ {q : StateId}, a.Reads StateId.start γ q → g.isTerminal A = false →
      (alwaysEquations g a).Contains ⟨q, A⟩ t ∨ ∃ k i, (kernelEquations g a).Contains ⟨q, A⟩ k ∧
        (a.core q).kernel[k]? = some i ∧ i.rule ≠ RuleId.accept ∧ i.Ahead g γ t := by
  induction ht with
  | @begins γ i A t hi hnext hbegins =>
    intro q hγ hA
    left
    have hi := (h.mem_items_iff wf hγ).2 hi
    have hq := (h.reads_kernel hγ).1
    obtain ⟨r, hr⟩ := (h.exists_next?_iff hq).2 ⟨i, hi, hnext⟩
    obtain ⟨y, hy, ht⟩ := Lookaheads.contains_read_of_leads h wf (Grammar.begins_iff_leads.1 hbegins)
      hq hA hr (Lookaheads.advance_mem_items h hq hr hi hnext) (Item.after_advance i)
    exact ⟨y, ReflTransGen.mono (fun _ _ hstep => mem_join.2 (.inl hstep)) _ _ hy, ht⟩
  | @inherits γ i A t hfollows hrule hnext hvanish ih =>
    intro q hγ hA
    have hlhs : g.isTerminal (i.lhs g) = false := wf.lhs_nonterminal hrule
    have hviable : i.Viable g (γ ++ i.before g) := by
      obtain ⟨j, hj, hjnext⟩ := hfollows.exists_viable
      exact (hj.expand ⟨i.rule, hrule, hjnext, rfl⟩).read_take i.position
        (Nat.le_of_lt (List.getElem?_eq_some_iff.1 hnext).1)
    rcases hpos : i.position with _ | n
    · -- The rule begins with `A` in the same state.
      have hbefore : i.before g = [] := by rw [Item.before, hpos, List.take_zero]
      rw [hbefore, List.append_nil] at hγ ⊢
      obtain ⟨j, hj, hjnext⟩ := hfollows.exists_viable
      have hgoto : (⟨q, i.lhs g⟩ : Goto) ∈ Lookaheads.gotos g a := (Lookaheads.mem_gotos_iff_items h).2
        ⟨(h.reads_kernel hγ).1, hlhs, j, (h.mem_items_iff wf hγ).2 hj, hjnext⟩
      have hi : (⟨i.rule, 0⟩ : Item) = i := by rw [← hpos]
      have step : (⟨q, i.lhs g⟩ : Goto) ∈ (alwaysIncludes g a).getD ⟨q, A⟩ [] :=
        (mem_alwaysIncludes wf).2 ⟨hgoto, rfl, hA, i.rule, hrule, rfl, by rw [hi]; exact hnext,
          by rw [hi]; exact hvanish⟩
      rcases ih hγ hlhs with h | ⟨k, j, hk, hj, hahead⟩
      · exact .inl (.of_reaches (.single (mem_join.2 (.inr step))) h)
      · exact .inr ⟨k, j, .of_reaches (.single step) hk, hj, hahead⟩
    · -- The item is a kernel item of the state.
      right
      have hkernel := mem_kernel_of_viable h wf hγ hviable hnext (by omega)
      obtain ⟨k, hk⟩ := List.mem_iff_getElem?.1 hkernel
      have hgoto : (⟨q, A⟩ : Goto) ∈ Lookaheads.gotos g a := (Lookaheads.mem_gotos_iff_items h).2
        ⟨(h.reads_kernel hγ).1, hA, i, List.mem_append_left _ hkernel, hnext⟩
      have haccept : i.rule ≠ RuleId.accept := fun heq =>
        wf.not_vanishes_accept heq hnext hA hvanish
      refine ⟨k, i, ⟨_, .refl, ?_⟩, hk, haccept, γ, rfl, hfollows⟩
      rw [start_kernelEquations (Lookaheads.mem_keys_directReads.2 hgoto)]
      exact (mem_directKernelItems wf).2 ⟨i, hk, hnext, hvanish⟩

/-- **What follows a transition after a string.**  The kernel items that bring it
    are not of the accepting rule, whose end marker lets nothing through. -/
theorem follows_iff (h : a.OfItems g) (wf : g.WellFormed) (hγ : a.Reads StateId.start γ q)
    (hgoto : (⟨q, A⟩ : Goto) ∈ Lookaheads.gotos g a) : g.Follows γ A t ↔
      t ∈ (compute g (.ofGraph g a)).always.getD ⟨q, A⟩ ∅ ∨
      ∃ k i, k ∈ (compute g (.ofGraph g a)).kernelItems.getD ⟨q, A⟩ ∅ ∧
        (a.core q).kernel[k]? = some i ∧ i.rule ≠ RuleId.accept ∧ i.Ahead g γ t := by
  have domain := Lookaheads.mem_keys_directReads.2 hgoto
  rw [always_eq, kernelItems_eq]
  simp only [SetEquations.mem_solve_iff _ domain]
  constructor
  · exact fun ht => contains_of_follows h wf ht hγ ((Lookaheads.mem_gotos h).1 hgoto).2.1
  · rintro (ht | ⟨k, i, hk, hi, -, ht⟩)
    · exact follows_of_contains_always h wf ht hgoto hγ
    · exact follows_of_contains_kernel h wf hk hgoto hγ hi ht

/-- The places passed on by a transition are in the kernel of its own state: its
    equations join only transitions of one state. -/
theorem kernelItems_lt (wf : g.WellFormed) {z : Goto} {k : Nat}
    (hk : k ∈ (compute g (.ofGraph g a)).kernelItems.getD z ∅) :
    k < (a.core z.source).kernel.length := by
  rw [kernelItems_eq] at hk
  obtain ⟨y, hreach, hy⟩ := SetEquations.contains_of_mem_solve _ hk
  have hsource : z.source = y.source := by
    clear hy hk
    induction hreach with
    | refl => rfl
    | tail _ hstep ih => exact ih.trans ((mem_alwaysIncludes wf).1 hstep).2.1
  by_cases hmem : y ∈ (Lookaheads.directReads g a).keys
  · rw [start_kernelEquations hmem] at hy
    obtain ⟨i, hi, -⟩ := (mem_directKernelItems wf).1 hy
    rw [hsource]
    exact (List.getElem?_eq_some_iff.1 hi).1
  · rw [SetEquations.start, OrderedMap.getD_of_not_mem] at hy
    · exact absurd hy (NatSet.not_mem_empty k)
    · rw [kernelEquations, OrderedMap.mem_keys_ofList]
      rintro ⟨_, hentry⟩
      obtain ⟨z, hz, heq⟩ := List.mem_map.1 hentry
      exact hmem ((Prod.mk.inj heq).1 ▸ hz)

end GotoFollows

/-! ## Lookaheads of kernel items -/

namespace KernelLookaheads

variable {g : Grammar} {a : Graph} {p q : StateId} {t : SymbolId} {i : Item} {k : Nat}
variable {table : KernelLookaheads}

/-- The table has a set for each kernel item of each state. -/
def Shaped (a : Graph) (table : KernelLookaheads) : Prop :=
  table.size = a.size ∧ ∀ q, q < a.size → (table.getD q []).length = (a.core q).kernel.length

theorem getElem?_fill (hs : Shaped a table) (hq : q < a.size) (n : Nat) :
    (fill g (.ofGraph g a) table n).getD q [] =
      ((a.core q).kernel.zip (table.getD q [])).map fun (i, set) =>
        if i.position = n && i.rule ≠ RuleId.accept then
          (a.core q).predecessors.foldl
            (fun la p => la ∪ fromPredecessor g (.ofGraph g a) table i p) ∅
        else set := by
  have hq₁ : q < (Automaton.ofGraph g a).states.size := by simpa using hq
  have hq₂ : q < table.size := by rw [hs.1]; exact hq
  have hstate : (Automaton.ofGraph g a).states[q].toCore = a.core q := by
    rw [← Automaton.toCore_state g a q, Automaton.state]; simp [Array.getD, hq]
  simp [fill, Array.getD, hq, hq₂, hstate]

theorem shaped_fill (hs : Shaped a table) (n : Nat) :
    Shaped a (fill g (.ofGraph g a) table n) := by
  refine ⟨?_, fun q hq => ?_⟩
  · simp [fill, hs.1]
  · rw [getElem?_fill hs hq, List.length_map, List.length_zip, hs.2 q hq, Nat.min_self]

theorem get_fill (hs : Shaped a table) (hq : q < a.size) (hi : (a.core q).kernel[k]? = some i)
    (n : Nat) : (fill g (.ofGraph g a) table n).get q k =
      if i.position = n ∧ i.rule ≠ RuleId.accept then
        (a.core q).predecessors.foldl
          (fun la p => la ∪ fromPredecessor g (.ofGraph g a) table i p) ∅
      else table.get q k := by
  obtain ⟨hk, rfl⟩ := List.getElem?_eq_some_iff.1 hi
  have hk' : k < (table.getD q []).length := by rw [hs.2 q hq]; exact hk
  rw [get, getElem?_fill hs hq, get]
  generalize table.getD q [] = sets at hk'
  simp [List.getD, hk, hk']

/-- What is ahead of a kernel item on some way to its state; nothing is known
    of the items of the accepting rule. -/
def Expected (g : Grammar) (a : Graph) (q : StateId) (i : Item) (t : SymbolId) : Prop :=
  i.rule ≠ RuleId.accept ∧ ∃ γ, a.Reads StateId.start γ q ∧ i.Ahead g γ t

/-- A kernel item is reached from an item of every predecessor. -/
theorem exists_before (h : a.OfItems g) (link : a.Linked) (hq : q < a.size)
    (hi : i ∈ (a.core q).kernel) (hp : p ∈ (a.core q).predecessors) :
    p < a.size ∧ ∃ X j, a.next? p X = some q ∧ j ∈ (a.core p).items ∧ j.next? g = some X ∧
      j.advance = i := by
  obtain ⟨hplt, e, he, rfl⟩ := (link hq).1 hp
  have hnext := h.next?_edge hplt he
  rw [(h.next?_kernel hplt hnext).2] at hi
  obtain ⟨j, hj, hX, rfl⟩ := ItemSet.mem_step.1 hi
  exact ⟨hplt, e.symbol, j, hnext, by rw [h.items_eq hplt]; exact hj, hX, rfl⟩

/-- The way to a kernel item leads over one of the predecessors. -/
theorem expected_iff (h : a.OfItems g) (wf : g.WellFormed) (link : a.Linked) (hq : q < a.size)
    (hi : i ∈ (a.core q).kernel) (hrule : i.rule ≠ RuleId.accept) :
    Expected g a q i t ↔ ∃ p ∈ (a.core q).predecessors, ∃ γ, a.Reads StateId.start γ p ∧
      ∃ j, j ∈ (a.core p).items ∧ j.advance = i ∧ j.Ahead g γ t := by
  constructor
  · rintro ⟨-, γ, hγ, ht⟩
    rw [(h.reads_kernel hγ).2] at hi
    cases γ using List.reverseRecOn with
    | nil => rw [List.mem_singleton.1 hi] at hrule; exact absurd rfl hrule
    | append_singleton γ X =>
      obtain ⟨j, hj, hX, rfl⟩ := (ItemSet.mem_reached_snoc wf).1 hi
      obtain ⟨p, hp, hpq⟩ := Graph.reads_snoc.1 hγ
      have hplt := (h.reads_kernel hp).1
      obtain ⟨e, he, -, htarget⟩ := (h.next?_eq_some_iff hplt).1 hpq
      exact ⟨p, (link hq).2 ⟨hplt, e, he, htarget⟩, γ, hp, j, (h.mem_items_iff wf hp).2 hj, rfl,
        (Item.ahead_advance hX).1 ht⟩
  · rintro ⟨p, hp, γ, hγ, j, hj, rfl, ht⟩
    obtain ⟨-, X, j', hnext, -, hX, hadvance⟩ := exists_before h link hq hi hp
    obtain rfl := Item.advance_inj hadvance
    exact ⟨hrule, γ ++ [X], Graph.reads_snoc.2 ⟨p, hγ, hnext⟩, (Item.ahead_advance hX).2 ht⟩

/-- The sets of the items with the dot up to position `n` are filled in, and those
    of the accepting rule stay empty. -/
def Filled (g : Grammar) (a : Graph) (n : Nat) (table : KernelLookaheads) : Prop :=
  Shaped a table ∧ ∀ q k i, q < a.size → (a.core q).kernel[k]? = some i →
    i.position ≤ n ∨ i.rule = RuleId.accept → ∀ t, t ∈ table.get q k ↔ Expected g a q i t

theorem findIdx?_precedes {kernel : List Item} {j : Item} (hj : j ∈ kernel) (hij : j.advance = i) :
    ∃ k, kernel.findIdx? (fun j => j.precedes i) = some k ∧ kernel[k]? = some j := by
  cases hfind : kernel.findIdx? (fun j => j.precedes i) with
  | none =>
    have := List.findIdx?_eq_none_iff.1 hfind j hj
    simp [Item.precedes, hij] at this
  | some k =>
    obtain ⟨hk, hprec, -⟩ := List.findIdx?_eq_some_iff_getElem.1 hfind
    have heq : kernel[k].advance = j.advance := by simpa [Item.precedes, hij] using hprec
    exact ⟨k, rfl, by rw [List.getElem?_eq_getElem hk, Item.advance_inj heq]⟩

theorem mem_fromPredecessor (h : a.OfItems g) (wf : g.WellFormed) (link : a.Linked)
    (reach : a.Reachable) {n : Nat} (hfilled : Filled g a n table) (hq : q < a.size)
    (hi : i ∈ (a.core q).kernel) (hpos : i.position = n + 1) (hrule : i.rule ≠ RuleId.accept)
    (hp : p ∈ (a.core q).predecessors) : t ∈ fromPredecessor g (.ofGraph g a) table i p ↔
      ∃ γ, a.Reads StateId.start γ p ∧ ∃ j, j ∈ (a.core p).items ∧ j.advance = i ∧ j.Ahead g γ t := by
  obtain ⟨hplt, X, j, -, hj, -, rfl⟩ := exists_before h link hq hi hp
  have simplify : (∃ γ, a.Reads StateId.start γ p ∧ ∃ j', j' ∈ (a.core p).items ∧
      j'.advance = j.advance ∧ j'.Ahead g γ t) ↔ ∃ γ, a.Reads StateId.start γ p ∧ j.Ahead g γ t := by
    refine exists_congr fun γ => and_congr_right fun _ => ⟨?_, fun ht => ⟨j, hj, rfl, ht⟩⟩
    rintro ⟨j', -, hadvance, ht⟩
    rwa [Item.advance_inj hadvance] at ht
  have hposj : j.position = n := by simpa [Item.advance] using hpos
  rw [simplify, fromPredecessor, hpos]
  obtain ⟨δ, hδ⟩ := reach p hplt
  have hviable := (h.mem_items_iff wf hδ).1 hj
  cases n with
  | zero =>
    obtain ⟨r, _⟩ := j
    obtain rfl := hposj
    obtain ⟨-, haccept⟩ | ⟨hlt, i', hi', hnext⟩ := hviable.parent
    · exact absurd haccept hrule
    · have hgoto : (⟨p, g.lhs r⟩ : Goto) ∈ Lookaheads.gotos g a :=
        (Lookaheads.mem_gotos_iff_items h).2
          ⟨hplt, wf.lhs_nonterminal hlt, i', (h.mem_items_iff wf hδ).2 hi', hnext⟩
      simp only [Item.ahead_initial]
      exact Lookaheads.mem_follow_iff h wf reach hgoto
  | succ n =>
    have hkernel : j ∈ (a.core p).kernel := by
      rcases List.mem_append.1 hj with hj | hj
      · exact hj
      · rw [h.closure_eq hplt] at hj
        obtain ⟨r, -, -, rfl⟩ := Grammar.mem_closure.1 hj
        cases hposj
    obtain ⟨k, hfind, hk⟩ := findIdx?_precedes hkernel rfl
    rw [if_neg (by omega), Automaton.toCore_state, hfind]
    show t ∈ table.get p k ↔ _
    rw [hfilled.2 p k j hplt hk (.inl (by omega))]
    exact and_iff_right hrule

theorem filled_fill (h : a.OfItems g) (wf : g.WellFormed) (link : a.Linked)
    (reach : a.Reachable) {n : Nat} (hfilled : Filled g a n table) :
    Filled g a (n + 1) (fill g (.ofGraph g a) table (n + 1)) := by
  refine ⟨shaped_fill hfilled.1 _, fun q k i hq hi hpos t => ?_⟩
  have hmem := List.mem_of_getElem? hi
  rw [get_fill hfilled.1 hq hi]
  split
  · rename_i hcond
    rw [Lookaheads.mem_foldl_union, expected_iff h wf link hq hmem hcond.2]
    simp only [NatSet.not_mem_empty, false_or]
    refine exists_congr fun p => and_congr_right fun hp => ?_
    exact mem_fromPredecessor h wf link reach hfilled hq hmem hcond.1 hcond.2 hp
  · rename_i hcond
    refine hfilled.2 q k i hq hi ?_ t
    by_cases hrule : i.rule = RuleId.accept
    · exact .inr hrule
    · have : i.position ≠ n + 1 := fun heq => hcond ⟨heq, hrule⟩
      have := hpos.resolve_right hrule
      exact .inl (by omega)

theorem filled_start (h : a.OfItems g) (reach : a.Reachable) (wf : g.WellFormed) :
    Filled g a 0 (((Automaton.ofGraph g a).states.toList.map fun s =>
      s.kernel.map fun _ => ∅).toArray) := by
  have hget : ∀ q, q < a.size → (((Automaton.ofGraph g a).states.toList.map fun s =>
      s.kernel.map fun _ => (∅ : NatSet)).toArray).getD q [] = (a.core q).kernel.map fun _ => ∅ := by
    intro q hq
    have hq₁ : q < (Automaton.ofGraph g a).states.size := by simpa using hq
    have hstate : (Automaton.ofGraph g a).state q = (Automaton.ofGraph g a).states[q] := by
      simp [Automaton.state, Array.getD, hq]
    rw [← Automaton.toCore_state g a q, hstate]
    simp [Array.getD, hq]
  refine ⟨⟨by simp, fun q hq => by rw [hget q hq, List.length_map]⟩, fun q k i hq hi hpos t => ?_⟩
  have hrule : i.rule = RuleId.accept := by
    refine hpos.elim (fun hpos => ?_) id
    obtain ⟨γ, hγ⟩ := reach q hq
    have hmem := List.mem_of_getElem? hi
    rw [(h.reads_kernel hγ).2, ItemSet.mem_reached_iff_viable wf] at hmem
    obtain ⟨-, ⟨-, rfl⟩ | ⟨-, hlt⟩⟩ := hmem
    · rfl
    · omega
  have hempty : t ∉ KernelLookaheads.get (((Automaton.ofGraph g a).states.toList.map fun s =>
      s.kernel.map fun _ => (∅ : NatSet)).toArray) q k := by
    rw [get, hget q hq, List.getD_eq_getElem?_getD, List.getElem?_map, hi]
    simp
  exact ⟨fun ht => absurd ht hempty, fun ht => absurd hrule ht.1⟩

theorem filled_compute (h : a.OfItems g) (wf : g.WellFormed) (link : a.Linked)
    (reach : a.Reachable) : Filled g a (greatest ((Automaton.ofGraph g a).states.toList.flatMap
      fun s => s.kernel.map Item.position)) (compute g (.ofGraph g a)) := by
  have loop : ∀ n, Filled g a n ((List.range n).foldl
      (fun table n => fill g (.ofGraph g a) table (n + 1))
      (((Automaton.ofGraph g a).states.toList.map fun s => s.kernel.map fun _ => ∅).toArray)) := by
    intro n
    induction n with
    | zero => exact filled_start h reach wf
    | succ n ih =>
      rw [List.range_succ, List.foldl_append]
      exact filled_fill h wf link reach ih
  exact loop _

/-- **Lookaheads of kernel items are exact.** -/
theorem mem_get_iff (h : a.OfItems g) (wf : g.WellFormed) (link : a.Linked) (reach : a.Reachable)
    (hq : q < a.size) (hi : (a.core q).kernel[k]? = some i) :
    t ∈ (compute g (.ofGraph g a)).get q k ↔ Expected g a q i t := by
  refine (filled_compute h wf link reach).2 q k i hq hi (.inl (le_greatest ?_)) t
  rw [List.mem_flatMap]
  refine ⟨(Automaton.ofGraph g a).state q, ?_, ?_⟩
  · simp [Automaton.state, Array.getD, hq]
  · rw [Automaton.toCore_state]
    exact List.mem_map_of_mem (List.mem_of_getElem? hi)

/-- Only kernel items have lookaheads. -/
theorem lt_of_mem_get (hs : Shaped a table) (ht : t ∈ table.get q k) :
    q < a.size ∧ k < (a.core q).kernel.length := by
  have hq : q < a.size := by
    by_contra hge
    rw [get, Array.getD_eq_getD_getElem?,
      Array.getElem?_eq_none (by rw [hs.1]; exact Nat.le_of_not_lt hge)] at ht
    exact NatSet.not_mem_empty t ht
  refine ⟨hq, ?_⟩
  rw [← hs.2 q hq]
  by_contra hge
  rw [get, List.getD_eq_getElem?_getD, List.getElem?_eq_none (Nat.le_of_not_lt hge)] at ht
  exact NatSet.not_mem_empty t ht

/-- Only kernel items of rules other than the accepting one have lookaheads. -/
theorem exists_of_mem_get (h : a.OfItems g) (wf : g.WellFormed) (link : a.Linked)
    (reach : a.Reachable) (ht : t ∈ (compute g (.ofGraph g a)).get q k) :
    ∃ i, (a.core q).kernel[k]? = some i ∧ Expected g a q i t := by
  obtain ⟨hq, hk⟩ := lt_of_mem_get (filled_compute h wf link reach).1 ht
  have hi := List.getElem?_eq_getElem hk
  exact ⟨_, hi, (mem_get_iff h wf link reach hq hi).1 ht⟩

/-- **The lookaheads of a complete kernel item** are those of its reduction. -/
theorem get?_la_eq_get (h : a.OfItems g) (wf : g.WellFormed) (link : a.Linked) (reach : a.Reachable)
    (hq : q < a.size) (hi : (a.core q).kernel[k]? = some i) (hrule : i.rule ≠ RuleId.accept)
    (hpos : i.position = (g.rhs i.rule).length) :
    (Lookaheads.compute g a).la.get? ⟨q, i.rule⟩ = some ((compute g (.ofGraph g a)).get q k) := by
  obtain ⟨ρ, n⟩ := i
  obtain rfl : n = (g.rhs ρ).length := hpos
  have hitem : (⟨ρ, (g.rhs ρ).length⟩ : Item) ∈ (a.core q).items :=
    List.mem_append_left _ (List.mem_of_getElem? hi)
  have hkey := Lookaheads.mem_keys_la h wf reach hq hrule hitem
  obtain ⟨la, hla⟩ := Option.isSome_iff_exists.1 (OrderedMap.mem_keys_iff.1 hkey)
  rw [hla]
  congr 1
  refine NatSet.ext fun t => ?_
  rw [mem_get_iff h wf link reach hq hi, ← OrderedMap.getD_of_get? hla,
    Lookaheads.mem_la_iff h wf reach hq hitem]
  constructor
  · rintro ⟨γ, hγ, ht⟩
    exact ⟨hrule, γ ++ g.rhs ρ, hγ, γ, by rw [Item.before, List.take_length], ht⟩
  · rintro ⟨-, _, hγ, γ, rfl, ht⟩
    rw [Item.before, List.take_length] at hγ
    exact ⟨γ, hγ, ht⟩

end KernelLookaheads

/-! ## The sources of what follows, over all strings -/

/-- **What follows a transition** always follows it, or is a lookahead of one of
    the kernel items listed for it. -/
theorem Lookaheads.mem_follow_iff_sources {g : Grammar} {a : Graph} (h : a.OfItems g)
    (wf : g.WellFormed) (link : a.Linked) (reach : a.Reachable) {q : StateId} {A t : SymbolId}
    (hgoto : (⟨q, A⟩ : Goto) ∈ gotos g a) : t ∈ (compute g a).follow.getD ⟨q, A⟩ ∅ ↔
      t ∈ (GotoFollows.compute g (.ofGraph g a)).always.getD ⟨q, A⟩ ∅ ∨
      ∃ k ∈ (GotoFollows.compute g (.ofGraph g a)).kernelItems.getD ⟨q, A⟩ ∅,
        t ∈ (KernelLookaheads.compute g (.ofGraph g a)).get q k := by
  have hq := ((mem_gotos h).1 hgoto).1
  rw [mem_follow_iff h wf reach hgoto]
  constructor
  · rintro ⟨γ, hγ, ht⟩
    obtain halways | ⟨k, i, hk, hi, hrule, hahead⟩ := (GotoFollows.follows_iff h wf hγ hgoto).1 ht
    · exact .inl halways
    · exact .inr ⟨k, hk, (KernelLookaheads.mem_get_iff h wf link reach hq hi).2 ⟨hrule, γ, hγ, hahead⟩⟩
  · rintro (halways | ⟨k, hk, ht⟩)
    · obtain ⟨γ, hγ⟩ := reach q hq
      exact ⟨γ, hγ, (GotoFollows.follows_iff h wf hγ hgoto).2 (.inl halways)⟩
    · obtain ⟨i, hi, hrule, γ, hγ, hahead⟩ := KernelLookaheads.exists_of_mem_get h wf link reach ht
      exact ⟨γ, hγ, (GotoFollows.follows_iff h wf hγ hgoto).2 (.inr ⟨k, i, hk, hi, hrule, hahead⟩)⟩

namespace Automaton

/-- **What follows a transition splits into two parts.**  Each transition on a
    nonterminal has its follow set, its set of tokens that always follow, and the
    positions of kernel items of its state.  The first is the union of the second
    and the lookaheads of these kernel items. -/
theorem follow_splits {decls : List Declaration} {g : Grammar} (h : Grammar.define decls = .ok g)
    {p : StateId} (hp : p < (lalr g).states.size) {A : SymbolId} (hA : g.isTerminal A = false)
    (hnext : (((lalr g).state p).next? A).isSome) : ∃ follow always items,
      (lalr g).lookaheads.follow.get? ⟨p, A⟩ = some follow ∧
      (GotoFollows.compute g (lalr g)).always.get? ⟨p, A⟩ = some always ∧
      (GotoFollows.compute g (lalr g)).kernelItems.get? ⟨p, A⟩ = some items ∧
      (∀ k ∈ items, k < ((KernelLookaheads.compute g (lalr g)).getD p []).length) ∧
      follow = items.toList.foldl
        (fun la k => la ∪ (KernelLookaheads.compute g (lalr g)).get p k) always := by
  have wf := Grammar.wellFormed_of_define h
  have items := Lr0.ofItems_graph wf
  have link : (Lr0.graph g).Linked := Graph.linked_link _
  have reach := Lr0.reachable_graph wf
  rw [lalr, size_ofGraph] at hp
  rw [lalr, toCore_state, Option.isSome_iff_exists] at hnext
  have hgoto : (⟨p, A⟩ : Goto) ∈ Lookaheads.gotos g (Lr0.graph g) :=
    (Lookaheads.mem_gotos items).2 ⟨hp, hA, hnext⟩
  -- The three tables are solved over the same transitions.
  have solved : ∀ eqs : SetEquations Goto NatSet, ∃ v,
      (eqs.solve (Lookaheads.directReads g (Lr0.graph g)).keys).get? ⟨p, A⟩ = some v :=
    fun eqs => eqs.exists_get?_solve (Lookaheads.mem_keys_directReads.2 hgoto)
  obtain ⟨follow, hfollow⟩ : ∃ v, (lalr g).lookaheads.follow.get? ⟨p, A⟩ = some v := solved _
  obtain ⟨always, halways⟩ := solved (GotoFollows.alwaysEquations g (Lr0.graph g))
  obtain ⟨listed, hlisted⟩ := solved (GotoFollows.kernelEquations g (Lr0.graph g))
  rw [← GotoFollows.always_eq] at halways
  rw [← GotoFollows.kernelItems_eq] at hlisted
  refine ⟨follow, always, listed, hfollow, halways, hlisted, fun k hk => ?_, NatSet.ext fun t => ?_⟩
  · rw [← OrderedMap.getD_of_get? hlisted] at hk
    exact ((KernelLookaheads.filled_compute items wf link reach).1.2 p hp).symm ▸
      GotoFollows.kernelItems_lt wf hk
  · have hsources := Lookaheads.mem_follow_iff_sources items wf link reach hgoto (t := t)
    rw [OrderedMap.getD_of_get? halways, OrderedMap.getD_of_get? hlisted] at hsources
    rw [Lookaheads.mem_foldl_union]
    simp only [NatSet.mem_toList]
    rw [← OrderedMap.getD_of_get? hfollow]
    exact hsources

/-- After `D`, read behind `'p'`, comes `'g'` of its own rule, `'c'` of the rule
    around that, or the `'y'` which is a lookahead of the kernel item. -/
theorem follow_splits_nested : ∃ g, Grammar.define
      [.rule ⟨"S", ["'x'", "B", "'y'"], none, 1⟩, .rule ⟨"B", ["'p'", "A", "C"], none, 2⟩,
        .rule ⟨"C", [], none, 3⟩, .rule ⟨"C", ["'c'"], none, 4⟩,
        .rule ⟨"A", ["D", "G"], none, 5⟩, .rule ⟨"G", [], none, 6⟩,
        .rule ⟨"G", ["'g'"], none, 7⟩, .rule ⟨"D", ["'d'"], none, 8⟩] = .ok g ∧
    g.isTerminal 15 = false ∧ ∃ follow always items,
      (lalr g).lookaheads.follow.get? ⟨3, 15⟩ = some follow ∧ follow.toList = [4, 6, 7] ∧
      (GotoFollows.compute g (lalr g)).always.get? ⟨3, 15⟩ = some always ∧ always.toList = [6, 7] ∧
      (GotoFollows.compute g (lalr g)).kernelItems.get? ⟨3, 15⟩ = some items ∧ items.toList = [0] ∧
      (∀ k ∈ items, k < ((KernelLookaheads.compute g (lalr g)).getD 3 []).length) ∧
      follow = items.toList.foldl
        (fun la k => la ∪ (KernelLookaheads.compute g (lalr g)).get 3 k) always := by
  obtain ⟨g, hg, hcheck⟩ := Grammar.exists_define
    [.rule ⟨"S", ["'x'", "B", "'y'"], none, 1⟩, .rule ⟨"B", ["'p'", "A", "C"], none, 2⟩,
      .rule ⟨"C", [], none, 3⟩, .rule ⟨"C", ["'c'"], none, 4⟩,
      .rule ⟨"A", ["D", "G"], none, 5⟩, .rule ⟨"G", [], none, 6⟩,
      .rule ⟨"G", ["'g'"], none, 7⟩, .rule ⟨"D", ["'d'"], none, 8⟩] (fun g =>
      decide (3 < (lalr g).states.size ∧ g.isTerminal 15 = false ∧
        (((lalr g).state 3).next? 15).isSome ∧
        ((lalr g).lookaheads.follow.getD ⟨3, 15⟩ ∅).toList = [4, 6, 7] ∧
        ((GotoFollows.compute g (lalr g)).always.getD ⟨3, 15⟩ ∅).toList = [6, 7] ∧
        ((GotoFollows.compute g (lalr g)).kernelItems.getD ⟨3, 15⟩ ∅).toList = [0]))
    (by decide +kernel)
  obtain ⟨hp, hA, hnext, hfollow, halways, hitems⟩ := of_decide_eq_true hcheck
  obtain ⟨follow, always, items, hf, ha, hi, hlt, heq⟩ := follow_splits hg hp hA hnext
  rw [OrderedMap.getD_of_get? hf] at hfollow
  rw [OrderedMap.getD_of_get? ha] at halways
  rw [OrderedMap.getD_of_get? hi] at hitems
  exact ⟨g, hg, hA, follow, always, items, hf, hfollow, ha, halways, hi, hitems, hlt, heq⟩

/-- **Lookaheads of kernel items.**  A kernel item of a rule other than the accepting
    one has a lookahead set, with the terminals that follow the left-hand side of the
    rule where the rule was begun, on any way to the state.  All canonical LR(1)
    lookaheads of the item are among them, and if the grammar is grounded there are
    no others.  At the end of the rule it is the lookahead set of the reduction. -/
theorem kernel_lookaheads {decls : List Declaration} {g : Grammar} (h : Grammar.define decls = .ok g)
    {q : StateId} (hq : q < (lalr g).states.size) {k : Nat} {i : Item}
    (hi : ((lalr g).state q).kernel[k]? = some i) (hrule : i.rule ≠ RuleId.accept) :
    k < ((KernelLookaheads.compute g (lalr g)).getD q []).length ∧
    (∀ t, t ∈ (KernelLookaheads.compute g (lalr g)).get q k ↔
      ∃ γ, (lalr g).transition StateId.start (γ ++ i.before g) = .ok q ∧ g.Follows γ (i.lhs g) t) ∧
    (∀ t γ, (lalr g).transition StateId.start γ = .ok q → i.Valid g γ t →
      t ∈ (KernelLookaheads.compute g (lalr g)).get q k) ∧
    (g.Grounded → ∀ t, t ∈ (KernelLookaheads.compute g (lalr g)).get q k ↔
      ∃ γ, (lalr g).transition StateId.start γ = .ok q ∧ i.Valid g γ t) ∧
    (i.position = (g.rhs i.rule).length → (lalr g).lookaheads.la.get? ⟨q, i.rule⟩ =
      some ((KernelLookaheads.compute g (lalr g)).get q k)) := by
  have wf := Grammar.wellFormed_of_define h
  have items := Lr0.ofItems_graph wf
  have link : (Lr0.graph g).Linked := Graph.linked_link _
  have reach := Lr0.reachable_graph wf
  have transition : ∀ γ, (lalr g).transition StateId.start γ = .ok q ↔
      (Lr0.graph g).Reads StateId.start γ q := by
    intro γ; rw [transition_eq_ok_iff, lalr, graph_ofGraph]
  rw [lalr, size_ofGraph] at hq
  rw [lalr, toCore_state] at hi
  have expected : ∀ t, t ∈ (KernelLookaheads.compute g (lalr g)).get q k ↔
      KernelLookaheads.Expected g (Lr0.graph g) q i t :=
    fun t => KernelLookaheads.mem_get_iff items wf link reach hq hi
  have sound : ∀ t γ, (lalr g).transition StateId.start γ = .ok q → i.Valid g γ t →
      t ∈ (KernelLookaheads.compute g (lalr g)).get q k := fun t γ hγ hvalid =>
    (expected t).2 ⟨hrule, γ, (transition γ).1 hγ, wf.ahead_of_valid hrule hvalid⟩
  refine ⟨?_, fun t => ?_, sound, fun grounded t => ⟨fun ht => ?_, ?_⟩,
    KernelLookaheads.get?_la_eq_get items wf link reach hq hi hrule⟩
  · have hk := (List.getElem?_eq_some_iff.1 hi).1
    exact ((KernelLookaheads.filled_compute items wf link reach).1.2 q hq).symm ▸ hk
  · rw [expected]
    simp only [transition]
    constructor
    · rintro ⟨-, _, hγ, γ, rfl, ht⟩; exact ⟨γ, hγ, ht⟩
    · rintro ⟨γ, hγ, ht⟩; exact ⟨hrule, _, hγ, γ, rfl, ht⟩
  · obtain ⟨-, γ, hγ, hahead⟩ := (expected t).1 ht
    have hitem : i ∈ ((Lr0.graph g).core q).items :=
      List.mem_append_left _ (List.mem_of_getElem? hi)
    obtain ⟨hlt, hpos⟩ := ((items.mem_items_iff wf hγ).1 hitem).inRange wf
    exact ⟨γ, (transition γ).2 hγ, grounded.valid_of_ahead wf hlt hpos hahead⟩
  · rintro ⟨γ, hγ, hvalid⟩; exact sound t γ hγ hvalid

/-- In a grammar of nested pairs, a pair ends before the end marker or the end of the
    pair around it. -/
theorem kernel_lookaheads_nested : ∃ g, Grammar.define
      [.rule ⟨"S", ["'a'", "S", "'b'"], none, 1⟩, .rule ⟨"S", [], none, 2⟩] = .ok g ∧
    ((lalr g).state 5).kernel[0]? = some (⟨1, 3⟩ : Item) ∧
    ((KernelLookaheads.compute g (lalr g)).get 5 0).toList = [0, 4] ∧
    (∀ t, t ∈ (KernelLookaheads.compute g (lalr g)).get 5 0 ↔
      ∃ γ, (lalr g).transition StateId.start γ = .ok 5 ∧ Item.Valid g γ ⟨1, 3⟩ t) ∧
    (lalr g).lookaheads.la.get? ⟨5, 1⟩ =
      some ((KernelLookaheads.compute g (lalr g)).get 5 0) := by
  obtain ⟨g, hg, hcheck⟩ := Grammar.exists_define
    [.rule ⟨"S", ["'a'", "S", "'b'"], none, 1⟩, .rule ⟨"S", [], none, 2⟩] (fun g =>
      decide (5 < (lalr g).states.size ∧ ((lalr g).state 5).kernel[0]? = some (⟨1, 3⟩ : Item) ∧
        ((KernelLookaheads.compute g (lalr g)).get 5 0).toList = [0, 4] ∧
        (g.rhs 1).length = 3 ∧
        ∀ X, X < g.symbols.size → g.isNullable X = true ∨ (g.first X).isEmpty = false))
    (by decide +kernel)
  obtain ⟨hq, hi, htokens, hlength, hsymbols⟩ := of_decide_eq_true hcheck
  have grounded := (Grammar.wellFormed_of_define hg).grounded_of_forall hsymbols
  obtain ⟨-, -, -, canonical, reduction⟩ := kernel_lookaheads hg hq hi (by decide)
  exact ⟨g, hg, hi, htokens, canonical grounded, reduction hlength.symm⟩

/-- Without grounding a kernel item can have other lookaheads.  `C → C 'z'` derives
    no terminal string, so that `D → 'd'` is never valid; but `'t'` is read after `D`. -/
theorem kernel_lookaheads_ungrounded : ∃ g, Grammar.define
      [.rule ⟨"S", ["B", "C"], none, 1⟩, .rule ⟨"C", ["C", "'z'"], none, 2⟩,
        .rule ⟨"B", ["D", "'t'"], none, 3⟩, .rule ⟨"D", ["'d'"], none, 4⟩] = .ok g ∧
    ((lalr g).state 1).kernel[0]? = some (⟨4, 1⟩ : Item) ∧
    ¬ (4 ∈ (KernelLookaheads.compute g (lalr g)).get 1 0 ↔
      ∃ γ, (lalr g).transition StateId.start γ = .ok 1 ∧ Item.Valid g γ ⟨4, 1⟩ 4) := by
  obtain ⟨g, hg, hcheck⟩ := Grammar.exists_define
    [.rule ⟨"S", ["B", "C"], none, 1⟩, .rule ⟨"C", ["C", "'z'"], none, 2⟩,
      .rule ⟨"B", ["D", "'t'"], none, 3⟩, .rule ⟨"D", ["'d'"], none, 4⟩] (fun g =>
      decide (((lalr g).state 1).kernel[0]? = some (⟨4, 1⟩ : Item) ∧
        4 ∈ (KernelLookaheads.compute g (lalr g)).get 1 0 ∧
        ∀ r : Nat, r < 3 → ∀ n, n < (g.rhs r).length → ∀ r' : Nat, r' < g.rules.size →
          (g.rhs r)[n]? = some (g.lhs r') → r' < 3 ∨ Item.isBlind g ⟨r, n⟩ = true))
    (by decide +kernel)
  obtain ⟨hi, hla, hstep⟩ := of_decide_eq_true hcheck
  refine ⟨g, hg, hi, fun hiff => ?_⟩
  obtain ⟨γ, -, hvalid⟩ := hiff.1 hla
  have hlt : 4 < 3 := (Grammar.wellFormed_of_define hg).rule_of_valid (P := (· < 3)) (by decide)
    hstep hvalid
  exact absurd hlt (by decide)

end Automaton

end LRAutomata
