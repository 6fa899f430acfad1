/-
  Where a derivation shows the token of its conflict.

  Along a path to a reduction the token comes from behind some node of the spine: the
  origin is the lowest one such that the symbols after the next one can begin with the
  token (`Derivation.origin?`).  A right child is to derive the token there.

  * The builder gives a right child to no node but the lowest one whose symbol after
    the next one can itself begin with the token (`Counterexample.Grown`);
  * there the search for the token finds something just if the token surfaces, so the
    origin has the only right child just if the token surfaces behind it and the path
    turns into a rule at the start item (`Counterexample.traces_of_example`);
  * it does not where a symbol that can be empty stands before the token
    (`Counterexample.exists_not_showsOrigin`).

  The right-hand sides of the grammar are taken to fit the positions (`Item`).
-/
import LRAutomata.Proofs.Counterexample.Chains
import LRAutomata.Proofs.Counterexample.Precise

namespace LRAutomata

/-- The symbol after the next one can begin with the token. -/
def Item.readsNext (g : Grammar) (t : SymbolId) (i : Item) : Bool :=
  (i.nextNext? g).any fun X => t ∈ g.first X

namespace Derivation

/-- The nodes from the root down the left children. -/
def leftSpine : Derivation → List Derivation
  | leaf i => [leaf i]
  | node i l => node i l :: l.leftSpine
  | fork i l r => fork i l r :: l.leftSpine

/-- Of the nodes above the last one, the lowest one such that the symbols after the
    next one can begin with the token. -/
def origin? (g : Grammar) (t : SymbolId) (d : Derivation) : Option Derivation :=
  d.leftSpine.dropLast.reverse.find? fun e => t ∈ g.firstOfString (e.item.afterNext g)

/-- Of the nodes on the left spine just one has a right child, the origin of the token.
    The nodes below a node are smaller, so a node stands on the spine only once. -/
def ShowsOrigin (g : Grammar) (t : SymbolId) (d : Derivation) : Prop :=
  ∃ n, d.origin? g t = some n ∧ d.leftSpine.filter (fun e => e.right?.isSome) = [n]

instance (g : Grammar) (t : SymbolId) (d : Derivation) : Decidable (d.ShowsOrigin g t) :=
  match h : d.origin? g t with
  | none => .isFalse fun ⟨_, heq, _⟩ => by rw [h] at heq; cases heq
  | some n => decidable_of_iff (d.leftSpine.filter (fun e => e.right?.isSome) = [n])
      ⟨fun heq => ⟨n, h, heq⟩, fun ⟨_, hn, heq⟩ => by rw [h] at hn; cases hn; exact heq⟩

/-- The right child begins at the item of the node, with the dot moved on, and its left
    spine ends where the token stands after the dot. -/
def RightReads (g : Grammar) (t : SymbolId) (e : Derivation) : Prop :=
  ∀ r, e.right? = some r →
    r.item = e.item.advance ∧ ∃ i, r.spine.getLast? = some i ∧ i.next? g = some t

@[simp] theorem leftSpine_leaf (i : Item) : (leaf i).leftSpine = [leaf i] := rfl

@[simp] theorem right?_leaf (i : Item) : (leaf i).right? = none := rfl

theorem leftSpine_withRight_above (i : Item) (l : Derivation) (right : Option Derivation) :
    ((above i (some l)).withRight right).leftSpine = (above i (some l)).withRight right :: l.leftSpine := by
  cases right <;> rfl

theorem right?_withRight_above (i : Item) (l : Derivation) (right : Option Derivation) :
    ((above i (some l)).withRight right).right? = right := by
  cases right <;> rfl

theorem item_withRight (d : Derivation) (right : Option Derivation) : (d.withRight right).item = d.item := by
  cases d <;> cases right <;> rfl

end Derivation

/-! ## Tokens behind an item -/

namespace Item

variable {g : Grammar} {i : Item} {t : SymbolId}

theorem readsNext_iff : i.readsNext g t = true ↔ ∃ X, i.nextNext? g = some X ∧ t ∈ g.first X := by
  rw [readsNext]
  cases i.nextNext? g <;> simp

theorem begins_of_readsNext (h : i.readsNext g t = true) : t ∈ g.firstOfString (i.afterNext g) := by
  obtain ⟨X, hX, ht⟩ := readsNext_iff.1 h
  rw [← after_advance, after_eq_cons (i := i.advance) hX]
  exact First.mem_ofString_cons.2 (.inl ht)

theorem readsNext_of_surfaces (wf : g.WellFormed) (h : g.Surfaces t (i.afterNext g)) :
    i.readsNext g t = true := by
  cases hafter : i.afterNext g with
  | nil => rw [hafter] at h; cases h
  | cons X α =>
    rw [hafter] at h
    exact readsNext_iff.2 ⟨X, next?_of_after (i := i.advance) hafter, wf.mem_first_iff.2 h.begins⟩

theorem readsNext_of_isComplete (h : i.isComplete g = true) : i.readsNext g t = false := by
  have hnone : i.nextNext? g = none := List.getElem?_eq_none (by
    rw [of_decide_eq_true h]
    exact Nat.le_succ _)
  rw [readsNext, hnone]
  rfl

end Item

namespace Counterexample

open Automaton StateItem PathStep

variable {g : Grammar} {a : Automaton} {b : Graph} {path : List PathStep} {p : StateItem}
  {l : Derivation} {t X : SymbolId} {pending : Option SymbolId} {ups : List Derivation}

/-! ## One node -/

theorem grow_none (g : Grammar) (a : Automaton) (p : StateItem) (below : Option Derivation) :
    grow g a p below none = (.above p.item below, none) := rfl

theorem grow_of_not_readsNext (a : Automaton) (below : Option Derivation)
    (h : p.item.readsNext g t = false) :
    grow g a p below (some t) = (.above p.item below, some t) := by
  unfold grow
  cases hX : p.item.nextNext? g with
  | none => rfl
  | some X =>
    have ht : t ∉ g.first X := fun ht =>
      Bool.eq_false_iff.1 h (Item.readsNext_iff.2 ⟨X, hX, ht⟩)
    simp only [ht, if_false]

theorem grow_of_readsNext (a : Automaton) (below : Option Derivation)
    (h : p.item.readsNext g t = true) : grow g a p below (some t) =
      ((Derivation.above p.item below).withRight
        ((p.advance? g a).bind fun next => derivationOf? g a next t), none) := by
  obtain ⟨X, hX, ht⟩ := Item.readsNext_iff.1 h
  unfold grow
  simp only [hX, ht, if_true]

theorem growAlong_transition (below : Option Derivation) (p n : StateItem) (steps : List PathStep) :
    growAlong g a false below pending (.transition p n :: steps) =
      growAlong g a true (some (grow g a n below pending).1) (grow g a n below pending).2 steps := rfl

theorem growAlong_production (below : Option Derivation) (p n : StateItem) (steps : List PathStep) :
    growAlong g a false below pending (.production p n :: steps) =
      growAlong g a false (some (grow g a n below pending).1) (grow g a n below pending).2 steps := rfl

/-- A node above another one, grown while the token is pending or no longer is. -/
structure GrownNode (g : Grammar) (t : SymbolId) (i : Item) (l : Derivation)
    (pending pending' : Option SymbolId) (e : Derivation) : Prop where
  item_eq : e.item = i
  leftSpine_eq : e.leftSpine = e :: l.leftSpine
  rightReads : e.RightReads g t
  /-- The node that reads the token next has a right child if the token surfaces; then
      the token is pending no longer. -/
  right_cases : pending = some t ∧ pending' = none ∧ i.readsNext g t = true ∧
      (e.right?.isSome = true ↔ g.Surfaces t (i.afterNext g)) ∨
    pending' = pending ∧ e.right? = none ∧ (pending = some t → i.readsNext g t = false)

theorem grownNode_above (i : Item) (l : Derivation)
    (hreads : pending = some t → i.readsNext g t = false) :
    GrownNode g t i l pending pending (.above i (some l)) :=
  ⟨rfl, rfl, nofun, .inr ⟨rfl, rfl, hreads⟩⟩

theorem grownNode_grow (h : Complete g b) (wf : g.WellFormed) (ht : g.isTerminal t = true)
    (hp : p.Stands (ofGraph g b)) (hX : p.item.next? g = some X)
    (hpending : pending = none ∨ pending = some t) :
    GrownNode g t p.item l pending (grow g (ofGraph g b) p (some l) pending).2
      (grow g (ofGraph g b) p (some l) pending).1 := by
  rcases hpending with rfl | rfl
  · rw [grow_none]
    exact grownNode_above p.item l nofun
  · cases hreads : p.item.readsNext g t with
    | false =>
      rw [grow_of_not_readsNext _ _ hreads]
      exact grownNode_above p.item l fun _ => hreads
    | true =>
      obtain ⟨hlt, hi⟩ := Complete.stands_iff.1 hp
      obtain ⟨q, hq⟩ := (h.exists_next?_iff hlt).2 ⟨_, hi, hX⟩
      have hadvance := h.advance?_of_next hp hX hq
      rw [grow_of_readsNext _ _ hreads, hadvance, Option.bind_some]
      constructor
      case item_eq => exact Derivation.item_withRight _ _
      case leftSpine_eq => exact Derivation.leftSpine_withRight_above _ _ _
      case rightReads =>
        intro r hr
        rw [Derivation.right?_withRight_above] at hr
        rw [Derivation.item_withRight]
        exact derivationOf?_spec hr
      case right_cases =>
        refine .inl ⟨rfl, rfl, hreads, ?_⟩
        rw [Derivation.right?_withRight_above,
          isSome_derivationOf?_iff h wf (h.stands_of_advance? hp hadvance) ht]
        rfl

/-! ## Nodes along a path -/

/-- What grows along a path while the token is pending, or no longer is: nodes with
    these items, of which the lowest one that reads the token next has a right child if
    the token surfaces, and no other node has one. -/
structure Grown (g : Grammar) (t : SymbolId) (pending : Option SymbolId) (items : List Item)
    (ups : List Derivation) : Prop where
  items_eq : ups.map Derivation.item = items
  rightReads : ∀ e ∈ ups, e.RightReads g t
  shown : ∃ shown : Option Derivation, ups.filter (fun e => e.right?.isSome) = shown.toList ∧
    ∀ n, shown = some n ↔ pending = some t ∧
      ups.reverse.find? (fun e => e.item.readsNext g t) = some n ∧ g.Surfaces t (n.item.afterNext g)

theorem Grown.nil (g : Grammar) (t : SymbolId) (pending : Option SymbolId) : Grown g t pending [] [] :=
  ⟨rfl, nofun, none, rfl, by simp⟩

/-- One more node below those that grow later. -/
theorem Grown.snoc {i : Item} {items : List Item} {pending' : Option SymbolId} {e : Derivation}
    (he : GrownNode g t i l pending pending' e) (hups : Grown g t pending' items ups) :
    Grown g t pending (items ++ [i]) (ups ++ [e]) := by
  obtain ⟨rfl, hreads, shown, hfilter, hshown⟩ := hups
  refine ⟨by simp [he.item_eq], fun e' he' => ?_, ?_⟩
  · rcases List.mem_append.1 he' with he' | he'
    · exact hreads e' he'
    · exact List.mem_singleton.1 he' ▸ he.rightReads
  rw [List.reverse_append]
  rcases he.right_cases with ⟨rfl, rfl, hreads, hright⟩ | ⟨rfl, hright, hreads⟩
  · have hnone : shown = none := Option.eq_none_iff_forall_ne_some.2 fun n hn => by
      cases ((hshown n).1 hn).1
    subst hnone
    refine ⟨if e.right?.isSome then some e else none, ?_, fun n => ?_⟩
    · rw [List.filter_append, hfilter]
      cases hsome : e.right?.isSome <;> simp [hsome]
    · rw [List.reverse_singleton, List.singleton_append,
        List.find?_cons_of_pos (by rwa [he.item_eq]), Option.ite_none_right_eq_some, hright,
        and_iff_right rfl, and_comm]
      refine and_congr_right fun heq => ?_
      rw [← Option.some.inj heq, he.item_eq]
  · refine ⟨shown, ?_, fun n => ?_⟩
    · rw [List.filter_append, hfilter]
      simp [hright]
    · rw [hshown]
      refine and_congr_right fun hpending => ?_
      rw [List.reverse_singleton, List.singleton_append,
        List.find?_cons_of_neg (by rw [he.item_eq, hreads hpending]; exact Bool.false_ne_true)]

/-- The derivation `d` has grown above `l`: its left spine leads through nodes of the
    items `leads`, which have no right children, and then those of `items` to `l`. -/
def Rises (g : Grammar) (t : SymbolId) (pending : Option SymbolId) (leads items : List Item)
    (l d : Derivation) : Prop :=
  ∃ above ups, d.leftSpine = above ++ (ups ++ l.leftSpine) ∧ above.map Derivation.item = leads ∧
    (∀ e ∈ above, e.right? = none) ∧ Grown g t pending items ups

theorem Rises.refl (g : Grammar) (t : SymbolId) (pending : Option SymbolId) (d : Derivation) :
    Rises g t pending [] [] d d :=
  ⟨[], [], rfl, rfl, nofun, .nil g t pending⟩

theorem Rises.snoc {i : Item} {leads items : List Item} {pending' : Option SymbolId} {e d : Derivation}
    (h : Rises g t pending' leads items e d) (he : GrownNode g t i l pending pending' e) :
    Rises g t pending leads (items ++ [i]) l d := by
  obtain ⟨above, ups, hspine, habove, hnone, hups⟩ := h
  refine ⟨above, ups ++ [e], ?_, habove, hnone, .snoc he hups⟩
  rw [hspine, he.leftSpine_eq, List.append_assoc, List.singleton_append]

theorem GrownNode.pending_cases {i : Item} {pending' : Option SymbolId} {e : Derivation}
    (he : GrownNode g t i l pending pending' e) (h : pending = none ∨ pending = some t) :
    pending' = none ∨ pending' = some t := by
  rcases he.right_cases with ⟨-, hnone, -⟩ | ⟨heq, -⟩
  · exact .inl hnone
  · rwa [heq]

end Counterexample

namespace IsPath

open Automaton StateItem Counterexample PathStep

variable {g : Grammar} {b : Graph} {path : List PathStep} {p : StateItem} {t : SymbolId}

/-- A path leads to an item of a state. -/
theorem stands (hpath : IsPath g (ofGraph g b) path p) (h : Complete g b) (wf : g.WellFormed) :
    p.Stands (ofGraph g b) := by
  induction hpath with
  | start => exact h.stands_start wf
  | transition _ hX hq hkernel ih =>
    exact h.stands_of_advance? ih (advance?_eq_some_iff.2 ⟨_, hX, hq, rfl, hkernel⟩)
  | production _ _ _ hclosure ih => exact ⟨ih.1, List.mem_append_right _ hclosure⟩

/-- What grows along a path above a derivation: the start item, if the path begins with a
    transition, and the items from which its productions lead. -/
theorem exists_rises (hpath : IsPath g (ofGraph g b) path p) (h : Complete g b) (wf : g.WellFormed)
    (ht : g.isTerminal t = true) : ∀ (inside : Bool) (l : Derivation) (pending : Option SymbolId),
      (pending = none ∨ pending = some t) → (inside = false → ∃ X, p.item.next? g = some X) →
      ∃ d, growAlong g (ofGraph g b) inside (some l) pending path.reverse = some d ∧
        Rises g t pending (lead inside path) (turns path ++ if inside then [] else [p.item]) l d := by
  -- The last step is taken first: inside its rule it adds nothing, else its target.
  induction hpath with
  | start =>
    intro inside l pending hpending hnext
    cases inside
    · obtain ⟨X, hX⟩ := hnext rfl
      have grown := grownNode_grow h wf ht (h.stands_start wf) hX hpending (l := l)
      exact ⟨_, rfl, (Rises.refl g t _ _).snoc grown⟩
    · refine ⟨_, rfl, [.above Item.start (some l)], [], rfl, rfl, ?_, .nil g t pending⟩
      exact fun e he => List.mem_singleton.1 he ▸ rfl
  | @transition path p X q hpath hX hq hkernel ih =>
    intro inside l pending hpending hnext
    rw [lead_snoc inside hpath.ne_nil, turns_snoc_transition, List.reverse_append]
    cases inside
    · obtain ⟨Y, hY⟩ := hnext rfl
      have stands := (hpath.transition hX hq hkernel).stands h wf
      have grown := grownNode_grow h wf ht stands hY hpending (l := l)
      obtain ⟨d, hd, hrises⟩ := ih true _ _ (grown.pending_cases hpending) nofun
      rw [if_pos rfl, List.append_nil] at hrises
      exact ⟨d, hd, hrises.snoc grown⟩
    · exact ih true l pending hpending nofun
  | @production path p r hpath hr hX hclosure ih =>
    intro inside l pending hpending hnext
    rw [lead_snoc inside hpath.ne_nil, turns_snoc_production, List.reverse_append]
    cases inside
    · obtain ⟨Y, hY⟩ := hnext rfl
      have stands := (hpath.production hr hX hclosure).stands h wf
      have grown := grownNode_grow h wf ht stands hY hpending (l := l)
      obtain ⟨d, hd, hrises⟩ := ih false _ _ (grown.pending_cases hpending) fun _ => ⟨_, hX⟩
      exact ⟨d, hd, hrises.snoc grown⟩
    · rw [if_pos rfl, List.append_nil]
      exact ih false l pending hpending fun _ => ⟨_, hX⟩

/-- The derivation along a path to a complete item rises above the item, with the token
    pending. -/
theorem exists_rises_of_isComplete (hpath : IsPath g (ofGraph g b) path p) (h : Complete g b)
    (wf : g.WellFormed) (ht : g.isTerminal t = true) (hcomplete : p.item.isComplete g = true) :
    ∃ d, derivationAlong g (ofGraph g b) t path = some d ∧
      Rises g t (some t) (lead false path) (turns path) (.leaf p.item) d := by
  obtain ⟨step, hlast, hstep⟩ := hpath.exists_getLast?
  have leaf : ∀ {q : StateItem}, q.item.isComplete g = true →
      grow g (ofGraph g b) q none (some t) = (.leaf q.item, some t) := fun hq =>
    grow_of_not_readsNext _ none (Item.readsNext_of_isComplete hq)
  rw [derivationAlong, hlast, Option.bind_some, hstep, if_pos hcomplete]
  clear hlast hstep step
  cases hpath with
  | start =>
    rw [Item.isComplete, Item.start, wf.rhs_accept] at hcomplete
    cases hcomplete
  | @transition path p X q hpath hX hq hkernel =>
    obtain ⟨d, hd, hrises⟩ := hpath.exists_rises h wf ht true
      (.leaf p.item.advance) (some t) (.inr rfl) (fun h => Bool.noConfusion h)
    rw [lead_snoc false hpath.ne_nil, turns_snoc_transition, List.reverse_append]
    rw [if_pos rfl, List.append_nil] at hrises
    refine ⟨d, ?_, hrises⟩
    rw [← hd, List.reverse_singleton, List.singleton_append, growAlong_transition,
      leaf hcomplete]
  | @production path p r hpath hr hX hclosure =>
    obtain ⟨d, hd, hrises⟩ := hpath.exists_rises h wf ht false
      (.leaf ⟨r, 0⟩) (some t) (.inr rfl) fun _ => ⟨_, hX⟩
    rw [lead_snoc false hpath.ne_nil, turns_snoc_production, List.reverse_append]
    refine ⟨d, ?_, hrises⟩
    rw [← hd, List.reverse_singleton, List.singleton_append, growAlong_production,
      leaf hcomplete]

/-! ## Origins along a path -/

/-- Of the items of the accepting rule only the start item has a nonterminal after its dot. -/
theorem eq_start_of_accept (wf : g.WellFormed) {i : Item} {X : SymbolId} (hi : i.rule = RuleId.accept)
    (hX : i.next? g = some X) (hnonterminal : g.isTerminal X = false) : i = Item.start := by
  obtain ⟨r, n⟩ := i
  obtain rfl : r = RuleId.accept := hi
  rw [Item.next?, wf.rhs_accept] at hX
  rcases n with _ | _ | n
  · rfl
  · cases hX
    rw [wf.terminal_endMarker] at hnonterminal
    cases hnonterminal
  · cases hX

/-- Without productions a path stays in the accepting rule. -/
theorem rule_of_turns_eq_nil (hpath : IsPath g (ofGraph g b) path p) (hturns : turns path = []) :
    p.item.rule = RuleId.accept := by
  obtain ⟨i, rest, heq, hi⟩ := hpath.exists_turns_eq_cons
  rw [hturns, List.nil_append] at heq
  cases heq
  exact hi

/-- Where the start item stands above the items of a path, there are no productions, and
    if nothing follows, the path is past the start item. -/
theorem turns_of_lead (hpath : IsPath g (ofGraph g b) path p) (wf : g.WellFormed) :
    ∀ inside, lead inside path ≠ [] → turns path = [] ∧ (inside = false → p.item ≠ Item.start) := by
  induction hpath with
  | start =>
    intro inside hlead
    cases inside
    · exact absurd rfl hlead
    · exact ⟨rfl, nofun⟩
  | transition hpath _ _ _ ih =>
    intro inside hlead
    rw [lead_snoc inside hpath.ne_nil] at hlead
    rw [turns_snoc_transition]
    exact ⟨(ih true hlead).1, fun _ heq => absurd (congrArg Item.position heq) (Nat.succ_ne_zero _)⟩
  | production hpath hr hX _ ih =>
    intro inside hlead
    rw [lead_snoc inside hpath.ne_nil] at hlead
    obtain ⟨hturns, hne⟩ := ih false hlead
    exact absurd (eq_start_of_accept wf (hpath.rule_of_turns_eq_nil hturns) hX
      (wf.lhs_nonterminal hr)) (hne rfl)

/-- A path without productions is at the start item or reads first. -/
theorem readsFirst_of_turns (hpath : IsPath g (ofGraph g b) path p) (hturns : turns path = []) :
    path.length = 1 ∧ p.item = Item.start ∨ ReadsFirst path := by
  induction hpath with
  | start => exact .inl ⟨rfl, rfl⟩
  | @transition path p X q _ _ _ _ ih =>
    rw [turns_snoc_transition] at hturns
    refine .inr ?_
    rcases ih hturns with ⟨hlength, -⟩ | ⟨p', n, hget⟩
    · exact ⟨p, _, hlength ▸ List.getElem?_concat_length⟩
    · obtain ⟨hlt, -⟩ := List.getElem?_eq_some_iff.1 hget
      exact ⟨p', n, (List.getElem?_append_left hlt).trans hget⟩
  | production =>
    rw [turns_snoc_production] at hturns
    exact absurd hturns (by simp)

/-- A token that is carried along a path is the end marker, or comes from behind an item
    from which a production leads. -/
theorem exists_begins_of_mem_lookaheadAlong (hpath : IsPath g (ofGraph g b) path p)
    (wf : g.WellFormed) (ht : t ∈ lookaheadAlong g path) :
    turns path = [] ∧ t = SymbolId.endMarker ∨
      ∃ i ∈ turns path, t ∈ g.firstOfString (i.afterNext g) := by
  induction hpath with
  | start => exact .inl ⟨rfl, NatSet.mem_singleton.1 ht⟩
  | transition _ _ _ _ ih =>
    rw [lookaheadAlong_snoc] at ht
    rw [turns_snoc_transition]
    exact ih ht
  | @production path p r hpath hr hX _ ih =>
    rw [lookaheadAlong_snoc] at ht
    rw [turns_snoc_production]
    refine .inr ?_
    rcases (mem_preciseFollow wf).1 ht with hbegins | ⟨hvanishes, ht⟩
    · exact ⟨p.item, by simp, wf.mem_firstOfString_iff.2 hbegins⟩
    · rcases ih ht with ⟨hturns, -⟩ | ⟨i, hi, ht⟩
      · -- behind the start item there is the end marker, which does not vanish
        have hstart := eq_start_of_accept wf (hpath.rule_of_turns_eq_nil hturns) hX
          (wf.lhs_nonterminal hr)
        rw [hstart, Item.afterNext, Item.start, wf.rhs_accept] at hvanishes
        exact absurd hvanishes (wf.not_vanishes_terminal wf.terminal_endMarker)
      · exact ⟨i, List.mem_append_left _ hi, ht⟩

end IsPath

/-! ## Examples -/

namespace Counterexample

open Automaton PathStep

variable {g : Grammar} {b : Graph} {path : List PathStep} {p : StateItem} {t : SymbolId} {d : Derivation}

/-- At most one node has a right child, and a right child derives the token. -/
theorem Rises.rights {e : Item} {leads items : List Item}
    (h : Rises g t (some t) leads items (.leaf e) d) :
    (∀ e ∈ d.leftSpine, e.RightReads g t) ∧
      (d.leftSpine.filter fun e => e.right?.isSome).length ≤ 1 := by
  obtain ⟨above, ups, hspine, -, hnone, -, hreads, shown, hfilter, -⟩ := h
  have hreads_of_none : ∀ {e : Derivation}, e.right? = none → e.RightReads g t := by
    intro e he r hr
    rw [he] at hr
    cases hr
  have habove : above.filter (fun e => e.right?.isSome) = [] :=
    List.filter_eq_nil_iff.2 fun e he => by simp [hnone e he]
  rw [hspine, Derivation.leftSpine_leaf]
  constructor
  · intro e he
    rcases List.mem_append.1 he with he | he
    · exact hreads_of_none (hnone e he)
    · rcases List.mem_append.1 he with he | he
      · exact hreads e he
      · exact hreads_of_none (List.mem_singleton.1 he ▸ rfl)
  · rw [List.filter_append, habove, List.filter_append, hfilter]
    cases shown <;> simp

/-- Along a path that reads first, the token comes from behind the start item, and nothing
    is shown. -/
theorem Rises.of_lead {e : Item} (h : Rises g t (some t) [Item.start] [] (.leaf e) d)
    (wf : g.WellFormed) (ht : t = SymbolId.endMarker) :
    d.leftSpine.filter (fun e => e.right?.isSome) = [] ∧ ∃ n, d.origin? g t = some n := by
  obtain ⟨above, ups, hspine, habove, hnone, hups⟩ := h
  obtain rfl : ups = [] := List.map_eq_nil_iff.1 hups.items_eq
  obtain ⟨n, rfl, hn⟩ := List.map_eq_singleton_iff.1 habove
  rw [List.nil_append] at hspine
  have hright := hnone n List.mem_cons_self
  have hbegins : t ∈ g.firstOfString (n.item.afterNext g) := by
    rw [hn, Item.afterNext, Item.start, wf.rhs_accept]
    exact wf.mem_firstOfString_iff.2 ((wf.begins_terminal_iff wf.terminal_endMarker).2 ht)
  rw [hspine]
  constructor
  · simp [hright]
  · refine ⟨n, ?_⟩
    rw [Derivation.origin?, hspine]
    simp [hbegins]

/-- What is found by a weaker test is found by a stronger one that it passes. -/
theorem find?_eq_some_of_imp {α : Type} {l : List α} {x : α} {f f' : α → Bool}
    (himp : ∀ y, f' y = true → f y = true) (hfind : l.find? f = some x) (hx : f' x = true) :
    l.find? f' = some x := by
  obtain ⟨-, before, after, rfl, hbefore⟩ := List.find?_eq_some_iff_append.1 hfind
  refine List.find?_eq_some_iff_append.2 ⟨hx, before, after, rfl, fun y hy => ?_⟩
  have := hbefore y hy
  cases hf' : f' y
  · rfl
  · rw [himp y hf'] at this; cases this

/-- Along other paths the origin is the node that is shown, if the token surfaces. -/
theorem Rises.showsOrigin_iff {e : Item} {items : List Item}
    (h : Rises g t (some t) [] items (.leaf e) d) (wf : g.WellFormed)
    (hbegins : ∃ i ∈ items, t ∈ g.firstOfString (i.afterNext g)) :
    ∃ n, d.origin? g t = some n ∧ (d.ShowsOrigin g t ↔ g.Surfaces t (n.item.afterNext g)) := by
  obtain ⟨above, ups, hspine, habove, -, rfl, -, shown, hfilter, hshown⟩ := h
  obtain rfl : above = [] := List.map_eq_nil_iff.1 habove
  rw [List.nil_append, Derivation.leftSpine_leaf] at hspine
  have horigin : d.origin? g t =
      ups.reverse.find? fun e => t ∈ g.firstOfString (e.item.afterNext g) := by
    rw [Derivation.origin?, hspine, List.dropLast_concat]
  have hshows : d.leftSpine.filter (fun e => e.right?.isSome) = shown.toList := by
    rw [hspine, List.filter_append, hfilter]
    simp
  obtain ⟨i, hi, hbegins⟩ := hbegins
  obtain ⟨m, hm, rfl⟩ := List.mem_map.1 hi
  obtain ⟨n, hn⟩ : ∃ n, (ups.reverse.find? fun e =>
      decide (t ∈ g.firstOfString (e.item.afterNext g))) = some n :=
    Option.isSome_iff_exists.1 (List.find?_isSome.2
      ⟨m, List.mem_reverse.2 hm, decide_eq_true hbegins⟩)
  refine ⟨n, horigin.trans hn, ?_⟩
  constructor
  · rintro ⟨n', hn', hright⟩
    obtain rfl : n = n' := Option.some.inj ((horigin.trans hn).symm.trans hn')
    rw [hshows] at hright
    exact ((hshown n).1 (by cases shown <;> simp_all)).2.2
  · intro hsurfaces
    have hreads := Item.readsNext_of_surfaces wf hsurfaces
    have hfind := find?_eq_some_of_imp
      (fun y hy => decide_eq_true (Item.begins_of_readsNext hy)) hn hreads
    refine ⟨n, horigin.trans hn, ?_⟩
    rw [hshows, (hshown n).2 ⟨rfl, hfind, hsurfaces⟩]
    rfl

/-- What the derivation along a path to a reduction shows of the token: there is an origin;
    at most one node of the left spine has a right child, which leads to the token; and it
    is the origin that has one just if the token surfaces behind it and the path turns into
    a rule at the start item. -/
structure Traces (g : Grammar) (t : SymbolId) (path : List PathStep) (d : Derivation) : Prop where
  rightReads : ∀ e ∈ d.leftSpine, e.RightReads g t
  length_le_one : (d.leftSpine.filter fun e => e.right?.isSome).length ≤ 1
  origin : ∃ n, d.origin? g t = some n ∧
    (d.ShowsOrigin g t ↔ ¬ ReadsFirst path ∧ g.Surfaces t (n.item.afterNext g))

/-- The derivation along a path to a complete item that carries the token. -/
theorem traces_of_carries (h : Complete g b) (wf : g.WellFormed)
    (hpath : Carries g (ofGraph g b) p t path) (hcomplete : p.item.isComplete g = true)
    (hd : derivationAlong g (ofGraph g b) t path = some d) : Traces g t path d := by
  obtain ⟨hpath, htoken⟩ := hpath
  have horigin := hpath.exists_begins_of_mem_lookaheadAlong wf htoken
  have ht : g.isTerminal t = true := by
    rcases horigin with ⟨-, rfl⟩ | ⟨i, -, hbegins⟩
    · exact wf.terminal_endMarker
    · exact (wf.mem_firstOfString_iff.1 hbegins).1
  obtain ⟨d', hd', hrises⟩ := hpath.exists_rises_of_isComplete h wf ht hcomplete
  obtain rfl : d' = d := Option.some.inj (hd'.symm.trans hd)
  obtain ⟨hright, hlength⟩ := hrises.rights
  refine ⟨hright, hlength, ?_⟩
  rcases lead_cases path with ⟨hreads, hlead⟩ | ⟨hnot, hlead⟩
  · obtain ⟨hturns, -⟩ := hpath.turns_of_lead wf false (by rw [hlead]; exact List.cons_ne_nil _ _)
    rw [hlead, hturns] at hrises
    rw [hturns] at horigin
    have heq : t = SymbolId.endMarker := by
      rcases horigin with ⟨-, heq⟩ | ⟨i, hi, -⟩
      · exact heq
      · cases hi
    obtain ⟨hnone, n, hn⟩ := hrises.of_lead wf heq
    refine ⟨n, hn, iff_of_false ?_ fun h => h.1 hreads⟩
    rintro ⟨m, -, hm⟩
    rw [hnone] at hm
    cases hm
  · rw [hlead] at hrises
    have hturns : turns path ≠ [] := by
      intro hturns
      rcases hpath.readsFirst_of_turns hturns with ⟨-, heq⟩ | hreads
      · rw [heq, Item.isComplete, Item.start, wf.rhs_accept] at hcomplete
        cases hcomplete
      · exact hnot hreads
    obtain ⟨n, hn, hiff⟩ := hrises.showsOrigin_iff wf (horigin.resolve_left fun h => hturns h.1)
    exact ⟨n, hn, hiff.trans (and_iff_right hnot).symm⟩

/-- A path of an example is one of the search for a reduction, or leads to an item with
    the token after its dot. -/
theorem shortestPath?_or_isPath (h : Complete g b) (wf : g.WellFormed) {q : StateId} (hq : q < b.size)
    {c : Conflict} (hc : c ∈ ((ofGraph g b).state q).conflicts) {x : Counterexample}
    (hx : ofConflict? g (ofGraph g b) q c = some x) :
    ∀ path, (x.path₁ = some path ∨ x.path₂ = some path) →
      (∃ i, shortestPath? g (ofGraph g b) q i x.symbol = some path) ∨
        ∃ i, IsPath g (ofGraph g b) path ⟨q, i⟩ ∧ i.next? g = some x.symbol := by
  obtain ⟨x', hx', hshows⟩ := exists_ofConflict? h wf hq (h.collides wf hq hc)
  obtain rfl : x' = x := Option.some.inj (hx'.symm.trans hx)
  obtain ⟨token, htoken, rfl⟩ := Option.map_eq_some_iff.1 hx
  intro path hpath
  cases c with
  | shiftReduce t i =>
    cases htoken
    rcases hpath with hpath | hpath
    · obtain ⟨path₁, -, hpath₁, -, ⟨j, -, hnext, hj⟩, -⟩ := hshows.paths
      obtain rfl : path₁ = path := Option.some.inj (hpath₁.symm.trans hpath)
      exact .inr ⟨j, hj, hnext⟩
    · exact .inl ⟨i, hpath⟩
  | reduceReduce ts i₁ i₂ =>
    rcases hpath with hpath | hpath
    · exact .inl ⟨i₁, hpath⟩
    · exact .inl ⟨i₂, hpath⟩

/-- The derivations of an example are those along its paths. -/
theorem exists_path_of_mem_sides {q : StateId} {a : Automaton} {c : Conflict} {x : Counterexample}
    (hx : ofConflict? g a q c = some x) {side : Option (List PathStep) × Option Derivation}
    (hside : side ∈ x.sides) (hd : side.2 = some d) : ∃ path, side.1 = some path ∧
      (x.path₁ = some path ∨ x.path₂ = some path) ∧ derivationAlong g a x.symbol path = some d := by
  rw [eq_ofPaths_of_ofConflict? hx] at hside
  simp only [sides, ofPaths, List.mem_cons, List.not_mem_nil, or_false] at hside
  rcases hside with rfl | rfl
  · obtain ⟨path, hpath, hd⟩ := Option.bind_eq_some_iff.1 hd
    exact ⟨path, hpath, .inl hpath, hd⟩
  · obtain ⟨path, hpath, hd⟩ := Option.bind_eq_some_iff.1 hd
    exact ⟨path, hpath, .inr hpath, hd⟩

/-- **A derivation shows where the token comes from if the token surfaces.**  In every
    example, after every sequence of calls, the derivation along a path to a reduction has
    an origin of the token on its left spine, above the last node.  At most one node of the
    spine has a right child, which leads from the item of the node, with the dot moved on,
    to an item with the token after its dot.  The origin has it just if the token surfaces
    behind the origin and the path turns into a rule at the start item. -/
theorem traces_of_example {decls : List Declaration} (hg : Grammar.define decls = .ok g)
    (calls : List Call) {q : StateId} {examples : List Counterexample}
    (h : ofState g (after g calls) q = .ok examples) {x : Counterexample} (hx : x ∈ examples) :
    ∀ side ∈ x.sides, ∀ d, side.2 = some d → ∃ path, side.1 = some path ∧
      ∀ step, path.getLast? = some step → step.target.item.isComplete g = true →
        Traces g x.symbol path d := by
  have wf := Grammar.wellFormed_of_define hg
  obtain ⟨b, hb, -, hq, c, hc, hx⟩ := exists_conflict_of_mem_examples (built_after wf calls) h hx
  intro side hside d hd
  obtain ⟨path, hpath, hmem, hd⟩ := exists_path_of_mem_sides hx hside hd
  refine ⟨path, hpath, fun step hlast hcomplete => ?_⟩
  rcases shortestPath?_or_isPath hb wf hq hc hx path hmem with ⟨i, hi⟩ | ⟨i, hi, hnext⟩
  · obtain ⟨hcarries, -⟩ := carries_of_shortestPath? hb wf hi
    obtain ⟨step', hlast', hstep⟩ := hcarries.1.exists_getLast?
    obtain rfl : step' = step := Option.some.inj (hlast'.symm.trans hlast)
    exact traces_of_carries hb wf hcarries (hstep ▸ hcomplete) hd
  · obtain ⟨step', hlast', hstep⟩ := hi.exists_getLast?
    obtain rfl : step' = step := Option.some.inj (hlast'.symm.trans hlast)
    rw [hstep] at hcomplete
    obtain ⟨hlt, -⟩ := List.getElem?_eq_some_iff.1 hnext
    exact absurd (of_decide_eq_true hcomplete) (Nat.ne_of_lt hlt)

/-- After `'a'` there are two reductions on `'t'`, which stands behind `B` only after a
    symbol that is empty. -/
def hidden : List Declaration :=
  [.rule ⟨"S", ["A", "'t'"], none, 1⟩, .rule ⟨"S", ["B", "N", "'t'"], none, 2⟩,
    .rule ⟨"N", [], none, 3⟩, .rule ⟨"A", ["'a'"], none, 4⟩, .rule ⟨"B", ["'a'"], none, 5⟩]

/-- The theorem speaks of a derivation that shows where the token comes from, and of one
    that does not. -/
theorem traces_of_example_hidden : ∃ g, Grammar.define hidden = .ok g ∧
    ∃ examples, ofState g (after g [.lalr]) 1 = .ok examples ∧ ∃ x ∈ examples,
      x.sides.map (fun side => (lastItem? side.1).map fun i => i.isComplete g) =
        [some true, some true] ∧
      x.sides.map (fun side => side.2.map fun d => decide (d.ShowsOrigin g x.symbol)) =
        [some true, some false] ∧
      ∀ side ∈ x.sides, ∀ d, side.2 = some d → ∃ path, side.1 = some path ∧
        ∀ step, path.getLast? = some step → step.target.item.isComplete g = true →
          Traces g x.symbol path d := by
  obtain ⟨g, hg, hcheck⟩ := Grammar.exists_define hidden
    (fun g => ∃ x ∈ (ofState g (after g [.lalr]) 1).toOption.getD [],
      x.sides.map (fun side => (lastItem? side.1).map fun i => i.isComplete g) =
        [some true, some true] ∧
      x.sides.map (fun side => side.2.map fun d => decide (d.ShowsOrigin g x.symbol)) =
        [some true, some false]) (by decide +kernel)
  obtain ⟨x, hx, hcomplete, hshows⟩ := of_decide_eq_true hcheck
  obtain ⟨examples, hexamples, hx⟩ := exists_examples_of_mem hx
  exact ⟨g, hg, examples, hexamples, x, hx, hcomplete, hshows, traces_of_example hg _ hexamples hx⟩

/-- **A token that is not shown.**  Behind `B` the token can come, as `N` is empty; but the
    builder looks at `N` alone, and no node of the derivation has a right child. -/
theorem exists_not_showsOrigin : ∃ g, Grammar.define hidden = .ok g ∧
    ∃ examples, ofState g (after g [.lalr]) 1 = .ok examples ∧ ∃ x ∈ examples,
      lastItem? x.path₂ = some ⟨5, 1⟩ ∧ Item.isComplete g ⟨5, 1⟩ = true ∧
      x.derivation₂ = some (.node ⟨0, 0⟩ (.node ⟨2, 0⟩ (.leaf ⟨5, 1⟩))) ∧
      x.symbol ∈ g.firstOfString (Item.afterNext g ⟨2, 0⟩) ∧
      ¬ Derivation.ShowsOrigin g x.symbol (.node ⟨0, 0⟩ (.node ⟨2, 0⟩ (.leaf ⟨5, 1⟩))) := by
  obtain ⟨g, hg, hcheck⟩ := Grammar.exists_define hidden
    (fun g => ∃ x ∈ (ofState g (after g [.lalr]) 1).toOption.getD [],
      lastItem? x.path₂ = some ⟨5, 1⟩ ∧ Item.isComplete g ⟨5, 1⟩ = true ∧
      x.derivation₂ = some (.node ⟨0, 0⟩ (.node ⟨2, 0⟩ (.leaf ⟨5, 1⟩))) ∧
      x.symbol ∈ g.firstOfString (Item.afterNext g ⟨2, 0⟩) ∧
      ¬ Derivation.ShowsOrigin g x.symbol (.node ⟨0, 0⟩ (.node ⟨2, 0⟩ (.leaf ⟨5, 1⟩))))
    (by decide +kernel)
  obtain ⟨x, hx, hlast⟩ := of_decide_eq_true hcheck
  obtain ⟨examples, hexamples, hx⟩ := exists_examples_of_mem hx
  exact ⟨g, hg, examples, hexamples, x, hx, hlast⟩

end Counterexample

end LRAutomata
