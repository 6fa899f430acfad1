/-
  The left spine of a derivation along a path.

  The items from the root of a derivation down its left children are the start
  item, if the path begins with a transition, the items from which its productions
  lead, and its last item (`IsPath.exists_derivationAlong`).  So

  * the symbols before their dots spell the string along the path
    (`Counterexample.derivations_spell`);
  * each node derives the next one from the symbol after its dot, but not the start
    item that stands above an item of its own rule
    (`Counterexample.leftDerives_iff_of_example`).

  The right-hand sides of the grammar are taken to fit the positions (`Item`).
-/
import Mathlib.Data.List.Chain
import LRAutomata.Proofs.Counterexample.Example

namespace LRAutomata

/-- The nonterminal after the dot is the left-hand side of the other item. -/
def Item.Derives (g : Grammar) (i j : Item) : Prop :=
  i.next? g = some (j.lhs g) ∧ g.isTerminal (j.lhs g) = false

instance (g : Grammar) (i j : Item) : Decidable (i.Derives g j) :=
  inferInstanceAs (Decidable (_ ∧ _))

/-! ## Spines -/

namespace Derivation

/-- The items from the root down the left children. -/
def spine : Derivation → List Item
  | leaf i => [i]
  | node i l | fork i l _ => i :: l.spine

/-- Every node on the left spine that has a left child has a nonterminal after its
    dot, of which the left child begins or continues a rule. -/
def LeftDerives (g : Grammar) : Derivation → Prop
  | leaf _ => True
  | node i l | fork i l _ => i.Derives g l.item ∧ l.LeftDerives g

instance decidableLeftDerives (g : Grammar) : (d : Derivation) → Decidable (d.LeftDerives g)
  | leaf _ => .isTrue trivial
  | node _ l | fork _ l _ => @instDecidableAnd _ _ _ (decidableLeftDerives g l)

variable {g : Grammar} {i : Item} {below : Option Derivation}

theorem head?_spine (d : Derivation) : d.spine.head? = some d.item := by
  cases d <;> rfl

theorem leftDerives_iff (d : Derivation) : d.LeftDerives g ↔ d.spine.IsChain (Item.Derives g) := by
  induction d with
  | leaf => simp [LeftDerives, spine]
  | node i l ih | fork i l r ih =>
    rw [LeftDerives, spine, List.isChain_cons, head?_spine, ih]
    simp

theorem spine_above : (above i below).spine = i :: below.elim [] spine := by
  cases below <;> rfl

theorem spine_withRight (d : Derivation) (right : Option Derivation) :
    (d.withRight right).spine = d.spine := by
  cases d <;> cases right <;> rfl

end Derivation

theorem Counterexample.spine_grow (g : Grammar) (a : Automaton) (p : StateItem)
    (below : Option Derivation) (pending : Option SymbolId) :
    (grow g a p below pending).1.spine = p.item :: below.elim [] Derivation.spine := by
  rw [← Derivation.spine_above]
  unfold grow
  dsimp only
  split
  · split
    · exact Derivation.spine_withRight _ _
    · rfl
  · rfl

/-! ## Spines along a path -/

namespace PathStep

/-- The items from which the productions of a path lead. -/
def turns (path : List PathStep) : List Item :=
  path.filterMap fun step =>
    match step with
    | .production p _ => some p.item
    | .start _ | .transition .. => none

/-- The start item, if the first step after that to the start item is a transition.
    Of a path that is only the step to the start item, `inside` tells whether a
    transition follows. -/
def lead : (inside : Bool) → List PathStep → List Item
  | _, [] => []
  | inside, [_] => if inside then [Item.start] else []
  | _, _ :: step :: _ => if step.isTransition then [Item.start] else []

/-- The first move of the path is a transition. -/
def ReadsFirst (path : List PathStep) : Prop :=
  ∃ p n, path[1]? = some (.transition p n)

/-- The items on the spine of the derivation along a path to the item.  If the path
    goes on `inside` the rule of its last item, this item is not one of them. -/
def spineAlong (inside : Bool) (path : List PathStep) (p : StateItem) : List Item :=
  lead inside path ++ turns path ++ if inside then [] else [p.item]

variable {path : List PathStep} {p n : StateItem}

theorem lead_snoc (inside : Bool) (hpath : path ≠ []) (step : PathStep) :
    lead inside (path ++ [step]) = lead step.isTransition path := by
  match path with
  | [] => exact absurd rfl hpath
  | [_] | _ :: _ :: _ => rfl

theorem lead_cases (path : List PathStep) :
    ReadsFirst path ∧ lead false path = [Item.start] ∨ ¬ ReadsFirst path ∧ lead false path = [] := by
  match path with
  | [] | [_] => exact .inr ⟨by simp [ReadsFirst], rfl⟩
  | _ :: .transition p n :: _ => exact .inl ⟨⟨p, n, rfl⟩, rfl⟩
  | _ :: .start _ :: _ | _ :: .production .. :: _ => exact .inr ⟨by simp [ReadsFirst], rfl⟩

theorem turns_snoc_transition : turns (path ++ [transition p n]) = turns path := by
  simp [turns]

theorem turns_snoc_production : turns (path ++ [production p n]) = turns path ++ [p.item] := by
  simp [turns]

theorem spineAlong_snoc_transition (inside : Bool) (hpath : path ≠ []) :
    spineAlong inside (path ++ [transition p n]) n =
      spineAlong true path p ++ if inside then [] else [n.item] := by
  rw [spineAlong, lead_snoc inside hpath, turns_snoc_transition, spineAlong, if_pos rfl,
    List.append_nil]
  rfl

theorem spineAlong_snoc_production (inside : Bool) (hpath : path ≠ []) :
    spineAlong inside (path ++ [production p n]) n =
      spineAlong false path p ++ if inside then [] else [n.item] := by
  rw [spineAlong, lead_snoc inside hpath, turns_snoc_production, ← List.append_assoc]
  rfl

end PathStep

namespace IsPath

open Automaton Counterexample PathStep

variable {g : Grammar} {a : Automaton} {path : List PathStep} {p : StateItem}

theorem ne_nil (h : IsPath g a path p) : path ≠ [] := by
  cases h <;> simp

theorem exists_getLast? (h : IsPath g a path p) : ∃ step, path.getLast? = some step ∧ step.target = p := by
  cases h <;> simp [target]

/-- What grows along a path has these items on its spine, above what was there. -/
theorem exists_growAlong (h : IsPath g a path p) : ∀ inside below pending, ∃ d,
    growAlong g a inside below pending path.reverse = some d ∧
      d.spine = spineAlong inside path p ++ below.elim [] Derivation.spine := by
  -- The last step is taken first: inside its rule it adds nothing, else its target.
  induction h with
  | start =>
    intro inside below pending
    cases inside
    · exact ⟨_, rfl, spine_grow ..⟩
    · exact ⟨_, rfl, Derivation.spine_above⟩
  | @transition path p X q hpath _ _ _ ih =>
    intro inside below pending
    rw [spineAlong_snoc_transition inside hpath.ne_nil, List.reverse_append]
    cases inside
    · let grown := grow g a ⟨q, p.item.advance⟩ below pending
      obtain ⟨d, hd, hspine⟩ := ih true (some grown.1) grown.2
      exact ⟨d, hd, by simp [hspine, grown, spine_grow]⟩
    · rw [if_pos rfl, List.append_nil]
      exact ih true below pending
  | @production path p r hpath _ _ _ ih =>
    intro inside below pending
    rw [spineAlong_snoc_production inside hpath.ne_nil, List.reverse_append]
    cases inside
    · let grown := grow g a ⟨p.state, ⟨r, 0⟩⟩ below pending
      obtain ⟨d, hd, hspine⟩ := ih false (some grown.1) grown.2
      exact ⟨d, hd, by simp [hspine, grown, spine_grow]⟩
    · rw [if_pos rfl, List.append_nil]
      exact ih false below pending

/-- A path has a derivation, with these items on its spine. -/
theorem exists_derivationAlong (h : IsPath g a path p) (token : SymbolId) : ∃ d,
    derivationAlong g a token path = some d ∧ d.spine = spineAlong false path p := by
  obtain ⟨step, hlast, -⟩ := h.exists_getLast?
  obtain ⟨d, hd, hspine⟩ := h.exists_growAlong false none
    (if step.target.item.isComplete g then some token else none)
  refine ⟨d, ?_, by simpa using hspine⟩
  rw [derivationAlong, hlast]
  exact hd

/-! ## Roots, strings and chains -/

/-- The spine begins with the start item. -/
theorem head?_spineAlong (h : IsPath g a path p) :
    ∀ inside, (spineAlong inside path p).head? = some Item.start := by
  induction h with
  | start => intro inside; cases inside <;> rfl
  | transition hpath _ _ _ ih =>
    intro inside
    rw [spineAlong_snoc_transition inside hpath.ne_nil, List.head?_append, ih]
    rfl
  | production hpath _ _ _ ih =>
    intro inside
    rw [spineAlong_snoc_production inside hpath.ne_nil, List.head?_append, ih]
    rfl

/-- The symbols before the dots are those along the path. -/
theorem flatMap_before_turns (h : IsPath g a path p) :
    (turns path).flatMap (Item.before g) ++ p.item.before g = word g path := by
  induction h with
  | start => rfl
  | transition _ hX _ _ ih =>
    rw [turns_snoc_transition, word_snoc_transition hX, Item.before_advance hX, ← List.append_assoc, ih]
  | production _ _ _ _ ih =>
    rw [turns_snoc_production, word_snoc_production, List.flatMap_append, ← ih]
    simp [Item.before]

/-- Each item from which a production leads derives the next one. -/
theorem isChain_turns (h : IsPath g a path p) (wf : g.WellFormed) :
    (turns path ++ [p.item]).IsChain (Item.Derives g) := by
  induction h with
  | start => exact List.isChain_singleton _
  | transition _ _ _ _ ih =>
    -- The dot moves on in the same rule, so the left-hand side stays.
    rw [turns_snoc_transition]
    obtain ⟨hturns, -, hlast⟩ := List.isChain_append.1 ih
    exact List.isChain_append.2 ⟨hturns, List.isChain_singleton _, by
      simpa [Item.Derives, Item.lhs, Item.advance] using hlast⟩
  | production _ hr hnext _ ih =>
    rw [turns_snoc_production, List.append_assoc]
    exact List.isChain_append_cons_cons.2
      ⟨ih, ⟨hnext, wf.lhs_nonterminal hr⟩, List.isChain_singleton _⟩

/-- The first item from which a production leads is of the accepting rule. -/
theorem exists_turns_eq_cons (h : IsPath g a path p) : ∃ i rest,
    turns path ++ [p.item] = i :: rest ∧ i.rule = RuleId.accept := by
  induction h with
  | start => exact ⟨_, [], rfl, rfl⟩
  | @transition path p _ _ _ _ _ _ ih =>
    rw [turns_snoc_transition]
    obtain ⟨i, rest, heq, hi⟩ := ih
    cases hturns : turns path with
    | nil =>
      rw [hturns] at heq
      cases heq
      exact ⟨_, [], rfl, hi⟩
    | cons j turns =>
      rw [hturns] at heq
      cases heq
      exact ⟨_, _, rfl, hi⟩
  | production _ _ _ _ ih =>
    rw [turns_snoc_production]
    obtain ⟨i, rest, heq, hi⟩ := ih
    exact ⟨i, _, by rw [heq]; rfl, hi⟩

/-- Along a complete graph the states entered tell the string. -/
theorem map_accessing_entered {b : Graph} (h : IsPath g (ofGraph g b) path p) (hb : Complete g b) :
    (entered path).map (fun q => (b.core q).accessing) = (word g path).map some := by
  induction h with
  | start => rfl
  | @transition path p X q hpath hX hq _ ih =>
    have hreads := hpath.reads_word
    rw [graph_ofGraph] at hreads
    rw [toCore_state] at hq
    have hlt := (hb.reads_kernel hreads).1
    obtain ⟨e, he, rfl, rfl⟩ := (hb.next?_eq_some_iff hlt).1 hq
    rw [entered_append, word_snoc_transition hX, List.map_append, List.map_append, ih]
    exact congrArg (_ ++ [·]) (hb.accessing_target hlt e he)
  | production _ _ _ _ ih =>
    rw [entered_append, word_snoc_production, List.map_append, ih]
    exact List.append_nil _

end IsPath

/-! ## Examples -/

namespace Counterexample

open Automaton PathStep

variable {g : Grammar} {a : Automaton} {path : List PathStep} {d : Derivation}

/-- The derivation has the spine of the path. -/
def Along (g : Grammar) (a : Automaton) (path : List PathStep) (d : Derivation) : Prop :=
  ∃ p, IsPath g a path p ∧ d.spine = spineAlong false path p

/-- The left spine leads from the start item to the last item of the path, and the
    symbols before its dots are those along the path. -/
structure Spells (g : Grammar) (path : List PathStep) (d : Derivation) : Prop where
  root : d.item = Item.start
  last : d.spine.getLast? = path.getLast?.map fun step => step.target.item
  word : d.spine.flatMap (Item.before g) = PathStep.word g path

theorem Along.spells (h : Along g a path d) : Spells g path d := by
  obtain ⟨p, h, hspine⟩ := h
  constructor
  case root =>
    have hhead := h.head?_spineAlong false
    rw [← hspine, Derivation.head?_spine] at hhead
    exact Option.some.inj hhead
  case last =>
    obtain ⟨step, hlast, rfl⟩ := h.exists_getLast?
    rw [hspine, hlast, spineAlong, if_neg Bool.false_ne_true, List.getLast?_concat]
    rfl
  case word =>
    have hlead : (lead false path).flatMap (Item.before g) = [] := by
      rcases lead_cases path with ⟨-, heq⟩ | ⟨-, heq⟩ <;> rw [heq] <;> rfl
    rw [hspine, spineAlong, List.append_assoc, List.flatMap_append, hlead, List.nil_append,
      List.flatMap_append, if_neg Bool.false_ne_true, List.flatMap_singleton]
    exact h.flatMap_before_turns

/-- The start item derives items of the accepting rule only where the accepting symbol
    is the start symbol. -/
theorem start_derives_iff (wf : g.WellFormed) {i : Item} (hi : i.rule = RuleId.accept) :
    Item.start.Derives g i ↔ g.start = g.accept := by
  have hnext : Item.start.next? g = some g.start := by
    rw [Item.next?, Item.start, wf.rhs_accept]; rfl
  rw [Item.Derives, hnext, Item.lhs, hi, Option.some_inj,
    and_iff_left (wf.lhs_nonterminal wf.accept_lt)]
  rfl

/-- Below the root each node derives the next one, and so does the root, unless the
    first move of the path is a transition. -/
theorem Along.leftDerives (h : Along g a path d) (wf : g.WellFormed) :
    (∀ l, d.left? = some l → l.LeftDerives g) ∧
      (d.LeftDerives g ↔ (ReadsFirst path → g.start = g.accept)) := by
  obtain ⟨p, h, hspine⟩ := h
  have hchain := h.isChain_turns wf
  rw [spineAlong, if_neg Bool.false_ne_true, List.append_assoc] at hspine
  have below : ∀ l, d.left? = some l → l.spine = d.spine.tail := by
    intro l hl
    cases d <;> cases hl <;> rfl
  simp only [Derivation.leftDerives_iff]
  rcases lead_cases path with ⟨hreads, hlead⟩ | ⟨hnot, hlead⟩
  · rw [hlead] at hspine
    refine ⟨fun l hl => by rwa [below l hl, hspine], ?_⟩
    obtain ⟨i, rest, heq, hi⟩ := h.exists_turns_eq_cons
    rw [heq] at hchain hspine
    rw [hspine, List.singleton_append, List.isChain_cons_cons, start_derives_iff wf hi,
      and_iff_left hchain]
    exact ⟨fun hstart _ => hstart, fun hstart => hstart hreads⟩
  · rw [hlead, List.nil_append] at hspine
    rw [← hspine] at hchain
    exact ⟨fun l hl => by rw [below l hl]; exact hchain.tail, fun _ hreads => absurd hreads hnot,
      fun _ => hchain⟩

/-- The paths of an example with their derivations. -/
def sides (x : Counterexample) : List (Option (List PathStep) × Option Derivation) :=
  [(x.path₁, x.derivation₁), (x.path₂, x.derivation₂)]

theorem LeadTo.exists_isPath {q : StateId} {path₁ path₂ : List PathStep} {c : Conflict}
    (h : LeadTo g a q path₁ path₂ c) : (∃ p, IsPath g a path₁ p) ∧ ∃ p, IsPath g a path₂ p := by
  cases c with
  | shiftReduce =>
    obtain ⟨⟨i, -, -, h₁⟩, h₂, -⟩ := h
    exact ⟨⟨_, h₁⟩, _, h₂⟩
  | reduceReduce => exact ⟨⟨_, h.1⟩, _, h.2⟩

theorem eq_ofPaths_of_ofConflict? {q : StateId} {c : Conflict} {x : Counterexample}
    (h : ofConflict? g a q c = some x) : x = ofPaths g a x.conflict x.symbol x.path₁ x.path₂ := by
  obtain ⟨token, -, rfl⟩ := Option.map_eq_some_iff.1 h
  cases c <;> rfl

/-- Only a state that exists has examples. -/
theorem exists_examples_of_mem {q : StateId} {x : Counterexample}
    (hx : x ∈ (ofState g a q).toOption.getD []) :
    ∃ examples, ofState g a q = .ok examples ∧ x ∈ examples := by
  cases h : ofState g a q with
  | error e => rw [h] at hx; cases hx
  | ok examples => rw [h] at hx; exact ⟨examples, rfl, hx⟩

/-- The examples of an automaton that was built are those of conflicts in a complete
    graph. -/
theorem exists_conflict_of_mem_examples (hbuilt : Built g a) {q : StateId}
    {examples : List Counterexample} (h : ofState g a q = .ok examples) {x : Counterexample}
    (hx : x ∈ examples) : ∃ b, Complete g b ∧ a = ofGraph g b ∧ q < b.size ∧
      ∃ c ∈ ((ofGraph g b).state q).conflicts, ofConflict? g (ofGraph g b) q c = some x := by
  cases hbuilt with
  | empty => cases h
  | @ofGraph b hb =>
    rw [ofState] at h
    split at h <;> cases h
    rename_i s hs
    obtain ⟨hq, -⟩ := Array.getElem?_eq_some_iff.1 hs
    obtain ⟨c, hc, hx⟩ := List.mem_filterMap.1 hx
    refine ⟨b, hb, rfl, by rwa [size_ofGraph] at hq, c, ?_, hx⟩
    rwa [state, Array.getD_eq_getD_getElem?, hs]

/-- The examples of an automaton that was built show conflicts of a complete graph. -/
theorem exists_shows_of_mem_examples (hbuilt : Built g a) (wf : g.WellFormed) {q : StateId}
    {examples : List Counterexample} (h : ofState g a q = .ok examples) {x : Counterexample}
    (hx : x ∈ examples) : ∃ b, Complete g b ∧ a = ofGraph g b ∧ Shows g a q x.conflict x ∧
      x = ofPaths g a x.conflict x.symbol x.path₁ x.path₂ := by
  obtain ⟨b, hb, rfl, hlt, c, hc, hx⟩ := exists_conflict_of_mem_examples hbuilt h hx
  obtain ⟨x', hx', hshows⟩ := exists_ofConflict? hb wf hlt (hb.collides wf hlt hc)
  obtain rfl : x' = x := Option.some.inj (hx'.symm.trans hx)
  rw [← hshows.conflict_eq] at hshows
  exact ⟨b, hb, rfl, hshows, eq_ofPaths_of_ofConflict? hx⟩

/-- Both paths of an example have derivations along them; to a shift and a reduction
    they read the same string. -/
theorem exists_along_of_mem_examples (hbuilt : Built g a) (wf : g.WellFormed) {q : StateId}
    {examples : List Counterexample} (h : ofState g a q = .ok examples) {x : Counterexample}
    (hx : x ∈ examples) : ∃ path₁ d₁ path₂ d₂,
      x.sides = [(some path₁, some d₁), (some path₂, some d₂)] ∧
      Along g a path₁ d₁ ∧ Along g a path₂ d₂ ∧
      ∀ t i, x.conflict = .shiftReduce t i → word g path₁ = word g path₂ := by
  obtain ⟨b, hb, rfl, hshows, hofPaths⟩ := exists_shows_of_mem_examples hbuilt wf h hx
  obtain ⟨path₁, path₂, hpath₁, hpath₂, hlead⟩ := hshows.paths
  obtain ⟨⟨p₁, h₁⟩, p₂, h₂⟩ := hlead.exists_isPath
  obtain ⟨d₁, hd₁, hspine₁⟩ := h₁.exists_derivationAlong x.symbol
  obtain ⟨d₂, hd₂, hspine₂⟩ := h₂.exists_derivationAlong x.symbol
  refine ⟨path₁, d₁, path₂, d₂, ?_, ⟨p₁, h₁, hspine₁⟩, ⟨p₂, h₂, hspine₂⟩, fun t i hconflict => ?_⟩
  · rw [hofPaths, hpath₁, hpath₂]
    simp [sides, ofPaths, hd₁, hd₂]
  · rw [hconflict] at hlead
    obtain ⟨-, -, hentered⟩ := hlead
    have hword := h₁.map_accessing_entered hb
    rw [hentered, h₂.map_accessing_entered hb] at hword
    exact (List.map_injective_iff.2 (Option.some_injective _) hword).symm

/-- **Derivations spell their paths.**  In every example, after every sequence of
    calls, each path has a derivation, whose left spine leads from the start item to
    the last item of the path, and spells the string along it; the derivations of a
    shift and a reduction spell the same string. -/
theorem derivations_spell {decls : List Declaration} (hg : Grammar.define decls = .ok g)
    (calls : List Call) {q : StateId} {examples : List Counterexample}
    (h : ofState g (after g calls) q = .ok examples) {x : Counterexample} (hx : x ∈ examples) :
    (∀ side ∈ x.sides, ∀ path, side.1 = some path → ∃ d, side.2 = some d ∧ Spells g path d) ∧
    ∀ t i, x.conflict = .shiftReduce t i → ∀ d₁ d₂, x.derivation₁ = some d₁ →
      x.derivation₂ = some d₂ →
      d₁.spine.flatMap (Item.before g) = d₂.spine.flatMap (Item.before g) := by
  have wf := Grammar.wellFormed_of_define hg
  obtain ⟨path₁, d₁, path₂, d₂, hsides, h₁, h₂, hwords⟩ :=
    exists_along_of_mem_examples (built_after wf calls) wf h hx
  constructor
  · rw [hsides]
    simp only [List.mem_cons, List.not_mem_nil, or_false]
    rintro side (rfl | rfl) path ⟨⟩
    · exact ⟨d₁, rfl, h₁.spells⟩
    · exact ⟨d₂, rfl, h₂.spells⟩
  · intro t i hconflict e₁ e₂ he₁ he₂
    simp only [sides, he₁, he₂, List.cons.injEq, Prod.mk.injEq, Option.some.injEq] at hsides
    obtain ⟨⟨-, rfl⟩, ⟨-, rfl⟩, -⟩ := hsides
    rw [h₁.spells.word, h₂.spells.word]
    exact hwords t i hconflict

/-- The theorem speaks of the two conditionals to which an `'e'` can belong. -/
theorem derivations_spell_dangling : ∃ g, Grammar.define
      [.rule ⟨"S", ["'i'", "S", "'e'", "S"], none, 1⟩, .rule ⟨"S", ["'i'", "S"], none, 2⟩,
        .rule ⟨"S", ["'x'"], none, 3⟩] = .ok g ∧
    ∃ examples, ofState g (after g [.lalr, .split]) 9 = .ok examples ∧ ∃ x ∈ examples,
      x.conflict = .shiftReduce 4 ⟨2, 2⟩ ∧
      x.sides.map (fun side => side.2.map Derivation.spine) =
        [some [⟨0, 0⟩, ⟨1, 1⟩, ⟨1, 2⟩], some [⟨0, 0⟩, ⟨1, 1⟩, ⟨2, 2⟩]] ∧
      (∀ side ∈ x.sides, ∀ path, side.1 = some path → ∃ d, side.2 = some d ∧ Spells g path d) ∧
      ∀ d₁ d₂, x.derivation₁ = some d₁ → x.derivation₂ = some d₂ →
        d₁.spine.flatMap (Item.before g) = d₂.spine.flatMap (Item.before g) := by
  obtain ⟨g, hg, hcheck⟩ := Grammar.exists_define
    [.rule ⟨"S", ["'i'", "S", "'e'", "S"], none, 1⟩, .rule ⟨"S", ["'i'", "S"], none, 2⟩,
      .rule ⟨"S", ["'x'"], none, 3⟩]
    (fun g => ∃ x ∈ (ofState g (after g [.lalr, .split]) 9).toOption.getD [],
      x.conflict = .shiftReduce 4 ⟨2, 2⟩ ∧ x.sides.map (fun side => side.2.map Derivation.spine) =
        [some [⟨0, 0⟩, ⟨1, 1⟩, ⟨1, 2⟩], some [⟨0, 0⟩, ⟨1, 1⟩, ⟨2, 2⟩]]) (by decide +kernel)
  obtain ⟨x, hx, hconflict, hspines⟩ := of_decide_eq_true hcheck
  obtain ⟨examples, hexamples, hx⟩ := exists_examples_of_mem hx
  obtain ⟨hspells, hsame⟩ := derivations_spell hg _ hexamples hx
  exact ⟨g, hg, examples, hexamples, x, hx, hconflict, hspines, hspells, hsame 4 ⟨2, 2⟩ hconflict⟩

/-- **The left spine is a derivation** as long as the path turns into a rule at the
    start item.  Below the root, each node derives the next one from the symbol after
    its dot.  So does the root, unless the first move of the path is a transition:
    then the next item is one of the accepting rule, which the start item derives
    only where the accepting symbol is the start symbol. -/
theorem leftDerives_iff_of_example {decls : List Declaration} (hg : Grammar.define decls = .ok g)
    (calls : List Call) {q : StateId} {examples : List Counterexample}
    (h : ofState g (after g calls) q = .ok examples) {x : Counterexample} (hx : x ∈ examples) :
    ∀ side ∈ x.sides, ∀ d, side.2 = some d → ∃ path, side.1 = some path ∧
      (∀ l, d.left? = some l → l.LeftDerives g) ∧
      (d.LeftDerives g ↔ (ReadsFirst path → g.start = g.accept)) := by
  have wf := Grammar.wellFormed_of_define hg
  obtain ⟨path₁, d₁, path₂, d₂, hsides, h₁, h₂, -⟩ :=
    exists_along_of_mem_examples (built_after wf calls) wf h hx
  rw [hsides]
  simp only [List.mem_cons, List.not_mem_nil, or_false]
  rintro side (rfl | rfl) d ⟨⟩
  · exact ⟨path₁, rfl, h₁.leftDerives wf⟩
  · exact ⟨path₂, rfl, h₂.leftDerives wf⟩

/-- A nonterminal that derives itself. -/
def loop : List Declaration :=
  [.rule ⟨"S", ["S"], none, 1⟩, .rule ⟨"S", ["'a'"], none, 2⟩]

/-- The theorem speaks of a path that reads first and of one that does not. -/
theorem leftDerives_iff_of_example_loop : ∃ g, Grammar.define loop = .ok g ∧
    ∃ examples, ofState g (after g [.lalr]) 2 = .ok examples ∧ ∃ x ∈ examples,
      x.sides.map (fun side => side.2.map fun d => decide (d.LeftDerives g)) =
        [some false, some true] ∧
      ∀ side ∈ x.sides, ∀ d, side.2 = some d → ∃ path, side.1 = some path ∧
        (∀ l, d.left? = some l → l.LeftDerives g) ∧
        (d.LeftDerives g ↔ (ReadsFirst path → g.start = g.accept)) := by
  obtain ⟨g, hg, hcheck⟩ := Grammar.exists_define loop
    (fun g => ∃ x ∈ (ofState g (after g [.lalr]) 2).toOption.getD [],
      x.sides.map (fun side => side.2.map fun d => decide (d.LeftDerives g)) =
        [some false, some true]) (by decide +kernel)
  obtain ⟨x, hx, hsides⟩ := of_decide_eq_true hcheck
  obtain ⟨examples, hexamples, hx⟩ := exists_examples_of_mem hx
  exact ⟨g, hg, examples, hexamples, x, hx, hsides, leftDerives_iff_of_example hg _ hexamples hx⟩

/-- **A root that derives nothing.**  The path to the shift of the end marker moves on
    from the start item, which stands above an item of its own rule. -/
theorem exists_not_leftDerives : ∃ g, Grammar.define loop = .ok g ∧
    ∃ examples, ofState g (after g [.lalr]) 2 = .ok examples ∧ ∃ x ∈ examples,
      x.derivation₁ = some (.node ⟨0, 0⟩ (.leaf ⟨0, 1⟩)) ∧
      ¬ Derivation.LeftDerives g (.node ⟨0, 0⟩ (.leaf ⟨0, 1⟩)) := by
  obtain ⟨g, hg, hcheck⟩ := Grammar.exists_define loop
    (fun g => ∃ x ∈ (ofState g (after g [.lalr]) 2).toOption.getD [],
      x.derivation₁ = some (.node ⟨0, 0⟩ (.leaf ⟨0, 1⟩)) ∧
        ¬ Derivation.LeftDerives g (.node ⟨0, 0⟩ (.leaf ⟨0, 1⟩))) (by decide +kernel)
  obtain ⟨x, hx, hd, hnot⟩ := of_decide_eq_true hcheck
  obtain ⟨examples, hexamples, hx⟩ := exists_examples_of_mem hx
  exact ⟨g, hg, examples, hexamples, x, hx, hd, hnot⟩

end Counterexample

end LRAutomata
