/-
  The search for the derivation of a token.

  The search extends chains of items, the newest one first, by the rules of the symbol
  after the dot and, where this symbol can be empty, by moving the dot over it
  (`StateItem.openings`).  It looks at a symbol only if the symbol can itself begin with
  the token, also before it moves on: so it finds the tokens that come to the surface
  (`Grammar.Surfaces`), and not all with which a string can begin (`Grammar.Leads`).

  * A chain that is found is a way to an item with the token after its dot
    (`Counterexample.way_of_mem_level`);
  * a way without repetitions is followed level by level
    (`Counterexample.mem_level_of_way`), and is no longer than there are items, so the
    search finds something if there is such an item
    (`Counterexample.isSome_derivationOf?_iff`).
-/
import LRAutomata.Proofs.Counterexample.Spine

namespace LRAutomata

open Search

/-! ## Tokens at the surface -/

/-- The ways in which a terminal comes to stand after a dot at the beginning of a
    string, if a symbol is opened or passed over only where it can begin with the
    terminal. -/
inductive Grammar.Surfaces (g : Grammar) (t : SymbolId) : List SymbolId → Prop
  | here {α : List SymbolId} : g.isTerminal t = true → Surfaces g t (t :: α)
  | pass {X : SymbolId} {α : List SymbolId} : g.Vanishes [X] → g.Begins [X] t → Surfaces g t α →
      Surfaces g t (X :: α)
  | expand {r : RuleId} {α : List SymbolId} : r < g.rules.size → Surfaces g t (g.rhs r) →
      Surfaces g t (g.lhs r :: α)

variable {g : Grammar} {t X : SymbolId} {α : List SymbolId}

/-- Where a terminal surfaces, the first symbol can begin with it. -/
theorem Grammar.Surfaces.begins (h : g.Surfaces t (X :: α)) : g.Begins [X] t := by
  generalize hβ : X :: α = β at h
  induction h generalizing X α with
  | here ht => cases hβ; exact ⟨ht, [], .refl _⟩
  | pass _ hbegins _ _ => cases hβ; exact hbegins
  | @expand r _ hr h ih =>
    cases hβ
    refine begins_rule hr ?_
    generalize g.rhs r = γ at h ih
    cases h with
    | here ht => exact ⟨ht, _, .refl _⟩
    | pass _ hbegins _ => exact begins_cons.2 (.inl hbegins)
    | expand => exact begins_cons.2 (.inl (ih rfl))

/-! ## Openings -/

namespace StateItem

/-- The items by which the search extends a chain with this one at its end, those
    that the chain already has included. -/
def openings (g : Grammar) (a : Automaton) (t : SymbolId) (p : StateItem) : List StateItem :=
  match p.item.next? g with
  | none => []
  | some X =>
    if g.isTerminal X || t ∉ g.first X then []
    else (p.productions g a).filter (fun n => !(g.rhs n.item.rule).isEmpty) ++
      if g.isNullable X then (p.advance? g a).toList else []

variable {a : Automaton} {b : Graph} {p n : StateItem}

theorem mem_openings : n ∈ p.openings g a t ↔ ∃ X, p.item.next? g = some X ∧
    g.isTerminal X = false ∧ t ∈ g.first X ∧
      (n ∈ p.productions g a ∧ g.rhs n.item.rule ≠ [] ∨
        g.isNullable X = true ∧ p.advance? g a = some n) := by
  rw [openings]
  cases p.item.next? g with
  | none => simp
  | some X =>
    dsimp only
    by_cases hX : g.isTerminal X <;> by_cases ht : t ∈ g.first X <;>
      by_cases hnullable : g.isNullable X <;> simp [hX, ht, hnullable]

theorem Stands.of_mem_openings (h : Automaton.Complete g b) (hp : p.Stands (Automaton.ofGraph g b))
    (hn : n ∈ p.openings g (Automaton.ofGraph g b) t) : n.Stands (Automaton.ofGraph g b) := by
  obtain ⟨X, -, -, -, ⟨hn, -⟩ | ⟨-, hn⟩⟩ := mem_openings.1 hn
  · exact hp.of_mem_productions hn
  · exact h.stands_of_advance? hp hn

end StateItem

namespace Automaton.Complete

open StateItem

variable {b : Graph} {p n : StateItem}

/-- What surfaces after an opening surfaces before it. -/
theorem surfaces_of_mem_openings (h : Complete g b) (wf : g.WellFormed)
    (hp : p.Stands (ofGraph g b)) (hn : n ∈ p.openings g (ofGraph g b) t)
    (hsurfaces : g.Surfaces t (n.item.after g)) : g.Surfaces t (p.item.after g) := by
  obtain ⟨X, hX, -, hfirst, ⟨hn, -⟩ | ⟨hnullable, hn⟩⟩ := mem_openings.1 hn
  · obtain ⟨r, hr, hlhs, hitem⟩ := h.expands_of_mem_productions hp hn
    rw [hitem] at hsurfaces
    rw [Item.after_eq_cons hlhs]
    exact .expand hr hsurfaces
  · obtain ⟨-, -, -, hitem, -⟩ := advance?_eq_some_iff.1 hn
    rw [hitem] at hsurfaces
    rw [Item.after_eq_cons hX]
    exact .pass (wf.isNullable_iff.1 hnullable) (wf.mem_first_iff.1 hfirst) hsurfaces

theorem surfaces_of_openings (h : Complete g b) (wf : g.WellFormed) (hp : p.Stands (ofGraph g b))
    (hn : Relation.ReflTransGen (fun p n => n ∈ p.openings g (ofGraph g b) t) p n) :
    n.Stands (ofGraph g b) ∧ (g.Surfaces t (n.item.after g) → g.Surfaces t (p.item.after g)) := by
  induction hn with
  | refl => exact ⟨hp, id⟩
  | tail _ hn ih =>
    exact ⟨ih.1.of_mem_openings h hn, ih.2 ∘ h.surfaces_of_mem_openings wf ih.1 hn⟩

/-- What surfaces after the dot of an item is led to by openings. -/
theorem exists_openings_of_surfaces (h : Complete g b) (wf : g.WellFormed)
    (hsurfaces : g.Surfaces t α) : ∀ {p : StateItem}, p.Stands (ofGraph g b) → p.item.after g = α →
      ∃ n, Relation.ReflTransGen (fun p n => n ∈ p.openings g (ofGraph g b) t) p n ∧
        n.item.next? g = some t := by
  induction hsurfaces with
  | here _ =>
    intro p _ hafter
    exact ⟨p, .refl, Item.next?_of_after hafter⟩
  | @pass X α hvanishes hbegins _ ih =>
    intro p hp hafter
    have hX := Item.next?_of_after hafter
    obtain ⟨hlt, hi⟩ := stands_iff.1 hp
    obtain ⟨q, hq⟩ := (h.exists_next?_iff hlt).2 ⟨_, hi, hX⟩
    have hadvance := h.advance?_of_next hp hX hq
    have hafter' : p.item.advance.after g = α := by
      rw [Item.after_eq_cons hX] at hafter
      exact (List.cons.inj hafter).2
    obtain ⟨n, hn, hnext⟩ := ih (h.stands_of_advance? hp hadvance) hafter'
    refine ⟨n, hn.head (mem_openings.2 ⟨X, hX, Bool.eq_false_iff.2 fun hterminal => ?_,
      wf.mem_first_iff.2 hbegins, .inr ⟨wf.isNullable_iff.2 hvanishes, hadvance⟩⟩), hnext⟩
    exact wf.not_vanishes_terminal hterminal hvanishes
  | @expand r α hr hrhs ih =>
    intro p hp hafter
    have hX := Item.next?_of_after hafter
    have hproduction : ⟨p.state, ⟨r, 0⟩⟩ ∈ p.productions g (ofGraph g b) :=
      h.mem_productions_of_expands wf hp ⟨r, hr, hX, rfl⟩
    obtain ⟨n, hn, hnext⟩ := ih (hp.of_mem_productions hproduction) rfl
    refine ⟨n, hn.head (mem_openings.2 ⟨_, hX, wf.lhs_nonterminal hr, ?_,
      .inl ⟨hproduction, fun hempty => ?_⟩⟩), hnext⟩
    · exact wf.mem_first_iff.2 (Grammar.Surfaces.expand (α := []) hr hrhs).begins
    · rw [hempty] at hrhs
      cases hrhs

end Automaton.Complete

/-! ## Chains -/

namespace Counterexample

open Automaton StateItem

variable {a : Automaton} {b : Graph} {p n : StateItem} {l chain : List StateItem}
  {chains : List (List StateItem)}

theorem mem_extendChain : chain ∈ extendChain g a t (p :: l) ↔ ∃ n, n :: p :: l = chain ∧
    ∃ X, p.item.next? g = some X ∧ g.isTerminal X = false ∧ t ∈ g.first X ∧
      (n ∈ p.productions g a ∧ g.rhs n.item.rule ≠ [] ∧ n ∉ p :: l ∨
        g.isNullable X = true ∧ p.advance? g a = some n) := by
  rw [extendChain]
  cases p.item.next? g with
  | none => simp
  | some X =>
    dsimp only
    by_cases hX : g.isTerminal X <;> by_cases ht : t ∈ g.first X <;>
      by_cases hnullable : g.isNullable X <;> simp [hX, ht, hnullable, and_comm, and_left_comm, and_or_left, exists_or]

/-- A chain ends at an item with the token after its dot. -/
def Surfaced (g : Grammar) (t : SymbolId) (chain : List StateItem) : Prop :=
  (chain.head?.bind (·.item.next? g)) = some t

instance (g : Grammar) (t : SymbolId) (chain : List StateItem) : Decidable (Surfaced g t chain) :=
  inferInstanceAs (Decidable (_ = _))

/-- The chains of `n` openings that the search comes to, if it finds nothing before. -/
def level (g : Grammar) (a : Automaton) (t : SymbolId) (p : StateItem) : Nat → List (List StateItem)
  | 0 => [[p]]
  | n + 1 => (level g a t p n).flatMap (extendChain g a t)

theorem way_of_mem_level : ∀ {n : Nat} {chain : List StateItem}, chain ∈ level g a t p n →
    Way (openings g a t) p chain
  | 0, chain, h => List.mem_singleton.1 h ▸ .start
  | n + 1, chain, h => by
    obtain ⟨shorter, hshorter, h⟩ := List.mem_flatMap.1 h
    have hway := way_of_mem_level hshorter
    cases shorter with
    | nil => cases hway
    | cons m l =>
      obtain ⟨m', rfl, X, hX, hterminal, hfirst, hm'⟩ := mem_extendChain.1 h
      refine hway.step (mem_openings.2 ⟨X, hX, hterminal, hfirst, hm'.imp_left ?_⟩)
      exact fun ⟨hproduction, hrhs, _⟩ => ⟨hproduction, hrhs⟩

/-- The search follows the ways on which no item repeats. -/
theorem mem_level_of_way (h : Way (openings g a t) p chain) (nodup : chain.Nodup) :
    chain ∈ level g a t p (chain.length - 1) := by
  induction h with
  | start => exact List.mem_singleton.2 rfl
  | @step m m' l _ hm' ih =>
    obtain ⟨hnotin, nodup⟩ := List.nodup_cons.1 nodup
    obtain ⟨X, hX, hterminal, hfirst, hm'⟩ := mem_openings.1 hm'
    refine List.mem_flatMap.2 ⟨m :: l, ih nodup, mem_extendChain.2 ⟨m', rfl, X, hX, hterminal,
      hfirst, hm'.imp_left ?_⟩⟩
    exact fun ⟨hproduction, hrhs⟩ => ⟨hproduction, hrhs, hnotin⟩

theorem level_eq_nil {k : Nat} (h : level g a t p k = []) : ∀ {n}, k ≤ n → level g a t p n = [] := by
  intro n hn
  induction hn with
  | refl => exact h
  | step _ ih => rw [level, ih]; rfl

/-- What the search answers from a level on. -/
theorem searchChains_level (g : Grammar) (a : Automaton) (t : SymbolId) (p : StateItem) :
    ∀ levels k,
      (∀ chain, searchChains g a t levels (level g a t p k) = some chain →
        Surfaced g t chain ∧ ∃ n, chain ∈ level g a t p n) ∧
      (searchChains g a t levels (level g a t p k) = none → ∀ n, k ≤ n → n < k + levels →
        ∀ chain ∈ level g a t p n, ¬ Surfaced g t chain)
  | 0, k => ⟨nofun, fun _ n hn hlt => by omega⟩
  | levels + 1, k => by
    rw [searchChains]
    cases hfind : (level g a t p k).find? fun chain =>
        (chain.head?.bind (·.item.next? g)) = some t with
    | some chain =>
      refine ⟨fun chain' h => ?_, nofun⟩
      cases h
      exact ⟨by simpa [Surfaced] using List.find?_some hfind, k, List.mem_of_find?_eq_some hfind⟩
    | none =>
      have hnone : ∀ chain ∈ level g a t p k, ¬ Surfaced g t chain := fun chain hchain hs =>
        List.find?_eq_none.1 hfind chain hchain (decide_eq_true hs)
      dsimp only
      split
      · rename_i hempty
        refine ⟨nofun, fun _ n hn _ chain hchain => ?_⟩
        rcases Nat.eq_or_lt_of_le hn with rfl | hn
        · exact hnone chain hchain
        · rw [level_eq_nil (k := k + 1) (List.isEmpty_iff.1 hempty) hn] at hchain
          cases hchain
      · obtain ⟨hfound, hnot⟩ := searchChains_level g a t p levels (k + 1)
        refine ⟨hfound, fun h n hn hlt chain hchain => ?_⟩
        rcases Nat.eq_or_lt_of_le hn with rfl | hn
        · exact hnone chain hchain
        · exact hnot h n hn (by omega) chain hchain

/-- A way without repetitions is shorter than the search goes. -/
theorem length_lt_chainBound (h : Complete g b) (hp : p.Stands (ofGraph g b))
    (hway : Way (openings g (ofGraph g b) t) p chain) (nodup : chain.Nodup) :
    chain.length < chainBound g (ofGraph g b) := by
  have hmem : ∀ n ∈ chain, n ∈ (ofGraph g b).places := fun n hn =>
    mem_places (hway.forall_mem hp (fun _ hm _ hm' => hm.of_mem_openings h hm') n hn)
  have hle : chain.length ≤ (ofGraph g b).stateItemCount := by
    rw [← length_places]
    exact (List.subperm_of_subset nodup hmem).length_le
  have hbound : (ofGraph g b).stateItemCount + 1 < chainBound g (ofGraph g b) :=
    Nat.lt_succ_of_le (Nat.le_mul_of_pos_right _ (Nat.succ_pos _))
  omega

/-- The search finds a chain just if openings lead to the token. -/
theorem exists_searchChains_iff (h : Complete g b) (hp : p.Stands (ofGraph g b)) :
    (∃ chain, searchChains g (ofGraph g b) t (chainBound g (ofGraph g b)) [[p]] = some chain) ↔
      ∃ n, Relation.ReflTransGen (fun p n => n ∈ p.openings g (ofGraph g b) t) p n ∧
        n.item.next? g = some t := by
  obtain ⟨hfound, hnot⟩ :=
    searchChains_level g (ofGraph g b) t p (chainBound g (ofGraph g b)) 0
  constructor
  · rintro ⟨chain, hchain⟩
    obtain ⟨hsurfaced, n, hmem⟩ := hfound chain hchain
    have hway := way_of_mem_level hmem
    cases chain with
    | nil => cases hway
    | cons n l => exact ⟨n, hway.reflTransGen, hsurfaced⟩
  · rintro ⟨n, hn, hnext⟩
    obtain ⟨l, hl⟩ := exists_way hn
    obtain ⟨l, hl, nodup⟩ := hl.exists_nodup
    have hlt := length_lt_chainBound h hp hl nodup
    rw [← Option.isSome_iff_exists, Option.isSome_iff_ne_none]
    refine fun hnone => hnot hnone _ (Nat.zero_le _) ?_ _ (mem_level_of_way hl nodup) hnext
    omega

theorem spine_foldl_above (chain : List StateItem) (below : Option Derivation) :
    (chain.foldl (fun below p => some (.above p.item below)) below).elim [] Derivation.spine =
      (chain.map StateItem.item).reverse ++ below.elim [] Derivation.spine := by
  induction chain generalizing below with
  | nil => rfl
  | cons p chain ih => simp [ih, Derivation.spine_above]

/-- A chain is made into a derivation with its items on the spine. -/
theorem exists_foldl_above (n : StateItem) (l : List StateItem) :
    ∃ d : Derivation, (n :: l).foldl (fun below p => some (.above p.item below)) none = some d ∧
      d.spine = (l.map StateItem.item).reverse ++ [n.item] := by
  have hspine := spine_foldl_above (n :: l) none
  cases hfold : (n :: l).foldl (fun below p => some (Derivation.above p.item below)) none with
  | none => rw [hfold] at hspine; simp at hspine
  | some d => exact ⟨d, rfl, by simpa [hfold] using hspine⟩

/-- A derivation of a token begins at the item, and its left spine ends where the token
    stands after the dot. -/
theorem derivationOf?_spec {d : Derivation} (hd : derivationOf? g a p t = some d) :
    d.item = p.item ∧ ∃ i, d.spine.getLast? = some i ∧ i.next? g = some t := by
  obtain ⟨chain, hchain, hd⟩ := Option.bind_eq_some_iff.1 hd
  obtain ⟨hsurfaced, _, hmem⟩ := (searchChains_level g a t p (chainBound g a) 0).1 chain hchain
  obtain ⟨l', rfl⟩ := (way_of_mem_level hmem).exists_append
  obtain ⟨n, l, heq⟩ : ∃ n l, l' ++ [p] = n :: l := List.exists_cons_of_ne_nil (by simp)
  obtain ⟨d', hd', hspine⟩ := exists_foldl_above n l
  rw [heq, hd'] at hd
  cases hd
  constructor
  · have hhead := d.head?_spine
    rw [hspine, ← List.reverse_singleton, ← List.reverse_append, List.singleton_append,
      ← List.map_cons, ← heq] at hhead
    simpa using hhead.symm
  · rw [heq] at hsurfaced
    exact ⟨n.item, by rw [hspine, List.getLast?_concat], hsurfaced⟩

/-- **A token is derived if it surfaces.**  The search finds a derivation just if the
    token surfaces after the dot of the item. -/
theorem isSome_derivationOf?_iff (h : Complete g b) (wf : g.WellFormed)
    (hp : p.Stands (ofGraph g b)) (ht : g.isTerminal t = true) :
    (derivationOf? g (ofGraph g b) p t).isSome = true ↔ g.Surfaces t (p.item.after g) := by
  constructor
  · intro hsome
    obtain ⟨d, hd⟩ := Option.isSome_iff_exists.1 hsome
    obtain ⟨chain, hchain, -⟩ := Option.bind_eq_some_iff.1 hd
    obtain ⟨n, hn, hnext⟩ := (exists_searchChains_iff h hp).1 ⟨chain, hchain⟩
    refine (h.surfaces_of_openings wf hp hn).2 ?_
    rw [Item.after_eq_cons hnext]
    exact .here ht
  · intro hsurfaces
    obtain ⟨chain, hchain⟩ :=
      (exists_searchChains_iff h hp).2 (h.exists_openings_of_surfaces wf hsurfaces hp rfl)
    obtain ⟨-, _, hmem⟩ := (searchChains_level g (ofGraph g b) t p _ 0).1 chain hchain
    cases chain with
    | nil => cases way_of_mem_level hmem
    | cons n l =>
      obtain ⟨d, hd, -⟩ := exists_foldl_above n l
      exact Option.isSome_iff_exists.2 ⟨d, Option.bind_eq_some_iff.2 ⟨_, hchain, hd⟩⟩

end Counterexample

end LRAutomata
