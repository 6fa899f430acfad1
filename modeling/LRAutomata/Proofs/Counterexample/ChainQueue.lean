/-
  The search for the derivation of a token, as a queue of chains.

  The oldest chain is taken from the queue and what extends it is queued, until nothing
  waits or a chain is taken that has the token after its last dot (`Counterexample.turn`).
  Nothing marks the items that were seen: only a rule that is begun must not be in the
  chain already, and a dot that moves over a symbol may come to an item again.

  * Yet a chain begins a rule only once in a state, and between two beginnings the dot
    moves at most to the end of a rule (`Counterexample.Paced`), so the chains do not
    get longer than `chainBound`;
  * the queue takes the chains level by level (`Counterexample.iterate_turn_append`), so
    it ends, with the answer of the search (`Counterexample.queue_ends`).

  The right-hand sides of the grammar are taken to fit the positions (`Item`).
-/
import Mathlib.Logic.Function.Iterate
import LRAutomata.Proofs.Counterexample.Chains

namespace LRAutomata

open Automaton StateItem

variable {g : Grammar} {t : SymbolId} {a : Automaton} {b : Graph} {p n : StateItem}
  {l chain chain' : List StateItem}

/-- The length of the longest right-hand side. -/
def Grammar.longest (g : Grammar) : Nat :=
  greatest (g.rules.toList.map fun r => r.rhs.length)

theorem Item.InRange.position_le {i : Item} (h : i.InRange g) : i.position ≤ g.longest :=
  Nat.le_trans h.2 (le_greatest (List.mem_map.2 ⟨_, Grammar.mem_rules_iff.2 ⟨_, h.1, rfl⟩, rfl⟩))

/-- The items listed that begin a rule. -/
def StateItem.beginnings (places : List StateItem) : List StateItem :=
  places.filter (·.item.isInitial)

theorem StateItem.beginnings_cons_of_initial (hn : n.item.position = 0) :
    beginnings (n :: l) = n :: beginnings l :=
  List.filter_cons_of_pos (decide_eq_true hn)

theorem StateItem.beginnings_cons_of_advanced (hn : n.item.position ≠ 0) :
    beginnings (n :: l) = beginnings l :=
  List.filter_cons_of_neg (by simpa [Item.isInitial] using hn)

namespace Counterexample

/-! ## The length of chains -/

/-- A chain of items of the automaton that begins no rule twice in a state, and that is no
    longer than moving the dot from its beginnings allows. -/
structure Paced (g : Grammar) (a : Automaton) (chain : List StateItem) : Prop where
  stands : ∀ n ∈ chain, n.Stands a
  nodup : (beginnings chain).Nodup
  length_le : ∀ n ∈ chain.head?,
    chain.length ≤ (beginnings chain).length * (g.longest + 1) + n.item.position

theorem paced_singleton (g : Grammar) (hp : p.Stands a) : Paced g a [p] := by
  refine ⟨fun n hn => List.mem_singleton.1 hn ▸ hp, (List.nodup_singleton p).filter _, ?_⟩
  rintro _ ⟨⟩
  by_cases hposition : p.item.position = 0
  · rw [beginnings_cons_of_initial hposition]
    have hone : (p :: beginnings []).length = 1 := rfl
    rw [hone, List.length_singleton]
    omega
  · rw [beginnings_cons_of_advanced hposition]
    exact Nat.le_trans (Nat.one_le_iff_ne_zero.2 hposition) (Nat.le_add_left _ _)

/-- Beginning a rule leaves room for its dots, and moving the dot uses one of them. -/
theorem Paced.extend (h : Complete g b) (wf : g.WellFormed) (hchain : Paced g (ofGraph g b) chain)
    (hextend : chain' ∈ extendChain g (ofGraph g b) t chain) : Paced g (ofGraph g b) chain' := by
  cases chain with
  | nil => cases hextend
  | cons p l =>
    have hp := hchain.stands p List.mem_cons_self
    have hlength := hchain.length_le p rfl
    obtain ⟨n, rfl, _, -, -, -, ⟨hn, -, hnotin⟩ | ⟨-, hn⟩⟩ := mem_extendChain.1 hextend
    · -- One beginning more; the dot before it was at most at the end of its rule.
      obtain ⟨r, -, -, hitem⟩ := h.expands_of_mem_productions hp hn
      have hposition : n.item.position = 0 := by rw [hitem]
      have hle := (h.inRange_of_stands wf hp).position_le
      refine ⟨List.forall_mem_cons.2 ⟨hp.of_mem_productions hn, hchain.stands⟩, ?_, ?_⟩
      · rw [beginnings_cons_of_initial hposition]
        exact hchain.nodup.cons fun hmem => hnotin (List.mem_filter.1 hmem).1
      · rintro _ ⟨⟩
        have hbegun : (n :: beginnings (p :: l)).length = (beginnings (p :: l)).length + 1 := rfl
        rw [beginnings_cons_of_initial hposition, hbegun, List.length_cons, Nat.succ_mul]
        omega
    · -- No check on the item, but its dot is one further.
      obtain ⟨-, -, -, hitem, -⟩ := advance?_eq_some_iff.1 hn
      have hposition : n.item.position = p.item.position + 1 := by rw [hitem]; rfl
      have hbegun : beginnings (n :: p :: l) = beginnings (p :: l) :=
        beginnings_cons_of_advanced (by omega)
      refine ⟨List.forall_mem_cons.2 ⟨h.stands_of_advance? hp hn, hchain.stands⟩, ?_, ?_⟩
      · rw [hbegun]; exact hchain.nodup
      · rintro _ ⟨⟩
        rw [hbegun, List.length_cons]
        omega

/-- A chain has fewer items than there are dots in the rules that it can begin, and in
    one more. -/
theorem Paced.length_lt (h : Complete g b) (wf : g.WellFormed) (hchain : Paced g (ofGraph g b) chain) :
    chain.length < ((beginnings (ofGraph g b).places).length + 1) * (g.longest + 1) := by
  cases chain with
  | nil => exact Nat.mul_pos (Nat.succ_pos _) (Nat.succ_pos _)
  | cons p l =>
    have hlength := hchain.length_le p rfl
    have hle := (h.inRange_of_stands wf (hchain.stands p List.mem_cons_self)).position_le
    have hsubset : beginnings (p :: l) ⊆ beginnings (ofGraph g b).places := fun n hn =>
      List.mem_filter.2 ⟨mem_places (hchain.stands n (List.mem_filter.1 hn).1),
        (List.mem_filter.1 hn).2⟩
    have hcount := Nat.mul_le_mul_right (g.longest + 1)
      (List.subperm_of_subset hchain.nodup hsubset).length_le
    rw [Nat.succ_mul]
    omega

theorem length_of_mem_level : ∀ {n : Nat} {chain : List StateItem},
    chain ∈ level g a t p n → chain.length = n + 1
  | 0, chain, h => by rw [List.mem_singleton.1 h]; rfl
  | n + 1, chain, h => by
    obtain ⟨shorter, hshorter, h⟩ := List.mem_flatMap.1 h
    have hlength := length_of_mem_level hshorter
    cases shorter with
    | nil => cases hlength
    | cons m l =>
      obtain ⟨m', rfl, -⟩ := mem_extendChain.1 h
      rw [List.length_cons, hlength]

theorem paced_of_mem_level (h : Complete g b) (wf : g.WellFormed) (hp : p.Stands (ofGraph g b)) :
    ∀ {n : Nat} {chain : List StateItem}, chain ∈ level g (ofGraph g b) t p n →
      Paced g (ofGraph g b) chain
  | 0, chain, hchain => by rw [List.mem_singleton.1 hchain]; exact paced_singleton g hp
  | n + 1, chain, hchain => by
    obtain ⟨shorter, hshorter, hchain⟩ := List.mem_flatMap.1 hchain
    exact (paced_of_mem_level h wf hp hshorter).extend h wf hchain

/-- The levels are empty before the search is out of levels. -/
theorem level_chainBound (h : Complete g b) (wf : g.WellFormed) (hp : p.Stands (ofGraph g b))
    (t : SymbolId) : level g (ofGraph g b) t p (chainBound g (ofGraph g b)) = [] := by
  refine List.eq_nil_iff_forall_not_mem.2 fun chain hchain => ?_
  have hlength := length_of_mem_level hchain
  have hlt := (paced_of_mem_level h wf hp hchain).length_lt h wf
  have hcount : (beginnings (ofGraph g b).places).length ≤ (ofGraph g b).stateItemCount := by
    rw [← length_places]
    exact List.length_filter_le _ _
  have hbound : ((beginnings (ofGraph g b).places).length + 1) * (g.longest + 1) <
      chainBound g (ofGraph g b) :=
    Nat.lt_succ_of_le (Nat.mul_le_mul_right _ (Nat.succ_le_succ hcount))
  omega

/-! ## The queue -/

/-- One turn of the search: the oldest chain is taken, and what extends it is queued,
    unless the chain is one that is looked for. -/
def turn (g : Grammar) (a : Automaton) (t : SymbolId) :
    List (List StateItem) → List (List StateItem)
  | [] => []
  | chain :: waiting =>
    if Surfaced g t chain then chain :: waiting else waiting ++ extendChain g a t chain

/-- Nothing waits, or the chain that is taken next is one that is looked for. -/
def Ended (g : Grammar) (t : SymbolId) (queue : List (List StateItem)) : Prop :=
  ∀ chain ∈ queue.head?, Surfaced g t chain

theorem ended_nil (g : Grammar) (t : SymbolId) : Ended g t [] :=
  fun _ h => by cases h

/-- Each chain that waits was there, or extends one that was taken. -/
theorem mem_turn {queue : List (List StateItem)} (h : chain ∈ turn g a t queue) :
    chain ∈ queue ∨ ∃ taken ∈ queue, chain ∈ extendChain g a t taken := by
  cases queue with
  | nil => cases h
  | cons taken waiting =>
    rw [turn] at h
    split at h
    · exact .inl h
    · rcases List.mem_append.1 h with h | h
      · exact .inl (List.mem_cons_of_mem _ h)
      · exact .inr ⟨taken, List.mem_cons_self, h⟩

theorem paced_turns (h : Complete g b) (wf : g.WellFormed) (hp : p.Stands (ofGraph g b)) :
    ∀ (turns : Nat), ∀ chain ∈ (turn g (ofGraph g b) t)^[turns] [[p]], Paced g (ofGraph g b) chain := by
  intro turns
  induction turns with
  | zero => intro chain hchain; rw [List.mem_singleton.1 hchain]; exact paced_singleton g hp
  | succ turns ih =>
    intro chain hchain
    rw [Function.iterate_succ_apply'] at hchain
    rcases mem_turn hchain with hchain | ⟨taken, htaken, hchain⟩
    · exact ih chain hchain
    · exact (ih taken htaken).extend h wf hchain

/-- Chains that are not looked for are taken one after the other, and what extends them
    is queued behind the others. -/
theorem iterate_turn_append (g : Grammar) (a : Automaton) (t : SymbolId) :
    ∀ (chains waiting : List (List StateItem)), (∀ chain ∈ chains, ¬ Surfaced g t chain) →
      (turn g a t)^[chains.length] (chains ++ waiting) =
        waiting ++ chains.flatMap (extendChain g a t)
  | [], waiting, _ => by simp
  | chain :: chains, waiting, hnot => by
    obtain ⟨hchain, hnot⟩ := List.forall_mem_cons.1 hnot
    rw [List.length_cons, Function.iterate_succ_apply, List.cons_append, turn, if_neg hchain,
      List.append_assoc, iterate_turn_append g a t chains _ hnot, List.append_assoc,
      List.flatMap_cons]

/-- The queue does what the search does level by level, if the search has levels enough. -/
theorem exists_turns (g : Grammar) (a : Automaton) (t : SymbolId) (p : StateItem) :
    ∀ levels k, level g a t p (k + levels) = [] →
      ∃ turns, Ended g t ((turn g a t)^[turns] (level g a t p k)) ∧
        ((turn g a t)^[turns] (level g a t p k)).head? =
          searchChains g a t levels (level g a t p k)
  | 0, k, hempty => by
    rw [Nat.add_zero] at hempty
    rw [hempty]
    exact ⟨0, ended_nil g t, rfl⟩
  | levels + 1, k, hempty => by
    rw [searchChains]
    cases hfind : (level g a t p k).find? fun chain =>
        (chain.head?.bind (·.item.next? g)) = some t with
    | some chain =>
      obtain ⟨hsurfaced, passed, waiting, heq, hnot⟩ := List.find?_eq_some_iff_append.1 hfind
      have hpassed : ∀ chain ∈ passed, ¬ Surfaced g t chain := fun chain hchain => by
        simpa [Surfaced] using hnot chain hchain
      refine ⟨passed.length, ?_⟩
      rw [heq, iterate_turn_append g a t passed _ hpassed]
      exact ⟨fun chain' hchain' => Option.some.inj hchain' ▸ of_decide_eq_true hsurfaced, rfl⟩
    | none =>
      have hnot : ∀ chain ∈ level g a t p k, ¬ Surfaced g t chain := fun chain hchain hs =>
        List.find?_eq_none.1 hfind chain hchain (decide_eq_true hs)
      have hturns : (turn g a t)^[(level g a t p k).length] (level g a t p k) =
          level g a t p (k + 1) := by
        simpa [level] using iterate_turn_append g a t (level g a t p k) [] hnot
      dsimp only
      split
      · rename_i hnext
        refine ⟨(level g a t p k).length, ?_⟩
        rw [hturns, level, List.isEmpty_iff.1 hnext]
        exact ⟨ended_nil g t, rfl⟩
      · obtain ⟨turns, hended, hhead⟩ := exists_turns g a t p levels (k + 1)
          (by rw [Nat.add_right_comm, Nat.add_assoc]; exact hempty)
        refine ⟨turns + (level g a t p k).length, ?_⟩
        rw [Function.iterate_add_apply, hturns]
        exact ⟨hended, hhead⟩

/-- **The search ends.**  From every item that stands in an automaton, after every sequence
    of calls, and for every symbol, there is a turn after which nothing waits or a chain is
    taken that has the symbol after its last dot, and the derivation that is found is the
    one of this chain.  No chain that ever waits is longer than all beginnings of rules
    and the dots behind them. -/
theorem queue_ends {decls : List Declaration} (hg : Grammar.define decls = .ok g)
    (calls : List Call) {p : StateItem} (hp : p.Stands (after g calls)) (t : SymbolId) :
    (∃ turns, Ended g t ((turn g (after g calls) t)^[turns] [[p]]) ∧
      derivationOf? g (after g calls) p t =
        ((turn g (after g calls) t)^[turns] [[p]]).head?.bind fun chain =>
          chain.foldl (fun below p => some (.above p.item below)) none) ∧
    ∀ turns, ∀ chain ∈ (turn g (after g calls) t)^[turns] [[p]],
      chain.length < ((beginnings (after g calls).places).length + 1) * (g.longest + 1) := by
  have wf := Grammar.wellFormed_of_define hg
  obtain ⟨b, hb, heq⟩ := hp.exists_complete (built_after wf calls)
  rw [heq] at hp ⊢
  obtain ⟨turns, hended, hhead⟩ := exists_turns g (ofGraph g b) t p
    (chainBound g (ofGraph g b)) 0 (by rw [Nat.zero_add]; exact level_chainBound hb wf hp t)
  refine ⟨⟨turns, hended, ?_⟩, fun turns chain hchain => ?_⟩
  · rw [derivationOf?]
    exact congrArg (Option.bind · _) hhead.symm
  · exact (paced_turns hb wf hp turns chain hchain).length_lt hb wf

/-- Over `N`, which can be empty, the dot of `S: N S` leads back to its own state. -/
def returning : List Declaration :=
  [.rule ⟨"S", ["N", "S"], none, 1⟩, .rule ⟨"S", ["X"], none, 2⟩, .rule ⟨"N", [], none, 3⟩,
    .rule ⟨"N", ["X"], none, 4⟩, .rule ⟨"X", ["M", "'t'"], none, 5⟩, .rule ⟨"M", [], none, 6⟩]

/-- The theorem speaks of a queue in which a chain comes to an item again, and which is
    empty in the end. -/
theorem queue_ends_returning : ∃ g, Grammar.define returning = .ok g ∧
    StateItem.Stands (after g [.lalr]) ⟨0, Item.start⟩ ∧
    [⟨2, ⟨1, 1⟩⟩, ⟨2, ⟨1, 0⟩⟩, ⟨2, ⟨1, 1⟩⟩, ⟨0, ⟨1, 0⟩⟩, ⟨0, Item.start⟩] ∈
      (turn g (after g [.lalr]) 3)^[10] [[⟨0, Item.start⟩]] ∧
    (turn g (after g [.lalr]) 3)^[15] [[⟨0, Item.start⟩]] = [] ∧
    (∃ turns, Ended g 3 ((turn g (after g [.lalr]) 3)^[turns] [[⟨0, Item.start⟩]]) ∧
      derivationOf? g (after g [.lalr]) ⟨0, Item.start⟩ 3 =
        ((turn g (after g [.lalr]) 3)^[turns] [[⟨0, Item.start⟩]]).head?.bind fun chain =>
          chain.foldl (fun below p => some (.above p.item below)) none) ∧
    ∀ turns, ∀ chain ∈ (turn g (after g [.lalr]) 3)^[turns] [[⟨0, Item.start⟩]],
      chain.length < ((beginnings (after g [.lalr]).places).length + 1) * (g.longest + 1) := by
  obtain ⟨g, hg, hcheck⟩ := Grammar.exists_define returning
    (fun g => StateItem.Stands (after g [.lalr]) ⟨0, Item.start⟩ ∧
      [⟨2, ⟨1, 1⟩⟩, ⟨2, ⟨1, 0⟩⟩, ⟨2, ⟨1, 1⟩⟩, ⟨0, ⟨1, 0⟩⟩, ⟨0, Item.start⟩] ∈
        (turn g (after g [.lalr]) 3)^[10] [[⟨0, Item.start⟩]] ∧
      (turn g (after g [.lalr]) 3)^[15] [[⟨0, Item.start⟩]] = []) (by decide +kernel)
  obtain ⟨hp, hreturns, hempty⟩ := of_decide_eq_true hcheck
  exact ⟨g, hg, hp, hreturns, hempty, queue_ends hg _ hp 3⟩

end Counterexample

end LRAutomata
