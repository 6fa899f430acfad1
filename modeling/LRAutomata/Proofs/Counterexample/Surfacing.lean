/-
  Tokens that the search for a derivation does not come to.

  A token in the FIRST set of a symbol is led to by rules and over symbols that can be
  empty (`Grammar.Leads`).  The search looks at a symbol only if the symbol can itself
  begin with the token, so it passes over no empty symbol that cannot
  (`Grammar.Surfaces`).

  * Where every symbol that can be empty can begin with the token, the token surfaces
    wherever it is led to (`Grammar.surfaces_of_leads`), and the search finds it;
  * in general it finds it just if it surfaces (`Counterexample.derived_iff_surfaces`),
    and one symbol that is only empty hides it (`Counterexample.exists_not_derived`).

  The right-hand sides of the grammar are taken to fit the positions (`Item`).
-/
import LRAutomata.Proofs.Counterexample.Chains

namespace LRAutomata

variable {g : Grammar} {t X : SymbolId} {α : List SymbolId}

/-- If every symbol that can be empty can begin with the terminal, none hides it. -/
theorem Grammar.surfaces_of_leads (hpass : ∀ N, g.Vanishes [N] → g.Begins [N] t)
    (h : g.Leads t α) : g.Surfaces t α := by
  induction h with
  | here ht => exact .here ht
  | skip hX _ ih => exact .pass hX (hpass _ hX) ih
  | expand hr _ ih => exact .expand hr ih

namespace Counterexample

open Automaton StateItem

/-- **A token of a FIRST set is derived if it surfaces.**  At an item that stands in an
    automaton, after every sequence of calls, the search for a token in the FIRST set of
    the symbol after the dot finds a derivation just if the token surfaces after the dot,
    in particular if every symbol that can be empty can begin with the token.  Whatever
    is found begins at the item, and its left spine ends with the token after the dot. -/
theorem derived_iff_surfaces {decls : List Declaration} (hg : Grammar.define decls = .ok g)
    (calls : List Call) {p : StateItem} (hp : p.Stands (after g calls))
    (hX : p.item.next? g = some X) (ht : t ∈ g.first X) :
    ((∃ d, derivationOf? g (after g calls) p t = some d) ↔ g.Surfaces t (p.item.after g)) ∧
    (∀ d, derivationOf? g (after g calls) p t = some d →
      d.item = p.item ∧ ∃ i, d.spine.getLast? = some i ∧ i.next? g = some t) ∧
    ((∀ N, g.isNullable N = true → t ∈ g.first N) →
      ∃ d, derivationOf? g (after g calls) p t = some d) := by
  have wf := Grammar.wellFormed_of_define hg
  have hbegins : g.Begins [X] t := wf.mem_first_iff.1 ht
  have hiff : (∃ d, derivationOf? g (after g calls) p t = some d) ↔
      g.Surfaces t (p.item.after g) := by
    obtain ⟨b, hb, heq⟩ := hp.exists_complete (built_after wf calls)
    rw [heq] at hp ⊢
    rw [← Option.isSome_iff_exists]
    exact isSome_derivationOf?_iff hb wf hp hbegins.1
  refine ⟨hiff, fun d hd => derivationOf?_spec hd, fun hpass => hiff.2 ?_⟩
  have hleads : g.Leads t (p.item.after g) := by
    rw [Item.after_eq_cons hX]
    exact (Grammar.begins_iff_leads.1 hbegins).append _
  exact Grammar.surfaces_of_leads
    (fun N hN => wf.mem_first_iff.1 (hpass N (wf.isNullable_iff.2 hN))) hleads

/-- After `'a'` there are two reductions on `'t'`, which is read behind `B` in an `X`,
    and there after a symbol that is empty. -/
def behind : List Declaration :=
  [.rule ⟨"S", ["A", "'t'"], none, 1⟩, .rule ⟨"S", ["B", "X"], none, 2⟩,
    .rule ⟨"X", ["N", "'t'"], none, 3⟩, .rule ⟨"N", [], none, 4⟩,
    .rule ⟨"A", ["'a'"], none, 5⟩, .rule ⟨"B", ["'a'"], none, 6⟩]

/-- The theorem speaks of a token that is found, as the symbol that can be empty can begin
    with it too. -/
theorem derived_iff_surfaces_either :
    ∃ g, Grammar.define (behind ++ [.rule ⟨"N", ["'t'"], none, 7⟩]) = .ok g ∧
      StateItem.Stands (after g [.lalr]) ⟨4, ⟨2, 1⟩⟩ ∧ Item.next? g ⟨2, 1⟩ = some 7 ∧
      3 ∈ g.first 7 ∧ g.isNullable 8 = true ∧
      (derivationOf? g (after g [.lalr]) ⟨4, ⟨2, 1⟩⟩ 3).isSome = true ∧
      ((∃ d, derivationOf? g (after g [.lalr]) ⟨4, ⟨2, 1⟩⟩ 3 = some d) ↔
        g.Surfaces 3 (Item.after g ⟨2, 1⟩)) ∧
      (∀ d, derivationOf? g (after g [.lalr]) ⟨4, ⟨2, 1⟩⟩ 3 = some d →
        d.item = ⟨2, 1⟩ ∧ ∃ i, d.spine.getLast? = some i ∧ i.next? g = some 3) ∧
      ((∀ N, g.isNullable N = true → 3 ∈ g.first N) →
        ∃ d, derivationOf? g (after g [.lalr]) ⟨4, ⟨2, 1⟩⟩ 3 = some d) := by
  obtain ⟨g, hg, hcheck⟩ := Grammar.exists_define
    (behind ++ [.rule ⟨"N", ["'t'"], none, 7⟩])
    (fun g => StateItem.Stands (after g [.lalr]) ⟨4, ⟨2, 1⟩⟩ ∧ Item.next? g ⟨2, 1⟩ = some 7 ∧
      3 ∈ g.first 7 ∧ g.isNullable 8 = true ∧
      (derivationOf? g (after g [.lalr]) ⟨4, ⟨2, 1⟩⟩ 3).isSome = true) (by decide +kernel)
  obtain ⟨hp, hX, ht, hN, hsome⟩ := of_decide_eq_true hcheck
  exact ⟨g, hg, hp, hX, ht, hN, hsome, derived_iff_surfaces hg _ hp hX ht⟩

/-- **A token that is not derived.**  The search gives up at `N`, which is empty, and so
    does not come to the token behind it. -/
theorem exists_not_derived : ∃ g, Grammar.define behind = .ok g ∧
    StateItem.Stands (after g [.lalr]) ⟨4, ⟨2, 1⟩⟩ ∧ Item.next? g ⟨2, 1⟩ = some 7 ∧
      g.isTerminal 3 = true ∧ 3 ∈ g.first 7 ∧
      derivationOf? g (after g [.lalr]) ⟨4, ⟨2, 1⟩⟩ 3 = none := by
  obtain ⟨g, hg, hcheck⟩ := Grammar.exists_define behind
    (fun g => StateItem.Stands (after g [.lalr]) ⟨4, ⟨2, 1⟩⟩ ∧ Item.next? g ⟨2, 1⟩ = some 7 ∧
      g.isTerminal 3 = true ∧ 3 ∈ g.first 7 ∧
      derivationOf? g (after g [.lalr]) ⟨4, ⟨2, 1⟩⟩ 3 = none) (by decide +kernel)
  exact ⟨g, hg, of_decide_eq_true hcheck⟩

end Counterexample

end LRAutomata
