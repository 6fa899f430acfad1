/-
  A grammar is unambiguous if its automaton has no conflicts.

  The shifts and reductions by which a tree is parsed are among those that the
  viable items tell (`Grammar.Parses.run`).  Where these are unique, two trees
  with the same leaves are parsed by the same actions, and are the same
  (`Grammar.unambiguous_of_unique`).

  The right-hand sides of the grammar are taken to fit the positions (`Item`).
-/
import LRAutomata.Proofs.Automaton.Calls
import LRAutomata.Proofs.Grammar.ParseTree

namespace LRAutomata

/-- No string has two actions on the same token, as far as the viable items tell. -/
def Grammar.Deterministic (g : Grammar) : Prop :=
  ∀ γ α β t, g.Takes γ α t → g.Takes γ β t → α = β

/-- The actions lead from one parse to the other, and each of them is one after the
    symbols on the stack, on the next token. -/
inductive Parse.Run (g : Grammar) : Parse → List Action → Parse → Prop
  | nil (c : Parse) : Run g c [] c
  | cons {stack : List ParseTree} {t : SymbolId} {input : List SymbolId} {α : Action}
      {actions : List Action} {c c' : Parse} : g.Takes (Parse.symbols g stack) α t →
      Parse.perform g (stack, t :: input) α = some c → Run g c actions c' →
      Run g (stack, t :: input) (α :: actions) c'

namespace Parse.Run

variable {g : Grammar} {c c' c'' : Parse} {actions actions' : List Action}

theorem append (h : Run g c actions c') (h' : Run g c' actions' c'') :
    Run g c (actions ++ actions') c'' := by
  induction h with
  | nil => exact h'
  | cons htakes hperform _ ih => exact .cons htakes hperform (ih h')

/-- Of two runs from the same parse one continues the other. -/
theorem continues (unique : g.Deterministic) (h : Run g c actions c') (h' : Run g c actions' c'') :
    (∃ more, actions' = actions ++ more ∧ Run g c' more c'') ∨
      ∃ more, actions = actions' ++ more ∧ Run g c'' more c' := by
  induction h generalizing actions' with
  | nil => exact .inl ⟨actions', rfl, h'⟩
  | cons htakes hperform hrun ih =>
    cases h' with
    | nil => exact .inr ⟨_, rfl, .cons htakes hperform hrun⟩
    | cons htakes' hperform' hrun' =>
      obtain rfl := unique _ _ _ _ htakes htakes'
      obtain rfl := Option.some.inj (hperform.symm.trans hperform')
      rcases ih hrun' with ⟨more, rfl, hmore⟩ | ⟨more, rfl, hmore⟩
      · exact .inl ⟨more, rfl, hmore⟩
      · exact .inr ⟨more, rfl, hmore⟩

end Parse.Run

namespace Grammar

variable {g : Grammar}

mutual

/-- **Trees are parsed by actions of the grammar**, where the root is expected and
    the next token follows it. -/
theorem Parses.run {X : SymbolId} {T : ParseTree} {w : List SymbolId} (h : g.Parses X T w)
    {stack : List ParseTree} {i : Item} {t : SymbolId} {v : List SymbolId}
    (hi : i.Viable g (Parse.symbols g stack)) (hnext : i.next? g = some X)
    (hfollows : g.isTerminal X = false → g.Follows (Parse.symbols g stack) X t) (wf : g.WellFormed) :
    Parse.Run g (stack, w ++ t :: v) T.actions (T :: stack, t :: v) := by
  match h with
  | .leaf hX => exact .cons ⟨hX, i, hi, hnext⟩ rfl (.nil _)
  | @Parses.node _ r children w hr hs =>
    have hfollows := hfollows (wf.lhs_nonterminal hr)
    have hchildren : Parse.Run g (stack, w ++ t :: v) (ParseTree.actionsAll children)
        (children.reverse ++ stack, t :: v) :=
      hs.run (r := r) (n := 0) rfl (by simp) (hi.expand ⟨r, hr, hnext, rfl⟩) hr hfollows wf
    refine hchildren.append (.cons (c := (.node r children :: stack, t :: v)) ?_ ?_ (.nil _))
    · rw [hs.symbols_eq]
      exact ⟨hr, Parse.symbols g stack, by rw [Item.before, List.take_length], hfollows⟩
    · exact Parse.perform_reduce _ (by rw [← hs.roots_eq, List.length_map])

/-- The trees of the rest of a right-hand side are parsed where it is expected. -/
theorem ParsesAll.run {Xs : List SymbolId} {Ts : List ParseTree} {w : List SymbolId}
    (h : g.ParsesAll Xs Ts w) {γ : List SymbolId} {stack : List ParseTree} {t : SymbolId}
    {v : List SymbolId} {r : RuleId} {n : Nat} (hXs : (g.rhs r).drop n = Xs)
    (hstack : Parse.symbols g stack = γ ++ (g.rhs r).take n) (hinitial : Item.Viable g γ ⟨r, 0⟩)
    (hr : r < g.rules.size) (hfollows : g.Follows γ (g.lhs r) t) (wf : g.WellFormed) :
    Parse.Run g (stack, w ++ t :: v) (ParseTree.actionsAll Ts) (Ts.reverse ++ stack, t :: v) := by
  match h with
  | .nil => exact .nil _
  | @ParsesAll.cons _ X Xs T Ts w w' hT hTs =>
    have hn : n < (g.rhs r).length := by
      apply Nat.lt_of_not_le
      intro hle
      rw [List.drop_eq_nil_of_le hle] at hXs
      cases hXs
    rw [List.drop_eq_getElem_cons hn] at hXs
    obtain ⟨hX, hXs⟩ := List.cons.inj hXs
    have hnext : Item.next? g ⟨r, n⟩ = some X := by
      rw [← hX]; exact List.getElem?_eq_getElem hn
    have hviable : Item.Viable g (Parse.symbols g stack) ⟨r, n⟩ := by
      rw [hstack]; exact hinitial.read_take (i := ⟨r, 0⟩) n (Nat.le_of_lt hn)
    obtain ⟨u, input, heq⟩ : ∃ u input, w' ++ t :: v = u :: input := by cases w' <;> exact ⟨_, _, rfl⟩
    -- The next token begins the rest of the right-hand side, or follows it.
    have hnextFollows : g.Follows (Parse.symbols g stack) X u := by
      have hafter : Item.afterNext g ⟨r, n⟩ = Xs := hXs
      rcases hTs.begins_or_vanishes heq with hbegins | ⟨hvanishes, rfl⟩
      · exact .begins hviable hnext (hafter ▸ hbegins)
      · rw [hstack]
        exact .inherits (i := ⟨r, n⟩) hfollows hr hnext (hafter ▸ hvanishes)
    have hhead := hT.run (t := u) (v := input) hviable hnext (fun _ => hnextFollows) wf
    have hpushed : Parse.symbols g (T :: stack) = γ ++ (g.rhs r).take (n + 1) := by
      rw [Parse.symbols, List.map_cons, List.reverse_cons, hT.root_eq, ← hX, ← List.take_append_getElem hn,
        ← List.append_assoc, ← hstack, Parse.symbols]
    have htail := hTs.run (t := t) (v := v) hXs hpushed hinitial hr hfollows wf
    rw [← heq] at hhead
    rw [List.append_assoc, List.reverse_cons, List.append_assoc]
    exact hhead.append htail

end

/-- **Unique actions leave no choice.**  If no string has two actions on the same
    token, no string of terminals has two parse trees. -/
theorem unambiguous_of_unique (unique : g.Deterministic) (wf : g.WellFormed) : g.Unambiguous := by
  have hnext : Item.start.next? g = some g.start := by
    rw [Item.next?, Item.start, wf.rhs_accept]; rfl
  have hfollows : g.Follows [] g.start SymbolId.endMarker := by
    refine .begins (i := Item.start) .start hnext ⟨wf.terminal_endMarker, [], ?_⟩
    rw [Item.afterNext, Item.start, wf.rhs_accept]; exact .refl _
  have run : ∀ {T w}, g.Parses g.start T w →
      Parse.Run g ([], w ++ [SymbolId.endMarker]) T.actions ([T], [SymbolId.endMarker]) :=
    fun h => Parses.run h .start hnext (fun _ => hfollows) wf
  -- When the start symbol has been parsed, the end marker is shifted and nothing is left.
  have ends : ∀ {T T' w more}, g.Parses g.start T w →
      Parse.Run g ([T], [SymbolId.endMarker]) more ([T'], [SymbolId.endMarker]) → T = T' := by
    intro T T' w more hT hmore
    cases hmore with
    | nil => rfl
    | cons htakes hperform hrun =>
      have hshift : g.Takes (Parse.symbols g [T]) .shift SymbolId.endMarker := by
        refine ⟨wf.terminal_endMarker, Item.start.advance, ?_, ?_⟩
        · rw [Parse.symbols, List.map_cons, hT.root_eq]; exact Item.Viable.start.read hnext
        · rw [Item.next?, Item.advance, Item.start, wf.rhs_accept]; rfl
      obtain rfl := unique _ _ _ _ htakes hshift
      cases hperform
      cases hrun
  intro w T T' hT hT'
  rcases Parse.Run.continues unique (run hT) (run hT') with ⟨more, -, hmore⟩ | ⟨more, -, hmore⟩
  · exact ends hT hmore
  · exact (ends hT' hmore).symm

end Grammar

namespace Automaton

variable {g : Grammar} {a : Graph}

/-- Without conflicts, resolved or not, no string has two actions on a token. -/
theorem deterministic_of_conflictFree (h : a.OfItems g) (wf : g.WellFormed) (reach : a.Reachable)
    (hfree : ∀ q, q < a.size →
      ((ofGraph g a).state q).conflicts = [] ∧ ((ofGraph g a).state q).resolved = []) :
    g.Deterministic := by
  intro γ α β t hα hβ
  obtain ⟨q, hγ⟩ : ∃ q, a.Reads StateId.start γ q := by
    refine (h.exists_reads_iff wf).2 ?_
    cases α with
    | shift => obtain ⟨-, i, hi, -⟩ := hα; exact ⟨i, hi⟩
    | reduce ρ => exact ⟨_, hα.viable⟩
  have hq := (h.reads_kernel hγ).1
  obtain ⟨hconflicts, hresolved⟩ := hfree q hq
  have offers : ∀ {α}, g.Takes γ α t → a.Offers g q α t := fun hα =>
    (Graph.offers_iff h wf reach hq).2 ⟨γ, hγ, hα⟩
  -- A choice that precedence decides is recorded as resolved.
  have resolved : ∀ {ρ}, a.Offers g q .shift t → a.Offers g q (.reduce ρ) t →
      g.verdict t ρ = .undecided := by
    intro ρ hshift hreduce
    cases hv : g.verdict t ρ with
    | undecided => rfl
    | decided resolution byAssoc =>
      obtain ⟨c, hc, -⟩ := (exists_resolved_iff h wf reach hq).2 ⟨hshift, hreduce, byAssoc, hv⟩
      rw [hresolved] at hc
      cases hc
  rcases (conflicts_eq_nil_iff h wf reach hq).1 hconflicts t α β (offers hα) (offers hβ) with heq | hdecides
  · exact heq
  · match α, β, hα, hβ, hdecides with
    | .shift, .reduce ρ, hα, hβ, hdecides => exact absurd (resolved (offers hα) (offers hβ)) hdecides
    | .reduce ρ, .shift, hα, hβ, hdecides => exact absurd (resolved (offers hβ) (offers hα)) hdecides

/-- **A conflict-free automaton can be trusted.**  If no state has a conflict or a
    resolved conflict, in either mode, every string of terminals has at most one
    parse tree from the start symbol. -/
theorem unambiguous_of_generate {decls : List Declaration} {g : Grammar}
    (h : Grammar.define decls = .ok g) (mode : Mode)
    (hfree : ∀ q, q < (generate g mode).states.size →
      ((generate g mode).state q).conflicts = [] ∧ ((generate g mode).state q).resolved = []) :
    g.Unambiguous := by
  have wf := Grammar.wellFormed_of_define h
  obtain ⟨b, hb, heq⟩ := exists_complete_generate wf mode
  rw [heq, size_ofGraph] at hfree
  exact Grammar.unambiguous_of_unique
    (deterministic_of_conflictFree hb.toOfItems wf hb.reachable hfree) wf

/-- The theorem speaks of a grammar that is unambiguous though its LALR(1) automaton
    has a conflict. -/
theorem unambiguous_of_generate_split : ∃ g, Grammar.define Grammar.crossing = .ok g ∧
    (lalr g).conflictStates ≠ [] ∧
    (∀ q, q < (generate g .ielr).states.size →
      ((generate g .ielr).state q).conflicts = [] ∧ ((generate g .ielr).state q).resolved = []) ∧
    g.Unambiguous := by
  obtain ⟨g, hg, hcheck⟩ := Grammar.exists_define Grammar.crossing
    (fun g => (lalr g).conflictStates ≠ [] ∧ ∀ q, q < (generate g .ielr).states.size →
      ((generate g .ielr).state q).conflicts = [] ∧ ((generate g .ielr).state q).resolved = [])
    (by decide +kernel)
  obtain ⟨hlalr, hfree⟩ := of_decide_eq_true hcheck
  exact ⟨g, hg, hlalr, hfree, unambiguous_of_generate hg .ielr hfree⟩

end Automaton

end LRAutomata
