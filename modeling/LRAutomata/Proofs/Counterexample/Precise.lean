/-
  The tokens along a path, and shortest paths to a reduction.

  Along a path the search for a reduction carries a set of tokens, from the end
  marker on (`Counterexample.lookaheadAlong`).  As long as the set is not empty its
  tokens are canonical lookaheads of the items passed (`IsPath.valid`); if it becomes
  empty, as symbols derive nothing, what follows them is carried on all the same.

  The search finds a path with the token if there is any, and no such path is
  shorter (`Counterexample.shortestPath_precise`).

  The right-hand sides of the grammar are taken to fit the positions (`Item`).
-/
import LRAutomata.Proofs.Automaton.Valid
import LRAutomata.Proofs.Counterexample.Reduction

namespace LRAutomata

open Search

namespace Counterexample

/-- The tokens that can really come after the rule of an item, one step further. -/
def carry (g : Grammar) (s : NatSet) : PathStep → NatSet
  | .production p _ => preciseFollow g p.item s
  | .start _ | .transition .. => s

/-- The tokens that can really come after the rule of the last item of a path. -/
def lookaheadAlong (g : Grammar) (path : List PathStep) : NatSet :=
  path.foldl (carry g) {SymbolId.endMarker}

/-- At no step of the path its tokens are lost. -/
def KeepsTokens (g : Grammar) (path : List PathStep) : Prop :=
  ∀ path', path' <+: path → (lookaheadAlong g path').isEmpty = false

/-- A path to the item with the token among those that can really come after its rule. -/
def Carries (g : Grammar) (a : Automaton) (p : StateItem) (t : SymbolId) (path : List PathStep) : Prop :=
  IsPath g a path p ∧ t ∈ lookaheadAlong g path

variable {g : Grammar} {path : List PathStep}

theorem lookaheadAlong_snoc (path : List PathStep) (step : PathStep) :
    lookaheadAlong g (path ++ [step]) = carry g (lookaheadAlong g path) step := by
  rw [lookaheadAlong, List.foldl_append]; rfl

theorem keepsTokens_snoc {step : PathStep} : KeepsTokens g (path ++ [step]) ↔
    KeepsTokens g path ∧ (lookaheadAlong g (path ++ [step])).isEmpty = false := by
  simp only [KeepsTokens, List.prefix_concat_iff, forall_eq_or_imp]
  exact and_comm

end Counterexample

open Counterexample

/-! ## Canonical lookaheads -/

namespace IsPath

variable {g : Grammar} {a : Automaton} {path : List PathStep} {p : StateItem}

/-- Where the tokens of a path are not lost, its last item is valid with them. -/
theorem valid (h : IsPath g a path p) (wf : g.WellFormed) (hkeeps : KeepsTokens g path) :
    ∀ t ∈ lookaheadAlong g path, p.item.Valid g (PathStep.word g path) t := by
  induction h with
  | start =>
    intro t ht
    rw [NatSet.mem_singleton.1 ht]
    exact .start
  | transition _ hX _ _ ih =>
    intro t ht
    rw [PathStep.word_snoc_transition hX]
    rw [lookaheadAlong_snoc] at ht
    exact (ih (keepsTokens_snoc.1 hkeeps).1 t ht).read hX
  | @production path p r _ hr hnext _ ih =>
    intro t ht
    rw [PathStep.word_snoc_production]
    rw [lookaheadAlong_snoc] at ht
    have hkeeps := (keepsTokens_snoc.1 hkeeps).1
    have valid := ih hkeeps
    rcases (mem_preciseFollow wf).1 ht with hbegins | ⟨hvanish, ht⟩
    · obtain ⟨u, hu⟩ := NatSet.isEmpty_eq_false_iff.1 (hkeeps path (List.prefix_refl path))
      exact (valid u hu).expand ⟨r, hr, hnext, rfl⟩
        ((wf.begins_snoc ((valid u hu).isTerminal wf)).2 (.inl hbegins))
    · exact (valid t ht).expand ⟨r, hr, hnext, rfl⟩
        ((wf.begins_snoc ((valid t ht).isTerminal wf)).2 (.inr ⟨hvanish, rfl⟩))

/-- In a grounded grammar tokens are not lost. -/
theorem keepsTokens (h : IsPath g a path p) (wf : g.WellFormed) (hground : g.Grounded) :
    KeepsTokens g path := by
  induction h with
  | start =>
    have hnonempty : (lookaheadAlong g [.start ⟨StateId.start, Item.start⟩]).isEmpty = false :=
      NatSet.isEmpty_eq_false_iff.2 ⟨_, NatSet.mem_singleton.2 rfl⟩
    refine (@keepsTokens_snoc g [] _).2 ⟨fun path' hpath' => ?_, hnonempty⟩
    rw [List.prefix_nil.1 hpath']
    exact hnonempty
  | @transition path p X q _ hX _ _ ih =>
    refine keepsTokens_snoc.2 ⟨ih, ?_⟩
    rw [lookaheadAlong_snoc]
    exact ih path (List.prefix_refl path)
  | @production path p r hpath hr hnext _ ih =>
    refine keepsTokens_snoc.2 ⟨ih, ?_⟩
    rw [lookaheadAlong_snoc]
    obtain ⟨u, hu⟩ := NatSet.isEmpty_eq_false_iff.1 (ih path (List.prefix_refl path))
    have hvalid := hpath.valid wf ih u hu
    obtain ⟨t, ht⟩ := hground.exists_begins wf hvalid.viable (hvalid.isTerminal wf)
    refine NatSet.isEmpty_eq_false_iff.2 ⟨t, (mem_preciseFollow wf).2 ?_⟩
    rcases (wf.begins_snoc (hvalid.isTerminal wf)).1 ht with ht | ⟨hvanish, rfl⟩
    · exact .inl ht
    · exact .inr ⟨hvanish, hu⟩

/-! ## Paths of the search -/

/-- The search follows every path, and carries its tokens. -/
theorem exists_way (h : IsPath g a path p) (wf : g.WellFormed) : ∃ l,
    Way (preciseMoves g a) preciseStart (⟨p, lookaheadAlong g path⟩ :: l) ∧
      path.length = l.length + 1 := by
  induction h with
  | start => exact ⟨[], .start, rfl⟩
  | transition _ hX hq hkernel ih =>
    obtain ⟨l, hl, hlength⟩ := ih
    refine ⟨_, hl.step (mem_preciseMoves.2 (.inl ⟨?_, ?_⟩)), by simp [hlength]⟩
    · exact StateItem.advance?_eq_some_iff.2 ⟨_, hX, hq, rfl, hkernel⟩
    · rw [lookaheadAlong_snoc]; rfl
  | production _ hr hnext hclosure ih =>
    obtain ⟨l, hl, hlength⟩ := ih
    refine ⟨_, hl.step (mem_preciseMoves.2 (.inr ⟨?_, ?_⟩)), by simp [hlength]⟩
    · exact StateItem.mem_productions.2 ⟨rfl, hclosure, hnext, wf.lhs_nonterminal hr⟩
    · rw [lookaheadAlong_snoc]; rfl

end IsPath

namespace Counterexample

open Automaton StateItem

variable {g : Grammar} {b : Graph} {path : List PathStep} {q : StateId} {i : Item} {t : SymbolId}

/-- What the search carries is what its path carries. -/
theorem lookaheadAlong_of_way (h : Complete g b) (wf : g.WellFormed) {n : PreciseItem}
    {l : List PreciseItem} (hl : Way (preciseMoves g (ofGraph g b)) preciseStart (n :: l)) :
    lookaheadAlong g (PathStep.path ((n :: l).map PreciseItem.place).reverse) = n.lookahead := by
  generalize hnodes : n :: l = nodes at hl
  induction hl generalizing n l with
  | start => cases hnodes; rfl
  | @step p n l hl hn ih =>
    cases hnodes
    rw [List.map_cons, List.map_cons, PathStep.path_reverse_cons, lookaheadAlong_snoc,
      ← List.map_cons, ih rfl, PathStep.along]
    rcases mem_preciseMoves.1 hn with ⟨hadvance, hlookahead⟩ | ⟨hproduction, hlookahead⟩
    · obtain ⟨-, -, -, hitem, -⟩ := advance?_eq_some_iff.1 hadvance
      rw [hitem, if_neg (by simp [Item.isInitial, Item.advance]), hlookahead]
      rfl
    · have hp := (hl.forall_mem (inBounds_start h wf) (InBounds.move h wf) p List.mem_cons_self).1
      obtain ⟨r, -, -, hitem⟩ := h.expands_of_mem_productions hp hproduction
      rw [hitem, if_pos (show Item.isInitial ⟨r, 0⟩ = true from rfl), hlookahead]
      rfl

/-- The path found carries the token, and no path that carries it is shorter. -/
theorem carries_of_shortestPath? (h : Complete g b) (wf : g.WellFormed)
    (hpath : shortestPath? g (ofGraph g b) q i t = some path) :
    Carries g (ofGraph g b) ⟨q, i⟩ t path ∧
      ∀ other, Carries g (ofGraph g b) ⟨q, i⟩ t other → path.length ≤ other.length := by
  obtain ⟨trail, htrail, rfl⟩ := Option.map_eq_some_iff.1 hpath
  obtain ⟨hway, hgoal⟩ := way_of_shortest? htrail
  obtain ⟨hplace, ht⟩ := Bool.and_eq_true_iff.1 hgoal
  have hplace : trail.last.place = ⟨q, i⟩ := of_decide_eq_true hplace
  have hroute : Route g (ofGraph g b) (trail.last.place :: trail.earlier.map PreciseItem.place) :=
    hway.map fun p n => place_mem_moves
  rw [Trail.forward, List.map_reverse]
  refine ⟨⟨?_, ?_⟩, fun other hother => ?_⟩
  · rw [← hplace]
    exact hroute.isPath h wf
  · rw [Trail.backward, lookaheadAlong_of_way h wf hway]
    exact of_decide_eq_true ht
  · obtain ⟨l, hl, hlength⟩ := hother.1.exists_way wf
    have hle := length_le_of_shortest? htrail hl (by simpa using hother.2)
    simpa [hlength, Trail.backward] using hle

/-- **A shortest path carries the token.**  The path that the search finds leads to
    the item in the state `q`, along a string that leads to `q`, and carries the
    token; no path that carries it is shorter, and if none is found there is none.
    The token is a canonical lookahead after this string if tokens are never lost
    along the path, and so always in a grounded grammar. -/
theorem shortestPath_precise {decls : List Declaration} (hg : Grammar.define decls = .ok g)
    (mode : Mode) (q : StateId) (i : Item) (t : SymbolId) :
    (∀ path, shortestPath? g (generate g mode) q i t = some path →
      Carries g (generate g mode) ⟨q, i⟩ t path ∧
      (generate g mode).transition StateId.start (PathStep.word g path) = .ok q ∧
      (KeepsTokens g path ∨ g.Grounded → i.Valid g (PathStep.word g path) t) ∧
      ∀ other, Carries g (generate g mode) ⟨q, i⟩ t other → path.length ≤ other.length) ∧
    (shortestPath? g (generate g mode) q i t = none →
      ∀ other, ¬ Carries g (generate g mode) ⟨q, i⟩ t other) := by
  have wf := Grammar.wellFormed_of_define hg
  obtain ⟨b, hb, heq⟩ := exists_complete_generate wf mode
  rw [heq]
  constructor
  · intro path hpath
    obtain ⟨⟨isPath, ht⟩, shortest⟩ := carries_of_shortestPath? hb wf hpath
    refine ⟨⟨isPath, ht⟩, (transition_eq_ok_iff _).2 isPath.reads_word, fun hkeeps => ?_, shortest⟩
    exact isPath.valid wf (hkeeps.elim id (isPath.keepsTokens wf)) t ht
  · rintro hnone other ⟨isPath, ht⟩
    obtain ⟨l, hl, -⟩ := isPath.exists_way wf
    obtain ⟨path, hpath⟩ := exists_shortestPath? hb wf hl.reflTransGen ht
    rw [hnone] at hpath
    cases hpath

/-- The theorem speaks of a path through two conditionals, of which only the inner
    one can be followed by `'e'`, and of an item that this token never follows. -/
theorem shortestPath_precise_dangling : ∃ g, Grammar.define
      [.rule ⟨"S", ["'i'", "S", "'e'", "S"], none, 1⟩, .rule ⟨"S", ["'i'", "S"], none, 2⟩,
        .rule ⟨"S", ["'x'"], none, 3⟩] = .ok g ∧
    (∃ q path, shortestPath? g (generate g .ielr) q ⟨2, 2⟩ 4 = some path ∧
      PathStep.word g path = [3, 3, 7] ∧ Item.Valid g [3, 3, 7] ⟨2, 2⟩ 4 ∧
      ∀ other, Carries g (generate g .ielr) ⟨q, ⟨2, 2⟩⟩ 4 other → path.length ≤ other.length) ∧
    ∀ other, ¬ Carries g (generate g .ielr) ⟨StateId.start, Item.start⟩ 4 other := by
  obtain ⟨g, hg, hcheck⟩ := Grammar.exists_define
    [.rule ⟨"S", ["'i'", "S", "'e'", "S"], none, 1⟩, .rule ⟨"S", ["'i'", "S"], none, 2⟩,
      .rule ⟨"S", ["'x'"], none, 3⟩]
    (fun g => (∃ q < (generate g .ielr).states.size,
        ((shortestPath? g (generate g .ielr) q ⟨2, 2⟩ 4).map (PathStep.word g)) = some [3, 3, 7]) ∧
      shortestPath? g (generate g .ielr) StateId.start Item.start 4 = none ∧
      ∀ X < g.symbols.size, g.isNullable X = true ∨ (g.first X).isEmpty = false)
    (by decide +kernel)
  obtain ⟨⟨q, -, hpath⟩, hnone, hground⟩ := of_decide_eq_true hcheck
  have grounded := (Grammar.wellFormed_of_define hg).grounded_of_forall hground
  obtain ⟨path, hpath, hword⟩ := Option.map_eq_some_iff.1 hpath
  obtain ⟨-, -, hvalid, hshortest⟩ := (shortestPath_precise hg .ielr q ⟨2, 2⟩ 4).1 path hpath
  refine ⟨g, hg, ⟨q, path, hpath, hword, ?_, hshortest⟩,
    (shortestPath_precise hg .ielr StateId.start Item.start 4).2 hnone⟩
  rw [← hword]
  exact hvalid (.inr grounded)

/-- Where tokens are lost, the search finds a path all the same.  As `C → C 'z'`
    derives no terminal string, nothing canonical follows `B`, and `D → 'd'` is never
    valid; but the search goes on to `'t'`, which is read after `D`. -/
theorem shortestPath_ungrounded : ∃ g, Grammar.define
      [.rule ⟨"S", ["B", "C"], none, 1⟩, .rule ⟨"C", ["C", "'z'"], none, 2⟩,
        .rule ⟨"B", ["D", "'t'"], none, 3⟩, .rule ⟨"B", ["E", "'t'"], none, 4⟩,
        .rule ⟨"D", ["'d'"], none, 5⟩, .rule ⟨"E", ["'d'"], none, 6⟩] = .ok g ∧
    ∃ path, shortestPath? g (generate g .lalr) 1 ⟨5, 1⟩ 4 = some path ∧
      ∀ γ, ¬ Item.Valid g γ ⟨5, 1⟩ 4 := by
  obtain ⟨g, hg, hcheck⟩ := Grammar.exists_define
    [.rule ⟨"S", ["B", "C"], none, 1⟩, .rule ⟨"C", ["C", "'z'"], none, 2⟩,
      .rule ⟨"B", ["D", "'t'"], none, 3⟩, .rule ⟨"B", ["E", "'t'"], none, 4⟩,
      .rule ⟨"D", ["'d'"], none, 5⟩, .rule ⟨"E", ["'d'"], none, 6⟩]
    (fun g => (shortestPath? g (generate g .lalr) 1 ⟨5, 1⟩ 4).isSome = true ∧
      ∀ r : Nat, r < 3 → ∀ n, n < (g.rhs r).length → ∀ r' : Nat, r' < g.rules.size →
        (g.rhs r)[n]? = some (g.lhs r') → r' < 3 ∨ Item.isBlind g ⟨r, n⟩ = true)
    (by decide +kernel)
  obtain ⟨hpath, hstep⟩ := of_decide_eq_true hcheck
  obtain ⟨path, hpath⟩ := Option.isSome_iff_exists.1 hpath
  refine ⟨g, hg, path, hpath, fun γ hvalid => ?_⟩
  have hlt : 5 < 3 := (Grammar.wellFormed_of_define hg).rule_of_valid (P := (· < 3)) (by decide)
    hstep hvalid
  exact absurd hlt (by decide)

end Counterexample

end LRAutomata
