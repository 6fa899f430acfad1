/-
  What is recorded in a row.

  The shifts of a row are compared with its reductions one by one, and records
  and marks are added on the way.  In a row that has neither yet (`Row.Blank`)
  this leaves just the records and marks that are read off the items and the
  lookaheads at once (`Row.state_record`).  Clearing a row makes it blank, whatever
  was recorded in it (`Row.blank_clear`).

  All of this is about rows whose transitions are on the symbols of their shifts
  (`Row.Paired`).
-/
import LRAutomata.Proofs.Automaton.Records
import LRAutomata.Proofs.Data.OrderedMap
import LRAutomata.Table.Row

namespace LRAutomata

variable {g : Grammar}

namespace Row

/-! ## Transitions -/

/-- The transitions are on the symbols of the shifts, in the same order. -/
def Paired (r : Row) : Prop :=
  r.transitions.keys = r.shifts.map Shift.symbol

variable {r : Row} {X : SymbolId}

@[simp] theorem symbols_edges (r : Row) : r.edges.map Edge.symbol = r.shifts.map Shift.symbol := by
  rw [edges, List.map_map]; rfl

theorem Paired.nodup (h : r.Paired) : (r.shifts.map Shift.symbol).Nodup := by
  rw [← h]; exact r.transitions.keys_nodup

/-- The transitions of the core are those of the row. -/
theorem Paired.next?_core (h : r.Paired) (X : SymbolId) :
    r.core.next? X = r.transitions.get? X := by
  rw [Core.next?, show r.core.edges = r.edges from rfl, edges, List.find?_map, Option.map_map]
  cases hX : r.transitions.get? X with
  | none =>
    have hmem : X ∉ r.shifts.map Shift.symbol := by
      rw [← h, OrderedMap.mem_keys_iff, hX]; exact Bool.false_ne_true
    rw [List.find?_eq_none.2, Option.map_none]
    intro s hs heq
    exact hmem (List.mem_map.2 ⟨s, hs, of_decide_eq_true heq⟩)
  | some q =>
    have hmem : X ∈ r.shifts.map Shift.symbol := by
      rw [← h, OrderedMap.mem_keys_iff, hX]; rfl
    obtain ⟨s, hs, hsymbol⟩ := List.mem_map.1 hmem
    cases hfind : r.shifts.find? ((fun e : Edge => decide (e.symbol = X)) ∘ fun s =>
        ⟨s.symbol, r.transitions.getD s.symbol StateId.start, s.nextItems⟩) with
    | none => exact absurd (decide_eq_true hsymbol) (List.find?_eq_none.1 hfind s hs)
    | some s' =>
      have hs' := List.find?_some hfind
      obtain rfl : s'.symbol = X := of_decide_eq_true hs'
      exact congrArg some (OrderedMap.getD_of_get? hX)

/-- The entries of the transitions are the symbols and targets of the edges. -/
theorem Paired.toList_transitions (h : r.Paired) :
    r.transitions.toList = r.edges.map fun e => (e.symbol, e.target) := by
  rw [OrderedMap.toList_eq r.transitions StateId.start, h, edges, List.map_map, List.map_map]
  rfl

/-! ## Comparing shifts with reductions -/

/-- The encounters of the shift of a symbol. -/
def meetings (g : Grammar) (X : SymbolId) (reductions : List Reduction) : List State.Encounter :=
  (reductions.filter fun red => X ∈ red.tokens).map fun red => ⟨X, red.item, g.verdict X red.rule⟩

/-- Whether precedence decides against the reduction by the rule. -/
def beats (g : Grammar) (X : SymbolId) (ρ : RuleId) : Bool :=
  match g.verdict X ρ with
  | .undecided | .decided .reduce _ => false
  | .decided .shift _ | .decided .error _ => true

/-- The reduction after it was compared with the shifts of the symbols. -/
def marked (g : Grammar) (Xs : List SymbolId) (red : Reduction) : Reduction :=
  { red with deselected := red.deselected ∪
      NatSet.ofList (Xs.filter fun X => X ∈ red.tokens ∧ beats g X red.rule) }

/-- Whether some record is not in favour of the shift. -/
def gaveWay (records : List ResolvedConflict) : Bool :=
  records.any fun c => c.resolution ≠ .shift

/-- The shift after it was compared with the reductions. -/
def compared (g : Grammar) (reductions : List Reduction) (s : Shift) : Shift :=
  { s with deselected := s.deselected || gaveWay (State.resolutions (meetings g s.symbol reductions)) }

variable {red : Reduction} {reductions : List Reduction} {t : SymbolId} {Xs Ys : List SymbolId}

@[simp] theorem tokens_marked (Xs : List SymbolId) (red : Reduction) :
    (marked g Xs red).tokens = red.tokens := rfl

@[simp] theorem item_marked (Xs : List SymbolId) (red : Reduction) :
    (marked g Xs red).item = red.item := rfl

@[simp] theorem rule_marked (Xs : List SymbolId) (red : Reduction) :
    (marked g Xs red).rule = red.rule := rfl

theorem marked_nil (red : Reduction) : marked g [] red = red := by
  have : red.deselected ∪ NatSet.ofList [] = red.deselected := NatSet.ext fun t => by simp
  simp [marked, this]

theorem marked_marked (Xs Ys : List SymbolId) (red : Reduction) :
    marked g Ys (marked g Xs red) = marked g (Xs ++ Ys) red := by
  rw [marked, marked, marked]
  congr 1
  refine NatSet.ext fun t => ?_
  simp only [NatSet.mem_union, NatSet.mem_ofList, List.filter_append, List.mem_append, or_assoc]
  exact Iff.rfl

/-- Marking changes nothing for the shifts that are compared later. -/
@[simp] theorem meetings_marked (X : SymbolId) (Xs : List SymbolId) (reductions : List Reduction) :
    meetings g X (reductions.map (marked g Xs)) = meetings g X reductions := by
  rw [meetings, List.filter_map, List.map_map]; rfl

theorem meetings_cons (X : SymbolId) (red : Reduction) (reductions : List Reduction) :
    meetings g X (red :: reductions) = (if X ∈ red.tokens then
      [⟨X, red.item, g.verdict X red.rule⟩] else []) ++ meetings g X reductions := by
  rw [meetings, List.filter_cons]
  by_cases h : X ∈ red.tokens <;> simp [h, meetings]

theorem marked_of_not_beats (X : SymbolId) (red : Reduction)
    (h : ¬ (X ∈ red.tokens ∧ beats g X red.rule = true)) : marked g [X] red = red := by
  rw [marked, List.filter_singleton, decide_eq_false h]
  exact marked_nil (g := g) red

theorem marked_of_beats {X : SymbolId} (h : X ∈ red.tokens) (hbeats : beats g X red.rule = true) :
    marked g [X] red = red.deselect X := by
  have : red.deselected ∪ NatSet.ofList [X] = insert X red.deselected :=
    NatSet.ext fun t => by simp [or_comm]
  simp [marked, Reduction.deselect, h, hbeats, this]

/-- What is made of a shift and of the reductions with which it is compared. -/
theorem foldl_next (reductions : List Reduction) (c : Comparison) :
    reductions.foldl (Comparison.next g) c =
      { shift := compared g reductions c.shift
        compared := c.compared ++ reductions.map (marked g [c.shift.symbol])
        conflicts := c.conflicts ++
          State.shiftReduceConflicts (meetings g c.shift.symbol reductions)
        resolved := c.resolved ++ State.resolutions (meetings g c.shift.symbol reductions) } := by
  induction reductions generalizing c with
  | nil => simp [compared, meetings, State.resolutions, State.shiftReduceConflicts, gaveWay]
  | cons red reductions ih =>
    rw [List.foldl_cons, ih, compared, compared, meetings_cons, Comparison.next]
    by_cases htoken : c.shift.symbol ∈ red.tokens
    · have hverdict : Verdict.ofPrecedence (g.symbol c.shift.symbol).precedence
          (g.rulePrecedence red.rule) = g.verdict c.shift.symbol red.rule := rfl
      rw [if_neg (not_not.2 htoken), hverdict, if_pos htoken]
      cases hv : g.verdict c.shift.symbol red.rule with
      | undecided =>
        have hmarked := marked_of_not_beats c.shift.symbol red (g := g) (by simp [beats, hv])
        simp [State.resolutions, State.shiftReduceConflicts, hmarked]
      | decided resolution byAssoc =>
        cases resolution
        case reduce =>
          have hmarked := marked_of_not_beats c.shift.symbol red (g := g) (by simp [beats, hv])
          simp [State.resolutions, State.shiftReduceConflicts, gaveWay, Shift.deselect, hmarked,
            Reduction.rule]
        all_goals
          have hmarked := marked_of_beats htoken (g := g) (by simp [beats, hv])
          simp [State.resolutions, State.shiftReduceConflicts, gaveWay, Shift.deselect, hmarked,
            Reduction.rule]
    · have hmarked := marked_of_not_beats c.shift.symbol red (g := g) fun h => htoken h.1
      rw [if_pos htoken, if_neg htoken]
      simp [hmarked]

/-- What is made of a row with whose reductions shifts are compared. -/
theorem foldl_compareShift (shifts : List Shift) (r : Row) :
    shifts.foldl (compareShift g) r =
      let met := shifts.flatMap fun s => meetings g s.symbol r.reductions
      { r with
        shifts := r.shifts ++ shifts.map (compared g r.reductions)
        reductions := r.reductions.map (marked g (shifts.map Shift.symbol))
        conflicts := r.conflicts ++ State.shiftReduceConflicts met
        resolved := r.resolved ++ State.resolutions met } := by
  induction shifts generalizing r with
  | nil =>
    have hmarked : marked g [] = fun red => red := funext marked_nil
    simp [hmarked, State.shiftReduceConflicts, State.resolutions]
  | cons s shifts ih =>
    rw [List.foldl_cons, ih, compareShift, foldl_next]
    simp [State.shiftReduceConflicts, State.resolutions, Function.comp_def, marked_marked, compared]

theorem encounters_eq (r : Row) (reductions : List Reduction) :
    State.encounters g r.core reductions = r.shifts.flatMap fun s => meetings g s.symbol reductions := by
  rw [State.encounters, show r.core.edges = r.edges from rfl, edges, List.flatMap_map]; rfl

theorem compareShifts_eq (r : Row) : r.compareShifts g =
    let met := State.encounters g r.core r.reductions
    { r with
      shifts := r.shifts.map (compared g r.reductions)
      reductions := r.reductions.map (marked g (r.shifts.map Shift.symbol))
      conflicts := r.conflicts ++ State.shiftReduceConflicts met
      resolved := r.resolved ++ State.resolutions met } := by
  rw [compareShifts, foldl_compareShift, encounters_eq]
  simp

/-! ## The marks say what the records say -/

theorem beats_iff {ρ : RuleId} : beats g X ρ = true ↔ ∃ resolution byAssoc,
    g.verdict X ρ = .decided resolution byAssoc ∧ (resolution = .shift ∨ resolution = .error) := by
  rw [beats]
  cases g.verdict X ρ with
  | undecided => simp
  | decided resolution byAssoc => cases resolution <;> simp

theorem mem_meetings {m : State.Encounter} : m ∈ meetings g X reductions ↔
    ∃ red ∈ reductions, X ∈ red.tokens ∧ m = ⟨X, red.item, g.verdict X red.rule⟩ := by
  simp only [meetings, List.mem_map, List.mem_filter, decide_eq_true_eq, and_assoc]
  exact exists_congr fun red => and_congr_right fun _ => and_congr_right fun _ => eq_comm

theorem losingTokens_eq {c : Core} (hrules : (reductions.map Reduction.rule).Nodup)
    (hred : red ∈ reductions) :
    State.losingTokens (State.resolutions (State.encounters g c reductions)) red.rule =
      NatSet.ofList ((c.edges.map Edge.symbol).filter fun X =>
        X ∈ red.tokens ∧ beats g X red.rule) := by
  refine NatSet.ext fun t => ?_
  rw [State.mem_losingTokens_iff, NatSet.mem_ofList, List.mem_filter, decide_eq_true_eq, beats_iff]
  constructor
  · rintro ⟨d, hd, rfl, hrule, hloses⟩
    obtain ⟨m, hm, hsymbol, hitem, hverdict⟩ := State.mem_resolutions.1 hd
    obtain ⟨e, he, red', hred', htokens, rfl⟩ := State.mem_encounters.1 hm
    obtain rfl : red' = red := List.inj_on_of_nodup_map hrules hred' hred (hitem.trans hrule)
    rw [← show e.symbol = d.symbol from hsymbol]
    exact ⟨List.mem_map_of_mem he, htokens, _, _, hverdict, hloses⟩
  · rintro ⟨ht, htokens, resolution, byAssoc, hverdict, hloses⟩
    obtain ⟨e, he, rfl⟩ := List.mem_map.1 ht
    have hm := (State.mem_encounters (g := g)).2 ⟨e, he, red, hred, htokens, rfl⟩
    exact ⟨⟨e.symbol, red.rule, resolution, byAssoc⟩,
      State.mem_resolutions.2 ⟨_, hm, rfl, rfl, hverdict⟩, rfl, rfl, hloses⟩

theorem gaveWay_iff {records : List ResolvedConflict} : gaveWay records = true ↔
    ∃ d ∈ records, d.resolution = .reduce ∨ d.resolution = .error := by
  simp only [gaveWay, List.any_eq_true, decide_eq_true_eq]
  refine exists_congr fun d => and_congr_right fun _ => ?_
  cases d.resolution <;> simp

theorem losingShifts_eq (hshifts : ∀ s ∈ r.shifts, s.deselected = false) :
    State.losingShifts (State.resolutions (State.encounters g r.core reductions)) =
      NatSet.ofList (((r.shifts.map (compared g reductions)).filter Shift.deselected).map
        Shift.symbol) := by
  refine NatSet.ext fun t => ?_
  simp only [State.mem_losingShifts, NatSet.mem_ofList, List.mem_map, List.mem_filter, encounters_eq]
  constructor
  · rintro ⟨d, hd, rfl, hloses⟩
    obtain ⟨m, hm, hsymbol, hitem, hverdict⟩ := State.mem_resolutions.1 hd
    obtain ⟨s, hs, hm⟩ := List.mem_flatMap.1 hm
    have hsame : s.symbol = d.symbol := by
      obtain ⟨_, -, -, rfl⟩ := mem_meetings.1 hm; exact hsymbol
    have hd := State.mem_resolutions.2 ⟨m, hm, hsymbol, hitem, hverdict⟩
    refine ⟨_, ⟨⟨s, hs, rfl⟩, ?_⟩, hsame⟩
    rw [compared, gaveWay_iff.2 ⟨d, hd, hloses⟩, Bool.or_true]
  · rintro ⟨_, ⟨⟨s, hs, rfl⟩, hdeselected⟩, rfl⟩
    rw [compared, hshifts s hs, Bool.false_or] at hdeselected
    obtain ⟨d, hd, hloses⟩ := gaveWay_iff.1 hdeselected
    obtain ⟨m, hm, hsymbol, hitem, hverdict⟩ := State.mem_resolutions.1 hd
    have hsame : d.symbol = s.symbol := by
      obtain ⟨_, -, -, rfl⟩ := mem_meetings.1 hm; exact hsymbol.symm
    exact ⟨d, State.mem_resolutions.2 ⟨m, List.mem_flatMap.2 ⟨s, hs, hm⟩, hsymbol, hitem, hverdict⟩,
      hsame, hloses⟩

/-! ## Comparing reductions, and choosing one -/

section Alike
variable {f : Reduction → Reduction}

theorem reduceReduceConflicts_map (tokens : ∀ red, (f red).tokens = red.tokens)
    (item : ∀ red, (f red).item = red.item) (reductions : List Reduction) :
    State.reduceReduceConflicts (reductions.map f) = State.reduceReduceConflicts reductions := by
  induction reductions with
  | nil => rfl
  | cons red rest ih =>
    simp only [List.map_cons, State.reduceReduceConflicts, ih, List.filterMap_map, Function.comp_def,
      tokens, item]

theorem widest?_map (tokens : ∀ red, (f red).tokens = red.tokens)
    (rule : ∀ red, (f red).rule = red.rule) (reductions : List Reduction) :
    State.widest? (reductions.map f) = (State.widest? reductions).map f := by
  induction reductions with
  | nil => rfl
  | cons red rest ih =>
    rw [List.map_cons, State.widest?, State.widest?, ih]
    cases State.widest? rest with
    | none => rfl
    | some best =>
      simp only [Option.map_some, tokens, rule]
      split <;> rfl

end Alike

/-- The row with the reduction by the rule as the default one, or with none. -/
def withDefault (chosen : Option RuleId) (r : Row) : Row :=
  { r with
    reductions := r.reductions.map fun red => { red with isDefault := chosen = some red.rule }
    defaultRule := chosen }

theorem withDefault_none (hrule : r.defaultRule = none)
    (hmarks : ∀ red ∈ r.reductions, red.isDefault = false) : r.withDefault none = r := by
  have unmarked : (r.reductions.map fun red =>
      { red with isDefault := decide (none = some red.rule) }) = r.reductions := by
    refine (List.map_congr_left fun red hred => ?_).trans (List.map_id _)
    rw [decide_eq_false (Option.some_ne_none _).symm, ← hmarks red hred]
    rfl
  rw [withDefault, unmarked, ← hrule]

/-- The default reduction is chosen and marked. -/
theorem chooseDefault_eq (hrule : r.defaultRule = none)
    (hmarks : ∀ red ∈ r.reductions, red.isDefault = false) :
    r.chooseDefault = r.withDefault (State.defaultRule? r.core r.reductions r.conflicts) := by
  have herror : r.core.hasErrorShift = r.shifts.any fun s => s.symbol = SymbolId.error := by
    rw [Core.hasErrorShift, show r.core.edges = r.edges from rfl, edges, List.any_map]; rfl
  rw [chooseDefault, State.defaultRule?, herror]
  cases r.conflicts.isEmpty <;> cases r.shifts.any fun s => s.symbol = SymbolId.error
  case true.false =>
    cases hwidest : State.widest? r.reductions with
    | none => simp [withDefault_none hrule hmarks]
    | some best =>
      have hne : r.reductions.isEmpty = false := by
        rw [List.isEmpty_eq_false_iff, ← State.widest?_isSome, hwidest]; rfl
      simp only [hne, withDefault]
      refine congrArg (fun reductions => { r with reductions, defaultRule := some best.rule })
        (List.map_congr_left fun red hred => ?_)
      by_cases h : red.rule = best.rule
      · simp [h]
      · simp [h, Ne.symm h, ← hmarks red hred]
  all_goals simp [withDefault_none hrule hmarks]

/-! ## Rows without records -/

/-- A row that has its reductions, but neither lookaheads nor records nor marks. -/
structure Blank (g : Grammar) (r : Row) : Prop where
  shifts : ∀ s ∈ r.shifts, s.deselected = false
  reductions : r.reductions = (r.core.completeItems g).map Reduction.fresh
  conflicts : r.conflicts = []
  resolved : r.resolved = []
  defaultRule : r.defaultRule = none

/-- The row with all that is recorded once its lookaheads are known. -/
def record (g : Grammar) (la : OrderedMap StateRule NatSet) (r : Row) : Row :=
  (((r.takeLookaheads g la).compareShifts g).compareReductions).chooseDefault

variable {la : OrderedMap StateRule NatSet}

theorem Paired.needsLookahead (h : r.Paired) (hblank : r.Blank g) :
    r.needsLookahead g = State.needsLookahead g r.core := by
  have hterminals : r.transitions.keys.any g.isTerminal = !(r.core.terminalEdges g).isEmpty := by
    rw [h, ← symbols_edges, Core.terminalEdges, show r.core.edges = r.edges from rfl]
    induction r.edges with
    | nil => rfl
    | cons e edges ih =>
      rw [List.map_cons, List.any_cons, List.filter_cons, ih]
      cases g.isTerminal e.symbol <;> rfl
  rw [Row.needsLookahead, State.needsLookahead, hterminals, hblank.reductions, List.length_map]

theorem takeLookaheads_eq (h : r.Paired) (hblank : r.Blank g) :
    r.takeLookaheads g la = { r with reductions := State.reductionsOf g la r.core r.id } := by
  rw [takeLookaheads, h.needsLookahead hblank, hblank.reductions, State.reductionsOf, List.map_map]
  refine congrArg (fun reductions => { r with reductions }) (List.map_congr_left fun i _ => ?_)
  cases hneeds : State.needsLookahead g r.core <;> cases hla : la.get? ⟨r.id, i.rule⟩ <;>
    simp [Reduction.fresh, Reduction.rule, hla]

@[simp] theorem core_takeLookaheads (la : OrderedMap StateRule NatSet) (r : Row) :
    (r.takeLookaheads g la).core = r.core := rfl

@[simp] theorem core_compareShifts (r : Row) : (r.compareShifts g).core = r.core := by
  rw [compareShifts_eq, core, core, edges, edges, List.map_map]; rfl

@[simp] theorem core_chooseDefault (r : Row) : r.chooseDefault.core = r.core := by
  rw [chooseDefault]
  split
  · rfl
  · split <;> rfl

/-- Nothing that is recorded touches the items and the transitions. -/
@[simp] theorem core_record (la : OrderedMap StateRule NatSet) (r : Row) :
    (r.record g la).core = r.core := by
  rw [record, core_chooseDefault]
  exact (core_compareShifts _).trans (core_takeLookaheads la r)

theorem defaultRule?_marked (c : Core) (Xs : List SymbolId) (reductions : List Reduction)
    (conflicts : List Conflict) :
    State.defaultRule? c (reductions.map (marked g Xs)) conflicts =
      State.defaultRule? c reductions conflicts := by
  rw [State.defaultRule?, State.defaultRule?, widest?_map (tokens_marked Xs) (rule_marked Xs),
    Option.map_map]
  rfl

/-- What is recorded in a blank row. -/
theorem record_eq (la : OrderedMap StateRule NatSet) (h : r.Paired) (hblank : r.Blank g) :
    let s := State.ofCore g la r.core r.id
    let reductions := State.reductionsOf g la r.core r.id
    r.record g la = withDefault s.defaultRule { r with
      shifts := r.shifts.map (compared g reductions)
      reductions := reductions.map (marked g (r.shifts.map Shift.symbol))
      conflicts := s.conflicts
      resolved := s.resolved } := by
  intro s reductions
  let r₁ : Row := { r with reductions }
  let r₂ : Row := { r with
    shifts := r.shifts.map (compared g reductions)
    reductions := reductions.map (marked g (r.shifts.map Shift.symbol))
    conflicts := State.shiftReduceConflicts (State.encounters g r.core reductions)
    resolved := s.resolved }
  let r₃ : Row := { r₂ with conflicts := s.conflicts }
  have hlookaheads : r.takeLookaheads g la = r₁ := takeLookaheads_eq h hblank
  have hshifts : r₁.compareShifts g = r₂ := by
    rw [compareShifts_eq, show r₁.conflicts = [] from hblank.conflicts,
      show r₁.resolved = [] from hblank.resolved]
    rfl
  have hreductions : r₂.compareReductions = r₃ := by
    refine congrArg (fun conflicts => { r₂ with conflicts }) ?_
    rw [show r₂.reductions = _ from rfl, reduceReduceConflicts_map (tokens_marked _) (item_marked _)]
    rfl
  have hcore : r₂.core = r.core := hshifts ▸ core_compareShifts (g := g) r₁
  have hunmarked : ∀ red ∈ r₃.reductions, red.isDefault = false := by
    intro red hred
    obtain ⟨red, hunmarked, rfl⟩ := List.mem_map.1 hred
    obtain ⟨i, -, rfl⟩ := List.mem_map.1 hunmarked
    rfl
  have hchosen : State.defaultRule? r₃.core r₃.reductions r₃.conflicts = s.defaultRule := by
    rw [show r₃.core = r.core from hcore]; exact defaultRule?_marked ..
  rw [record, hlookaheads, hshifts, hreductions, 
    chooseDefault_eq (r := r₃) hblank.defaultRule hunmarked, hchosen]

/-- **A blank row is filled with what its items and its lookaheads call for.** -/
theorem state_record (la : OrderedMap StateRule NatSet) (h : r.Paired) (hblank : r.Blank g)
    (hrules : ((State.reductionsOf g la r.core r.id).map Reduction.rule).Nodup) :
    (r.record g la).state = State.ofCore g la r.core r.id := by
  generalize hs : State.ofCore g la r.core r.id = s
  have hmarks : ((State.reductionsOf g la r.core r.id).map (marked g (r.shifts.map Shift.symbol))).map
      (fun red => { red with isDefault := decide (s.defaultRule = some red.rule) }) =
        s.reductions := by
    rw [← hs, List.map_map]
    refine List.map_congr_left fun red hred => ?_
    obtain ⟨i, -, hi⟩ := List.mem_map.1 hred
    have hfresh : red.deselected = ∅ := by rw [← hi]
    have hlost : (marked g (r.shifts.map Shift.symbol) red).deselected =
        State.losingTokens (State.ofCore g la r.core r.id).resolved red.rule := by
      rw [State.resolved_ofCore, losingTokens_eq hrules hred, show r.core.edges = r.edges from rfl,
        symbols_edges, marked, hfresh]
      exact NatSet.ext fun t => by simp
    exact congrArg (Reduction.mk red.item red.lookahead · _) hlost
  have hshifts : NatSet.ofList (((r.shifts.map (compared g (State.reductionsOf g la r.core r.id))).filter
      Shift.deselected).map Shift.symbol) = s.deselectedShifts := by
    rw [← hs]; exact (losingShifts_eq hblank.shifts).symm
  have hcore : (r.record g la).core = s.toCore := by rw [← hs]; exact core_record la r
  have hrecord := record_eq la h hblank
  rw [hs] at hrecord
  rw [hrecord] at hcore ⊢
  rw [state, hcore, deselectedShifts, withDefault, hshifts, hmarks]

/-! ## Rows with records -/

/-- A row that has its number, and transitions and reductions for its items,
    whatever is recorded in it. -/
structure Fits (g : Grammar) (q : StateId) (r : Row) : Prop where
  id_eq : r.id = q
  paired : r.Paired
  items_eq : r.reductions.map Reduction.item = r.core.completeItems g

theorem edges_withPredecessors (r : Row) (predecessors : List StateId) :
    { r with predecessors }.edges = r.edges := rfl

theorem Fits.withPredecessors {q : StateId} (h : r.Fits g q) (predecessors : List StateId) :
    { r with predecessors }.Fits g q :=
  ⟨h.id_eq, h.paired, h.items_eq⟩

theorem Blank.withPredecessors (h : r.Blank g) (predecessors : List StateId) :
    { r with predecessors }.Blank g :=
  ⟨h.shifts, h.reductions, h.conflicts, h.resolved, h.defaultRule⟩

theorem Blank.items_eq (h : r.Blank g) : r.reductions.map Reduction.item = r.core.completeItems g := by
  rw [h.reductions, List.map_map]; exact List.map_id _

/-- Recording keeps the number, the transitions and the reductions. -/
theorem Fits.record {q : StateId} (h : r.Fits g q) (hblank : r.Blank g) :
    (r.record g la).Fits g q where
  id_eq := by rw [record_eq la h.paired hblank]; exact h.id_eq
  paired := by
    rw [record_eq la h.paired hblank]
    exact h.paired.trans (by rw [withDefault, List.map_map]; rfl)
  items_eq := by
    rw [core_record, record_eq la h.paired hblank, ← h.items_eq, hblank.items_eq]
    rw [withDefault, List.map_map, List.map_map, State.reductionsOf, List.map_map]
    exact List.map_id _

@[simp] theorem core_clear (r : Row) : r.clear.core = r.core := by
  rw [clear, core, core, edges, edges, List.map_map]; rfl

/-- **Clearing leaves nothing of what was recorded.** -/
theorem blank_clear {q : StateId} (h : r.Fits g q) : r.clear.Blank g where
  shifts s hs := by
    obtain ⟨_, -, rfl⟩ := List.mem_map.1 hs
    rfl
  reductions := by
    rw [core_clear, ← h.items_eq, List.map_map]; rfl
  conflicts := rfl
  resolved := rfl
  defaultRule := rfl

theorem Fits.clear {q : StateId} (h : r.Fits g q) : r.clear.Fits g q where
  id_eq := h.id_eq
  paired := h.paired.trans (by rw [Row.clear, List.map_map]; rfl)
  items_eq := by rw [core_clear]; exact (blank_clear h).items_eq.trans (by rw [core_clear])

end Row

end LRAutomata
