/-
  The search for counterexamples, with its lookups checked.

  Everything that is searched stands in a state of the automaton: the start item
  does, and every move leads from such an item to another one.

  * `Checked.moves`: what the moves between all items look up;
  * `Checked.shortestPath`, `Checked.shiftPath`, `Checked.derivationOf`: the searches;
  * `Checked.growAlong`: the derivation along a path, which stops at the first step;
  * `Checked.ofState`: the counterexamples of a state.
-/
import LRAutomata.Counterexample.Basic
import LRAutomata.Proofs.Checked.Derivation
import LRAutomata.Proofs.Checked.Search
import LRAutomata.Proofs.Checked.Splitting
import LRAutomata.Proofs.Counterexample.Moves

namespace LRAutomata

/-! ## Items of states -/

/-- The items and transitions of an automaton lead to nothing that is not there. -/
structure Automaton.Navigable (g : Grammar) (a : Automaton) : Prop where
  wf : g.WellFormed
  narrow : g.Narrow
  inRange : ∀ {p : StateItem}, p.Stands a → p.item.InRange g
  next?_lt : ∀ {q X r}, q < a.states.size → (a.state q).next? X = some r → r < a.states.size
  start : 0 < a.states.size → StateItem.Stands a ⟨StateId.start, Item.start⟩

theorem Automaton.Built.navigable {g : Grammar} {a : Automaton} (h : Built g a) (wf : g.WellFormed)
    (narrow : g.Narrow) : a.Navigable g := by
  cases h with
  | empty => exact ⟨wf, narrow, fun hp => absurd hp.1 (Nat.not_lt_zero _),
      fun hq => absurd hq (Nat.not_lt_zero _), fun hsize => absurd hsize (Nat.lt_irrefl 0)⟩
  | ofGraph h =>
    constructor
    case wf => exact wf
    case narrow => exact narrow
    case inRange =>
      rintro ⟨q, i⟩ ⟨hq, hi⟩
      rw [size_ofGraph] at hq
      rw [toCore_state] at hi
      exact h.inRange wf hq i hi
    case next?_lt =>
      intro q X r hq hr
      rw [size_ofGraph] at hq ⊢
      rw [toCore_state] at hr
      exact (h.next?_kernel hq hr).1
    case start => exact fun _ => h.stands_start wf

section Moves

variable {g : Grammar} {a : Automaton} {p n : StateItem}

theorem StateItem.Stands.advance? (nav : a.Navigable g) (hp : p.Stands a)
    (h : p.advance? g a = some n) : n.Stands a :=
  .of_advance? (nav.next?_lt hp.1) h

/-- The steps of a path lead to the items through which it goes. -/
theorem PathStep.target_mem_of_mem_path {l : List StateItem} {s : PathStep} (h : s ∈ path l) :
    s.target ∈ l := by
  have between : ∀ {l : List StateItem} {source}, s ∈ between source l → s.target ∈ l := by
    intro l
    induction l with
    | nil => intro _ h; cases h
    | cons p l ih =>
      intro source h
      rw [PathStep.between] at h
      rcases List.mem_cons.1 h with rfl | h
      · split <;> exact List.mem_cons_self
      · exact List.mem_cons_of_mem p (ih h)
  cases l with
  | nil => cases h
  | cons p l =>
    rcases List.mem_cons.1 h with rfl | h
    · exact List.mem_cons_self
    · exact List.mem_cons_of_mem p (between h)

end Moves

namespace Checked

variable {g : Grammar} {a : Automaton} {p n : StateItem} {q : StateId} {token : SymbolId}

/-- Look up what the moves from an item look up. -/
def place (g : Grammar) (a : Automaton) (p : StateItem) : Checked Unit := do
  index p.state a.states.size
  item g p.item
  forSome (p.item.next? g) fun X => forSome ((a.state p.state).next? X) (index · a.states.size)

/-- Look up what the moves between all items look up. -/
def moves (g : Grammar) (a : Automaton) : Checked Unit :=
  a.states.toList.zipIdx.forM fun s => s.1.items.forM fun i => place g a ⟨s.2, i⟩

theorem stands_eq_ok (nav : a.Navigable g) (hp : p.Stands a) : item g p.item = .ok () :=
  item_eq_ok nav.wf nav.narrow (nav.inRange hp)

theorem place_eq_ok (nav : a.Navigable g) (hp : p.Stands a) : place g a p = .ok () := by
  simp only [place, seq_eq_ok, index_eq_ok, forSome_eq_ok]
  exact ⟨hp.1, stands_eq_ok nav hp, fun X _ r hr => nav.next?_lt hp.1 hr⟩

theorem moves_eq_ok (nav : a.Navigable g) : moves g a = .ok () := by
  simp only [moves, forM_eq_ok]
  rintro ⟨s, q⟩ hs i hi
  obtain ⟨hq, rfl⟩ := Automaton.mem_zipIdx_states hs
  exact place_eq_ok nav ⟨hq, hi⟩

/-! ## Paths -/

/-- The moves from an item: over the next symbol, then into its rules. -/
def preciseMoves (g : Grammar) (a : Automaton) (p : PreciseItem) : Checked (List PreciseItem) := do
  place g a p.place
  pure (Counterexample.preciseMoves g a p)

/-- A shortest path to an item of the state `q` after whose rule the token can
    really come. -/
def shortestPath (g : Grammar) (a : Automaton) (q : StateId) (i : Item) (token : SymbolId) :
    Checked (Option (List PathStep)) := do
  let start : PreciseItem := ⟨⟨StateId.start, Item.start⟩, {SymbolId.endMarker}⟩
  let bound := a.stateItemCount * subsetCount g.terminalCount + 1
  let isGoal (p : PreciseItem) : Bool := p.place = ⟨q, i⟩ && token ∈ p.lookahead
  let way ← shortest bound start (preciseMoves g a) isGoal
  pure (way.map fun way => PathStep.path (way.reverse.map PreciseItem.place))

/-- The moves back from an item that is reached in the `k`-th of the states listed. -/
def backwardMoves (g : Grammar) (a : Automaton) (states : List StateId) (node : StateItem × Nat) :
    Checked (List (StateItem × Nat)) := do
  place g a node.1
  whenever (node.1.item.isInitial = false ∧ 0 < node.2) do
    index (node.2 - 1) states.length
    forSome states[node.2 - 1]? (index · a.states.size)
  pure (Counterexample.backwardMoves g a states node)

/-- A path to an item of the state `q` that passes the same states as another
    path to `q`. -/
def shiftPath (g : Grammar) (a : Automaton) (other : List PathStep) (q : StateId) (i : Item) :
    Checked (Option (List PathStep)) := do
  let states := Counterexample.stateSequence other
  if states.getLast? ≠ some q then pure none
  else
    let bound := a.stateItemCount * (states.length + 1) + 1
    let isGoal (node : StateItem × Nat) : Bool := node.2 = 0 && node.1.item.isStart
    let way ← shortest bound (⟨q, i⟩, states.length - 1) (backwardMoves g a states) isGoal
    pure (way.map fun way => PathStep.path (way.map Prod.fst))

/-- All steps of a path lead to items of the automaton. -/
def Leads (a : Automaton) (path : List PathStep) : Prop :=
  ∀ s ∈ path, s.target.Stands a

theorem leads_path {l : List StateItem} (h : ∀ p ∈ l, p.Stands a) : Leads a (PathStep.path l) :=
  fun _ hs => h _ (PathStep.target_mem_of_mem_path hs)

theorem preciseMoves_eq_ok (nav : a.Navigable g) (p : PreciseItem) (hp : p.place.Stands a) :
    preciseMoves g a p = .ok (Counterexample.preciseMoves g a p) ∧
      ∀ n ∈ Counterexample.preciseMoves g a p, n.place.Stands a := by
  refine ⟨by rw [preciseMoves, place_eq_ok nav hp]; rfl, fun n hn => ?_⟩
  rw [Counterexample.preciseMoves] at hn
  rcases List.mem_append.1 hn with hn | hn
  · obtain ⟨m, hm, rfl⟩ := Option.map_eq_some_iff.1 (Option.mem_toList.1 hn)
    exact hp.advance? nav hm
  · obtain ⟨m, hm, rfl⟩ := List.mem_map.1 hn
    exact hp.of_mem_productions hm

theorem shortestPath_eq_ok (nav : a.Navigable g) (hsize : 0 < a.states.size) (q : StateId)
    (i : Item) (token : SymbolId) :
    shortestPath g a q i token = .ok (Counterexample.shortestPath? g a q i token) ∧
      ∀ path, Counterexample.shortestPath? g a q i token = some path → Leads a path := by
  let start : PreciseItem := ⟨⟨StateId.start, Item.start⟩, {SymbolId.endMarker}⟩
  have hstart : start.place.Stands a := nav.start hsize
  obtain ⟨hsearch, hall⟩ := shortest_eq_ok (P := fun p : PreciseItem => p.place.Stands a)
    (a.stateItemCount * subsetCount g.terminalCount + 1) hstart
    (fun p => p.place = ⟨q, i⟩ && token ∈ p.lookahead) (preciseMoves_eq_ok nav)
  constructor
  · simp only [shortestPath]
    rw [hsearch, ok_bind, Option.map_map]
    rfl
  · intro path hpath
    obtain ⟨t, ht, rfl⟩ := Option.map_eq_some_iff.1 hpath
    refine leads_path fun p hp => ?_
    obtain ⟨b, hb, rfl⟩ := List.mem_map.1 hp
    exact hall t ht b (List.mem_reverse.1 hb)

/-- A node of the search for a shift stands in one of the states listed. -/
def Reaches (a : Automaton) (states : List StateId) (node : StateItem × Nat) : Prop :=
  node.1.Stands a ∧ node.2 < states.length

theorem backwardMoves_eq_ok (nav : a.Navigable g) {states : List StateId}
    (hstates : ∀ q ∈ states, q < a.states.size) (node : StateItem × Nat)
    (hnode : Reaches a states node) :
    backwardMoves g a states node = .ok (Counterexample.backwardMoves g a states node) ∧
      ∀ m ∈ Counterexample.backwardMoves g a states node, Reaches a states m := by
  obtain ⟨p, k⟩ := node
  obtain ⟨hp, hk⟩ := hnode
  constructor
  · simp only [backwardMoves, seq_eq_ok, whenever_eq_ok, index_eq_ok, forSome_eq_ok, pure_eq_ok]
    exact ⟨place_eq_ok nav hp,
      fun _ => ⟨by omega, fun q hq => hstates q (List.mem_of_getElem? hq)⟩, trivial⟩
  · intro m hm
    simp only [Counterexample.backwardMoves] at hm
    split at hm
    · obtain ⟨n, hn, rfl⟩ := List.mem_map.1 hm
      exact ⟨hp.of_mem_producers hn, hk⟩
    · cases k with
      | zero => cases hm
      | succ k =>
        dsimp only at hm
        split at hm
        · obtain ⟨n, hn, rfl⟩ := List.mem_map.1 hm
          exact ⟨StateItem.stands_of_mem_retreats (hstates _ (List.mem_of_getElem? ‹_›)) hn,
            Nat.lt_of_succ_lt hk⟩
        · cases hm

/-- The states that a path passes exist. -/
theorem Leads.stateSequence {path : List PathStep} (h : Leads a path) (hsize : 0 < a.states.size) :
    ∀ q ∈ Counterexample.stateSequence path, q < a.states.size := by
  intro q hq
  rcases List.mem_cons.1 hq with rfl | hq
  · exact hsize
  · obtain ⟨s, hs, rfl⟩ := List.mem_map.1 hq
    exact (h s (List.mem_filter.1 hs).1).1

theorem shiftPath_eq_ok (nav : a.Navigable g) {other : List PathStep} (hother : Leads a other)
    {i : Item} (hi : StateItem.Stands a ⟨q, i⟩) :
    shiftPath g a other q i = .ok (Counterexample.shiftPath? g a other q i) ∧
      ∀ path, Counterexample.shiftPath? g a other q i = some path → Leads a path := by
  have hstates := hother.stateSequence (Nat.zero_lt_of_lt hi.1)
  have hstart : Reaches a (Counterexample.stateSequence other)
      (⟨q, i⟩, (Counterexample.stateSequence other).length - 1) :=
    ⟨hi, Nat.sub_lt (Nat.succ_pos _) Nat.one_pos⟩
  obtain ⟨hsearch, hall⟩ := shortest_eq_ok
    (a.stateItemCount * ((Counterexample.stateSequence other).length + 1) + 1) hstart
    (fun node => node.2 = 0 && node.1.item.isStart) (backwardMoves_eq_ok nav hstates)
  rw [shiftPath, Counterexample.shiftPath?]
  dsimp only
  split
  · exact ⟨rfl, fun _ hpath => by cases hpath⟩
  · constructor
    · rw [hsearch, ok_bind, Option.map_map]
      rfl
    · intro path hpath
      obtain ⟨t, ht, rfl⟩ := Option.map_eq_some_iff.1 hpath
      refine leads_path fun p hp => ?_
      obtain ⟨b, hb, rfl⟩ := List.mem_map.1 hp
      exact (hall t ht b hb).1

/-! ## Derivations -/

/-- Look up what the extensions of a chain look up. -/
def chainEnd (g : Grammar) (a : Automaton) (chain : List StateItem) : Checked Unit :=
  forSome chain.head? fun p => do
    place g a p
    (p.productions g a).forM fun n => item g n.item

/-- The first chain, level by level, that has the token after its last dot. -/
def searchChains (g : Grammar) (a : Automaton) (token : SymbolId) :
    (levels : Nat) → List (List StateItem) → Checked (Option (List StateItem))
  | 0, _ => pure none
  | levels + 1, chains => do
    chains.forM (chainEnd g a)
    let extended := chains.flatMap (Counterexample.extendChain g a token)
    (chains.find? fun chain => (chain.head?.bind (·.item.next? g)) = some token).elim
      (if extended.isEmpty then pure none else searchChains g a token levels extended)
      fun chain => pure (some chain)

/-- A derivation from an item that has the token after its last dot. -/
def derivationOf (g : Grammar) (a : Automaton) (p : StateItem) (token : SymbolId) :
    Checked (Option Derivation) := do
  let chain ← searchChains g a token (Counterexample.chainBound g a) [[p]]
  pure (chain.bind fun chain => chain.foldl (fun below p => some (.above p.item below)) none)

theorem chainEnd_eq_ok (nav : a.Navigable g) {chain : List StateItem}
    (h : ∀ p ∈ chain, p.Stands a) : chainEnd g a chain = .ok () := by
  simp only [chainEnd, forSome_eq_ok, seq_eq_ok, forM_eq_ok]
  intro p hp
  have hp := h p (List.mem_of_head? hp)
  exact ⟨place_eq_ok nav hp, fun n hn => stands_eq_ok nav (hp.of_mem_productions hn)⟩

/-- A chain is extended by items of the automaton. -/
theorem stands_of_mem_extendChain (nav : a.Navigable g) {chain chain' : List StateItem}
    (h : ∀ p ∈ chain, p.Stands a) (hmem : chain' ∈ Counterexample.extendChain g a token chain) :
    ∀ p ∈ chain', p.Stands a := by
  cases chain with
  | nil => cases hmem
  | cons p rest =>
    have hp := h p List.mem_cons_self
    rw [Counterexample.extendChain] at hmem
    split at hmem
    · cases hmem
    · split at hmem
      · cases hmem
      · obtain ⟨n, hn, rfl⟩ := List.mem_map.1 hmem
        refine List.forall_mem_cons.2 ⟨?_, h⟩
        rcases List.mem_append.1 hn with hn | hn
        · exact hp.of_mem_productions (List.mem_filter.1 hn).1
        · split at hn
          · exact hp.advance? nav (Option.mem_toList.1 hn)
          · cases hn

theorem searchChains_eq_ok (nav : a.Navigable g) (token : SymbolId) :
    ∀ (levels : Nat) {chains : List (List StateItem)},
      (∀ chain ∈ chains, ∀ p ∈ chain, p.Stands a) →
      searchChains g a token levels chains =
        .ok (Counterexample.searchChains g a token levels chains) ∧
      ∀ chain, Counterexample.searchChains g a token levels chains = some chain →
        ∀ p ∈ chain, p.Stands a
  | 0, _, _ => ⟨rfl, fun _ hchain => by cases hchain⟩
  | levels + 1, chains, h => by
    have hends : chains.forM (chainEnd g a) = .ok () :=
      forM_eq_ok.2 fun chain hchain => chainEnd_eq_ok nav (h chain hchain)
    rw [searchChains, hends, ok_bind, Counterexample.searchChains]
    dsimp only
    cases hfind : chains.find? fun chain => (chain.head?.bind (·.item.next? g)) = some token with
    | some chain =>
      refine ⟨rfl, fun chain' hchain' => ?_⟩
      cases hchain'
      exact h chain (List.mem_of_find?_eq_some hfind)
    | none =>
      rw [Option.elim_none]
      dsimp only
      split
      · exact ⟨rfl, fun _ hchain => by cases hchain⟩
      · refine searchChains_eq_ok nav token levels fun chain hchain => ?_
        obtain ⟨shorter, hshorter, hchain⟩ := List.mem_flatMap.1 hchain
        exact stands_of_mem_extendChain nav (h shorter hshorter) hchain

theorem inRange_foldl (nav : a.Navigable g) {chain : List StateItem} (h : ∀ p ∈ chain, p.Stands a)
    {below : Option Derivation} (hbelow : ∀ d, below = some d → d.InRange g) :
    ∀ d, chain.foldl (fun below p => some (.above p.item below)) below = some d → d.InRange g := by
  induction chain generalizing below with
  | nil => exact hbelow
  | cons p rest ih =>
    obtain ⟨hp, hrest⟩ := List.forall_mem_cons.1 h
    refine ih hrest fun d hd => ?_
    cases hd
    exact .above (nav.inRange hp) hbelow

theorem derivationOf_eq_ok (nav : a.Navigable g) (hp : p.Stands a) (token : SymbolId) :
    derivationOf g a p token = .ok (Counterexample.derivationOf? g a p token) ∧
      ∀ d, Counterexample.derivationOf? g a p token = some d → d.InRange g := by
  obtain ⟨hsearch, hall⟩ := searchChains_eq_ok nav token (Counterexample.chainBound g a)
    (List.forall_mem_singleton.2 (List.forall_mem_singleton.2 hp))
  constructor
  · rw [derivationOf, hsearch]
    rfl
  · intro d hd
    obtain ⟨chain, hchain, hd⟩ := Option.bind_eq_some_iff.1 hd
    exact inRange_foldl nav (hall chain hchain) (fun _ h => by cases h) d hd

/-- Where the derivation along a path stands. -/
inductive Phase where
  /-- At the first step of the path. -/
  | start
  /-- Behind the beginning of a rule. -/
  | transition
  /-- At the beginning of a rule. -/
  | production
deriving DecidableEq, Repr

/-- Where a step leaves the derivation. -/
def phase : PathStep → Phase
  | .start _ => .start
  | .transition .. => .transition
  | .production .. => .production

/-- Put an item above a derivation. -/
def grow (g : Grammar) (a : Automaton) (p : StateItem) (below : Option Derivation)
    (pending : Option SymbolId) : Checked (Derivation × Option SymbolId) := do
  item g p.item
  let d := Derivation.above p.item below
  match pending, p.item.nextNext? g with
  | some token, some X =>
    if token ∈ g.first X then
      let right ← bindSome (p.advance? g a) fun next => derivationOf g a next token
      pure (d.withRight right, none)
    else pure (d, pending)
  | _, _ => pure (d, pending)

/-- The derivation along a path, whose steps are given from the last to the first.
    The first step ends it. -/
def growAlong (g : Grammar) (a : Automaton) :
    Phase → (below : Option Derivation) → (pending : Option SymbolId) → List PathStep →
    Checked (Option Derivation)
  | _, below, _, [] => pure below
  | .production, below, pending, step :: rest => do
    let r ← grow g a step.target below pending
    if phase step = .start then pure (some r.1)
    else growAlong g a (phase step) (some r.1) r.2 rest
  | .transition, below, pending, step :: rest => do
    let below := if phase step = .start then some (.above step.target.item below) else below
    if phase step = .start then pure below
    else growAlong g a (phase step) below pending rest
  | .start, _, _, _ :: _ => .error .beforeStart

/-- The derivation along a path. -/
def derivationAlong (g : Grammar) (a : Automaton) (token : SymbolId) (path : List PathStep) :
    Checked (Option Derivation) :=
  bindSome path.getLast? fun last => do
    item g last.target.item
    let pending := if last.target.item.isComplete g then some token else none
    growAlong g a .production none pending path.reverse

theorem grow_eq_ok (nav : a.Navigable g) (hp : p.Stands a) {below : Option Derivation}
    (hbelow : ∀ d, below = some d → d.InRange g) (pending : Option SymbolId) :
    grow g a p below pending = .ok (Counterexample.grow g a p below pending) ∧
      (Counterexample.grow g a p below pending).1.InRange g := by
  have habove := Derivation.InRange.above (nav.inRange hp) hbelow
  rw [grow, stands_eq_ok nav hp, ok_bind]
  unfold Counterexample.grow
  cases pending with
  | none => exact ⟨rfl, habove⟩
  | some token =>
    cases p.item.nextNext? g with
    | none => exact ⟨rfl, habove⟩
    | some X =>
      obtain ⟨hright, hrange⟩ := bindSome_eq_ok fun next hnext =>
        derivationOf_eq_ok nav (hp.advance? nav hnext) token
      dsimp only
      split
      · rw [hright]
        exact ⟨rfl, habove.withRight hrange⟩
      · exact ⟨rfl, habove⟩

theorem growAlong_eq_ok (nav : a.Navigable g) :
    ∀ {steps : List PathStep}, Leads a steps → ∀ {below : Option Derivation},
      (∀ d, below = some d → d.InRange g) → ∀ (inside : Bool) (pending : Option SymbolId),
      growAlong g a (if inside then .transition else .production) below pending steps =
        .ok (Counterexample.growAlong g a inside below pending steps) ∧
      ∀ d, Counterexample.growAlong g a inside below pending steps = some d → d.InRange g
  | [], _, below, hbelow, inside, pending => by
    cases inside <;> exact ⟨rfl, hbelow⟩
  | step :: rest, hsteps, below, hbelow, false, pending => by
    obtain ⟨hstep, hrest⟩ := List.forall_mem_cons.1 hsteps
    obtain ⟨hgrow, hrange⟩ := grow_eq_ok nav hstep hbelow pending
    have hbelow' : ∀ d, some (Counterexample.grow g a step.target below pending).1 = some d →
        d.InRange g := fun d hd => by cases hd; exact hrange
    rw [if_neg Bool.false_ne_true, growAlong, hgrow, ok_bind]
    cases step with
    | start p => exact ⟨rfl, hbelow'⟩
    | transition => exact growAlong_eq_ok nav hrest hbelow' true _
    | production => exact growAlong_eq_ok nav hrest hbelow' false _
  | step :: rest, hsteps, below, hbelow, true, pending => by
    obtain ⟨hstep, hrest⟩ := List.forall_mem_cons.1 hsteps
    rw [if_pos rfl, growAlong]
    cases step with
    | start p =>
      refine ⟨rfl, fun d hd => ?_⟩
      cases hd
      exact .above (nav.inRange hstep) hbelow
    | transition => exact growAlong_eq_ok nav hrest hbelow true pending
    | production => exact growAlong_eq_ok nav hrest hbelow false pending

theorem derivationAlong_eq_ok (nav : a.Navigable g) (token : SymbolId) {path : List PathStep}
    (hpath : Leads a path) :
    derivationAlong g a token path = .ok (Counterexample.derivationAlong g a token path) ∧
      ∀ d, Counterexample.derivationAlong g a token path = some d → d.InRange g := by
  refine bindSome_eq_ok fun last hlast => ?_
  rw [stands_eq_ok nav (hpath last (List.mem_of_getLast? hlast)), ok_bind]
  exact growAlong_eq_ok nav (fun s hs => hpath s (List.mem_reverse.1 hs))
    (fun _ hd => by cases hd) false _

/-! ## Examples -/

/-- The example with the given paths. -/
def ofPaths (g : Grammar) (a : Automaton) (conflict : Conflict) (symbol : SymbolId)
    (path₁ path₂ : Option (List PathStep)) : Checked Counterexample := do
  let derivation₁ ← bindSome path₁ (derivationAlong g a symbol)
  let derivation₂ ← bindSome path₂ (derivationAlong g a symbol)
  pure { conflict, symbol, path₁, path₂, derivation₁, derivation₂ }

/-- The example for a conflict of the state `q`, on its first token. -/
def ofConflict (g : Grammar) (a : Automaton) (q : StateId) (conflict : Conflict) :
    Checked (Option Counterexample) :=
  bindSome conflict.symbols.head? fun token =>
    match conflict with
    | .shiftReduce _ reduce => do
      index q a.states.size
      (a.state q).items.forM (item g)
      let shift? := (a.state q).items.find? fun i => i.next? g = some token
      let path₂ ← shortestPath g a q reduce token
      let path₁ ← bindSome path₂ fun path => bindSome shift? fun shift => shiftPath g a path q shift
      some <$> ofPaths g a conflict token path₁ path₂
    | .reduceReduce _ reduce₁ reduce₂ => do
      let path₁ ← shortestPath g a q reduce₁ token
      let path₂ ← shortestPath g a q reduce₂ token
      some <$> ofPaths g a conflict token path₁ path₂

/-- One example for each conflict of a state. -/
def ofState (g : Grammar) (a : Automaton) (q : StateId) : Checked (List Counterexample) := do
  index q a.states.size
  let examples ← (a.state q).conflicts.mapM (ofConflict g a q)
  pure (examples.filterMap id)

/-- The derivations of an example are of items that exist. -/
def Drawable (g : Grammar) (x : Counterexample) : Prop :=
  (∀ d, x.derivation₁ = some d → d.InRange g) ∧ ∀ d, x.derivation₂ = some d → d.InRange g

theorem ofPaths_eq_ok (nav : a.Navigable g) (conflict : Conflict) (token : SymbolId)
    {path₁ path₂ : Option (List PathStep)}
    (hpath₁ : ∀ path, path₁ = some path → Leads a path)
    (hpath₂ : ∀ path, path₂ = some path → Leads a path) :
    ofPaths g a conflict token path₁ path₂ =
        .ok (Counterexample.ofPaths g a conflict token path₁ path₂) ∧
      Drawable g (Counterexample.ofPaths g a conflict token path₁ path₂) := by
  obtain ⟨hok₁, hrange₁⟩ := bindSome_eq_ok fun path hpath =>
    derivationAlong_eq_ok nav token (hpath₁ path hpath)
  obtain ⟨hok₂, hrange₂⟩ := bindSome_eq_ok fun path hpath =>
    derivationAlong_eq_ok nav token (hpath₂ path hpath)
  refine ⟨?_, hrange₁, hrange₂⟩
  rw [ofPaths, hok₁, ok_bind, hok₂]
  rfl

theorem ofConflict_eq_ok (nav : a.Navigable g) (hq : q < a.states.size) (conflict : Conflict) :
    ofConflict g a q conflict = .ok (Counterexample.ofConflict? g a q conflict) ∧
      ∀ x, Counterexample.ofConflict? g a q conflict = some x → Drawable g x := by
  have shortest := shortestPath_eq_ok nav (Nat.zero_lt_of_lt hq) q
  rw [Counterexample.ofConflict?, Option.map_eq_bind]
  refine bindSome_eq_ok fun token _ => ?_
  cases conflict with
  | shiftReduce X reduce =>
    have hitems : (a.state q).items.forM (item g) = .ok () :=
      forM_eq_ok.2 fun i hi => stands_eq_ok nav (p := ⟨q, i⟩) ⟨hq, hi⟩
    obtain ⟨hok₂, hleads₂⟩ := shortest reduce token
    obtain ⟨hok₁, hleads₁⟩ := bindSome_eq_ok fun path hpath => bindSome_eq_ok fun shift
        (hshift : (a.state q).items.find? (fun i => i.next? g = some token) = some shift) =>
      shiftPath_eq_ok nav (hleads₂ path hpath) ⟨hq, List.mem_of_find?_eq_some hshift⟩
    obtain ⟨hok, hdrawable⟩ :=
      ofPaths_eq_ok nav (.shiftReduce X reduce) token hleads₁ hleads₂
    refine ⟨?_, fun x hx => by cases hx; exact hdrawable⟩
    dsimp only
    rw [index_eq_ok.2 hq, ok_bind, hitems, ok_bind, hok₂, ok_bind, hok₁, ok_bind, hok]
    rfl
  | reduceReduce Xs reduce₁ reduce₂ =>
    obtain ⟨hok₁, hleads₁⟩ := shortest reduce₁ token
    obtain ⟨hok₂, hleads₂⟩ := shortest reduce₂ token
    obtain ⟨hok, hdrawable⟩ :=
      ofPaths_eq_ok nav (.reduceReduce Xs reduce₁ reduce₂) token hleads₁ hleads₂
    refine ⟨?_, fun x hx => by cases hx; exact hdrawable⟩
    dsimp only
    rw [hok₁, ok_bind, hok₂, ok_bind, hok]
    rfl

/-- The examples of every state are found, and can be drawn. -/
theorem ofState_eq_ok (nav : a.Navigable g) (hq : q < a.states.size) :
    ∃ examples, Counterexample.ofState g a q = .ok examples ∧ ofState g a q = .ok examples ∧
      ∀ x ∈ examples, Drawable g x := by
  have conflicts := ofConflict_eq_ok nav hq
  refine ⟨(a.state q).conflicts.filterMap (Counterexample.ofConflict? g a q), ?_, ?_,
    fun x hx => ?_⟩
  · rw [Counterexample.ofState, Array.getElem?_eq_getElem hq, Automaton.state,
      Array.getD_eq_getD_getElem?, Array.getElem?_eq_getElem hq]
    rfl
  · rw [ofState, index_eq_ok.2 hq, ok_bind, mapM_eq_ok fun conflict _ => (conflicts conflict).1,
      ok_bind, pure_eq_ok, List.filterMap_map]
    rfl
  · obtain ⟨conflict, -, hx⟩ := List.mem_filterMap.1 hx
    exact (conflicts conflict).2 x hx

/-- **No lookup fails.**  For a grammar with right-hand sides that leave a position
    beyond their ends: every sequence of constructions succeeds, and so do the
    preparation of the moves between items, the search for the counterexamples of
    every state, and the drawing of their derivations. -/
theorem never_panics {decls : List Declaration} {g : Grammar} (h : Grammar.define decls = .ok g)
    (narrow : ∀ r, r < g.rules.size → (g.rhs r).length < 65535) (calls : List Call) :
    after g calls = .ok (Automaton.after g calls) ∧
    moves g (Automaton.after g calls) = .ok () ∧
    ∀ q, q < (Automaton.after g calls).states.size → ∃ examples,
      Counterexample.ofState g (Automaton.after g calls) q = .ok examples ∧
      ofState g (Automaton.after g calls) q = .ok examples ∧
      ∀ x ∈ examples, ∀ d, x.derivation₁ = some d ∨ x.derivation₂ = some d →
        render g d = .ok (d.render g) := by
  have wf := Grammar.wellFormed_of_define h
  have nav := (Automaton.built_after wf calls).navigable wf narrow
  refine ⟨after_eq_ok wf narrow calls, moves_eq_ok nav, fun q hq => ?_⟩
  obtain ⟨examples, hplain, hchecked, hdrawable⟩ := ofState_eq_ok nav hq
  refine ⟨examples, hplain, hchecked, fun x hx d hd => render_eq_ok wf narrow ?_⟩
  rcases hd with hd | hd
  · exact (hdrawable x hx).1 d hd
  · exact (hdrawable x hx).2 d hd

/-- The theorem speaks of searches that find something: a sum without precedence has a
    counterexample with a derivation. -/
theorem never_panics_sum : ∃ g, Grammar.define
      [.rule ⟨"E", ["E", "'+'", "E"], none, 1⟩, .rule ⟨"E", ["'n'"], none, 2⟩] = .ok g ∧
    (∀ r, r < g.rules.size → (g.rhs r).length < 65535) ∧
    after g [.split, .lalr, .split] = .ok (Automaton.after g [.split, .lalr, .split]) ∧
    ∃ examples, ofState g (Automaton.after g [.split, .lalr, .split]) 5 = .ok examples ∧
      ∃ x ∈ examples, ∃ d, x.derivation₂ = some d ∧ render g d = .ok (d.render g) := by
  obtain ⟨g, hg, hcheck⟩ := Grammar.exists_define
    [.rule ⟨"E", ["E", "'+'", "E"], none, 1⟩, .rule ⟨"E", ["'n'"], none, 2⟩]
    (fun g => ((List.range g.rules.size).all fun r => (g.rhs r).length < 65535) &&
      decide (5 < (Automaton.after g [.split, .lalr, .split]).states.size) &&
      ((Counterexample.ofState g (Automaton.after g [.split, .lalr, .split]) 5).toOption.bind
        fun examples => examples.head?.bind Counterexample.derivation₂).isSome)
    (by decide +kernel)
  simp only [Bool.and_eq_true, List.all_eq_true, List.mem_range, decide_eq_true_eq] at hcheck
  obtain ⟨⟨narrow, hsize⟩, hexample⟩ := hcheck
  obtain ⟨hafter, -, hstates⟩ := never_panics hg narrow [.split, .lalr, .split]
  obtain ⟨examples, hplain, hchecked, hrender⟩ := hstates 5 hsize
  rw [hplain] at hexample
  obtain ⟨d, hd⟩ := Option.isSome_iff_exists.1 hexample
  rw [Except.toOption, Option.bind_some] at hd
  obtain ⟨x, hx, hd⟩ := Option.bind_eq_some_iff.1 hd
  have hx := List.mem_of_head? hx
  exact ⟨g, hg, narrow, hafter, examples, hchecked, x, hx, d, hd, hrender x hx d (.inr hd)⟩

end Checked

end LRAutomata
