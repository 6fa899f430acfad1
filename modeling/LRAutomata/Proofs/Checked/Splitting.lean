/-
  Splitting states, with its lookups checked.

  The walk looks up states, copies and lookaheads that it adds to itself, and
  what was prepared for the states of the automaton that it splits; `Walked` is
  what keeps these within range.  Afterwards every transition of a state that
  remains leads to one that remains.

  * `Checked.prepare`, `Checked.walk`, `Checked.prune`: the parts of splitting;
  * `Checked.after`: any sequence of constructions.
-/
import LRAutomata.Proofs.Checked.Annotation

namespace LRAutomata.Checked

open Splitting

/-! ## Preparation -/

/-- Trace back the inadequacies of an automaton. -/
def prepare (g : Grammar) (a : Automaton) : Checked Splitting := do
  let follows ← gotoFollows g a
  let kernelLookaheads ← kernelLookaheads g a
  let t ← trace g a ⟨follows, kernelLookaheads⟩
  let annotations := t.tables.map OrderedMap.toList
  (List.range a.states.size).forM fun q => index q annotations.size
  pure { automaton := a, follows, annotations, filters := filtersOf a annotations }

/-- What was prepared is there for every state, and within its kernel. -/
structure Prepared (g : Grammar) (a : Graph) (sp : Splitting) : Prop where
  automaton_eq : sp.automaton = .ofGraph g a
  size_annotations : sp.annotations.size = a.size
  size_filters : sp.filters.size = a.size
  kernelItem_lt : ∀ {z k}, k ∈ sp.follows.kernelItems.getD z ∅ → k < (a.core z.source).kernel.length
  state_lt : ∀ {q w n}, (w, n) ∈ sp.annotationsOf q → w.state < a.size
  contributor_lt : ∀ {q w n}, (w, n) ∈ sp.annotationsOf q →
    ∀ k ∈ n.contributors, k < (a.core q).kernel.length
  length_propagate : ∀ {q}, q < a.size → ∀ p source,
    (sp.propagate g p source q).length = (a.core q).kernel.length

variable {g : Grammar} {a : Graph} {sp : Splitting} {w : Splitting.Walk} {p q s core : StateId}
variable {source incoming : List NatSet} {X : SymbolId}

theorem prepare_eq_ok (h : Ready g a) :
    prepare g (.ofGraph g a) = .ok (Splitting.prepare g (.ofGraph g a)) := by
  have confined := LookaheadSources.confined_compute h.toComplete h.wf
  obtain ⟨htrace, traced⟩ := trace_eq_ok confined h
  have hrange : ((List.range (Automaton.ofGraph g a).states.size).forM fun q =>
      index q (((LookaheadSources.compute g (.ofGraph g a)).trace g (.ofGraph g a)).tables.map
        OrderedMap.toList).size) = .ok () := by
    simp only [forM_eq_ok, index_eq_ok, Array.size_map, traced.size_eq, Automaton.size_ofGraph,
      List.mem_range]
    exact fun _ hq => hq
  rw [prepare, gotoFollows_eq_ok h, ok_bind, (kernelLookaheads_eq_ok h).1, ok_bind]
  change trace g _ (LookaheadSources.compute g (.ofGraph g a)) >>= _ = _
  rw [htrace, ok_bind]
  dsimp only
  rw [hrange]
  rfl

theorem prepared (h : Ready g a) : Prepared g a (Splitting.prepare g (.ofGraph g a)) := by
  obtain ⟨-, traced⟩ := trace_eq_ok (LookaheadSources.confined_compute h.toComplete h.wf) h
  constructor
  case automaton_eq => rfl
  case size_annotations => rw [annotations_prepare, Array.size_map, traced.size_eq]
  case size_filters =>
    show (filtersOf _ _).size = _
    rw [filtersOf, List.size_toArray, List.length_map, List.length_zip, Array.length_toList,
      Array.length_toList, Automaton.size_ofGraph]
    change min a.size (Array.size (Array.map _ _)) = a.size
    rw [Array.size_map, traced.size_eq, Nat.min_self]
  case kernelItem_lt => exact GotoFollows.kernelItems_lt h.wf
  case state_lt => exact fun hn => (LookaheadSources.map_action_of_finds (mem_annotationsOf.1 hn)).1
  case contributor_lt => exact fun hn => traced.contributor_lt _ _ _ (mem_annotationsOf.1 hn)
  case length_propagate => exact fun hq _ _ => length_propagate hq

/-! ## The walk -/

/-- Look up what the kernel items of `next` have from those of `core`. -/
def propagation (g : Grammar) (sp : Splitting) (core : StateId) (source : List NatSet)
    (next : StateId) : Checked Unit := do
  index core sp.automaton.states.size
  index next sp.automaton.states.size
  index next sp.filters.size
  (sp.automaton.state core).kernel.forM (item g)
  (sp.automaton.state next).kernel.forM fun i => do
    item g i
    whenever (i.rule ≠ RuleId.accept ∧ i.position = 1)
      ((sp.follows.kernelItems.getD ⟨core, i.lhs g⟩ ∅).toList.forM (index · source.length))
    whenever (i.rule ≠ RuleId.accept ∧ i.position ≠ 1)
      (forSome ((sp.automaton.state core).kernel.findIdx? fun j => j.precedes i)
        (index · source.length))

/-- Look up what two lookaheads call for. -/
def compatibility (sp : Splitting) (core : StateId) (current incoming : List NatSet) :
    Checked Unit := do
  index core sp.annotations.size
  (sp.annotationsOf core).forM fun n => do
    index n.1.state sp.automaton.states.size
    n.2.contributors.toList.forM fun k => do
      index k current.length
      index k incoming.length

/-- Follow a transition of the state `q`. -/
def follow (g : Grammar) (sp : Splitting) (q : StateId) (core : StateId) (source : List NatSet)
    (w : Splitting.Walk) (e : Edge) : Checked Splitting.Walk := do
  index e.target w.cores.size
  let next := (w.graph.core e.target).isocore
  index core w.cores.size
  index next w.cores.size
  propagation g sp core source next
  index next w.copies.size
  (w.copies.getD next []).forM fun s => do
    index s w.lookaheads.size
    forSome (w.lookaheads? s) fun current =>
      compatibility sp next current (sp.propagate g core source next)
  index q w.cores.size
  pure (Splitting.Walk.follow g sp q core source w e)

/-- Walk from the state `q`. -/
def visitState (g : Grammar) (sp : Splitting) (w : Splitting.Walk) (q : StateId) :
    Checked Splitting.Walk := do
  index q w.lookaheads.size
  (w.lookaheads? q).elim (pure w) fun source => do
    index q w.cores.size
    (w.graph.core q).edges.foldlM (follow g sp q (w.graph.core q).isocore source) w

/-- Walk from the states that wait. -/
def runWalk (g : Grammar) (sp : Splitting) :
    (rounds : Nat) → Splitting.Walk → Checked Splitting.Walk
  | 0, w => pure w
  | rounds + 1, w => w.queue.pop?.elim (pure w) fun next => do
    let w ← visitState g sp { w with queue := next.2 } next.1
    runWalk g sp rounds w

/-- The walk when no state waits any more. -/
def walk (g : Grammar) (sp : Splitting) : Checked Splitting.Walk := do
  index StateId.start sp.automaton.states.size
  runWalk g sp (sp.bound g) (Splitting.Walk.start sp.automaton)

/-- What holds of the walk so far: its tables have the sizes of the graphs, every
    state is a copy of one that was there, and lookaheads are as long as the
    kernel. -/
structure Walked (g : Grammar) (a : Graph) (w : Splitting.Walk) : Prop
    extends Walk.Represented g w where
  keeps : Walk.Keeps a w.graph
  size_lookaheads : w.lookaheads.size = w.graph.size
  size_copies : w.copies.size = a.size
  isocore_lt : ∀ {s}, s < w.graph.size → (w.graph.core s).isocore < a.size
  length_eq : ∀ {s l}, w.lookaheads? s = some l → l.length = (w.graph.core s).kernel.length
  queue_lt : ∀ s ∈ w.queue.toList, s < w.graph.size

theorem Walked.lt_of_lookaheads? (h : Walked g a w) {l : List NatSet}
    (hs : w.lookaheads? s = some l) : s < w.graph.size := by
  rw [← h.size_lookaheads]
  by_contra hge
  rw [Walk.lookaheads?, Array.getD_eq_getD_getElem?,
    Array.getElem?_eq_none (Nat.le_of_not_lt hge)] at hs
  cases hs

/-- The kernel of a state is that of its isocore in the graph that is split. -/
theorem Walked.kernel_eq (h : Walked g a w) (hs : s < w.graph.size) :
    (a.core (w.graph.core s).isocore).kernel = (w.graph.core s).kernel := by
  rw [← h.keeps.kernel_eq (h.isocore_lt hs)]
  exact h.graph.kernel_isocore hs

theorem Walked.deliver (h : Walked g a w) (hs : s < w.graph.size)
    (hlength : incoming.length = (w.graph.core s).kernel.length) :
    Walked g a (w.deliver s incoming) := by
  have hmerged : (w.merged s incoming).length = (w.graph.core s).kernel.length :=
    Walk.merged_of (P := fun l => l.length = (w.graph.core s).kernel.length) hlength fun hcurrent => by
      rw [join, List.length_zipWith, h.length_eq hcurrent, hlength, Nat.min_self]
  constructor
  case toRepresented => exact h.toRepresented.deliver s incoming
  all_goals try rw [Walk.graph_deliver]
  case keeps => exact h.keeps
  case size_lookaheads => rw [Walk.size_lookaheads_deliver]; exact h.size_lookaheads
  case size_copies => rw [Walk.copies_deliver]; exact h.size_copies
  case isocore_lt => exact h.isocore_lt
  case length_eq =>
    intro s' l hl
    rw [Walk.lookaheads?_deliver (by rw [h.size_lookaheads]; exact hs)] at hl
    split at hl
    · rename_i heq; cases hl; rw [heq]; exact hmerged
    · exact h.length_eq hl
  case queue_lt =>
    intro s' hs'
    rw [Walk.deliver_eq] at hs'
    split at hs'
    · exact h.queue_lt s' hs'
    · rcases Worklist.mem_of_mem_push hs' with hs' | rfl
      · exact h.queue_lt s' hs'
      · exact hs

theorem Walked.copy (h : Walked g a w) (hcore : core < a.size)
    (hself : (w.graph.core core).isocore = core)
    (hlength : incoming.length = (w.graph.core core).kernel.length) :
    Walked g a (w.copy core incoming).1 := by
  have keeps := Walk.keeps_copy w core incoming
  have hsize := Walk.size_copy w core incoming
  have old : ∀ {s'}, s' < w.graph.size + 1 → s' ≠ w.graph.size → s' < w.graph.size :=
    fun hs' hne => Nat.lt_of_le_of_ne (Nat.le_of_lt_succ hs') hne
  constructor
  case toRepresented =>
    exact h.toRepresented.copy (Nat.lt_of_lt_of_le hcore h.keeps.size_le) hself incoming
  case keeps => exact h.keeps.trans keeps
  case size_lookaheads =>
    show (w.lookaheads.push _).size = _
    rw [Array.size_push, h.size_lookaheads, hsize]
  case size_copies =>
    show (w.copies.modify _ _).size = _
    rw [Array.size_modify, h.size_copies]
  case isocore_lt =>
    intro s' hs'
    rw [hsize] at hs'
    rw [Walk.core_copy]
    split
    · exact hcore
    · exact h.isocore_lt (old hs' ‹_›)
  case length_eq =>
    intro s' l hl
    rw [Walk.lookaheads?_copy h.size_lookaheads] at hl
    rw [Walk.core_copy]
    split at hl
    · rename_i heq; cases hl; rw [if_pos heq]; exact hlength
    · rename_i hne; rw [if_neg hne]; exact h.length_eq hl
  case queue_lt =>
    intro s' hs'
    rw [hsize]
    rcases Worklist.mem_of_mem_push hs' with hs' | rfl
    · exact Nat.lt_succ_of_lt (h.queue_lt s' hs')
    · exact Nat.lt_succ_self _

theorem Walked.retarget (h : Walked g a w) (hs : Walk.LeadsTo g w.graph q X s) :
    Walked g a (w.retarget q X s) := by
  have keeps := Walk.keeps_retarget w q X s
  have hsize := Walk.size_retarget w q X s
  refine ⟨h.toRepresented.retarget hs, h.keeps.trans keeps, ?_, h.size_copies, ?_, ?_, ?_⟩
  · rw [hsize]; exact h.size_lookaheads
  · intro s' hs'
    rw [hsize] at hs'
    rw [keeps.isocore_eq hs']; exact h.isocore_lt hs'
  · intro s' l hl
    rw [keeps.kernel_eq (h.lt_of_lookaheads? hl)]; exact h.length_eq hl
  · intro s' hs'
    rw [hsize]; exact h.queue_lt s' hs'

/-- Following a transition keeps all tables in range. -/
theorem Walked.follow (h : Walked g a w) (prepared : Prepared g a sp) (hq : q < w.graph.size)
    (core : StateId) (source : List NatSet) {e : Edge}
    (he : Walk.LeadsTo g w.graph q e.symbol e.target) :
    Walked g a (Splitting.Walk.follow g sp q core source w e) ∧
      Walk.Keeps w.graph (Splitting.Walk.follow g sp q core source w e).graph := by
  refine ⟨?_, (h.toRepresented.follow hq he).2⟩
  have hnext := h.isocore_lt he.lt
  have hlength := prepared.length_propagate hnext core source
  rcases h.toRepresented.follow_cases hq he rfl (rfl : propagate g sp core source _ = _) with
    ⟨s, hmem, hleads, heq⟩ | ⟨hleads, heq⟩
  · rw [heq]
    have hkernel := (h.copies hmem).2.2.1
    refine (h.deliver hleads.lt ?_).retarget (by rw [Walk.graph_deliver]; exact hleads)
    rw [hlength, hkernel, h.keeps.kernel_eq hnext]
  · rw [heq]
    exact (h.copy hnext (h.graph.isocore_isocore he.lt)
      (by rw [hlength, h.keeps.kernel_eq hnext])).retarget hleads

theorem propagation_eq_ok (prepared : Prepared g a sp) (h : Ready g a) {next : StateId}
    (hcore : core < a.size) (hnext : next < a.size)
    (hsource : source.length = (a.core core).kernel.length) :
    propagation g sp core source next = .ok () := by
  simp only [propagation, seq_eq_ok, index_eq_ok, forM_eq_ok, whenever_eq_ok, forSome_eq_ok,
    prepared.automaton_eq, prepared.size_filters, Automaton.size_ofGraph, Automaton.toCore_state,
    hsource]
  refine ⟨hcore, hnext, hnext, forM_eq_ok.1 (kernel_eq_ok h hcore), fun i hi => ?_⟩
  exact ⟨h.kernelItem_eq_ok hnext hi,
    fun _ k hk => prepared.kernelItem_lt (NatSet.mem_toList.1 hk),
    fun _ k hk => (List.findIdx?_eq_some_iff_getElem.1 hk).1⟩

theorem compatibility_eq_ok (prepared : Prepared g a sp) (hcore : core < a.size)
    {current : List NatSet} (hcurrent : current.length = (a.core core).kernel.length)
    (hincoming : incoming.length = (a.core core).kernel.length) :
    compatibility sp core current incoming = .ok () := by
  simp only [compatibility, seq_eq_ok, index_eq_ok, forM_eq_ok, prepared.size_annotations,
    prepared.automaton_eq, Automaton.size_ofGraph, hcurrent, hincoming]
  refine ⟨hcore, fun n hn => ⟨prepared.state_lt hn, fun k hk => ?_⟩⟩
  have := prepared.contributor_lt hn k (NatSet.mem_toList.1 hk)
  exact ⟨this, this⟩

theorem follow_eq_ok (walked : Walked g a w) (prepared : Prepared g a sp)
    (h : Ready g a) (hq : q < w.graph.size) (hcore : core < a.size)
    (hsource : source.length = (a.core core).kernel.length) {e : Edge}
    (he : e.target < w.graph.size) :
    follow g sp q core source w e = .ok (Splitting.Walk.follow g sp q core source w e) := by
  have hnext := walked.isocore_lt he
  have hlength := prepared.length_propagate hnext core source
  have hle := walked.keeps.size_le
  simp only [follow, seq_eq_ok, index_eq_ok, forM_eq_ok, forSome_eq_ok, pure_eq_ok,
    walked.size_copies, walked.size_lookaheads]
  refine ⟨he, Nat.lt_of_lt_of_le hcore hle, Nat.lt_of_lt_of_le hnext hle,
    propagation_eq_ok prepared h hcore hnext hsource, hnext, fun s hs => ?_, hq, trivial⟩
  obtain ⟨-, hlt, hkernel, -⟩ := walked.copies hs
  refine ⟨hlt, fun current hcurrent => compatibility_eq_ok prepared hnext ?_ hlength⟩
  rw [walked.length_eq hcurrent, hkernel, walked.keeps.kernel_eq hnext]

theorem visitState_eq_ok (walked : Walked g a w) (prepared : Prepared g a sp)
    (h : Ready g a) (hq : q < w.graph.size) :
    visitState g sp w q = .ok (w.visit g sp q) ∧ Walked g a (w.visit g sp q) := by
  rw [visitState, index_eq_ok.2 (by rw [walked.size_lookaheads]; exact hq), ok_bind]
  rw [Walk.visit]
  cases hsource : w.lookaheads? q with
  | none => exact ⟨rfl, walked⟩
  | some source =>
    rw [Option.elim_some, index_eq_ok.2 (show q < w.cores.size from hq), ok_bind]
    have hcore := walked.isocore_lt hq
    have hlength : source.length = (a.core (w.graph.core q).isocore).kernel.length := by
      rw [walked.length_eq hsource, walked.kernel_eq hq]
    -- The edges are those at the beginning; the walk keeps the states to which they lead.
    obtain ⟨hfold, hwalked, -⟩ := foldlM_eq_ok
      (P := fun v => Walked g a v ∧ Walk.Keeps w.graph v.graph)
      (l := (w.graph.core q).edges)
      (f := follow g sp q (w.graph.core q).isocore source)
      (g := Splitting.Walk.follow g sp q (w.graph.core q).isocore source)
      (fun v hkept e he => by
        obtain ⟨hv, keeps⟩ := hkept
        have hqv := Nat.lt_of_lt_of_le hq keeps.size_le
        have hleads : Walk.LeadsTo g v.graph q e.symbol e.target :=
          Walk.LeadsTo.keeps ⟨walked.graph.target_lt hq e he, walked.graph.kernel_target hq e he,
            walked.graph.accessing_target hq e he⟩ hq keeps
        obtain ⟨hfollow, keeps'⟩ := hv.follow prepared hqv (w.graph.core q).isocore source hleads
        exact ⟨follow_eq_ok hv prepared h hqv hcore hlength hleads.lt, hfollow,
          keeps.trans keeps'⟩) ⟨walked, Walk.Keeps.refl _⟩
    exact ⟨hfold, hwalked⟩

theorem runWalk_eq_ok (prepared : Prepared g a sp) (h : Ready g a) :
    ∀ (rounds : Nat) {w : Splitting.Walk}, Walked g a w →
      runWalk g sp rounds w = .ok (Splitting.Walk.run g sp rounds w)
  | 0, _, _ => rfl
  | rounds + 1, w, walked => by
    rw [runWalk, Walk.run_succ]
    cases hpop : w.queue.pop? with
    | none => rfl
    | some next =>
      obtain ⟨hlist, -⟩ := Worklist.pop?_eq_some hpop
      have walked' : Walked g a { w with queue := next.2 } :=
        ⟨⟨walked.graph, walked.copies⟩, walked.keeps, walked.size_lookaheads, walked.size_copies,
          walked.isocore_lt, walked.length_eq,
          fun s hs => walked.queue_lt s (by rw [hlist]; exact List.mem_cons_of_mem _ hs)⟩
      have hq := walked.queue_lt next.1 (by rw [hlist]; exact List.mem_cons_self)
      obtain ⟨hvisit, hwalked⟩ := visitState_eq_ok walked' prepared h hq
      rw [Option.elim_some, hvisit, ok_bind]
      exact runWalk_eq_ok prepared h rounds hwalked

theorem walked_start (h : Ready g a) : Walked g a (Splitting.Walk.start (.ofGraph g a)) := by
  constructor
  case toRepresented => exact Walk.represented_start h.toRepresented
  all_goals try rw [Walk.graph_start]
  case keeps => exact Walk.Keeps.refl a
  case size_lookaheads => simp [Splitting.Walk.start, Graph.size]
  case size_copies => simp [Splitting.Walk.start, Graph.size]
  case isocore_lt => exact h.isocore_lt
  case length_eq =>
    intro s l hl
    rw [Walk.lookaheads?, Splitting.Walk.start, Array.getD_eq_getD_getElem?,
      Array.getElem?_setIfInBounds] at hl
    split at hl
    · rename_i heq
      subst heq
      split at hl
      · cases hl; rw [List.length_map, Automaton.toCore_state]
      · cases hl
    · rw [Array.getElem?_replicate] at hl
      split at hl <;> cases hl
  case queue_lt =>
    intro s hs
    rcases Worklist.mem_of_mem_push hs with hs | rfl
    · cases hs
    · exact h.start_lt

theorem walk_eq_ok (prepared : Prepared g a sp) (h : Ready g a) : walk g sp = .ok (sp.walk g) := by
  rw [walk, seq_eq_ok, index_eq_ok, prepared.automaton_eq, Automaton.size_ofGraph, Splitting.walk,
    prepared.automaton_eq]
  exact ⟨h.start_lt, runWalk_eq_ok prepared h _ (walked_start h)⟩

/-! ## Removing states -/

/-- The new number of the state to which a transition leads. -/
def renumber (remaining : List StateId) (q : StateId) : Checked Unit :=
  (Graph.renumber? remaining q).elim (.error (.removedTarget q)) (index · remaining.length)

/-- The new representative of the states that a state represented. -/
def representative (a : Graph) (remaining : List StateId) (q : StateId) : Checked Unit :=
  (a.representative? remaining q).elim (.error (.noRepresentative q)) (index · remaining.length)

/-- The graph without the states that cannot be reached. -/
def prune (a : Graph) : Checked Graph := do
  let remaining := a.reachable.toList
  index StateId.start a.size
  remaining.forM fun q => do
    index q a.size
    (a.core q).edges.forM fun e => do
      index e.target a.size
      renumber remaining e.target
    index (a.core q).isocore a.size
    representative a remaining (a.core q).isocore
  pure a.prune

theorem renumber_eq_ok (hq : q ∈ a.reachable) : renumber a.reachable.toList q = .ok () := by
  rw [renumber]
  cases hfind : Graph.renumber? a.reachable.toList q with
  | none =>
    have := List.findIdx?_eq_none_iff.1 hfind q (NatSet.mem_toList.2 hq)
    simp at this
  | some i => exact index_eq_ok.2 (List.findIdx?_eq_some_iff_getElem.1 hfind).1

theorem prune_eq_ok (h : a.Represented g) : prune a = .ok a.prune := by
  simp only [prune, seq_eq_ok, index_eq_ok, forM_eq_ok, pure_eq_ok]
  refine ⟨h.start_lt, fun q hmem => ?_, trivial⟩
  have hreached := NatSet.mem_toList.1 hmem
  have hq := h.lt_of_mem_reachable hreached
  refine ⟨hq, fun e he => ⟨h.target_lt hq e he, ?_⟩, h.isocore_lt hq, ?_⟩
  · exact renumber_eq_ok (h.target_mem_reachable hreached he)
  · obtain ⟨i, hi⟩ := List.mem_iff_getElem?.1 hmem
    obtain ⟨j, r, hrep, hr, -⟩ := h.exists_representative hq hi
    rw [representative, hrep]
    exact index_eq_ok.2 (List.getElem?_eq_some_iff.1 hr).1

/-! ## Sequences of constructions -/

/-- Split states where their merged lookaheads cause inadequacies. -/
def split (g : Grammar) (a : Automaton) : Checked Automaton := do
  let sp ← prepare g a
  if sp.isNeeded then
    let w ← walk g sp
    let pruned ← prune w.graph
    ofGraph g pruned
  else pure a

/-- The automaton after one more call. -/
def call (g : Grammar) (a : Automaton) : Call → Checked Automaton
  | .lalr => do ofGraph g (← lr0 g)
  | .split => split g a

/-- The automaton after a sequence of calls. -/
def after (g : Grammar) (calls : List Call) : Checked Automaton :=
  calls.foldlM (call g) Automaton.empty

theorem split_eq_ok (h : Ready g a) :
    split g (.ofGraph g a) = .ok (Automaton.split g (.ofGraph g a)) := by
  have walk : ((Splitting.prepare g (.ofGraph g a)).walk g).graph.Represented g :=
    Splitting.represented_graph h.toRepresented
  rw [split, prepare_eq_ok h, ok_bind, Automaton.split, Automaton.splitGraph?]
  by_cases hneeded : (Splitting.prepare g (.ofGraph g a)).isNeeded = true
  · rw [if_pos hneeded, if_pos hneeded, walk_eq_ok (prepared h) h, ok_bind,
      prune_eq_ok walk, ok_bind]
    exact ofGraph_eq_ok walk.prune.toOfItems h.wf h.narrow
      (walk.prune.toOfItems.inRange h.wf (Graph.reachable_prune walk.toOfItems))
  · rw [if_neg hneeded, if_neg hneeded]
    rfl

/-- There is nothing to look up without states. -/
theorem prepare_empty_eq_ok (g : Grammar) :
    prepare g Automaton.empty = .ok (Splitting.prepare g Automaton.empty) := by
  have hfollows : gotoFollows g Automaton.empty = .ok (GotoFollows.compute g Automaton.empty) := by
    simp only [gotoFollows, solve_eq_ok, ok_bind]
    rfl
  have hkernel : kernelLookaheads g Automaton.empty =
      .ok (KernelLookaheads.compute g Automaton.empty) := rfl
  have htrace : trace g Automaton.empty (LookaheadSources.compute g Automaton.empty) =
      .ok ((LookaheadSources.compute g Automaton.empty).trace g Automaton.empty) := rfl
  rw [prepare, hfollows, ok_bind, hkernel, ok_bind]
  change trace g _ (LookaheadSources.compute g Automaton.empty) >>= _ = _
  rw [htrace]
  rfl

theorem split_empty_eq_ok (g : Grammar) : split g Automaton.empty = .ok Automaton.empty := by
  rw [split, prepare_empty_eq_ok, ok_bind, Automaton.isNeeded_empty]
  rfl

theorem call_eq_ok {b : Automaton} (h : Automaton.Built g b) (wf : g.WellFormed) (narrow : g.Narrow)
    (c : Call) : call g b c = .ok (Automaton.call g b c) := by
  cases c with
  | lalr =>
    rw [call, lr0_eq_ok wf narrow, ok_bind]
    have h := Automaton.complete_lr0 wf
    exact ofGraph_eq_ok h.toOfItems wf narrow (h.inRange wf)
  | split =>
    cases h with
    | empty => rw [call, split_empty_eq_ok, Automaton.call, Automaton.split_empty]
    | ofGraph h => exact split_eq_ok ⟨h, wf, narrow⟩

/-- **Every sequence of constructions succeeds.** -/
theorem after_eq_ok (wf : g.WellFormed) (narrow : g.Narrow) (calls : List Call) :
    after g calls = .ok (Automaton.after g calls) :=
  (foldlM_eq_ok (P := Automaton.Built g)
    (fun _ h c _ => ⟨call_eq_ok h wf narrow c, h.call wf c⟩) .empty).1

end LRAutomata.Checked
