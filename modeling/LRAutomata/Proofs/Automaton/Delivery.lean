/-
  What has been delivered when the walk ends.

  When every state of an automaton represents itself, the states of the walk
  are these states and copies of them (`Walk.Shape`).  A transition from a state
  that does not wait has delivered the lookaheads of the state to one that calls
  for the same actions as they do (`Walk.Invariant`).  In the end no state waits
  (`Splitting.invariant_walk`), so every transition has delivered what it has to
  (`Splitting.walk_settled`).

  The right-hand sides of the grammar are taken to fit the positions (`Item`).
-/
import LRAutomata.Proofs.Automaton.Calls
import LRAutomata.Proofs.Automaton.WalkBound

namespace LRAutomata.Splitting

open LookaheadSources

namespace Walk

/-! ## The shape of the graph -/

/-- The core is a copy of its isocore, and its transitions lead to copies of the
    states to which those of the isocore lead. -/
structure CopyOf (a b : Graph) (c : Core) : Prop where
  isocore_lt : c.isocore < a.size
  kernel_eq : c.kernel = (a.core c.isocore).kernel
  closure_eq : c.closure = (a.core c.isocore).closure
  symbols_eq : c.edges.map Edge.symbol = (a.core c.isocore).edges.map Edge.symbol
  target : ∀ e ∈ c.edges, e.target < b.size ∧
    a.next? c.isocore e.symbol = some (b.core e.target).isocore

/-- The states are those of the automaton and copies of them. -/
structure Shape (a : Graph) (w : Walk) : Prop where
  size_le : a.size ≤ w.graph.size
  original : ∀ {q}, q < a.size → (w.graph.core q).isocore = q
  copyOf : ∀ {s}, s < w.graph.size → CopyOf a w.graph (w.graph.core s)

section Shape
variable {g : Grammar} {a b b' : Graph} {w : Walk} {q s core : StateId} {X : SymbolId}
variable {incoming : List NatSet}

theorem CopyOf.sameCopies {c : Core} (h : CopyOf a b c) (hb : SameCopies b b') : CopyOf a b' c := by
  refine ⟨h.isocore_lt, h.kernel_eq, h.closure_eq, h.symbols_eq, fun e he => ?_⟩
  obtain ⟨hlt, hnext⟩ := h.target e he
  exact ⟨Nat.lt_of_lt_of_le hlt hb.size_le, by rw [hb.isocore_eq hlt]; exact hnext⟩

/-- A state belongs to its isocore. -/
theorem Shape.owner_eq (h : Shape a w) (s : StateId) : owner a w s = (w.graph.core s).isocore := by
  rw [owner]
  split
  · rename_i hs; exact (h.original hs).symm
  · rfl

theorem shape_start (isocore : ∀ {q}, q < a.size → (a.core q).isocore = q) (h : a.OfItems g) :
    Shape a (start (.ofGraph g a)) := by
  refine ⟨by rw [graph_start], fun hq => by rw [graph_start]; exact isocore hq, fun {s} hs => ?_⟩
  rw [graph_start] at hs ⊢
  refine ⟨by rw [isocore hs]; exact hs, by rw [isocore hs], by rw [isocore hs], by rw [isocore hs],
    fun e he => ?_⟩
  have hlt := h.target_lt hs e he
  exact ⟨hlt, by rw [isocore hs, isocore hlt]; exact h.next?_edge hs he⟩

theorem Shape.deliver (h : Shape a w) (s : StateId) (incoming : List NatSet) :
    Shape a (w.deliver s incoming) := by
  refine ⟨?_, ?_, ?_⟩ <;> rw [graph_deliver]
  · exact h.size_le
  · exact h.original
  · exact h.copyOf

theorem Shape.copy (h : Shape a w) (hcore : core < a.size) (incoming : List NatSet) :
    Shape a (w.copy core incoming).1 := by
  have same := sameCopies_copy w core incoming
  have hcore' : core < w.graph.size := Nat.lt_of_lt_of_le hcore h.size_le
  have horiginal := h.original hcore
  refine ⟨Nat.le_trans h.size_le same.size_le, fun {q} hq => ?_, fun {s} hs => ?_⟩
  · rw [same.isocore_eq (Nat.lt_of_lt_of_le hq h.size_le)]; exact h.original hq
  · rw [core_copy]
    split
    · have c := (h.copyOf hcore').sameCopies same
      refine ⟨hcore, ?_, ?_, ?_, fun e he => ?_⟩
      · exact c.kernel_eq.trans (by rw [horiginal])
      · exact c.closure_eq.trans (by rw [horiginal])
      · exact c.symbols_eq.trans (by rw [horiginal])
      · have := c.target e he
        rwa [horiginal] at this
    · rename_i hne
      rw [size_copy] at hs
      exact (h.copyOf (Nat.lt_of_le_of_ne (Nat.le_of_lt_succ hs) hne)).sameCopies same

theorem Shape.retarget (h : Shape a w) (hq : q < w.graph.size) {target : StateId}
    (htarget : target < w.graph.size)
    (hnext : a.next? (w.graph.core q).isocore X = some (w.graph.core target).isocore) :
    Shape a (w.retarget q X target) := by
  have same := sameCopies_retarget w q X target
  have hsize := size_retarget w q X target
  refine ⟨by rw [hsize]; exact h.size_le,
    fun {q'} hq' => by rw [isocore_retarget]; exact h.original hq', fun {s} hs => ?_⟩
  rw [hsize] at hs
  have c := (h.copyOf hs).sameCopies same
  have hiso := same.isocore_eq hs
  refine ⟨by rw [hiso]; exact c.isocore_lt, ?_, ?_, ?_, fun e he => ?_⟩
  · rw [hiso, ← c.kernel_eq, kernel_retarget]
  · rw [hiso, ← c.closure_eq, closure_retarget]
  · rw [hiso, ← c.symbols_eq, symbols_retarget]
  · rw [hiso]
    rcases mem_edges_retarget hq he with ⟨rfl, rfl, rfl⟩ | ⟨-, he⟩
    · exact ⟨by rw [hsize]; exact htarget, by rw [same.isocore_eq htarget]; exact hnext⟩
    · exact c.target e he

end Shape

/-! ## The invariant -/

/-- The lookaheads have reached the state, and what they call for there is what
    the state calls for. -/
def Arrived (sp : Splitting) (q : StateId) (incoming current : List NatSet) : Prop :=
  Below incoming current ∧ ∀ v n, (v, n) ∈ sp.annotationsOf q →
    ∀ D, sp.dominant? v n incoming = some D → sp.dominant? v n current = some D

/-- What holds between two steps of the walk.  The transitions of a state that
    does not wait have delivered its lookaheads, apart from those in `todo`. -/
structure Invariant (g : Grammar) (a : Graph) (todo : StateId → SymbolId → Prop) (w : Walk) : Prop
    extends Spread g a w, Shape a w where
  begun : ∃ lookaheads, w.lookaheads? StateId.start = some lookaheads
  bounded : ∀ {s lookaheads}, w.lookaheads? s = some lookaheads →
    Bounded g a (w.graph.core s).isocore lookaheads
  settled : ∀ {s lookaheads}, s ∉ w.queue.toList → w.lookaheads? s = some lookaheads →
    ∀ e ∈ (w.graph.core s).edges, ¬ todo s e.symbol → ∃ current,
      w.lookaheads? e.target = some current ∧
      Arrived (prepare g (.ofGraph g a)) (w.graph.core e.target).isocore
        (propagate g (prepare g (.ofGraph g a)) (w.graph.core s).isocore lookaheads
          (w.graph.core e.target).isocore) current

section Invariant
variable {g : Grammar} {a : Graph} {w : Walk} {q s core : StateId} {X : SymbolId}
variable {incoming current : List NatSet} {todo : StateId → SymbolId → Prop} {sp : Splitting}

theorem Arrived.refl (sp : Splitting) (q : StateId) (incoming : List NatSet) :
    Arrived sp q incoming incoming :=
  ⟨fun _ _ h => h, fun _ _ _ _ h => h⟩

/-- Lookaheads that have arrived are not disturbed by compatible ones. -/
theorem Arrived.join {earlier : List NatSet} (h : Arrived sp q earlier current)
    (nodup : ∀ v n, (v, n) ∈ sp.annotationsOf q → (n.map Contribution.action).Nodup)
    (hlength : current.length = incoming.length) (hcompatible : sp.isCompatible q current incoming = true) :
    Arrived sp q earlier (join current incoming) := by
  refine ⟨fun k t ht => (mem_join hlength).2 (.inl (h.1 k t ht)), fun v n hmem D hD => ?_⟩
  exact dominant?_join (nodup v n hmem) hlength (h.2 v n hmem D hD)
    fun D' hD' => isCompatible_iff.1 hcompatible v n hmem D D' (h.2 v n hmem D hD) hD'

/-- Compatible lookaheads arrive. -/
theorem arrived_join (nodup : ∀ v n, (v, n) ∈ sp.annotationsOf q → (n.map Contribution.action).Nodup)
    (hlength : current.length = incoming.length) (hcompatible : sp.isCompatible q current incoming = true) :
    Arrived sp q incoming (Splitting.join current incoming) := by
  refine ⟨fun k t ht => (mem_join hlength).2 (.inr ht), fun v n hmem D hD => ?_⟩
  exact dominant?_join_right (nodup v n hmem) hlength hD
    fun D' hD' => isCompatible_iff.1 hcompatible v n hmem D' D hD' hD

/-- The state can take the lookaheads: they are compatible with those it has. -/
def Takes (sp : Splitting) (w : Walk) (s : StateId) (incoming : List NatSet) : Prop :=
  ∀ current, w.lookaheads? s = some current →
    sp.isCompatible (w.graph.core s).isocore current incoming = true

/-- Delivered lookaheads have arrived. -/
theorem Invariant.arrived_merged (h : Invariant g a todo w) (items : a.OfItems g) (wf : g.WellFormed)
    (reach : a.Reachable) (hincoming : Bounded g a (w.graph.core s).isocore incoming)
    (htakes : Takes (prepare g (.ofGraph g a)) w s incoming) :
    Arrived (prepare g (.ofGraph g a)) (w.graph.core s).isocore incoming (w.merged s incoming) :=
  merged_of (.refl _ _ _) fun {current} hs => arrived_join (fun _ _ => nodup_annotation items wf reach)
    ((h.bounded hs).1.trans hincoming.1.symm) (htakes current hs)

theorem Invariant.deliver (h : Invariant g a todo w) (items : a.OfItems g) (wf : g.WellFormed)
    (reach : a.Reachable) (hs : s < w.graph.size)
    (hfits : Fits g a (w.graph.core s).isocore incoming)
    (hincoming : Bounded g a (w.graph.core s).isocore incoming)
    (htakes : Takes (prepare g (.ofGraph g a)) w s incoming) :
    Invariant g a todo (w.deliver s incoming) := by
  have lookaheads := lookaheads?_deliver
    (by rw [h.size_lookaheads]; exact hs : s < w.lookaheads.size) incoming
  have howner := h.owner_eq s
  refine ⟨h.toSpread.deliver items wf reach hs (howner ▸ hfits)
    fun current hcurrent => howner ▸ htakes current hcurrent,
    (h.toShape.deliver s incoming).original, (h.toShape.deliver s incoming).copyOf, ?_,
    fun {s' l} hl => ?_, fun {s' l} hs' hl e he htodo => ?_⟩
  · rw [lookaheads]
    split
    · exact ⟨_, rfl⟩
    · exact h.begun
  · rw [graph_deliver]
    rw [lookaheads] at hl
    split at hl
    · rename_i heq
      cases hl
      subst heq
      exact merged_of hincoming fun hcurrent => bounded_join (h.bounded hcurrent) hincoming
    · exact h.bounded hl
  · -- The lookaheads of a state that does not wait are as they were.
    obtain ⟨hqueue, hsame⟩ := not_mem_queue_deliver h.queue hs'
    rw [graph_deliver] at he ⊢
    have hl : w.lookaheads? s' = some l := by
      rw [lookaheads] at hl
      split at hl
      · rename_i heq; rw [heq, hsame heq]; exact hl
      · exact hl
    obtain ⟨current, hcurrent, harrived⟩ := h.settled hqueue hl e he htodo
    rw [lookaheads]
    split
    · rename_i htarget
      rw [htarget] at hcurrent harrived ⊢
      refine ⟨_, rfl, ?_⟩
      rw [merged_of_some hcurrent]
      exact harrived.join (fun v n => nodup_annotation items wf reach)
        ((h.bounded hcurrent).1.trans hincoming.1.symm) (htakes current hcurrent)
    · exact ⟨current, hcurrent, harrived⟩

theorem Invariant.copy (h : Invariant g a todo w) (hcore : core < a.size)
    (hincoming : Bounded g a core incoming) (hcopy : Spread g a (w.copy core incoming).1) :
    Invariant g a todo (w.copy core incoming).1 := by
  have lookaheads := fun s => lookaheads?_copy h.size_lookaheads core s incoming
  have same := sameCopies_copy w core incoming
  have hqueue : ∀ s, s ∈ (w.copy core incoming).1.queue.toList ↔ s = w.graph.size ∨ s ∈ w.queue.toList :=
    fun s => Worklist.mem_push h.queue
  have hshape := h.toShape.copy hcore incoming
  refine ⟨hcopy, hshape.original, hshape.copyOf, ?_, fun {s l} hl => ?_,
    fun {s l} hs hl e he htodo => ?_⟩
  · rw [lookaheads]
    split
    · exact ⟨_, rfl⟩
    · exact h.begun
  · rw [lookaheads] at hl
    split at hl
    · rename_i heq; cases hl; rw [heq, core_copy, if_pos rfl]; exact hincoming
    · rw [same.isocore_eq (h.lt_of_lookaheads? hl)]; exact h.bounded hl
  · rw [hqueue, not_or] at hs
    rw [lookaheads, if_neg hs.1] at hl
    rw [core_copy, if_neg hs.1] at he
    have hlt := h.lt_of_lookaheads? hl
    have htarget := ((h.copyOf hlt).target e he).1
    rw [lookaheads, if_neg (Nat.ne_of_lt htarget), same.isocore_eq hlt, same.isocore_eq htarget]
    exact h.settled hs.2 hl e he htodo

theorem Invariant.retarget (h : Invariant g a todo w) {todo' : StateId → SymbolId → Prop}
    (htodo : ∀ s Y, todo s Y → todo' s Y ∨ s = q ∧ Y = X) (hq : q < w.graph.size) {target : StateId}
    (htarget : target < w.graph.size)
    (hnext : a.next? (w.graph.core q).isocore X = some (w.graph.core target).isocore)
    (harrived : ∀ lookaheads, q ∉ w.queue.toList → w.lookaheads? q = some lookaheads →
      ∃ current, w.lookaheads? target = some current ∧
        Arrived (prepare g (.ofGraph g a)) (w.graph.core target).isocore
          (propagate g (prepare g (.ofGraph g a)) (w.graph.core q).isocore lookaheads
            (w.graph.core target).isocore) current) :
    Invariant g a todo' (w.retarget q X target) := by
  have same := sameCopies_retarget w q X target
  have hshape := h.toShape.retarget hq htarget hnext
  refine ⟨h.toSpread.retarget q X target, hshape.original, hshape.copyOf, h.begun,
    fun {s l} hl => ?_, fun {s l} hs hl e he hnot => ?_⟩
  · have hl : w.lookaheads? s = some l := hl
    rw [isocore_retarget]; exact h.bounded hl
  · have hl : w.lookaheads? s = some l := hl
    have hlt := h.lt_of_lookaheads? hl
    rw [isocore_retarget]
    rcases mem_edges_retarget hq he with ⟨rfl, rfl, rfl⟩ | ⟨hother, he⟩
    · rw [isocore_retarget]
      exact harrived l hs hl
    · rw [isocore_retarget]
      exact h.settled hs hl e he fun hold => (htodo s e.symbol hold).elim hnot hother

/-! ## Following a transition -/

/-- The transition leads, from a copy of `core`, to a copy of the state to which
    that of `core` leads. -/
def Leads (a : Graph) (w : Walk) (core : StateId) (e : Edge) : Prop :=
  e.target < w.graph.size ∧ a.next? core e.symbol = some (w.graph.core e.target).isocore

theorem Leads.sameCopies {w' : Walk} {e : Edge} (h : Leads a w core e)
    (same : SameCopies w.graph w'.graph) : Leads a w' core e :=
  ⟨Nat.lt_of_lt_of_le h.1 same.size_le, by rw [same.isocore_eq h.1]; exact h.2⟩

/-- What following a transition keeps: the state `q`, from which it leads, has the
    lookaheads `source` unless it waits again. -/
structure Following (g : Grammar) (a : Graph) (q core : StateId) (source : List NatSet)
    (todo : StateId → SymbolId → Prop) (w : Walk) : Prop extends Invariant g a todo w where
  lt : q < w.graph.size
  isocore_eq : (w.graph.core q).isocore = core
  has : q ∉ w.queue.toList → w.lookaheads? q = some source

variable {source : List NatSet}

theorem Following.deliver (h : Following g a q core source todo w) (items : a.OfItems g)
    (wf : g.WellFormed) (reach : a.Reachable) (hs : s < w.graph.size)
    (hfits : Fits g a (w.graph.core s).isocore incoming)
    (hincoming : Bounded g a (w.graph.core s).isocore incoming)
    (htakes : Takes (prepare g (.ofGraph g a)) w s incoming) :
    Following g a q core source todo (w.deliver s incoming) := by
  refine ⟨h.toInvariant.deliver items wf reach hs hfits hincoming htakes,
    by rw [graph_deliver]; exact h.lt, by rw [graph_deliver]; exact h.isocore_eq, fun hqueue => ?_⟩
  obtain ⟨hqueue, hsame⟩ := not_mem_queue_deliver h.queue hqueue
  rw [lookaheads?_deliver (by rw [h.size_lookaheads]; exact hs)]
  split
  · rename_i hqs; rw [← hsame hqs, ← hqs]; exact h.has hqueue
  · exact h.has hqueue

theorem Following.copy (h : Following g a q core source todo w) {next : StateId}
    (hnext : next < a.size) (hincoming : Bounded g a next incoming)
    (hcopy : Spread g a (w.copy next incoming).1) :
    Following g a q core source todo (w.copy next incoming).1 := by
  have same := sameCopies_copy w next incoming
  refine ⟨h.toInvariant.copy hnext hincoming hcopy, Nat.lt_of_lt_of_le h.lt same.size_le,
    by rw [same.isocore_eq h.lt]; exact h.isocore_eq, fun hqueue => ?_⟩
  rw [lookaheads?_copy h.size_lookaheads, if_neg (Nat.ne_of_lt h.lt)]
  exact h.has fun hmem => hqueue ((Worklist.mem_push h.queue).2 (.inr hmem))

/-- When the lookaheads have arrived at a state, the transition may lead to it. -/
theorem Following.retarget (h : Following g a q core source todo w)
    {todo' : StateId → SymbolId → Prop} (htodo : ∀ s Y, todo s Y → todo' s Y ∨ s = q ∧ Y = X)
    (hs : s < w.graph.size) (hnext : a.next? core X = some (w.graph.core s).isocore)
    (hcurrent : w.lookaheads? s = some current)
    (harrived : Arrived (prepare g (.ofGraph g a)) (w.graph.core s).isocore
      (propagate g (prepare g (.ofGraph g a)) core source (w.graph.core s).isocore) current) :
    Following g a q core source todo' (w.retarget q X s) := by
  refine ⟨h.toInvariant.retarget htodo h.lt hs (by rw [h.isocore_eq]; exact hnext)
    fun l hqueue hl => ?_, by rw [size_retarget]; exact h.lt, ?_, h.has⟩
  · obtain rfl := Option.some.inj (hl.symm.trans (h.has hqueue))
    rw [h.isocore_eq]
    exact ⟨current, hcurrent, harrived⟩
  · rw [isocore_retarget]; exact h.isocore_eq

theorem Following.follow (h : Following g a q core source todo w) (items : a.OfItems g)
    (wf : g.WellFormed) (link : a.Linked) (reach : a.Reachable) (hsource : Bounded g a core source)
    {e : Edge} (he : Leads a w core e) (todo' : StateId → SymbolId → Prop)
    (htodo : ∀ s Y, todo s Y → todo' s Y ∨ s = q ∧ Y = e.symbol) :
    Following g a q core source todo' (follow g (prepare g (.ofGraph g a)) q core source w e) ∧
      SameCopies w.graph (follow g (prepare g (.ofGraph g a)) q core source w e).graph := by
  have hcore : core < a.size := h.isocore_eq ▸ (h.copyOf h.lt).isocore_lt
  have hnext := (items.next?_kernel hcore he.2).1
  have hfits := fits_propagate items wf reach hcore hnext source
  have hbounded := bounded_propagate items wf link reach hcore he.2 hsource
  have hlead := he.2
  have hcases := h.toSpread.follow_cases q core source e rfl rfl
  generalize (w.graph.core e.target).isocore = next at hnext hfits hbounded hlead hcases
  rcases hcases with ⟨s, hs, rfl, htakes, heq⟩ | ⟨hrefused, heq⟩ <;> rw [heq]
  · rw [h.owner_eq s] at hfits hbounded hlead htakes ⊢
    have hdeliver := h.deliver items wf reach hs hfits hbounded htakes
    have harrived := h.toInvariant.arrived_merged items wf reach hbounded htakes
    have hgraph : (w.deliver s (propagate g (prepare g (.ofGraph g a)) core source
      (w.graph.core s).isocore)).graph = w.graph := graph_deliver
    refine ⟨hdeliver.retarget htodo (by rw [hgraph]; exact hs) (by rw [hgraph]; exact hlead)
      (by rw [lookaheads?_deliver (by rw [h.size_lookaheads]; exact hs), if_pos rfl])
      (by rw [hgraph]; exact harrived), ?_⟩
    have := sameCopies_retarget (w.deliver s (propagate g (prepare g (.ofGraph g a)) core source
      (w.graph.core s).isocore)) q e.symbol s
    rwa [hgraph] at this
  · have hcopy := h.copy hnext hbounded (h.toSpread.copy hnext hfits hrefused)
    have hnew : ∀ incoming, ((w.copy next incoming).1.graph.core w.graph.size).isocore = next := by
      intro incoming; rw [core_copy, if_pos rfl]
    refine ⟨hcopy.retarget htodo (by rw [size_copy]; exact Nat.lt_succ_self _)
      (by rw [hnew]; exact hlead) (by rw [lookaheads?_copy h.size_lookaheads, if_pos rfl])
      (by rw [hnew]; exact .refl _ _ _), ?_⟩
    exact (sameCopies_copy w next _).trans (sameCopies_retarget _ _ _ _)

/-- Following the transitions of a state delivers its lookaheads along all of them. -/
theorem Following.foldl (items : a.OfItems g) (wf : g.WellFormed) (link : a.Linked)
    (reach : a.Reachable) (hsource : Bounded g a core source) : ∀ (edges : List Edge) {w : Walk},
    Following g a q core source (fun s Y => s = q ∧ Y ∈ edges.map Edge.symbol) w →
    (∀ e ∈ edges, Leads a w core e) →
    Following g a q core source (fun _ _ => False)
      (edges.foldl (Walk.follow g (prepare g (.ofGraph g a)) q core source) w)
  | [], w, h, _ => by
    refine ⟨⟨h.toSpread, h.original, h.copyOf, h.begun, h.bounded,
      fun hs hl e he _ => h.settled hs hl e he ?_⟩, h.lt, h.isocore_eq, h.has⟩
    exact fun hnil => List.not_mem_nil hnil.2
  | e :: edges, w, h, hleads => by
    have he := hleads e (List.mem_cons_self ..)
    obtain ⟨hfollow, same⟩ := h.follow items wf link reach hsource he
      (fun s Y => s = q ∧ Y ∈ edges.map Edge.symbol) fun s Y ⟨hs, hY⟩ => by
        rcases List.mem_cons.1 hY with hY | hY
        · exact .inr ⟨hs, hY⟩
        · exact .inl ⟨hs, hY⟩
    exact Following.foldl items wf link reach hsource edges hfollow
      fun e' he' => (hleads e' (List.mem_cons_of_mem _ he')).sameCopies same

/-! ## The steps of the walk -/

/-- **A step of the walk** keeps the invariant. -/
theorem Invariant.visit (h : Invariant g a (fun _ _ => False) w) (items : a.OfItems g)
    (wf : g.WellFormed) (link : a.Linked) (reach : a.Reachable) {queue : Worklist StateId}
    (hpop : w.queue.pop? = some (q, queue)) :
    Invariant g a (fun _ _ => False) (visit g (prepare g (.ofGraph g a)) { w with queue } q) := by
  obtain ⟨hlist, -⟩ := Worklist.pop?_eq_some hpop
  -- The transitions of the state taken are yet to be followed.
  have hpopped : ∀ {todo : StateId → SymbolId → Prop},
      (∀ lookaheads, w.lookaheads? q = some lookaheads → ∀ e ∈ (w.graph.core q).edges, todo q e.symbol) →
      Invariant g a todo { w with queue } := by
    intro todo htodo
    refine ⟨h.toSpread.pop hpop, h.original, h.copyOf, h.begun, h.bounded,
      fun {s l} hs hl e he hnottodo => ?_⟩
    have hne : s ≠ q := by rintro rfl; exact hnottodo (htodo l hl e he)
    refine h.settled (fun hmem => ?_) hl e he id
    rw [hlist] at hmem
    exact (List.mem_cons.1 hmem).elim hne hs
  rw [Walk.visit]
  cases hsource : Walk.lookaheads? { w with queue } q with
  | none =>
    refine hpopped fun l hl => ?_
    have hnone : w.lookaheads? q = none := hsource
    rw [hnone] at hl; cases hl
  | some source =>
    have hsource : w.lookaheads? q = some source := hsource
    have hq := h.lt_of_lookaheads? hsource
    have hfollowing : Following g a q (w.graph.core q).isocore source
        (fun s Y => s = q ∧ Y ∈ (w.graph.core q).edges.map Edge.symbol) { w with queue } :=
      ⟨hpopped fun _ _ e he => ⟨rfl, List.mem_map_of_mem he⟩, hq, rfl, fun _ => hsource⟩
    exact (Following.foldl items wf link reach (h.bounded hsource)
      (w.graph.core q).edges hfollowing (h.copyOf hq).target).toInvariant

theorem Invariant.run (items : a.OfItems g) (wf : g.WellFormed) (link : a.Linked)
    (reach : a.Reachable) : ∀ (rounds : Nat) {w : Walk}, Invariant g a (fun _ _ => False) w →
      Invariant g a (fun _ _ => False) (run g (prepare g (.ofGraph g a)) rounds w) :=
  (loop g _).keeps fun _ _ _ h hpop => h.visit items wf link reach hpop

theorem invariant_start (items : a.OfItems g)
    (isocore : ∀ {q}, q < a.size → (a.core q).isocore = q) :
    Invariant g a (fun _ _ => False) (start (.ofGraph g a)) := by
  have hshape := shape_start isocore items
  refine ⟨spread_start items fun hq => by rw [isocore hq]; exact hq, hshape.original, hshape.copyOf,
    ?_, fun {s l} hl => ?_, fun {s l} hs hl e he htodo => ?_⟩
  · rw [lookaheads?_start items, if_pos rfl]; exact ⟨_, rfl⟩
  · rw [graph_start]
    rw [lookaheads?_start items] at hl
    split at hl
    · rename_i hs
      cases hl
      rw [hs, isocore items.start_lt]
      refine ⟨by rw [List.length_map], fun k t ht => ?_⟩
      rw [List.getD_eq_getElem?_getD, List.getElem?_map] at ht
      cases hk : (a.core StateId.start).kernel[k]? <;> rw [hk] at ht <;>
        exact absurd ht (NatSet.not_mem_empty t)
    · cases hl
  · rw [lookaheads?_start items] at hl
    split at hl
    · rename_i hstart
      exact absurd ((Worklist.mem_push Worklist.sound_empty).2 (.inl hstart)) hs
    · cases hl

end Invariant

end Walk

/-- **The end of the walk.**  When it stops no state waits, and the invariant holds. -/
theorem invariant_walk {g : Grammar} {a : Graph} (items : a.OfItems g) (wf : g.WellFormed)
    (link : a.Linked) (reach : a.Reachable)
    (isocore : ∀ {q}, q < a.size → (a.core q).isocore = q) :
    Walk.Invariant g a (fun _ _ => False) ((prepare g (.ofGraph g a)).walk g) ∧
      ((prepare g (.ofGraph g a)).walk g).queue.toList = [] :=
  ⟨Walk.Invariant.run items wf link reach _ (Walk.invariant_start items isocore),
    queue_walk items wf reach fun hq => by rw [isocore hq]; exact hq⟩

/-! ## What the transitions have delivered -/

theorem Below.forall₂ {lookaheads lookaheads' : List NatSet} (h : Below lookaheads lookaheads')
    (hlength : lookaheads.length = lookaheads'.length) :
    List.Forall₂ (· ⊆ ·) lookaheads lookaheads' := by
  refine List.forall₂_iff_get.2 ⟨hlength, fun k hk hk' => NatSet.subset_def.2 fun t ht => ?_⟩
  have hmem := h k t
  rw [List.getD_eq_getElem?_getD, List.getD_eq_getElem?_getD, List.getElem?_eq_getElem hk,
    List.getElem?_eq_getElem hk'] at hmem
  exact hmem ht

/-- Lookaheads that have arrived are compatible with those of the state. -/
theorem Walk.Arrived.isCompatible {sp : Splitting} {q : StateId} {incoming current : List NatSet}
    (h : Arrived sp q incoming current) : sp.isCompatible q current incoming = true := by
  refine isCompatible_iff.2 fun v n hmem D D' hD hD' => ?_
  exact Option.some.inj (hD.symm.trans (h.2 v n hmem D' hD'))

/-- **The walk ends at a compatible fixed point.**  No state waits any more, and
    lookaheads have reached the start state.  If they have reached a state, they
    have reached the target of each of its transitions: what is passed on along
    the transition is contained in the lookaheads of the target and compatible
    with them, and whatever it calls for at an inadequacy, they call for too. -/
theorem walk_settled {decls : List Declaration} {g : Grammar} (h : Grammar.define decls = .ok g) :
    let sp := prepare g (Automaton.lalr g)
    let w := sp.walk g
    w.queue.toList = [] ∧ (∃ l, w.lookaheads? StateId.start = some l) ∧
    ∀ s source, w.lookaheads? s = some source → ∀ e ∈ ((sp.graph g).core s).edges,
      ∃ current, w.lookaheads? e.target = some current ∧
      let p := ((sp.graph g).core s).isocore
      let q := ((sp.graph g).core e.target).isocore
      List.Forall₂ (· ⊆ ·) (sp.propagate g p source q) current ∧
      sp.isCompatible q current (sp.propagate g p source q) = true ∧
      ∀ v n, (v, n) ∈ sp.annotationsOf q → ∀ D,
        sp.dominant? v n (sp.propagate g p source q) = some D → sp.dominant? v n current = some D := by
  intro sp w
  have wf := Grammar.wellFormed_of_define h
  have complete := Automaton.complete_lr0 wf
  obtain ⟨inv, hqueue⟩ := invariant_walk complete.toOfItems wf complete.isLinked complete.reachable
    (Lr0.isocore_graph wf)
  refine ⟨hqueue, inv.begun, fun s source hsource e he => ?_⟩
  have hidle : s ∉ w.queue.toList := fun hmem => List.not_mem_nil (hqueue ▸ hmem)
  obtain ⟨current, hcurrent, harrived⟩ := inv.settled hidle hsource e he id
  refine ⟨current, hcurrent, harrived.1.forall₂ ?_, harrived.isCompatible, harrived.2⟩
  -- Both lists have an entry for each kernel item of the target.
  have htarget := (inv.copyOf (inv.lt_of_lookaheads? hcurrent)).isocore_lt
  exact (length_propagate htarget).trans (inv.bounded hcurrent).1.symm

/-- The state that reads `'e'` is copied, as behind `'b'` its two items have the
    lookaheads of each other.  The copy has a transition to itself. -/
theorem walk_settled_loop : ∃ g, Grammar.define
      [.rule ⟨"S", ["'a'", "E", "'c'"], none, 1⟩, .rule ⟨"S", ["'a'", "F", "'d'"], none, 2⟩,
        .rule ⟨"S", ["'b'", "F", "'c'"], none, 3⟩, .rule ⟨"S", ["'b'", "E", "'d'"], none, 4⟩,
        .rule ⟨"E", ["'e'", "E"], none, 5⟩, .rule ⟨"F", ["'e'", "F"], none, 6⟩,
        .rule ⟨"E", [], none, 7⟩, .rule ⟨"F", [], none, 8⟩] = .ok g ∧
    let sp := prepare g (Automaton.lalr g)
    let w := sp.walk g
    sp.isNeeded = true ∧ (Automaton.lalr g).states.size = 16 ∧ ((sp.graph g).core 16).isocore = 4 ∧
    sp.isCompatible 4 ((w.lookaheads? 4).getD []) ((w.lookaheads? 16).getD []) = false ∧
    w.queue.toList = [] ∧ ∃ source current, w.lookaheads? 16 = some source ∧
      source.map NatSet.toList = [[5], [4]] ∧ (∃ e ∈ ((sp.graph g).core 16).edges, e.target = 16) ∧
      w.lookaheads? 16 = some current ∧ List.Forall₂ (· ⊆ ·) (sp.propagate g 4 source 4) current ∧
      sp.isCompatible 4 current (sp.propagate g 4 source 4) = true := by
  obtain ⟨g, hg, hcheck⟩ := Grammar.exists_define
    [.rule ⟨"S", ["'a'", "E", "'c'"], none, 1⟩, .rule ⟨"S", ["'a'", "F", "'d'"], none, 2⟩,
      .rule ⟨"S", ["'b'", "F", "'c'"], none, 3⟩, .rule ⟨"S", ["'b'", "E", "'d'"], none, 4⟩,
      .rule ⟨"E", ["'e'", "E"], none, 5⟩, .rule ⟨"F", ["'e'", "F"], none, 6⟩,
      .rule ⟨"E", [], none, 7⟩, .rule ⟨"F", [], none, 8⟩]
    (fun g =>
      let sp := prepare g (Automaton.lalr g)
      let w := sp.walk g
      decide (sp.isNeeded = true ∧ (Automaton.lalr g).states.size = 16 ∧
        ((sp.graph g).core 16).isocore = 4 ∧
        sp.isCompatible 4 ((w.lookaheads? 4).getD []) ((w.lookaheads? 16).getD []) = false ∧
        (w.lookaheads? 16).map (List.map NatSet.toList) = some [[5], [4]] ∧
        ∃ e ∈ ((sp.graph g).core 16).edges, e.target = 16))
    (by decide +kernel)
  obtain ⟨hneeded, hsize, hisocore, hother, hsource, e, he, htarget⟩ := of_decide_eq_true hcheck
  obtain ⟨source, hl, hsource⟩ := Option.map_eq_some_iff.1 hsource
  obtain ⟨hqueue, -, hsettled⟩ := walk_settled hg
  obtain ⟨current, hcurrent, hdelivered⟩ := hsettled 16 source hl e he
  rw [htarget] at hcurrent hdelivered
  rw [hisocore] at hdelivered
  exact ⟨g, hg, hneeded, hsize, hisocore, hother, hqueue, source, current, hl, hsource,
    ⟨e, he, htarget⟩, hcurrent, hdelivered.1, hdelivered.2.1⟩

end LRAutomata.Splitting
