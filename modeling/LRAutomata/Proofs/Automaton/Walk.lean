/-
  The walk that splits states.

  What its steps do to the graph, to the lookaheads, and to the states that
  wait.  A transition delivers its lookaheads to the first copy of its target
  that can take them, or to a new one (`Splitting.Walk.follow_copies`).
-/
import LRAutomata.Proofs.Automaton.Splitting
import LRAutomata.Proofs.Data.Worklist

namespace LRAutomata.Splitting.Walk

open LookaheadSources

/-- The graph walked so far. -/
def graph (w : Walk) : Graph :=
  ⟨w.cores⟩

/-- The graph `b'` has the states of `b`, as copies of the same states. -/
structure SameCopies (b b' : Graph) : Prop where
  size_le : b.size ≤ b'.size
  isocore_eq : ∀ {s}, s < b.size → (b'.core s).isocore = (b.core s).isocore

variable {g : Grammar} {a b b' : Graph} {w : Walk} {q s core : StateId} {X : SymbolId} {e : Edge}
variable {incoming current : List NatSet} {sp : Splitting}

theorem SameCopies.trans {b'' : Graph} (h₁ : SameCopies b b') (h₂ : SameCopies b' b'') :
    SameCopies b b'' :=
  ⟨Nat.le_trans h₁.size_le h₂.size_le, fun hs =>
    (h₂.isocore_eq (Nat.lt_of_lt_of_le hs h₁.size_le)).trans (h₁.isocore_eq hs)⟩

/-! ## The start -/

@[simp] theorem graph_start (g : Grammar) (a : Graph) : (start (.ofGraph g a)).graph = a := by
  show (⟨(Automaton.ofGraph g a).graph.cores⟩ : Graph) = a
  rw [Automaton.graph_ofGraph]

theorem lookaheads?_start (items : a.OfItems g) (s : StateId) :
    (start (.ofGraph g a)).lookaheads? s =
      if s = StateId.start then some ((a.core StateId.start).kernel.map fun _ => ∅) else none := by
  have hsize : (Automaton.ofGraph g a).graph.cores.size = a.size := by
    rw [Automaton.graph_ofGraph]; rfl
  show ((Array.replicate _ none).setIfInBounds StateId.start (some _)).getD s none = _
  rw [Array.getD_eq_getD_getElem?, Array.getElem?_setIfInBounds, Array.size_replicate, hsize,
    if_pos items.start_lt, Automaton.toCore_state]
  by_cases hs : s = StateId.start
  · rw [if_pos hs.symm, if_pos hs]; rfl
  · rw [if_neg (Ne.symm hs), if_neg hs, Array.getElem?_replicate]
    split <;> rfl

theorem copies_start (g : Grammar) (a : Graph) (q : StateId) :
    (start (.ofGraph g a)).copies.getD q [] = if q < a.size then [q] else [] := by
  have hsize : a.cores.size = a.size := rfl
  by_cases hq : q < a.size <;> simp [start, Array.getD, hsize, hq]

/-! ## Delivering -/

/-- The lookaheads of a state after further ones have reached it. -/
def merged (w : Walk) (s : StateId) (incoming : List NatSet) : List NatSet :=
  match w.lookaheads? s with
  | some current => join current incoming
  | none => incoming

theorem deliver_eq (w : Walk) (s : StateId) (incoming : List NatSet) : w.deliver s incoming =
    if w.lookaheads? s = some (w.merged s incoming) then w
    else { w with
      lookaheads := w.lookaheads.setIfInBounds s (some (w.merged s incoming))
      queue := (w.queue.push s).1 } := rfl

@[simp] theorem graph_deliver : (w.deliver s incoming).graph = w.graph := by
  rw [deliver_eq]; split <;> rfl

@[simp] theorem copies_deliver : (w.deliver s incoming).copies = w.copies := by
  rw [deliver_eq]; split <;> rfl

theorem lookaheads?_deliver (hs : s < w.lookaheads.size) (incoming : List NatSet) (s' : StateId) :
    (w.deliver s incoming).lookaheads? s' =
      if s' = s then some (w.merged s incoming) else w.lookaheads? s' := by
  rw [deliver_eq]
  split
  · rename_i hsame
    split
    · rename_i heq; rw [heq, hsame]
    · rfl
  · rw [lookaheads?, Array.getD_eq_getD_getElem?, Array.getElem?_setIfInBounds]
    by_cases heq : s' = s
    · rw [heq, if_pos rfl, if_pos hs, if_pos rfl]; rfl
    · rw [if_neg (Ne.symm heq), if_neg heq, lookaheads?, Array.getD_eq_getD_getElem?]

theorem size_lookaheads_deliver (w : Walk) (s : StateId) (incoming : List NatSet) :
    (w.deliver s incoming).lookaheads.size = w.lookaheads.size := by
  rw [deliver_eq]
  split
  · rfl
  · exact Array.size_setIfInBounds

theorem merged_of_some (hs : w.lookaheads? s = some current) :
    w.merged s incoming = Splitting.join current incoming := by
  rw [merged, hs]

theorem merged_of_none (hs : w.lookaheads? s = none) : w.merged s incoming = incoming := by
  rw [merged, hs]

/-- Lookaheads that are merged come first, or are joined with the earlier ones. -/
theorem merged_of {P : List NatSet → Prop} (first : P incoming)
    (joined : ∀ {current}, w.lookaheads? s = some current → P (Splitting.join current incoming)) :
    P (w.merged s incoming) := by
  cases hs : w.lookaheads? s with
  | none => rw [merged_of_none hs]; exact first
  | some current => rw [merged_of_some hs]; exact joined hs

theorem sound_deliver (h : w.queue.Sound) : (w.deliver s incoming).queue.Sound := by
  rw [deliver_eq]
  split
  · exact h
  · exact h.push s

/-- A state that does not wait after a delivery did not wait before, and is not
    one whose lookaheads have changed. -/
theorem not_mem_queue_deliver (h : w.queue.Sound) {s' : StateId}
    (hs' : s' ∉ (w.deliver s incoming).queue.toList) :
    s' ∉ w.queue.toList ∧ (s' = s → w.lookaheads? s = some (w.merged s incoming)) := by
  rw [deliver_eq] at hs'
  split at hs'
  · rename_i hsame; exact ⟨hs', fun _ => hsame⟩
  · have hs' : s' ∉ (w.queue.push s).1.toList := hs'
    rw [Worklist.mem_push h] at hs'
    exact ⟨fun hmem => hs' (.inr hmem), fun heq => absurd (.inl heq) hs'⟩

/-! ## Copying -/

theorem core_copy (w : Walk) (core s : StateId) (incoming : List NatSet) :
    (w.copy core incoming).1.graph.core s = if s = w.graph.size then
      { w.graph.core core with isocore := core, predecessors := [] } else w.graph.core s :=
  Graph.core_push _ _ _

theorem size_copy (w : Walk) (core : StateId) (incoming : List NatSet) :
    (w.copy core incoming).1.graph.size = w.graph.size + 1 := Array.size_push _

theorem lookaheads?_copy (hsize : w.lookaheads.size = w.graph.size) (core s : StateId)
    (incoming : List NatSet) : (w.copy core incoming).1.lookaheads? s =
      if s = w.graph.size then some incoming else w.lookaheads? s := by
  show (w.lookaheads.push (some incoming)).getD s none = _
  rw [Array.getD_eq_getD_getElem?, Array.getElem?_push, hsize, lookaheads?,
    Array.getD_eq_getD_getElem?]
  split <;> rfl

theorem sameCopies_copy (w : Walk) (core : StateId) (incoming : List NatSet) :
    SameCopies w.graph (w.copy core incoming).1.graph := by
  refine ⟨by rw [size_copy]; exact Nat.le_succ _, fun {s} hs => ?_⟩
  rw [core_copy, if_neg (Nat.ne_of_lt hs)]

theorem mem_copies_copy (hq : q < w.copies.size) (core : StateId) (incoming : List NatSet) :
    s ∈ (w.copy core incoming).1.copies.getD q [] ↔
      s ∈ w.copies.getD q [] ∨ q = core ∧ s = w.graph.size := by
  show s ∈ (w.copies.modify core (· ++ [w.graph.size])).getD q [] ↔ _
  rw [Array.getD_eq_getD_getElem?, Array.getElem?_modify, Array.getD_eq_getD_getElem?,
    Array.getElem?_eq_getElem hq]
  by_cases heq : core = q
  · simp [heq]
  · simp [heq, Ne.symm heq]

theorem of_mem_copies_copy {incoming : List NatSet}
    (h : s ∈ (w.copy core incoming).1.copies.getD q []) :
    s ∈ w.copies.getD q [] ∨ q = core ∧ s = w.graph.size := by
  by_cases hq : q < w.copies.size
  · exact (mem_copies_copy hq core incoming).1 h
  · have hsize : (w.copy core incoming).1.copies.size = w.copies.size := Array.size_modify
    rw [Array.getD_eq_getD_getElem?, Array.getElem?_eq_none (by rw [hsize]; exact Nat.le_of_not_lt hq)] at h
    cases h

/-! ## Retargeting -/

theorem core_retarget (w : Walk) (q s : StateId) (X : SymbolId) (target : StateId) :
    (w.retarget q X target).graph.core s = if s = q ∧ q < w.graph.size then
      { w.graph.core s with edges := (w.graph.core s).edges.map fun e =>
          if e.symbol = X then { e with target } else e }
      else w.graph.core s :=
  Graph.core_modify _ _ _ _

theorem size_retarget (w : Walk) (q : StateId) (X : SymbolId) (target : StateId) :
    (w.retarget q X target).graph.size = w.graph.size := Array.size_modify

theorem sameCopies_retarget (w : Walk) (q : StateId) (X : SymbolId) (target : StateId) :
    SameCopies w.graph (w.retarget q X target).graph := by
  refine ⟨by rw [size_retarget], fun {s} _ => ?_⟩
  rw [core_retarget]
  split <;> rfl

theorem isocore_retarget (w : Walk) (q s : StateId) (X : SymbolId) (target : StateId) :
    ((w.retarget q X target).graph.core s).isocore = (w.graph.core s).isocore := by
  rw [core_retarget]
  split <;> rfl

theorem kernel_retarget (w : Walk) (q s : StateId) (X : SymbolId) (target : StateId) :
    ((w.retarget q X target).graph.core s).kernel = (w.graph.core s).kernel := by
  rw [core_retarget]
  split <;> rfl

theorem closure_retarget (w : Walk) (q s : StateId) (X : SymbolId) (target : StateId) :
    ((w.retarget q X target).graph.core s).closure = (w.graph.core s).closure := by
  rw [core_retarget]
  split <;> rfl

theorem symbols_retarget (w : Walk) (q s : StateId) (X : SymbolId) (target : StateId) :
    ((w.retarget q X target).graph.core s).edges.map Edge.symbol =
      (w.graph.core s).edges.map Edge.symbol := by
  rw [core_retarget]
  split
  · rw [List.map_map]
    refine List.map_congr_left fun e _ => ?_
    show (if e.symbol = X then { e with target } else e : Edge).symbol = e.symbol
    split <;> rfl
  · rfl

/-- The transitions of a state after one of them was changed. -/
theorem mem_edges_retarget {target : StateId} (hq : q < w.graph.size)
    (he : e ∈ ((w.retarget q X target).graph.core s).edges) :
    (s = q ∧ e.symbol = X ∧ e.target = target) ∨
      ¬ (s = q ∧ e.symbol = X) ∧ e ∈ (w.graph.core s).edges := by
  rw [core_retarget] at he
  split at he
  · rename_i hs
    obtain ⟨e', he', rfl⟩ := List.mem_map.1 he
    split
    · rename_i heq; exact .inl ⟨hs.1, heq, rfl⟩
    · rename_i heq; exact .inr ⟨fun h => heq h.2, he'⟩
  · rename_i hs; exact .inr ⟨fun h => hs ⟨h.1, hq⟩, he⟩

/-! ## Following a transition -/

/-- The two lookahead lists call for different actions. -/
def Apart (sp : Splitting) (q : StateId) (current incoming : List NatSet) : Prop :=
  ∃ v n D D', (v, n) ∈ sp.annotationsOf q ∧ sp.dominant? v n current = some D ∧
    sp.dominant? v n incoming = some D' ∧ D ≠ D'

/-- The lookaheads go to the first copy listed that can take them, or to a new one. -/
theorem follow_copies (g : Grammar) (sp : Splitting) (q core : StateId) (source : List NatSet)
    (w : Walk) (e : Edge) {next : StateId} (hnext : (w.graph.core e.target).isocore = next)
    (hincoming : propagate g sp core source next = incoming) :
    (∃ s ∈ w.copies.getD next [],
      (∀ current, w.lookaheads? s = some current → sp.isCompatible next current incoming = true) ∧
      follow g sp q core source w e = (w.deliver s incoming).retarget q e.symbol s) ∨
    ((∀ s ∈ w.copies.getD next [], ∃ current,
        w.lookaheads? s = some current ∧ Apart sp next current incoming) ∧
      follow g sp q core source w e =
        (w.copy next incoming).1.retarget q e.symbol w.graph.size) := by
  subst hnext hincoming
  rw [follow]
  show (∃ s ∈ _, _ ∧ Walk.retarget _ _ _ _ = _) ∨ (_ ∧ Walk.retarget _ _ _ _ = _)
  split
  · rename_i s hfind
    refine .inl ⟨s, List.mem_of_find?_eq_some hfind, fun current hcurrent => ?_, rfl⟩
    have := List.find?_some hfind
    rw [hcurrent] at this
    exact this
  · rename_i hfind
    refine .inr ⟨fun s hs => ?_, rfl⟩
    have hrefused := List.find?_eq_none.1 hfind s hs
    cases hs : w.lookaheads? s with
    | none => rw [hs] at hrefused; exact absurd rfl hrefused
    | some current =>
      rw [hs] at hrefused
      exact ⟨current, rfl, exists_of_not_isCompatible (Bool.eq_false_iff.2 hrefused)⟩

/-- The state `q` is walked from. -/
def visit (g : Grammar) (sp : Splitting) (w : Walk) (q : StateId) : Walk :=
  match w.lookaheads? q with
  | none => w
  | some source =>
    (w.graph.core q).edges.foldl (follow g sp q (w.graph.core q).isocore source) w

theorem run_succ (g : Grammar) (sp : Splitting) (rounds : Nat) (w : Walk) :
    run g sp (rounds + 1) w = match w.queue.pop? with
      | none => w
      | some (q, queue) => run g sp rounds (visit g sp { w with queue } q) := by
  cases hpop : w.queue.pop? with
  | none => rw [run, hpop]
  | some taken =>
    rw [run, hpop]
    dsimp only [visit]
    cases Walk.lookaheads? { w with queue := taken.2 } taken.1 <;> rfl

/-- The walk is a loop over the states that wait. -/
theorem loop (g : Grammar) (sp : Splitting) :
    Worklist.Loop queue (fun w q queue => visit g sp { w with queue } q) (run g sp) :=
  ⟨fun _ => rfl, fun rounds w => by rw [run_succ]; cases w.queue.pop? <;> rfl⟩

end LRAutomata.Splitting.Walk
