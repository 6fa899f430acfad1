/-
  What annotations say.

  The kernel items listed for an action bring a token to it (`Brought`), in
  the state of the inadequacy and in the states before it.

  * seen from a predecessor, an annotation calls for the same actions
    (`LookaheadSources.calls_atPredecessor`);
  * every annotation for an inadequacy lists the actions of its state
    (`LookaheadSources.map_action_of_finds`);
  * the annotation of a state for its own inadequacy calls for the actions that
    are taken after a string (`LookaheadSources.calls_manifestation`).
-/
import LRAutomata.Proofs.Automaton.Action
import LRAutomata.Proofs.Data.Worklist

namespace LRAutomata

/-- One of the kernel items listed has `P`; without a list none needs to. -/
def Brought (items : Option NatSet) (P : Nat → Prop) : Prop :=
  ∀ ks, items = some ks → ∃ k, k ∈ ks ∧ P k

section Brought
variable {P Q : Nat → Prop} {ks : NatSet} {items : Option NatSet}

@[simp] theorem brought_none : Brought none P := by
  intro ks h; cases h

@[simp] theorem brought_some : Brought (some ks) P ↔ ∃ k, k ∈ ks ∧ P k := by
  simp [Brought]

theorem brought_congr (h : ∀ ks, items = some ks → ∀ k, k ∈ ks → (P k ↔ Q k)) :
    Brought items P ↔ Brought items Q := by
  cases items with
  | none => simp
  | some ks =>
    rw [brought_some, brought_some]
    exact exists_congr fun k => and_congr_right fun hk => h ks rfl k hk

theorem brought_or : Brought items (fun k => P k ∨ Q k) ↔ Brought items P ∨ Brought items Q := by
  cases items with
  | none => simp
  | some ks => simp only [brought_some, and_or_left, exists_or]

theorem brought_map_union : Brought (items.map (ks ∪ ·)) P ↔ (∃ k, k ∈ ks ∧ P k) ∨ Brought items P := by
  cases items with
  | none => simp
  | some ls => simp only [Option.map_some, brought_some, NatSet.mem_union, or_and_right, exists_or]

theorem brought_foldlM {f : Nat → Option NatSet} : ∀ (js : List Nat) (found : NatSet),
    Brought (js.foldlM (fun found j => (f j).map (found ∪ ·)) found) P ↔
      (∃ k, k ∈ found ∧ P k) ∨ ∃ j ∈ js, Brought (f j) P
  | [], found => by simp
  | j :: js, found => by
    rw [List.foldlM_cons]
    cases hj : f j with
    | none => simp [hj]
    | some ks =>
      simp only [Option.map_some, Option.bind_eq_bind, Option.bind_some]
      rw [brought_foldlM js]
      simp [hj, or_and_right, exists_or, or_assoc]

theorem Contribution.isPresent_iff {c : Contribution} {t : SymbolId} {lookaheads : List NatSet} :
    c.isPresent t lookaheads = true ↔
      Brought c.kernelItems fun k => t ∈ lookaheads.getD k ∅ := by
  rw [isPresent]
  cases c.kernelItems <;> simp

end Brought

namespace Annotation

/-- The annotation calls for the action, if the kernel items with `P` have the token. -/
def Calls (n : Annotation) (P : Nat → Prop) (α : Action) : Prop :=
  ∃ c ∈ n, c.action = α ∧ Brought c.kernelItems P

variable {n : Annotation} {P Q : Nat → Prop} {α : Action}

theorem mem_contributors {k : Nat} :
    k ∈ n.contributors ↔ ∃ c ∈ n, ∃ ks, c.kernelItems = some ks ∧ k ∈ ks := by
  rw [contributors, Lookaheads.mem_foldl_union]
  simp only [NatSet.not_mem_empty, false_or]
  refine exists_congr fun c => and_congr_right fun _ => ?_
  cases c.kernelItems <;> simp

theorem calls_congr (h : ∀ k, k ∈ n.contributors → (P k ↔ Q k)) : n.Calls P α ↔ n.Calls Q α :=
  exists_congr fun _ => and_congr_right fun hc => and_congr_right fun _ =>
    brought_congr fun _ hks k hk => h k (mem_contributors.2 ⟨_, hc, _, hks, hk⟩)

theorem Calls.mono (hα : n.Calls P α) (h : ∀ k, P k → Q k) : n.Calls Q α := by
  obtain ⟨c, hc, haction, hbrought⟩ := hα
  exact ⟨c, hc, haction, fun ks hks => (hbrought ks hks).imp fun k hk => ⟨hk.1, h k hk.2⟩⟩

theorem calls_or : n.Calls (fun k => P k ∨ Q k) α ↔ n.Calls P α ∨ n.Calls Q α := by
  simp only [Calls, brought_or, and_or_left, exists_or]

theorem map_action_merge : ∀ {n added : Annotation}, n.length = added.length →
    (n.merge added).map Contribution.action = n.map Contribution.action
  | [], _, _ => rfl
  | c :: n, d :: added, h => by
    have : (merge n added).map Contribution.action = n.map Contribution.action :=
      map_action_merge (Nat.succ.inj h)
    simpa [merge] using this

/-- What is listed after a merge was listed before. -/
theorem mem_contributors_merge {added : Annotation} {k : Nat}
    (h : k ∈ (n.merge added).contributors) : k ∈ n.contributors ∨ k ∈ added.contributors := by
  obtain ⟨c, hc, ks, hks, hk⟩ := mem_contributors.1 h
  rw [merge, List.mem_map] at hc
  obtain ⟨⟨c₁, c₂⟩, hzip, rfl⟩ := hc
  obtain ⟨h₁, h₂⟩ := List.of_mem_zip hzip
  dsimp only at hks
  split at hks
  · rename_i ks₁ ks₂ hks₁ hks₂
    cases hks
    rcases NatSet.mem_union.1 hk with hk | hk
    · exact .inl (mem_contributors.2 ⟨c₁, h₁, ks₁, hks₁, hk⟩)
    · exact .inr (mem_contributors.2 ⟨c₂, h₂, ks₂, hks₂, hk⟩)
  · exact .inr (mem_contributors.2 ⟨c₂, h₂, ks, hks, hk⟩)
  · exact .inl (mem_contributors.2 ⟨c₁, h₁, ks, hks, hk⟩)

end Annotation

/-! ## Passing on tokens -/

/-- The kernel item at `k` of `q` has the token from its predecessor `p`, if the
    kernel items of `p` with `P` have it. -/
def Passed (g : Grammar) (a : Graph) (follows : GotoFollows) (p q : StateId) (t : SymbolId)
    (P : Nat → Prop) (k : Nat) : Prop :=
  ∃ i, (a.core q).kernel[k]? = some i ∧ i.rule ≠ RuleId.accept ∧
    if i.position = 1 then
      t ∈ follows.always.getD ⟨p, i.lhs g⟩ ∅ ∨ ∃ l, l ∈ follows.kernelItems.getD ⟨p, i.lhs g⟩ ∅ ∧ P l
    else ∃ l j, (a.core p).kernel[l]? = some j ∧ j.advance = i ∧ P l

theorem Passed.mono {g : Grammar} {a : Graph} {follows : GotoFollows} {p q : StateId} {t : SymbolId}
    {P Q : Nat → Prop} {k : Nat} (h : Passed g a follows p q t P k) (hPQ : ∀ l, P l → Q l) :
    Passed g a follows p q t Q k := by
  obtain ⟨i, hi, hrule, hcase⟩ := h
  refine ⟨i, hi, hrule, ?_⟩
  by_cases hpos : i.position = 1
  · rw [if_pos hpos] at hcase ⊢
    exact hcase.imp id fun ⟨l, hl, hP⟩ => ⟨l, hl, hPQ l hP⟩
  · rw [if_neg hpos] at hcase ⊢
    obtain ⟨l, j, hj, hadvance, hP⟩ := hcase
    exact ⟨l, j, hj, hadvance, hPQ l hP⟩

namespace LookaheadSources

variable {g : Grammar} {a : Graph} {src : LookaheadSources} {p q : StateId} {A t : SymbolId}
variable {P : Nat → Prop} {k : Nat} {i : Item}

theorem follows_compute (g : Grammar) (b : Automaton) :
    (compute g b).follows = GotoFollows.compute g b := rfl

theorem kernelLookaheads_compute (g : Grammar) (b : Automaton) :
    (compute g b).kernelLookaheads = KernelLookaheads.compute g b := rfl

theorem brought_lhsContributions (hP : ∀ k, P k → t ∈ src.kernelLookaheads.get q k) :
    Brought (src.lhsContributions q A t) P ↔ t ∈ src.follows.always.getD ⟨q, A⟩ ∅ ∨
      ∃ k, k ∈ src.follows.kernelItems.getD ⟨q, A⟩ ∅ ∧ P k := by
  rw [lhsContributions]
  split
  · rename_i h; simp [h]
  · rename_i h
    simp only [brought_some, NatSet.mem_ofList, List.mem_filter, NatSet.mem_toList,
      decide_eq_true_eq, h, false_or]
    refine exists_congr fun k => ⟨fun h => ⟨h.1.1, h.2⟩, fun h => ⟨⟨h.1, hP k h.2⟩, h.2⟩⟩

theorem getD_arrivals (hk : (a.core q).kernel[k]? = some i) :
    (arrivals (.ofGraph g a) p q).getD k default =
      ⟨i, ((a.core p).kernel.zipIdx.filter fun (j, _) => j.precedes i).map Prod.snd⟩ := by
  rw [Array.getD_eq_getD_getElem?]
  simp [arrivals, hk]

theorem brought_throughItem (h : a.OfItems g) (wf : g.WellFormed) (reach : a.Reachable)
    (hp : p < a.size) (hP : ∀ l, P l → t ∈ src.kernelLookaheads.get p l)
    (hk : (a.core q).kernel[k]? = some i) (hrule : i.rule ≠ RuleId.accept) :
    Brought (throughItem g src p t ((arrivals (.ofGraph g a) p q).getD k default)) P ↔
      Passed g a src.follows p q t P k := by
  have before : ∀ l, l ∈ NatSet.ofList
      ((((a.core p).kernel.zipIdx.filter fun (j, _) => j.precedes i).map Prod.snd).filter
        fun l => t ∈ src.kernelLookaheads.get p l) ↔
      (∃ j, (a.core p).kernel[l]? = some j ∧ j.advance = i) ∧ t ∈ src.kernelLookaheads.get p l := by
    intro l
    simp [List.mem_zipIdx_iff_getElem?, Item.precedes]
  have passed : Passed g a src.follows p q t P k ↔
      if i.position = 1 then t ∈ src.follows.always.getD ⟨p, i.lhs g⟩ ∅ ∨
        ∃ l, l ∈ src.follows.kernelItems.getD ⟨p, i.lhs g⟩ ∅ ∧ P l
      else ∃ l j, (a.core p).kernel[l]? = some j ∧ j.advance = i ∧ P l := by
    simp [Passed, hk, hrule]
  rw [getD_arrivals hk, throughItem, passed]
  split
  · rename_i hpos
    have hpos : i.position = 1 := hpos
    rw [brought_map_union, brought_lhsContributions hP]
    refine or_iff_right ?_
    -- Only the start item has its dot at the beginning, and its rule is the accepting one.
    rintro ⟨l, hl, -⟩
    obtain ⟨⟨j, hj, rfl⟩, -⟩ := (before l).1 hl
    have hzero : j.position = 0 := Nat.succ.inj hpos
    rw [h.eq_start_of_initial wf reach hp (List.mem_of_getElem? hj) hzero] at hrule
    exact hrule rfl
  · rename_i hpos
    rw [brought_some]
    simp only [before]
    refine exists_congr fun l => ⟨?_, ?_⟩
    · rintro ⟨⟨⟨j, hj, hadvance⟩, -⟩, hPl⟩; exact ⟨j, hj, hadvance, hPl⟩
    · rintro ⟨j, hj, hadvance, hPl⟩; exact ⟨⟨⟨j, hj, hadvance⟩, hP l hPl⟩, hPl⟩

/-- The positions listed are those of kernel items of other rules than the
    accepting one. -/
def InKernel (a : Graph) (q : StateId) (n : Annotation) : Prop :=
  ∀ k, k ∈ n.contributors → ∃ i, (a.core q).kernel[k]? = some i ∧ i.rule ≠ RuleId.accept

/-- **Annotations seen from a predecessor.**  They call for the actions that
    the annotation calls for with the tokens that are passed on. -/
theorem calls_atPredecessor (h : a.OfItems g) (wf : g.WellFormed) (reach : a.Reachable)
    (hp : p < a.size) (hP : ∀ l, P l → t ∈ src.kernelLookaheads.get p l) {n : Annotation}
    (hn : InKernel a q n) {α : Action} :
    Annotation.Calls (atPredecessor g src p (arrivals (.ofGraph g a) p q) t n) P α ↔
      n.Calls (Passed g a src.follows p q t P) α := by
  simp only [ Annotation.Calls, atPredecessor, List.mem_map, exists_exists_and_eq_and]
  refine exists_congr fun c => and_congr_right fun hc => and_congr_right fun _ => ?_
  cases hks : c.kernelItems with
  | none => simp
  | some ks =>
    rw [Option.bind_some, throughItems, brought_foldlM, brought_some]
    simp only [NatSet.not_mem_empty, false_and, exists_false, false_or, NatSet.mem_toList]
    refine exists_congr fun k => and_congr_right fun hk => ?_
    obtain ⟨i, hi, hrule⟩ := hn k ( Annotation.mem_contributors.2 ⟨c, hc, ks, hks, hk⟩)
    exact brought_throughItem h wf reach hp hP hi hrule

/-! ## Tracing back -/

theorem absorb_keeps {G : Inadequacy → Annotation → Prop}
    (merge : ∀ w n m, G w n → G w m → G w (n.merge m))
    {own : OrderedMap Inadequacy Annotation} {added : List (Inadequacy × Annotation)}
    (hown : ∀ w n, own.get? w = some n → G w n) (hadded : ∀ w n, (w, n) ∈ added → G w n) :
    ∀ w n, (absorb own added).1.get? w = some n → G w n := by
  have insert : ∀ {own : OrderedMap Inadequacy Annotation} {w : Inadequacy} {n : Annotation},
      (∀ w n, own.get? w = some n → G w n) → G w n →
      ∀ w' n', (own.insert w n).get? w' = some n' → G w' n' := by
    intro own w n hown hn w' n' hget
    rw [OrderedMap.get?_insert] at hget
    split at hget
    · rename_i heq; cases hget; subst heq; exact hn
    · exact hown w' n' hget
  refine List.foldlRecOn
    (motive := fun r : OrderedMap Inadequacy Annotation × Bool => ∀ w n, r.1.get? w = some n → G w n)
    added _ hown ?_
  rintro ⟨own, changed⟩ hown ⟨w, n⟩ hmem
  dsimp only
  split
  · exact hown
  · split
    · exact insert hown (hadded w n hmem)
    · rename_i old hold
      split
      · exact hown
      · exact insert hown (merge w old n (hown w old hold) (hadded w n hmem))

namespace Tracing

/-- The annotations found so far. -/
def Finds (t : Tracing) (q : StateId) (w : Inadequacy) (n : Annotation) : Prop :=
  (t.tables.getD q ∅).get? w = some n

variable {G : StateId → Inadequacy → Annotation → Prop} {b : Automaton} {t : Tracing}

/-- The annotations of `q` as they are seen from its predecessor `p`. -/
def passed (g : Grammar) (b : Automaton) (src : LookaheadSources) (t : Tracing) (p q : StateId) :
    List (Inadequacy × Annotation) :=
  (t.tables.getD q ∅).toList.map fun (w, n) => (w, atPredecessor g src p (arrivals b p q) w.token n)

theorem mem_passed {w : Inadequacy} {n : Annotation} : (w, n) ∈ passed g b src t p q ↔
    ∃ m, t.Finds q w m ∧ n = atPredecessor g src p (arrivals b p q) w.token m := by
  simp only [passed, List.mem_map, Prod.exists, Prod.mk.injEq, Finds, ← OrderedMap.mem_toList]
  constructor
  · rintro ⟨w, m, hm, rfl, rfl⟩; exact ⟨m, hm, rfl⟩
  · rintro ⟨m, hm, rfl⟩; exact ⟨w, m, hm, rfl, rfl⟩

theorem look_eq (b : Automaton) (t : Tracing) (p q : StateId) : look g b src t p q =
    let r := absorb (t.tables.getD p ∅) (passed g b src t p q)
    { tables := t.tables.setIfInBounds p r.1
      pending := if r.2 then t.pending.pushAll ((b.state p).predecessors.map (·, p))
        else t.pending } := rfl

/-- Looking at a transition changes the annotations of its source only. -/
theorem getD_look (b : Automaton) (t : Tracing) (p q q' : StateId) :
    (look g b src t p q).tables.getD q' ∅ = if q' = p ∧ p < t.tables.size then
      (absorb (t.tables.getD p ∅) (passed g b src t p q)).1 else t.tables.getD q' ∅ := by
  rw [look_eq, Array.getD_eq_getD_getElem?, Array.getElem?_setIfInBounds]
  by_cases heq : q' = p
  · subst heq
    by_cases hlt : q' < t.tables.size
    · simp [hlt]
    · simp [hlt, Array.getD]
  · rw [if_neg (Ne.symm heq), if_neg fun h => heq h.1, Array.getD_eq_getD_getElem?]

theorem look_keeps
    (pass : ∀ p q w n, G q w n → G p w (atPredecessor g src p (arrivals b p q) w.token n))
    (merge : ∀ p w n m, G p w n → G p w m → G p w (n.merge m))
    (ht : ∀ q w n, t.Finds q w n → G q w n) (p q : StateId) :
    ∀ q' w n, (look g b src t p q).Finds q' w n → G q' w n := by
  intro q' w n hfinds
  rw [Finds, getD_look] at hfinds
  split at hfinds
  · rename_i h
    obtain ⟨rfl, -⟩ := h
    refine absorb_keeps (G := G q') (merge q') (ht q') (fun w n hmem => ?_) w n hfinds
    obtain ⟨m, hm, rfl⟩ := mem_passed.1 hmem
    exact pass q' q w m (ht q w m hm)
  · exact ht q' w n hfinds

/-- The tracing is a loop over the transitions that wait. -/
theorem loop (g : Grammar) (b : Automaton) (src : LookaheadSources) : Worklist.Loop pending
    (fun t e pending => look g b src { t with pending } e.1 e.2) (run g b src) :=
  ⟨fun _ => rfl, fun _ t => by rw [run]; cases t.pending.pop? <;> rfl⟩

theorem run_keeps
    (pass : ∀ p q w n, G q w n → G p w (atPredecessor g src p (arrivals b p q) w.token n))
    (merge : ∀ p w n m, G p w n → G p w m → G p w (n.merge m)) :
    ∀ (rounds : Nat) {t : Tracing}, (∀ q w n, t.Finds q w n → G q w n) →
      ∀ q w n, (run g b src rounds t).Finds q w n → G q w n :=
  (loop g b src).keeps fun t e pending ht _ =>
    look_keeps pass merge (t := { t with pending }) ht e.1 e.2

end Tracing

/-- What the annotations of states for their own inadequacies have, and what
    looking from a predecessor and merging keep, all annotations have. -/
theorem trace_keeps {G : StateId → Inadequacy → Annotation → Prop}
    (manifest : ∀ q, q < a.size → ∀ w n,
      (src.manifestations g ((Automaton.ofGraph g a).state q) q).get? w = some n → G q w n)
    (pass : ∀ p q w n, G q w n →
      G p w (atPredecessor g src p (arrivals (.ofGraph g a) p q) w.token n))
    (merge : ∀ p w n m, G p w n → G p w m → G p w (n.merge m)) :
    ∀ q w n, (src.trace g (.ofGraph g a)).Finds q w n → G q w n := by
  refine Tracing.run_keeps pass merge _ fun q w n hfinds => ?_
  rw [Tracing.Finds, Tracing.start, Array.getD_eq_getD_getElem?] at hfinds
  by_cases hq : q < a.size
  · refine manifest q hq w n ?_
    simpa [Automaton.state, Array.getD, hq] using hfinds
  · simp [hq] at hfinds

/-! ## What annotations list -/

/-- The annotations of a state for its own inadequacies. -/
theorem get?_manifestations {s : State} {w : Inadequacy} {n : Annotation} :
    (src.manifestations g s q).get? w = some n ↔ w.state = q ∧
      2 ≤ (actionsOn g s w.token).length ∧
      n = (actionsOn g s w.token).map fun α => ⟨α, src.manifestation g s q w.token α⟩ := by
  have entry : ∀ w' : Inadequacy, ∀ n',
      (w', n') ∈ ((s.reductions.foldl (fun la r => la ∪ r.tokens) (s.terminals g)).toList.filterMap
        fun token => if (actionsOn g s token).length < 2 then none
          else some ((⟨q, token⟩ : Inadequacy), (actionsOn g s token).map fun α =>
            (⟨α, src.manifestation g s q token α⟩ : Contribution))) ↔
      w'.state = q ∧ 2 ≤ (actionsOn g s w'.token).length ∧
        n' = (actionsOn g s w'.token).map fun α => ⟨α, src.manifestation g s q w'.token α⟩ := by
    rintro ⟨q', token⟩ n'
    simp only [List.mem_filterMap, NatSet.mem_toList]
    constructor
    · rintro ⟨token', -, hsome⟩
      split at hsome
      · cases hsome
      · rename_i hlength
        obtain ⟨hw, rfl⟩ := Prod.mk.inj (Option.some.inj hsome)
        obtain ⟨rfl, rfl⟩ := Inadequacy.mk.inj hw
        exact ⟨rfl, Nat.le_of_not_lt hlength, rfl⟩
    · rintro ⟨rfl, hlength, rfl⟩
      refine ⟨token, ?_, by rw [if_neg (Nat.not_lt_of_ge hlength)]⟩
      rw [Lookaheads.mem_foldl_union]
      obtain ⟨α, hα⟩ := List.exists_mem_of_length_pos (Nat.lt_of_lt_of_le Nat.two_pos hlength)
      rcases List.mem_append.1 hα with hα | hα
      · split at hα
        · rename_i ht; exact .inl ht
        · cases hα
      · obtain ⟨r, hr, -⟩ := List.mem_map.1 hα
        exact .inr ⟨r, (List.mem_filter.1 hr).1, of_decide_eq_true (List.mem_filter.1 hr).2⟩
  rw [← entry]
  refine ⟨OrderedMap.mem_of_get?_ofList, fun hmem => OrderedMap.get?_ofList_of_unique hmem ?_⟩
  intro n' hn'
  rw [((entry w n).1 hmem).2.2, ((entry w n').1 hn').2.2]

theorem map_action_atPredecessor (kernel : Array Arrival) (n : Annotation) :
    (atPredecessor g src p kernel t n).map Contribution.action = n.map Contribution.action := by
  simp [atPredecessor, Function.comp_def]

/-- The annotation lists the actions of the state of the inadequacy, which are
    several. -/
def ListsActions (g : Grammar) (a : Graph) (w : Inadequacy) (n : Annotation) : Prop :=
  w.state < a.size ∧
    n.map Contribution.action = actionsOn g ((Automaton.ofGraph g a).state w.state) w.token ∧
    2 ≤ (actionsOn g ((Automaton.ofGraph g a).state w.state) w.token).length

section ListsActions
variable {w : Inadequacy} {n m : Annotation}

theorem ListsActions.length_eq (hn : ListsActions g a w n) (hm : ListsActions g a w m) :
    n.length = m.length := by
  have := congrArg List.length (hn.2.1.trans hm.2.1.symm)
  simpa using this

theorem listsActions_manifestation (hq : q < a.size)
    (hn : (src.manifestations g ((Automaton.ofGraph g a).state q) q).get? w = some n) :
    ListsActions g a w n := by
  obtain ⟨rfl, hlength, rfl⟩ := get?_manifestations.1 hn
  exact ⟨hq, by simp [Function.comp_def], hlength⟩

theorem ListsActions.atPredecessor (hn : ListsActions g a w n) (kernel : Array Arrival) :
    ListsActions g a w (atPredecessor g src p kernel t n) := by
  rwa [ListsActions, map_action_atPredecessor]

theorem ListsActions.merge (hn : ListsActions g a w n) (hm : ListsActions g a w m) :
    ListsActions g a w (n.merge m) := by
  rwa [ListsActions, Annotation.map_action_merge (hn.length_eq hm)]

end ListsActions

/-- Every annotation lists the actions of the state of its inadequacy, which
    are several. -/
theorem map_action_of_finds {w : Inadequacy} {n : Annotation}
    (hn : (src.trace g (.ofGraph g a)).Finds q w n) : w.state < a.size ∧
      n.map Contribution.action = actionsOn g ((Automaton.ofGraph g a).state w.state) w.token ∧
      2 ≤ (actionsOn g ((Automaton.ofGraph g a).state w.state) w.token).length :=
  trace_keeps (G := fun _ w n => ListsActions g a w n)
    (fun _ hq _ _ hn => listsActions_manifestation hq hn)
    (fun _ _ _ _ hn => hn.atPredecessor _) (fun _ _ _ _ hn hm => hn.merge hm) q w n hn

theorem mem_foldlM_union {f : Nat → Option NatSet} {k : Nat} {ks : NatSet} :
    ∀ {js : List Nat} {found : NatSet},
      js.foldlM (fun found j => (f j).map (found ∪ ·)) found = some ks → k ∈ ks →
        k ∈ found ∨ ∃ j ∈ js, ∃ ls, f j = some ls ∧ k ∈ ls
  | [], found, h, hk => by cases h; exact .inl hk
  | j :: js, found, h, hk => by
    rw [List.foldlM_cons] at h
    cases hj : f j with
    | none => rw [hj] at h; cases h
    | some ls =>
      rw [hj] at h
      rcases mem_foldlM_union h hk with hk | ⟨j', hj', hk⟩
      · rcases NatSet.mem_union.1 hk with hk | hk
        · exact .inl hk
        · exact .inr ⟨j, List.mem_cons_self .., ls, hj, hk⟩
      · exact .inr ⟨j', List.mem_cons_of_mem _ hj', hk⟩

theorem mem_lhsContributions {ks : NatSet} (h : src.lhsContributions q A t = some ks) (hk : k ∈ ks) :
    t ∈ src.kernelLookaheads.get q k := by
  rw [lhsContributions] at h
  split at h
  · cases h
  · cases h
    rw [NatSet.mem_ofList, List.mem_filter] at hk
    exact of_decide_eq_true hk.2

/-- Seen from a predecessor, only kernel items that have the token contribute. -/
theorem mem_contributors_atPredecessor {kernel : Array Arrival} {n : Annotation}
    (hk : k ∈ (atPredecessor g src p kernel t n).contributors) :
    t ∈ src.kernelLookaheads.get p k := by
  obtain ⟨_, hc, ks, hks, hk⟩ := Annotation.mem_contributors.1 hk
  obtain ⟨c, -, rfl⟩ := List.mem_map.1 hc
  obtain ⟨items, -, hks⟩ := Option.bind_eq_some_iff.1 hks
  rcases mem_foldlM_union hks hk with hk | ⟨j, -, ls, hls, hk⟩
  · exact absurd hk (NatSet.not_mem_empty k)
  · have before : ∀ {ks : List Nat}, k ∈ NatSet.ofList
        (ks.filter fun k => t ∈ src.kernelLookaheads.get p k) → t ∈ src.kernelLookaheads.get p k := by
      intro ks hk
      rw [NatSet.mem_ofList, List.mem_filter] at hk
      exact of_decide_eq_true hk.2
    rw [throughItem] at hls
    split at hls
    · obtain ⟨ms, hms, rfl⟩ := Option.map_eq_some_iff.1 hls
      rcases NatSet.mem_union.1 hk with hk | hk
      · exact before hk
      · exact mem_lhsContributions hms hk
    · cases hls; exact before hk

/-- Acceptance is never one of several actions of a state on a token. -/
def AcceptsAlone (g : Grammar) (a : Graph) : Prop :=
  ∀ {q t}, q < a.size → 2 ≤ (actionsOn g ((Automaton.ofGraph g a).state q) t).length →
    Action.reduce RuleId.accept ∉ actionsOn g ((Automaton.ofGraph g a).state q) t

/-- In a proper grammar nothing follows the accepting symbol. -/
theorem acceptsAlone_of_proper (h : a.OfItems g) (wf : g.WellFormed) (reach : a.Reachable)
    (proper : g.Proper) : AcceptsAlone g a := by
  intro q t hq _ haccept
  obtain ⟨hoffers, -⟩ := (Automaton.mem_actionsOn h wf reach hq).1 haccept
  obtain ⟨γ, -, -, hahead⟩ := (Graph.offers_iff h wf reach hq).1 hoffers
  exact proper.not_ahead wf rfl hahead

/-- The kernel items listed are of rules other than the accepting one. -/
theorem inKernel_of_finds (h : a.OfItems g) (wf : g.WellFormed) (link : a.Linked)
    (reach : a.Reachable) (accepts : AcceptsAlone g a) {w : Inadequacy} {n : Annotation}
    (hn : ((compute g (.ofGraph g a)).trace g (.ofGraph g a)).Finds q w n) : InKernel a q n := by
  have expected : ∀ {q k t}, t ∈ (compute g (.ofGraph g a)).kernelLookaheads.get q k →
      ∃ i, (a.core q).kernel[k]? = some i ∧ i.rule ≠ RuleId.accept := by
    intro q k t ht
    obtain ⟨i, hi, hexpected⟩ := KernelLookaheads.exists_of_mem_get h wf link reach ht
    exact ⟨i, hi, hexpected.1⟩
  refine trace_keeps (G := fun q _ n => InKernel a q n) (fun q hq w n hn k hk => ?_)
    (fun p q w n _ k hk => expected (mem_contributors_atPredecessor hk))
    (fun p w n m hn hm k hk => ( Annotation.mem_contributors_merge hk).elim (hn k) (hm k)) q w n hn
  obtain ⟨rfl, hlength, rfl⟩ := get?_manifestations.1 hn
  obtain ⟨c, hc, ks, hks, hk⟩ := Annotation.mem_contributors.1 hk
  obtain ⟨α, hα, rfl⟩ := List.mem_map.1 hc
  cases α with
  | shift => cases hks
  | reduce ρ =>
    have hks : manifestation g (compute g (.ofGraph g a)) _ w.state w.token (.reduce ρ) = some ks := hks
    rw [manifestation] at hks
    split at hks
    · exact expected (mem_lhsContributions hks hk)
    · cases hks
      rw [Automaton.toCore_state] at hk
      simp only [NatSet.mem_ofList, List.mem_map, List.mem_filter, List.mem_zipIdx_iff_getElem?] at hk
      obtain ⟨⟨i, _⟩, ⟨hi, hrule⟩, rfl⟩ := hk
      refine ⟨i, hi, fun haccept => accepts hq hlength ?_⟩
      have hρ : i.rule = ρ := by simpa using (Bool.and_eq_true_iff.1 hrule).1
      rwa [← hρ, haccept] at hα

/-! ## What annotations call for after a string -/

/-- The kernel item at `k` has the token ahead after the string, and is not of the
    accepting rule. -/
def HasAhead (g : Grammar) (a : Graph) (q : StateId) (γ : List SymbolId) (t : SymbolId) (k : Nat) :
    Prop :=
  ∃ i, (a.core q).kernel[k]? = some i ∧ i.rule ≠ RuleId.accept ∧ i.Ahead g γ t

variable {γ : List SymbolId} {X : SymbolId}

theorem mem_get_of_hasAhead (h : a.OfItems g) (wf : g.WellFormed) (link : a.Linked)
    (reach : a.Reachable) (hγ : a.Reads StateId.start γ q) (hk : HasAhead g a q γ t k) :
    t ∈ (KernelLookaheads.compute g (.ofGraph g a)).get q k := by
  obtain ⟨i, hi, hrule, hahead⟩ := hk
  exact (KernelLookaheads.mem_get_iff h wf link reach (h.reads_kernel hγ).1 hi).2
    ⟨hrule, γ, hγ, hahead⟩

/-- A transition on the left-hand side of a rule that was begun in the state. -/
theorem mem_gotos_of_initial (h : a.OfItems g) (wf : g.WellFormed) (hγ : a.Reads StateId.start γ q)
    {r : RuleId} (hi : (⟨r, 0⟩ : Item) ∈ (a.core q).items) (hr : r ≠ RuleId.accept) :
    (⟨q, g.lhs r⟩ : Goto) ∈ Lookaheads.gotos g a := by
  obtain ⟨-, haccept⟩ | ⟨hlt, j, hj, hnext⟩ := ((h.mem_items_iff wf hγ).1 hi).parent
  · exact absurd haccept hr
  · exact (Lookaheads.mem_gotos_iff_items h).2 ⟨(h.reads_kernel hγ).1, wf.lhs_nonterminal hlt, j,
      (h.mem_items_iff wf hγ).2 hj, hnext⟩

/-- An item of a state with something before its dot is in the kernel. -/
theorem mem_kernel_of_position (h : a.OfItems g) (hq : q < a.size) (hi : i ∈ (a.core q).items)
    (hpos : i.position ≠ 0) : i ∈ (a.core q).kernel := by
  rcases List.mem_append.1 hi with hi | hi
  · exact hi
  · rw [h.closure_eq hq] at hi
    obtain ⟨r, -, -, rfl⟩ := Grammar.mem_closure.1 hi
    exact absurd rfl hpos

/-- **What is ahead is passed on** from the kernel items of a predecessor to those
    of its successor. -/
theorem passed_hasAhead (h : a.OfItems g) (wf : g.WellFormed) (hγ : a.Reads StateId.start γ p)
    (hX : a.next? p X = some q) :
    Passed g a (GotoFollows.compute g (.ofGraph g a)) p q t (HasAhead g a p γ t) k ↔
      HasAhead g a q (γ ++ [X]) t k := by
  have hp := (h.reads_kernel hγ).1
  refine exists_congr fun i => and_congr_right fun hi => and_congr_right fun hrule => ?_
  have hmem := List.mem_of_getElem? hi
  rw [(h.next?_kernel hp hX).2] at hmem
  obtain ⟨j, hj, hnext, rfl⟩ := ItemSet.mem_step.1 hmem
  rw [← h.items_eq hp] at hj
  rw [Item.ahead_advance hnext]
  split
  · rename_i hpos
    obtain ⟨r, n⟩ := j
    obtain rfl : n = 0 := Nat.succ.inj hpos
    rw [Item.ahead_initial, GotoFollows.follows_iff h wf hγ (mem_gotos_of_initial h wf hγ hj hrule)]
    simp only [HasAhead, exists_and_left]
    rfl
  · rename_i hpos
    have hpos : j.position + 1 ≠ 1 := hpos
    obtain ⟨l, hl⟩ := List.mem_iff_getElem?.1 (mem_kernel_of_position h hp hj (by omega))
    constructor
    · rintro ⟨l', j', hj', hadvance, i', hi', -, hahead⟩
      obtain rfl := Option.some.inj (hj'.symm.trans hi')
      rwa [Item.advance_inj hadvance] at hahead
    · intro hahead; exact ⟨l, j, hl, rfl, j, hl, hrule, hahead⟩

/-- The lookaheads of kernel items are passed on to those of the successors. -/
theorem mem_get_of_passed (h : a.OfItems g) (wf : g.WellFormed) (link : a.Linked)
    (reach : a.Reachable) (hp : p < a.size) (hX : a.next? p X = some q)
    (hk : Passed g a (GotoFollows.compute g (.ofGraph g a)) p q t
      (fun l => t ∈ (KernelLookaheads.compute g (.ofGraph g a)).get p l) k) :
    t ∈ (KernelLookaheads.compute g (.ofGraph g a)).get q k := by
  have expected : ∀ l, t ∈ (KernelLookaheads.compute g (.ofGraph g a)).get p l →
      ∃ γ, a.Reads StateId.start γ p ∧ HasAhead g a p γ t l := by
    intro l hl
    obtain ⟨i, hi, hrule, γ, hγ, hahead⟩ := KernelLookaheads.exists_of_mem_get h wf link reach hl
    exact ⟨γ, hγ, i, hi, hrule, hahead⟩
  -- The token comes after one string that leads to the predecessor.
  have after : ∃ γ, a.Reads StateId.start γ p ∧
      Passed g a (GotoFollows.compute g (.ofGraph g a)) p q t (HasAhead g a p γ t) k := by
    obtain ⟨i, hi, hrule, hcase⟩ := hk
    by_cases hpos : i.position = 1
    · rw [if_pos hpos] at hcase
      rcases hcase with halways | ⟨l, hl, hget⟩
      · obtain ⟨γ, hγ⟩ := reach p hp
        exact ⟨γ, hγ, i, hi, hrule, by rw [if_pos hpos]; exact .inl halways⟩
      · obtain ⟨γ, hγ, hahead⟩ := expected l hget
        exact ⟨γ, hγ, i, hi, hrule, by rw [if_pos hpos]; exact .inr ⟨l, hl, hahead⟩⟩
    · rw [if_neg hpos] at hcase
      obtain ⟨l, j, hj, hadvance, hget⟩ := hcase
      obtain ⟨γ, hγ, hahead⟩ := expected l hget
      exact ⟨γ, hγ, i, hi, hrule, by rw [if_neg hpos]; exact ⟨l, j, hj, hadvance, hahead⟩⟩
  obtain ⟨γ, hγ, hpassed⟩ := after
  obtain ⟨i, hi, hrule, hahead⟩ := (passed_hasAhead h wf hγ hX).1 hpassed
  exact (KernelLookaheads.mem_get_iff h wf link reach (h.next?_kernel hp hX).1 hi).2
    ⟨hrule, γ ++ [X], Graph.reads_snoc.2 ⟨p, hγ, hX⟩, hahead⟩

theorem brought_manifestation (h : a.OfItems g) (wf : g.WellFormed) (link : a.Linked)
    (reach : a.Reachable) (hγ : a.Reads StateId.start γ q) {α : Action}
    (hα : a.Offers g q α t) (hne : α ≠ .reduce RuleId.accept) :
    Brought ((compute g (.ofGraph g a)).manifestation g ((Automaton.ofGraph g a).state q) q t α)
      (HasAhead g a q γ t) ↔ g.Takes γ α t := by
  have hq := (h.reads_kernel hγ).1
  cases α with
  | shift => exact iff_of_true brought_none ((Graph.takes_shift_iff h wf hγ).2 hα)
  | reduce ρ =>
    have hi := hα.1
    have hρ : ρ < g.rules.size := (((h.mem_items_iff wf hγ).1 hi).inRange wf).1
    have haccept : ρ ≠ RuleId.accept := fun heq => hne (by rw [heq])
    rw [manifestation, Grammar.Takes, and_iff_right hρ]
    split
    · -- An empty rule was begun in the state itself.
      rename_i hempty
      have hlength : (g.rhs ρ).length = 0 := by rw [List.isEmpty_iff.1 hempty]; rfl
      rw [hlength] at hi
      have hget : ∀ k, HasAhead g a q γ t k →
          t ∈ (compute g (.ofGraph g a)).kernelLookaheads.get q k := fun k hk => by
        rw [kernelLookaheads_compute]; exact mem_get_of_hasAhead h wf link reach hγ hk
      rw [brought_lhsContributions hget, hlength, Item.ahead_initial, follows_compute,
        GotoFollows.follows_iff h wf hγ (mem_gotos_of_initial h wf hγ hi haccept)]
      simp only [HasAhead, exists_and_left]
    · rename_i hempty
      have hpos : (g.rhs ρ).length ≠ 0 := fun hzero =>
        hempty (List.isEmpty_iff.2 (List.eq_nil_of_length_eq_zero hzero))
      obtain ⟨k, hk⟩ := List.mem_iff_getElem?.1 (mem_kernel_of_position h hq hi hpos)
      rw [brought_some, Automaton.toCore_state]
      simp only [NatSet.mem_ofList, List.mem_map, List.mem_filter, List.mem_zipIdx_iff_getElem?,
        Bool.and_eq_true, decide_eq_true_eq, Item.isComplete]
      constructor
      · rintro ⟨_, ⟨⟨j, l⟩, ⟨hj, hrule, hcomplete⟩, rfl⟩, i', hi', -, hahead⟩
        obtain rfl := Option.some.inj (hj.symm.trans hi')
        obtain ⟨ρ', n⟩ := j
        obtain rfl : ρ' = ρ := hrule
        obtain rfl : n = (g.rhs ρ').length := hcomplete
        exact hahead
      · intro hahead
        exact ⟨k, ⟨⟨⟨ρ, (g.rhs ρ).length⟩, k⟩, ⟨hk, rfl, rfl⟩, rfl⟩, _, hk, haccept, hahead⟩

/-- **The actions of an inadequacy after a string** are those that the annotation
    of its state calls for. -/
theorem calls_manifestation (h : a.OfItems g) (wf : g.WellFormed) (link : a.Linked)
    (reach : a.Reachable) (accepts : AcceptsAlone g a) (hγ : a.Reads StateId.start γ q)
    {w : Inadequacy} {n : Annotation} (hn : ((compute g (.ofGraph g a)).manifestations g
      ((Automaton.ofGraph g a).state q) q).get? w = some n) {α : Action} :
    n.Calls (HasAhead g a q γ w.token) α ↔
      α ∈ actionsOn g ((Automaton.ofGraph g a).state q) w.token ∧ g.Takes γ α w.token := by
  have hq := (h.reads_kernel hγ).1
  have hoffers : ∀ {α}, α ∈ actionsOn g ((Automaton.ofGraph g a).state q) w.token →
      a.Offers g q α w.token := fun hα => ((Automaton.mem_actionsOn h wf reach hq).1 hα).1
  obtain ⟨-, hlength, rfl⟩ := get?_manifestations.1 hn
  have hne : ∀ {α}, α ∈ actionsOn g ((Automaton.ofGraph g a).state q) w.token →
      α ≠ .reduce RuleId.accept := by
    rintro _ hα rfl
    exact accepts hq hlength hα
  simp only [ Annotation.Calls, List.mem_map, exists_exists_and_eq_and]
  constructor
  · rintro ⟨α, hα, rfl, hbrought⟩
    exact ⟨hα, (brought_manifestation h wf link reach hγ (hoffers hα) (hne hα)).1 hbrought⟩
  · rintro ⟨hα, htakes⟩
    exact ⟨α, hα, rfl, (brought_manifestation h wf link reach hγ (hoffers hα) (hne hα)).2 htakes⟩

end LookaheadSources

end LRAutomata
