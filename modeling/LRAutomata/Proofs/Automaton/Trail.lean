/-
  Annotations along ways.

  Annotations for one inadequacy that come to a state on different ways are
  merged there, and what is merged is traced back further.  On a single way an
  annotation is traced back from predecessor to predecessor (`Trail`).  Merging
  is harmless if what a state has recorded covers all that comes there on such
  ways, and calls for the same actions after every string that leads to the
  state (`InStep`).  An annotation that comes back on a recursion may well list
  other kernel items than the one it is merged with.

  Whether the annotations are in step can be checked on a finite list of them
  and the states of the canonical automaton (`Checks.inStep`).
-/
import LRAutomata.Proofs.Automaton.Canonical
import LRAutomata.Proofs.Automaton.Delivery

namespace LRAutomata

/-- Every kernel item that the annotation `n` lists for an action `m` lists as well. -/
def Annotation.Covers (m n : Annotation) : Prop :=
  ∀ c ∈ n, ∀ k ∈ (c.kernelItems.getD ∅).toList,
    ∃ d ∈ m, d.action = c.action ∧ k ∈ d.kernelItems.getD ∅

instance (m n : Annotation) : Decidable (m.Covers n) :=
  inferInstanceAs (Decidable (∀ c ∈ n, ∀ k ∈ (c.kernelItems.getD ∅).toList,
    ∃ d ∈ m, d.action = c.action ∧ k ∈ d.kernelItems.getD ∅))

namespace Annotation

variable {m n : Annotation}

theorem Covers.refl (n : Annotation) : n.Covers n :=
  fun c hc _ hk => ⟨c, hc, rfl, NatSet.mem_toList.1 hk⟩

theorem Covers.mem_contributors (h : m.Covers n) {k : Nat} (hk : k ∈ n.contributors) :
    k ∈ m.contributors := by
  obtain ⟨c, hc, ks, hks, hk⟩ := Annotation.mem_contributors.1 hk
  obtain ⟨d, hd, -, hk⟩ := h c hc k (by rw [hks]; exact NatSet.mem_toList.2 hk)
  refine Annotation.mem_contributors.2 ⟨d, hd, ?_⟩
  cases hls : d.kernelItems with
  | none => rw [hls] at hk; exact absurd hk (NatSet.not_mem_empty k)
  | some ls => rw [hls] at hk; exact ⟨ls, rfl, hk⟩

/-- What is called for because of a kernel item is called for where the kernel items
    are covered; the rest is called for whatever kernel items have. -/
theorem Covers.calls (h : m.Covers n) {P : Nat → Prop} {α : Action} (hα : n.Calls P α) :
    m.Calls P α ∨ ∀ Q : Nat → Prop, n.Calls Q α := by
  obtain ⟨c, hc, rfl, hbrought⟩ := hα
  cases hks : c.kernelItems with
  | none => exact .inr fun Q => ⟨c, hc, rfl, by rw [hks]; exact brought_none⟩
  | some ks =>
    rw [hks, brought_some] at hbrought
    obtain ⟨k, hk, hP⟩ := hbrought
    obtain ⟨d, hd, haction, hk⟩ := h c hc k (by rw [hks]; exact NatSet.mem_toList.2 hk)
    refine .inl ⟨d, hd, haction, fun ls hls => ⟨k, ?_, hP⟩⟩
    rwa [hls] at hk

end Annotation

namespace Splitting

open LookaheadSources

variable {g : Grammar} {a : Graph} {v : Inadequacy} {q : StateId} {n : Annotation}

/-- The annotation for the inadequacy `v` comes to the state: it is the state's own or
    recorded there, or it is how one that comes to a successor looks from the state, and
    kernel items contribute. -/
inductive Trail (g : Grammar) (a : Graph) (v : Inadequacy) : StateId → Annotation → Prop
  | own {q : StateId} {n : Annotation} : q < a.size →
      ((compute g (.ofGraph g a)).manifestations g ((Automaton.ofGraph g a).state q) q).get? v = some n →
      Trail g a v q n
  | found {q : StateId} {n : Annotation} :
      ((compute g (.ofGraph g a)).trace g (.ofGraph g a)).Finds q v n → Trail g a v q n
  | back {p q : StateId} {n : Annotation} : Trail g a v q n → p ∈ (a.core q).predecessors →
      Annotation.isUseless (atPredecessor g (compute g (.ofGraph g a)) p (arrivals (.ofGraph g a) p q)
        v.token n) = false →
      Trail g a v p (atPredecessor g (compute g (.ofGraph g a)) p (arrivals (.ofGraph g a) p q) v.token n)

/-- Merging the annotations for an inadequacy is harmless: what a state has recorded
    covers all that comes there, and after every string that leads to the state it calls
    for the same actions. -/
def InStep (g : Grammar) (a : Graph) (v : Inadequacy) : Prop :=
  ∀ {q n}, Trail g a v q n → ∃ m,
    ((compute g (.ofGraph g a)).trace g (.ofGraph g a)).Finds q v m ∧ m.Covers n ∧
      ∀ {γ}, a.Reads StateId.start γ q → ∀ α,
        n.Calls (HasAhead g a q γ v.token) α ↔ m.Calls (HasAhead g a q γ v.token) α

/-! ## Checking a list of annotations -/

/-- An annotation of a state for an inadequacy. -/
abbrev Entry := StateId × Inadequacy × Annotation

/-- The annotations that states have of their own, and those recorded. -/
def entries (g : Grammar) (a : Graph) (src : LookaheadSources) : List Entry :=
  (List.range a.size).flatMap fun q =>
    ((src.manifestations g ((Automaton.ofGraph g a).state q) q).toList ++
      ((src.trace g (.ofGraph g a)).tables.getD q ∅).toList).map (q, ·)

/-- How an annotation looks from predecessors where kernel items contribute. -/
def lookBack (g : Grammar) (a : Graph) (src : LookaheadSources) : Entry → List Entry
  | (q, v, n) => ((a.core q).predecessors.map fun p =>
      (p, v, atPredecessor g src p (arrivals (.ofGraph g a) p q) v.token n)).filter fun e =>
        ! Annotation.isUseless e.2.2

/-- The annotations that come to states, if the rounds suffice. -/
def trails (g : Grammar) (a : Graph) (rounds : Nat) : List Entry :=
  let src := compute g (.ofGraph g a)
  Fixpoint.iterate (fun es => (es ++ es.flatMap (lookBack g a src)).eraseDups) rounds (entries g a src)

/-- The lookaheads that kernel items have among valid items. -/
def validLookaheads (kernel : List Item) (xs : List (Item × SymbolId)) : List NatSet :=
  kernel.map fun i =>
    NatSet.ofList ((xs.filter fun x => x.1 = i && i.rule ≠ RuleId.accept).map Prod.snd)

/-- The actions for which an annotation calls with the given lookaheads. -/
def called (n : Annotation) (t : SymbolId) (lookaheads : List NatSet) : List Action :=
  (n.filter (·.isPresent t lookaheads)).map Contribution.action

/-- The list has all annotations that come to states, and what is recorded covers them
    and calls for the same actions with the lookaheads of the canonical states that have
    the kernel items. -/
structure Checks (g : Grammar) (a : Graph) (es : List Entry) (sets : List (List (Item × SymbolId))) :
    Prop where
  entries : ∀ e ∈ entries g a (compute g (.ofGraph g a)), e ∈ es
  back : ∀ e ∈ es, ∀ e' ∈ lookBack g a (compute g (.ofGraph g a)) e, e' ∈ es
  recorded : ∀ e ∈ es,
    ∃ m ∈ (((compute g (.ofGraph g a)).trace g (.ofGraph g a)).tables.getD e.1 ∅).get? e.2.1,
      m.Covers e.2.2 ∧ ∀ xs ∈ sets, (∀ i ∈ (a.core e.1).kernel, i ∈ xs.map Prod.fst) →
        called e.2.2 e.2.1.token (validLookaheads (a.core e.1).kernel xs) =
          called m e.2.1.token (validLookaheads (a.core e.1).kernel xs)

instance (g : Grammar) (a : Graph) (es : List Entry) (sets : List (List (Item × SymbolId))) :
    Decidable (Checks g a es sets) :=
  let src := compute g (.ofGraph g a)
  let tables := (src.trace g (.ofGraph g a)).tables
  decidable_of_iff
    ((∀ e ∈ Splitting.entries g a src, e ∈ es) ∧ (∀ e ∈ es, ∀ e' ∈ lookBack g a src e, e' ∈ es) ∧
      ∀ e ∈ es, ∃ m ∈ (tables.getD e.1 ∅).get? e.2.1, m.Covers e.2.2 ∧
        ∀ xs ∈ sets, (∀ i ∈ (a.core e.1).kernel, i ∈ xs.map Prod.fst) →
        called e.2.2 e.2.1.token (validLookaheads (a.core e.1).kernel xs) =
          called m e.2.1.token (validLookaheads (a.core e.1).kernel xs))
    ⟨fun ⟨h₁, h₂, h₃⟩ => ⟨h₁, h₂, h₃⟩, fun h => ⟨h.entries, h.back, h.recorded⟩⟩

theorem mem_entries {src : LookaheadSources} : (q, v, n) ∈ entries g a src ↔ q < a.size ∧
    ((src.manifestations g ((Automaton.ofGraph g a).state q) q).get? v = some n ∨
      (src.trace g (.ofGraph g a)).Finds q v n) := by
  simp only [entries, List.mem_flatMap, List.mem_range, List.mem_map, List.mem_append, Prod.mk.injEq,
    Prod.exists, OrderedMap.mem_toList, Tracing.Finds]
  constructor
  · rintro ⟨_, hq, _, _, hn, rfl, rfl, rfl⟩; exact ⟨hq, hn⟩
  · rintro ⟨hq, hn⟩; exact ⟨q, hq, v, n, hn, rfl, rfl, rfl⟩

theorem lt_of_finds (hn : ((compute g (.ofGraph g a)).trace g (.ofGraph g a)).Finds q v n) :
    q < a.size := by
  by_contra hq
  rw [Tracing.Finds, Array.getD_eq_getD_getElem?,
    Array.getElem?_eq_none (by rw [size_tables]; exact Nat.le_of_not_lt hq)] at hn
  rw [Option.getD_none, OrderedMap.get?_empty] at hn
  cases hn

/-- The list has all annotations that come to states. -/
theorem Checks.mem_of_trail {es : List Entry} {sets : List (List (Item × SymbolId))}
    (h : Checks g a es sets) (hn : Trail g a v q n) : (q, v, n) ∈ es := by
  induction hn with
  | own hq hn => exact h.entries _ (mem_entries.2 ⟨hq, .inl hn⟩)
  | found hn => exact h.entries _ (mem_entries.2 ⟨lt_of_finds hn, .inr hn⟩)
  | back _ hp huseful ih =>
    refine h.back _ ih _ (List.mem_filter.2 ⟨List.mem_map_of_mem hp, ?_⟩)
    rw [huseful, Bool.not_false]

theorem mem_called {t : SymbolId} {lookaheads : List NatSet} {α : Action} :
    α ∈ called n t lookaheads ↔ n.Calls (fun k => t ∈ lookaheads.getD k ∅) α := by
  simp only [called, List.mem_map, List.mem_filter, Contribution.isPresent_iff, Annotation.Calls]
  constructor
  · rintro ⟨c, ⟨hc, hbrought⟩, hα⟩
    exact ⟨c, hc, hα, hbrought⟩
  · rintro ⟨c, hc, hα, hbrought⟩
    exact ⟨c, ⟨hc, hbrought⟩, hα⟩

section Canonical
variable {rounds : Nat} {sets : List (List (Item × SymbolId))} {γ : List SymbolId} {t : SymbolId}

/-- In a grounded grammar kernel items have the canonical lookaheads ahead. -/
theorem mem_validLookaheads_iff (items : a.OfItems g) (wf : g.WellFormed) (grounded : g.Grounded)
    (h : Canonical.IsCollection g rounds sets) (hγ : a.Reads StateId.start γ q) {k : Nat} :
    t ∈ (validLookaheads (a.core q).kernel (Canonical.stateOf g rounds γ)).getD k ∅ ↔
      HasAhead g a q γ t k := by
  rw [validLookaheads, List.getD_eq_getElem?_getD, List.getElem?_map, HasAhead]
  cases hi : (a.core q).kernel[k]? with
  | none => simp
  | some i =>
    have hviable := (items.mem_items_iff wf hγ).1 (List.mem_append_left _ (List.mem_of_getElem? hi))
    obtain ⟨hrule, hpos⟩ := hviable.inRange wf
    simp only [Option.map_some, Option.getD_some, NatSet.mem_ofList, List.mem_map, List.mem_filter,
      Bool.and_eq_true, decide_eq_true_eq, Option.some.injEq]
    constructor
    · rintro ⟨⟨_, _⟩, ⟨hmem, rfl, haccept⟩, rfl⟩
      exact ⟨_, rfl, haccept, wf.ahead_of_valid haccept (Canonical.valid_of_mem_stateOf wf hmem)⟩
    · rintro ⟨_, rfl, haccept, hahead⟩
      exact ⟨_, ⟨Canonical.mem_stateOf_of_valid wf h (grounded.valid_of_ahead wf hrule hpos hahead), rfl,
        haccept⟩, rfl⟩

/-- The canonical state of a string has the kernel items of the state that it reaches. -/
theorem mem_stateOf_of_mem_kernel (items : a.OfItems g) (wf : g.WellFormed) (grounded : g.Grounded)
    (h : Canonical.IsCollection g rounds sets) (hγ : a.Reads StateId.start γ q) :
    ∀ i ∈ (a.core q).kernel, i ∈ (Canonical.stateOf g rounds γ).map Prod.fst := by
  intro i hi
  have hviable := (items.mem_items_iff wf hγ).1 (List.mem_append_left _ hi)
  obtain ⟨u, hu⟩ := grounded.exists_valid wf hviable
  exact List.mem_map.2 ⟨(i, u), Canonical.mem_stateOf_of_valid wf h hu, rfl⟩

/-- **Annotations are in step** if a list of them and the states of the canonical
    automaton say so. -/
theorem Checks.inStep {es : List Entry} (checks : Checks g a es sets) (items : a.OfItems g)
    (wf : g.WellFormed) (grounded : g.Grounded) (h : Canonical.IsCollection g rounds sets) :
    InStep g a v := by
  intro q n hn
  obtain ⟨m, hm, hcovers, hsame⟩ := checks.recorded _ (checks.mem_of_trail hn)
  refine ⟨m, hm, hcovers, fun {γ} hγ α => ?_⟩
  have hcalled := hsame _ (Canonical.stateOf_mem h γ) (mem_stateOf_of_mem_kernel items wf grounded h hγ)
  have hcalls (l : Annotation) : l.Calls (HasAhead g a q γ v.token) α ↔
      α ∈ called l v.token (validLookaheads (a.core q).kernel (Canonical.stateOf g rounds γ)) :=
    ( Annotation.calls_congr fun _ _ => (mem_validLookaheads_iff items wf grounded h hγ).symm).trans
      mem_called.symm
  rw [hcalls, hcalls, hcalled]

end Canonical

end Splitting

end LRAutomata
