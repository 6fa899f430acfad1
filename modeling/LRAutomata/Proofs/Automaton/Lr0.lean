/-
  The LR(0) automaton is the determinised item automaton.

  The construction completes the states one after the other while it finds new
  ones.  What holds of the states found so far is `Lr0.Growing`: their kernels
  are sorted and pairwise different, and all but the first were found from a
  state before them.  As there are only so many sorted kernels, the rounds
  suffice to complete all states (`growing_expandFrom`).
-/
import Mathlib.Algebra.Group.Nat.Defs
import LRAutomata.Proofs.Automaton.ItemAutomaton

namespace LRAutomata.Lr0

variable {g : Grammar}

/-! ## States found so far -/

/-- The state `q` has its closure and its transitions. -/
structure Complete (g : Grammar) (a : Graph) (q : StateId) : Prop where
  closure_eq : (a.core q).closure = ItemSet.closure g (a.core q).kernel
  symbols_eq : (a.core q).edges.map Edge.symbol = ItemSet.nextSymbols g (a.core q).items
  target_lt : ∀ e ∈ (a.core q).edges, e.target < a.size
  kernel_target : ∀ e ∈ (a.core q).edges,
    (a.core e.target).kernel = ItemSet.step g (a.core q).kernel e.symbol
  nextItems_eq : ∀ e ∈ (a.core q).edges, e.nextItems = (a.core e.target).kernel

/-- The kernel of a state that is found from the state `p` by reading the symbol. -/
def FoundFrom (g : Grammar) (a : Graph) (p : StateId) (X : SymbolId) (kernel : List Item) : Prop :=
  (∃ i ∈ (a.core p).kernel ++ ItemSet.closure g (a.core p).kernel, i.next? g = some X) ∧
    kernel = ItemSet.step g (a.core p).kernel X

/-- The states found when those before `n` are complete. -/
structure Growing (g : Grammar) (a : Graph) (n : StateId) : Prop where
  start_lt : StateId.start < a.size
  kernel_start : (a.core StateId.start).kernel = [Item.start]
  accessing_start : (a.core StateId.start).accessing = none
  sorted : ∀ {q}, q < a.size → ItemSet.Sorted (a.core q).kernel
  inRange : ∀ {q}, q < a.size → ∀ i ∈ (a.core q).kernel, i.InRange g
  distinct : ∀ {p q}, p < a.size → q < a.size → (a.core p).kernel = (a.core q).kernel → p = q
  found : ∀ {q}, q < a.size → q ≠ StateId.start → ∃ p X, p < q ∧
    FoundFrom g a p X (a.core q).kernel ∧ (a.core q).accessing = some X
  isocore : ∀ {q}, q < a.size → (a.core q).isocore = q
  complete : ∀ {q}, q < a.size → q < n → Complete g a q

/-- The graph `b` has the states of `a`, with the same kernels, and perhaps more. -/
structure Extends (a b : Graph) : Prop where
  size_le : a.size ≤ b.size
  core_eq : ∀ {q}, q < a.size → b.core q = a.core q

theorem Extends.refl (a : Graph) : Extends a a := ⟨Nat.le_refl _, fun _ => rfl⟩

theorem Extends.trans {a b c : Graph} (h₁ : Extends a b) (h₂ : Extends b c) : Extends a c :=
  ⟨Nat.le_trans h₁.size_le h₂.size_le, fun hq =>
    (h₂.core_eq (Nat.lt_of_lt_of_le hq h₁.size_le)).trans (h₁.core_eq hq)⟩

theorem extends_push (cores : Array Core) (c : Core) : Extends ⟨cores⟩ ⟨cores.push c⟩ :=
  ⟨by simp [Graph.size], fun {q} hq => by
    rw [Graph.core_push, if_neg (show q ≠ cores.size from Nat.ne_of_lt hq)]⟩

/-- A state stays complete as long as it stays the same and the kernels stay. -/
theorem Complete.of_kernels {a b : Graph} {q : StateId} (h : Complete g a q)
    (size_le : a.size ≤ b.size) (core_eq : b.core q = a.core q)
    (kernel_eq : ∀ {p}, p < a.size → (b.core p).kernel = (a.core p).kernel) : Complete g b q := by
  refine ⟨by rw [core_eq]; exact h.closure_eq, by rw [core_eq]; exact h.symbols_eq, ?_, ?_, ?_⟩ <;>
    rw [core_eq] <;> intro e he
  · exact Nat.lt_of_lt_of_le (h.target_lt e he) size_le
  · rw [kernel_eq (h.target_lt e he)]; exact h.kernel_target e he
  · rw [kernel_eq (h.target_lt e he)]; exact h.nextItems_eq e he

theorem Complete.extends {a b : Graph} {q : StateId} (h : Complete g a q) (hq : q < a.size)
    (hab : Extends a b) : Complete g b q :=
  h.of_kernels hab.size_le (hab.core_eq hq) fun hp => congrArg Core.kernel (hab.core_eq hp)

theorem FoundFrom.extends {a b : Graph} {p : StateId} {X : SymbolId} {kernel : List Item}
    (h : FoundFrom g a p X kernel) (hp : p < a.size) (hab : Extends a b) :
    FoundFrom g b p X kernel := by
  rw [FoundFrom, hab.core_eq hp]; exact h

theorem FoundFrom.inRange {a : Graph} {p : StateId} {X : SymbolId} {kernel : List Item}
    (h : FoundFrom g a p X kernel) (hin : ∀ i ∈ (a.core p).kernel, i.InRange g) :
    ∀ j ∈ kernel, j.InRange g := by
  obtain ⟨-, rfl⟩ := h
  intro j hj
  obtain ⟨i, hi, hX, rfl⟩ := ItemSet.mem_step.1 hj
  refine Item.InRange.advance ?_ hX
  rcases List.mem_append.1 hi with hi | hi
  · exact hin i hi
  · obtain ⟨r, hr, -, rfl⟩ := Grammar.mem_closure.1 hi
    exact ⟨hr, Nat.zero_le _⟩

/-! ## Finding a state -/

/-- A kernel has a state already, or a new state is added for it. -/
theorem findOrAdd_cases (cores : Array Core) (X : SymbolId) (kernel : List Item) :
    (∃ q, q < cores.size ∧ (Graph.core ⟨cores⟩ q).kernel = kernel ∧
      findOrAdd cores X kernel = (cores, q)) ∨
    (∀ q, q < cores.size → (Graph.core ⟨cores⟩ q).kernel ≠ kernel) ∧
      findOrAdd cores X kernel = (cores.push (fresh cores.size (some X) kernel), cores.size) := by
  unfold findOrAdd
  split
  · rename_i q hq
    obtain ⟨hlt, hk, -⟩ := List.findIdx?_eq_some_iff_getElem.1 hq
    have hlt' : q < cores.size := by simpa using hlt
    exact .inl ⟨q, hlt', by simpa [Graph.core, Array.getD, hlt'] using hk, rfl⟩
  · rename_i hnone
    refine .inr ⟨fun q hlt => ?_, rfl⟩
    have := List.findIdx?_eq_none_iff.1 hnone (Graph.core ⟨cores⟩ q)
      (by simp [Graph.core, Array.getD, hlt])
    simpa using this

variable {cores : Array Core} {n : StateId}

theorem Growing.push (h : Growing g ⟨cores⟩ n) (hn : n ≤ cores.size) {X : SymbolId}
    {kernel : List Item} {p : StateId} (hp : p < cores.size) (hfound : FoundFrom g ⟨cores⟩ p X kernel)
    (hnew : ∀ q, q < cores.size → (Graph.core ⟨cores⟩ q).kernel ≠ kernel) :
    Growing g ⟨cores.push (fresh cores.size (some X) kernel)⟩ n := by
  have ext := extends_push cores (fresh cores.size (some X) kernel)
  have last : Graph.core ⟨cores.push (fresh cores.size (some X) kernel)⟩ cores.size =
      fresh cores.size (some X) kernel := by rw [Graph.core_push, if_pos rfl]
  have cases : ∀ {q}, q < Graph.size ⟨cores.push (fresh cores.size (some X) kernel)⟩ →
      q < cores.size ∨ q = cores.size := by
    intro q hq
    exact Nat.lt_succ_iff_lt_or_eq.1 (by simpa [Graph.size] using hq)
  constructor
  case start_lt => exact Nat.lt_of_lt_of_le h.start_lt ext.size_le
  case kernel_start => rw [ext.core_eq h.start_lt]; exact h.kernel_start
  case accessing_start => rw [ext.core_eq h.start_lt]; exact h.accessing_start
  case sorted =>
    intro q hq
    rcases cases hq with hq | rfl
    · rw [ext.core_eq hq]; exact h.sorted hq
    · rw [last]; obtain ⟨-, rfl⟩ := hfound; exact ItemSet.sorted_sorted _
  case inRange =>
    intro q hq
    rcases cases hq with hq | rfl
    · rw [ext.core_eq hq]; exact h.inRange hq
    · rw [last]; exact hfound.inRange (h.inRange hp)
  case distinct =>
    intro q q' hq hq'
    rcases cases hq with hq | rfl <;> rcases cases hq' with hq' | rfl
    · rw [ext.core_eq hq, ext.core_eq hq']; exact h.distinct hq hq'
    · rw [ext.core_eq hq, last]; exact fun heq => absurd heq (hnew q hq)
    · rw [ext.core_eq hq', last]; exact fun heq => absurd heq.symm (hnew q' hq')
    · exact fun _ => rfl
  case found =>
    intro q hq hstart
    rcases cases hq with hq | rfl
    · obtain ⟨m, Y, hm, hfrom, haccessing⟩ := h.found hq hstart
      rw [ext.core_eq hq]
      exact ⟨m, Y, hm, hfrom.extends (Nat.lt_trans hm hq) ext, haccessing⟩
    · rw [last]; exact ⟨p, X, hp, hfound.extends hp ext, rfl⟩
  case isocore =>
    intro q hq
    rcases cases hq with hq | rfl
    · rw [ext.core_eq hq]; exact h.isocore hq
    · rw [last]; rfl
  case complete =>
    intro q _ hqn
    have hq := Nat.lt_of_lt_of_le hqn hn
    exact (h.complete hq hqn).extends hq ext

/-- What holds after a state was looked up for the kernel found from `p`. -/
theorem Growing.findOrAdd (h : Growing g ⟨cores⟩ n) (hn : n ≤ cores.size) (X : SymbolId)
    {kernel : List Item} {p : StateId} (hp : p < cores.size)
    (hfound : FoundFrom g ⟨cores⟩ p X kernel) :
    let r := Lr0.findOrAdd cores X kernel
    Growing g ⟨r.1⟩ n ∧ Extends ⟨cores⟩ ⟨r.1⟩ ∧ r.2 < r.1.size ∧
      (Graph.core ⟨r.1⟩ r.2).kernel = kernel := by
  obtain ⟨q, hq, hkernel, heq⟩ | ⟨hnew, heq⟩ := findOrAdd_cases cores X kernel <;> rw [heq]
  · exact ⟨h, .refl _, hq, hkernel⟩
  · exact ⟨h.push hn hp hfound hnew, extends_push _ _, by simp, by rw [Graph.core_push, if_pos rfl]; rfl⟩

/-! ## Completing a state -/

/-- What the transitions of the state `q` found so far look like. -/
def Leading (g : Grammar) (a : Graph) (q : StateId) (edges : List Edge) : Prop :=
  ∀ e ∈ edges, e.target < a.size ∧
    (a.core e.target).kernel = ItemSet.step g (a.core q).kernel e.symbol ∧
    e.nextItems = (a.core e.target).kernel

theorem Leading.extends {a b : Graph} {q : StateId} {edges : List Edge} (h : Leading g a q edges)
    (hq : q < a.size) (hab : Extends a b) : Leading g b q edges := by
  intro e he
  obtain ⟨hlt, hkernel, hitems⟩ := h e he
  rw [hab.core_eq hq, hab.core_eq hlt]
  exact ⟨Nat.lt_of_lt_of_le hlt hab.size_le, hkernel, hitems⟩

/-- One transition: the state for the symbol, and the transition to it. -/
def connect (g : Grammar) (items : List Item) (r : Array Core × List Edge) (X : SymbolId) :
    Array Core × List Edge :=
  let nextItems := ItemSet.advanceOver g items X
  let (cores, target) := findOrAdd r.1 X nextItems
  (cores, r.2 ++ [⟨X, target, nextItems⟩])

theorem expand_eq (g : Grammar) (cores : Array Core) (q : StateId) :
    expand g cores q =
      let kernel := (Graph.core ⟨cores⟩ q).kernel
      let closure := ItemSet.closure g kernel
      let r := (ItemSet.nextSymbols g (kernel ++ closure)).foldl (connect g (kernel ++ closure))
        (cores, [])
      r.1.modify q fun c => { c with closure, edges := r.2 } := rfl

theorem connect_foldl {q : StateId} {kernel : List Item} (hq : q < cores.size)
    (hkernel : (Graph.core ⟨cores⟩ q).kernel = kernel) :
    ∀ (Xs : List SymbolId), (∀ X ∈ Xs, X ∈ ItemSet.nextSymbols g (kernel ++ ItemSet.closure g kernel)) →
      ∀ (r : Array Core × List Edge), Growing g ⟨r.1⟩ q → Extends ⟨cores⟩ ⟨r.1⟩ →
        Leading g ⟨r.1⟩ q r.2 →
      let r' := Xs.foldl (connect g (kernel ++ ItemSet.closure g kernel)) r
      Growing g ⟨r'.1⟩ q ∧ Extends ⟨cores⟩ ⟨r'.1⟩ ∧ Leading g ⟨r'.1⟩ q r'.2 ∧
        r'.2.map Edge.symbol = r.2.map Edge.symbol ++ Xs
  | [], _, r, h, hext, hedges => ⟨h, hext, hedges, by simp⟩
  | X :: Xs, hXs, r, h, hext, hedges => by
    have hq' : q < r.1.size := Nat.lt_of_lt_of_le hq hext.size_le
    have hkernel' : (Graph.core ⟨r.1⟩ q).kernel = kernel := by rw [hext.core_eq hq, hkernel]
    have hfound : FoundFrom g ⟨r.1⟩ q X (ItemSet.step g kernel X) := by
      refine ⟨?_, by rw [hkernel']⟩
      rw [hkernel']; exact ItemSet.mem_nextSymbols.1 (hXs X (by simp))
    obtain ⟨hgrow, hext', hlt, htarget⟩ := h.findOrAdd (Nat.le_of_lt hq') X hq' hfound
    have hedges' := hedges.extends hq' hext'
    obtain ⟨h₁, h₂, h₃, h₄⟩ := connect_foldl hq hkernel Xs (fun Y hY => hXs Y (by simp [hY]))
      (connect g (kernel ++ ItemSet.closure g kernel) r X) hgrow (hext.trans hext') fun e he => by
        rcases List.mem_append.1 he with he | he
        · exact hedges' e he
        · obtain rfl := List.mem_singleton.1 he
          refine ⟨hlt, htarget.trans ?_, htarget.symm⟩
          rw [show (connect g (kernel ++ ItemSet.closure g kernel) r X).1 = (Lr0.findOrAdd r.1 X
            (ItemSet.step g kernel X)).1 from rfl, hext'.core_eq hq', hkernel']
    exact ⟨h₁, h₂, h₃, by rw [List.foldl_cons, h₄]; simp [connect]⟩

/-- Giving a state its closure and transitions completes it. -/
theorem Growing.modify {q : StateId} (h : Growing g ⟨cores⟩ q) (hq : q < cores.size)
    {edges : List Edge} (hedges : Leading g ⟨cores⟩ q edges)
    (hsymbols : edges.map Edge.symbol = ItemSet.nextSymbols g
      ((Graph.core ⟨cores⟩ q).kernel ++ ItemSet.closure g (Graph.core ⟨cores⟩ q).kernel)) :
    Growing g ⟨cores.modify q fun c =>
      { c with closure := ItemSet.closure g (Graph.core ⟨cores⟩ q).kernel, edges }⟩ (q + 1) := by
  generalize hf : (fun c : Core =>
    { c with closure := ItemSet.closure g (Graph.core ⟨cores⟩ q).kernel, edges := edges }) = f
  have size : Graph.size ⟨cores.modify q f⟩ = Graph.size ⟨cores⟩ := by simp [Graph.size]
  have kernel : ∀ p, (Graph.core ⟨cores.modify q f⟩ p).kernel = (Graph.core ⟨cores⟩ p).kernel := by
    intro p; rw [Graph.core_modify]; split
    · rw [← hf]
    · rfl
  have accessing : ∀ p, (Graph.core ⟨cores.modify q f⟩ p).accessing =
      (Graph.core ⟨cores⟩ p).accessing := by
    intro p; rw [Graph.core_modify]; split
    · rw [← hf]
    · rfl
  constructor
  case start_lt => rw [size]; exact h.start_lt
  case kernel_start => rw [kernel]; exact h.kernel_start
  case accessing_start => rw [accessing]; exact h.accessing_start
  case sorted => intro p hp; rw [kernel]; exact h.sorted (size ▸ hp)
  case inRange => intro p hp; rw [kernel]; exact h.inRange (size ▸ hp)
  case distinct =>
    intro p p' hp hp'
    rw [kernel, kernel]
    exact h.distinct (size ▸ hp) (size ▸ hp')
  case found =>
    intro p hp hstart
    obtain ⟨m, X, hm, hfrom, haccessing⟩ := h.found (size ▸ hp) hstart
    exact ⟨m, X, hm, by rw [FoundFrom, kernel, kernel]; exact hfrom, by rw [accessing]; exact haccessing⟩
  case isocore =>
    intro p hp
    rw [Graph.core_modify]
    split
    · rw [← hf]; exact h.isocore (size ▸ hp)
    · exact h.isocore (size ▸ hp)
  case complete =>
    intro p hp hpq
    rcases Nat.lt_succ_iff_lt_or_eq.1 hpq with hpq | rfl
    · refine (h.complete (size ▸ hp) hpq).of_kernels (Nat.le_of_eq size.symm) ?_ fun _ => kernel _
      rw [Graph.core_modify, if_neg fun h => Nat.ne_of_lt hpq h.1]
    · have core : Graph.core ⟨cores.modify p f⟩ p = f (Graph.core ⟨cores⟩ p) := by
        rw [Graph.core_modify, if_pos ⟨rfl, hq⟩]
      refine ⟨by rw [kernel, core, ← hf], by rw [core, ← hf]; exact hsymbols, ?_, ?_, ?_⟩ <;>
        intro e he <;> rw [core, ← hf] at he
      · rw [size]; exact (hedges e he).1
      · rw [kernel, kernel]; exact (hedges e he).2.1
      · rw [kernel]; exact (hedges e he).2.2

theorem Growing.expand {q : StateId} (h : Growing g ⟨cores⟩ q) (hq : q < cores.size) :
    Growing g ⟨expand g cores q⟩ (q + 1) ∧ q < (Lr0.expand g cores q).size := by
  obtain ⟨hgrow, hext, hedges, hsymbols⟩ := connect_foldl hq rfl _ (fun _ hX => hX) (cores, []) h
    (.refl _) (by simp [Leading])
  have hq' := Nat.lt_of_lt_of_le hq hext.size_le
  have hkernel := congrArg Core.kernel (hext.core_eq hq)
  rw [expand_eq]
  have := hgrow.modify hq' hedges (by rw [hkernel, hsymbols]; simp)
  rw [hkernel] at this
  exact ⟨this, by simpa [Graph.size] using hq'⟩

/-! ## Completing all states -/

theorem subsetCount_eq (n : Nat) : subsetCount n = 2 ^ n := by
  rw [subsetCount, Nat.one_shiftLeft]

/-- There are no more states than sets of items. -/
theorem Growing.size_le (h : Growing g ⟨cores⟩ n) : cores.size ≤ subsetCount (itemCount g) := by
  have nodup : ((List.range cores.size).map fun q => (Graph.core ⟨cores⟩ q).kernel).Nodup :=
    List.nodup_range.map_on fun p hp q hq heq =>
      h.distinct (List.mem_range.1 hp) (List.mem_range.1 hq) heq
  have subset : ((List.range cores.size).map fun q => (Graph.core ⟨cores⟩ q).kernel) ⊆
      (ItemSet.all g).sublists := by
    intro kernel hk
    obtain ⟨q, hq, rfl⟩ := List.mem_map.1 hk
    have hq := List.mem_range.1 hq
    exact (h.sorted hq).mem_sublists (h.inRange hq)
  have := (nodup.subperm subset).length_le
  rwa [List.length_map, List.length_range, List.length_sublists, ItemSet.length_all,
    ← subsetCount_eq] at this

/-- If there are rounds for all sets of items, the states end up complete. -/
theorem growing_expandFrom : ∀ (rounds : Nat) {cores : Array Core} {q : StateId},
    Growing g ⟨cores⟩ q → q ≤ cores.size → subsetCount (itemCount g) ≤ rounds + q →
      Growing g ⟨expandFrom g rounds cores q⟩ (expandFrom g rounds cores q).size
  | 0, cores, q, h, hq, hrounds => by
    have : q = cores.size := Nat.le_antisymm hq (Nat.le_trans h.size_le (by simpa using hrounds))
    rw [expandFrom, ← this]; exact h
  | rounds + 1, cores, q, h, hq, hrounds => by
    rw [expandFrom]
    split
    · rename_i hlt
      obtain ⟨hgrow, hlt'⟩ := h.expand hlt
      exact growing_expandFrom rounds hgrow hlt' (by rwa [← Nat.add_assoc, Nat.add_right_comm])
    · rename_i hge
      rw [Nat.le_antisymm hq (Nat.le_of_not_lt hge)] at h; exact h

theorem growing_start (wf : g.WellFormed) :
    Growing g ⟨#[fresh StateId.start none [Item.start]]⟩ StateId.start := by
  have zero : ∀ {q}, q < Graph.size ⟨#[fresh StateId.start none [Item.start]]⟩ → q = StateId.start :=
    fun h => Nat.lt_one_iff.1 h
  constructor
  case start_lt => exact Nat.one_pos
  case kernel_start => rfl
  case accessing_start => rfl
  case sorted => intro q hq; rw [zero hq]; exact List.pairwise_singleton _ _
  case inRange =>
    intro q hq i hi
    rw [zero hq] at hi
    obtain rfl := List.mem_singleton.1 hi
    exact ⟨wf.accept_lt, Nat.zero_le _⟩
  case distinct => intro p q hp hq _; rw [zero hp, zero hq]
  case found => intro q hq hstart; exact absurd (zero hq) hstart
  case isocore => intro q hq; rw [zero hq]; rfl
  case complete => intro q _ hq; exact absurd hq (Nat.not_lt_zero _)

/-- The cores of the LR(0) automaton before their predecessors are filled in. -/
def allCores (g : Grammar) : Array Core :=
  expandFrom g (subsetCount (itemCount g)) #[fresh StateId.start none [Item.start]] 0

theorem graph_eq (g : Grammar) : graph g = Graph.link ⟨allCores g⟩ := rfl

theorem growing_cores (wf : g.WellFormed) : Growing g ⟨allCores g⟩ (allCores g).size :=
  growing_expandFrom _ (growing_start wf) (Nat.zero_le _) (Nat.le_refl _)

theorem ofItems_graph (wf : g.WellFormed) : (graph g).OfItems g := by
  have h := growing_cores wf
  refine Graph.OfItems.link ⟨h.start_lt, h.kernel_start, ?_, ?_, ?_, ?_⟩
  · exact fun hq => (h.complete hq hq).closure_eq
  · exact fun hq => (h.complete hq hq).symbols_eq
  · exact fun hq => (h.complete hq hq).target_lt
  · exact fun hq => (h.complete hq hq).kernel_target

/-- Nothing is read to reach the start state. -/
theorem accessing_start (wf : g.WellFormed) : ((graph g).core StateId.start).accessing = none := by
  have h := growing_cores wf
  rw [graph_eq, Graph.core_link _ h.start_lt]
  exact h.accessing_start

theorem kernel_injective (wf : g.WellFormed) {p q : StateId} (hp : p < (graph g).size)
    (hq : q < (graph g).size) (h : ((graph g).core p).kernel = ((graph g).core q).kernel) :
    p = q := by
  rw [graph_eq, Graph.size_link] at hp hq
  rw [graph_eq, Graph.kernel_link, Graph.kernel_link] at h
  exact (growing_cores wf).distinct hp hq h

/-- Every state is reached from the start state. -/
theorem reached_graph (wf : g.WellFormed) :
    ∀ (q : StateId), q < (graph g).size → ∃ γ, (graph g).Reads StateId.start γ q := by
  have h := growing_cores wf
  have items := ofItems_graph wf
  intro q
  -- The state from which `q` was found has a smaller number.
  induction q using Nat.strongRecOn with
  | _ q ih =>
    intro hq
    by_cases hstart : q = StateId.start
    · exact ⟨[], Graph.reads_nil.2 hstart.symm⟩
    · have hq' : q < Graph.size ⟨allCores g⟩ := by rwa [graph_eq, Graph.size_link] at hq
      obtain ⟨p, X, hpq, ⟨⟨i, hi, hX⟩, hkernel⟩, -⟩ := h.found hq' hstart
      have hp : p < (graph g).size := Nat.lt_trans hpq hq
      obtain ⟨γ, hγ⟩ := ih p hpq hp
      rw [← Graph.kernel_link ⟨allCores g⟩ p, ← graph_eq] at hi hkernel
      rw [← Graph.kernel_link, ← graph_eq] at hkernel
      rw [← items.items_eq hp] at hi
      obtain ⟨r, hr⟩ := (items.exists_next?_iff hp).2 ⟨i, hi, hX⟩
      obtain ⟨hrlt, hrkernel⟩ := items.next?_kernel hp hr
      obtain rfl := kernel_injective wf hrlt hq (hrkernel.trans hkernel.symm)
      exact ⟨γ ++ [X], Graph.reads_snoc.2 ⟨p, hγ, hr⟩⟩

end LRAutomata.Lr0
