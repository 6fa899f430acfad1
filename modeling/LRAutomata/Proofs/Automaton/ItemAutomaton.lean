/-
  The item automaton, and the graphs that determinise it.

  * `Item.Viable` is the nondeterministic automaton: an item is viable after a
    string if the string can be read on the way to it from the start item;
  * `ItemSet.reached` are the kernels that reading a string leads through, and
    with their closures they have the viable items (`mem_reached_iff`);
  * a graph of items (`Graph.OfItems`) follows these kernels, whatever the
    number of states with the same one: its paths are the strings after which
    an item is viable, and they end in states with the viable items.
-/
import LRAutomata.Automaton.Basic
import LRAutomata.Proofs.Automaton.ItemSet

namespace LRAutomata

open Relation

/-! ## Viable items -/

/-- The item `i` is reached from the start item by reading the string: the dot
    moves over the symbol read, and without reading an item expands. -/
inductive Item.Viable (g : Grammar) : List SymbolId → Item → Prop
  | start : Viable g [] Item.start
  | read {γ : List SymbolId} {i : Item} {X : SymbolId} :
      Viable g γ i → i.next? g = some X → Viable g (γ ++ [X]) i.advance
  | expand {γ : List SymbolId} {i j : Item} : Viable g γ i → i.Expands g j → Viable g γ j

namespace Item

variable {g : Grammar} {γ : List SymbolId} {i : Item} {X : SymbolId}

theorem Viable.expands {j : Item} (h : i.Viable g γ) (hij : ReflTransGen (Expands g) i j) :
    j.Viable g γ := by
  induction hij with
  | refl => exact h
  | tail _ hstep ih => exact ih.expand hstep

theorem viable_nil_iff : i.Viable g [] ↔ ReflTransGen (Expands g) Item.start i := by
  constructor
  · intro h
    generalize hγ : ([] : List SymbolId) = γ at h
    induction h with
    | start => exact .refl
    | read => simp at hγ
    | expand _ hij ih => exact (ih hγ).tail hij
  · exact Viable.start.expands

theorem viable_snoc_iff : i.Viable g (γ ++ [X]) ↔
    ∃ j : Item, j.Viable g γ ∧ j.next? g = some X ∧ ReflTransGen (Expands g) j.advance i := by
  constructor
  · intro h
    generalize hδ : γ ++ [X] = δ at h
    induction h with
    | start => simp at hδ
    | read hj hX =>
      obtain ⟨rfl, rfl⟩ := List.append_singleton_inj.1 hδ
      exact ⟨_, hj, hX, .refl⟩
    | expand _ hij ih =>
      obtain ⟨j, hj, hX, hji⟩ := ih hδ
      exact ⟨j, hj, hX, hji.tail hij⟩
  · rintro ⟨j, hj, hX, hji⟩
    exact (hj.read hX).expands hji

theorem Viable.inRange (wf : g.WellFormed) (h : i.Viable g γ) : i.InRange g := by
  induction h with
  | start => exact ⟨wf.accept_lt, Nat.zero_le _⟩
  | read _ hX ih => exact ih.advance hX
  | expand _ hij _ => exact hij.inRange

/-- The string read ends with the symbols before the dot; the item was begun
    where they start. -/
theorem Viable.initial (h : i.Viable g γ) :
    ∃ γ', γ = γ' ++ i.before g ∧ Viable g γ' ⟨i.rule, 0⟩ := by
  induction h with
  | start => exact ⟨[], rfl, .start⟩
  | read _ hX ih =>
    obtain ⟨γ', rfl, h⟩ := ih
    exact ⟨γ', by rw [before_advance hX, List.append_assoc], h⟩
  | expand h hij _ =>
    obtain ⟨r, hr, hnext, rfl⟩ := hij
    exact ⟨_, by simp, h.expand ⟨r, hr, hnext, rfl⟩⟩

/-- The dot of a viable item moves over any number of the symbols after it. -/
theorem Viable.read_take (h : Viable g γ ⟨i.rule, 0⟩) :
    ∀ n, n ≤ (g.rhs i.rule).length → Viable g (γ ++ (g.rhs i.rule).take n) ⟨i.rule, n⟩
  | 0, _ => by simpa using h
  | n + 1, hn => by
    have hX : next? g ⟨i.rule, n⟩ = some (g.rhs i.rule)[n] := List.getElem?_eq_getElem hn
    have := (read_take h n (Nat.le_of_succ_le hn)).read hX
    rwa [List.append_assoc, List.take_append_getElem hn] at this

end Item

/-! ## The kernels along a string -/

namespace ItemSet

/-- The kernel reached from a kernel by reading a symbol. -/
def step (g : Grammar) (kernel : List Item) (X : SymbolId) : List Item :=
  advanceOver g (kernel ++ closure g kernel) X

/-- The kernel reached from the start item by reading a string. -/
def reached (g : Grammar) (γ : List SymbolId) : List Item :=
  γ.foldl (step g) [Item.start]

@[simp] theorem reached_nil (g : Grammar) : reached g [] = [Item.start] := rfl

@[simp] theorem reached_snoc (g : Grammar) (γ : List SymbolId) (X : SymbolId) :
    reached g (γ ++ [X]) = step g (reached g γ) X := by
  rw [reached, List.foldl_append]; rfl

theorem mem_step {g : Grammar} {kernel : List Item} {X : SymbolId} {j : Item} :
    j ∈ step g kernel X ↔ ∃ i ∈ kernel ++ closure g kernel, i.next? g = some X ∧ j = i.advance :=
  mem_advanceOver

/-- The kernel reached and its closure have the viable items. -/
theorem mem_reached_iff {g : Grammar} (wf : g.WellFormed) {γ : List SymbolId} {i : Item} :
    i ∈ reached g γ ++ closure g (reached g γ) ↔ i.Viable g γ := by
  induction γ using List.reverseRecOn generalizing i with
  | nil => rw [wf.mem_kernel_append_closure, Item.viable_nil_iff]; simp
  | append_singleton γ X ih =>
    rw [wf.mem_kernel_append_closure, Item.viable_snoc_iff, reached_snoc]
    constructor
    · rintro ⟨k, hk, hki⟩
      obtain ⟨j, hj, hX, rfl⟩ := mem_step.1 hk
      exact ⟨j, ih.1 hj, hX, hki⟩
    · rintro ⟨j, hj, hX, hji⟩
      exact ⟨j.advance, mem_step.2 ⟨j, ih.2 hj, hX, rfl⟩, hji⟩

theorem mem_reached_snoc {g : Grammar} (wf : g.WellFormed) {γ : List SymbolId} {X : SymbolId}
    {j : Item} : j ∈ reached g (γ ++ [X]) ↔
      ∃ i : Item, i.Viable g γ ∧ i.next? g = some X ∧ j = i.advance := by
  simp only [reached_snoc, mem_step, mem_reached_iff wf]

theorem sorted_reached (g : Grammar) (γ : List SymbolId) : Sorted (reached g γ) := by
  cases γ using List.reverseRecOn with
  | nil => exact List.pairwise_singleton _ _
  | append_singleton γ X => rw [reached_snoc]; exact sorted_sorted _

/-- The kernel items are viable; from the start on they have something before
    the dot. -/
theorem mem_reached_iff_viable {g : Grammar} (wf : g.WellFormed) {γ : List SymbolId} {i : Item} :
    i ∈ reached g γ ↔ i.Viable g γ ∧ (γ = [] ∧ i = Item.start ∨ γ ≠ [] ∧ 0 < i.position) := by
  cases γ using List.reverseRecOn with
  | nil =>
    constructor
    · intro h; rw [List.mem_singleton.1 h]; exact ⟨.start, .inl ⟨rfl, rfl⟩⟩
    · rintro ⟨-, ⟨-, rfl⟩ | ⟨h, -⟩⟩
      · exact List.mem_singleton.2 rfl
      · exact absurd rfl h
  | append_singleton γ X =>
    rw [mem_reached_snoc wf, Item.viable_snoc_iff]
    constructor
    · rintro ⟨j, hj, hX, rfl⟩
      exact ⟨⟨j, hj, hX, .refl⟩, .inr ⟨by simp, Nat.succ_pos _⟩⟩
    · rintro ⟨⟨j, hj, hX, hji⟩, ⟨h, -⟩ | ⟨-, hpos⟩⟩
      · simp at h
      · rcases ReflTransGen.cases_tail hji with rfl | ⟨_, -, ⟨r, -, -, rfl⟩⟩
        · exact ⟨j, hj, hX, rfl⟩
        · exact absurd hpos (Nat.lt_irrefl 0)

end ItemSet

/-! ## Paths of graphs -/

namespace Graph

/-- Reading the string leads from the state `p` to the state `q`. -/
def Reads (a : Graph) (p : StateId) (γ : List SymbolId) (q : StateId) : Prop :=
  (a.trace? p γ).map Prod.snd = some q

variable {a : Graph} {p q r : StateId} {γ δ : List SymbolId} {X : SymbolId}

@[simp] theorem reads_nil : a.Reads p [] q ↔ p = q := by simp [Reads, trace?]

theorem reads_cons : a.Reads p (X :: γ) q ↔ ∃ r, a.next? p X = some r ∧ a.Reads r γ q := by
  simp only [Reads, trace?]
  cases h : a.next? p X with
  | none => simp
  | some r => rcases h' : a.trace? r γ with _ | ⟨places, last⟩ <;> simp [h']

theorem reads_append : a.Reads p (γ ++ δ) q ↔ ∃ r, a.Reads p γ r ∧ a.Reads r δ q := by
  induction γ generalizing p with
  | nil => simp
  | cons X γ ih =>
    simp only [List.cons_append, reads_cons, ih]
    exact ⟨fun ⟨s, hs, r, h₁, h₂⟩ => ⟨r, ⟨s, hs, h₁⟩, h₂⟩, fun ⟨r, ⟨s, hs, h₁⟩, h₂⟩ => ⟨s, hs, r, h₁, h₂⟩⟩

theorem reads_singleton : a.Reads p [X] q ↔ a.next? p X = some q := by
  simp [reads_cons]

theorem reads_snoc : a.Reads p (γ ++ [X]) q ↔ ∃ r, a.Reads p γ r ∧ a.next? r X = some q := by
  simp only [reads_append, reads_singleton]

theorem Reads.unique (h : a.Reads p γ q) (h' : a.Reads p γ r) : q = r :=
  Option.some.inj (Eq.trans (Eq.symm h) h')

theorem reads_of_trace? {places : List Goto} (h : a.trace? p γ = some (places, q)) :
    a.Reads p γ q := by
  rw [Reads, h]; rfl

theorem Reads.exists_trace? (h : a.Reads p γ q) : ∃ places, a.trace? p γ = some (places, q) := by
  obtain ⟨⟨places, _⟩, htrace, rfl⟩ := Option.map_eq_some_iff.1 h
  exact ⟨places, htrace⟩

theorem trace?_cons_eq_some {places : List Goto} :
    a.trace? p (X :: γ) = some (places, q) ↔
      ∃ r rest, a.next? p X = some r ∧ a.trace? r γ = some (rest, q) ∧ places = ⟨p, X⟩ :: rest := by
  rw [trace?]
  cases hX : a.next? p X with
  | none => simp
  | some r =>
    rcases hway : a.trace? r γ with _ | ⟨rest, last⟩
    · simp [hway]
    · simp only [Option.bind_eq_bind, Option.bind_some, hway, Option.some.injEq, Prod.mk.injEq]
      constructor
      · rintro ⟨rfl, rfl⟩; exact ⟨r, rest, rfl, hway, rfl⟩
      · rintro ⟨_, rest', rfl, hway', rfl⟩
        obtain ⟨rfl, rfl⟩ := Prod.mk.inj (Option.some.inj (hway.symm.trans hway'))
        exact ⟨rfl, rfl⟩

/-- The places on the way have the symbols read. -/
theorem symbols_trace? {places : List Goto} (h : a.trace? p γ = some (places, q)) :
    places.map Goto.symbol = γ := by
  induction γ generalizing p places with
  | nil => cases h; rfl
  | cons X γ ih =>
    obtain ⟨r, rest, -, hrest, rfl⟩ := trace?_cons_eq_some.1 h
    rw [List.map_cons, ih hrest]

/-- A place on the way is reached by the symbols before it. -/
theorem reads_of_mem_trace? {places before after : List Goto} {z : Goto}
    (h : a.trace? p γ = some (places, q)) (hz : places = before ++ z :: after) :
    γ = before.map Goto.symbol ++ z.symbol :: after.map Goto.symbol ∧
      a.Reads p (before.map Goto.symbol) z.source := by
  refine ⟨by rw [← symbols_trace? h, hz]; simp, ?_⟩
  induction before generalizing p γ places with
  | nil =>
    cases γ with
    | nil => cases h; simp at hz
    | cons X γ =>
      obtain ⟨r, rest, -, -, rfl⟩ := trace?_cons_eq_some.1 h
      obtain ⟨rfl, -⟩ := List.cons.inj hz
      exact reads_nil.2 rfl
  | cons y before ih =>
    cases γ with
    | nil => cases h; simp at hz
    | cons X γ =>
      obtain ⟨r, rest, hr, hrest, rfl⟩ := trace?_cons_eq_some.1 h
      obtain ⟨rfl, hrest'⟩ := List.cons.inj hz
      exact reads_cons.2 ⟨r, hr, ih hrest hrest'⟩

/-- A state reached by the symbols before a symbol is a place on the way. -/
theorem mem_trace?_of_reads {s : StateId} {places : List Goto}
    (h : a.trace? p (γ ++ X :: δ) = some (places, q)) (hs : a.Reads p γ s) :
    ∃ before after, places = before ++ ⟨s, X⟩ :: after ∧ after.map Goto.symbol = δ := by
  induction γ generalizing p places with
  | nil =>
    obtain rfl := reads_nil.1 hs
    obtain ⟨r, rest, -, hrest, rfl⟩ := trace?_cons_eq_some.1 h
    exact ⟨[], rest, rfl, symbols_trace? hrest⟩
  | cons Y γ ih =>
    obtain ⟨r, hr, hs⟩ := reads_cons.1 hs
    obtain ⟨r', rest, hr', hrest, rfl⟩ := trace?_cons_eq_some.1 h
    obtain rfl := Option.some.inj (hr.symm.trans hr')
    obtain ⟨before, after, rfl, hafter⟩ := ih hrest hs
    exact ⟨⟨p, Y⟩ :: before, after, rfl, hafter⟩

/-! ## Predecessors -/

theorem mem_states {c : Core} : (c, q) ∈ a.states ↔ q < a.size ∧ c = a.core q := by
  rw [states, List.mem_zipIdx_iff_getElem?, Array.getElem?_toList, Array.getElem?_eq_some_iff]
  show (∃ hq : q < a.cores.size, a.cores[q] = c) ↔ q < a.cores.size ∧ c = a.core q
  constructor
  · rintro ⟨hq, rfl⟩; exact ⟨hq, by simp [core, Array.getD, hq]⟩
  · rintro ⟨hq, rfl⟩; exact ⟨hq, by simp [core, Array.getD, hq]⟩

theorem mem_predecessorsOf :
    p ∈ a.predecessorsOf q ↔ p < a.size ∧ ∃ e ∈ (a.core p).edges, e.target = q := by
  simp only [predecessorsOf, List.mem_map, List.mem_filter, List.any_eq_true, decide_eq_true_eq]
  constructor
  · rintro ⟨⟨c, p⟩, ⟨hmem, h⟩, rfl⟩
    obtain ⟨hp, rfl⟩ := mem_states.1 hmem
    exact ⟨hp, h⟩
  · rintro ⟨hp, h⟩; exact ⟨(a.core p, p), ⟨mem_states.2 ⟨hp, rfl⟩, h⟩, rfl⟩

theorem nodup_predecessorsOf (a : Graph) (q : StateId) : (a.predecessorsOf q).Nodup := by
  refine List.Nodup.sublist (List.filter_sublist.map _) ?_
  rw [states, List.zipIdx_map_snd]
  exact List.nodup_range'

@[simp] theorem size_link (a : Graph) : a.link.size = a.size := by
  simp [link, size, states]

theorem core_link (a : Graph) (hq : q < a.size) :
    a.link.core q = { a.core q with predecessors := a.predecessorsOf q } := by
  have hq' : q < a.cores.size := hq
  simp [link, states, core, Array.getD, hq']

theorem core_of_size_le (a : Graph) (hq : a.size ≤ q) : a.core q = default := by
  have hq' : ¬ q < a.cores.size := Nat.not_lt_of_ge hq
  simp [core, Array.getD, hq']

theorem core_push (cores : Array Core) (c : Core) (q : StateId) :
    core ⟨cores.push c⟩ q = if q = cores.size then c else core ⟨cores⟩ q := by
  rcases Nat.lt_trichotomy q cores.size with h | rfl | h
  · simp [core, Array.getD, Nat.lt_succ_of_lt h, Nat.ne_of_lt h, h, Array.getElem_push_lt]
  · simp [core, Array.getD]
  · simp [core, Array.getD, Nat.ne_of_gt h, Nat.not_lt_of_gt h,
      Nat.not_lt_of_ge (Nat.succ_le_of_lt h)]

theorem core_modify (cores : Array Core) (q p : StateId) (f : Core → Core) :
    core ⟨cores.modify q f⟩ p =
      if p = q ∧ q < cores.size then f (core ⟨cores⟩ p) else core ⟨cores⟩ p := by
  by_cases hp : p < cores.size
  · by_cases hpq : q = p
    · subst hpq; simp [core, Array.getD, Array.getElem_modify, hp]
    · simp [core, Array.getD, Array.getElem_modify, hp, hpq, Ne.symm hpq]
  · have : ¬ (p = q ∧ q < cores.size) := by rintro ⟨rfl, h⟩; exact hp h
    simp [core, Array.getD, hp, this]

theorem kernel_link (a : Graph) (q : StateId) : (a.link.core q).kernel = (a.core q).kernel := by
  rcases Nat.lt_or_ge q a.size with hq | hq
  · rw [core_link a hq]
  · rw [core_of_size_le a hq, core_of_size_le _ (by simpa using hq)]

/-- The predecessors of every state are filled in. -/
def Linked (a : Graph) : Prop :=
  ∀ {p q}, q < a.size →
    (p ∈ (a.core q).predecessors ↔ p < a.size ∧ ∃ e ∈ (a.core p).edges, e.target = q)

theorem linked_link (a : Graph) : a.link.Linked := by
  intro p q hq
  rw [size_link] at hq ⊢
  rw [core_link a hq]
  show p ∈ a.predecessorsOf q ↔ _
  rw [mem_predecessorsOf]
  exact and_congr_right fun hp => by rw [core_link a hp]

/-! ## Graphs of items -/

/-- A graph whose states are kernels with their closures, joined by the symbols
    after the dots.  There may be several states with the same kernel. -/
structure OfItems (g : Grammar) (a : Graph) : Prop where
  start_lt : StateId.start < a.size
  kernel_start : (a.core StateId.start).kernel = [Item.start]
  closure_eq : ∀ {q}, q < a.size → (a.core q).closure = ItemSet.closure g (a.core q).kernel
  symbols_eq : ∀ {q}, q < a.size →
    (a.core q).edges.map Edge.symbol = ItemSet.nextSymbols g (a.core q).items
  target_lt : ∀ {q}, q < a.size → ∀ e ∈ (a.core q).edges, e.target < a.size
  kernel_target : ∀ {q}, q < a.size → ∀ e ∈ (a.core q).edges,
    (a.core e.target).kernel = ItemSet.step g (a.core q).kernel e.symbol

namespace OfItems

variable {g : Grammar} {e : Edge}

theorem items_eq (h : a.OfItems g) (hq : q < a.size) :
    (a.core q).items = (a.core q).kernel ++ ItemSet.closure g (a.core q).kernel := by
  rw [Core.items, h.closure_eq hq]

theorem nodup_symbols (h : a.OfItems g) (hq : q < a.size) :
    ((a.core q).edges.map Edge.symbol).Nodup := by
  rw [h.symbols_eq hq]
  exact (NatSet.pairwise_toList _).imp Nat.ne_of_lt

theorem exists_edge_iff (h : a.OfItems g) (hq : q < a.size) :
    (∃ e ∈ (a.core q).edges, e.symbol = X) ↔ ∃ i ∈ (a.core q).items, i.next? g = some X := by
  rw [← ItemSet.mem_nextSymbols, ← h.symbols_eq hq, List.mem_map]

theorem next?_edge (h : a.OfItems g) (hp : p < a.size) (he : e ∈ (a.core p).edges) :
    a.next? p e.symbol = some e.target := by
  have nodup := h.nodup_symbols hp
  have found : ((a.core p).edges.find? fun e' => e'.symbol = e.symbol) = some e := by
    generalize (a.core p).edges = edges at he nodup
    induction edges with
    | nil => simp at he
    | cons e' edges ih =>
      rw [List.map_cons, List.nodup_cons] at nodup
      rcases List.mem_cons.1 he with rfl | he
      · simp
      · have hne : e'.symbol ≠ e.symbol := fun heq => nodup.1 (heq ▸ List.mem_map_of_mem he)
        simpa [hne] using ih he nodup.2
  rw [next?, Core.next?, found]; rfl

theorem next?_eq_some_iff (h : a.OfItems g) (hp : p < a.size) :
    a.next? p X = some q ↔ ∃ e ∈ (a.core p).edges, e.symbol = X ∧ e.target = q := by
  constructor
  · intro hX
    obtain ⟨e, hfind, rfl⟩ := Option.map_eq_some_iff.1 hX
    exact ⟨e, List.mem_of_find?_eq_some hfind, by simpa using List.find?_some hfind, rfl⟩
  · rintro ⟨e, he, rfl, rfl⟩; exact h.next?_edge hp he

theorem exists_next?_iff (h : a.OfItems g) (hp : p < a.size) :
    (∃ q, a.next? p X = some q) ↔ ∃ i ∈ (a.core p).items, i.next? g = some X := by
  rw [← h.exists_edge_iff hp]
  constructor
  · rintro ⟨q, hq⟩
    obtain ⟨e, he, hX, -⟩ := (h.next?_eq_some_iff hp).1 hq
    exact ⟨e, he, hX⟩
  · rintro ⟨e, he, rfl⟩; exact ⟨e.target, h.next?_edge hp he⟩

theorem next?_kernel (h : a.OfItems g) (hp : p < a.size) (hq : a.next? p X = some q) :
    q < a.size ∧ (a.core q).kernel = ItemSet.step g (a.core p).kernel X := by
  obtain ⟨e, he, rfl, rfl⟩ := (h.next?_eq_some_iff hp).1 hq
  exact ⟨h.target_lt hp e he, h.kernel_target hp e he⟩

/-- A path from the start state ends in the kernel that its string reaches. -/
theorem reads_kernel (h : a.OfItems g) (hγ : a.Reads StateId.start γ q) :
    q < a.size ∧ (a.core q).kernel = ItemSet.reached g γ := by
  induction γ using List.reverseRecOn generalizing q with
  | nil => obtain rfl := reads_nil.1 hγ; exact ⟨h.start_lt, h.kernel_start⟩
  | append_singleton γ X ih =>
    obtain ⟨p, hp, hX⟩ := reads_snoc.1 hγ
    obtain ⟨hlt, hkernel⟩ := ih hp
    rw [ItemSet.reached_snoc, ← hkernel]
    exact h.next?_kernel hlt hX

/-- **States have the viable items.**  The state at the end of a path has the
    items that are viable after the string read. -/
theorem mem_items_iff (h : a.OfItems g) (wf : g.WellFormed) (hγ : a.Reads StateId.start γ q)
    {i : Item} : i ∈ (a.core q).items ↔ i.Viable g γ := by
  obtain ⟨hlt, hkernel⟩ := h.reads_kernel hγ
  rw [h.items_eq hlt, hkernel, ItemSet.mem_reached_iff wf]

/-- **Paths are the strings with viable items.** -/
theorem exists_reads_iff (h : a.OfItems g) (wf : g.WellFormed) :
    (∃ q, a.Reads StateId.start γ q) ↔ ∃ i : Item, i.Viable g γ := by
  induction γ using List.reverseRecOn with
  | nil => exact ⟨fun _ => ⟨_, .start⟩, fun _ => ⟨_, reads_nil.2 rfl⟩⟩
  | append_singleton γ X ih =>
    constructor
    · rintro ⟨q, hq⟩
      obtain ⟨p, hp, hX⟩ := reads_snoc.1 hq
      obtain ⟨i, hi, hnext⟩ := (h.exists_next?_iff (h.reads_kernel hp).1).1 ⟨q, hX⟩
      exact ⟨_, ((h.mem_items_iff wf hp).1 hi).read hnext⟩
    · rintro ⟨i, hi⟩
      obtain ⟨j, hj, hX, -⟩ := Item.viable_snoc_iff.1 hi
      obtain ⟨p, hp⟩ := ih.2 ⟨j, hj⟩
      obtain ⟨q, hq⟩ := (h.exists_next?_iff (h.reads_kernel hp).1).2
        ⟨j, (h.mem_items_iff wf hp).2 hj, hX⟩
      exact ⟨q, reads_snoc.2 ⟨p, hp, hq⟩⟩

theorem link (h : a.OfItems g) : a.link.OfItems g := by
  have kernel := kernel_link a
  have hcore : ∀ {q}, q < a.link.size → q < a.size ∧
      a.link.core q = { a.core q with predecessors := a.predecessorsOf q } := by
    intro q hq
    rw [size_link] at hq
    exact ⟨hq, core_link a hq⟩
  refine ⟨by rw [size_link]; exact h.start_lt, by rw [kernel]; exact h.kernel_start, ?_, ?_, ?_, ?_⟩ <;>
    intro q hq <;> obtain ⟨hq, heq⟩ := hcore hq <;> rw [heq]
  · exact h.closure_eq hq
  · exact h.symbols_eq hq
  · intro e he; rw [size_link]; exact h.target_lt hq e he
  · intro e he; rw [kernel]; exact h.kernel_target hq e he

end OfItems

end Graph

/-! ## Automata over graphs -/

namespace Automaton

variable {g : Grammar} {a : Graph}

@[simp] theorem graph_ofGraph (g : Grammar) (a : Graph) : (ofGraph g a).graph = a := by
  have : a.states.map Prod.fst = a.cores.toList := List.zipIdx_map_fst _ _
  cases a
  simp_all [graph, ofGraph, Function.comp_def, State.ofCore]

@[simp] theorem size_ofGraph (g : Grammar) (a : Graph) : (ofGraph g a).states.size = a.size := by
  simp [ofGraph, Graph.states, Graph.size]

theorem state_ofGraph (g : Grammar) (a : Graph) {q : StateId} (hq : q < a.size) :
    (ofGraph g a).state q = State.ofCore g (Lookaheads.compute g a).la (a.core q) q := by
  have hq' : q < a.cores.size := hq
  simp [state, ofGraph, Graph.states, Graph.core, Array.getD, hq']

theorem core_graph (a : Automaton) (q : StateId) : a.graph.core q = (a.state q).toCore := by
  by_cases hq : q < a.states.size
  · simp [Graph.core, graph, state, Array.getD, hq]
  · simp [Graph.core, graph, state, Array.getD, hq]; rfl

@[simp] theorem toCore_state (g : Grammar) (a : Graph) (q : StateId) :
    ((ofGraph g a).state q).toCore = a.core q := by
  rw [← core_graph, graph_ofGraph]

theorem mem_zipIdx_states {b : Automaton} {s : State} {q : StateId}
    (h : (s, q) ∈ b.states.toList.zipIdx) : q < b.states.size ∧ s = b.state q := by
  have hget := List.mem_zipIdx_iff_getElem?.1 h
  rw [Array.getElem?_toList] at hget
  exact ⟨(Array.getElem?_eq_some_iff.1 hget).1,
    by rw [state, Array.getD_eq_getD_getElem?, hget, Option.getD_some]⟩

/-- The greatest number of kernel items of a state. -/
def kernelWidth (b : Automaton) : Nat :=
  greatest (b.states.toList.map fun s => s.kernel.length)

theorem length_kernel_le (g : Grammar) {q : StateId} (hq : q < a.size) :
    (a.core q).kernel.length ≤ (ofGraph g a).kernelWidth := by
  refine le_greatest (List.mem_map.2 ⟨(ofGraph g a).state q, ?_, by rw [toCore_state]⟩)
  simp [state, Array.getD, hq]

/-- The transition function follows the paths of the graph. -/
theorem transition_eq_ok_iff (a : Automaton) {p q : StateId} {γ : List SymbolId} :
    a.transition p γ = .ok q ↔ a.graph.Reads p γ q := by
  induction γ generalizing p with
  | nil => simp [transition]
  | cons X γ ih =>
    rw [Graph.reads_cons, transition, Graph.next?, core_graph, state]
    by_cases hp : p < a.states.size
    · cases hX : a.states[p].next? X <;> simp [Array.getD, hp, hX, ih]
    · have : (default : State).next? X = none := rfl
      simp [Array.getD, hp, this]

end Automaton

end LRAutomata
