/-
  The walk through a system of set equations finds its least solution.

  `SetEquations.solve` bounds the depth of its walk.  The walk without a bound
  is the relation `Walk.Takes`: it ends for every system and every domain, in
  one state only, and `solve` answers with the values found there.

  * `mem_solve_iff`: the value of a node of the domain is the least solution;
  * `solve_least`: the keys are the nodes reachable from the domain, in the
    order of a depth-first search that lists a node when it is taken from the
    domain, and the targets of a node when it is entered (`Mentions`); every
    key has the union of what the nodes reachable from it start from.
-/
import LRAutomata.Data.OrderedSet
import LRAutomata.Proofs.Data.SetEquations

namespace LRAutomata

open Std Relation

/-! ## Sets that remember the order of their members -/

namespace OrderedSet

variable {α : Type} [Ord α] [TransOrd α] [LawfulEqOrd α]

instance : Membership α (OrderedSet α) := ⟨fun s a => a ∈ s.toList⟩

theorem mem_insert {s : OrderedSet α} {a b : α} : b ∈ s.insert a ↔ b = a ∨ b ∈ s :=
  OrderedMap.mem_keys_insert

theorem mem_foldl_insert {b : α} : ∀ (as : List α) (s : OrderedSet α),
    b ∈ as.foldl insert s ↔ b ∈ s ∨ b ∈ as
  | [], s => by simp
  | a :: as, s => by
    rw [List.foldl_cons, mem_foldl_insert as, mem_insert, List.mem_cons]
    exact ⟨fun h => by tauto, fun h => by tauto⟩

instance : LawfulUnion (OrderedSet α) where
  not_mem_empty _ h := by cases h
  mem_union {_ s t} := mem_foldl_insert t.toList s

end OrderedSet

namespace SetEquations

variable {κ ε α : Type}

/-! ## The order in which the nodes are listed -/

theorem eraseDups_concat [DecidableEq κ] (ls : List κ) (x : κ) :
    (ls ++ [x]).eraseDups = if x ∈ ls then ls.eraseDups else ls.eraseDups ++ [x] := by
  rw [List.eraseDups_append, List.removeAll]
  by_cases hx : x ∈ ls <;> simp [hx, List.eraseDups_cons]

variable [Ord κ] {eqs : SetEquations κ α}

/-- A depth-first search without values.  Of the nodes `ys`, gone to one after
    the other, those that have not been entered are entered: the targets are
    listed, and gone to before the search goes on. -/
inductive Explores (eqs : SetEquations κ α) :
    (entered ys entered' listed : List κ) → Prop where
  | nil (es : List κ) : Explores eqs es [] es []
  | known {es es' ys ls : List κ} {y : κ} :
    y ∈ es → Explores eqs es ys es' ls → Explores eqs es (y :: ys) es' ls
  | enter {es es₁ es' ys ls ls' : List κ} {y : κ} :
    y ∉ es → Explores eqs (y :: es) (eqs.targets y) es₁ ls → Explores eqs es₁ ys es' ls' →
      Explores eqs es (y :: ys) es' (eqs.targets y ++ ls ++ ls')

/-- The nodes in the order in which they are listed, again and again: a node
    when it is taken from the domain, the targets of a node when it is entered. -/
inductive Mentions (eqs : SetEquations κ α) : (entered domain listed : List κ) → Prop where
  | nil (es : List κ) : Mentions eqs es [] []
  | take {es es₁ xs ls ls' : List κ} {x : κ} :
    Explores eqs es [x] es₁ ls → Mentions eqs es₁ xs ls' → Mentions eqs es (x :: xs) (x :: ls ++ ls')

section Mentions
variable {es es' es₁ es₂ ys xs ls ls₁ ls₂ : List κ}

theorem Explores.unique (h : Explores eqs es ys es₁ ls₁) :
    Explores eqs es ys es₂ ls₂ → es₂ = es₁ ∧ ls₂ = ls₁ := by
  induction h generalizing es₂ ls₂ with
  | nil => rintro ⟨⟩; exact ⟨rfl, rfl⟩
  | known hy _ ih =>
    intro h'
    cases h' with
    | known _ h => exact ih h
    | enter hy' => exact absurd hy hy'
  | enter hy _ _ ih₁ ih₂ =>
    intro h'
    cases h' with
    | known hy' => exact absurd hy' hy
    | enter _ h₁ h₂ =>
      obtain ⟨rfl, rfl⟩ := ih₁ h₁
      obtain ⟨rfl, rfl⟩ := ih₂ h₂
      exact ⟨rfl, rfl⟩

theorem Mentions.unique (h : Mentions eqs es xs ls₁) : Mentions eqs es xs ls₂ → ls₂ = ls₁ := by
  induction h generalizing ls₂ with
  | nil => rintro ⟨⟩; rfl
  | take h _ ih =>
    rintro (_ | ⟨h', hrest⟩)
    obtain ⟨rfl, rfl⟩ := h.unique h'
    rw [ih hrest]

/-- What is listed is reached from the nodes gone to. -/
theorem Explores.reaches (h : Explores eqs es ys es' ls) :
    ∀ z ∈ ls, ∃ y ∈ ys, eqs.Reaches y z := by
  induction h with
  | nil => simp
  | known _ _ ih =>
    intro z hz
    obtain ⟨y, hy, hreach⟩ := ih z hz
    exact ⟨y, by simp [hy], hreach⟩
  | @enter _ _ _ _ _ _ y _ _ _ ih₁ ih₂ =>
    intro z hz
    rcases List.mem_append.1 hz with hz | hz
    · rcases List.mem_append.1 hz with hz | hz
      · exact ⟨y, by simp, .single hz⟩
      · obtain ⟨u, hu, hreach⟩ := ih₁ z hz
        exact ⟨y, by simp, ReflTransGen.head hu hreach⟩
    · obtain ⟨u, hu, hreach⟩ := ih₂ z hz
      exact ⟨u, by simp [hu], hreach⟩

theorem Mentions.reaches (h : Mentions eqs es xs ls) : ∀ z ∈ ls, ∃ x ∈ xs, eqs.Reaches x z := by
  induction h with
  | nil => simp
  | @take _ _ _ _ _ x h _ ih =>
    intro z hz
    rcases List.mem_append.1 hz with hz | hz
    · rcases List.mem_cons.1 hz with rfl | hz
      · exact ⟨z, by simp, .refl⟩
      · obtain ⟨u, hu, hreach⟩ := h.reaches z hz
        obtain rfl := List.mem_singleton.1 hu
        exact ⟨u, by simp, hreach⟩
    · obtain ⟨u, hu, hreach⟩ := ih z hz
      exact ⟨u, by simp [hu], hreach⟩

end Mentions

/-! ## Nodes and fresh nodes -/

open Walk

/-- The nodes that the walk can meet. -/
def nodes (eqs : SetEquations κ α) (domain : List κ) : List κ :=
  domain ++ eqs.edges.values.flatten

theorem target_mem_nodes [TransOrd κ] (eqs : SetEquations κ α) (domain : List κ) {y z : κ}
    (hz : z ∈ eqs.targets y) : z ∈ eqs.nodes domain := by
  rw [targets, OrderedMap.getD] at hz
  cases hget : eqs.edges.get? y with
  | none => rw [hget] at hz; cases hz
  | some ts =>
    rw [hget] at hz
    exact List.mem_append_right _ (List.mem_flatten.2 ⟨ts, OrderedMap.mem_values.2 ⟨y, hget⟩, hz⟩)

theorem length_nodes (eqs : SetEquations κ α) (domain : List κ) :
    (eqs.nodes domain).length = eqs.nodeBound domain := by
  have flatten : ∀ ls : List (List κ), ls.flatten.length = total (ls.map List.length) := by
    intro ls
    induction ls with
    | nil => rfl
    | cons l ls ih => rw [List.flatten_cons, List.length_append, ih]; rfl
  rw [nodes, List.length_append, flatten, nodeBound]

variable [Membership ε α] [EmptyCollection α] {w w' w₀ w₁ : Walk κ α} {x y : κ}
variable {xs ys es ls : List κ}

theorem mem_start_iff [Union α] [LawfulUnion α] {e : ε} :
    e ∈ eqs.start x ↔ ∃ s, eqs.base.get? x = some s ∧ e ∈ s := by
  rw [start, OrderedMap.getD]
  cases eqs.base.get? x with
  | none => simpa using LawfulUnion.not_mem_empty e
  | some s => simp

/-- How many of the nodes listed are fresh. -/
def freshCount (nodes : List κ) (w : Walk κ α) : Nat :=
  (nodes.filter fun y => (w.cell y).mark = .fresh).length

theorem freshCount_lt {nodes : List κ} (hx : x ∈ nodes) (hfresh : (w₀.cell x).mark = .fresh)
    (hx' : (w.cell x).mark ≠ .fresh)
    (hold : ∀ {y}, (w₀.cell y).mark ≠ .fresh → w.cell y = w₀.cell y) :
    freshCount nodes w < freshCount nodes w₀ := by
  have filter : nodes.filter (fun y => (w.cell y).mark = .fresh) =
      (nodes.filter fun y => (w₀.cell y).mark = .fresh).filter fun y => (w.cell y).mark = .fresh := by
    rw [List.filter_filter]
    refine List.filter_congr fun y _ => ?_
    by_cases hy : (w₀.cell y).mark = .fresh
    · simp [hy]
    · simp [hold hy, hy]
  rw [freshCount, filter]
  exact List.length_filter_lt_length_iff_exists.2 ⟨x, by simp [hx, hfresh], by simpa using hx'⟩

/-! ## Between the nodes of the domain -/

/-- Visiting a node while none is open closes it. -/
theorem Walk.Visited.closed (h : Visited eqs w₀ x w) (hopens : w₀.opens = []) :
    (w.cell x).mark = .closed ∧ w.opens = [] := by
  obtain ⟨new, heq, hnew⟩ := h.opens
  rw [hopens, List.append_nil] at heq
  cases hmark : (w.cell x).mark with
  | fresh => exact absurd hmark h.left
  | closed =>
    refine ⟨rfl, ?_⟩
    rw [heq]
    cases new with
    | nil => rfl
    | cons y new =>
      obtain ⟨-, low, -, hlow, -⟩ := (hnew y (by simp)).2
      rw [hmark] at hlow; cases hlow
  | opened low =>
    -- The node at depth `low` would have to reach a node before it.
    obtain ⟨z, hz, -⟩ := h.sound.low hmark
    obtain ⟨⟨⟨l, depth, hl, hdepth, hlt⟩, -⟩, -, l₁, l₂, h₁, h₂, hle⟩ := hnew z (by rw [← heq]; exact hz.mem)
    obtain rfl := Level.unique h.sound.nodup hz hdepth
    obtain rfl := Mark.opened.inj (hmark.symm.trans h₁)
    obtain rfl := Mark.opened.inj (hl.symm.trans h₂)
    exact absurd (Nat.lt_of_lt_of_le hlt hle) (Nat.lt_irrefl _)

/-- The walk before and between visits of the nodes of the domain. -/
structure Idle (eqs : SetEquations κ α) (done : List κ) (w : Walk κ α) : Prop where
  sound : w.Sound eqs
  opens : w.opens = []
  closed : ∀ x ∈ done, (w.cell x).mark = .closed

/-- While no node is open, the nodes that are not fresh are closed. -/
theorem Idle.known {done : List κ} (h : Idle eqs done w) (hx : (w.cell x).mark ≠ .fresh) :
    Idle eqs (x :: done) w := by
  refine ⟨h.sound, h.opens, fun y hy => ?_⟩
  rcases List.mem_cons.1 hy with rfl | hy
  · cases hmark : (w.cell y).mark with
    | fresh => exact absurd hmark hx
    | closed => rfl
    | opened low =>
      have := h.sound.opened_iff.2 ⟨low, hmark⟩
      rw [h.opens] at this; cases this
  · exact h.closed y hy

variable [TransOrd κ]

theorem idle_empty : Idle eqs [] ⟨∅, []⟩ := by
  have cell : ∀ y, (⟨∅, []⟩ : Walk κ α).cell y = ⟨.fresh, ∅⟩ := fun y =>
    OrderedMap.getD_of_not_mem (by simp)
  refine ⟨?_, rfl, by simp⟩
  constructor
  case nodup => exact .nil
  case opened_iff => intro y; rw [cell]; simp
  case fresh_value => intro y hy; simp at hy
  case closed_targets | closed_value => intro y hy; rw [cell] at hy; cases hy
  case start_subset | contains => intro y hy; cases hy
  case low => intro y low hy; rw [cell] at hy; cases hy
  case low_le => intro y low depth _ hy; rw [cell] at hy; cases hy

variable [LawfulEqOrd κ] [DecidableEq κ]

theorem Idle.meet {done : List κ} (h : Idle eqs done w) (x : κ) : Idle eqs done (w.meet eqs x) := by
  have hm := meets_meet eqs w x
  refine ⟨h.sound.meets hm, hm.opens.trans h.opens, fun y hy => ?_⟩
  rw [hm.mark_eq]; exact h.closed y hy

/-! ## What the walk has met -/

namespace Walk

/-- The search without values has come as far as the walk: it has entered the
    same nodes, and the walk has met what it has listed. -/
structure Tracks (w : Walk κ α) (entered listed : List κ) : Prop where
  entered_iff : ∀ {y}, y ∈ entered ↔ (w.cell y).mark ≠ .fresh
  keys_eq : w.cells.keys = listed.eraseDups

theorem Tracks.meet (h : w.Tracks es ls) (eqs : SetEquations κ α) (x : κ) : (w.meet eqs x).Tracks es (ls ++ [x]) := by
  refine ⟨fun {y} => by rw [(meets_meet eqs w x).mark_eq]; exact h.entered_iff, ?_⟩
  have hx : x ∈ w.cells.keys ↔ x ∈ ls := by rw [h.keys_eq, List.mem_eraseDups]
  rw [eraseDups_concat, ← h.keys_eq, Walk.meet]
  by_cases hmem : x ∈ ls
  · rw [if_pos hmem, if_pos (OrderedMap.contains_iff.2 (hx.2 hmem))]
  · have hnew : ¬ w.cells.contains x := fun hc => hmem (hx.1 (OrderedMap.contains_iff.1 hc))
    rw [if_neg hmem, if_neg hnew]
    show (w.cells.insert x _).keys = _
    rw [OrderedMap.keys_insert, if_neg hnew]

theorem Tracks.foldl_meet (h : w.Tracks es ls) (ys : List κ) :
    (ys.foldl (Walk.meet eqs) w).Tracks es (ls ++ ys) := by
  induction ys generalizing w ls with
  | nil => rw [List.append_nil]; exact h
  | cons y ys ih =>
    rw [List.foldl_cons, List.append_cons]
    exact ih (h.meet eqs y)

theorem Tracks.enter (h : w.Tracks es ls) (hx : x ∈ w.cells.keys) :
    (w.enter eqs x).Tracks (x :: es) (ls ++ eqs.targets x) := by
  rw [enter_eq]
  refine foldl_meet ⟨fun {y} => ?_, ?_⟩ _
  · rw [List.mem_cons, cell_opening]
    by_cases hy : y = x
    · subst hy; simp
    · rw [if_neg (Ne.symm hy), or_iff_right hy]; exact h.entered_iff
  · exact (OrderedMap.keys_insert_of_mem hx _).trans h.keys_eq

omit [DecidableEq κ] [EmptyCollection α] in
theorem keys_closing (opens₀ : List κ) (v : α) : ∀ (members : List κ) (w : Walk κ α),
    (∀ y ∈ members, y ∈ w.cells.keys) → (w.closing members opens₀ v).cells.keys = w.cells.keys
  | [], _, _ => rfl
  | y :: members, w, h => by
    have hy := OrderedMap.keys_insert_of_mem (h y (by simp)) (⟨.closed, v⟩ : Cell α)
    have ih := keys_closing opens₀ v members
      ⟨w.cells.insert y ⟨.closed, v⟩, w.opens⟩ fun z hz => hy.symm ▸ h z (by simp [hz])
    exact ih.trans hy

theorem Tracks.leave (h : w.Tracks es ls) (hw : w.Sound eqs) (hx : x ∈ w.opens) (depth : Nat) :
    (w.leave x depth).Tracks es ls := by
  rw [leave_eq]
  split
  · have known : ∀ y ∈ w.opens.takeWhile (· ≠ x) ++ [x], (w.cell y).mark ≠ .fresh := by
      intro y hy
      have hmem : y ∈ w.opens := by
        rcases List.mem_append.1 hy with hy | hy
        · exact (List.takeWhile_sublist _).subset hy
        · exact List.mem_singleton.1 hy ▸ hx
      obtain ⟨low, hlow⟩ := hw.opened_iff.1 hmem
      simp [hlow]
    refine ⟨fun {y} => ?_, ?_⟩
    · rw [cell_closing, h.entered_iff]
      split
      · rename_i hy
        simpa using known y hy
      · exact Iff.rfl
    · rw [keys_closing _ _ _ _ fun y hy => mem_keys_of_mark_ne (known y hy), h.keys_eq]
  · exact h

variable [Union α]

/-! ## The walk without a bound of the depth -/

/-- The targets `ys` of the open node `x` are absorbed one after the other; one
    that is fresh is visited before. -/
inductive Absorbs (eqs : SetEquations κ α) : Walk κ α → κ → List κ → Walk κ α → Prop where
  | nil (w : Walk κ α) (x : κ) : Absorbs eqs w x [] w
  | known {w w' : Walk κ α} {x y : κ} {ys : List κ} :
    (w.cell y).mark ≠ .fresh → Absorbs eqs (w.absorb x y) x ys w' → Absorbs eqs w x (y :: ys) w'
  | fresh {w w₁ w' : Walk κ α} {x y : κ} {ys : List κ} :
    (w.cell y).mark = .fresh → Absorbs eqs (w.enter eqs y) y (eqs.targets y) w₁ →
      Absorbs eqs ((w₁.leave y (w.opens.length + 1)).absorb x y) x ys w' →
        Absorbs eqs w x (y :: ys) w'

/-- The node is entered, its targets are absorbed, and it is left. -/
def Visits (eqs : SetEquations κ α) (w : Walk κ α) (x : κ) (w' : Walk κ α) : Prop :=
  ∃ inside, Absorbs eqs (w.enter eqs x) x (eqs.targets x) inside ∧
    w' = inside.leave x (w.opens.length + 1)

/-- The nodes `xs` are taken from the domain one after the other; one that is
    fresh is visited. -/
inductive Takes (eqs : SetEquations κ α) : Walk κ α → List κ → Walk κ α → Prop where
  | nil (w : Walk κ α) : Takes eqs w [] w
  | known {w w' : Walk κ α} {x : κ} {xs : List κ} :
    ((w.meet eqs x).cell x).mark ≠ .fresh → Takes eqs (w.meet eqs x) xs w' →
      Takes eqs w (x :: xs) w'
  | fresh {w w₁ w' : Walk κ α} {x : κ} {xs : List κ} :
    ((w.meet eqs x).cell x).mark = .fresh → Visits eqs (w.meet eqs x) x w₁ →
      Takes eqs w₁ xs w' → Takes eqs w (x :: xs) w'

theorem Absorbs.unique (h : Absorbs eqs w x ys w₁) : Absorbs eqs w x ys w' → w' = w₁ := by
  induction h generalizing w' with
  | nil => rintro ⟨⟩; rfl
  | known hmark _ ih =>
    intro h'
    cases h' with
    | known _ h => exact ih h
    | fresh hfresh => exact absurd hfresh hmark
  | fresh hfresh _ _ ih₁ ih₂ =>
    intro h'
    cases h' with
    | known hmark => exact absurd hfresh hmark
    | fresh _ h₁ h₂ => obtain rfl := ih₁ h₁; exact ih₂ h₂

theorem Visits.unique (h : Visits eqs w x w₁) (h' : Visits eqs w x w') : w' = w₁ := by
  obtain ⟨_, h, rfl⟩ := h
  obtain ⟨_, h', rfl⟩ := h'
  rw [h.unique h']

theorem Takes.unique (h : Takes eqs w xs w₁) : Takes eqs w xs w' → w' = w₁ := by
  induction h with
  | nil => rintro ⟨⟩; rfl
  | known hmark _ ih =>
    intro h'
    cases h' with
    | known _ h => exact ih h
    | fresh hfresh => exact absurd hfresh hmark
  | fresh hfresh hv _ ih =>
    intro h'
    cases h' with
    | known hmark => exact absurd hfresh hmark
    | fresh _ hv' h => obtain rfl := hv.unique hv'; exact ih h

end Walk

variable [Union α] [LawfulUnion α]

/-! ## What the walk keeps -/

namespace Walk

theorem Absorbs.inside (h : Absorbs eqs w x ys w') {done : List κ}
    (hw : Inside eqs w₀ x done w) (hys : ∀ y ∈ ys, y ∈ eqs.targets x) :
    Inside eqs w₀ x (ys.reverse ++ done) w' := by
  induction h generalizing w₀ done with
  | nil => exact hw
  | @known w w' x y ys hmark _ ih =>
    rw [List.reverse_cons, List.append_assoc, List.singleton_append]
    exact ih (hw.absorb (hys y (by simp)) (.refl hw.sound hmark)) fun z hz => hys z (by simp [hz])
  | @fresh w w₁ w' x y ys hfresh _ _ ih₁ ih₂ =>
    have hy := hys y (by simp)
    have inside := ih₁ (inside_enter hw.sound (hw.met y hy) hfresh) fun _ h => h
    have visited := Inside.leave hw.sound (inside.of_subset fun z hz => by simp [hz])
    rw [List.reverse_cons, List.append_assoc, List.singleton_append]
    exact ih₂ (hw.absorb hy visited) fun z hz => hys z (by simp [hz])

theorem Visits.visited (h : Visits eqs w₀ x w) (h₀ : w₀.Sound eqs) (hx : x ∈ w₀.cells.keys)
    (hfresh : (w₀.cell x).mark = .fresh) : Visited eqs w₀ x w := by
  obtain ⟨w₁, h, rfl⟩ := h
  have inside := h.inside (inside_enter h₀ hx hfresh) fun _ h => h
  exact Inside.leave h₀ (inside.of_subset fun z hz => by simp [hz])

end Walk

theorem Idle.visits {done : List κ} (h : Idle eqs done w) (hx : x ∈ w.cells.keys)
    (hfresh : (w.cell x).mark = .fresh) (hv : Visits eqs w x w') : Idle eqs (x :: done) w' := by
  have visited := hv.visited h.sound hx hfresh
  obtain ⟨hclosed, hopens⟩ := visited.closed h.opens
  refine ⟨visited.sound, hopens, fun y hy => ?_⟩
  rcases List.mem_cons.1 hy with rfl | hy
  · exact hclosed
  · have old := h.closed y hy
    rw [visited.old (by rw [old]; exact nofun)]; exact old

theorem Walk.Takes.idle {xs : List κ} (h : Takes eqs w xs w') {done : List κ}
    (hw : Idle eqs done w) : Idle eqs (xs.reverse ++ done) w' := by
  induction h generalizing done with
  | nil => exact hw
  | @known w w' x xs hmark _ ih =>
    rw [List.reverse_cons, List.append_assoc, List.singleton_append]
    exact ih ((hw.meet x).known hmark)
  | @fresh w w₁ w' x xs hfresh hv _ ih =>
    rw [List.reverse_cons, List.append_assoc, List.singleton_append]
    exact ih ((hw.meet x).visits (mem_keys_meet w x) hfresh hv)

/-! ## The bound of the depth is never reached -/

/-- A visit ends if it may go as deep as there are fresh nodes. -/
theorem visits_visit (nodes : List κ) (hnodes : ∀ y ∈ nodes, ∀ z ∈ eqs.targets y, z ∈ nodes) :
    ∀ (levels : Nat) {w₀ : Walk κ α} {x : κ}, w₀.Sound eqs → x ∈ nodes → x ∈ w₀.cells.keys →
      (w₀.cell x).mark = .fresh → freshCount nodes w₀ ≤ levels →
        Visits eqs w₀ x (eqs.visit levels w₀ x)
  | 0, w₀, x, _, hx, _, hfresh, hlevels => by
    have hempty := List.length_eq_zero_iff.1 (Nat.le_zero.1 hlevels)
    have : x ∈ nodes.filter fun y => (w₀.cell y).mark = .fresh := by simp [hx, hfresh]
    rw [hempty] at this; cases this
  | levels + 1, w₀, x, h₀, hx, hkey, hfresh, hlevels => by
    -- The targets are absorbed one after the other; each visit has a fresh node less.
    have loop : ∀ (ys done : List κ) (w : Walk κ α), (∀ y ∈ ys, y ∈ eqs.targets x) →
        Inside eqs w₀ x done w →
        Absorbs eqs w x ys (ys.foldl (fun w y =>
          if (w.cell y).mark = .fresh then (eqs.visit levels w y).absorb x y else w.absorb x y) w) := by
      intro ys
      induction ys with
      | nil => intro done w _ _; exact .nil w x
      | cons y ys ih =>
        intro done w hys h
        have hy := hys y (by simp)
        have hys' : ∀ z ∈ ys, z ∈ eqs.targets x := fun z hz => hys z (by simp [hz])
        rw [List.foldl_cons]
        split
        · rename_i hmark
          obtain ⟨low, hlow⟩ := h.opened
          have hlt := freshCount_lt hx hfresh (by rw [hlow]; exact nofun) h.old
          have hv := visits_visit nodes hnodes levels h.sound (hnodes x hx y hy) (h.met y hy) hmark
            (Nat.le_of_lt_succ (Nat.lt_of_lt_of_le hlt hlevels))
          have rest := ih _ _ hys' (h.absorb hy (hv.visited h.sound (h.met y hy) hmark))
          obtain ⟨inside, habs, heq⟩ := hv
          exact .fresh hmark habs (by rw [← heq]; exact rest)
        · rename_i hmark
          exact .known hmark (ih _ _ hys' (h.absorb hy (.refl h.sound hmark)))
    exact ⟨_, loop (eqs.targets x) [] _ (fun _ hy => hy) (inside_enter h₀ hkey hfresh), rfl⟩

/-- The walk from the nodes of the domain. -/
def wholeWalk (eqs : SetEquations κ α) (domain : List κ) : Walk κ α :=
  domain.foldl (fun w x =>
    let w := w.meet eqs x
    if (w.cell x).mark = .fresh then eqs.visit (eqs.nodeBound domain + 1) w x else w) ⟨∅, []⟩

include ε in
/-- **The walk ends** without a bound of the depth, in the state that `solve` reads. -/
theorem takes_wholeWalk (eqs : SetEquations κ α) (domain : List κ) :
    Takes eqs ⟨∅, []⟩ domain (eqs.wholeWalk domain) := by
  have loop : ∀ (xs done : List κ) (w : Walk κ α), (∀ x ∈ xs, x ∈ domain) → Idle eqs done w →
      Takes eqs w xs (xs.foldl (fun w x =>
        let w := w.meet eqs x
        if (w.cell x).mark = .fresh then eqs.visit (eqs.nodeBound domain + 1) w x else w) w) := by
    intro xs
    induction xs with
    | nil => intro done w _ _; exact .nil w
    | cons x xs ih =>
      intro done w hxs h
      have hxs' : ∀ z ∈ xs, z ∈ domain := fun z hz => hxs z (by simp [hz])
      have hmet := h.meet x
      rw [List.foldl_cons]
      by_cases hfresh : ((w.meet eqs x).cell x).mark = .fresh
      · have hv := visits_visit (eqs.nodes domain) (fun _ _ _ => target_mem_nodes eqs domain)
          (eqs.nodeBound domain + 1) hmet.sound (List.mem_append_left _ (hxs x (by simp)))
          (mem_keys_meet w x) hfresh
          (Nat.le_succ_of_le (by rw [← length_nodes]; exact List.length_filter_le _ _))
        simp only [if_pos hfresh]
        exact .fresh hfresh hv (ih _ _ hxs' (hmet.visits (mem_keys_meet w x) hfresh hv))
      · simp only [if_neg hfresh]
        exact .known hfresh (ih _ _ hxs' (hmet.known hfresh))
  exact loop domain [] ⟨∅, []⟩ (fun _ h => h) idle_empty

theorem idle_wholeWalk (eqs : SetEquations κ α) (domain : List κ) :
    Idle eqs domain.reverse (eqs.wholeWalk domain) := by
  have idle := (takes_wholeWalk eqs domain).idle idle_empty
  rwa [List.append_nil] at idle

/-! ## Values of the nodes of the domain -/

theorem getD_solve (eqs : SetEquations κ α) (domain : List κ) (x : κ) :
    (eqs.solve domain).getD x ∅ = ((eqs.wholeWalk domain).cell x).value := by
  show ((eqs.wholeWalk domain).cells.map Cell.value).getD x ∅ = _
  rw [OrderedMap.getD, OrderedMap.get?_map, Walk.cell, OrderedMap.getD]
  cases OrderedMap.get? _ x <;> rfl

/-- **The least solution is found.**  The value of a node of the domain has the
    numbers with which a node reachable from it starts. -/
theorem mem_solve_iff (eqs : SetEquations κ α) {domain : List κ} {x : κ} (hx : x ∈ domain)
    {e : ε} : e ∈ (eqs.solve domain).getD x ∅ ↔ eqs.Contains x e := by
  have idle := idle_wholeWalk eqs domain
  rw [getD_solve, idle.sound.closed_value (idle.closed x (by simpa using hx)) e]

/-- No value has anything but the least solution, also outside of the domain. -/
theorem contains_of_mem_solve (eqs : SetEquations κ α) {domain : List κ} {x : κ} {e : ε}
    (hn : e ∈ (eqs.solve domain).getD x ∅) : eqs.Contains x e := by
  have idle := idle_wholeWalk eqs domain
  rw [getD_solve] at hn
  cases hmark : ((eqs.wholeWalk domain).cell x).mark with
  | closed => exact (idle.sound.closed_value hmark e).1 hn
  | opened low =>
    have := idle.sound.opened_iff.2 ⟨low, hmark⟩
    rw [idle.opens] at this; cases this
  | fresh =>
    by_cases hkey : x ∈ (eqs.wholeWalk domain).cells.keys
    · rw [idle.sound.fresh_value hkey hmark] at hn; exact ⟨x, .refl, hn⟩
    · rw [Walk.cell, OrderedMap.getD_of_not_mem hkey] at hn
      exact absurd hn (LawfulUnion.not_mem_empty e)

/-! ## The walk meets the nodes in order -/

namespace Walk

include ε in
theorem Tracks.absorb (h : w.Tracks es ls) {low : Nat} (hlow : (w.cell x).mark = .opened low)
    (y : κ) : (w.absorb x y).Tracks es ls := by
  have hr := raises_absorb hlow y
  have hx : (w.cell x).mark ≠ .fresh := by rw [hlow]; exact nofun
  refine ⟨fun {z} => ?_, ?_⟩
  · rw [h.entered_iff]
    by_cases hz : z = x
    · subst hz
      obtain ⟨_, low', _, hlow', _⟩ := hr.low
      rw [hlow']; exact ⟨fun _ => nofun, fun _ => hx⟩
    · rw [hr.cell_eq hz]
  · exact (OrderedMap.keys_insert_of_mem (mem_keys_of_mark_ne hx) _).trans h.keys_eq

theorem Absorbs.tracks {ys : List κ} (h : Absorbs eqs w x ys w') {done : List κ}
    (hw : Inside eqs w₀ x done w) (hys : ∀ y ∈ ys, y ∈ eqs.targets x) (hf : w.Tracks es ls) :
    ∃ es' ls', Explores eqs es ys es' ls' ∧ w'.Tracks es' (ls ++ ls') := by
  induction h generalizing w₀ done es ls with
  | nil => exact ⟨es, [], .nil es, by rwa [List.append_nil]⟩
  | @known w w' x y ys hmark _ ih =>
    have hy := hys y (by simp)
    obtain ⟨low, hlow⟩ := hw.opened
    obtain ⟨es', ls', hex, hf'⟩ := ih (hw.absorb hy (.refl hw.sound hmark))
      (fun z hz => hys z (by simp [hz])) (hf.absorb hlow y)
    exact ⟨es', ls', .known (hf.entered_iff.2 hmark) hex, hf'⟩
  | @fresh w w₁ w' x y ys hfresh habs _ ih₁ ih₂ =>
    have hy := hys y (by simp)
    have entered := inside_enter hw.sound (hw.met y hy) hfresh
    have inside := habs.inside entered fun _ h => h
    have visited := Visits.visited ⟨w₁, habs, rfl⟩ hw.sound (hw.met y hy) hfresh
    -- The node is left while it is open, and its parent is still open then.
    have hopen : y ∈ w₁.opens := inside.sound.opened_iff.2 inside.opened
    have absorbed := hw.absorb hy visited
    obtain ⟨low, hlow⟩ := hw.opened
    have hlow' := visited.old (y := x) (by rw [hlow]; exact nofun)
    obtain ⟨es₁, ls₁, hex₁, hf₁⟩ := ih₁ entered (fun _ h => h) (hf.enter (hw.met y hy))
    obtain ⟨es', ls', hex', hf'⟩ := ih₂ absorbed (fun z hz => hys z (by simp [hz]))
      ((hf₁.leave inside.sound hopen _).absorb (by rw [hlow', hlow]) y)
    refine ⟨es', _, .enter (fun hmem => hf.entered_iff.1 hmem hfresh) hex₁ hex', ?_⟩
    simpa only [List.append_assoc] using hf'

theorem Visits.tracks (h : Visits eqs w x w') (hw : w.Sound eqs) (hx : x ∈ w.cells.keys)
    (hfresh : (w.cell x).mark = .fresh) (hf : w.Tracks es ls) :
    ∃ es' ls', Explores eqs es [x] es' ls' ∧ w'.Tracks es' (ls ++ ls') := by
  obtain ⟨w₁, habs, rfl⟩ := h
  have entered := inside_enter hw hx hfresh
  have inside := habs.inside entered fun _ h => h
  obtain ⟨es₁, ls₁, hex, hf₁⟩ := habs.tracks entered (fun _ h => h) (hf.enter hx)
  refine ⟨es₁, _, .enter (fun hmem => hf.entered_iff.1 hmem hfresh) hex (.nil es₁), ?_⟩
  rw [List.append_nil, ← List.append_assoc]
  exact hf₁.leave inside.sound (inside.sound.opened_iff.2 inside.opened) _

theorem Takes.tracks {xs : List κ} (h : Takes eqs w xs w') {done : List κ}
    (hw : Idle eqs done w) (hf : w.Tracks es ls) :
    ∃ es' ls', Mentions eqs es xs ls' ∧ w'.Tracks es' (ls ++ ls') := by
  induction h generalizing done es ls with
  | nil => exact ⟨es, [], .nil es, by rwa [List.append_nil]⟩
  | @known w w' x xs hmark _ ih =>
    have hmet := hf.meet eqs x
    obtain ⟨es', ls', hm, hf'⟩ := ih ((hw.meet x).known hmark) hmet
    refine ⟨es', _, .take (.known (hmet.entered_iff.2 hmark) (.nil es)) hm, ?_⟩
    simpa only [List.append_assoc] using hf'
  | @fresh w w₁ w' x xs hfresh hv _ ih =>
    have hmet := hf.meet eqs x
    have hx : x ∈ (w.meet eqs x).cells.keys := mem_keys_meet w x
    obtain ⟨es₁, ls₁, hex, hf₁⟩ := hv.tracks (hw.meet x).sound hx hfresh hmet
    obtain ⟨es', ls', hm, hf'⟩ := ih ((hw.meet x).visits hx hfresh hv) hf₁
    refine ⟨es', _, .take hex hm, ?_⟩
    simpa only [List.append_assoc, List.nil_append, List.cons_append] using hf'

end Walk

/-! ## The least solution -/

theorem keys_solve (eqs : SetEquations κ α) (domain : List κ) :
    (eqs.solve domain).keys = (eqs.wholeWalk domain).cells.keys := rfl

include ε in
/-- The keys come in the order in which they are listed. -/
theorem exists_mentions (eqs : SetEquations κ α) (domain : List κ) :
    ∃ ls, Mentions eqs [] domain ls ∧ (eqs.solve domain).keys = ls.eraseDups := by
  have start : (⟨∅, []⟩ : Walk κ α).Tracks [] [] := by
    refine ⟨fun {y} => ?_, rfl⟩
    rw [Walk.cell, OrderedMap.getD_of_not_mem (by simp)]; simp
  obtain ⟨_, ls, hm, hf⟩ := (takes_wholeWalk eqs domain).tracks idle_empty start
  exact ⟨ls, hm, hf.keys_eq⟩

include ε in
/-- What is reached from the domain is closed. -/
theorem closed_wholeWalk (eqs : SetEquations κ α) {domain : List κ} {d x : κ} (hd : d ∈ domain)
    (hx : eqs.Reaches d x) : ((eqs.wholeWalk domain).cell x).mark = .closed := by
  have idle := idle_wholeWalk eqs domain
  induction hx with
  | refl => exact idle.closed d (by simpa using hd)
  | tail _ hstep ih => exact idle.sound.closed_targets ih _ hstep

include ε in
/-- The keys are the nodes reachable from the domain. -/
theorem mem_keys_solve_iff (eqs : SetEquations κ α) {domain : List κ} {x : κ} :
    x ∈ (eqs.solve domain).keys ↔ ∃ d ∈ domain, eqs.Reaches d x := by
  constructor
  · intro hx
    obtain ⟨ls, hm, heq⟩ := exists_mentions eqs domain
    rw [heq, List.mem_eraseDups] at hx
    exact hm.reaches x hx
  · rintro ⟨d, hd, hreach⟩
    rw [keys_solve]
    exact mem_keys_of_mark_ne (by rw [closed_wholeWalk eqs hd hreach]; exact nofun)

include ε in
/-- What belongs to the domain is solved for. -/
theorem exists_get?_solve (eqs : SetEquations κ α) {domain : List κ} {x : κ} (hx : x ∈ domain) :
    ∃ v, (eqs.solve domain).get? x = some v :=
  Option.isSome_iff_exists.1 (OrderedMap.mem_keys_iff.1 ((mem_keys_solve_iff eqs).2 ⟨x, hx, .refl⟩))

/-- **The least solution is found.**  The walk from any domain ends, in one
    state only, and `solve` answers with the values found there.  Its keys,
    each once, are the nodes reachable from the domain, in the order in which
    they are first taken from the domain or listed as a target of a node that
    is entered; the value of a key is the union of the bases of the nodes
    reachable from it. -/
theorem solve_least (eqs : SetEquations κ α) (domain : List κ) :
    (∃ w, Takes eqs ⟨∅, []⟩ domain w ∧ (∀ w', Takes eqs ⟨∅, []⟩ domain w' → w' = w) ∧
      eqs.solve domain = w.cells.map Cell.value) ∧
    (eqs.solve domain).keys.Nodup ∧
    (∀ x, x ∈ (eqs.solve domain).keys ↔ ∃ d ∈ domain, eqs.Reaches d x) ∧
    (∀ x ∈ (eqs.solve domain).keys, ∃ v, (eqs.solve domain).get? x = some v ∧
      ∀ e : ε, e ∈ v ↔ ∃ y, eqs.Reaches x y ∧ ∃ s, eqs.base.get? y = some s ∧ e ∈ s) ∧
    ∃ ls, Mentions eqs [] domain ls ∧ (∀ ls', Mentions eqs [] domain ls' → ls' = ls) ∧
      (eqs.solve domain).keys = ls.eraseDups := by
  have idle := idle_wholeWalk eqs domain
  refine ⟨⟨_, takes_wholeWalk eqs domain, fun _ h => (takes_wholeWalk eqs domain).unique h, rfl⟩,
    OrderedMap.keys_nodup _, fun x => mem_keys_solve_iff eqs, fun x hx => ?_, ?_⟩
  · obtain ⟨d, hd, hreach⟩ := (mem_keys_solve_iff eqs).1 hx
    obtain ⟨v, hv⟩ := Option.isSome_iff_exists.1 (OrderedMap.mem_keys_iff.1 hx)
    refine ⟨v, hv, fun e => ?_⟩
    have hcell : ((eqs.wholeWalk domain).cell x).value = v := by
      rw [← getD_solve, OrderedMap.getD_of_get? hv]
    rw [← hcell, idle.sound.closed_value (closed_wholeWalk eqs hd hreach)]
    simp only [Contains, mem_start_iff]
  · obtain ⟨ls, hm, heq⟩ := exists_mentions eqs domain
    exact ⟨ls, hm, fun _ h => hm.unique h, heq⟩

/-- Two components, one of which reaches the other: 1, 2 and 3 with two cycles
    through 2 and an edge from 3 to itself, and 4 and 5.  The targets of 1 are
    listed twice, the nodes 2 and 4 start from nothing, and 6 is not reached. -/
theorem solve_least_cycles : ∃ eqs : SetEquations Nat NatSet,
    eqs.targets 1 = [2, 2] ∧ eqs.targets 2 = [3, 1] ∧ eqs.targets 3 = [2, 4, 3] ∧
    (eqs.solve [4, 1, 4]).toList.map (fun e => (e.1, e.2.toList)) =
      [(4, [5]), (5, [5]), (1, [1, 3, 5]), (2, [1, 3, 5]), (3, [1, 3, 5])] ∧
    (∃ w, Takes eqs ⟨∅, []⟩ [4, 1, 4] w ∧ eqs.solve [4, 1, 4] = w.cells.map Cell.value) ∧
    (∃ ls, Mentions eqs [] [4, 1, 4] ls ∧ ls.eraseDups = [4, 5, 1, 2, 3]) ∧
    ¬ ∃ d ∈ [4, 1, 4], eqs.Reaches d 6 := by
  let eqs : SetEquations Nat NatSet :=
    ⟨.ofList [(1, [2, 2]), (2, [3, 1]), (3, [2, 4, 3]), (4, [5]), (5, [4]), (6, [1])],
      .ofList [(1, {1}), (3, {3}), (5, {5}), (6, {6})]⟩
  have hkeys : (eqs.solve [4, 1, 4]).keys = [4, 5, 1, 2, 3] := by decide +kernel
  obtain ⟨⟨w, hw, -, heq⟩, -, hreach, -, ls, hls, -, horder⟩ := solve_least eqs [4, 1, 4]
  refine ⟨eqs, by decide +kernel, by decide +kernel, by decide +kernel, by decide +kernel,
    ⟨w, hw, heq⟩, ⟨ls, hls, horder ▸ hkeys⟩, ?_⟩
  rw [← hreach, hkeys]; decide

end SetEquations

end LRAutomata
