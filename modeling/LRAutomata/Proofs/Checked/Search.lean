/-
  Breadth-first search over a vector of nodes, with its lookups checked.

  Each node has the number of the node that led to it, and the way to a node is
  read back from number to number.  The search without a vector keeps the way
  with the node; `Shows` tells that a number leads back along such a way.
-/
import LRAutomata.Data.Search
import LRAutomata.Proofs.Checked.Basic

namespace LRAutomata.Checked

open Std

/-- A search in progress. -/
structure Exploration (α : Type) [Ord α] where
  /-- The nodes in the order of discovery, with the numbers of those that led to them. -/
  nodes : Array (α × Option Nat)
  seen : TreeSet α
  /-- The nodes of the level under construction, the newest first. -/
  fresh : List Nat

variable {α : Type}

/-- Look up a node. -/
def nodeAt (nodes : Array (α × Option Nat)) (i : Nat) : Checked (α × Option Nat) :=
  nodes[i]?.elim (.error (.outOfRange i nodes.size)) .ok

/-- The way to a node, from its end back to its start. -/
def backward (nodes : Array (α × Option Nat)) : (steps : Nat) → Nat → Checked (List α)
  | 0, _ => pure []
  | steps + 1, i => do
    let n ← nodeAt nodes i
    let earlier ← n.2.elim (pure []) (backward nodes steps)
    pure (n.1 :: earlier)

/-! ## Ways in the vector -/

/-- The node `i` is reached along the nodes listed, the nearest first, all of which
    have the property `P`. -/
inductive Shows (P : α → Prop) (nodes : Array (α × Option Nat)) : Nat → List α → Prop
  | root {i a} : nodes[i]? = some (a, none) → P a → Shows P nodes i [a]
  | step {i j a l} : nodes[i]? = some (a, some j) → P a → j < i → Shows P nodes j l →
    Shows P nodes i (a :: l)

variable {P : α → Prop} {nodes : Array (α × Option Nat)} {i : Nat} {l : List α}

theorem Shows.forall_mem (h : Shows P nodes i l) : ∀ a ∈ l, P a := by
  induction h with
  | root _ ha => exact List.forall_mem_singleton.2 ha
  | step _ ha _ _ ih => exact List.forall_mem_cons.2 ⟨ha, ih⟩

theorem Shows.nodeAt_eq_ok {a : α} (h : Shows P nodes i (a :: l)) :
    ∃ source?, nodeAt nodes i = .ok (a, source?) := by
  cases h with
  | root hi => exact ⟨_, by rw [nodeAt, hi]; rfl⟩
  | step hi => exact ⟨_, by rw [nodeAt, hi]; rfl⟩

/-- The numbers descend along the way, so there are steps enough. -/
theorem Shows.backward_eq_ok (h : Shows P nodes i l) :
    ∀ {steps : Nat}, i < steps → backward nodes steps i = .ok l := by
  induction h with
  | root hi =>
    rintro (_ | steps) hlt
    · exact absurd hlt (Nat.not_lt_zero _)
    · rw [backward, nodeAt, hi]; rfl
  | step hi _ hji _ ih =>
    rintro (_ | steps) hlt
    · exact absurd hlt (Nat.not_lt_zero _)
    · rw [backward, nodeAt, hi]
      have hearlier := ih (Nat.lt_of_lt_of_le hji (Nat.le_of_lt_succ hlt))
      simp only [Option.elim_some, ok_bind, hearlier, pure_eq_ok]

theorem Shows.push (h : Shows P nodes i l) (n : α × Option Nat) : Shows P (nodes.push n) i l := by
  have keeps : ∀ {k m}, nodes[k]? = some m → (nodes.push n)[k]? = some m := fun {k m} hk => by
    rw [Array.getElem?_push, if_neg (Nat.ne_of_lt (Array.getElem?_eq_some_iff.1 hk).1), hk]
  induction h with
  | root hi ha => exact .root (keeps hi) ha
  | step hi ha hji _ ih => exact .step (keeps hi) ha hji ih

theorem Shows.lt_size (h : Shows P nodes i l) : i < nodes.size := by
  cases h with
  | root hi => exact (Array.getElem?_eq_some_iff.1 hi).1
  | step hi => exact (Array.getElem?_eq_some_iff.1 hi).1

/-- What was shown by one vector is still shown by another. -/
def Keeps (P : α → Prop) (nodes nodes' : Array (α × Option Nat)) : Prop :=
  ∀ {i l}, Shows P nodes i l → Shows P nodes' i l

/-- The numbers lead back along the trails, one by one. -/
def ShowsAll (P : α → Prop) (nodes : Array (α × Option Nat)) (numbers : List Nat)
    (trails : List (Search.Trail α)) : Prop :=
  List.Forall₂ (fun i (t : Search.Trail α) => Shows P nodes i t.backward) numbers trails

variable {numbers : List Nat} {trails : List (Search.Trail α)} {nodes' : Array (α × Option Nat)}

theorem ShowsAll.keeps (h : ShowsAll P nodes numbers trails) (keeps : Keeps P nodes nodes') :
    ShowsAll P nodes' numbers trails :=
  h.imp fun _ _ hs => keeps hs

theorem ShowsAll.isEmpty_eq (h : ShowsAll P nodes numbers trails) :
    numbers.isEmpty = trails.isEmpty := by
  cases h <;> rfl

theorem ShowsAll.reverse (h : ShowsAll P nodes numbers trails) :
    ShowsAll P nodes numbers.reverse trails.reverse :=
  List.rel_reverse h

/-! ## The search -/

variable [Ord α]

/-- Add a node, if it was not seen before. -/
def Exploration.discover (source : Nat) (e : Exploration α) (b : α) : Exploration α :=
  if e.seen.contains b then e
  else ⟨e.nodes.push (b, some source), e.seen.insert b, e.nodes.size :: e.fresh⟩

/-- Visit the nodes of a level, until the way to one with the property is found. -/
def visitLevel (next : α → Checked (List α)) (goal : α → Bool) :
    List Nat → Exploration α → Checked (Option (List α) × Exploration α)
  | [], e => pure (none, e)
  | i :: rest, e => do
    let n ← nodeAt e.nodes i
    if goal n.1 then
      let way ← backward e.nodes (i + 1) i
      pure (some way, e)
    else
      let successors ← next n.1
      visitLevel next goal rest (successors.foldl (·.discover i) e)

/-- Search the given level and those after it. -/
def searchLevels (next : α → Checked (List α)) (goal : α → Bool) :
    (levels : Nat) → List Nat → Exploration α → Checked (Option (List α))
  | 0, _, _ => pure none
  | levels + 1, current, e => do
    let r ← visitLevel next goal current { e with fresh := [] }
    if r.1.isSome || r.2.fresh.isEmpty then pure r.1
    else searchLevels next goal levels r.2.fresh.reverse r.2

/-- A shortest way from a node with the property back to `start`. -/
def shortest (levels : Nat) (start : α) (next : α → Checked (List α)) (goal : α → Bool) :
    Checked (Option (List α)) :=
  searchLevels next goal levels [0] ⟨#[(start, none)], TreeSet.empty.insert start, []⟩

/-! ## The two searches side by side -/

/-- The exploration has found what the search without a vector has found. -/
structure Mirrors (P : α → Prop) (e : Exploration α) (level : List (Search.Trail α) × TreeSet α) :
    Prop where
  seen_eq : e.seen = level.2
  fresh : ShowsAll P e.nodes e.fresh level.1

variable {e : Exploration α} {level : List (Search.Trail α) × TreeSet α} {t : Search.Trail α} {b : α}
variable {next : α → List α} {next' : α → Checked (List α)} {goal : α → Bool}

theorem Mirrors.discover (h : Mirrors P e level) (ht : Shows P e.nodes i t.backward) (hb : P b) :
    Mirrors P (e.discover i b) (if level.2.contains b then level
      else (⟨b, t.backward⟩ :: level.1, level.2.insert b)) ∧
    Keeps P e.nodes (e.discover i b).nodes := by
  rw [Exploration.discover, h.seen_eq]
  split
  · exact ⟨h, id⟩
  · have keeps : Keeps P e.nodes (e.nodes.push (b, some i)) := fun hs => hs.push _
    refine ⟨⟨rfl, .cons ?_ (h.fresh.keeps keeps)⟩, keeps⟩
    exact .step (by rw [Array.getElem?_push, if_pos rfl]) hb ht.lt_size (ht.push _)

/-- Adding the successors of a node extends its trail. -/
theorem Mirrors.extend (h : Mirrors P e level) (ht : Shows P e.nodes i t.backward)
    (hnext : ∀ b ∈ next t.last, P b) :
    Mirrors P ((next t.last).foldl (·.discover i) e) (Search.extend next level t) ∧
      Keeps P e.nodes ((next t.last).foldl (·.discover i) e).nodes := by
  rw [Search.extend]
  generalize next t.last = successors at hnext
  induction successors generalizing e level with
  | nil => exact ⟨h, id⟩
  | cons b rest ih =>
    obtain ⟨hb, hrest⟩ := List.forall_mem_cons.1 hnext
    obtain ⟨hdiscover, keeps⟩ := h.discover ht hb
    obtain ⟨hall, keeps'⟩ := ih hdiscover (keeps ht) hrest
    exact ⟨hall, fun hs => keeps' (keeps hs)⟩

/-- A level is visited up to the first trail that ends with the property, or else all
    its trails are extended. -/
theorem visitLevel_eq_ok (goal : α → Bool)
    (hnext : ∀ a, P a → next' a = .ok (next a) ∧ ∀ b ∈ next a, P b) :
    ∀ {numbers trails} {e : Exploration α} {level}, ShowsAll P e.nodes numbers trails →
      Mirrors P e level →
      (∀ t, trails.find? (fun t => goal t.last) = some t →
        (∃ e', visitLevel next' goal numbers e = .ok (some t.backward, e')) ∧
          ∀ b ∈ t.backward, P b) ∧
      (trails.find? (fun t => goal t.last) = none →
        ∃ e', visitLevel next' goal numbers e = .ok (none, e') ∧
          Mirrors P e' (trails.foldl (Search.extend next) level))
  | [], [], e, _, _, h => ⟨fun _ ht => (by cases ht), fun _ => ⟨e, rfl, h⟩⟩
  | i :: numbers, t :: trails, e, level, .cons ht hrest, h => by
    obtain ⟨source?, hnode⟩ := ht.nodeAt_eq_ok
    have hlast : P t.last := ht.forall_mem _ List.mem_cons_self
    rw [visitLevel, hnode, ok_bind]
    by_cases hgoal : goal t.last = true
    · rw [if_pos hgoal, ht.backward_eq_ok (Nat.lt_succ_self i), ok_bind,
        List.find?_cons_of_pos (by exact hgoal)]
      refine ⟨fun t' heq => ?_, fun hnone => by cases hnone⟩
      cases heq
      exact ⟨⟨e, rfl⟩, ht.forall_mem⟩
    · obtain ⟨hextend, keeps⟩ := h.extend ht (hnext _ hlast).2
      rw [if_neg hgoal, (hnext _ hlast).1, ok_bind, List.find?_cons_of_neg (by exact hgoal),
        List.foldl_cons]
      exact visitLevel_eq_ok goal hnext (ShowsAll.keeps hrest keeps) hextend

theorem searchLevels_eq_ok (hnext : ∀ a, P a → next' a = .ok (next a) ∧ ∀ b ∈ next a, P b) :
    ∀ (levels : Nat) {numbers trails} {e : Exploration α}, ShowsAll P e.nodes numbers trails →
      searchLevels next' goal levels numbers e =
        .ok ((Search.searchLevels next goal levels trails e.seen).map Search.Trail.backward) ∧
      ∀ t, Search.searchLevels next goal levels trails e.seen = some t → ∀ b ∈ t.backward, P b
  | 0, _, _, _, _ => ⟨rfl, fun _ ht => by cases ht⟩
  | levels + 1, numbers, trails, e, hall => by
    have hstart : Mirrors P { e with fresh := [] } ([], e.seen) := ⟨rfl, .nil⟩
    obtain ⟨hfound, hnone⟩ :=
      visitLevel_eq_ok (e := { e with fresh := [] }) goal hnext hall hstart
    rw [searchLevels, Search.searchLevels]
    cases hfind : trails.find? (fun t => goal t.last) with
    | some t =>
      obtain ⟨⟨e', hvisit⟩, ht⟩ := hfound t hfind
      rw [hvisit]
      refine ⟨rfl, fun t' ht' => ?_⟩
      cases ht'
      exact ht
    | none =>
      obtain ⟨e', hvisit, hseen, hfresh⟩ := hnone hfind
      rw [hvisit, ok_bind]
      generalize trails.foldl (Search.extend next) ([], e.seen) = level at hseen hfresh
      dsimp only
      rw [hfresh.isEmpty_eq, Option.isSome_none, Bool.false_or, ← hseen]
      split
      · exact ⟨rfl, fun _ ht => by cases ht⟩
      · exact searchLevels_eq_ok hnext levels hfresh.reverse

/-- **The search over a vector succeeds** with the way that the search without one finds. -/
theorem shortest_eq_ok (levels : Nat) {start : α} (hstart : P start) (goal : α → Bool)
    (hnext : ∀ a, P a → next' a = .ok (next a) ∧ ∀ b ∈ next a, P b) :
    shortest levels start next' goal =
        .ok ((Search.shortest? levels start next goal).map Search.Trail.backward) ∧
      ∀ t, Search.shortest? levels start next goal = some t → ∀ b ∈ t.backward, P b :=
  searchLevels_eq_ok hnext levels (.cons (.root rfl hstart) .nil)

end LRAutomata.Checked
