/-
  The walk through a system of set equations, node by node.

  A node contains what the nodes reachable from it start from
  (`SetEquations.Contains`), which is the least solution.  The walk closes the
  nodes of a strongly connected component together.  At any time
  (`Walk.Sound`):

  * the nodes reachable from a closed node are closed, and it has its value;
  * an open node contains its value, and reaches the open node at the depth
    recorded as its `low`;

  and when a node has been left, the nodes it opened and did not close are
  finished (`Walk.Finished`): they reach an open node before them, and their
  targets are closed or open at their `low` or deeper.  Entering, absorbing
  and leaving a node keep this (`Walk.inside_enter`, `Walk.Inside.absorb`,
  `Walk.Inside.leave`).
-/
import Mathlib.Data.List.Nodup
import Mathlib.Data.List.Dedup
import Mathlib.Logic.Relation
import LRAutomata.Data.SetEquations
import LRAutomata.Proofs.Data.Fixpoint
import LRAutomata.Proofs.Data.OrderedMap

namespace LRAutomata

/-- Values that are sets: the empty one has no members, and a union has the
    members of both sides. -/
class LawfulUnion (α : Type) {ε : outParam Type} [Membership ε α] [EmptyCollection α]
    [Union α] : Prop where
  not_mem_empty : ∀ e : ε, e ∉ (∅ : α)
  mem_union : ∀ {e : ε} {s t : α}, e ∈ s ∪ t ↔ e ∈ s ∨ e ∈ t

instance : LawfulUnion NatSet where
  not_mem_empty := NatSet.not_mem_empty
  mem_union := NatSet.mem_union

namespace SetEquations

open Std Relation

variable {κ ε α : Type} [Membership ε α]

/-- Every member of `s` is one of `t`. -/
def Within (s t : α) : Prop :=
  ∀ e ∈ s, e ∈ t

theorem Within.refl (s : α) : Within s s :=
  fun _ h => h

theorem Within.trans {s t u : α} (h : Within s t) (h' : Within t u) : Within s u :=
  fun e he => h' e (h e he)

/-! ## Depths of open nodes -/

/-- The node at the given depth; depths are counted from 1 at the end of the list. -/
def Level (opens : List κ) (x : κ) (depth : Nat) : Prop :=
  ∃ above below, opens = above ++ x :: below ∧ depth = below.length + 1

section Level
variable {opens : List κ} {x y : κ} {d e : Nat}

theorem level_cons (x : κ) (opens : List κ) : Level (x :: opens) x (opens.length + 1) :=
  ⟨[], opens, rfl, rfl⟩

theorem Level.append (h : Level opens x d) (new : List κ) : Level (new ++ opens) x d := by
  obtain ⟨above, below, rfl, rfl⟩ := h
  exact ⟨new ++ above, below, by simp, rfl⟩

theorem Level.mem (h : Level opens x d) : x ∈ opens := by
  obtain ⟨above, below, rfl, -⟩ := h; simp

theorem exists_level (h : x ∈ opens) : ∃ d, Level opens x d := by
  obtain ⟨above, below, rfl⟩ := List.append_of_mem h
  exact ⟨_, above, below, rfl, rfl⟩

theorem Level.le_length (h : Level opens x d) : d ≤ opens.length := by
  obtain ⟨above, below, rfl, rfl⟩ := h
  simp

/-- The nodes up to the depth of an older list are those of that list. -/
theorem Level.of_append {new : List κ} (h : Level (new ++ opens) x d) (hd : d ≤ opens.length) :
    Level opens x d := by
  obtain ⟨above, below, heq, rfl⟩ := h
  rcases List.append_eq_append_iff.1 heq with ⟨mid, rfl, hmid⟩ | ⟨mid, rfl, hmid⟩
  · exact ⟨mid, below, hmid, rfl⟩
  · cases mid with
    | nil => exact ⟨[], below, by simpa using hmid.symm, rfl⟩
    | cons z mid =>
      have := congrArg List.length hmid
      simp at this; omega

/-- The nodes that are deeper than an older list are new. -/
theorem Level.mem_new {new : List κ} (h : Level (new ++ opens) x d) (hd : opens.length < d) :
    x ∈ new := by
  obtain ⟨above, below, heq, rfl⟩ := h
  rcases List.append_eq_append_iff.1 heq with ⟨mid, rfl, hmid⟩ | ⟨mid, rfl, hmid⟩
  · have := congrArg List.length hmid
    simp at this; omega
  · cases mid with
    | nil =>
      have := congrArg List.length hmid
      simp at this; omega
    | cons z mid => obtain ⟨rfl, -⟩ := List.cons.inj hmid; simp

theorem Level.unique (nodup : opens.Nodup) (h : Level opens x d) (h' : Level opens x e) : d = e := by
  obtain ⟨above, below, rfl, rfl⟩ := h
  obtain ⟨above', below', heq, rfl⟩ := h'
  rw [List.nodup_middle, List.nodup_cons, List.mem_append, not_or] at nodup
  rcases List.append_eq_append_iff.1 heq with ⟨mid, rfl, hmid⟩ | ⟨mid, rfl, hmid⟩
  · cases mid with
    | nil => simpa using congrArg List.length hmid
    | cons z mid =>
      obtain ⟨rfl, rfl⟩ := List.cons.inj hmid
      exact absurd (by simp) nodup.1.2
  · cases mid with
    | nil => simpa using (congrArg List.length hmid).symm
    | cons z mid =>
      obtain ⟨rfl, rfl⟩ := List.cons.inj hmid
      exact absurd (by simp) nodup.1.1

end Level

theorem takeWhile_ne [DecidableEq κ] {x : κ} {new rest : List κ} (hx : x ∉ new) :
    (new ++ x :: rest).takeWhile (· ≠ x) = new := by
  have hpos : ∀ y ∈ new, decide (y ≠ x) = true := fun y hy =>
    decide_eq_true fun heq => hx (heq ▸ hy)
  rw [List.takeWhile_append_of_pos hpos]
  simp

/-! ## The least solution -/

variable [Ord κ] [EmptyCollection α] {eqs : SetEquations κ α}

/-- The node `y` is reached from `x` along the edges. -/
def Reaches (eqs : SetEquations κ α) (x y : κ) : Prop :=
  ReflTransGen (fun x y => y ∈ eqs.targets x) x y

/-- The element belongs to the value of `x` in the least solution: a node
    reachable from `x` starts with it. -/
def Contains (eqs : SetEquations κ α) (x : κ) (e : ε) : Prop :=
  ∃ y, eqs.Reaches x y ∧ e ∈ eqs.start y

theorem Contains.of_reaches {x y : κ} {e : ε} (h : eqs.Reaches x y) (hn : eqs.Contains y e) :
    eqs.Contains x e := by
  obtain ⟨z, hz, hn⟩ := hn
  exact ⟨z, ReflTransGen.trans h hz, hn⟩

/-! ## The invariant of the walk -/

namespace Walk

variable {w w' w₀ : Walk κ α} {x y z : κ}

/-- What holds whenever a node has been met, entered, absorbed or left. -/
structure Sound (eqs : SetEquations κ α) (w : Walk κ α) : Prop where
  nodup : w.opens.Nodup
  opened_iff : ∀ {y}, y ∈ w.opens ↔ ∃ low, (w.cell y).mark = .opened low
  fresh_value : ∀ {y}, y ∈ w.cells.keys → (w.cell y).mark = .fresh → (w.cell y).value = eqs.start y
  closed_targets : ∀ {y}, (w.cell y).mark = .closed →
    ∀ z ∈ eqs.targets y, (w.cell z).mark = .closed
  closed_value : ∀ {y}, (w.cell y).mark = .closed → ∀ e, e ∈ (w.cell y).value ↔ eqs.Contains y e
  start_subset : ∀ {y}, y ∈ w.opens → Within (eqs.start y) (w.cell y).value
  contains : ∀ {y}, y ∈ w.opens → ∀ e ∈ (w.cell y).value, eqs.Contains y e
  low : ∀ {y low}, (w.cell y).mark = .opened low → ∃ z, Level w.opens z low ∧ eqs.Reaches y z
  low_le : ∀ {y low depth}, Level w.opens y depth → (w.cell y).mark = .opened low → low ≤ depth

/-- The target `z` of `x` has been taken into account: it is closed and its
    value absorbed, or it is open at the `low` of `x` or deeper. -/
def Settled (w : Walk κ α) (x z : κ) : Prop :=
  ((w.cell z).mark = .closed ∧ Within (w.cell z).value (w.cell x).value) ∨
    ∃ low depth, (w.cell x).mark = .opened low ∧ Level w.opens z depth ∧ low ≤ depth

/-- The node has been left and stays open, as it reaches a node before it. -/
def Finished (eqs : SetEquations κ α) (w : Walk κ α) (y : κ) : Prop :=
  (∃ low depth, (w.cell y).mark = .opened low ∧ Level w.opens y depth ∧ low < depth) ∧
    ∀ z ∈ eqs.targets y, w.Settled y z

/-- The open node `x` has absorbed what the open node `y` knows. -/
def Covers (w : Walk κ α) (x y : κ) : Prop :=
  Within (w.cell y).value (w.cell x).value ∧ ∃ low low', (w.cell x).mark = .opened low ∧
    (w.cell y).mark = .opened low' ∧ low ≤ low'

theorem Covers.trans (h₁ : w.Covers x y) (h₂ : w.Covers y z) : w.Covers x z := by
  obtain ⟨hv₁, l₁, l₂, hx, hy, hle₁⟩ := h₁
  obtain ⟨hv₂, l₂', l₃, hy', hz, hle₂⟩ := h₂
  obtain rfl : l₂ = l₂' := Mark.opened.inj (hy.symm.trans hy')
  exact ⟨Within.trans hv₂ hv₁, l₁, l₃, hx, hz, Nat.le_trans hle₁ hle₂⟩

theorem covers_self {low : Nat} (h : (w.cell x).mark = .opened low) : w.Covers x x :=
  ⟨Within.refl _, low, low, h, h, Nat.le_refl _⟩

/-- A later state of the walk: the open nodes are still open, and what is known
    of open and closed nodes is unchanged. -/
structure Keeps (w w' : Walk κ α) : Prop where
  opens : ∃ new, w'.opens = new ++ w.opens
  cell_eq : ∀ {y}, (w.cell y).mark ≠ .fresh → w'.cell y = w.cell y
  keys : ∀ {y}, y ∈ w.cells.keys → y ∈ w'.cells.keys

theorem Keeps.level (h : w.Keeps w') {depth : Nat} (hx : Level w.opens x depth) :
    Level w'.opens x depth := by
  obtain ⟨new, heq⟩ := h.opens
  rw [heq]; exact hx.append new

theorem Keeps.settled (h : w.Keeps w') (hx : (w.cell x).mark ≠ .fresh) (hz : w.Settled x z) :
    w'.Settled x z := by
  rcases hz with ⟨hclosed, hsub⟩ | ⟨low, depth, hlow, hlevel, hle⟩
  · rw [Settled, h.cell_eq hx, h.cell_eq (by rw [hclosed]; exact nofun)]
    exact .inl ⟨hclosed, hsub⟩
  · exact .inr ⟨low, depth, by rw [h.cell_eq hx]; exact hlow, h.level hlevel, hle⟩

theorem Keeps.finished (h : w.Keeps w') (hy : w.Finished eqs y) : w'.Finished eqs y := by
  obtain ⟨⟨low, depth, hlow, hlevel, hlt⟩, htargets⟩ := hy
  have hne : (w.cell y).mark ≠ .fresh := by rw [hlow]; exact nofun
  exact ⟨⟨low, depth, by rw [h.cell_eq hne]; exact hlow, h.level hlevel, hlt⟩,
    fun z hz => h.settled hne (htargets z hz)⟩

theorem Keeps.covers (h : w.Keeps w') (hxy : w.Covers x y) : w'.Covers x y := by
  obtain ⟨hsub, low, low', hx, hy, hle⟩ := hxy
  rw [Covers, h.cell_eq (show (w.cell x).mark ≠ .fresh by rw [hx]; exact nofun),
    h.cell_eq (show (w.cell y).mark ≠ .fresh by rw [hy]; exact nofun)]
  exact ⟨hsub, low, low', hx, hy, hle⟩

/-! ## Nodes that absorb something -/

/-- The open node `x` has absorbed something; nothing else has changed. -/
structure Raises (w w' : Walk κ α) (x : κ) : Prop where
  opens : w'.opens = w.opens
  keys : ∀ {y}, y ∈ w.cells.keys → y ∈ w'.cells.keys
  keys_inv : ∀ {y}, y ∈ w'.cells.keys → y ∈ w.cells.keys
  cell_eq : ∀ {y}, y ≠ x → w'.cell y = w.cell y
  low : ∃ low low', (w.cell x).mark = .opened low ∧ (w'.cell x).mark = .opened low' ∧ low' ≤ low
  value : Within (w.cell x).value (w'.cell x).value

theorem Raises.ne_of_mark_ne (h : w.Raises w' x) (hy : ∀ low, (w.cell y).mark ≠ .opened low) :
    y ≠ x := by
  rintro rfl
  obtain ⟨low, -, hlow, -⟩ := h.low
  exact hy low hlow

theorem Raises.settled (h : w.Raises w' x) (hy : y ≠ x) (hz : w.Settled y z) : w'.Settled y z := by
  rcases hz with ⟨hclosed, hsub⟩ | ⟨low, depth, hlow, hlevel, hle⟩
  · have hzx := h.ne_of_mark_ne (y := z) (by rw [hclosed]; exact nofun)
    rw [Settled, h.cell_eq hy, h.cell_eq hzx]; exact .inl ⟨hclosed, hsub⟩
  · exact .inr ⟨low, depth, by rw [h.cell_eq hy]; exact hlow, by rw [h.opens]; exact hlevel, hle⟩

theorem Raises.settled_self (h : w.Raises w' x) (hz : w.Settled x z) : w'.Settled x z := by
  obtain ⟨low, low', hlow, hlow', hle'⟩ := h.low
  rcases hz with ⟨hclosed, hsub⟩ | ⟨l, depth, hl, hlevel, hle⟩
  · have hzx := h.ne_of_mark_ne (y := z) (by rw [hclosed]; exact nofun)
    rw [Settled, h.cell_eq hzx]; exact .inl ⟨hclosed, Within.trans hsub h.value⟩
  · obtain rfl : low = l := Mark.opened.inj (hlow.symm.trans hl)
    exact .inr ⟨low', depth, hlow', by rw [h.opens]; exact hlevel, Nat.le_trans hle' hle⟩

theorem Raises.finished (h : w.Raises w' x) (hy : y ≠ x) (hf : w.Finished eqs y) :
    w'.Finished eqs y := by
  obtain ⟨hlow, htargets⟩ := hf
  rw [Finished, h.cell_eq hy, h.opens]
  exact ⟨hlow, fun z hz => h.settled hy (htargets z hz)⟩

theorem Raises.covers (h : w.Raises w' x) (hy : y ≠ x) (hc : w.Covers x y) : w'.Covers x y := by
  obtain ⟨low, low', hlow, hlow', hle'⟩ := h.low
  obtain ⟨hsub, l, l', hl, hl', hle⟩ := hc
  obtain rfl : low = l := Mark.opened.inj (hlow.symm.trans hl)
  rw [Covers, h.cell_eq hy]
  exact ⟨Within.trans hsub h.value, low', l', hlow', hl', Nat.le_trans hle' hle⟩

theorem Sound.raises (h : w.Sound eqs) (hr : w.Raises w' x)
    (hvalue : ∀ e ∈ (w'.cell x).value, eqs.Contains x e)
    (hreach : ∀ low, (w'.cell x).mark = .opened low → ∃ z, Level w.opens z low ∧ eqs.Reaches x z) :
    w'.Sound eqs := by
  obtain ⟨low, low', hlow, hlow', hle⟩ := hr.low
  have hx : x ∈ w.opens := h.opened_iff.2 ⟨low, hlow⟩
  have closed_ne : ∀ {y}, (w'.cell y).mark = .closed → y ≠ x := by
    rintro y hy rfl; rw [hlow'] at hy; cases hy
  constructor
  case nodup => rw [hr.opens]; exact h.nodup
  case opened_iff =>
    intro y
    rw [hr.opens]
    by_cases hy : y = x
    · subst hy; exact ⟨fun _ => ⟨low', hlow'⟩, fun _ => hx⟩
    · rw [hr.cell_eq hy]; exact h.opened_iff
  case fresh_value =>
    intro y hy hmark
    have hyx : y ≠ x := by rintro rfl; rw [hlow'] at hmark; cases hmark
    rw [hr.cell_eq hyx] at hmark ⊢; exact h.fresh_value (hr.keys_inv hy) hmark
  case closed_targets =>
    intro y hy z hz
    rw [hr.cell_eq (closed_ne hy)] at hy
    have hclosed := h.closed_targets hy z hz
    rw [hr.cell_eq (hr.ne_of_mark_ne (by rw [hclosed]; exact nofun))]; exact hclosed
  case closed_value =>
    intro y hy
    have hyx := closed_ne hy
    rw [hr.cell_eq hyx] at hy ⊢; exact h.closed_value hy
  case start_subset =>
    intro y hy
    rw [hr.opens] at hy
    by_cases hyx : y = x
    · subst hyx; exact Within.trans (h.start_subset hy) hr.value
    · rw [hr.cell_eq hyx]; exact h.start_subset hy
  case contains =>
    intro y hy
    rw [hr.opens] at hy
    by_cases hyx : y = x
    · subst hyx; exact hvalue
    · rw [hr.cell_eq hyx]; exact h.contains hy
  case low =>
    intro y l hy
    rw [hr.opens]
    by_cases hyx : y = x
    · subst hyx; exact hreach l hy
    · rw [hr.cell_eq hyx] at hy; exact h.low hy
  case low_le =>
    intro y l depth hd hy
    rw [hr.opens] at hd
    by_cases hyx : y = x
    · subst hyx
      obtain rfl : low' = l := Mark.opened.inj (hlow'.symm.trans hy)
      exact Nat.le_trans hle (h.low_le hd hlow)
    · rw [hr.cell_eq hyx] at hy; exact h.low_le hd hy

/-! ## Between entering and leaving a node -/

/-- The walk while the targets of `x`, entered in `w₀`, are visited; those in
    `done` have been absorbed. -/
structure Inside (eqs : SetEquations κ α) (w₀ : Walk κ α) (x : κ) (done : List κ)
    (w : Walk κ α) : Prop where
  entered : (w₀.cell x).mark = .fresh
  sound : w.Sound eqs
  keys : ∀ {y}, y ∈ w₀.cells.keys → y ∈ w.cells.keys
  old : ∀ {y}, (w₀.cell y).mark ≠ .fresh → w.cell y = w₀.cell y
  met : ∀ y ∈ eqs.targets x, y ∈ w.cells.keys
  opens : ∃ new, w.opens = new ++ x :: w₀.opens ∧ ∀ y ∈ new, w.Finished eqs y ∧ w.Covers x y
  settled : ∀ y ∈ done, w.Settled x y

/-- The walk after `x`, fresh in `w₀`, has been visited. -/
structure Visited (eqs : SetEquations κ α) (w₀ : Walk κ α) (x : κ)
    (w : Walk κ α) : Prop where
  sound : w.Sound eqs
  keys : ∀ {y}, y ∈ w₀.cells.keys → y ∈ w.cells.keys
  old : ∀ {y}, (w₀.cell y).mark ≠ .fresh → w.cell y = w₀.cell y
  left : (w.cell x).mark ≠ .fresh
  opens : ∃ new, w.opens = new ++ w₀.opens ∧ ∀ y ∈ new, w.Finished eqs y ∧ w.Covers x y

theorem Inside.opened {done : List κ} (h : Inside eqs w₀ x done w) :
    ∃ low, (w.cell x).mark = .opened low := by
  obtain ⟨new, heq, -⟩ := h.opens
  exact h.sound.opened_iff.1 (by rw [heq]; simp)

theorem Inside.of_subset {done done' : List κ} (h : Inside eqs w₀ x done w)
    (hsub : ∀ y ∈ done', y ∈ done) : Inside eqs w₀ x done' w :=
  { h with settled := fun y hy => h.settled y (hsub y hy) }

/-- The nodes that are new on the list of open nodes were fresh. -/
theorem Inside.fresh_of_new {done : List κ} (h : Inside eqs w₀ x done w) {new : List κ}
    (hopens : w.opens = new ++ w₀.opens) (h₀ : w₀.Sound eqs) (hy : y ∈ new) :
    (w₀.cell y).mark = .fresh := by
  apply Classical.byContradiction
  intro hne
  have hmem : y ∈ w.opens := by rw [hopens]; exact List.mem_append_left _ hy
  rw [h.sound.opened_iff, h.old hne, ← h₀.opened_iff] at hmem
  have nodup := h.sound.nodup
  rw [hopens, List.nodup_append] at nodup
  exact nodup.2.2 y hy y hmem rfl

theorem Visited.refl (h : w.Sound eqs) (hx : (w.cell x).mark ≠ .fresh) : Visited eqs w x w :=
  ⟨h, id, fun _ => rfl, hx, [], rfl, by simp⟩

/-- Leaving a node that reaches a node before it changes nothing. -/
theorem Inside.visited (h : Inside eqs w₀ x (eqs.targets x) w) {low : Nat}
    (hlow : (w.cell x).mark = .opened low) (hlt : low ≠ w₀.opens.length + 1) :
    Visited eqs w₀ x w := by
  obtain ⟨new, hopens, hnew⟩ := h.opens
  have hlevel : Level w.opens x (w₀.opens.length + 1) := by
    rw [hopens]; exact (level_cons x w₀.opens).append new
  refine ⟨h.sound, h.keys, h.old, by rw [hlow]; exact nofun, new ++ [x], by simp [hopens],
    fun y hy => ?_⟩
  rcases List.mem_append.1 hy with hy | hy
  · exact hnew y hy
  · obtain rfl := List.mem_singleton.1 hy
    exact ⟨⟨⟨low, _, hlow, hlevel, Nat.lt_of_le_of_ne (h.sound.low_le hlevel hlow) hlt⟩, h.settled⟩,
      covers_self hlow⟩

/-! ## Components -/

/-- The members of the component that is closed when `x` is left. -/
structure Component (eqs : SetEquations κ α) (w : Walk κ α) (x : κ) (opens₀ : List κ)
    (members : List κ) : Prop where
  opens : w.opens = members ++ opens₀
  covers : ∀ {y}, y ∈ members → w.Covers x y
  settled : ∀ {y}, y ∈ members → ∀ z ∈ eqs.targets y, w.Settled y z
  below : ∀ {y}, y ∈ members → y = x ∨ w.Finished eqs y
  root : (w.cell x).mark = .opened (opens₀.length + 1)

/-- The nodes opened since the node was entered form a component if it reaches
    none before it. -/
theorem Inside.component (h : Inside eqs w₀ x (eqs.targets x) w)
    (hroot : (w.cell x).mark = .opened (w₀.opens.length + 1)) {new : List κ}
    (hopens : w.opens = new ++ x :: w₀.opens)
    (hnew : ∀ y ∈ new, w.Finished eqs y ∧ w.Covers x y) :
    Component eqs w x w₀.opens (new ++ [x]) := by
  have cases : ∀ {y}, y ∈ new ++ [x] → y ∈ new ∨ y = x := by intro y hy; simpa using hy
  refine ⟨by simp [hopens], fun hy => ?_, fun hy => ?_, fun hy => ?_, hroot⟩ <;>
    rcases cases hy with hy | rfl
  · exact (hnew _ hy).2
  · exact covers_self hroot
  · exact (hnew _ hy).1.2
  · exact h.settled
  · exact .inr (hnew _ hy).1
  · exact .inl rfl

section Component
variable {opens₀ members : List κ}

theorem Component.low (hc : Component eqs w x opens₀ members) (hy : y ∈ members) :
    ∃ low, (w.cell y).mark = .opened low ∧ opens₀.length < low := by
  obtain ⟨-, low, low', hlow, hlow', hle⟩ := hc.covers hy
  obtain rfl := Mark.opened.inj (hc.root.symm.trans hlow)
  exact ⟨low', hlow', hle⟩

theorem Component.not_mem_opens (hc : Component eqs w x opens₀ members) (h : w.Sound eqs)
    (hy : y ∈ members) : y ∉ opens₀ := by
  have nodup := h.nodup
  rw [hc.opens, List.nodup_append] at nodup
  exact fun hy' => nodup.2.2 y hy y hy' rfl

/-- The targets of members are closed or members. -/
theorem Component.target (hc : Component eqs w x opens₀ members) (hy : y ∈ members)
    (hz : z ∈ eqs.targets y) : z ∈ members ∨
      ((w.cell z).mark = .closed ∧ Within (w.cell z).value (w.cell x).value) := by
  rcases hc.settled hy z hz with ⟨hclosed, hsub⟩ | ⟨low, depth, hlow, hlevel, hle⟩
  · exact .inr ⟨hclosed, Within.trans hsub (hc.covers hy).1⟩
  · obtain ⟨low', hlow', hlt⟩ := hc.low hy
    obtain rfl := Mark.opened.inj (hlow.symm.trans hlow')
    rw [hc.opens] at hlevel
    exact .inl (hlevel.mem_new (Nat.lt_of_lt_of_le hlt hle))

/-- Every member reaches the node that was entered first. -/
theorem Component.reaches (hc : Component eqs w x opens₀ members) (h : w.Sound eqs) :
    ∀ (depth : Nat) {y : κ}, y ∈ members → Level w.opens y depth → eqs.Reaches y x := by
  intro depth
  induction depth using Nat.strongRecOn with
  | _ depth ih =>
    intro y hy hlevel
    rcases hc.below hy with rfl | ⟨⟨low, depth', hlow, hlevel', hlt⟩, -⟩
    · exact .refl
    · obtain rfl := Level.unique h.nodup hlevel hlevel'
      obtain ⟨z, hz, hreach⟩ := h.low hlow
      obtain ⟨low', hlow', hgt⟩ := hc.low hy
      obtain rfl := Mark.opened.inj (hlow.symm.trans hlow')
      have hz' : z ∈ members := by rw [hc.opens] at hz; exact hz.mem_new hgt
      exact ReflTransGen.trans hreach (ih low hlt hz' hz)

/-- What a member reaches is a member, or closed and absorbed. -/
theorem Component.reached (hc : Component eqs w x opens₀ members) (h : w.Sound eqs)
    (hy : y ∈ members) (hyz : eqs.Reaches y z) : z ∈ members ∨
      ((w.cell z).mark = .closed ∧ Within (w.cell z).value (w.cell x).value) := by
  induction hyz with
  | refl => exact .inl hy
  | @tail u v _ hstep ih =>
    rcases ih with hu | ⟨hclosed, hsub⟩
    · exact hc.target hu hstep
    · have hv := h.closed_targets hclosed v hstep
      refine .inr ⟨hv, fun e hn => hsub e ?_⟩
      exact (h.closed_value hclosed e).2 (.of_reaches (.single hstep) ((h.closed_value hv e).1 hn))

/-- The members contain the value of the node that was entered first. -/
theorem Component.value (hc : Component eqs w x opens₀ members) (h : w.Sound eqs)
    (hy : y ∈ members) (e : ε) : e ∈ (w.cell x).value ↔ eqs.Contains y e := by
  constructor
  · intro hn
    have hmem : y ∈ w.opens := by rw [hc.opens]; exact List.mem_append_left _ hy
    obtain ⟨depth, hlevel⟩ := exists_level hmem
    exact .of_reaches (hc.reaches h depth hy hlevel)
      (h.contains (h.opened_iff.2 ⟨_, hc.root⟩) e hn)
  · rintro ⟨z, hyz, hn⟩
    rcases hc.reached h hy hyz with hz | ⟨hclosed, hsub⟩
    · have hmem : z ∈ w.opens := by rw [hc.opens]; exact List.mem_append_left _ hz
      exact (hc.covers hz).1 e ((h.start_subset hmem) e hn)
    · exact hsub e ((h.closed_value hclosed e).2 ⟨z, .refl, hn⟩)

end Component

/-! ## Meeting and entering nodes -/

/-- The walk `w'` has met nodes in addition, and nothing else has changed. -/
structure Meets (eqs : SetEquations κ α) (w w' : Walk κ α) : Prop where
  opens : w'.opens = w.opens
  keys : ∀ {y}, y ∈ w.cells.keys → y ∈ w'.cells.keys
  cell_eq : ∀ {y}, y ∈ w.cells.keys → w'.cell y = w.cell y
  cell_new : ∀ {y}, y ∈ w'.cells.keys → y ∉ w.cells.keys → w'.cell y = ⟨.fresh, eqs.start y⟩

theorem Meets.refl (w : Walk κ α) : Meets eqs w w :=
  ⟨rfl, id, fun _ => rfl, fun h h' => absurd h h'⟩

theorem Meets.trans {w₁ w₂ w₃ : Walk κ α} (h₁ : Meets eqs w₁ w₂) (h₂ : Meets eqs w₂ w₃) :
    Meets eqs w₁ w₃ := by
  refine ⟨h₂.opens.trans h₁.opens, fun hy => h₂.keys (h₁.keys hy),
    fun hy => (h₂.cell_eq (h₁.keys hy)).trans (h₁.cell_eq hy), fun {y} hy hy₁ => ?_⟩
  by_cases hy₂ : y ∈ w₂.cells.keys
  · rw [h₂.cell_eq hy₂]; exact h₁.cell_new hy₂ hy₁
  · exact h₂.cell_new hy hy₂

variable [TransOrd κ]

theorem mem_keys_of_mark_ne (h : (w.cell x).mark ≠ .fresh) : x ∈ w.cells.keys := by
  apply Classical.byContradiction
  intro hx
  exact h (by rw [cell, OrderedMap.getD_of_not_mem hx])

theorem Meets.mark_eq (h : Meets eqs w w') (y : κ) : (w'.cell y).mark = (w.cell y).mark := by
  by_cases hy : y ∈ w.cells.keys
  · rw [h.cell_eq hy]
  · have old : (w.cell y).mark = .fresh := by rw [cell, OrderedMap.getD_of_not_mem hy]
    rw [old]
    by_cases hy' : y ∈ w'.cells.keys
    · rw [h.cell_new hy' hy]
    · rw [cell, OrderedMap.getD_of_not_mem hy']

theorem Meets.cell_of_mark_ne (h : Meets eqs w w') (hy : (w.cell y).mark ≠ .fresh) :
    w'.cell y = w.cell y :=
  h.cell_eq (mem_keys_of_mark_ne hy)

theorem Sound.meets (h : w.Sound eqs) (hm : Meets eqs w w') : w'.Sound eqs := by
  have open_cell : ∀ {y}, y ∈ w.opens → w'.cell y = w.cell y := by
    intro y hy
    obtain ⟨low, hlow⟩ := h.opened_iff.1 hy
    exact hm.cell_of_mark_ne (by rw [hlow]; exact nofun)
  constructor
  case nodup => rw [hm.opens]; exact h.nodup
  case opened_iff => intro y; rw [hm.opens, hm.mark_eq]; exact h.opened_iff
  case fresh_value =>
    intro y hy hfresh
    rw [hm.mark_eq] at hfresh
    by_cases hy' : y ∈ w.cells.keys
    · rw [hm.cell_eq hy']; exact h.fresh_value hy' hfresh
    · rw [hm.cell_new hy hy']
  case closed_targets =>
    intro y hy z hz
    rw [hm.mark_eq] at hy ⊢; exact h.closed_targets hy z hz
  case closed_value =>
    intro y hy
    rw [hm.mark_eq] at hy
    rw [hm.cell_of_mark_ne (by rw [hy]; exact nofun)]; exact h.closed_value hy
  case start_subset => intro y hy; rw [hm.opens] at hy; rw [open_cell hy]; exact h.start_subset hy
  case contains => intro y hy; rw [hm.opens] at hy; rw [open_cell hy]; exact h.contains hy
  case low => intro y low hy; rw [hm.mark_eq] at hy; rw [hm.opens]; exact h.low hy
  case low_le => intro y low depth hd hy; rw [hm.mark_eq] at hy; rw [hm.opens] at hd; exact h.low_le hd hy

variable [LawfulEqOrd κ]

theorem mem_keys_meet (w : Walk κ α) (x : κ) : x ∈ (w.meet eqs x).cells.keys := by
  unfold meet
  split
  · rename_i hx; exact OrderedMap.contains_iff.1 hx
  · exact OrderedMap.mem_keys_insert.2 (.inl rfl)

/-- The node `x` opened, before its targets are met. -/
def opening (w : Walk κ α) (x : κ) : Walk κ α :=
  ⟨w.cells.insert x { w.cell x with mark := .opened (w.opens.length + 1) }, x :: w.opens⟩

theorem enter_eq (w : Walk κ α) (x : κ) :
    w.enter eqs x = (eqs.targets x).foldl (meet eqs) (w.opening x) := rfl

variable [DecidableEq κ]

theorem cell_insert (cells : OrderedMap κ (Cell α)) (opens : List κ) (x y : κ) (c : Cell α) :
    cell ⟨cells.insert x c, opens⟩ y = if x = y then c else cells.getD y ⟨.fresh, ∅⟩ :=
  OrderedMap.getD_insert ..

theorem meets_meet (eqs : SetEquations κ α) (w : Walk κ α) (x : κ) : Meets eqs w (w.meet eqs x) := by
  unfold meet
  split
  · exact .refl w
  · rename_i hx
    rw [OrderedMap.contains_iff] at hx
    refine ⟨rfl, fun hy => OrderedMap.mem_keys_insert.2 (.inr hy), fun {y} hy => ?_,
      fun {y} hy hy' => ?_⟩
    · rw [cell_insert, if_neg (by rintro rfl; exact hx hy)]; rfl
    · obtain rfl := (OrderedMap.mem_keys_insert.1 hy).resolve_right hy'
      rw [cell_insert, if_pos rfl]

theorem meets_foldl (eqs : SetEquations κ α) : ∀ (ys : List κ) (w : Walk κ α),
    Meets eqs w (ys.foldl (meet eqs) w) ∧ ∀ y ∈ ys, y ∈ (ys.foldl (meet eqs) w).cells.keys
  | [], w => ⟨.refl w, by simp⟩
  | y :: ys, w => by
    obtain ⟨hm, hkeys⟩ := meets_foldl eqs ys (w.meet eqs y)
    refine ⟨(meets_meet eqs w y).trans hm, fun z hz => ?_⟩
    rcases List.mem_cons.1 hz with rfl | hz
    · exact hm.keys (mem_keys_meet w z)
    · exact hkeys z hz

theorem cell_opening (w : Walk κ α) (x y : κ) :
    (w.opening x).cell y =
      if x = y then { w.cell x with mark := .opened (w.opens.length + 1) } else w.cell y :=
  cell_insert ..

theorem Sound.opening (h : w.Sound eqs) (hx : x ∈ w.cells.keys)
    (hfresh : (w.cell x).mark = .fresh) : (w.opening x).Sound eqs := by
  have hnew : x ∉ w.opens := by
    intro hmem
    obtain ⟨low, hlow⟩ := h.opened_iff.1 hmem
    rw [hfresh] at hlow; cases hlow
  have self : (w.opening x).cell x = ⟨.opened (w.opens.length + 1), eqs.start x⟩ := by
    rw [cell_opening, if_pos rfl, ← h.fresh_value hx hfresh]
  have other : ∀ {y}, y ≠ x → (w.opening x).cell y = w.cell y := by
    intro y hy; rw [cell_opening, if_neg hy.symm]
  have opens : (w.opening x).opens = x :: w.opens := rfl
  constructor
  case nodup => exact List.nodup_cons.2 ⟨hnew, h.nodup⟩
  case opened_iff =>
    intro y
    rw [opens, List.mem_cons]
    by_cases hy : y = x
    · subst hy; rw [self]; simp
    · rw [other hy]; simpa [hy] using h.opened_iff
  case fresh_value =>
    intro y hy hmark
    by_cases hyx : y = x
    · subst hyx; rw [self] at hmark; cases hmark
    · rw [other hyx] at hmark ⊢
      exact h.fresh_value ((OrderedMap.mem_keys_insert.1 hy).resolve_left hyx) hmark
  case closed_targets =>
    intro y hy z hz
    have hyx : y ≠ x := by rintro rfl; rw [self] at hy; cases hy
    rw [other hyx] at hy
    have hclosed := h.closed_targets hy z hz
    have hzx : z ≠ x := by rintro rfl; rw [hfresh] at hclosed; cases hclosed
    rw [other hzx]; exact hclosed
  case closed_value =>
    intro y hy
    have hyx : y ≠ x := by rintro rfl; rw [self] at hy; cases hy
    rw [other hyx] at hy ⊢; exact h.closed_value hy
  case start_subset =>
    intro y hy
    by_cases hyx : y = x
    · subst hyx; rw [self]; exact Within.refl _
    · rw [other hyx]; exact h.start_subset ((List.mem_cons.1 hy).resolve_left hyx)
  case contains =>
    intro y hy e hn
    by_cases hyx : y = x
    · subst hyx; rw [self] at hn; exact ⟨y, .refl, hn⟩
    · rw [other hyx] at hn; exact h.contains ((List.mem_cons.1 hy).resolve_left hyx) e hn
  case low =>
    intro y low hy
    by_cases hyx : y = x
    · subst hyx
      rw [self] at hy
      cases hy
      exact ⟨y, level_cons y w.opens, .refl⟩
    · rw [other hyx] at hy
      obtain ⟨z, hz, hreach⟩ := h.low hy
      exact ⟨z, hz.append [x], hreach⟩
  case low_le =>
    intro y low depth hd hy
    by_cases hyx : y = x
    · subst hyx
      rw [self] at hy
      cases hy
      exact Nat.le_of_eq (Level.unique (List.nodup_cons.2 ⟨hnew, h.nodup⟩)
        (level_cons y w.opens) hd)
    · rw [other hyx] at hy
      have hd : Level ([x] ++ w.opens) y depth := hd
      refine h.low_le (hd.of_append (Nat.le_of_not_lt fun hlt => hyx ?_)) hy
      exact List.mem_singleton.1 (hd.mem_new hlt)

theorem inside_enter (h₀ : w₀.Sound eqs) (hx : x ∈ w₀.cells.keys)
    (hfresh : (w₀.cell x).mark = .fresh) : Inside eqs w₀ x [] (w₀.enter eqs x) := by
  rw [enter_eq]
  obtain ⟨hm, hkeys⟩ := meets_foldl eqs (eqs.targets x) (w₀.opening x)
  have other : ∀ {y}, (w₀.cell y).mark ≠ .fresh → (w₀.opening x).cell y = w₀.cell y := by
    intro y hy
    rw [cell_opening, if_neg (by rintro rfl; exact hy hfresh)]
  refine ⟨hfresh, (h₀.opening hx hfresh).meets hm, fun hy => ?_, fun hy => ?_, hkeys, ⟨[], hm.opens, by simp⟩,
    by simp⟩
  · exact hm.keys (OrderedMap.mem_keys_insert.2 (.inr hy))
  · rw [hm.cell_of_mark_ne (by rw [other hy]; exact hy), other hy]

/-! ## Absorbing a target -/

section Absorbing
variable [Union α] [LawfulUnion α]

theorem cell_absorb (w : Walk κ α) (x y z : κ) :
    (w.absorb x y).cell z = if x = z then
      ⟨(w.cell x).mark.absorb (w.cell y).mark,
        if x = y then (w.cell x).value else (w.cell x).value ∪ (w.cell y).value⟩
    else w.cell z :=
  cell_insert ..

theorem mem_value_absorb {e : ε} :
    e ∈ ((w.absorb x y).cell x).value ↔ e ∈ (w.cell x).value ∨ e ∈ (w.cell y).value := by
  rw [cell_absorb, if_pos rfl]
  show e ∈ (if x = y then (w.cell x).value else (w.cell x).value ∪ (w.cell y).value) ↔ _
  split
  · rename_i h; subst h; simp
  · exact LawfulUnion.mem_union

theorem raises_absorb {low : Nat} (hlow : (w.cell x).mark = .opened low) (y : κ) :
    w.Raises (w.absorb x y) x := by
  have hx : x ∈ w.cells.keys := mem_keys_of_mark_ne (by rw [hlow]; exact nofun)
  refine ⟨rfl, fun hy => OrderedMap.mem_keys_insert.2 (.inr hy), fun hy => ?_, fun {z} hz => ?_, ?_, ?_⟩
  · rcases OrderedMap.mem_keys_insert.1 hy with rfl | hy
    · exact hx
    · exact hy
  · rw [cell_absorb, if_neg hz.symm]
  · rw [cell_absorb, if_pos rfl, hlow]
    cases (w.cell y).mark with
    | opened l => exact ⟨low, min low l, rfl, rfl, Nat.min_le_left _ _⟩
    | fresh | closed => exact ⟨low, low, rfl, rfl, Nat.le_refl _⟩
  · exact fun e hn => mem_value_absorb.2 (.inl hn)

/-- Absorbing a target that is open or closed. -/
theorem Sound.absorb (h : w.Sound eqs) {low : Nat} (hlow : (w.cell x).mark = .opened low)
    (hy : y ∈ eqs.targets x) (hmark : (w.cell y).mark ≠ .fresh) : (w.absorb x y).Sound eqs := by
  have step : eqs.Reaches x y := .single hy
  have hcontains : ∀ e ∈ (w.cell y).value, eqs.Contains y e := by
    cases hm : (w.cell y).mark with
    | fresh => exact absurd hm hmark
    | opened l => exact h.contains (h.opened_iff.2 ⟨l, hm⟩)
    | closed => exact fun e => (h.closed_value hm e).1
  refine h.raises (raises_absorb hlow y) (fun e hn => ?_) fun l hl => ?_
  · rcases mem_value_absorb.1 hn with hn | hn
    · exact h.contains (h.opened_iff.2 ⟨low, hlow⟩) e hn
    · exact .of_reaches step (hcontains e hn)
  · rw [cell_absorb, if_pos rfl, hlow] at hl
    cases hm : (w.cell y).mark with
    | fresh => exact absurd hm hmark
    | closed => rw [hm] at hl; cases hl; exact h.low hlow
    | opened l' =>
      rw [hm] at hl
      obtain rfl := Mark.opened.inj hl
      rcases Nat.le_total low l' with hle | hle
      · rw [Nat.min_eq_left hle]; exact h.low hlow
      · rw [Nat.min_eq_right hle]
        obtain ⟨z, hz, hreach⟩ := h.low hm
        exact ⟨z, hz, ReflTransGen.trans step hreach⟩

theorem settled_absorb (h : w.Sound eqs) {low : Nat} (hlow : (w.cell x).mark = .opened low)
    (hmark : (w.cell y).mark ≠ .fresh) : (w.absorb x y).Settled x y := by
  have hr := raises_absorb hlow y
  cases hm : (w.cell y).mark with
  | fresh => exact absurd hm hmark
  | closed =>
    have hyx := hr.ne_of_mark_ne (y := y) (by rw [hm]; exact nofun)
    rw [Settled, hr.cell_eq hyx]
    exact .inl ⟨hm, fun e hn => mem_value_absorb.2 (.inr hn)⟩
  | opened l =>
    obtain ⟨depth, hd⟩ := exists_level (h.opened_iff.2 ⟨l, hm⟩)
    refine .inr ⟨min low l, depth, ?_, hd, Nat.le_trans (Nat.min_le_right _ _) (h.low_le hd hm)⟩
    rw [cell_absorb, if_pos rfl, hlow, hm]; rfl

theorem covers_absorb {low : Nat} (hlow : (w.cell x).mark = .opened low) (hyx : y ≠ x)
    {l : Nat} (hm : (w.cell y).mark = .opened l) : (w.absorb x y).Covers x y := by
  rw [Covers, (raises_absorb hlow y).cell_eq hyx]
  refine ⟨fun e hn => mem_value_absorb.2 (.inr hn), min low l, l, ?_, hm,
    Nat.min_le_right _ _⟩
  rw [cell_absorb, if_pos rfl, hlow, hm]; rfl

/-- A further target, open or closed, is absorbed.  The nodes it has opened are
    covered by it. -/
theorem Inside.absorb {done : List κ} (h : Inside eqs w₀ x done w) (hy : y ∈ eqs.targets x)
    (hv : Visited eqs w y w') : Inside eqs w₀ x (y :: done) (w'.absorb x y) := by
  obtain ⟨low, hlow⟩ := h.opened
  obtain ⟨new, hopens, hnew⟩ := h.opens
  obtain ⟨new', hopens', hnew'⟩ := hv.opens
  have hk : w.Keeps w' := ⟨⟨new', hopens'⟩, hv.old, hv.keys⟩
  have hx : w'.cell x = w.cell x := hv.old (by rw [hlow]; exact nofun)
  have hlow' : (w'.cell x).mark = .opened low := by rw [hx]; exact hlow
  have hr := raises_absorb hlow' y
  have nodup := hv.sound.nodup
  rw [hopens', hopens] at nodup
  have ne_new : ∀ u, u ∈ new ∨ u ∈ new' → u ≠ x := by
    rintro u hu rfl
    rw [← List.append_assoc, List.nodup_append] at nodup
    exact nodup.2.2 u (by simpa [or_comm] using hu) u (by simp) rfl
  refine ⟨h.entered, hv.sound.absorb hlow' hy hv.left, fun hu => hr.keys (hv.keys (h.keys hu)), fun {u} hu => ?_,
    fun u hu => hr.keys (hv.keys (h.met u hu)), ⟨new' ++ new, ?_, fun u hu => ?_⟩, fun u hu => ?_⟩
  · have hux : u ≠ x := by rintro rfl; exact hu h.entered
    have hold := h.old hu
    rw [hr.cell_eq hux, hv.old (by rw [hold]; exact hu), hold]
  · rw [hr.opens, hopens', hopens, List.append_assoc]
  · have hux := ne_new u (by simpa [or_comm] using hu)
    rcases List.mem_append.1 hu with hu | hu
    · obtain ⟨hfin, hcov⟩ := hnew' u hu
      refine ⟨hr.finished hux hfin, ?_⟩
      by_cases hyx : y = x
      · subst hyx; exact hr.covers hux hcov
      · have hyu : (w'.absorb x y).Covers y u := by
          rw [Covers, hr.cell_eq hyx, hr.cell_eq hux]; exact hcov
        obtain ⟨-, l, -, hl, -⟩ := hcov
        exact (covers_absorb hlow' hyx hl).trans hyu
    · obtain ⟨hfin, hcov⟩ := hnew u hu
      exact ⟨hr.finished hux (hk.finished hfin), hr.covers hux (hk.covers hcov)⟩
  · rcases List.mem_cons.1 hu with rfl | hu
    · exact settled_absorb hv.sound hlow' hv.left
    · exact hr.settled_self (hk.settled (by rw [hlow]; exact nofun) (h.settled u hu))

end Absorbing

/-! ## Leaving a node -/

variable {opens₀ members : List κ}

/-- The walk after closing the members. -/
def closing (w : Walk κ α) (members opens₀ : List κ) (v : α) : Walk κ α :=
  ⟨members.foldl (fun cells y => cells.insert y ⟨.closed, v⟩) w.cells, opens₀⟩

theorem cell_closing (v : α) : ∀ (members : List κ) (w : Walk κ α) (z : κ),
    (w.closing members opens₀ v).cell z = if z ∈ members then ⟨.closed, v⟩ else w.cell z
  | [], w, z => by simp [closing, cell]
  | y :: members, w, z => by
    have ih := cell_closing v members ⟨w.cells.insert y ⟨.closed, v⟩, w.opens⟩ z
    rw [show w.closing (y :: members) opens₀ v =
      closing ⟨w.cells.insert y ⟨.closed, v⟩, w.opens⟩ members opens₀ v from rfl, ih, cell_insert]
    by_cases hz : z ∈ members
    · simp [hz]
    · by_cases hzy : y = z
      · simp [hzy]
      · simp [hz, hzy, Ne.symm hzy, cell]

omit [DecidableEq κ] [EmptyCollection α] in
theorem mem_keys_closing (v : α) : ∀ (members : List κ) (w : Walk κ α) {z : κ},
    z ∈ (w.closing members opens₀ v).cells.keys ↔ z ∈ members ∨ z ∈ w.cells.keys
  | [], w, z => by simp [closing]
  | y :: members, w, z => by
    have ih := mem_keys_closing v members
      ⟨w.cells.insert y ⟨.closed, v⟩, w.opens⟩ (z := z)
    rw [show w.closing (y :: members) opens₀ v =
      closing ⟨w.cells.insert y ⟨.closed, v⟩, w.opens⟩ members opens₀ v from rfl, ih,
      OrderedMap.mem_keys_insert, List.mem_cons, or_assoc, or_left_comm]

theorem Component.sound (hc : Component eqs w x opens₀ members) (h : w.Sound eqs) :
    (w.closing members opens₀ (w.cell x).value).Sound eqs := by
  have self : ∀ {y}, y ∈ members →
      (w.closing members opens₀ (w.cell x).value).cell y = ⟨.closed, (w.cell x).value⟩ := by
    intro y hy; rw [cell_closing, if_pos hy]
  have other : ∀ {y}, y ∉ members →
      (w.closing members opens₀ (w.cell x).value).cell y = w.cell y := by
    intro y hy; rw [cell_closing, if_neg hy]
  have not_member : ∀ {y}, (∀ low, (w.cell y).mark ≠ .opened low) → y ∉ members := by
    intro y hne hy
    obtain ⟨low, hlow, -⟩ := hc.low hy
    exact hne low hlow
  have old : ∀ {y}, y ∈ opens₀ → y ∉ members ∧ y ∈ w.opens := fun hy =>
    ⟨fun hm => hc.not_mem_opens h hm hy, by rw [hc.opens]; exact List.mem_append_right _ hy⟩
  constructor
  case nodup =>
    have nodup := h.nodup
    rw [hc.opens] at nodup
    exact nodup.of_append_right
  case opened_iff =>
    intro y
    show y ∈ opens₀ ↔ _
    by_cases hy : y ∈ members
    · rw [self hy]; simp [hc.not_mem_opens h hy]
    · rw [other hy, ← h.opened_iff, hc.opens]; simp [hy]
  case fresh_value =>
    intro y hkey hmark
    by_cases hy : y ∈ members
    · rw [self hy] at hmark; cases hmark
    · rw [other hy] at hmark ⊢
      exact h.fresh_value (((mem_keys_closing _ _ _).1 hkey).resolve_left hy) hmark
  case closed_targets =>
    intro y hmark z hz
    have closed_of : (w.cell z).mark = .closed →
        ((w.closing members opens₀ (w.cell x).value).cell z).mark = .closed := by
      intro hclosed
      rw [other (not_member (by rw [hclosed]; exact nofun))]; exact hclosed
    by_cases hy : y ∈ members
    · rcases hc.target hy hz with hz | ⟨hclosed, -⟩
      · rw [self hz]
      · exact closed_of hclosed
    · rw [other hy] at hmark; exact closed_of (h.closed_targets hmark z hz)
  case closed_value =>
    intro y hmark
    by_cases hy : y ∈ members
    · rw [self hy]; exact hc.value h hy
    · rw [other hy] at hmark ⊢; exact h.closed_value hmark
  case start_subset =>
    intro y hy
    rw [other (old hy).1]; exact h.start_subset (old hy).2
  case contains =>
    intro y hy
    rw [other (old hy).1]; exact h.contains (old hy).2
  case low =>
    intro y low hmark
    by_cases hy : y ∈ members
    · rw [self hy] at hmark; cases hmark
    · rw [other hy] at hmark
      have hmem := h.opened_iff.2 ⟨low, hmark⟩
      rw [hc.opens] at hmem
      obtain ⟨depth, hd⟩ := exists_level ((List.mem_append.1 hmem).resolve_left hy)
      obtain ⟨z, hz, hreach⟩ := h.low hmark
      have hle := h.low_le (by rw [hc.opens]; exact hd.append members) hmark
      rw [hc.opens] at hz
      exact ⟨z, hz.of_append (Nat.le_trans hle hd.le_length), hreach⟩
  case low_le =>
    intro y low depth hd hmark
    rw [other (old hd.mem).1] at hmark
    exact h.low_le (by rw [hc.opens]; exact Level.append hd members) hmark

theorem leave_eq (w : Walk κ α) (x : κ) (depth : Nat) :
    w.leave x depth = if (w.cell x).mark = .opened depth then
      w.closing (w.opens.takeWhile (· ≠ x) ++ [x])
        (w.opens.drop ((w.opens.takeWhile (· ≠ x)).length + 1)) (w.cell x).value
    else w := rfl

/-- Leaving a node whose targets have been absorbed. -/
theorem Inside.leave (h₀ : w₀.Sound eqs) (h : Inside eqs w₀ x (eqs.targets x) w) :
    Visited eqs w₀ x (w.leave x (w₀.opens.length + 1)) := by
  rw [leave_eq]
  split
  · rename_i hroot
    obtain ⟨new, hopens, hnew⟩ := h.opens
    have hc := h.component hroot hopens hnew
    have hopens' : w.opens = (new ++ [x]) ++ w₀.opens := hc.opens
    have hx : x ∉ new := by
      have nodup := h.sound.nodup
      rw [hopens, List.nodup_append] at nodup
      exact fun hx => nodup.2.2 x hx x (by simp) rfl
    have hdrop : w.opens.drop (new.length + 1) = w₀.opens := by rw [hopens]; simp
    rw [show w.opens.takeWhile (· ≠ x) = new by rw [hopens, takeWhile_ne hx], hdrop]
    refine ⟨hc.sound h.sound, fun hy => ?_, fun {y} hy => ?_, ?_, [], rfl, by simp⟩
    · exact (mem_keys_closing _ _ _).2 (.inr (h.keys hy))
    · rw [cell_closing, if_neg fun hmem => hy (h.fresh_of_new hopens' h₀ hmem), h.old hy]
    · rw [cell_closing, if_pos (by simp)]; exact nofun
  · rename_i hne
    obtain ⟨low, hlow⟩ := h.opened
    exact h.visited hlow fun heq => hne (by rw [hlow, heq])

end Walk

end SetEquations

end LRAutomata
