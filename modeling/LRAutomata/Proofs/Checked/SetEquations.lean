/-
  The walk that solves set equations, with its lookups checked.

  The nodes are numbered in the order in which they are met, and what is known
  of a node is looked up by its number.  A node and its target are looked up
  together, which takes two different numbers.

  * `Checked.solve_eq_ok`: every system of equations is solved.
-/
import LRAutomata.Proofs.Checked.Basic
import LRAutomata.Proofs.Data.LeastSolution

namespace LRAutomata.Checked

open Std SetEquations

variable {κ : Type} [Ord κ]
variable {eqs : SetEquations κ NatSet} {w w₀ : SetEquations.Walk κ NatSet} {x y : κ}

/-- The walk has gone on from `w₀`: the nodes met are still listed, and so are
    the open ones. -/
structure Onward (w₀ w : SetEquations.Walk κ NatSet) : Prop where
  keys : ∀ y ∈ w₀.cells.keys, y ∈ w.cells.keys
  opens : ∀ y ∈ w.opens, y ∈ w.cells.keys

theorem Onward.trans {w₁ w₂ w₃ : SetEquations.Walk κ NatSet} (h₁ : Onward w₁ w₂)
    (h₂ : Onward w₂ w₃) : Onward w₁ w₃ :=
  ⟨fun y hy => h₂.keys y (h₁.keys y hy), h₂.opens⟩

theorem onward_meets (h : Onward w₀ w) {w' : SetEquations.Walk κ NatSet} (hm : Walk.Meets eqs w w') :
    Onward w₀ w' :=
  ⟨fun y hy => hm.keys (h.keys y hy), fun y hy => hm.keys (h.opens y (hm.opens ▸ hy))⟩

/-! ## The walk -/

variable [DecidableEq κ]

/-- The number of a node: its place among those met. -/
def number (w : SetEquations.Walk κ NatSet) (x : κ) : Nat :=
  w.cells.keys.idxOf x

/-- Look up a node by its number. -/
def node (w : SetEquations.Walk κ NatSet) (x : κ) : Checked Unit :=
  index (number w x) w.cells.keys.length

/-- Look up two different nodes by their numbers. -/
def nodePair (w : SetEquations.Walk κ NatSet) (x y : κ) : Checked Unit :=
  pair (number w x) (number w y) w.cells.keys.length

/-- Go to a node, which is visited if it has only been met. -/
def goTo (visit : SetEquations.Walk κ NatSet → κ → Checked (SetEquations.Walk κ NatSet))
    (w : SetEquations.Walk κ NatSet) (y : κ) : Checked (SetEquations.Walk κ NatSet) := do
  node w y
  if (w.cell y).mark = .fresh then visit w y else pure w

theorem node_eq_ok : node w x = .ok () ↔ x ∈ w.cells.keys := by
  rw [node, index_eq_ok, number, List.idxOf_lt_length_iff]

theorem nodePair_eq_ok (hx : x ∈ w.cells.keys) (hy : y ∈ w.cells.keys) (hne : x ≠ y) :
    nodePair w x y = .ok () := by
  rw [nodePair, pair_eq_ok]
  exact ⟨fun h => hne ((List.idxOf_inj hx).1 h), List.idxOf_lt_length_of_mem hx,
    List.idxOf_lt_length_of_mem hy⟩

/-- Going to a node succeeds if visiting it does. -/
theorem goTo_eq_ok {check : SetEquations.Walk κ NatSet → κ → Checked (SetEquations.Walk κ NatSet)}
    {run : SetEquations.Walk κ NatSet → κ → SetEquations.Walk κ NatSet}
    (hvisit : ∀ {w x}, Onward w w → x ∈ w.cells.keys → check w x = .ok (run w x) ∧ Onward w (run w x))
    (h : Onward w₀ w) (hy : y ∈ w.cells.keys) :
    goTo check w y = .ok (if (w.cell y).mark = .fresh then run w y else w) ∧
      Onward w (if (w.cell y).mark = .fresh then run w y else w) := by
  rw [goTo, node_eq_ok.2 hy, ok_bind]
  split
  · exact hvisit ⟨fun _ hz => hz, h.opens⟩ hy
  · exact ⟨rfl, fun _ hz => hz, h.opens⟩

variable [TransOrd κ] [LawfulEqOrd κ]

/-- Open a node. -/
def enter (eqs : SetEquations κ NatSet) (w : SetEquations.Walk κ NatSet) (x : κ) :
    Checked (SetEquations.Walk κ NatSet) := do
  node w x
  pure (w.enter eqs x)

/-- Let a node absorb its target. -/
def absorb (w : SetEquations.Walk κ NatSet) (x y : κ) : Checked (SetEquations.Walk κ NatSet) := do
  node w x
  node w y
  whenever (number w x ≠ number w y) (nodePair w x y)
  pure (w.absorb x y)

/-- Leave a node entered at `depth`. -/
def leave (w : SetEquations.Walk κ NatSet) (x : κ) (depth : Nat) :
    Checked (SetEquations.Walk κ NatSet) := do
  node w x
  whenever ((w.cell x).mark = .opened depth)
    ((w.opens.takeWhile (· ≠ x)).forM fun y => do node w y; nodePair w y x)
  pure (w.leave x depth)

/-- Walk through the nodes reachable from `x`. -/
def visit (eqs : SetEquations κ NatSet) : (levels : Nat) → SetEquations.Walk κ NatSet → κ →
    Checked (SetEquations.Walk κ NatSet)
  | 0, w, _ => pure w
  | levels + 1, w, x => do
    let entered ← enter eqs w x
    let inside ← (eqs.targets x).foldlM (fun w y => do
      let w ← goTo (visit eqs levels) w y
      absorb w x y) entered
    leave inside x (w.opens.length + 1)

/-- Solve a system of equations. -/
def solve (eqs : SetEquations κ NatSet) (domain : List κ) : Checked (OrderedMap κ NatSet) := do
  let walk ← domain.foldlM (fun w x =>
    goTo (visit eqs (eqs.nodeBound domain + 1)) (w.meet eqs x) x) ⟨∅, []⟩
  pure (walk.cells.map Cell.value)

/-! ## Every lookup succeeds -/

theorem onward_enter (eqs : SetEquations κ NatSet) (h : Onward w₀ w) (hx : x ∈ w.cells.keys) :
    Onward w₀ (w.enter eqs x) ∧ ∀ y ∈ eqs.targets x, y ∈ (w.enter eqs x).cells.keys := by
  rw [Walk.enter_eq]
  obtain ⟨hm, hmem⟩ := Walk.meets_foldl eqs (eqs.targets x) (w.opening x)
  refine ⟨onward_meets ⟨fun y hy => OrderedMap.mem_keys_insert.2 (.inr (h.keys y hy)), ?_⟩ hm, hmem⟩
  intro y hy
  rcases List.mem_cons.1 hy with rfl | hy
  · exact OrderedMap.mem_keys_insert.2 (.inl rfl)
  · exact OrderedMap.mem_keys_insert.2 (.inr (h.opens y hy))

theorem absorb_eq_ok (h : Onward w₀ w) (hx : x ∈ w.cells.keys) (hy : y ∈ w.cells.keys) :
    absorb w x y = .ok (w.absorb x y) ∧ Onward w₀ (w.absorb x y) := by
  simp only [absorb, seq_eq_ok, node_eq_ok, whenever_eq_ok, pure_eq_ok]
  refine ⟨⟨hx, hy, fun hne => nodePair_eq_ok hx hy fun heq => hne (heq ▸ rfl), trivial⟩, ?_⟩
  exact ⟨fun z hz => OrderedMap.mem_keys_insert.2 (.inr (h.keys z hz)),
    fun z hz => OrderedMap.mem_keys_insert.2 (.inr (h.opens z hz))⟩

theorem leave_eq_ok (h : Onward w₀ w) (hx : x ∈ w.cells.keys) (depth : Nat) :
    leave w x depth = .ok (w.leave x depth) ∧ Onward w₀ (w.leave x depth) := by
  simp only [leave, seq_eq_ok, node_eq_ok, whenever_eq_ok, forM_eq_ok, pure_eq_ok]
  refine ⟨⟨hx, fun _ y hy => ?_, trivial⟩, ?_⟩
  · have hopen := h.opens y ((List.takeWhile_sublist _).mem hy)
    have hne : y ≠ x := by simpa using List.all_eq_true.1 List.all_takeWhile y hy
    exact ⟨hopen, nodePair_eq_ok hopen hx hne⟩
  · rw [Walk.leave_eq]
    split
    · refine ⟨fun y hy => (Walk.mem_keys_closing _ _ _).2 (.inr (h.keys y hy)), fun y hy => ?_⟩
      exact (Walk.mem_keys_closing _ _ _).2 (.inr (h.opens y ((List.drop_sublist _ _).mem hy)))
    · exact h

theorem visit_eq_ok (eqs : SetEquations κ NatSet) : ∀ (levels : Nat) {w : SetEquations.Walk κ NatSet}
    {x : κ}, Onward w w → x ∈ w.cells.keys →
      visit eqs levels w x = .ok (eqs.visit levels w x) ∧ Onward w (eqs.visit levels w x)
  | 0, w, x, h, _ => ⟨rfl, h⟩
  | levels + 1, w, x, h, hx => by
    obtain ⟨hentered, hmet⟩ := onward_enter eqs h hx
    -- The targets were met on entering, and nothing that was met is forgotten.
    have hfold := foldlM_eq_ok (P := Onward (w.enter eqs x)) (l := eqs.targets x)
      (f := fun w y => do let w ← goTo (visit eqs levels) w y; absorb w x y)
      (g := fun w y => if (w.cell y).mark = .fresh then (eqs.visit levels w y).absorb x y
        else w.absorb x y) (fun v hv y hy => by
        have hyv := hv.keys y (hmet y hy)
        obtain ⟨hgo, hon⟩ := goTo_eq_ok (visit_eq_ok eqs levels) hv hyv
        obtain ⟨habsorb, hon'⟩ := absorb_eq_ok (hv.trans hon)
          (hon.keys x (hv.keys x (hentered.keys x hx))) (hon.keys y hyv)
        have heq : (if (v.cell y).mark = .fresh then (eqs.visit levels v y).absorb x y
            else v.absorb x y) =
            (if (v.cell y).mark = .fresh then eqs.visit levels v y else v).absorb x y := by
          split <;> rfl
        rw [hgo, ok_bind, heq]
        exact ⟨habsorb, hon'⟩) ⟨fun _ hy => hy, hentered.opens⟩
    obtain ⟨hfold, hinside⟩ := hfold
    obtain ⟨hleave, hon⟩ := leave_eq_ok (hentered.trans hinside)
      ((hentered.trans hinside).keys x hx) (w.opens.length + 1)
    have henter : enter eqs w x = .ok (w.enter eqs x) := by
      rw [enter, seq_eq_ok]
      exact ⟨node_eq_ok.2 hx, rfl⟩
    rw [visit, henter, ok_bind, hfold, ok_bind]
    exact ⟨hleave, hon⟩

/-- **Every system of set equations is solved without a failing lookup.** -/
theorem solve_eq_ok (eqs : SetEquations κ NatSet) (domain : List κ) :
    solve eqs domain = .ok (eqs.solve domain) := by
  obtain ⟨hfold, -⟩ := foldlM_eq_ok (P := fun w => Onward w w) (l := domain)
    (f := fun w x => goTo (visit eqs (eqs.nodeBound domain + 1)) (w.meet eqs x) x)
    (g := fun w x => let w := w.meet eqs x
      if (w.cell x).mark = .fresh then eqs.visit (eqs.nodeBound domain + 1) w x else w)
    (fun w h x _ => by
      obtain ⟨hgo, hon⟩ := goTo_eq_ok (visit_eq_ok eqs (eqs.nodeBound domain + 1))
        (onward_meets h (Walk.meets_meet eqs w x)) (Walk.mem_keys_meet w x)
      exact ⟨hgo, fun _ hy => hy, hon.opens⟩)
    (b := ⟨∅, []⟩) ⟨fun _ hy => hy, fun _ hy => nomatch hy⟩
  rw [solve, hfold]
  rfl

end LRAutomata.Checked
