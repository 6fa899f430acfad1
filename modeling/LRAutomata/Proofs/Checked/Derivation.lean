/-
  The drawing of a derivation, with its lookups checked.

  The lines below a node are added while the node is drawn, and its own line is
  written again after that.  A drawing that begins at most one line below the
  last one leaves its line behind (`Draws`), so every line is there when it is
  looked up.
-/
import LRAutomata.Counterexample.Derivation
import LRAutomata.Proofs.Checked.Basic

namespace LRAutomata

namespace Canvas

@[simp] theorem size_pad (c : Canvas) (depth column : Nat) : (c.pad depth column).size = c.size :=
  Array.size_modify

@[simp] theorem size_write (c : Canvas) (depth : Nat) (text : String) :
    (c.write depth text).size = c.size :=
  Array.size_modify

theorem lt_size_withLine {c : Canvas} {depth : Nat} (h : depth ≤ c.size) :
    depth < (c.withLine depth).size := by
  rw [withLine]
  split
  · rw [Array.size_push]; exact Nat.lt_succ_of_le h
  · exact Nat.lt_of_not_le ‹_›

end Canvas

namespace Derivation

/-- The items of all nodes exist. -/
def InRange (g : Grammar) (d : Derivation) : Prop :=
  ∀ e ∈ d.preorder, e.item.InRange g

variable {g : Grammar} {i : Item} {l r : Derivation}

@[simp] theorem inRange_leaf : (leaf i).InRange g ↔ i.InRange g := by
  simp [InRange, preorder, item]

@[simp] theorem inRange_node : (node i l).InRange g ↔ i.InRange g ∧ l.InRange g := by
  simp [InRange, preorder, item]

@[simp] theorem inRange_fork :
    (fork i l r).InRange g ↔ i.InRange g ∧ l.InRange g ∧ r.InRange g := by
  simp [InRange, preorder, item, or_imp, forall_and]

theorem InRange.above {below : Option Derivation} (hi : i.InRange g)
    (hbelow : ∀ d, below = some d → d.InRange g) : (above i below).InRange g := by
  cases below with
  | none => exact inRange_leaf.2 hi
  | some d => exact inRange_node.2 ⟨hi, hbelow d rfl⟩

theorem InRange.withRight {d : Derivation} (h : d.InRange g) {right : Option Derivation}
    (hright : ∀ r, right = some r → r.InRange g) : (d.withRight right).InRange g := by
  cases right with
  | none => cases d <;> exact h
  | some r =>
    cases d with
    | leaf i => exact h
    | node i l => exact inRange_fork.2 ⟨(inRange_node.1 h).1, (inRange_node.1 h).2, hright r rfl⟩
    | fork i l r => exact h

/-- What comes after the symbol derived to the left: the symbols after it, with what is
    derived from them. -/
def drawRest (g : Grammar) (i : Item) (right? : Option Drawing) (depth : Nat) (c : Canvas) : Canvas :=
  right?.elim (if (i.nextNext? g).isSome then c.write depth (restText g i) else c) fun right =>
    let drawn := right (c.width depth) (depth + 1) c
    (drawn.1.write depth (restText g i)).pad depth drawn.2

theorem drawInner_eq (g : Grammar) (i : Item) (left : Drawing) (right? : Option Drawing)
    (column depth : Nat) (c : Canvas) :
    drawInner g i left right? column depth c =
      let c := drawHead g i column depth c
      let drawn := left (c.width depth) (depth + 1) (c.write depth (nextText g i))
      let c := drawRest g i right? depth (drawn.1.pad depth drawn.2)
      (c, c.width depth) := by
  cases right? <;> rfl

end Derivation

namespace Checked

open LRAutomata.Derivation

/-- Begin a node at a column of a line. -/
def drawHead (g : Grammar) (i : Item) (column depth : Nat) (c : Canvas) : Checked Canvas := do
  item g i
  index depth (c.withLine depth).size
  pure (Derivation.drawHead g i column depth c)

/-- A way to draw something from a column of a line on. -/
abbrev Drawing := (column depth : Nat) → Canvas → Checked (Canvas × Nat)

/-- Draw the symbols after the one derived to the left. -/
def drawRest (g : Grammar) (i : Item) (right? : Option Drawing) (depth : Nat) (c : Canvas) :
    Checked Canvas :=
  right?.elim (pure (if (i.nextNext? g).isSome then c.write depth (restText g i) else c))
    fun right => do
      let drawn ← right (c.width depth) (depth + 1) c
      index depth drawn.1.size
      pure ((drawn.1.write depth (restText g i)).pad depth drawn.2)

/-- Draw a node with what is derived from the symbols after its dot. -/
def drawInner (g : Grammar) (i : Item) (left : Drawing) (right? : Option Drawing) : Drawing :=
  fun column depth c => do
    let c ← drawHead g i column depth c
    index depth c.size
    let drawn ← left (c.width depth) (depth + 1) (c.write depth (nextText g i))
    index depth drawn.1.size
    let c ← drawRest g i right? depth (drawn.1.pad depth drawn.2)
    index depth c.size
    pure (c, c.width depth)

/-- Draw a derivation. -/
def draw (g : Grammar) : Derivation → Drawing
  | .leaf i => fun column depth c => do
    let c ← drawHead g i column depth c
    index depth c.size
    let c := c.write depth (tailText g i)
    pure (c, c.width depth)
  | .node i l | .fork i l (.leaf _) => drawInner g i (draw g l) none
  | .fork i l (.node _ r) | .fork i l (.fork _ r _) => drawInner g i (draw g l) (some (draw g r))

/-- The lines of the drawing, without blanks at their ends. -/
def render (g : Grammar) (d : Derivation) : Checked (List String) := do
  let drawn ← draw g d 0 0 #[]
  pure (drawn.1.toList.map fun line => String.ofList (Text.trimEnd line.toList))

/-- The checked drawing succeeds if it begins at most one line below the last one,
    and then its line is there. -/
def Draws (checked : Drawing) (plain : Derivation.Drawing) : Prop :=
  ∀ column depth c, depth ≤ Array.size c → checked column depth c = .ok (plain column depth c) ∧
    depth < (plain column depth c).1.size

variable {g : Grammar} {i : Item} {d l : Derivation}

theorem drawHead_eq_ok (wf : g.WellFormed) (narrow : g.Narrow) (hi : i.InRange g) (column : Nat)
    {depth : Nat} {c : Canvas} (h : depth ≤ c.size) :
    drawHead g i column depth c = .ok (Derivation.drawHead g i column depth c) ∧
      depth < (Derivation.drawHead g i column depth c).size := by
  have hline := Canvas.lt_size_withLine h
  refine ⟨?_, by rwa [Derivation.drawHead, Canvas.size_write, Canvas.size_pad]⟩
  simp only [drawHead, seq_eq_ok, index_eq_ok, pure_eq_ok]
  exact ⟨item_eq_ok wf narrow hi, hline, trivial⟩

theorem drawRest_eq_ok {right? : Option Drawing} {right?' : Option Derivation.Drawing}
    (hright : Option.Rel Draws right? right?') {depth : Nat} {c : Canvas} (hc : depth < c.size) :
    drawRest g i right? depth c = .ok (Derivation.drawRest g i right?' depth c) ∧
      depth < (Derivation.drawRest g i right?' depth c).size := by
  cases hright with
  | none =>
    refine ⟨rfl, ?_⟩
    rw [Derivation.drawRest, Option.elim_none]
    split
    · rwa [Canvas.size_write]
    · exact hc
  | some hright =>
    obtain ⟨hdraw, hlt⟩ := hright (c.width depth) (depth + 1) c hc
    have hlt := Nat.lt_of_succ_lt hlt
    rw [drawRest, Option.elim_some, hdraw, ok_bind, index_eq_ok.2 hlt]
    refine ⟨rfl, ?_⟩
    rwa [Derivation.drawRest, Option.elim_some, Canvas.size_pad, Canvas.size_write]

theorem draws_inner (wf : g.WellFormed) (narrow : g.Narrow) (hi : i.InRange g) {left : Drawing}
    {left' : Derivation.Drawing} (hleft : Draws left left') {right? : Option Drawing}
    {right?' : Option Derivation.Drawing} (hright : Option.Rel Draws right? right?') :
    Draws (drawInner g i left right?) (Derivation.drawInner g i left' right?') := by
  intro column depth c hc
  rw [drawInner, Derivation.drawInner_eq]
  obtain ⟨hhead, hdepth⟩ := drawHead_eq_ok wf narrow hi column hc
  rw [hhead, ok_bind, index_eq_ok.2 hdepth, ok_bind]
  dsimp only
  generalize Derivation.drawHead g i column depth c = head at hdepth
  obtain ⟨hdraw, hlt⟩ := hleft (head.width depth) (depth + 1) (head.write depth (nextText g i))
    (by rwa [Canvas.size_write])
  rw [hdraw, ok_bind, index_eq_ok.2 (Nat.lt_of_succ_lt hlt), ok_bind]
  generalize left' (head.width depth) (depth + 1) (head.write depth (nextText g i)) = drawn at hlt
  have hpad : depth < (Canvas.pad drawn.1 depth drawn.2).size := by
    rw [Canvas.size_pad]; exact Nat.lt_of_succ_lt hlt
  obtain ⟨hrest, hlt⟩ := drawRest_eq_ok (g := g) (i := i) hright hpad
  rw [hrest, ok_bind, index_eq_ok.2 hlt]
  exact ⟨rfl, hlt⟩

theorem draws_draw (wf : g.WellFormed) (narrow : g.Narrow) : ∀ {d : Derivation}, d.InRange g →
    Draws (draw g d) (d.draw g)
  | .leaf i, h => by
    intro column depth c hc
    obtain ⟨hhead, hdepth⟩ := drawHead_eq_ok wf narrow (inRange_leaf.1 h) column hc
    refine ⟨?_, by rwa [Derivation.draw, Canvas.size_write]⟩
    rw [draw]
    dsimp only
    rw [hhead, ok_bind, index_eq_ok.2 hdepth]
    rfl
  | .node i l, h => by
    obtain ⟨hi, hl⟩ := inRange_node.1 h
    exact draws_inner wf narrow hi (draws_draw wf narrow hl) .none
  | .fork i l (.leaf _), h => by
    obtain ⟨hi, hl, -⟩ := inRange_fork.1 h
    exact draws_inner wf narrow hi (draws_draw wf narrow hl) .none
  | .fork i l (.node _ r), h => by
    obtain ⟨hi, hl, hr⟩ := inRange_fork.1 h
    exact draws_inner wf narrow hi (draws_draw wf narrow hl)
      (.some (draws_draw wf narrow (inRange_node.1 hr).2))
  | .fork i l (.fork _ r _), h => by
    obtain ⟨hi, hl, hr⟩ := inRange_fork.1 h
    exact draws_inner wf narrow hi (draws_draw wf narrow hl)
      (.some (draws_draw wf narrow (inRange_fork.1 hr).2.1))

/-- **Every derivation of items that exist can be drawn.** -/
theorem render_eq_ok (wf : g.WellFormed) (narrow : g.Narrow) (h : d.InRange g) :
    render g d = .ok (d.render g) := by
  rw [render, (draws_draw wf narrow h 0 0 #[] (Nat.zero_le _)).1]
  rfl

end Checked

end LRAutomata
