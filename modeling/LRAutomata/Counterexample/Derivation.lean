/-
  Derivation trees along a path, and their drawing.

  A tree follows the path to a conflict: each node is an item, and the node to
  its left derives the symbol after its dot.  At one node the token on which
  the actions collide may be derived to the right.

  A tree is drawn with one line for each level.  The drawing of a child begins
  below the place where its parent has what the child derives.
-/
import LRAutomata.Item
import LRAutomata.Text.Blank

namespace LRAutomata

/-- A derivation along a path. -/
inductive Derivation where
  /-- The end of the path. -/
  | leaf (item : Item)
  /-- `left` derives the symbol after the dot. -/
  | node (item : Item) (left : Derivation)
  /-- `right` derives the token on which the actions collide, from the symbols
      after the one that `left` derives. -/
  | fork (item : Item) (left right : Derivation)
deriving DecidableEq, Repr

namespace Derivation

/-- The item of the root. -/
def item : Derivation → Item
  | leaf i | node i _ | fork i _ _ => i

/-- The derivation of the symbol after the dot. -/
def left? : Derivation → Option Derivation
  | leaf _ => none
  | node _ l | fork _ l _ => some l

/-- The derivation of the token on which the actions collide. -/
def right? : Derivation → Option Derivation
  | leaf _ | node _ _ => none
  | fork _ _ r => some r

/-- An item above a derivation, if there is one. -/
def above (i : Item) : Option Derivation → Derivation
  | none => leaf i
  | some l => node i l

/-- Derive the token on which the actions collide to the right of the root. -/
def withRight : Derivation → Option Derivation → Derivation
  | node i l, some r => fork i l r
  | d, _ => d

/-- The nodes in preorder. -/
def preorder : Derivation → List Derivation
  | leaf i => [leaf i]
  | node i l => node i l :: l.preorder
  | fork i l r => fork i l r :: (l.preorder ++ r.preorder)

end Derivation

/-- A drawing: lines of text, the top one first. -/
abbrev Canvas := Array String

namespace Canvas

/-- The width of a line in characters. -/
def width (c : Canvas) (depth : Nat) : Nat :=
  (c.getD depth "").length

/-- The drawing with an empty line at `depth`, if there is no line yet. -/
def withLine (c : Canvas) (depth : Nat) : Canvas :=
  if c.size ≤ depth then c.push "" else c

/-- Fill a line with blanks up to a column. -/
def pad (c : Canvas) (depth column : Nat) : Canvas :=
  c.modify depth fun line => line.pushn ' ' (column - line.length)

/-- Write a text at the end of a line. -/
def write (c : Canvas) (depth : Nat) (text : String) : Canvas :=
  c.modify depth (· ++ text)

end Canvas

namespace Derivation

/-- What a node writes first: its rule and the symbols before the dot. -/
def headText (g : Grammar) (i : Item) : String :=
  let rule := i.rule
  s!"{rule}: " ++ g.displaySymbols (i.before g) ++ " "

/-- What a leaf writes last: the dot and the symbols after it. -/
def tailText (g : Grammar) (i : Item) : String :=
  " • " ++ g.displaySymbols (i.after g) ++ " "

/-- What a node writes for the symbol after the dot. -/
def nextText (g : Grammar) (i : Item) : String :=
  ((i.next? g).map g.display).getD ""

/-- What a node writes for the symbols after that one. -/
def restText (g : Grammar) (i : Item) : String :=
  g.displaySymbols (i.afterNext g) ++ " "

/-- Begin a node at a column of a line. -/
def drawHead (g : Grammar) (i : Item) (column depth : Nat) (c : Canvas) : Canvas :=
  ((c.withLine depth).pad depth column).write depth (headText g i)

/-- A way to draw something from a column of a line on.  The answer has the
    column after the drawing. -/
abbrev Drawing := (column depth : Nat) → Canvas → Canvas × Nat

/-- Draw a node with what is derived from the symbol after its dot and, if
    there is such a thing, from the symbols after that one. -/
def drawInner (g : Grammar) (i : Item) (left : Drawing) (right? : Option Drawing) : Drawing :=
  fun column depth c =>
    let c := drawHead g i column depth c
    let (c, last) := left (c.width depth) (depth + 1) (c.write depth (nextText g i))
    let c := c.pad depth last
    let c := match right? with
      | some right =>
        let (c, last) := right (c.width depth) (depth + 1) c
        (c.write depth (restText g i)).pad depth last
      | none => if (i.nextNext? g).isSome then c.write depth (restText g i) else c
    (c, c.width depth)

/-- Draw a derivation.  Of a derivation to the right, only what lies below its
    root is drawn: its root is the node itself, with the dot moved on. -/
def draw (g : Grammar) : Derivation → Drawing
  | leaf i => fun column depth c =>
    let c := (drawHead g i column depth c).write depth (tailText g i)
    (c, c.width depth)
  | node i l | fork i l (leaf _) => drawInner g i (l.draw g) none
  | fork i l (node _ r) | fork i l (fork _ r _) => drawInner g i (l.draw g) (some (r.draw g))

/-- The lines of the drawing, without blanks at their ends. -/
def render (g : Grammar) (d : Derivation) : List String :=
  (d.draw g 0 0 #[]).1.toList.map fun line => String.ofList (Text.trimEnd line.toList)

end Derivation

end LRAutomata
