/-
  LR(0) items: a rule with a dot in its right-hand side.

  An item is written `A → α • β`.  The symbols before and after the dot are
  those of the rule, cut at the position; a position beyond the end counts as
  the end where symbols are listed.

  A position takes sixteen bits where items are stored.  Here it is any number,
  so what is said of items, and of the automata made of them, is said of grammars
  with right-hand sides that fit (`Grammar.Narrow`).  For the others `Table.lr0`
  and `Checked` tell where the computations stop.
-/
import LRAutomata.Data.Order
import LRAutomata.Grammar.Display

namespace LRAutomata

open Std

/-- A rule with a dot before the symbol at `position` of its right-hand side.  The
    position is not bounded here. -/
structure Item where
  rule : RuleId
  position : Nat
deriving DecidableEq, Repr, Inhabited

namespace Item

/-- Items are ordered by rule, then by position. -/
instance : Ord Item := ⟨compareLex (compareOn rule) (compareOn position)⟩

instance : TransOrd Item :=
  inferInstanceAs (TransCmp (compareLex (compareOn rule) (compareOn position)))

instance : LawfulEqOrd Item :=
  lawful_compareLex rule position (by rintro ⟨⟩ ⟨⟩ rfl rfl; rfl)

/-- The item with which every parse begins. -/
def start : Item :=
  ⟨RuleId.accept, 0⟩

/-- The left-hand side of the item's rule. -/
def lhs (g : Grammar) (i : Item) : SymbolId :=
  g.lhs i.rule

/-- The symbol after the dot. -/
def next? (g : Grammar) (i : Item) : Option SymbolId :=
  (g.rhs i.rule)[i.position]?

/-- The symbol after the one after the dot. -/
def nextNext? (g : Grammar) (i : Item) : Option SymbolId :=
  (g.rhs i.rule)[i.position + 1]?

/-- The symbol before the dot. -/
def previous? (g : Grammar) (i : Item) : Option SymbolId :=
  match i.position with
  | 0 => none
  | n + 1 => (g.rhs i.rule)[n]?

/-- Whether the dot is at the end of the rule. -/
def isComplete (g : Grammar) (i : Item) : Bool :=
  i.position = (g.rhs i.rule).length

/-- Whether the dot is at the beginning of the rule. -/
def isInitial (i : Item) : Bool :=
  i.position = 0

/-- Whether this is the item with which every parse begins. -/
def isStart (i : Item) : Bool :=
  i = start

/-- The item with the dot one symbol further. -/
def advance (i : Item) : Item :=
  { i with position := i.position + 1 }

/-- The item with the dot one symbol back. -/
def retreat? (i : Item) : Option Item :=
  match i.position with
  | 0 => none
  | n + 1 => some { i with position := n }

/-- The symbols before the dot. -/
def before (g : Grammar) (i : Item) : List SymbolId :=
  (g.rhs i.rule).take i.position

/-- The symbols after the dot. -/
def after (g : Grammar) (i : Item) : List SymbolId :=
  (g.rhs i.rule).drop i.position

/-- The symbols after the one after the dot. -/
def afterNext (g : Grammar) (i : Item) : List SymbolId :=
  (g.rhs i.rule).drop (i.position + 1)

/-- Whether `j` is this item with the dot one symbol further. -/
def precedes (i j : Item) : Bool :=
  i.advance = j

/-- An item as text, with the dot as `•`. -/
def display (g : Grammar) (i : Item) : String :=
  let symbols := (i.before g).map g.display ++ "•" :: (i.after g).map g.display
  g.display (i.lhs g) ++ " -> " ++ " ".intercalate symbols

end Item

end LRAutomata
