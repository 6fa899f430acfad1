/-
  Blank characters, in the sense of the Unicode property `White_Space`, and
  texts without the blanks at their end.
-/
import LRAutomata.Text.Identifier

namespace LRAutomata.Text

/-- The code points of `White_Space`, as ascending ranges `(first, last)`. -/
def whiteSpace : List (Nat × Nat) :=
  [ (0x9, 0xD), (0x20, 0x20), (0x85, 0x85), (0xA0, 0xA0), (0x1680, 0x1680), (0x2000, 0x200A),
    (0x2028, 0x2029), (0x202F, 0x202F), (0x205F, 0x205F), (0x3000, 0x3000) ]

/-- Whether the character is blank. -/
def isBlank (c : Char) : Bool :=
  inRanges whiteSpace c

/-- The characters without the blank ones at the end. -/
def trimEnd (cs : List Char) : List Char :=
  (cs.reverse.dropWhile isBlank).reverse

end LRAutomata.Text
