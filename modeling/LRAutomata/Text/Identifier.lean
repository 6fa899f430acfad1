/-
  Names of symbols: identifiers.

  An identifier begins with a letter (in the sense of Unicode), `_` or `.`,
  and goes on with letters, digits, marks, `_`, `.` or `-`.
-/
import LRAutomata.Text.XidStart
import LRAutomata.Text.XidExtend

namespace LRAutomata.Text

/-- Whether the character lies in one of the ranges. -/
def inRanges (ranges : List (Nat × Nat)) (c : Char) : Bool :=
  ranges.any fun r => r.1 ≤ c.toNat && c.toNat ≤ r.2

/-- Whether an identifier may begin with the character. -/
def isIdentifierStart (c : Char) : Bool :=
  c == '_' || c == '.' || inRanges xidStart c

/-- Whether an identifier may go on with the character. -/
def isIdentifierRest (c : Char) : Bool :=
  c == '.' || c == '-' || inRanges xidStart c || inRanges xidExtend c

/-- Whether the name is an identifier. -/
def isIdentifier (name : String) : Bool :=
  match name.toList with
  | [] => false
  | first :: rest => isIdentifierStart first && rest.all isIdentifierRest

end LRAutomata.Text
