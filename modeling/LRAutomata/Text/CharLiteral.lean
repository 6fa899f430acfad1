/-
  Character literals such as `'+'`, `'\n'` or `'\101'`, and their codes.

  A literal is a text between single quotes.  Its code is that of the
  character it stands for: a named escape, an octal number after a backslash,
  or a single character, of which the first byte of its UTF-8 form counts.
-/

namespace LRAutomata.Text

namespace CharLiteral

/-- What stands between the quotes of a character literal; nothing else has a body. -/
def body? (name : String) : Option (List Char) :=
  match name.toList with
  | '\'' :: rest =>
    if 2 ≤ rest.length ∧ rest.getLast? = some '\'' then some rest.dropLast else none
  | _ => none

/-- Whether the name is written as a character literal. -/
def isLiteral (name : String) : Bool :=
  (body? name).isSome

/-- The code of an escape, by the letter after the backslash. -/
def escapeCode? : Char → Option Nat
  | 'b' => some 8
  | 't' => some 9
  | 'n' => some 10
  | 'v' => some 11
  | 'f' => some 12
  | 'r' => some 13
  | '\'' => some 39
  | '\\' => some 92
  | _ => none

/-- The value of a digit that an octal number may have. -/
def octalDigit? (c : Char) : Option Nat :=
  if '0' ≤ c ∧ c ≤ '7' then some (c.toNat - '0'.toNat) else none

/-- The value of an octal number of at least one digit. -/
def octal? : List Char → Option Nat
  | [] => none
  | digits => digits.foldlM (fun n c => (octalDigit? c).map (8 * n + ·)) 0

/-- Token numbers have 32 bits: codes are below this limit. -/
def codeLimit : Nat :=
  0x100000000

/-- The first byte of the UTF-8 form of a character. -/
def leadByte (c : Char) : Nat :=
  let n := c.toNat
  if n < 0x80 then n
  else if n < 0x800 then 0xC0 + n / 0x40
  else if n < 0x10000 then 0xE0 + n / 0x1000
  else 0xF0 + n / 0x40000

/-- The code of a literal with the given body, if it stands for a character. -/
def bodyCode? : List Char → Option Nat
  | '\\' :: rest =>
    match rest with
    | [c] => escapeCode? c <|> octal? [c]
    | digits => (octal? digits).filter (· < codeLimit)
  | [c] => some (leadByte c)
  | _ => none

/-- The code of a character literal. -/
def code? (name : String) : Option Nat :=
  (body? name).bind bodyCode?

end CharLiteral

end LRAutomata.Text
