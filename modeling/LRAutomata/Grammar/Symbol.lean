/-
  Grammar symbols: terminals and nonterminals, with the attributes that a
  parser generator keeps for them.

  Symbols are numbered, terminals first.  Three terminals are reserved: the
  end of the input, the error token, and the token for unknown input.
-/

namespace LRAutomata

/-- The number of a grammar symbol. -/
abbrev SymbolId := Nat

namespace SymbolId

/-- The reserved terminal at the end of every input. -/
def endMarker : SymbolId := 0

/-- The reserved terminal used to recover from errors. -/
def error : SymbolId := 1

/-- The reserved terminal that stands for an unknown token. -/
def undefined : SymbolId := 2

end SymbolId

/-- How operators of one precedence level group. -/
inductive Assoc where
  | left
  | right
  /-- Two operators in a row are an error. -/
  | nonassoc
  /-- The level orders the operators, but says nothing about equals. -/
  | precedence
deriving DecidableEq, Repr

/-- The declaration that introduces an associativity. -/
def Assoc.keyword : Assoc → String
  | .left => "%left"
  | .right => "%right"
  | .nonassoc => "%nonassoc"
  | .precedence => "%precedence"

/-- A precedence level, counted from the weakest, and its associativity.  As for
    `Draft.nextLevel`, the level is not bounded here. -/
structure Precedence where
  level : Nat
  assoc : Assoc
deriving DecidableEq, Repr

/-- The attributes of a grammar symbol. -/
structure Symbol where
  name : String
  /-- Another name for the symbol, preferred in displays. -/
  aliasName : Option String
  isTerminal : Bool
  /-- The number of the token, as a lexer produces it; for a nonterminal its
      number among the nonterminals. -/
  token : Nat
  precedence : Option Precedence
deriving DecidableEq, Repr, Inhabited

/-- The name under which a symbol is displayed. -/
def Symbol.displayName (s : Symbol) : String :=
  s.aliasName.getD s.name

end LRAutomata
