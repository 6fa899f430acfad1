/-
  Context-free grammars, ready for use.

  Symbols and rules are numbered from 0.  The terminals come first, the first
  nonterminal is the accepting symbol, and rule 0 produces the start symbol
  and the end marker from it.  Nullable symbols and FIRST sets are known.

  Looking up a symbol or rule that does not exist gives an empty one; the
  functions on items and automata only look up what exists.
-/
import LRAutomata.Data.OrderedMap
import LRAutomata.Grammar.First
import LRAutomata.Grammar.Nullable
import LRAutomata.Grammar.SymbolTable

namespace LRAutomata

/-- A context-free grammar with numbered symbols and rules. -/
structure Grammar where
  table : SymbolTable
  terminalCount : Nat
  rules : Array Rule
  start : SymbolId
  /-- The rules of each symbol, in ascending order. -/
  rulesBySymbol : Array (List RuleId)
  /-- The symbols that derive the empty string. -/
  nullable : NatSet
  /-- For each rule whether its right-hand side derives the empty string. -/
  nullableRules : Array Bool
  /-- The FIRST sets of the nonterminals. -/
  firstSets : Array NatSet
  /-- The expected number of shift/reduce conflicts. -/
  expect : Option Nat
  /-- The expected number of reduce/reduce conflicts. -/
  expectReduceReduce : Option Nat
  settings : OrderedMap String String

namespace Grammar

/-- The symbols in the order of their numbers. -/
def symbols (g : Grammar) : Array Symbol :=
  g.table.symbols

/-- The attributes of a symbol. -/
def symbol (g : Grammar) (X : SymbolId) : Symbol :=
  g.symbols.getD X default

/-- The text that stands for a symbol in displays. -/
def display (g : Grammar) (X : SymbolId) : String :=
  (g.symbol X).displayName

/-- Whether a symbol is a terminal. -/
def isTerminal (g : Grammar) (X : SymbolId) : Bool :=
  X < g.terminalCount

/-- The number of nonterminals. -/
def nonterminalCount (g : Grammar) : Nat :=
  g.symbols.size - g.terminalCount

/-- The terminals in ascending order. -/
def terminals (g : Grammar) : List SymbolId :=
  List.range g.terminalCount

/-- The nonterminals in ascending order. -/
def nonterminals (g : Grammar) : List SymbolId :=
  (List.range g.symbols.size).drop g.terminalCount

/-- The rule with the given number. -/
def rule (g : Grammar) (r : RuleId) : Rule :=
  g.rules.getD r default

/-- The left-hand side of a rule. -/
def lhs (g : Grammar) (r : RuleId) : SymbolId :=
  (g.rule r).lhs

/-- The right-hand side of a rule. -/
def rhs (g : Grammar) (r : RuleId) : List SymbolId :=
  (g.rule r).rhs

/-- The rules of a symbol, in ascending order. -/
def rulesOf (g : Grammar) (X : SymbolId) : List RuleId :=
  g.rulesBySymbol.getD X []

/-- The left-hand side of the accepting rule. -/
def accept (g : Grammar) : SymbolId :=
  g.lhs RuleId.accept

/-- The symbol with this name, or else the first symbol with this alias. -/
def find? (g : Grammar) (name : String) : Option SymbolId :=
  g.table.find? name

/-- The value of a variable. -/
def setting? (g : Grammar) (key : String) : Option String :=
  g.settings.get? key

/-- Whether a symbol derives the empty string. -/
def isNullable (g : Grammar) (X : SymbolId) : Bool :=
  X ∈ g.nullable

/-- Whether all symbols of the string derive the empty string. -/
def isNullableString (g : Grammar) (symbols : List SymbolId) : Bool :=
  Nullable.covers g.nullable symbols

/-- Whether the right-hand side of a rule derives the empty string. -/
def isNullableRule (g : Grammar) (r : RuleId) : Bool :=
  g.nullableRules.getD r false

/-- The terminals with which the strings derived from a symbol can begin. -/
def first (g : Grammar) (X : SymbolId) : NatSet :=
  First.ofSymbol g.terminalCount g.firstSets X

/-- The terminals with which the strings derived from a string can begin. -/
def firstOfString (g : Grammar) (symbols : List SymbolId) : NatSet :=
  First.ofString g.nullable g.first symbols

/-- The precedence of a rule, which is that of its precedence symbol. -/
def rulePrecedence (g : Grammar) (r : RuleId) : Option Precedence :=
  (g.rule r).precSymbol.bind fun X => (g.symbol X).precedence

/-- The nonterminals other than the accepting one that stand on no right-hand side. -/
def unusedNonterminals (g : Grammar) : List SymbolId :=
  let used := g.rules.foldl (fun s r => r.rhs.foldl (fun s X => insert X s) s) (∅ : NatSet)
  g.nonterminals.filter fun X => (g.symbol X).token ≠ 0 ∧ X ∉ used

/-- Whether the grammar asks for the splitting of states. -/
def wantsSplitting (g : Grammar) : Bool :=
  g.setting? "lr.type" = some "ielr"

end Grammar

end LRAutomata
