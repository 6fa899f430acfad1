/-
  The table that numbers the symbols of a grammar.

  A symbol gets the next number when it is added; adding a name again changes
  nothing.  A symbol is found by its name, or else by its alias, the first
  symbol with that alias counting (`SymbolTable.find?`).

  A terminal without an explicit token number gets the code of its character
  literal, or the next number from 256 on; nonterminals are counted from 0.
-/
import Std.Data.TreeMap
import LRAutomata.Grammar.Error
import LRAutomata.Text.CharLiteral

namespace LRAutomata

open Std Text

/-- The symbols numbered so far. -/
structure SymbolTable where
  symbols : Array Symbol
  byName : TreeMap String SymbolId
  /-- For each alias the first symbol that has it. -/
  byAlias : TreeMap String SymbolId
  /-- How many token numbers have been given out automatically. -/
  autoTokens : Nat
  nonterminalCount : Nat

namespace SymbolTable

/-- The first token number that is given out automatically. -/
def firstToken : Nat := 256

/-- The number of symbols that a grammar may have. -/
def limit : Nat := 65536

/-- The table without symbols. -/
def empty : SymbolTable where
  symbols := #[]
  byName := ∅
  byAlias := ∅
  autoTokens := 0
  nonterminalCount := 0

/-- The symbol with this name, or else the first symbol with this alias. -/
def find? (t : SymbolTable) (name : String) : Option SymbolId :=
  t.byName[name]? <|> t.byAlias[name]?

/-- The symbol that a name in a rule stands for. -/
def resolve (t : SymbolTable) (name : String) : Except GrammarError SymbolId :=
  match t.find? name with
  | some id => .ok id
  | none => .error (.undefinedSymbol name)

/-- Give the next number to a symbol. -/
def push (t : SymbolTable) (s : Symbol) : SymbolTable :=
  let id := t.symbols.size
  { t with
    symbols := t.symbols.push s
    byName := t.byName.insert s.name id
    byAlias := match s.aliasName with
      | some aliasName => t.byAlias.insertIfNew aliasName id
      | none => t.byAlias }

/-- Add a terminal, unless there is a symbol of that name. -/
def addTerminal (t : SymbolTable) (name : String) (aliasName : Option String)
    (token : Option Nat) (precedence : Option Precedence) : Except GrammarError SymbolTable :=
  let add (t : SymbolTable) (token : Nat) : SymbolTable :=
    t.push { name, aliasName, isTerminal := true, token, precedence }
  if t.byName.contains name then .ok t
  else if limit ≤ t.symbols.size then .error .tooManySymbols
  else match token with
    | some token => .ok (add t token)
    | none =>
      if CharLiteral.isLiteral name then
        match CharLiteral.code? name with
        | some code => .ok (add t code)
        | none => .error (.invalidCharLiteral name)
      else .ok (add { t with autoTokens := t.autoTokens + 1 } (firstToken + t.autoTokens))

/-- Add a nonterminal, unless there is a symbol of that name. -/
def addNonterminal (t : SymbolTable) (name : String) : Except GrammarError SymbolTable :=
  if t.byName.contains name then .ok t
  else if limit ≤ t.symbols.size then .error .tooManySymbols
  else
    let token := t.nonterminalCount
    .ok ({ t with nonterminalCount := t.nonterminalCount + 1 }.push
      { name, aliasName := none, isTerminal := false, token, precedence := none })

end SymbolTable

end LRAutomata
