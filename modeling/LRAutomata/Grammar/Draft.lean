/-
  Grammars under construction.

  A grammar is declared step by step: terminals, nonterminals, precedence
  levels, rules and a few settings.  A `Draft` is what the declarations so far
  amount to.  Names are checked when they are declared; whether the names used
  in rules are defined is checked later, when the grammar is complete.

  A declaration that fails may leave something behind: a precedence level is
  opened before its names are checked, and the names before the bad one keep
  it (`Draft.declare`).
-/
import LRAutomata.Data.OrderedSet
import LRAutomata.Grammar.Error
import LRAutomata.Text.CharLiteral
import LRAutomata.Text.Identifier

namespace LRAutomata

open Text

/-- A rule as it is written, with names for symbols. -/
structure RuleDecl where
  lhs : String
  rhs : List String
  /-- The symbol named by `%prec`. -/
  prec : Option String
  line : Nat
deriving DecidableEq, Repr

/-- A step in the definition of a grammar. -/
inductive Declaration where
  /-- Declare a terminal, or add to an earlier declaration of it. -/
  | terminal (name : String) (aliasName : Option String) (token : Option Nat)
  /-- Declare a nonterminal, which fixes its place in the numbering. -/
  | nonterminal (name : String)
  /-- Open the next stronger precedence level and put terminals on it. -/
  | precedence (assoc : Assoc) (names : List String)
  | rule (decl : RuleDecl)
  /-- Choose the start symbol instead of the left-hand side of the first rule. -/
  | start (name : String)
  /-- Expect a number of shift/reduce conflicts. -/
  | expect (count : Nat)
  /-- Expect a number of reduce/reduce conflicts. -/
  | expectReduceReduce (count : Nat)
  /-- Set a variable. -/
  | define (key value : String)
deriving DecidableEq, Repr

/-- What has been declared about a terminal. -/
structure TerminalDecl where
  aliasName : Option String
  token : Option Nat
  precedence : Option Precedence
deriving DecidableEq, Repr

/-- The declaration that says nothing but that there is such a terminal. -/
def TerminalDecl.plain : TerminalDecl :=
  ⟨none, none, none⟩

/-- A grammar under construction. -/
structure Draft where
  terminals : OrderedMap String TerminalDecl
  nonterminals : OrderedSet String
  /-- The precedence level to be opened next.  It is counted in sixteen bits, and not
      bounded here: more than 65535 levels are beyond what is modelled. -/
  nextLevel : Nat
  rules : Array RuleDecl
  start : Option String
  expect : Option Nat
  expectReduceReduce : Option Nat
  settings : OrderedMap String String

namespace Draft

/-- The draft in which nothing is declared. -/
def empty : Draft where
  terminals := ∅
  nonterminals := ∅
  nextLevel := 0
  rules := #[]
  start := none
  expect := none
  expectReduceReduce := none
  settings := ∅

/-- Why a name cannot be that of a terminal: terminals are identifiers and
    character literals that stand for a character. -/
def terminalNameError? (name : String) : Option GrammarError :=
  if CharLiteral.isLiteral name then
    if (CharLiteral.code? name).isSome then none else some (.invalidCharLiteral name)
  else if isIdentifier name then none
  else some (.invalidName name)

/-- Why a name cannot be that of a nonterminal: nonterminals are identifiers. -/
def nonterminalNameError? (name : String) : Option GrammarError :=
  if isIdentifier name then none else some (.invalidName name)

/-- Declare a terminal, or change what was declared about it. -/
def declareTerminal (d : Draft) (name : String) (change : TerminalDecl → TerminalDecl) : Draft :=
  { d with terminals := d.terminals.update name fun decl? => change (decl?.getD .plain) }

/-- Put terminals on a precedence level, up to the first bad name. -/
def assignPrecedence (p : Precedence) (d : Draft) : List String → Draft × Option GrammarError
  | [] => (d, none)
  | name :: names =>
    match terminalNameError? name with
    | some e => (d, some e)
    | none =>
      let d := d.declareTerminal name fun decl => { decl with precedence := some p }
      assignPrecedence p d names

/-- Carry out a declaration.  The answer has what the declaration leaves
    behind, and the error if it fails. -/
def declare (d : Draft) : Declaration → Draft × Option GrammarError
  | .terminal name aliasName token =>
    match terminalNameError? name with
    | some e => (d, some e)
    | none =>
      let change (decl : TerminalDecl) : TerminalDecl :=
        { decl with aliasName := aliasName <|> decl.aliasName, token := token <|> decl.token }
      (d.declareTerminal name change, none)
  | .nonterminal name =>
    match nonterminalNameError? name with
    | some e => (d, some e)
    | none => ({ d with nonterminals := d.nonterminals.insert name }, none)
  | .precedence assoc names =>
    assignPrecedence ⟨d.nextLevel, assoc⟩ { d with nextLevel := d.nextLevel + 1 } names
  | .rule decl => ({ d with rules := d.rules.push decl }, none)
  | .start name => ({ d with start := some name }, none)
  | .expect count => ({ d with expect := some count }, none)
  | .expectReduceReduce count => ({ d with expectReduceReduce := some count }, none)
  | .define key value => ({ d with settings := d.settings.insert key value }, none)

/-- Carry out declarations up to the first that fails. -/
def declareAll (d : Draft) : List Declaration → Except GrammarError Draft
  | [] => .ok d
  | decl :: decls =>
    match d.declare decl with
    | (_, some e) => .error e
    | (d, none) => d.declareAll decls

/-- Carry out all declarations, also after one that fails; the answer has the
    outcome of each. -/
def declareEach (d : Draft) (decls : List Declaration) : Draft × List (Option GrammarError) :=
  let (d, outcomes) := decls.foldl (fun (d, outcomes) decl =>
    let (d, e?) := d.declare decl
    (d, e? :: outcomes)) (d, [])
  (d, outcomes.reverse)

end Draft

end LRAutomata
