/-
  Conditions that a grammar has to satisfy as a whole: an alias belongs to one
  symbol, and a left-hand side is a nonterminal.
-/
import LRAutomata.Grammar.Basic

namespace LRAutomata

/-- For each alias the names of the symbols that have it, in the order of the symbols. -/
def aliasOwners (symbols : List Symbol) : OrderedMap String (List String) :=
  symbols.foldl (fun owners s =>
    match s.aliasName with
    | some aliasName => owners.update aliasName fun names? => names?.getD [] ++ [s.name]
    | none => owners) ∅

/-- Check that no two symbols have the same alias. -/
def checkAliases (symbols : List Symbol) : Except GrammarError Unit :=
  match (aliasOwners symbols).toList.find? fun owner => 1 < owner.2.length with
  | some (aliasName, names) => .error (.duplicatedAlias aliasName names)
  | none => .ok ()

/-- Check that every rule has a nonterminal on its left-hand side. -/
def checkRules (symbols : Array Symbol) (terminalCount : Nat) (rules : List Rule) :
    Except GrammarError Unit :=
  match rules.zipIdx.find? fun r => r.1.lhs < terminalCount with
  | some (r, id) => .error (.terminalLhs id (symbols.getD r.lhs default).name r.line)
  | none => .ok ()

/-- Check the conditions that a grammar has to satisfy as a whole. -/
def Grammar.validate (g : Grammar) : Except GrammarError Unit := do
  checkAliases g.symbols.toList
  checkRules g.symbols g.terminalCount g.rules.toList

end LRAutomata
