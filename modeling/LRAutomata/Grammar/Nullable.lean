/-
  Rules and symbols that derive the empty string.

  Whether a rule or a symbol is nullable is settled in passes.  A pass judges the
  rules of which nothing is known by what is known of the symbols, and then the
  symbols by what is known of the rules.  Verdicts of both kinds are passed on and
  none is revised.  A pass that settles nothing is the last one, and whatever is
  still unknown then is not nullable.
-/
import LRAutomata.Data.NatSet
import LRAutomata.Grammar.Rule

namespace LRAutomata.Nullable

/-- For each number whether what it stands for is nullable; `none` while that is unknown. -/
abbrev Verdicts := Array (Option Bool)

namespace Verdicts

/-- What is known of `n`. -/
def of (v : Verdicts) (n : Nat) : Option Bool :=
  v.getD n none

/-- Judge what is still unknown. -/
def extend (v : Verdicts) (judge : Nat → Option Bool) : Verdicts :=
  v.mapIdx fun n known => known.or (judge n)

/-- How much is still unknown. -/
def unknowns (v : Verdicts) : Nat :=
  v.toList.countP Option.isNone

end Verdicts

/-- What is known of the rules and of the symbols. -/
@[ext]
structure Findings where
  rules : Verdicts
  symbols : Verdicts
deriving DecidableEq

namespace Findings

/-- At first only the terminals are settled. -/
def start (ruleCount terminalCount symbolCount : Nat) : Findings where
  rules := Array.replicate ruleCount none
  symbols := ((List.range symbolCount).map fun X =>
    if X < terminalCount then some false else none).toArray

/-- The number of rules and symbols of which nothing is known. -/
def unknowns (k : Findings) : Nat :=
  k.rules.unknowns + k.symbols.unknowns

end Findings

/-- What is known of a string, given what is known of the symbols. -/
def judgeString (terminalCount : Nat) (symbols : Verdicts) (α : List SymbolId) : Option Bool :=
  if α.isEmpty then some true
  else if α.any (· < terminalCount) then some false
  else if α.all (symbols.of · = some true) then some true
  else if α.any (symbols.of · = some false) then some false
  else none

/-- What is known of a symbol, given its rules and what is known of them. -/
def judgeSymbol (rules : Verdicts) (rulesOf : List RuleId) : Option Bool :=
  if rulesOf.any (rules.of · = some true) then some true
  else if rulesOf.all (rules.of · = some false) then some false
  else none

section
variable (rules : Array Rule) (rulesOf : SymbolId → List RuleId) (terminalCount : Nat)

/-- Judge the rules, then the symbols. -/
def pass (k : Findings) : Findings :=
  let known := k.rules.extend fun r => judgeString terminalCount k.symbols (rules.getD r default).rhs
  { rules := known
    symbols := k.symbols.extend fun X => judgeSymbol known (rulesOf X) }

/-- Passes until one of them leaves as much unknown as before. -/
def settle : (passes : Nat) → Findings → Findings
  | 0, k => k
  | passes + 1, k =>
    let k' := pass rules rulesOf terminalCount k
    if k'.unknowns = k.unknowns then k' else settle passes k'

/-- What the passes find out.  Each but the last settles a rule or a symbol,
    which bounds their number. -/
def ofRules (symbolCount : Nat) : Findings :=
  settle rules rulesOf terminalCount (rules.size + symbolCount + 1)
    (Findings.start rules.size terminalCount symbolCount)

end

/-- The numbers that were found to be nullable. -/
def members (v : Verdicts) : NatSet :=
  NatSet.ofList ((List.range v.size).filter fun n => v.of n = some true)

/-- Whether all symbols of the string are in the set. -/
def covers (nullable : NatSet) (symbols : List SymbolId) : Bool :=
  symbols.all (· ∈ nullable)

end LRAutomata.Nullable
