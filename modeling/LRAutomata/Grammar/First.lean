/-
  FIRST sets: the terminals with which the strings derived from a symbol can
  begin.

  A terminal begins with itself.  The sets of the nonterminals are built from
  below, round by round, from the beginnings of their right-hand sides.
-/
import LRAutomata.Data.NatSet
import LRAutomata.Grammar.Rule

namespace LRAutomata.First

/-- The terminals with which a string can begin, given those of its symbols:
    symbols count as long as all symbols before them are nullable. -/
def ofString (nullable : NatSet) (first : SymbolId → NatSet) : List SymbolId → NatSet
  | [] => ∅
  | X :: rest => if X ∈ nullable then first X ∪ ofString nullable first rest else first X

/-- The terminals with which a symbol can begin, given the sets of the
    nonterminals, which are numbered after the terminals. -/
def ofSymbol (terminalCount : Nat) (sets : Array NatSet) (X : SymbolId) : NatSet :=
  if X < terminalCount then {X} else sets.getD (X - terminalCount) ∅

section
variable (terminalCount : Nat) (nullable : NatSet)

/-- The terminals of a symbol come to the set of a left-hand side.  The mark tells
    whether any set was changed so far; a symbol has nothing to give to itself. -/
def give (lhs X : SymbolId) : Array NatSet × Bool → Array NatSet × Bool
  | (sets, changed) =>
    let given := ofSymbol terminalCount sets X
    if X = lhs ∨ given ⊆ ofSymbol terminalCount sets lhs then (sets, changed)
    else (sets.modify (lhs - terminalCount) (· ∪ given), true)

/-- Read a right-hand side from left to right, up to the first symbol that is not
    nullable. -/
def readRhs (lhs : SymbolId) : List SymbolId → Array NatSet × Bool → Array NatSet × Bool
  | [], s => s
  | X :: rest, s =>
    let s := give terminalCount lhs X s
    if X ∈ nullable then readRhs lhs rest s else s

variable (rules : List Rule)

/-- One round: the right-hand sides of all rules are read. -/
def step (sets : Array NatSet) : Array NatSet × Bool :=
  rules.foldl (fun s r => readRhs terminalCount nullable r.lhs r.rhs s) (sets, false)

/-- Rounds until one of them changes no set. -/
def run : (rounds : Nat) → Array NatSet → Array NatSet
  | 0, sets => sets
  | rounds + 1, sets =>
    let (sets, changed) := step terminalCount nullable rules sets
    if changed then run rounds sets else sets

end

/-- The FIRST sets of the nonterminals.  Every round but the last adds a
    terminal to the set of a nonterminal, which bounds the rounds. -/
def ofRules (rules : List Rule) (terminalCount nonterminalCount : Nat) (nullable : NatSet) :
    Array NatSet :=
  run terminalCount nullable rules (nonterminalCount * terminalCount + 1)
    (Array.replicate nonterminalCount ∅)

end LRAutomata.First
