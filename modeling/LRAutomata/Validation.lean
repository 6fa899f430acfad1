/-
  Comparing the conflicts of an automaton with the numbers that its grammar
  expects.

  A grammar that expects nothing accepts any number of conflicts.  One that
  expects a number of shift/reduce conflicts has to have exactly these, and as
  many reduce/reduce conflicts as it expects, or none.
-/
import LRAutomata.Automaton.Basic
import LRAutomata.Event

namespace LRAutomata

/-- A number of conflicts that was not expected. -/
inductive ConflictMismatch where
  | shiftReduce (found expected : Nat)
  | reduceReduce (found expected : Nat)
deriving DecidableEq, Repr

/-- The report of a mismatch. -/
def ConflictMismatch.message : ConflictMismatch → String
  | shiftReduce found expected =>
    s!"shift/reduce conflicts: {found} found, {expected} expected"
  | reduceReduce found expected =>
    s!"reduce/reduce conflicts: {found} found, {expected} expected"

namespace Automaton

/-- The numbers of conflicts that the grammar did not expect. -/
def mismatches (g : Grammar) (a : Automaton) : List ConflictMismatch :=
  match g.expect with
  | none => []
  | some expected =>
    let expectedRr := g.expectReduceReduce.getD 0
    (if a.shiftReduceCount = expected then []
      else [.shiftReduce a.shiftReduceCount expected]) ++
    (if a.reduceReduceCount = expectedRr then []
      else [.reduceReduce a.reduceReduceCount expectedRr])

/-- Check the number of conflicts; the first mismatch is the error. -/
def validate (g : Grammar) (a : Automaton) : Except ConflictMismatch Unit :=
  match mismatches g a with
  | [] => .ok ()
  | m :: _ => .error m

/-- The events logged by a check: every mismatch is an error. -/
def validationEvents (g : Grammar) (a : Automaton) : List Event :=
  (mismatches g a).map fun m => ⟨.error, m.message⟩

/-- Warnings about the conflicts that there are. -/
def conflictWarnings (a : Automaton) : List Event :=
  let sr := a.shiftReduceCount
  let rr := a.reduceReduceCount
  (if sr = 0 then [] else [⟨.warn, s!"shift/reduce conflicts: {sr} found"⟩]) ++
  (if rr = 0 then [] else [⟨.warn, s!"reduce/reduce conflicts: {rr} found"⟩])

end Automaton

end LRAutomata
