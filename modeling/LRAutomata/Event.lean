/-
  Log events.
-/

namespace LRAutomata

/-- How important an event is. -/
inductive Level where
  | error
  | warn
  | info
  | debug
  | trace
deriving DecidableEq, Repr

/-- A message in the log. -/
structure Event where
  level : Level
  message : String
deriving DecidableEq, Repr

end LRAutomata
