/-
  First-in first-out worklists in which a value waits at most once.

  A value that waits already is not queued again; once it has been taken it
  may be queued anew.  `toList` is the queue, the oldest value first.
-/
import Std.Data.TreeSet

namespace LRAutomata

open Std

/-- A queue without repetitions.  The values to be taken next are in `front`,
    those queued last are in `back`, the newest first. -/
structure Worklist (α : Type) [Ord α] where
  front : List α
  back : List α
  /-- The values that wait, for fast lookup. -/
  waiting : TreeSet α

namespace Worklist

variable {α : Type} [Ord α]

/-- The worklist in which nothing waits. -/
def empty : Worklist α :=
  ⟨[], [], ∅⟩

instance : EmptyCollection (Worklist α) := ⟨empty⟩

instance : Inhabited (Worklist α) := ⟨empty⟩

/-- The values that wait, the oldest first. -/
def toList (w : Worklist α) : List α :=
  w.front ++ w.back.reverse

/-- The number of values that wait. -/
def size (w : Worklist α) : Nat :=
  w.front.length + w.back.length

/-- Whether nothing waits. -/
def isEmpty (w : Worklist α) : Bool :=
  w.front.isEmpty && w.back.isEmpty

/-- Queue `a` unless it waits already; the answer is whether it was queued. -/
def push (w : Worklist α) (a : α) : Worklist α × Bool :=
  if w.waiting.contains a then (w, false)
  else ({ w with back := a :: w.back, waiting := w.waiting.insert a }, true)

/-- Queue the values listed, one after the other. -/
def pushAll (w : Worklist α) (as : List α) : Worklist α :=
  as.foldl (fun w a => (w.push a).1) w

/-- Take the oldest value. -/
def pop? (w : Worklist α) : Option (α × Worklist α) :=
  match w.front with
  | a :: front => some (a, { w with front, waiting := w.waiting.erase a })
  | [] =>
    match w.back.reverse with
    | a :: front => some (a, { front, back := [], waiting := w.waiting.erase a })
    | [] => none

end Worklist

end LRAutomata
