/-
  Splitting the rows of a table.

  * `Table.Walk` is the walk that redirects transitions and copies rows;
  * `Table.prune` drops the rows that are no longer reached and renumbers the
    others: their own numbers, their transitions and their isocores, and their
    predecessors are noted anew;
  * `Table.split` clears what the remaining rows have recorded, and records it
    again.
-/
import LRAutomata.Automaton.Generate
import LRAutomata.Table.Lr0

namespace LRAutomata.Table

/-- The state of the walk. -/
structure Walk where
  /-- The rows so far; copies come after those of the table. -/
  rows : Array Row
  /-- The lookaheads that have reached each row; `none` if none have yet. -/
  lookaheads : Array (Option (List NatSet))
  /-- For each row of the table itself and its copies. -/
  copies : Array (List StateId)
  queue : Worklist StateId

namespace Walk

/-- The walk before its first step. -/
def start (t : Table) : Walk :=
  let empty := (t.row StateId.start).kernel.map fun _ => (∅ : NatSet)
  { rows := t.rows
    lookaheads := (Array.replicate t.rows.size none).setIfInBounds StateId.start (some empty)
    copies := ((List.range t.rows.size).map ([·])).toArray
    queue := ((∅ : Worklist StateId).push StateId.start).1 }

/-- The lookaheads that have reached a row. -/
def lookaheads? (w : Walk) (q : StateId) : Option (List NatSet) :=
  w.lookaheads.getD q none

/-- Let lookaheads reach a row.  If they are new there, the row has to be walked
    from again. -/
def deliver (w : Walk) (q : StateId) (incoming : List NatSet) : Walk :=
  let merged := match w.lookaheads? q with
    | some current => current.zipWith (· ∪ ·) incoming
    | none => incoming
  if w.lookaheads? q = some merged then w
  else
    { w with
      lookaheads := w.lookaheads.setIfInBounds q (some merged)
      queue := (w.queue.push q).1 }

/-- Append a copy of a row for lookaheads that no other copy can take. -/
def copy (w : Walk) (core : StateId) (incoming : List NatSet) : Walk × StateId :=
  let q := w.rows.size
  ({ rows := w.rows.push { w.rows.getD core default with id := q, isocore := core, predecessors := [] }
     lookaheads := w.lookaheads.push (some incoming)
     copies := w.copies.modify core (· ++ [q])
     queue := (w.queue.push q).1 }, q)

/-- Let a transition lead to another row. -/
def retarget (w : Walk) (q : StateId) (X : SymbolId) (target : StateId) : Walk :=
  { w with rows := w.rows.modify q fun r => { r with transitions := r.transitions.insert X target } }

/-- Follow a transition of the row `q`: the lookaheads go to the first copy of its
    target that can take them, or to a new one. -/
def follow (g : Grammar) (sp : Splitting) (q : StateId) (core : StateId) (source : List NatSet)
    (w : Walk) (transition : SymbolId × StateId) : Walk :=
  let (X, target) := transition
  let next := (w.rows.getD target default).isocore
  let incoming := sp.propagate g core source next
  let taker? := (w.copies.getD next []).find? fun s =>
    match w.lookaheads? s with
    | some current => sp.isCompatible next current incoming
    | none => true
  let (w, target) := match taker? with
    | some s => (w.deliver s incoming, s)
    | none => w.copy next incoming
  w.retarget q X target

/-- Walk from the rows that wait, at most `rounds` of them. -/
def run (g : Grammar) (sp : Splitting) : (rounds : Nat) → Walk → Walk
  | 0, w => w
  | rounds + 1, w =>
    match w.queue.pop? with
    | none => w
    | some (q, queue) =>
      let w := { w with queue }
      match w.lookaheads? q with
      | none => run g sp rounds w
      | some source =>
        let r := w.rows.getD q default
        run g sp rounds (r.transitions.toList.foldl (follow g sp q r.isocore source) w)

end Walk

/-! ## Dropping rows -/

/-- Note a row as a predecessor where its transitions lead. -/
def notePredecessor (rows : Array Row) (p : StateId) : Array Row :=
  (rows.getD p default).transitions.values.foldl
    (fun rows q => rows.modify q (Row.appendPredecessor p)) rows

/-- Drop the rows that are not reached, and renumber the others. -/
def prune (rows : Array Row) : Array Row :=
  let a := graphOf rows
  let remaining := a.reachable.toList
  let renumber (q : StateId) : StateId := (Graph.renumber? remaining q).getD q
  let kept := (remaining.map fun q =>
    let r := rows.getD q default
    { r with
      id := renumber q
      isocore := (a.representative? remaining r.isocore).getD r.isocore
      transitions := r.transitions.map renumber
      predecessors := [] }).toArray
  (List.range kept.size).foldl notePredecessor kept

/-! ## Calls -/

/-- Build the rows and their actions, whatever there was before. -/
def compute (g : Grammar) : Checked Table := do
  pure (fill g (← lr0 g))

/-- Split the rows of a table where their merged lookaheads cause inadequacies. -/
def split (g : Grammar) (t : Table) : Table :=
  let sp := Splitting.prepare g t.automaton
  if sp.isNeeded then
    let w := Walk.run g sp (sp.bound g) (Walk.start t)
    fill g ((prune w.rows).map Row.clear)
  else t

end LRAutomata.Table
