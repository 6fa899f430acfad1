/-
  A worklist is a queue in which no value waits twice.

  The queue is a plain list, the oldest value first, that is searched for a value before
  the value is appended (`Queue.push`).  A worklist has two lists and a lookup table.

  * `Queue.Request` and `Queue.Answer` are what a collection of waiting values is asked
    and what it answers, and `Queue.run` makes a sequence of requests to it;
  * a request to a sound worklist does to its values what it does to the queue, and is
    answered the same (`Worklist.serve_eq`), and so is every sequence of requests
    (`Worklist.run_eq_queue`).
-/
import LRAutomata.Proofs.Data.Worklist

namespace LRAutomata

open Std

variable {α : Type}

namespace Queue

/-- What a collection of waiting values is asked to do. -/
inductive Request (α : Type) where
  | push (a : α)
  | pop
  | extend (as : List α)
deriving DecidableEq, Repr

/-- What it answers: whether a value was queued, or the value that was taken, if any. -/
inductive Answer (α : Type) where
  | queued (fresh : Bool)
  | taken (value : Option α)
  | extended
deriving DecidableEq, Repr

section

variable {σ : Type} (serve : σ → Request α → σ × Answer α)

/-- The collection after a sequence of requests, and the answers. -/
def run (s : σ) : List (Request α) → σ × List (Answer α)
  | [] => (s, [])
  | r :: requests =>
    let rest := run (serve s r).1 requests
    (rest.1, (serve s r).2 :: rest.2)

theorem run_cons (s : σ) (r : Request α) (requests : List (Request α)) :
    run serve s (r :: requests) = ((run serve (serve s r).1 requests).1,
      (serve s r).2 :: (run serve (serve s r).1 requests).2) := rfl

end

variable [DecidableEq α]

/-- Append `a` unless it waits already; the answer is whether it was appended. -/
def push (q : List α) (a : α) : List α × Bool :=
  if a ∈ q then (q, false) else (q ++ [a], true)

/-- The queue after a request, and the answer. -/
def serve (q : List α) : Request α → List α × Answer α
  | .push a => ((push q a).1, .queued (push q a).2)
  | .pop => (q.tail, .taken q.head?)
  | .extend as => (as.foldl (fun q a => (push q a).1) q, .extended)

end Queue

namespace Worklist

variable [Ord α] {w : Worklist α}

/-- The worklist after a request, and the answer. -/
def serve (w : Worklist α) : Queue.Request α → Worklist α × Queue.Answer α
  | .push a => ((w.push a).1, .queued (w.push a).2)
  | .pop =>
    match w.pop? with
    | none => (w, .taken none)
    | some (a, rest) => (rest, .taken (some a))
  | .extend as => (w.pushAll as, .extended)

theorem isEmpty_iff : w.isEmpty = true ↔ w.toList = [] := by
  simp [isEmpty, toList, List.append_eq_nil_iff]

/-- The lookup table of a sound worklist is as large as its queue. -/
theorem Sound.size_waiting [TransOrd α] [LawfulEqOrd α] (h : w.Sound) :
    w.waiting.size = w.toList.length := by
  have nodup : w.waiting.toList.Nodup :=
    TreeSet.distinct_toList.imp fun hne heq => hne (compare_eq_iff_eq.2 heq)
  have hmem : ∀ a, a ∈ w.waiting.toList ↔ a ∈ w.toList := fun a =>
    TreeSet.mem_toList.trans (h.mem_waiting a)
  rw [← TreeSet.length_toList]
  exact ((List.perm_ext_iff_of_nodup nodup h.nodup).2 hmem).length_eq

variable [DecidableEq α]

theorem push_eq (h : w.Sound) (a : α) : Queue.push w.toList a = ((w.push a).1.toList, (w.push a).2) := by
  rw [Queue.push, push]
  by_cases ha : w.waiting.contains a = true
  · rw [if_pos ((h.mem_waiting a).1 ha), if_pos ha]
  · rw [if_neg fun hmem => ha ((h.mem_waiting a).2 hmem), if_neg ha]
    simp [toList]

variable [TransOrd α] [LawfulEqOrd α]

theorem pushAll_eq : ∀ (as : List α) {w : Worklist α}, w.Sound →
    as.foldl (fun q a => (Queue.push q a).1) w.toList = (w.pushAll as).toList
  | [], _, _ => rfl
  | a :: as, w, h => by
    rw [List.foldl_cons, push_eq h, pushAll_eq as (h.push a)]
    rfl

/-- A request keeps a worklist sound, and does to its values what it does to the queue. -/
theorem serve_eq (h : w.Sound) (r : Queue.Request α) : (w.serve r).1.Sound ∧
    Queue.serve w.toList r = ((w.serve r).1.toList, (w.serve r).2) := by
  cases r with
  | push a =>
    refine ⟨h.push a, ?_⟩
    rw [Queue.serve, push_eq h]
    rfl
  | pop =>
    rw [serve, Queue.serve]
    cases hpop : w.pop? with
    | none => exact ⟨h, by rw [pop?_eq_none hpop]; rfl⟩
    | some next =>
      obtain ⟨a, rest⟩ := next
      exact ⟨(h.pop hpop).1, by rw [(pop?_eq_some hpop).1]; rfl⟩
  | extend as =>
    refine ⟨h.pushAll as, ?_⟩
    rw [Queue.serve, pushAll_eq as h]
    rfl

theorem run_eq : ∀ (requests : List (Queue.Request α)) {w : Worklist α}, w.Sound →
    (Queue.run serve w requests).1.Sound ∧ Queue.run Queue.serve w.toList requests =
      ((Queue.run serve w requests).1.toList, (Queue.run serve w requests).2)
  | [], _, h => ⟨h, rfl⟩
  | r :: requests, w, h => by
    obtain ⟨hserve, heq⟩ := serve_eq h r
    obtain ⟨hsound, hrun⟩ := run_eq requests hserve
    refine ⟨hsound, ?_⟩
    rw [Queue.run_cons, heq, hrun, Queue.run_cons]

/-- **A worklist is a queue without repetitions.**  To every sequence of requests it gives
    the answers of the queue, and has the same values waiting in the same order.  Its
    lookup table has exactly these values, each of which waits once, and its size and
    emptiness are theirs. -/
theorem run_eq_queue (requests : List (Queue.Request α)) :
    let w := Queue.run serve (∅ : Worklist α) requests
    let q := Queue.run Queue.serve ([] : List α) requests
    w.2 = q.2 ∧ w.1.toList = q.1 ∧ (∀ a, a ∈ w.1.waiting ↔ a ∈ q.1) ∧ q.1.Nodup ∧
      w.1.waiting.size = q.1.length ∧ w.1.size = q.1.length ∧ (w.1.isEmpty = true ↔ q.1 = []) := by
  obtain ⟨hsound, hrun⟩ := run_eq requests (sound_empty (α := α))
  intro w q
  have hq : q = (w.1.toList, w.2) := hrun
  rw [hq]
  exact ⟨rfl, rfl, hsound.mem_waiting, hsound.nodup, hsound.size_waiting, size_eq w.1, isEmpty_iff⟩

/-- The theorem speaks of values that come back after they were taken. -/
theorem run_eq_queue_nat :
    (Queue.run serve (∅ : Worklist Nat)
      [.extend [1, 2, 1, 3], .push 2, .pop, .push 1, .pop, .pop, .pop, .pop]).2 =
        [.extended, .queued false, .taken (some 1), .queued true, .taken (some 2),
          .taken (some 3), .taken (some 1), .taken none] ∧
    let w := Queue.run serve (∅ : Worklist Nat) [.extend [1, 2, 1, 3], .push 2, .pop, .push 1]
    let q := Queue.run Queue.serve ([] : List Nat) [.extend [1, 2, 1, 3], .push 2, .pop, .push 1]
    w.2 = q.2 ∧ w.1.toList = q.1 ∧ (∀ a, a ∈ w.1.waiting ↔ a ∈ q.1) ∧ q.1.Nodup ∧
      w.1.waiting.size = q.1.length ∧ w.1.size = q.1.length ∧ (w.1.isEmpty = true ↔ q.1 = []) :=
  ⟨by decide +kernel, run_eq_queue _⟩

end Worklist

end LRAutomata
