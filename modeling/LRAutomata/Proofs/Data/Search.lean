/-
  Breadth-first search finds a shortest way, if there is any.

  A way (`Search.Way`) is a list of nodes each of which leads to the next one.
  The search keeps the ways to all nodes that are a given number of steps away,
  and has seen the nodes that are not further away (`Search.Frontier`):

  * the trail found is a way to a goal, and no way to a goal is shorter
    (`Search.way_of_shortest?`, `Search.length_le_of_shortest?`);
  * in a finite graph a trail is found if a way leads to a goal
    (`Search.exists_shortest?`).
-/
import Mathlib.Data.List.Induction
import Mathlib.Logic.Relation
import LRAutomata.Data.Search

namespace LRAutomata.Search

open Std

variable {α : Type} {next : α → List α} {start a b : α} {l : List α}

/-- Nodes, the last one first, of which each is a successor of the one before it,
    from `start` on. -/
inductive Way (next : α → List α) (start : α) : List α → Prop
  | start : Way next start [start]
  | step {a b : α} {l : List α} : Way next start (a :: l) → b ∈ next a →
      Way next start (b :: a :: l)

/-- What holds of the start and is passed on to successors holds of all nodes on
    a way. -/
theorem Way.forall_mem {P : α → Prop} (hstart : P start) (hnext : ∀ a, P a → ∀ b ∈ next a, P b)
    (h : Way next start l) : ∀ a ∈ l, P a := by
  induction h with
  | start => exact List.forall_mem_singleton.2 hstart
  | step _ hb ih => exact List.forall_mem_cons.2 ⟨hnext _ (ih _ List.mem_cons_self) _ hb, ih⟩

theorem Way.eq_start (h : Way next start [a]) : a = start := by
  cases h; rfl

theorem Way.exists_append (h : Way next start l) : ∃ l', l = l' ++ [start] := by
  induction h with
  | start => exact ⟨[], rfl⟩
  | @step a b l _ _ ih =>
    obtain ⟨l', heq⟩ := ih
    exact ⟨b :: l', by rw [heq]; rfl⟩

/-- A way can be begun one node earlier. -/
theorem Way.prepend (h : Way next b l) (hb : b ∈ next a) : Way next a (l ++ [a]) := by
  induction h with
  | start => exact .step .start hb
  | step _ hc ih => exact ih.step hc

/-- Where there are successors one after the other, there is a way. -/
theorem exists_way (h : Relation.ReflTransGen (fun a b => b ∈ next a) start a) :
    ∃ l, Way next start (a :: l) := by
  induction h with
  | refl => exact ⟨[], .start⟩
  | tail _ hb ih =>
    obtain ⟨l, hl⟩ := ih
    exact ⟨_, hl.step hb⟩

theorem Way.reflTransGen (h : Way next start (a :: l)) :
    Relation.ReflTransGen (fun a b => b ∈ next a) start a := by
  generalize hnodes : a :: l = nodes at h
  induction h generalizing a l with
  | start => cases hnodes; exact .refl
  | step _ hb ih => cases hnodes; exact (ih rfl).tail hb

/-- Up to each of its nodes a way is a way. -/
theorem Way.of_append : ∀ (l' : List α), Way next start (l' ++ a :: l) → Way next start (a :: l)
  | [], h => h
  | [_], h => by cases h with | step h _ => exact h
  | _ :: c :: l', h => by cases h with | step h _ => exact of_append (c :: l') h

/-- Where there is a way, there is one on which no node repeats. -/
theorem Way.exists_nodup (h : Way next start (a :: l)) :
    ∃ l', Way next start (a :: l') ∧ (a :: l').Nodup := by
  generalize hnodes : a :: l = nodes at h
  induction h generalizing a l with
  | start => cases hnodes; exact ⟨[], .start, List.pairwise_singleton _ _⟩
  | @step b c l _ hc ih =>
    cases hnodes
    obtain ⟨l', hl', nodup⟩ := ih rfl
    by_cases hmem : c ∈ b :: l'
    · obtain ⟨before, after, heq⟩ := List.append_of_mem hmem
      rw [heq] at hl' nodup
      exact ⟨after, hl'.of_append before, (List.nodup_append.1 nodup).2.1⟩
    · exact ⟨b :: l', hl'.step hc, List.nodup_cons.2 ⟨hmem, nodup⟩⟩

section Map

variable {β : Type} {next' : β → List β} {f : α → β}

/-- What is made of the nodes of a way is a way, if successors become successors. -/
theorem Way.map (h : Way next start l) (hf : ∀ a, ∀ b ∈ next a, f b ∈ next' (f a)) :
    Way next' (f start) (l.map f) := by
  induction h with
  | start => exact .start
  | step _ hb ih => exact ih.step (hf _ _ hb)

/-- What is made of the nodes of a way is a way back, if successors become
    predecessors. -/
theorem Way.map_reverse {P : α → Prop} (h : Way next start (a :: l)) (hl : ∀ c ∈ a :: l, P c)
    (hf : ∀ a, P a → ∀ b ∈ next a, f a ∈ next' (f b)) :
    Way next' (f a) ((a :: l).reverse.map f) := by
  generalize hnodes : a :: l = nodes at h
  induction h generalizing a l with
  | start => cases hnodes; exact .start
  | step _ hb ih =>
    cases hnodes
    obtain ⟨-, hl⟩ := List.forall_mem_cons.1 hl
    have := (ih hl rfl).prepend (hf _ (hl _ List.mem_cons_self) _ hb)
    rwa [List.reverse_cons, List.map_append]

end Map

/-- The edges from the ends of the trails to their successors. -/
def edges (next : α → List α) (trails : List (Trail α)) : List (Trail α × α) :=
  trails.flatMap fun t => (next t.last).map (t, ·)

theorem mem_edges {current : List (Trail α)} {edge : Trail α × α} :
    edge ∈ edges next current ↔ edge.1 ∈ current ∧ edge.2 ∈ next edge.1.last := by
  obtain ⟨t, b⟩ := edge
  simp [edges]

/-! ## Levels -/

variable [Ord α]

/-- The search after `n` levels: `current` has ways of `n` steps, to all nodes that
    are not seen before, and all nodes are seen that are at most `n` steps away. -/
structure Frontier (next : α → List α) (start : α) (n : Nat) (current : List (Trail α))
    (seen : TreeSet α) : Prop where
  way : ∀ t ∈ current, Way next start t.backward ∧ t.earlier.length = n
  seen_iff : ∀ a, seen.contains a = true ↔ ∃ l, Way next start (a :: l) ∧ l.length ≤ n
  complete : ∀ {a l}, Way next start (a :: l) → l.length = n →
    (∃ t ∈ current, t.last = a) ∨ ∃ l', Way next start (a :: l') ∧ l'.length < n

/-- Add a node to the level under construction, if it was not seen before. -/
def discover (level : List (Trail α) × TreeSet α) (edge : Trail α × α) :
    List (Trail α) × TreeSet α :=
  if level.2.contains edge.2 then level
  else (⟨edge.2, edge.1.backward⟩ :: level.1, level.2.insert edge.2)

variable {seen : TreeSet α} {done : List (Trail α × α)} {current : List (Trail α)}
  {level : List (Trail α) × TreeSet α} {n levels : Nat} {goal : α → Bool}

/-- A level is extended edge by edge. -/
theorem foldl_extend (next : α → List α) (current : List (Trail α))
    (level : List (Trail α) × TreeSet α) :
    current.foldl (extend next) level = (edges next current).foldl discover level := by
  rw [edges, List.foldl_flatMap]
  congr
  funext level t
  rw [extend, List.foldl_map]
  rfl

/-- If neither the nodes of the levels before nor those of this one are goals, no
    node is a goal that is at most `n` steps away. -/
theorem Frontier.not_goal (h : Frontier next start n current seen)
    (hbefore : ∀ {a l}, Way next start (a :: l) → l.length < n → goal a = false)
    (hcurrent : ∀ t ∈ current, goal t.last = false) {a : α} {l : List α}
    (hl : Way next start (a :: l)) (hle : l.length ≤ n) : goal a = false := by
  rcases Nat.lt_or_eq_of_le hle with hlt | heq
  · exact hbefore hl hlt
  · rcases h.complete hl heq with ⟨t, ht, rfl⟩ | ⟨l', hl', hlt⟩
    · exact hcurrent t ht
    · exact hbefore hl' hlt

/-- If a level has no new nodes, no node is further away than those before. -/
theorem Frontier.near (h : Frontier next start (n + 1) [] seen) (hl : Way next start (a :: l)) :
    ∃ l', Way next start (a :: l') ∧ l'.length ≤ n := by
  generalize hnodes : a :: l = nodes at hl
  induction hl generalizing a l with
  | start => cases hnodes; exact ⟨[], .start, Nat.zero_le n⟩
  | step _ hb ih =>
    cases hnodes
    obtain ⟨l', hl', hle⟩ := ih rfl
    rcases Nat.lt_or_eq_of_le (Nat.succ_le_succ hle) with hlt | heq
    · exact ⟨_, hl'.step hb, Nat.le_of_lt_succ hlt⟩
    · rcases h.complete (hl'.step hb) heq with ⟨t, ht, -⟩ | ⟨l'', hl'', hlt⟩
      · cases ht
      · exact ⟨l'', hl'', Nat.le_of_lt_succ hlt⟩

/-! ## New nodes -/

/-- The level under construction when the edges `done` were looked at: it has new
    nodes at their ends, and all their ends are seen. -/
structure Growing (seen : TreeSet α) (done : List (Trail α × α))
    (level : List (Trail α) × TreeSet α) : Prop where
  along : ∀ t ∈ level.1, ∃ edge ∈ done, t = ⟨edge.2, edge.1.backward⟩
  unseen : ∀ t ∈ level.1, seen.contains t.last = false
  seen_iff : ∀ a, level.2.contains a = true ↔ seen.contains a = true ∨ ∃ t ∈ level.1, t.last = a
  ends : ∀ edge ∈ done, level.2.contains edge.2 = true

/-- How many of the nodes listed are not seen. -/
def unseenCount (nodes : List α) (seen : TreeSet α) : Nat :=
  (nodes.filter fun a => !seen.contains a).length

/-- A level with new nodes leaves fewer unseen. -/
theorem Growing.unseenCount_lt {nodes : List α} (h : Growing seen done level) {t : Trail α}
    (ht : t ∈ level.1) (hmem : t.last ∈ nodes) : unseenCount nodes level.2 < unseenCount nodes seen := by
  have filter_eq : nodes.filter (fun a => !level.2.contains a) =
      (nodes.filter fun a => !seen.contains a).filter fun a => !level.2.contains a := by
    rw [List.filter_filter]
    refine List.filter_congr fun a _ => ?_
    cases hnew : level.2.contains a with
    | true => rfl
    | false =>
      have : seen.contains a = false := Bool.eq_false_iff.2 fun hseen => by
        rw [(h.seen_iff a).2 (.inl hseen)] at hnew; cases hnew
      rw [this]; rfl
  rw [unseenCount, filter_eq, unseenCount, List.length_filter_lt_length_iff_exists]
  exact ⟨t.last, List.mem_filter.2 ⟨hmem, by simp [h.unseen t ht]⟩,
    by simp [(h.seen_iff t.last).2 (.inr ⟨t, ht, rfl⟩)]⟩

variable [TransOrd α] [LawfulEqOrd α]

theorem Growing.discover (h : Growing seen done level) (edge : Trail α × α) :
    Growing seen (done ++ [edge]) (discover level edge) := by
  rw [Search.discover]
  split
  · rename_i hseen
    refine ⟨fun t ht => ?_, h.unseen, h.seen_iff, fun e he => ?_⟩
    · obtain ⟨e, he, rfl⟩ := h.along t ht
      exact ⟨e, List.mem_append_left _ he, rfl⟩
    · rcases List.mem_append.1 he with he | he
      · exact h.ends e he
      · rw [List.mem_singleton.1 he]; exact hseen
  · rename_i hnew
    have hnew : ¬ (seen.contains edge.2 = true ∨ ∃ t ∈ level.1, t.last = edge.2) := by
      rwa [← h.seen_iff]
    refine ⟨fun t ht => ?_, fun t ht => ?_, fun a => ?_, fun e he => ?_⟩
    · rcases List.mem_cons.1 ht with rfl | ht
      · exact ⟨edge, by simp, rfl⟩
      · obtain ⟨e, he, rfl⟩ := h.along t ht
        exact ⟨e, List.mem_append_left _ he, rfl⟩
    · rcases List.mem_cons.1 ht with rfl | ht
      · exact Bool.eq_false_iff.2 fun hseen => hnew (.inl hseen)
      · exact h.unseen t ht
    · simp only [TreeSet.contains_insert, Bool.or_eq_true, h.seen_iff, beq_iff_eq,
        Std.compare_eq_iff_eq, List.mem_cons, exists_eq_or_imp]
      exact or_left_comm
    · rw [TreeSet.contains_insert, Bool.or_eq_true]
      rcases List.mem_append.1 he with he | he
      · exact .inr (h.ends e he)
      · rw [List.mem_singleton.1 he]; exact .inl (by simp)

theorem growing_foldl (seen : TreeSet α) (todo : List (Trail α × α)) :
    Growing seen todo (todo.foldl discover ([], seen)) := by
  induction todo using List.reverseRecOn with
  | nil => exact ⟨by simp, by simp, by simp, by simp⟩
  | append_singleton todo edge ih =>
    rw [List.foldl_append]
    exact ih.discover edge

theorem frontier_start : Frontier next start 0 [⟨start, []⟩] (TreeSet.empty.insert start) := by
  constructor
  case way => simpa [Trail.backward] using Way.start
  case seen_iff =>
    intro a
    rw [TreeSet.contains_insert]
    constructor
    · intro ha
      obtain rfl : start = a := by simpa using ha
      exact ⟨[], .start, Nat.le_refl 0⟩
    · rintro ⟨l, hl, hlength⟩
      obtain rfl := List.length_eq_zero_iff.1 (Nat.le_zero.1 hlength)
      simp [hl.eq_start]
  case complete =>
    intro a l hl hlength
    obtain rfl := List.length_eq_zero_iff.1 hlength
    exact .inl ⟨_, List.mem_singleton.2 rfl, hl.eq_start.symm⟩

/-- The next level, and the nodes seen by then. -/
theorem Frontier.advance (h : Frontier next start n current seen)
    (hlevel : current.foldl (extend next) ([], seen) = level) :
    Frontier next start (n + 1) level.1.reverse level.2 := by
  have growing : Growing seen (edges next current) level := by
    rw [← hlevel, foldl_extend]
    exact growing_foldl seen _
  -- A node at the end of a longer way is a successor of a node of this level, or
  -- there is a way that is not longer.
  have reached : ∀ {a l}, Way next start (a :: l) → l.length = n + 1 → level.2.contains a = true := by
    intro a l hl hlength
    cases hl with
    | start => cases hlength
    | @step c _ l hc ha =>
      rcases h.complete hc (Nat.succ.inj hlength) with ⟨t, ht, rfl⟩ | ⟨l', hl', hlt⟩
      · exact growing.ends (t, a) (mem_edges.2 ⟨ht, ha⟩)
      · exact (growing.seen_iff a).2 (.inl ((h.seen_iff a).2 ⟨_, hl'.step ha, hlt⟩))
  have fresh : ∀ t ∈ level.1, Way next start t.backward ∧ t.earlier.length = n + 1 := by
    intro t ht
    obtain ⟨edge, hedge, rfl⟩ := growing.along t ht
    obtain ⟨ht, hb⟩ := mem_edges.1 hedge
    obtain ⟨hway, hlength⟩ := h.way _ ht
    exact ⟨hway.step hb, by simp [Trail.backward, hlength]⟩
  constructor
  case way => exact fun t ht => fresh t (List.mem_reverse.1 ht)
  case seen_iff =>
    intro a
    constructor
    · intro ha
      rcases (growing.seen_iff a).1 ha with ha | ⟨t, ht, rfl⟩
      · obtain ⟨l, hl, hle⟩ := (h.seen_iff a).1 ha
        exact ⟨l, hl, Nat.le_succ_of_le hle⟩
      · exact ⟨_, (fresh t ht).1, Nat.le_of_eq (fresh t ht).2⟩
    · rintro ⟨l, hl, hle⟩
      rcases Nat.lt_or_eq_of_le hle with hlt | heq
      · exact (growing.seen_iff a).2 (.inl ((h.seen_iff a).2 ⟨l, hl, Nat.le_of_lt_succ hlt⟩))
      · exact reached hl heq
  case complete =>
    intro a l hl hlength
    rcases (growing.seen_iff a).1 (reached hl hlength) with ha | ⟨t, ht, rfl⟩
    · obtain ⟨l', hl', hle⟩ := (h.seen_iff a).1 ha
      exact .inr ⟨l', hl', Nat.lt_succ_of_le hle⟩
    · exact .inl ⟨t, List.mem_reverse.2 ht, rfl⟩

/-! ## The search -/

theorem way_of_searchLevels {t : Trail α} : ∀ (levels : Nat) {n : Nat} {current : List (Trail α)}
    {seen : TreeSet α}, Frontier next start n current seen →
      (∀ {a l}, Way next start (a :: l) → l.length < n → goal a = false) →
      searchLevels next goal levels current seen = some t →
      Way next start t.backward ∧ goal t.last = true ∧
        ∀ {a l}, Way next start (a :: l) → goal a = true → t.earlier.length ≤ l.length
  | levels + 1, n, current, seen, h, hbefore, hfound => by
    rw [searchLevels] at hfound
    split at hfound
    · rename_i t' hfind
      cases hfound
      obtain ⟨hway, hlength⟩ := h.way t (List.mem_of_find?_eq_some hfind)
      refine ⟨hway, by simpa using List.find?_some hfind, fun {a l} hl hgoal => ?_⟩
      refine Nat.le_of_not_lt fun hlt => ?_
      rw [hbefore hl (hlength ▸ hlt)] at hgoal
      cases hgoal
    · rename_i hnone
      dsimp only at hfound
      split at hfound
      · cases hfound
      · have hcurrent : ∀ t ∈ current, goal t.last = false := by simpa using hnone
        exact way_of_searchLevels levels (h.advance rfl)
          (fun hl hlt => h.not_goal hbefore hcurrent hl (Nat.le_of_lt_succ hlt)) hfound

theorem not_goal_of_searchLevels {nodes : List α}
    (hnodes : ∀ {l}, Way next start l → ∀ a ∈ l, a ∈ nodes) : ∀ (levels : Nat) {n : Nat}
    {current : List (Trail α)} {seen : TreeSet α}, Frontier next start n current seen →
      (∀ {a l}, Way next start (a :: l) → l.length < n → goal a = false) →
      unseenCount nodes seen < levels → searchLevels next goal levels current seen = none →
      ∀ {a l}, Way next start (a :: l) → goal a = false
  | levels + 1, n, current, seen, h, hbefore, hlevels, hnone => by
    rw [searchLevels] at hnone
    split at hnone
    · cases hnone
    rename_i hfind
    have hcurrent : ∀ t ∈ current, goal t.last = false := by simpa using hfind
    have hupto := fun {a l} => h.not_goal hbefore hcurrent (a := a) (l := l)
    dsimp only at hnone
    have hnext := h.advance rfl
    have growing : Growing seen (edges next current) (current.foldl (extend next) ([], seen)) := by
      rw [foldl_extend]; exact growing_foldl seen _
    split at hnone
    · rename_i hempty
      rw [List.isEmpty_iff.1 hempty] at hnext
      intro hl
      obtain ⟨_, hl, hle⟩ := hnext.near hl
      exact hupto hl hle
    · rename_i hnonempty
      obtain ⟨t, ht⟩ := List.exists_mem_of_ne_nil _ fun hnil => hnonempty (List.isEmpty_iff.2 hnil)
      have hmem : t.last ∈ nodes :=
        hnodes (hnext.way t (List.mem_reverse.2 ht)).1 _ List.mem_cons_self
      exact not_goal_of_searchLevels hnodes levels hnext
        (fun hl hlt => hupto hl (Nat.le_of_lt_succ hlt))
        (Nat.lt_of_lt_of_le (growing.unseenCount_lt ht hmem) (Nat.le_of_lt_succ hlevels)) hnone

/-- The trail found is a way to a goal. -/
theorem way_of_shortest? {t : Trail α} (h : shortest? levels start next goal = some t) :
    Way next start t.backward ∧ goal t.last = true :=
  have found := way_of_searchLevels levels frontier_start (fun _ hlt => absurd hlt (Nat.not_lt_zero _)) h
  ⟨found.1, found.2.1⟩

/-- No way to a goal is shorter than the trail found. -/
theorem length_le_of_shortest? {t : Trail α} (h : shortest? levels start next goal = some t)
    (hl : Way next start (a :: l)) (hgoal : goal a = true) : t.earlier.length ≤ l.length :=
  (way_of_searchLevels levels frontier_start (fun _ hlt => absurd hlt (Nat.not_lt_zero _)) h).2.2
    hl hgoal

/-- In a finite graph a trail is found if a way leads to a goal. -/
theorem exists_shortest? {nodes : List α} (hnodes : ∀ {l}, Way next start l → ∀ a ∈ l, a ∈ nodes)
    (hlevels : nodes.length < levels) (hl : Way next start (a :: l)) (hgoal : goal a = true) :
    ∃ t, shortest? levels start next goal = some t := by
  refine Option.ne_none_iff_exists'.1 fun hnone => ?_
  have hbound : unseenCount nodes (TreeSet.empty.insert start) < levels :=
    Nat.lt_of_le_of_lt (List.length_filter_le _ nodes) hlevels
  rw [not_goal_of_searchLevels hnodes levels frontier_start
    (fun _ hlt => absurd hlt (Nat.not_lt_zero _)) hbound hnone hl] at hgoal
  cases hgoal

end LRAutomata.Search
