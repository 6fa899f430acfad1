/-
  What waits in a worklist.

  A worklist is sound if its lookup table has exactly the values in the queue
  and the queue has none of them twice.  Pushing and popping keep that, and
  then they do to the queue what their names say.

  A loop over a worklist (`Worklist.Loop`) keeps what its steps keep, and runs empty
  if they lower a measure.
-/
import LRAutomata.Data.Worklist

namespace LRAutomata.Worklist

open Std

variable {α : Type} [Ord α] {w w' : Worklist α} {a b : α}

/-- The lookup table has the values in the queue, each of which waits once. -/
structure Sound (w : Worklist α) : Prop where
  mem_waiting : ∀ a, a ∈ w.waiting ↔ a ∈ w.toList
  nodup : w.toList.Nodup

theorem sound_empty : (∅ : Worklist α).Sound := by
  refine ⟨fun a => ?_, List.nodup_nil⟩
  have hnot : a ∉ (∅ : TreeSet α) := TreeSet.not_mem_emptyc
  exact ⟨fun h => absurd h hnot, fun h => absurd h List.not_mem_nil⟩

theorem size_eq (w : Worklist α) : w.size = w.toList.length := by
  simp [size, toList]

theorem push_cases (h : w.Sound) (a : α) :
    (a ∈ w.toList ∧ (w.push a).1 = w) ∨
      (a ∉ w.toList ∧ (w.push a).1.toList = w.toList ++ [a] ∧
        (w.push a).1.waiting = w.waiting.insert a) := by
  rw [push]
  by_cases ha : w.waiting.contains a = true
  · exact .inl ⟨(h.mem_waiting a).1 ha, by rw [if_pos ha]⟩
  · refine .inr ⟨fun hmem => ha ((h.mem_waiting a).2 hmem), ?_, ?_⟩ <;> rw [if_neg ha]
    simp [toList]

theorem mem_push (h : w.Sound) : b ∈ (w.push a).1.toList ↔ b = a ∨ b ∈ w.toList := by
  rcases push_cases h a with ⟨ha, heq⟩ | ⟨-, heq, -⟩
  · rw [heq]
    exact ⟨.inr, fun hb => hb.elim (fun hb => hb ▸ ha) id⟩
  · rw [heq, List.mem_append, List.mem_singleton, or_comm]

/-- Pushing adds nothing but the value pushed. -/
theorem mem_of_mem_push (h : b ∈ (w.push a).1.toList) : b ∈ w.toList ∨ b = a := by
  rw [push] at h
  split at h
  · exact .inl h
  · simpa [toList, or_assoc] using h

theorem mem_of_mem_pushAll : ∀ {as : List α} {w : Worklist α},
    b ∈ (w.pushAll as).toList → b ∈ w.toList ∨ b ∈ as
  | [], _, h => .inl h
  | a :: as, w, h => by
    rcases mem_of_mem_pushAll (w := (w.push a).1) h with h | h
    · rcases mem_of_mem_push h with h | rfl
      · exact .inl h
      · exact .inr (List.mem_cons_self)
    · exact .inr (List.mem_cons_of_mem a h)

theorem Sound.push [TransOrd α] [LawfulEqOrd α] (h : w.Sound) (a : α) : (w.push a).1.Sound := by
  rcases push_cases h a with ⟨-, heq⟩ | ⟨ha, heq, hwaiting⟩
  · rw [heq]; exact h
  · refine ⟨fun b => ?_, ?_⟩
    · rw [hwaiting, heq, TreeSet.mem_insert, Std.compare_eq_iff_eq, h.mem_waiting, List.mem_append,
        List.mem_singleton, or_comm, eq_comm]
    · rw [heq, List.nodup_append]
      refine ⟨h.nodup, by simp, fun b hb c hc hbc => ha ?_⟩
      rw [List.mem_singleton] at hc
      rwa [← hc, ← hbc]

theorem size_push_le (h : w.Sound) (a : α) : (w.push a).1.size ≤ w.size + 1 := by
  rw [size_eq, size_eq]
  rcases push_cases h a with ⟨-, heq⟩ | ⟨-, heq, -⟩ <;> rw [heq]
  · exact Nat.le_succ _
  · rw [List.length_append]; exact Nat.le_refl _

theorem Sound.pushAll [TransOrd α] [LawfulEqOrd α] (h : w.Sound) (as : List α) :
    (w.pushAll as).Sound :=
  List.foldlRecOn as _ h fun _ h a _ => h.push a

theorem size_pushAll_le [TransOrd α] [LawfulEqOrd α] : ∀ (as : List α) {w : Worklist α}, w.Sound →
    (w.pushAll as).size ≤ w.size + as.length
  | [], _, _ => Nat.le_refl _
  | a :: as, w, h => by
    have hpush := size_push_le h a
    have hrest : (w.pushAll (a :: as)).size ≤ (w.push a).1.size + as.length :=
      size_pushAll_le as (h.push a)
    rw [List.length_cons]
    omega

theorem pop?_eq_none (h : w.pop? = none) : w.toList = [] := by
  rw [pop?] at h
  split at h
  · cases h
  · rename_i hfront
    split at h
    · cases h
    · rename_i hback; rw [toList, hfront, hback]; rfl

theorem pop?_of_toList_eq_nil (h : w.toList = []) : w.pop? = none := by
  rw [toList, List.append_eq_nil_iff] at h
  rw [pop?, h.1, h.2]

theorem pop?_eq_some (h : w.pop? = some (a, w')) :
    w.toList = a :: w'.toList ∧ w'.waiting = w.waiting.erase a := by
  rw [pop?] at h
  split at h
  · rename_i front hfront
    obtain ⟨rfl, rfl⟩ := Prod.mk.inj (Option.some.inj h)
    exact ⟨by rw [toList, hfront]; rfl, rfl⟩
  · rename_i hfront
    split at h
    · rename_i front hback
      obtain ⟨rfl, rfl⟩ := Prod.mk.inj (Option.some.inj h)
      exact ⟨by rw [toList, hfront, hback]; simp [toList], rfl⟩
    · cases h

/-- What is taken no longer waits. -/
theorem Sound.pop [TransOrd α] [LawfulEqOrd α] (h : w.Sound) (hpop : w.pop? = some (a, w')) :
    w'.Sound ∧ a ∉ w'.toList := by
  obtain ⟨hlist, hwaiting⟩ := pop?_eq_some hpop
  have hnodup := h.nodup
  rw [hlist, List.nodup_cons] at hnodup
  refine ⟨⟨fun b => ?_, hnodup.2⟩, hnodup.1⟩
  rw [hwaiting, TreeSet.mem_erase, h.mem_waiting, hlist, List.mem_cons, Ne, Std.compare_eq_iff_eq]
  constructor
  · rintro ⟨hne, rfl | hb⟩
    · exact absurd rfl hne
    · exact hb
  · intro hb
    exact ⟨fun heq => hnodup.1 (heq ▸ hb), .inr hb⟩

/-! ## Loops -/

variable {σ : Type} {queue : σ → Worklist α} {step : σ → α → Worklist α → σ} {run : Nat → σ → σ}

/-- A loop that takes what waits in its state off the worklist, value by value, for at
    most as many rounds as it is given. -/
structure Loop (queue : σ → Worklist α) (step : σ → α → Worklist α → σ) (run : Nat → σ → σ) : Prop where
  zero : ∀ s, run 0 s = s
  succ : ∀ rounds s, run (rounds + 1) s = match (queue s).pop? with
    | none => s
    | some (a, rest) => run rounds (step s a rest)

namespace Loop

/-- What a step keeps, the loop keeps. -/
theorem keeps (h : Loop queue step run) {P : σ → Prop}
    (hstep : ∀ s a rest, P s → (queue s).pop? = some (a, rest) → P (step s a rest)) :
    ∀ (rounds : Nat) {s : σ}, P s → P (run rounds s)
  | 0, s, hs => by rwa [h.zero]
  | rounds + 1, s, hs => by
    rw [h.succ]
    cases hpop : (queue s).pop? with
    | none => exact hs
    | some next => exact h.keeps hstep rounds (hstep s next.1 next.2 hs hpop)

/-- If every step lowers a measure of what is left to do, the worklist runs empty. -/
theorem runs_empty (h : Loop queue step run) {P : σ → Prop} {measure : σ → Nat}
    (waiting : ∀ s, P s → (queue s).size ≤ measure s)
    (hstep : ∀ s a rest, P s → (queue s).pop? = some (a, rest) →
      P (step s a rest) ∧ measure (step s a rest) < measure s) :
    ∀ (rounds : Nat) {s : σ}, P s → measure s ≤ rounds → (queue (run rounds s)).toList = []
  | 0, s, hs, hle => by
    rw [h.zero, ← List.length_eq_zero_iff, ← size_eq]
    exact Nat.eq_zero_of_le_zero (Nat.le_trans (waiting s hs) hle)
  | rounds + 1, s, hs, hle => by
    rw [h.succ]
    cases hpop : (queue s).pop? with
    | none => exact pop?_eq_none hpop
    | some next =>
      obtain ⟨hnext, hlt⟩ := hstep s next.1 next.2 hs hpop
      exact h.runs_empty waiting hstep rounds hnext (Nat.le_of_lt_succ (Nat.lt_of_lt_of_le hlt hle))

/-- When nothing waits, further rounds change nothing. -/
theorem run_eq_of_le (h : Loop queue step run) : ∀ {m n : Nat} {s : σ},
    (queue (run m s)).toList = [] → m ≤ n → run n s = run m s
  | 0, 0, _, _, _ => rfl
  | 0, n + 1, s, hs, _ => by
    rw [h.zero] at hs ⊢
    rw [h.succ, pop?_of_toList_eq_nil hs]
  | m + 1, 0, _, _, hle => absurd hle (Nat.not_succ_le_zero m)
  | m + 1, n + 1, s, hs, hle => by
    rw [h.succ] at hs
    rw [h.succ, h.succ]
    cases hpop : (queue s).pop? with
    | none => rfl
    | some next =>
      rw [hpop] at hs
      exact h.run_eq_of_le hs (Nat.le_of_succ_le_succ hle)

end Loop

end LRAutomata.Worklist
