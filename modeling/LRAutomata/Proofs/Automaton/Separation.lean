/-
  Split states separate the strings that call for different actions.

  * the graph of the walk is one of items, and its paths are those of the
    automaton that was split (`Splitting.ofItems_graph`, `Splitting.reads_isocore`);
  * if the annotations for an inadequacy are in step, the strings that lead to
    the same state after splitting take the same selected actions there
    (`Splitting.takes_iff_of_reads`).

  What carries the last is that the lookaheads of a state call for the actions of
  every string that leads there (`Splitting.Represents`), for all annotations that
  come to the state and not only for the merged one that it has recorded: of those
  alone it is not preserved by a step back.
-/
import LRAutomata.Proofs.Automaton.Trail

namespace LRAutomata.Splitting

open LookaheadSources

variable {g : Grammar} {a : Graph} {p q s : StateId} {γ : List SymbolId} {X : SymbolId} {α : Action}

/-! ## The graph of the walk -/

theorem graph_walk (sp : Splitting) : sp.graph g = (sp.walk g).graph := rfl

/-- A graph of copies is one of items. -/
theorem Walk.Shape.ofItems {w : Walk} (h : Walk.Shape a w) (items : a.OfItems g) :
    w.graph.OfItems g := by
  refine ⟨Nat.lt_of_lt_of_le items.start_lt h.size_le, ?_, fun {s} hs => ?_, fun {s} hs => ?_,
    fun {s} hs e he => ((h.copyOf hs).target e he).1, fun {s} hs e he => ?_⟩
  · rw [(h.copyOf (Nat.lt_of_lt_of_le items.start_lt h.size_le)).kernel_eq, h.original items.start_lt]
    exact items.kernel_start
  · have c := h.copyOf hs
    rw [c.closure_eq, c.kernel_eq]
    exact items.closure_eq c.isocore_lt
  · have c := h.copyOf hs
    rw [c.symbols_eq, Core.items, c.kernel_eq, c.closure_eq]
    exact items.symbols_eq c.isocore_lt
  · have c := h.copyOf hs
    obtain ⟨htarget, hnext⟩ := c.target e he
    rw [(h.copyOf htarget).kernel_eq, c.kernel_eq]
    exact (items.next?_kernel c.isocore_lt hnext).2

/-- Paths lead to copies of the states to which they lead in the automaton. -/
theorem Walk.Shape.reads_isocore {w : Walk} (h : Walk.Shape a w) (items : a.OfItems g)
    (hγ : w.graph.Reads StateId.start γ s) :
    s < w.graph.size ∧ a.Reads StateId.start γ (w.graph.core s).isocore := by
  have items' := h.ofItems items
  refine ⟨(items'.reads_kernel hγ).1, ?_⟩
  induction γ using List.reverseRecOn generalizing s with
  | nil =>
    obtain rfl := Graph.reads_nil.1 hγ
    exact Graph.reads_nil.2 (h.original items.start_lt).symm
  | append_singleton γ X ih =>
    obtain ⟨p, hp, hX⟩ := Graph.reads_snoc.1 hγ
    have hplt := (items'.reads_kernel hp).1
    obtain ⟨e, he, rfl, rfl⟩ := (items'.next?_eq_some_iff hplt).1 hX
    exact Graph.reads_snoc.2 ⟨_, ih hp, ((h.copyOf hplt).target e he).2⟩

/-! ## Selected actions -/

theorem isSelected_shift (items : a.OfItems g) (wf : g.WellFormed) (reach : a.Reachable)
    (hq : q < a.size) {t : SymbolId} (ht : a.Offers g q .shift t) :
    (prepare g (.ofGraph g a)).isSelected ⟨q, t⟩ .shift = true ↔
      ∀ ρ, ¬ Automaton.Loses g a q t ρ .shift := by
  have hedge : ((Automaton.ofGraph g a).state q).edges.any (fun e => e.symbol = t) = true := by
    obtain ⟨e, he, rfl⟩ := List.mem_map.1 (NatSet.mem_ofList.1 ht)
    rw [Automaton.toCore_state]
    exact List.any_eq_true.2 ⟨e, (List.mem_filter.1 he).1, decide_eq_true rfl⟩
  rw [← not_exists, ← Automaton.mem_deselectedShifts items wf reach hq]
  show (((Automaton.ofGraph g a).state q).edges.any (fun e => e.symbol = t) &&
    ((Automaton.ofGraph g a).state q).isSelected t) = true ↔ _
  rw [hedge, Bool.true_and, State.isSelected, decide_eq_true_eq]

theorem isSelected_reduce (items : a.OfItems g) (wf : g.WellFormed) (reach : a.Reachable)
    (hq : q < a.size) {ρ : RuleId} (hi : (⟨ρ, (g.rhs ρ).length⟩ : Item) ∈ (a.core q).items)
    {t : SymbolId} : (prepare g (.ofGraph g a)).isSelected ⟨q, t⟩ (.reduce ρ) = true ↔
      ¬ Automaton.Loses g a q t ρ .reduce := by
  have hred := (Automaton.mem_reductionsAt items wf reach hq).2 ⟨ρ, hi, rfl⟩
  have hreduction : ((Automaton.ofGraph g a).state q).reduction? ρ = ((Automaton.reductionsAt g a q).map
      fun r => { r with
        deselected := State.losingTokens ((Automaton.ofGraph g a).state q).resolved r.rule
        isDefault := ((Automaton.ofGraph g a).state q).defaultRule = some r.rule : Reduction}).find?
          fun red => red.rule = ρ := by
    rw [State.reduction?, Automaton.reductions_eq g a hq]
  rw [isSelected]
  split
  · rename_i red hfind
    have hfind := hreduction.symm.trans hfind
    obtain ⟨red', -, rfl⟩ := List.mem_map.1 (List.mem_of_find?_eq_some hfind)
    have hrule := List.find?_some hfind
    obtain rfl : red'.rule = ρ := of_decide_eq_true hrule
    rw [← Automaton.mem_losingTokens items wf reach hq]
    exact decide_eq_true_iff
  · rename_i hfind
    have := List.find?_eq_none.1 (hreduction.symm.trans hfind) _ (List.mem_map_of_mem hred)
    exact absurd (decide_eq_true rfl) this

/-! ## Annotations in step -/

variable {v : Inadequacy}

/-- The lookaheads of a state call, at the inadequacy, for the selected actions
    that are taken after the string, if any is. -/
def Represents (g : Grammar) (a : Graph) (v : Inadequacy) (q : StateId) (γ : List SymbolId)
    (lookaheads : List NatSet) : Prop :=
  ∀ n, Trail g a v q n → (∃ α, n.Calls (HasAhead g a q γ v.token) α) →
    (∃ α, CallsFor n v.token lookaheads α) ∧
      ∀ α, (prepare g (.ofGraph g a)).isSelected v α = true →
        (n.Calls (HasAhead g a q γ v.token) α ↔ CallsFor n v.token lookaheads α)

/-- What is recorded at a state lists the kernel items that any annotation which
    comes there lists. -/
theorem InStep.contributors (inStep : InStep g a v) {n : Annotation} (hn : Trail g a v q n) :
    ∃ m, (v, m) ∈ (prepare g (.ofGraph g a)).annotationsOf q ∧
      ∀ k ∈ n.contributors, k ∈ m.contributors := by
  obtain ⟨m, hm, hcovers, -⟩ := inStep hn
  exact ⟨m, mem_annotationsOf.2 hm, fun _ => hcovers.mem_contributors⟩

theorem InStep.inKernel (inStep : InStep g a v) (items : a.OfItems g) (wf : g.WellFormed)
    (link : a.Linked) (reach : a.Reachable) (accepts : AcceptsAlone g a) {n : Annotation}
    (hn : Trail g a v q n) : InKernel a q n := by
  obtain ⟨m, hm, hsub⟩ := inStep.contributors hn
  exact fun k hk => inKernel_of_finds items wf link reach accepts (mem_annotationsOf.1 hm) k (hsub k hk)

/-- The start state has nothing ahead and no lookaheads that matter. -/
theorem represents_start (inStep : InStep g a v) (items : a.OfItems g) (wf : g.WellFormed)
    (link : a.Linked) (reach : a.Reachable) (accepts : AcceptsAlone g a) (lookaheads : List NatSet) :
    Represents g a v StateId.start [] lookaheads := by
  intro n hn hcalls
  have hsame : ∀ α, n.Calls (HasAhead g a StateId.start [] v.token) α ↔
      CallsFor n v.token lookaheads α := fun α => Annotation.calls_congr fun k hk => by
    obtain ⟨i, hi, hrule⟩ := inStep.inKernel items wf link reach accepts hn k hk
    have hmem := List.mem_of_getElem? hi
    rw [items.kernel_start, List.mem_singleton] at hmem
    exact absurd (by rw [hmem]; rfl) hrule
  exact ⟨hcalls.imp fun α => (hsame α).1, fun α _ => hsame α⟩

/-- What represents a string is passed on to represent the longer one. -/
theorem Represents.propagate {source : List NatSet} (h : Represents g a v p γ source)
    (inStep : InStep g a v) (items : a.OfItems g) (wf : g.WellFormed) (link : a.Linked)
    (reach : a.Reachable) (accepts : AcceptsAlone g a) (hγ : a.Reads StateId.start γ p)
    (hX : a.next? p X = some q) (hsource : Bounded g a p source) :
    Represents g a v q (γ ++ [X]) (Splitting.propagate g (prepare g (.ofGraph g a)) p source q) := by
  intro n hn hcalls
  have hp := (items.reads_kernel hγ).1
  have hq := (items.next?_kernel hp hX).1
  have hkernel := inStep.inKernel items wf link reach accepts hn
  obtain ⟨m, hm, hsub⟩ := inStep.contributors hn
  have hahead : ∀ α, Annotation.Calls (atPredecessor g (compute g (.ofGraph g a)) p
      (arrivals (.ofGraph g a) p q) v.token n) (HasAhead g a p γ v.token) α ↔
      n.Calls (HasAhead g a q (γ ++ [X]) v.token) α := fun α => by
    rw [calls_atPredecessor items wf reach hp (fun l hl => by
      rw [kernelLookaheads_compute]; exact mem_get_of_hasAhead items wf link reach hγ hl) hkernel,
      follows_compute]
    exact Annotation.calls_congr fun k _ => passed_hasAhead items wf hγ hX
  simp only [← hahead, calls_propagate items wf reach hp hq hsource hm hsub hkernel] at hcalls ⊢
  have hpredecessor : p ∈ (a.core q).predecessors := by
    obtain ⟨e, he, -, htarget⟩ := (items.next?_eq_some_iff hp).1 hX
    exact (link hq).2 ⟨hp, e, he, htarget⟩
  cases huseless : Annotation.isUseless (atPredecessor g (compute g (.ofGraph g a)) p
      (arrivals (.ofGraph g a) p q) v.token n) with
  | true =>
    -- No kernel item of the predecessor matters.
    have hsame : ∀ {P Q : Nat → Prop} {α}, Annotation.Calls (atPredecessor g (compute g (.ofGraph g a)) p
        (arrivals (.ofGraph g a) p q) v.token n) P α ↔ Annotation.Calls (atPredecessor g
        (compute g (.ofGraph g a)) p (arrivals (.ofGraph g a) p q) v.token n) Q α :=
      Annotation.calls_congr fun k hk => absurd hk (NatSet.isEmpty_iff.1 huseless k)
    exact ⟨hcalls.imp fun α => hsame.1, fun α _ => hsame⟩
  | false => exact h _ (.back hn hpredecessor huseless) hcalls

/-- What has arrived at a state represents the string there.

    Joining keeps the selected actions for which the recorded annotation calls.
    Another that comes to the state can call for more only where the recorded one
    does, and after the string the two call for the same. -/
theorem Represents.arrived {incoming current : List NatSet} (h : Represents g a v q γ incoming)
    (inStep : InStep g a v) (items : a.OfItems g) (wf : g.WellFormed) (reach : a.Reachable)
    (hγ : a.Reads StateId.start γ q)
    (harrived : Walk.Arrived (prepare g (.ofGraph g a)) q incoming current) :
    Represents g a v q γ current := by
  intro n hn hcalls
  obtain ⟨m, hm, hcovers, hinStep⟩ := inStep hn
  have hmem := mem_annotationsOf.2 hm
  have nodup := nodup_annotation items wf reach hmem
  obtain ⟨hincoming, hsame⟩ := h n hn hcalls
  obtain ⟨hincoming', hsame'⟩ := h m (.found hm) (hcalls.imp fun α => (hinStep hγ α).1)
  have grows {α} (hα : CallsFor n v.token incoming α) : CallsFor n v.token current α :=
    hα.mono fun k => harrived.1 k v.token
  refine ⟨hincoming.imp fun α => grows, fun α hα => ⟨fun hcalls => grows ((hsame α hα).1 hcalls),
    fun hcurrent => ?_⟩⟩
  rcases hcovers.calls hcurrent with hcurrent | hany
  · obtain ⟨D, hD⟩ : ∃ D, (prepare g (.ofGraph g a)).dominant? v m incoming = some D :=
      ⟨_, (dominant?_eq_some_iff nodup).2 ⟨hincoming', rfl⟩⟩
    have hmemD := (mem_dominant? nodup (harrived.2 v m hmem D hD)).2 ⟨hcurrent, hα⟩
    exact (hinStep hγ α).2 ((hsame' α hα).2 ((mem_dominant? nodup hD).1 hmemD).1)
  · exact hany _

/-- The lookaheads with which the walk ends represent the strings that lead to the
    states. -/
theorem represents_walk (inStep : InStep g a v) (items : a.OfItems g) (wf : g.WellFormed)
    (link : a.Linked) (reach : a.Reachable) (isocore : ∀ {q}, q < a.size → (a.core q).isocore = q)
    (accepts : AcceptsAlone g a)
    (hγ : ((prepare g (.ofGraph g a)).graph g).Reads StateId.start γ s) :
    ∃ lookaheads, ((prepare g (.ofGraph g a)).walk g).lookaheads? s = some lookaheads ∧
      Represents g a v (((prepare g (.ofGraph g a)).graph g).core s).isocore γ lookaheads := by
  obtain ⟨h, hqueue⟩ := invariant_walk items wf link reach isocore
  rw [graph_walk] at hγ ⊢
  generalize (prepare g (.ofGraph g a)).walk g = w at h hqueue hγ ⊢
  have items' := h.toShape.ofItems items
  induction γ using List.reverseRecOn generalizing s with
  | nil =>
    obtain rfl := Graph.reads_nil.1 hγ
    obtain ⟨lookaheads, hstart⟩ := h.begun
    rw [h.original items.start_lt]
    exact ⟨lookaheads, hstart, represents_start inStep items wf link reach accepts lookaheads⟩
  | append_singleton γ X ih =>
    obtain ⟨p, hp, hX⟩ := Graph.reads_snoc.1 hγ
    obtain ⟨source, hsource, hrepresents⟩ := ih hp
    obtain ⟨hplt, hpreads⟩ := h.toShape.reads_isocore items hp
    obtain ⟨-, hreads⟩ := h.toShape.reads_isocore items hγ
    obtain ⟨e, he, rfl, rfl⟩ := (items'.next?_eq_some_iff hplt).1 hX
    obtain ⟨current, hcurrent, harrived⟩ := h.settled (by rw [hqueue]; exact List.not_mem_nil) hsource
      e he id
    refine ⟨current, hcurrent, ?_⟩
    exact (hrepresents.propagate inStep items wf link reach accepts hpreads
      ((h.copyOf hplt).target e he).2 (h.bounded hsource)).arrived inStep items wf reach hreads harrived

/-- **Split states separate strings.**  At every inadequacy of the state that was
    split for which the annotations are in step, the strings that lead to the same
    state now, and take an action, take the same selected actions. -/
theorem takes_iff_of_reads (items : a.OfItems g) (wf : g.WellFormed) (link : a.Linked)
    (reach : a.Reachable) (isocore : ∀ {q}, q < a.size → (a.core q).isocore = q)
    (accepts : AcceptsAlone g a) {δ : List SymbolId}
    (hγ : ((prepare g (.ofGraph g a)).graph g).Reads StateId.start γ s)
    (hδ : ((prepare g (.ofGraph g a)).graph g).Reads StateId.start δ s) :
    ∃ q, a.Reads StateId.start γ q ∧ a.Reads StateId.start δ q ∧
      ∀ t, InStep g a ⟨q, t⟩ → 2 ≤ (actionsOn g ((Automaton.ofGraph g a).state q) t).length →
        (∃ α ∈ actionsOn g ((Automaton.ofGraph g a).state q) t, g.Takes γ α t) →
        (∃ α ∈ actionsOn g ((Automaton.ofGraph g a).state q) t, g.Takes δ α t) →
        ∀ α ∈ actionsOn g ((Automaton.ofGraph g a).state q) t,
          (prepare g (.ofGraph g a)).isSelected ⟨q, t⟩ α = true → (g.Takes γ α t ↔ g.Takes δ α t) := by
  have shape := (invariant_walk items wf link reach isocore).1.toShape
  have hreads : ∀ {γ}, ((prepare g (.ofGraph g a)).graph g).Reads StateId.start γ s →
      a.Reads StateId.start γ (((prepare g (.ofGraph g a)).graph g).core s).isocore :=
    fun hγ => (shape.reads_isocore items hγ).2
  have hγq := hreads hγ
  have hδq := hreads hδ
  refine ⟨_, hγq, hδq, fun t inStep hlength hγt hδt α hα hselected => ?_⟩
  obtain ⟨lookaheads, hlookaheads, hγrep⟩ :=
    represents_walk inStep items wf link reach isocore accepts hγ
  obtain ⟨lookaheads', hlookaheads', hδrep⟩ :=
    represents_walk inStep items wf link reach isocore accepts hδ
  obtain rfl := Option.some.inj (hlookaheads.symm.trans hlookaheads')
  generalize (((prepare g (.ofGraph g a)).graph g).core s).isocore = q at *
  obtain ⟨n, hn⟩ : ∃ n, ((compute g (.ofGraph g a)).manifestations g
      ((Automaton.ofGraph g a).state q) q).get? ⟨q, t⟩ = some n :=
    ⟨_, get?_manifestations.2 ⟨rfl, hlength, rfl⟩⟩
  have htrail : Trail g a ⟨q, t⟩ q n := .own (items.reads_kernel hγq).1 hn
  have takes : ∀ {γ β}, a.Reads StateId.start γ q →
      β ∈ actionsOn g ((Automaton.ofGraph g a).state q) t → (_ ↔ g.Takes γ β t) :=
    fun hγ hβ => (calls_manifestation items wf link reach accepts hγ hn).trans (and_iff_right hβ)
  have hγcalls := (hγrep _ htrail (hγt.imp fun β hβ => (takes hγq hβ.1).2 hβ.2)).2 α hselected
  have hδcalls := (hδrep _ htrail (hδt.imp fun β hβ => (takes hδq hβ.1).2 hβ.2)).2 α hselected
  rw [← takes hγq hα, ← takes hδq hα, hγcalls, hδcalls]

end LRAutomata.Splitting
