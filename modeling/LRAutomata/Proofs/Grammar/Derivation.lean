/-
  Derivations: what the strings over the symbols of a grammar derive.

  * `Grammar.Derives` rewrites a string by rules, in zero or more steps;
  * a string vanishes if it derives the empty string, and begins with a
    terminal if it derives a string that does (`Vanishes`, `Begins`);
  * both are read off the symbols of a string from left to right
    (`vanishes_cons`, `begins_cons`), and `Leads` lists the ways in which a
    string comes to begin with a terminal.
-/
import Mathlib.Logic.Relation
import LRAutomata.Proofs.Grammar.WellFormed

namespace LRAutomata.Grammar

open Relation

/-- A symbol of the string is replaced by the right-hand side of one of its rules. -/
inductive Rewrites (g : Grammar) : List SymbolId → List SymbolId → Prop
  | rule {r : RuleId} (α β : List SymbolId) (hr : r < g.rules.size) :
      Rewrites g (α ++ g.lhs r :: β) (α ++ (g.rhs r ++ β))

/-- The string `α` derives `β` in zero or more steps. -/
def Derives (g : Grammar) (α β : List SymbolId) : Prop :=
  ReflTransGen g.Rewrites α β

/-- The string derives the empty string. -/
def Vanishes (g : Grammar) (α : List SymbolId) : Prop :=
  g.Derives α []

/-- The string derives one that begins with the terminal `t`. -/
def Begins (g : Grammar) (α : List SymbolId) (t : SymbolId) : Prop :=
  g.isTerminal t = true ∧ ∃ β, g.Derives α (t :: β)

variable {g : Grammar}

theorem Derives.refl (α : List SymbolId) : g.Derives α α := ReflTransGen.refl

theorem Derives.trans {α β γ : List SymbolId} (h₁ : g.Derives α β) (h₂ : g.Derives β γ) :
    g.Derives α γ := ReflTransGen.trans h₁ h₂

theorem Derives.context {α β : List SymbolId} (μ ν : List SymbolId) (h : g.Derives α β) :
    g.Derives (μ ++ α ++ ν) (μ ++ β ++ ν) := by
  refine ReflTransGen.lift (p := g.Rewrites) (fun γ => μ ++ γ ++ ν) ?_ _ _ h
  rintro _ _ ⟨γ, δ, hr⟩
  have := Rewrites.rule (μ ++ γ) (δ ++ ν) hr
  simpa only [Function.onFun, List.append_assoc, List.cons_append] using this

theorem Derives.append {α β γ δ : List SymbolId} (h₁ : g.Derives α γ) (h₂ : g.Derives β δ) :
    g.Derives (α ++ β) (γ ++ δ) := by
  have left := h₁.context [] β
  have right := h₂.context γ []
  simp only [List.nil_append, List.append_nil] at left right
  exact left.trans right

theorem derives_rule {r : RuleId} (hr : r < g.rules.size) : g.Derives [g.lhs r] (g.rhs r) := by
  have := Rewrites.rule (g := g) [] [] hr
  simp only [List.nil_append, List.append_nil] at this
  exact .single this

/-- The two parts of a string are rewritten independently. -/
theorem Derives.split {α β γ : List SymbolId} (h : g.Derives (α ++ β) γ) :
    ∃ γ₁ γ₂, γ = γ₁ ++ γ₂ ∧ g.Derives α γ₁ ∧ g.Derives β γ₂ := by
  induction h with
  | refl => exact ⟨α, β, rfl, .refl _, .refl _⟩
  | tail _ step ih =>
    obtain ⟨γ₁, γ₂, heq, h₁, h₂⟩ := ih
    obtain ⟨μ, ν, hr⟩ := step
    -- The rewritten symbol stands in one of the two parts.
    rcases List.append_eq_append_iff.1 heq.symm with ⟨δ, rfl, hδ⟩ | ⟨δ, rfl, hδ⟩
    · exact ⟨γ₁, _, by rw [List.append_assoc], h₁, h₂.tail (by rw [hδ]; exact .rule δ ν hr)⟩
    · cases δ with
      | nil =>
        simp only [List.nil_append] at hδ
        refine ⟨μ, _, rfl, by simpa using h₁, h₂.tail ?_⟩
        rw [← hδ]; exact .rule [] ν hr
      | cons X δ =>
        obtain ⟨rfl, rfl⟩ := List.cons.inj hδ
        exact ⟨μ ++ (g.rhs _ ++ δ), γ₂, by simp, h₁.tail (.rule μ δ hr), h₂⟩

/-- The first step of a derivation from a single symbol applies one of its rules. -/
theorem Derives.head_rule {X : SymbolId} {β : List SymbolId} (h : g.Derives [X] β) :
    β = [X] ∨ ∃ r, r < g.rules.size ∧ g.lhs r = X ∧ g.Derives (g.rhs r) β := by
  rcases ReflTransGen.cases_head h with h | ⟨γ, step, h⟩
  · exact .inl h.symm
  · right
    generalize hα : [X] = α at step
    obtain ⟨μ, ν, hr⟩ := step
    rcases List.append_eq_singleton_iff.1 hα.symm with ⟨rfl, hν⟩ | ⟨-, hν⟩
    · obtain ⟨rfl, rfl⟩ := List.cons.inj hν
      simp only [List.nil_append, List.append_nil] at h
      exact ⟨_, hr, rfl, h⟩
    · cases hν

/-! ## Vanishing strings -/

@[simp] theorem vanishes_nil : g.Vanishes [] := Derives.refl []

theorem vanishes_append {α β : List SymbolId} :
    g.Vanishes (α ++ β) ↔ g.Vanishes α ∧ g.Vanishes β := by
  constructor
  · intro h
    obtain ⟨γ₁, γ₂, heq, h₁, h₂⟩ := Derives.split h
    obtain ⟨rfl, rfl⟩ := List.append_eq_nil_iff.1 heq.symm
    exact ⟨h₁, h₂⟩
  · rintro ⟨h₁, h₂⟩; exact Derives.append h₁ h₂

theorem vanishes_cons {X : SymbolId} {α : List SymbolId} :
    g.Vanishes (X :: α) ↔ g.Vanishes [X] ∧ g.Vanishes α :=
  vanishes_append (α := [X])

theorem vanishes_iff_forall {α : List SymbolId} : g.Vanishes α ↔ ∀ X ∈ α, g.Vanishes [X] := by
  induction α with
  | nil => simp
  | cons X α ih => rw [vanishes_cons, ih]; simp

theorem vanishes_rule {r : RuleId} (hr : r < g.rules.size) (h : g.Vanishes (g.rhs r)) :
    g.Vanishes [g.lhs r] :=
  (derives_rule hr).trans h

/-- A symbol vanishes if the right-hand side of one of its rules does. -/
theorem WellFormed.vanishes_symbol_iff (wf : g.WellFormed) {X : SymbolId} :
    g.Vanishes [X] ↔ ∃ r ∈ g.rulesOf X, g.Vanishes (g.rhs r) := by
  constructor
  · intro h
    rcases Derives.head_rule h with h | ⟨r, hr, hX, h⟩
    · cases h
    · exact ⟨r, wf.mem_rulesOf.2 ⟨hr, hX⟩, h⟩
  · rintro ⟨r, hr, h⟩
    obtain ⟨hlt, rfl⟩ := wf.mem_rulesOf.1 hr
    exact vanishes_rule hlt h

theorem WellFormed.not_vanishes_terminal (wf : g.WellFormed) {t : SymbolId}
    (ht : g.isTerminal t = true) : ¬ g.Vanishes [t] := by
  intro h
  rcases Derives.head_rule h with h | ⟨r, hr, rfl, -⟩
  · cases h
  · rw [wf.lhs_nonterminal hr] at ht; cases ht

/-! ## Beginnings -/

theorem begins_append {α β : List SymbolId} {t : SymbolId} :
    g.Begins (α ++ β) t ↔ g.Begins α t ∨ g.Vanishes α ∧ g.Begins β t := by
  constructor
  · rintro ⟨ht, γ, h⟩
    obtain ⟨γ₁, γ₂, heq, h₁, h₂⟩ := Derives.split h
    cases γ₁ with
    | nil => exact .inr ⟨h₁, ht, γ, by rwa [heq]⟩
    | cons X γ₁ =>
      obtain ⟨rfl, -⟩ := List.cons.inj heq
      exact .inl ⟨ht, γ₁, h₁⟩
  · rintro (⟨ht, γ, h⟩ | ⟨h₁, ht, γ, h₂⟩)
    · exact ⟨ht, γ ++ β, by simpa using h.append (Derives.refl β)⟩
    · exact ⟨ht, γ, by simpa using Derives.append h₁ h₂⟩

theorem begins_cons {X t : SymbolId} {α : List SymbolId} :
    g.Begins (X :: α) t ↔ g.Begins [X] t ∨ g.Vanishes [X] ∧ g.Begins α t :=
  begins_append (α := [X])

theorem begins_rule {r : RuleId} {t : SymbolId} (hr : r < g.rules.size) (h : g.Begins (g.rhs r) t) :
    g.Begins [g.lhs r] t := by
  obtain ⟨ht, β, h⟩ := h
  exact ⟨ht, β, (derives_rule hr).trans h⟩

theorem WellFormed.begins_terminal_iff (wf : g.WellFormed) {X t : SymbolId}
    (hX : g.isTerminal X = true) : g.Begins [X] t ↔ t = X := by
  constructor
  · rintro ⟨-, β, h⟩
    rcases h.head_rule with h | ⟨r, hr, rfl, -⟩
    · exact (List.cons.inj h).1
    · rw [wf.lhs_nonterminal hr] at hX; cases hX
  · rintro rfl; exact ⟨hX, [], .refl _⟩

/-- A string followed by a terminal begins as the string does, or with that
    terminal. -/
theorem WellFormed.begins_snoc (wf : g.WellFormed) {α : List SymbolId} {u t : SymbolId}
    (hu : g.isTerminal u = true) :
    g.Begins (α ++ [u]) t ↔ g.Begins α t ∨ g.Vanishes α ∧ t = u := by
  rw [begins_append, wf.begins_terminal_iff hu]

/-- The ways in which a string comes to begin with the terminal `t`. -/
inductive Leads (g : Grammar) (t : SymbolId) : List SymbolId → Prop
  | here {α : List SymbolId} : g.isTerminal t = true → Leads g t (t :: α)
  | skip {X : SymbolId} {α : List SymbolId} : g.Vanishes [X] → Leads g t α → Leads g t (X :: α)
  | expand {r : RuleId} {α : List SymbolId} : r < g.rules.size → Leads g t (g.rhs r) →
      Leads g t (g.lhs r :: α)

theorem Leads.append {t : SymbolId} {α : List SymbolId} (h : g.Leads t α) (β : List SymbolId) :
    g.Leads t (α ++ β) := by
  cases h with
  | here ht => exact .here ht
  | skip hX h => exact .skip hX (h.append β)
  | expand hr h => exact .expand hr h

theorem Leads.skip_all {t : SymbolId} {α β : List SymbolId} (hα : g.Vanishes α) (h : g.Leads t β) :
    g.Leads t (α ++ β) := by
  induction α with
  | nil => exact h
  | cons X α ih =>
    obtain ⟨hX, hα⟩ := vanishes_cons.1 hα
    exact .skip hX (ih hα)

theorem Leads.of_append {t : SymbolId} {α β : List SymbolId} (h : g.Leads t (α ++ β)) :
    g.Leads t α ∨ g.Vanishes α ∧ g.Leads t β := by
  induction α with
  | nil => exact .inr ⟨vanishes_nil, h⟩
  | cons X α ih =>
    generalize hγ : X :: α ++ β = γ at h
    cases h with
    | here ht => obtain ⟨rfl, -⟩ := List.cons.inj hγ; exact .inl (.here ht)
    | skip hX h =>
      obtain ⟨rfl, rfl⟩ := List.cons.inj hγ
      rcases ih h with h | ⟨hα, h⟩
      · exact .inl (.skip hX h)
      · exact .inr ⟨vanishes_cons.2 ⟨hX, hα⟩, h⟩
    | expand hr h => obtain ⟨rfl, -⟩ := List.cons.inj hγ; exact .inl (.expand hr h)

theorem begins_iff_leads {α : List SymbolId} {t : SymbolId} : g.Begins α t ↔ g.Leads t α := by
  constructor
  · rintro ⟨ht, β, h⟩
    induction h using ReflTransGen.head_induction_on with
    | refl => exact .here ht
    | head step _ ih =>
      obtain ⟨μ, ν, hr⟩ := step
      rcases ih.of_append with h | ⟨hμ, h⟩
      · exact h.append _
      · refine .skip_all hμ ?_
        rcases h.of_append with h | ⟨hrhs, h⟩
        · exact .expand hr h
        · exact .skip (vanishes_rule hr hrhs) h
  · intro h
    induction h with
    | here ht => exact ⟨ht, _, .refl _⟩
    | skip hX _ ih => exact begins_cons.2 (.inr ⟨hX, ih⟩)
    | expand hr _ ih => exact begins_cons.2 (.inl (begins_rule hr ih))

end LRAutomata.Grammar
