/-
  Grammars that differ in their numbers only.

  Two grammars are the same but for a renumbering of the symbols and the rules
  if the attributes of the symbols and the symbols of the rules correspond
  (`Grammar.Renumbers`).  Then what their strings derive corresponds:

  * derivations, vanishing strings and beginnings (`Renumbers.derives_iff`,
    `vanishes_iff`, `begins`);
  * what precedence says about a token and a rule (`rulePrecedence_eq`).

  A renumbering can be turned around (`Renumbers.symm`), so it is enough to carry
  things over in one direction.
-/
import Mathlib.Logic.Equiv.Basic
import LRAutomata.Item
import LRAutomata.Proofs.Grammar.Derivation

namespace LRAutomata

open Relation

/-- Other numbers for the symbols and the rules of a grammar. -/
structure Renumbering where
  symbol : Equiv.Perm SymbolId
  rule : Equiv.Perm RuleId

namespace Renumbering

variable (e : Renumbering)

/-- Back to the old numbers. -/
def symm : Renumbering :=
  ⟨e.symbol.symm, e.rule.symm⟩

@[simp] theorem symbol_symm : e.symm.symbol = e.symbol.symm := rfl

@[simp] theorem rule_symm : e.symm.rule = e.rule.symm := rfl

@[simp] theorem symm_symm : e.symm.symm = e := rfl

/-- The string with the new numbers. -/
def string (α : List SymbolId) : List SymbolId :=
  α.map e.symbol

/-- The rule with the new numbers of its symbols. -/
def onRule (r : Rule) : Rule :=
  { r with lhs := e.symbol r.lhs, rhs := e.string r.rhs, precSymbol := r.precSymbol.map e.symbol }

/-- The item with the new number of its rule. -/
def item (i : Item) : Item :=
  ⟨e.rule i.rule, i.position⟩

@[simp] theorem string_nil : e.string [] = [] := rfl

@[simp] theorem string_cons (X : SymbolId) (α : List SymbolId) :
    e.string (X :: α) = e.symbol X :: e.string α := rfl

@[simp] theorem string_append (α β : List SymbolId) :
    e.string (α ++ β) = e.string α ++ e.string β := List.map_append

@[simp] theorem symm_string_string (α : List SymbolId) : e.symm.string (e.string α) = α := by
  simp [string]

@[simp] theorem string_symm_string (α : List SymbolId) : e.string (e.symm.string α) = α :=
  e.symm.symm_string_string α

@[simp] theorem symm_onRule_onRule (r : Rule) : e.symm.onRule (e.onRule r) = r := by
  simp [onRule]

@[simp] theorem symm_item_item (i : Item) : e.symm.item (e.item i) = i := by
  simp [item]

@[simp] theorem item_symm_item (i : Item) : e.item (e.symm.item i) = i :=
  e.symm.symm_item_item i

theorem item_inj {i j : Item} : e.item i = e.item j ↔ i = j :=
  ⟨fun h => by rw [← e.symm_item_item i, h, e.symm_item_item], congrArg e.item⟩

end Renumbering

/-- The symbols have the same attributes, but nonterminals are counted anew. -/
structure Symbol.Same (s s' : Symbol) : Prop where
  name_eq : s'.name = s.name
  aliasName_eq : s'.aliasName = s.aliasName
  isTerminal_eq : s'.isTerminal = s.isTerminal
  precedence_eq : s'.precedence = s.precedence
  token_eq : s.isTerminal = true → s'.token = s.token

theorem Symbol.Same.refl (s : Symbol) : s.Same s :=
  ⟨rfl, rfl, rfl, rfl, fun _ => rfl⟩

theorem Symbol.Same.symm {s s' : Symbol} (h : s.Same s') : s'.Same s :=
  ⟨h.name_eq.symm, h.aliasName_eq.symm, h.isTerminal_eq.symm, h.precedence_eq.symm,
    fun ht => (h.token_eq (h.isTerminal_eq ▸ ht)).symm⟩

theorem Symbol.Same.trans {s s' s'' : Symbol} (h : s.Same s') (h' : s'.Same s'') : s.Same s'' :=
  ⟨h'.name_eq.trans h.name_eq, h'.aliasName_eq.trans h.aliasName_eq,
    h'.isTerminal_eq.trans h.isTerminal_eq, h'.precedence_eq.trans h.precedence_eq,
    fun ht => (h'.token_eq (h.isTerminal_eq ▸ ht)).trans (h.token_eq ht)⟩

namespace Grammar

/-- The grammar `g'` is the grammar `g` with the new numbers. -/
structure Renumbers (e : Renumbering) (g g' : Grammar) : Prop where
  symbolCount_eq : g'.symbols.size = g.symbols.size
  terminalCount_eq : g'.terminalCount = g.terminalCount
  ruleCount_eq : g'.rules.size = g.rules.size
  symbol_lt : ∀ X, e.symbol X < g'.symbols.size ↔ X < g.symbols.size
  rule_lt : ∀ r, e.rule r < g'.rules.size ↔ r < g.rules.size
  isTerminal_eq : ∀ X, g'.isTerminal (e.symbol X) = g.isTerminal X
  symbol_same : ∀ X, (g.symbol X).Same (g'.symbol (e.symbol X))
  rule_eq : ∀ r, g'.rule (e.rule r) = e.onRule (g.rule r)
  /-- The reserved terminals and the accepting rule keep their numbers. -/
  reserved_eq : ∀ X ∈ [SymbolId.endMarker, SymbolId.error, SymbolId.undefined], e.symbol X = X
  accept_eq : e.rule RuleId.accept = RuleId.accept
  start_eq : g'.start = e.symbol g.start
  expect_eq : g'.expect = g.expect
  expectReduceReduce_eq : g'.expectReduceReduce = g.expectReduceReduce
  settings_eq : g'.settings = g.settings

namespace Renumbers

variable {e : Renumbering} {g g' : Grammar} {α β : List SymbolId} {t : SymbolId}

theorem symm (h : g.Renumbers e g') : g'.Renumbers e.symm g where
  symbolCount_eq := h.symbolCount_eq.symm
  terminalCount_eq := h.terminalCount_eq.symm
  ruleCount_eq := h.ruleCount_eq.symm
  symbol_lt X := by simpa using (h.symbol_lt (e.symbol.symm X)).symm
  rule_lt r := by simpa using (h.rule_lt (e.rule.symm r)).symm
  isTerminal_eq X := by simpa using (h.isTerminal_eq (e.symbol.symm X)).symm
  symbol_same X := by simpa using (h.symbol_same (e.symbol.symm X)).symm
  rule_eq r := by
    have heq := congrArg e.symm.onRule (h.rule_eq (e.rule.symm r))
    simpa using heq.symm
  reserved_eq X hX := by
    have heq := congrArg e.symbol.symm (h.reserved_eq X hX)
    simpa using heq.symm
  accept_eq := by
    have heq := congrArg e.rule.symm h.accept_eq
    simpa using heq.symm
  start_eq := by simpa using (congrArg e.symbol.symm h.start_eq).symm
  expect_eq := h.expect_eq.symm
  expectReduceReduce_eq := h.expectReduceReduce_eq.symm
  settings_eq := h.settings_eq.symm

/-! ## Rules -/

theorem lhs_eq (h : g.Renumbers e g') (r : RuleId) : g'.lhs (e.rule r) = e.symbol (g.lhs r) := by
  rw [lhs, h.rule_eq]; rfl

theorem rhs_eq (h : g.Renumbers e g') (r : RuleId) : g'.rhs (e.rule r) = e.string (g.rhs r) := by
  rw [rhs, h.rule_eq]; rfl

theorem rulePrecedence_eq (h : g.Renumbers e g') (r : RuleId) :
    g'.rulePrecedence (e.rule r) = g.rulePrecedence r := by
  rw [rulePrecedence, rulePrecedence, h.rule_eq]
  show ((g.rule r).precSymbol.map e.symbol).bind _ = _
  rw [Option.bind_map]
  exact congrArg _ (funext fun X => (h.symbol_same X).precedence_eq)

/-! ## Derivations -/

theorem rewrites (h : g.Renumbers e g') (hαβ : g.Rewrites α β) :
    g'.Rewrites (e.string α) (e.string β) := by
  obtain ⟨μ, ν, hr⟩ := hαβ
  simp only [Renumbering.string_append, Renumbering.string_cons, ← h.lhs_eq, ← h.rhs_eq]
  exact .rule _ _ ((h.rule_lt _).2 hr)

theorem derives (h : g.Renumbers e g') (hαβ : g.Derives α β) :
    g'.Derives (e.string α) (e.string β) :=
  ReflTransGen.lift e.string (fun _ _ step => h.rewrites step) _ _ hαβ

theorem derives_iff (h : g.Renumbers e g') :
    g'.Derives (e.string α) (e.string β) ↔ g.Derives α β :=
  ⟨fun hαβ => by simpa using h.symm.derives hαβ, h.derives⟩

theorem vanishes_iff (h : g.Renumbers e g') : g'.Vanishes (e.string α) ↔ g.Vanishes α :=
  h.derives_iff (β := [])

theorem begins (h : g.Renumbers e g') (hα : g.Begins α t) :
    g'.Begins (e.string α) (e.symbol t) := by
  obtain ⟨ht, β, hβ⟩ := hα
  exact ⟨by rw [h.isTerminal_eq, ht], e.string β, h.derives hβ⟩

end Renumbers

end Grammar

end LRAutomata
