/-
  Parse trees.

  * `Grammar.Parses g X T w`: the tree `T` has the root `X` and the terminals `w`
    at its leaves;
  * a grammar is unambiguous (`Grammar.Unambiguous`) if no string has two trees
    from the start symbol;
  * a tree is parsed bottom up by shifts and reductions (`ParseTree.actions`),
    which a stack of trees and the input left carry out (`Parse.perform`).
-/
import LRAutomata.Automaton.Annotation
import LRAutomata.Proofs.Grammar.Derivation

namespace LRAutomata

/-- A parse tree: a token, or a rule with a tree for each symbol of its
    right-hand side. -/
inductive ParseTree where
  | leaf (t : SymbolId)
  | node (r : RuleId) (children : List ParseTree)

/-- The symbol at the root of a tree. -/
def ParseTree.root (g : Grammar) : ParseTree → SymbolId
  | .leaf t => t
  | .node r _ => g.lhs r

namespace Grammar

mutual

/-- The tree has the root `X` and the leaves `w`. -/
inductive Parses (g : Grammar) : SymbolId → ParseTree → List SymbolId → Prop
  | leaf {t : SymbolId} : g.isTerminal t = true → Parses g t (.leaf t) [t]
  | node {r : RuleId} {children : List ParseTree} {w : List SymbolId} : r < g.rules.size →
      ParsesAll g (g.rhs r) children w → Parses g (g.lhs r) (.node r children) w

/-- The trees have the symbols listed as roots, and together the leaves `w`. -/
inductive ParsesAll (g : Grammar) : List SymbolId → List ParseTree → List SymbolId → Prop
  | nil : ParsesAll g [] [] []
  | cons {X : SymbolId} {Xs : List SymbolId} {T : ParseTree} {Ts : List ParseTree}
      {v w : List SymbolId} : Parses g X T v → ParsesAll g Xs Ts w →
      ParsesAll g (X :: Xs) (T :: Ts) (v ++ w)

end

/-- Every string of terminals has at most one parse tree from the start symbol. -/
def Unambiguous (g : Grammar) : Prop :=
  ∀ w T T', g.Parses g.start T w → g.Parses g.start T' w → T = T'

variable {g : Grammar}

mutual

theorem Parses.derives {X : SymbolId} {T : ParseTree} {w : List SymbolId} (h : g.Parses X T w) :
    g.Derives [X] w := by
  match h with
  | .leaf _ => exact .refl _
  | .node hr hs => exact (derives_rule hr).trans hs.derives

theorem ParsesAll.derives {Xs : List SymbolId} {Ts : List ParseTree} {w : List SymbolId}
    (h : g.ParsesAll Xs Ts w) : g.Derives Xs w := by
  match h with
  | .nil => exact .refl _
  | .cons h hs => exact Derives.append h.derives hs.derives

end

mutual

/-- The leaves are terminals. -/
theorem Parses.isTerminal {X : SymbolId} {T : ParseTree} {w : List SymbolId} (h : g.Parses X T w) :
    ∀ t ∈ w, g.isTerminal t = true := by
  match h with
  | .leaf ht => intro t hmem; rw [List.mem_singleton.1 hmem]; exact ht
  | .node _ hs => exact hs.isTerminal

theorem ParsesAll.isTerminal {Xs : List SymbolId} {Ts : List ParseTree} {w : List SymbolId}
    (h : g.ParsesAll Xs Ts w) : ∀ t ∈ w, g.isTerminal t = true := by
  match h with
  | .nil => intro t hmem; cases hmem
  | .cons h hs =>
    intro t hmem
    rcases List.mem_append.1 hmem with hmem | hmem
    · exact h.isTerminal t hmem
    · exact hs.isTerminal t hmem

end

variable {X : SymbolId} {Xs w : List SymbolId} {T : ParseTree} {Ts : List ParseTree}

theorem Parses.root_eq (h : g.Parses X T w) : T.root g = X := by
  cases h <;> rfl

/-- The roots of the trees are the symbols listed. -/
theorem ParsesAll.roots_eq (h : g.ParsesAll Xs Ts w) : Ts.map (ParseTree.root g) = Xs := by
  induction Ts generalizing Xs w with
  | nil => cases h; rfl
  | cons T Ts ih =>
    cases h with
    | cons h hs => rw [List.map_cons, h.root_eq, ih hs]

/-- What the trees begin with, or else what comes after them. -/
theorem ParsesAll.begins_or_vanishes (h : g.ParsesAll Xs Ts w) {t u : SymbolId} {v v' : List SymbolId}
    (heq : w ++ t :: v = u :: v') : g.Begins Xs u ∨ g.Vanishes Xs ∧ u = t := by
  cases w with
  | nil => exact .inr ⟨h.derives, (List.cons.inj heq).1.symm⟩
  | cons x w =>
    obtain ⟨rfl, -⟩ := List.cons.inj heq
    exact .inl ⟨h.isTerminal x List.mem_cons_self, w, h.derives⟩

end Grammar

/-! ## Bottom-up parsing -/

namespace ParseTree

mutual

/-- The shifts and reductions by which a tree is parsed. -/
def actions : ParseTree → List Action
  | .leaf _ => [.shift]
  | .node r children => actionsAll children ++ [.reduce r]

/-- The shifts and reductions by which trees are parsed one after the other. -/
def actionsAll : List ParseTree → List Action
  | [] => []
  | T :: Ts => actions T ++ actionsAll Ts

end

end ParseTree

/-- A stack of trees, the last one first, and the input that is left. -/
abbrev Parse := List ParseTree × List SymbolId

namespace Parse

/-- The symbols on the stack, from the bottom up. -/
def symbols (g : Grammar) (stack : List ParseTree) : List SymbolId :=
  (stack.map (ParseTree.root g)).reverse

/-- Carry out an action; without input only reductions can be. -/
def perform (g : Grammar) (c : Parse) : Action → Option Parse
  | .shift =>
    match c.2 with
    | t :: input => some (.leaf t :: c.1, input)
    | [] => none
  | .reduce r =>
    let n := (g.rhs r).length
    some (.node r (c.1.take n).reverse :: c.1.drop n, c.2)

variable {g : Grammar}

theorem perform_reduce {r : RuleId} {Ts stack : List ParseTree} (input : List SymbolId)
    (hlength : Ts.length = (g.rhs r).length) :
    perform g (Ts.reverse ++ stack, input) (.reduce r) = some (.node r Ts :: stack, input) := by
  have hlength : Ts.reverse.length = (g.rhs r).length := by rw [List.length_reverse, hlength]
  show some (ParseTree.node r ((Ts.reverse ++ stack).take _).reverse :: (Ts.reverse ++ stack).drop _, input)
    = _
  rw [← hlength, List.take_left, List.drop_left, List.reverse_reverse]

end Parse

theorem Grammar.ParsesAll.symbols_eq {g : Grammar} {Xs w : List SymbolId} {Ts : List ParseTree}
    (h : g.ParsesAll Xs Ts w) (stack : List ParseTree) :
    Parse.symbols g (Ts.reverse ++ stack) = Parse.symbols g stack ++ Xs := by
  rw [Parse.symbols, Parse.symbols, List.map_append, List.reverse_append, List.map_reverse,
    List.reverse_reverse, h.roots_eq]

end LRAutomata
