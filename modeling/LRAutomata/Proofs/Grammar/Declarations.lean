/-
  What a draft keeps of the declarations made.

  A draft has the rules and the start symbol that were declared, and its
  terminals and nonterminals have valid names, a terminal with a token number
  if and only if some declaration gives it one (`Draft.Records`).  This holds when the
  declarations stop at the first that fails (`Draft.records_of_declareAll`), and
  also when they go on (`Draft.records_declareEach`).
-/
import LRAutomata.Grammar.Define
import LRAutomata.Proofs.Data.OrderedMap

namespace LRAutomata

open Text

namespace Declaration

/-- The rule that is declared. -/
def rule? : Declaration → Option RuleDecl
  | rule decl => some decl
  | _ => none

/-- The start symbol that is chosen. -/
def start? : Declaration → Option String
  | start name => some name
  | _ => none

/-- Whether the declaration gives the terminal `name` a token number. -/
def givesToken (name : String) : Declaration → Bool
  | terminal name' _ (some _) => name' = name
  | _ => false

/-- The rules declared, in their order. -/
def ruleDecls (decls : List Declaration) : List RuleDecl :=
  decls.filterMap rule?

/-- The name of the start symbol: the last one chosen, or else the left-hand
    side of the first rule. -/
def startName? (decls : List Declaration) : Option String :=
  (decls.filterMap start?).getLast? <|> (ruleDecls decls).head?.map RuleDecl.lhs

end Declaration

namespace Draft

open Declaration

variable {d d' : Draft} {decl : Declaration} {decls : List Declaration}

/-! ## Terminals -/

/-- The token number declared for a terminal. -/
def token? (d : Draft) (name : String) : Option Nat :=
  (d.terminals.get? name).bind TerminalDecl.token

theorem token?_declareTerminal (name other : String) (change : TerminalDecl → TerminalDecl) :
    (d.declareTerminal name change).token? other =
      if name = other then (change ((d.terminals.get? name).getD .plain)).token
      else d.token? other := by
  rw [token?, declareTerminal, OrderedMap.get?_update]
  split <;> rfl

theorem token_getD_plain (name : String) :
    ((d.terminals.get? name).getD .plain).token = d.token? name := by
  rw [token?]
  cases d.terminals.get? name <;> rfl

/-- The symbols declared in `d'` have valid names or are declared in `d`. -/
structure AddsValid (d d' : Draft) : Prop where
  terminal : ∀ name ∈ d'.terminals.keys,
    name ∈ d.terminals.keys ∨ terminalNameError? name = none
  nonterminal : ∀ name ∈ d'.nonterminals.toList,
    name ∈ d.nonterminals.toList ∨ nonterminalNameError? name = none

theorem AddsValid.refl (d : Draft) : d.AddsValid d := ⟨fun _ => .inl, fun _ => .inl⟩

theorem AddsValid.trans {d₁ d₂ d₃ : Draft} (h₁ : d₁.AddsValid d₂) (h₂ : d₂.AddsValid d₃) :
    d₁.AddsValid d₃ :=
  ⟨fun name hname => (h₂.terminal name hname).elim (h₁.terminal name) .inr,
    fun name hname => (h₂.nonterminal name hname).elim (h₁.nonterminal name) .inr⟩

theorem addsValid_declareTerminal {name : String} (valid : terminalNameError? name = none)
    (change : TerminalDecl → TerminalDecl) : d.AddsValid (d.declareTerminal name change) := by
  refine ⟨fun other hother => ?_, fun _ => .inl⟩
  rcases OrderedMap.mem_keys_insert.1 hother with rfl | hmem
  · exact .inr valid
  · exact .inl hmem

theorem addsValid_nonterminal {name : String} (valid : nonterminalNameError? name = none) :
    d.AddsValid { d with nonterminals := d.nonterminals.insert name } := by
  refine ⟨fun _ => .inl, fun other hother => ?_⟩
  rw [OrderedSet.toList_insert] at hother
  split at hother
  · exact .inl hother
  · rcases List.mem_append.1 hother with hmem | hnew
    · exact .inl hmem
    · rw [List.mem_singleton.1 hnew]; exact .inr valid

/-- A precedence level is about terminals only, and not about their token numbers. -/
theorem assignPrecedence_frame (p : Precedence) : ∀ (names : List String) (d : Draft),
    (assignPrecedence p d names).1.rules = d.rules ∧
      (assignPrecedence p d names).1.start = d.start ∧
      (∀ name, (assignPrecedence p d names).1.token? name = d.token? name) ∧
      d.AddsValid (assignPrecedence p d names).1
  | [], d => ⟨rfl, rfl, fun _ => rfl, .refl d⟩
  | name :: names, d => by
    unfold assignPrecedence
    split
    · exact ⟨rfl, rfl, fun _ => rfl, .refl d⟩
    · rename_i valid
      obtain ⟨rules_eq, start_eq, token_eq, adds⟩ := assignPrecedence_frame p names
        (d.declareTerminal name fun decl => { decl with precedence := some p })
      refine ⟨rules_eq, start_eq, fun other => ?_, (addsValid_declareTerminal valid _).trans adds⟩
      rw [token_eq, token?_declareTerminal]
      split
      · rename_i heq; rw [← heq]; exact token_getD_plain name
      · rfl

/-! ## All declarations -/

/-- What a draft keeps of the declarations. -/
structure Records (decls : List Declaration) (d : Draft) : Prop where
  rules_eq : d.rules.toList = ruleDecls decls
  start_eq : d.start = (decls.filterMap start?).getLast?
  terminal_valid : ∀ name ∈ d.terminals.keys, terminalNameError? name = none
  nonterminal_valid : ∀ name ∈ d.nonterminals.toList, nonterminalNameError? name = none
  token_isSome : ∀ {name}, terminalNameError? name = none →
    (d.token? name).isSome = decls.any (givesToken name)

/-- What is recorded of a declared terminal. -/
theorem Records.of_mem_terminals (h : Records decls d) {entry : String × TerminalDecl}
    (hentry : entry ∈ d.terminals.toList) : terminalNameError? entry.1 = none ∧
      entry.2.token.isSome = decls.any (givesToken entry.1) := by
  have hget := OrderedMap.mem_toList.1 hentry
  have valid := h.terminal_valid entry.1
    (OrderedMap.mem_keys_iff.2 (Option.isSome_iff_exists.2 ⟨_, hget⟩))
  refine ⟨valid, ?_⟩
  rw [← h.token_isSome valid, token?, hget, Option.bind_some]

theorem records_empty : Records [] empty :=
  ⟨rfl, rfl, by simp [empty], fun _ h => absurd h List.not_mem_nil, fun _ => by simp [empty, token?]⟩

/-- What one more declaration has to do for the draft to keep it. -/
theorem Records.snoc (h : Records decls d) (hrules : d'.rules.toList = d.rules.toList ++ decl.rule?.toList)
    (hstart : d'.start = (decl.start? <|> d.start)) (adds : d.AddsValid d')
    (htoken : ∀ {name}, terminalNameError? name = none →
      (d'.token? name).isSome = ((d.token? name).isSome || decl.givesToken name)) :
    Records (decls ++ [decl]) d' := by
  refine ⟨?_, ?_, fun name hname => ?_, fun name hname => ?_, fun valid => ?_⟩
  · rw [hrules, h.rules_eq, ruleDecls, ruleDecls, List.filterMap_append]
    cases hr : decl.rule? <;> simp [hr]
  · rw [hstart, h.start_eq, List.filterMap_append]
    cases hs : decl.start? <;> simp [hs]
  · exact (adds.terminal name hname).elim (h.terminal_valid name) id
  · exact (adds.nonterminal name hname).elim (h.nonterminal_valid name) id
  · rw [htoken valid, h.token_isSome valid, List.any_append, List.any_cons, List.any_nil,
      Bool.or_false]

theorem Records.declare (h : Records decls d) (decl : Declaration) :
    Records (decls ++ [decl]) (d.declare decl).1 := by
  cases decl with
  | terminal name aliasName token =>
    cases hname : terminalNameError? name with
    | some e =>
      simp only [Draft.declare, hname]
      refine h.snoc (by simp [rule?]) rfl (.refl d) fun {other} valid => ?_
      have hne : name ≠ other := by rintro rfl; rw [hname] at valid; cases valid
      cases token <;> simp [givesToken, hne]
    | none =>
      simp only [Draft.declare, hname]
      refine h.snoc (by simp [rule?, declareTerminal]) rfl (addsValid_declareTerminal hname _)
        fun {other} _ => ?_
      rw [token?_declareTerminal]
      split
      · rename_i heq
        subst heq
        cases token <;> simp [givesToken, token_getD_plain]
      · rename_i hne
        cases token <;> simp [givesToken, hne]
  | nonterminal name =>
    cases hname : nonterminalNameError? name with
    | some e =>
      simp only [Draft.declare, hname]
      exact h.snoc (by simp [rule?]) rfl (.refl d) fun _ => by simp [givesToken]
    | none =>
      simp only [Draft.declare, hname]
      exact h.snoc (by simp [rule?]) rfl (addsValid_nonterminal hname) fun _ => by
        simp [givesToken, token?]
  | precedence assoc names =>
    obtain ⟨rules_eq, start_eq, token_eq, adds⟩ := assignPrecedence_frame ⟨d.nextLevel, assoc⟩ names
      { d with nextLevel := d.nextLevel + 1 }
    refine h.snoc ?_ start_eq ⟨adds.terminal, adds.nonterminal⟩ fun {name} _ => ?_
    · simp [Draft.declare, rules_eq, rule?]
    · rw [Draft.declare, token_eq]
      exact (Bool.or_false _).symm
  | rule _ | start _ | expect _ | expectReduceReduce _ | define _ _ =>
    exact h.snoc (by simp [Draft.declare, rule?]) rfl ⟨fun _ => .inl, fun _ => .inl⟩
      fun _ => (Bool.or_false _).symm

/-- What each declaration that succeeds passes on holds after declarations that all
    succeed. -/
theorem keeps_declareAll {P : List Declaration → Draft → Prop} (hempty : P [] empty)
    (step : ∀ decls d decl d', P decls d → d.declare decl = (d', none) → P (decls ++ [decl]) d')
    (h : empty.declareAll decls = .ok d) : P decls d := by
  have all : ∀ (decls before : List Declaration) (d₀ : Draft), P before d₀ →
      d₀.declareAll decls = .ok d → P (before ++ decls) d := by
    intro decls
    induction decls with
    | nil => intro before d₀ h₀ h; cases h; simpa using h₀
    | cons decl decls ih =>
      intro before d₀ h₀ h
      unfold declareAll at h
      split at h
      · cases h
      · rename_i d₁ heq
        simpa using ih _ d₁ (step before d₀ decl d₁ h₀ heq) h
  exact all decls [] empty hempty h

/-- The draft after declarations that all succeed. -/
theorem records_of_declareAll (h : empty.declareAll decls = .ok d) : Records decls d := by
  refine keeps_declareAll records_empty (fun decls d decl d' hd heq => ?_) h
  have := hd.declare decl
  rwa [heq] at this

/-- The draft after declarations of which the failing ones are passed over. -/
theorem records_declareEach : Records decls (empty.declareEach decls).1 := by
  have all : ∀ (decls before : List Declaration) (x : Draft × List (Option GrammarError)),
      Records before x.1 → Records (before ++ decls) (decls.foldl (fun x decl =>
        ((x.1.declare decl).1, (x.1.declare decl).2 :: x.2)) x).1 := by
    intro decls
    induction decls with
    | nil => intro before x hx; simpa using hx
    | cons decl decls ih =>
      intro before x hx
      have := ih (before ++ [decl]) ((x.1.declare decl).1, (x.1.declare decl).2 :: x.2)
        (hx.declare decl)
      simpa using this
  exact all decls [] (empty, []) records_empty

end Draft

end LRAutomata
