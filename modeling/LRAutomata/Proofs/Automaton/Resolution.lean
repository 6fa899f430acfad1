/-
  Precedence as it is declared, in the records of resolved conflicts.

  A conflict between a token and a rule is resolved by the last precedence
  declarations that name the token and the symbol of the rule: the later one
  wins, and if they are the same one its associativity decides
  (`Automaton.resolved_as_declared`).  A record says whether associativity
  decided, except where it made both choices an error
  (`Automaton.nonassoc_not_byAssoc`).

  The right-hand sides of the grammar are taken to fit the positions (`Item`).
-/
import LRAutomata.Proofs.Automaton.Records
import LRAutomata.Proofs.Grammar.Precedence

namespace LRAutomata

namespace Declaration

variable {n n' : Nat} {assoc : Assoc}

/-- The declaration of the token, the `n`-th, decides against that of the rule, the
    `n'`-th: the later one wins, and one that is both decides by its associativity. -/
inductive Decides (n n' : Nat) (assoc : Assoc) : Resolution → (byAssoc : Bool) → Prop
  | later : n' < n → Decides n n' assoc .shift false
  | earlier : n < n' → Decides n n' assoc .reduce false
  | left : n = n' → assoc = .left → Decides n n' assoc .reduce true
  | right : n = n' → assoc = .right → Decides n n' assoc .shift true
  | nonassoc : n = n' → assoc = .nonassoc → Decides n n' assoc .error false

/-- Levels decide as the declarations do that open them. -/
theorem decides_of_judges {decls : List Declaration} {P Q : String → Prop} {p p' : Precedence}
    {resolution : Resolution} {byAssoc : Bool}
    (h : LastRank decls P n p.assoc) (hlevel : p.level = levelAt decls n)
    (h' : LastRank decls Q n' p'.assoc) (hlevel' : p'.level = levelAt decls n')
    (hjudges : p.Judges p' resolution byAssoc) : Decides n n' p.assoc resolution byAssoc := by
  have same : p.level = p'.level → n = n' := fun heq => by
    rw [hlevel, hlevel'] at heq
    rcases Nat.lt_trichotomy n n' with hlt | hsame | hlt
    · exact absurd heq (Nat.ne_of_lt (levelAt_lt h hlt))
    · exact hsame
    · exact absurd heq (Nat.ne_of_gt (levelAt_lt h' hlt))
  cases hjudges with
  | lower hlt =>
    rw [hlevel, hlevel'] at hlt
    exact .earlier (lt_of_levelAt_lt hlt)
  | higher hlt =>
    rw [hlevel, hlevel'] at hlt
    exact .later (lt_of_levelAt_lt hlt)
  | left heq hassoc => exact .left (same heq) hassoc
  | right heq hassoc => exact .right (same heq) hassoc
  | nonassoc heq hassoc => exact .nonassoc (same heq) hassoc

end Declaration

namespace Grammar

variable {decls : List Declaration} {g : Grammar} {r : RuleId} {p : Precedence}

/-- The symbol from which a declared rule has its precedence: that after `%prec`, or
    else the last terminal of the right-hand side. -/
inductive PrecedenceSymbol (decls : List Declaration) (g : Grammar) : RuleId → SymbolId → Prop
  | declared {i decl name X} : (Declaration.ruleDecls decls)[i]? = some decl →
      decl.prec = some name → g.find? name = some X → PrecedenceSymbol decls g (i + 1) X
  | lastTerminal {i decl X} : (Declaration.ruleDecls decls)[i]? = some decl →
      decl.prec = none → ((g.rhs (i + 1)).filter g.isTerminal).getLast? = some X →
      PrecedenceSymbol decls g (i + 1) X

/-- A rule that has a precedence is a declared one, and has that of its symbol. -/
theorem exists_precedenceSymbol (hg : Grammar.define decls = .ok g) (hp : g.rulePrecedence r = some p) :
    ∃ X, PrecedenceSymbol decls g r X ∧ (g.symbol X).precedence = some p := by
  have numbered := numbered_as_declared (.inl hg)
  obtain ⟨X, hX, hp⟩ := Option.bind_eq_some_iff.1 hp
  refine ⟨X, ?_, hp⟩
  cases r with
  | zero =>
    -- The symbol of the accepting rule is the end marker, which has no precedence.
    rw [show g.rule 0 = _ from numbered.rules.accept_eq] at hX
    cases hX
    rw [numbered.symbols.endMarker_eq] at hp
    cases hp
  | succ i =>
    have hi : i + 1 < g.rules.size := by
      refine Nat.lt_of_not_le fun hle => ?_
      rw [rule, Array.getD_eq_getD_getElem?, Array.getElem?_eq_none hle] at hX
      cases hX
    rw [numbered.rules.size_eq, Nat.add_lt_add_iff_right] at hi
    have hdecl := List.getElem?_eq_getElem hi
    have hprec := (numbered.rules.resolves i _ hdecl).precSymbol_eq
    split at hprec
    · rename_i name hname
      exact .declared hdecl hname (hprec.2.trans hX)
    · rename_i hname
      exact .lastTerminal hdecl hname (hprec.symm.trans hX)

end Grammar

namespace Automaton

open Declaration

/-- **Precedence declarations decide conflicts as they are declared.**  Both the
    token of a resolved conflict and the symbol of its rule are named in precedence
    declarations, and the last of these decide. -/
theorem resolved_as_declared {decls : List Declaration} {g : Grammar}
    (h : Grammar.define decls = .ok g) (mode : Mode) {q : StateId}
    (hq : q < (generate g mode).states.size) {c : ResolvedConflict}
    (hc : c ∈ ((generate g mode).state q).resolved) :
    ∃ X n n' assoc assoc', Grammar.PrecedenceSymbol decls g c.rule X ∧
      Grammar.LastRank decls g c.symbol n assoc ∧ Grammar.LastRank decls g X n' assoc' ∧
      Decides n n' assoc c.resolution c.byAssoc := by
  have wf := Grammar.wellFormed_of_define h
  obtain ⟨b, complete, heq⟩ := exists_complete_generate wf mode
  rw [heq] at hq hc
  obtain ⟨-, -, -, p, p', hp, hp', hjudges⟩ :=
    ((Built.ofGraph complete).recorded wf hq).resolved_iff.1 hc
  obtain ⟨X, hX, hp'⟩ := Grammar.exists_precedenceSymbol h hp'
  obtain ⟨n, hlast, hlevel⟩ := Grammar.exists_lastRank h hp
  obtain ⟨n', hlast', hlevel'⟩ := Grammar.exists_lastRank h hp'
  exact ⟨X, n, n', p.assoc, p'.assoc, hX, hlast, hlast',
    decides_of_judges hlast hlevel hlast' hlevel' hjudges⟩

/-- Powers, sums and signs, where a sign binds as tightly as a power. -/
def powers : List Declaration :=
  [.precedence .right ["'+'", "SIGN"], .precedence .left ["'+'"], .precedence .right ["'^'", "SIGN"],
    .rule ⟨"E", ["E", "'+'", "E"], none, 1⟩, .rule ⟨"E", ["E", "'^'", "E"], none, 2⟩,
    .rule ⟨"E", ["'-'", "E"], some "SIGN", 3⟩, .rule ⟨"E", ["'n'"], none, 4⟩]

/-- The theorem speaks of a rule with `%prec` and of tokens that are ranked twice. -/
theorem resolved_as_declared_prec : ∃ g, Grammar.define powers = .ok g ∧
    ∃ q < (generate g .ielr).states.size, ((generate g .ielr).state q).resolved.map
        (fun c => (c.rule, c.resolution, c.byAssoc)) = [(3, .reduce, false), (3, .shift, true)] ∧
    ∀ c ∈ ((generate g .ielr).state q).resolved, ∃ X n n' assoc assoc',
      Grammar.PrecedenceSymbol powers g c.rule X ∧ Grammar.LastRank powers g c.symbol n assoc ∧
      Grammar.LastRank powers g X n' assoc' ∧ Decides n n' assoc c.resolution c.byAssoc := by
  obtain ⟨g, hg, hcheck⟩ := Grammar.exists_define powers
    (fun g => ∃ q < (generate g .ielr).states.size, ((generate g .ielr).state q).resolved.map
      (fun c => (c.rule, c.resolution, c.byAssoc)) = [(3, .reduce, false), (3, .shift, true)])
    (by decide +kernel)
  obtain ⟨q, hq, hresolved⟩ := of_decide_eq_true hcheck
  exact ⟨g, hg, q, hq, hresolved, fun c hc => resolved_as_declared hg .ielr hq hc⟩

/-- Equations that cannot be chained. -/
def equations : List Declaration :=
  [.precedence .nonassoc ["'='"], .rule ⟨"E", ["E", "'='", "E"], none, 1⟩,
    .rule ⟨"E", ["'n'"], none, 2⟩]

/-- **Associativity without a mark.**  The last declaration that names the token is
    that which names the symbol of the rule, and its associativity makes the conflict
    an error, but the record does not say that associativity decided. -/
theorem nonassoc_not_byAssoc : ∃ g, Grammar.define equations = .ok g ∧
    ∃ q < (generate g .lalr).states.size, ∃ c ∈ ((generate g .lalr).state q).resolved,
      Grammar.PrecedenceSymbol equations g c.rule c.symbol ∧
      Grammar.LastRank equations g c.symbol 0 .nonassoc ∧
      c.resolution = .error ∧ c.byAssoc = false := by
  obtain ⟨g, hg, hcheck⟩ := Grammar.exists_define equations
    (fun g => ∃ q < (generate g .lalr).states.size, ∃ c ∈ ((generate g .lalr).state q).resolved,
      g.find? "'='" = some c.symbol ∧ c.rule = 1 ∧
      ((g.rhs 1).filter g.isTerminal).getLast? = some c.symbol ∧
      c.resolution = .error ∧ c.byAssoc = false) (by decide +kernel)
  obtain ⟨q, hq, c, hc, hfind, hrule, hlast, hcheck⟩ := of_decide_eq_true hcheck
  refine ⟨g, hg, q, hq, c, hc, hrule ▸ .lastTerminal (i := 0) rfl rfl hlast, ⟨?_, ?_⟩, hcheck⟩
  · exact ⟨_, rfl, _, rfl, _, List.mem_singleton_self _, hfind⟩
  · rintro (_ | _ | _ | m) decl assoc' hlt hdecl ⟨_, rfl, -⟩ <;> cases hdecl
    cases hlt

end Automaton

end LRAutomata
