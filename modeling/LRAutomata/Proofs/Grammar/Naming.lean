/-
  Names and aliases of symbols.

  A symbol is always found by its name.  No two symbols have the same alias, but
  the name of one can be the alias of another, and then the name counts: a symbol
  is found by its alias if and only if no other symbol has it as its name
  (`Grammar.find?_alias_iff`).
-/
import LRAutomata.Proofs.Grammar.Numbering

namespace LRAutomata

variable {decls : List Declaration} {g : Grammar} {X Y : SymbolId} {a : String}

/-! ## Aliases differ -/

/-- The owners of an alias are the symbols that have it. -/
theorem getD_aliasOwners (symbols : List Symbol) (a : String) :
    (aliasOwners symbols).getD a [] = (symbols.filter (·.aliasName = some a)).map Symbol.name := by
  unfold aliasOwners
  -- The owners found so far come first.
  show _ = (∅ : OrderedMap String (List String)).getD a [] ++ _
  generalize (∅ : OrderedMap String (List String)) = owners
  induction symbols generalizing owners with
  | nil => simp
  | cons s symbols ih =>
    rw [List.foldl_cons, ih]
    cases hs : s.aliasName with
    | none => simp [hs]
    | some aliasName =>
      by_cases heq : aliasName = a
      · subst heq
        simp [hs, OrderedMap.getD, OrderedMap.get?_update]
      · simp [hs, heq, OrderedMap.getD, OrderedMap.get?_update]

theorem length_filter_of_checkAliases {symbols : List Symbol} (h : checkAliases symbols = .ok ())
    (a : String) : (symbols.filter (·.aliasName = some a)).length ≤ 1 := by
  rw [← List.length_map (f := Symbol.name), ← getD_aliasOwners]
  unfold checkAliases at h
  split at h
  · cases h
  rename_i hnone
  rw [List.find?_eq_none] at hnone
  rw [OrderedMap.getD]
  cases hget : (aliasOwners symbols).get? a with
  | none => exact Nat.zero_le 1
  | some names => simpa using hnone (a, names) (OrderedMap.mem_toList.2 hget)

/-- In checked symbols an alias belongs to one symbol. -/
theorem pairwise_of_checkAliases {symbols : List Symbol} (h : checkAliases symbols = .ok ())
    (a : String) :
    symbols.Pairwise fun s s' => s.aliasName = some a → s'.aliasName ≠ some a := by
  have hle := length_filter_of_checkAliases h a
  have hpair : (symbols.filter (·.aliasName = some a)).Pairwise fun _ _ => False := by
    generalize symbols.filter (·.aliasName = some a) = owned at hle ⊢
    match owned with
    | [] => exact .nil
    | [_] => exact List.pairwise_singleton _ _
    | _ :: _ :: _ => simp at hle
  refine (List.pairwise_filter.1 hpair).imp fun himp hs hs' => ?_
  exact himp (decide_eq_true hs) (decide_eq_true hs')

namespace Grammar

theorem eq_of_aliasName (h : checkAliases g.symbols.toList = .ok ()) (hX : X < g.symbols.size)
    (hY : Y < g.symbols.size) (ha : (g.symbol X).aliasName = some a)
    (hb : (g.symbol Y).aliasName = some a) : X = Y := by
  have differ := List.pairwise_iff_getElem.1 (pairwise_of_checkAliases h a)
  rw [symbol_eq_getElem hX] at ha
  rw [symbol_eq_getElem hY] at hb
  rcases Nat.lt_trichotomy X Y with hlt | heq | hlt
  · exact absurd hb (differ X Y (by simpa using hX) (by simpa using hY) hlt ha)
  · exact heq
  · exact absurd ha (differ Y X (by simpa using hY) (by simpa using hX) hlt hb)

/-! ## Lookup -/

/-- No symbol but `X` itself has the alias as its name. -/
def Unshadowed (g : Grammar) (X : SymbolId) (a : String) : Prop :=
  ∀ Y < g.symbols.size, (g.symbol Y).name = a → Y = X

instance (g : Grammar) (X : SymbolId) (a : String) : Decidable (g.Unshadowed X a) :=
  inferInstanceAs (Decidable (∀ Y < g.symbols.size, (g.symbol Y).name = a → Y = X))

/-- By an alias its owner is found, unless another symbol is called so. -/
theorem NumbersSymbols.find?_alias (h : g.NumbersSymbols)
    (hcheck : checkAliases g.symbols.toList = .ok ()) (hX : X < g.symbols.size)
    (ha : (g.symbol X).aliasName = some a) : g.find? a = some X ↔ g.Unshadowed X a := by
  constructor
  · rintro hfind Y hY rfl
    rw [h.find?_name Y hY] at hfind
    exact Option.some.inj hfind
  · intro unshadowed
    cases hname : g.symbols.toList.findIdx? (·.name = a) with
    | some Y =>
      obtain ⟨hY, hYname, -⟩ := List.findIdx?_eq_some_iff_getElem.1 hname
      rw [Array.length_toList] at hY
      have hYname : (g.symbol Y).name = a := by
        rw [symbol_eq_getElem hY]; simpa using hYname
      rw [h.find?_eq, hname, unshadowed Y hY hYname]
      rfl
    | none =>
      have first : g.symbols.toList.findIdx? (·.aliasName = some a) = some X := by
        rw [List.findIdx?_eq_some_iff_getElem]
        rw [symbol_eq_getElem hX] at ha
        refine ⟨by simpa using hX, by simpa using ha, fun Y hYX hY => ?_⟩
        have hYlt := Nat.lt_trans hYX hX
        have := eq_of_aliasName hcheck hYlt hX (a := a) (by
          rw [symbol_eq_getElem hYlt]; simpa using hY) (by rw [symbol_eq_getElem hX]; exact ha)
        exact Nat.ne_of_lt hYX this
      rw [h.find?_eq, hname, first]
      rfl

theorem rhs_eq_iff_find? {decl : RuleDecl} {r : RuleId}
    (h : Draft.Resolves g.table g.terminalCount decl (g.rule r)) {n : Nat}
    (hn : decl.rhs[n]? = some a) : (g.rhs r)[n]? = some X ↔ g.find? a = some X := by
  have := congrArg (fun l => l[n]?) h.rhs_eq
  simp only [List.getElem?_map, hn, Option.map_some] at this
  rw [rhs, find?]
  cases hX : (g.rule r).rhs[n]? with
  | none => rw [hX] at this; cases this
  | some Z =>
    rw [hX, Option.map_some] at this
    rw [Option.some.inj this]

theorem precSymbol_eq_iff_find? {decl : RuleDecl} {r : RuleId}
    (h : Draft.Resolves g.table g.terminalCount decl (g.rule r)) (hprec : decl.prec = some a) :
    (g.rule r).precSymbol = some X ↔ g.find? a = some X := by
  have := h.precSymbol_eq
  rw [hprec] at this
  rw [find?, this.2]

/-- **Symbols by their names and aliases.**  Every symbol is found by its name.  By
    its alias it is found, and meant in rules that use the alias, if and only if no
    other symbol has the alias as its name. -/
theorem find?_alias_iff (h : g.DefinedBy decls) (hX : X < g.symbols.size) :
    g.find? (g.symbol X).name = some X ∧
    ∀ a : String, (g.symbol X).aliasName = some a →
      (g.find? a = some X ↔ g.Unshadowed X a) ∧
      ∀ (i : Nat) (decl : RuleDecl), (Declaration.ruleDecls decls)[i]? = some decl →
        (∀ n : Nat, decl.rhs[n]? = some a → ((g.rhs (i + 1))[n]? = some X ↔ g.Unshadowed X a)) ∧
        (decl.prec = some a → ((g.rule (i + 1)).precSymbol = some X ↔ g.Unshadowed X a)) := by
  obtain ⟨d, records, hd⟩ := h.exists_records
  obtain ⟨terminals, completes⟩ := Draft.completes_of_prepare hd
  obtain ⟨syms, -, rules, -⟩ := numberedBy_of_prepare records hd
  refine ⟨syms.find?_name X hX, fun a ha => ?_⟩
  have found := syms.find?_alias completes.aliases_ok hX ha
  refine ⟨found, fun i decl hdecl => ⟨fun n hn => ?_, fun hprec => ?_⟩⟩
  · rw [rhs_eq_iff_find? (rules.resolves i decl hdecl) hn, found]
  · rw [precSymbol_eq_iff_find? (rules.resolves i decl hdecl) hprec, found]

/-- The alias of the number token in the sums. -/
theorem find?_alias_iff_sums : ∃ g, Grammar.define sums = .ok g ∧ 4 < g.symbols.size ∧
    (g.symbol 4).name = "NUM" ∧ (g.symbol 4).aliasName = some "number" ∧ g.find? "NUM" = some 4 ∧
    g.find? "number" = some 4 ∧ (g.rhs 1)[2]? = some 4 := by
  obtain ⟨g, hg, hcheck⟩ := exists_define sums (fun g => 4 < g.symbols.size ∧
    (g.symbol 4).name = "NUM" ∧ (g.symbol 4).aliasName = some "number" ∧ g.Unshadowed 4 "number")
    (by decide +kernel)
  obtain ⟨hlt, hname, halias, unshadowed⟩ := of_decide_eq_true hcheck
  obtain ⟨byName, byAlias⟩ := find?_alias_iff (.inl hg) hlt
  obtain ⟨found, used⟩ := byAlias _ halias
  exact ⟨g, hg, hlt, hname, halias, hname ▸ byName, found.2 unshadowed,
    ((used 0 _ rfl).1 2 rfl).2 unshadowed⟩

/-- Terminals that are called like the alias of the error token, and of another terminal. -/
def shadowed : List Declaration :=
  [.terminal "error" none none, .terminal "A" (some "B") none, .terminal "B" none none,
    .rule ⟨"S", ["error", "B"], none, 1⟩]

/-- The two aliases lead to the terminals that have them as names. -/
theorem shadowed_aliases : ∃ g, Grammar.define shadowed = .ok g ∧
    (g.symbol 1).aliasName = some "error" ∧ g.find? "error" = some 3 ∧
    (g.symbol 4).aliasName = some "B" ∧ g.find? "B" = some 5 ∧ g.rhs 1 = [3, 5] := by
  obtain ⟨g, hg, hcheck⟩ := exists_define shadowed (fun g =>
    (g.symbol 1).aliasName = some "error" ∧ g.find? "error" = some 3 ∧
    (g.symbol 4).aliasName = some "B" ∧ g.find? "B" = some 5 ∧ g.rhs 1 = [3, 5]) (by decide +kernel)
  exact ⟨g, hg, of_decide_eq_true hcheck⟩

end Grammar

end LRAutomata
