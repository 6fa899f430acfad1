/-
  How a symbol table fills up.

  Every name has one symbol, a name is found by itself and else as an alias of
  the first symbol that has it (`SymbolTable.Indexed`, `Indexed.find?_eq`).
  The symbols come in two phases:

  * first terminals, whose automatic token numbers count from `firstToken` on
    (`TerminalTable`, kept by `addTerminal`);
  * then nonterminals, whose numbers count from 0 on (`NonterminalsAfter`, kept by
    `addNonterminal`).
-/
import LRAutomata.Proofs.Data.OrderedMap
import LRAutomata.Proofs.Grammar.WellFormed

namespace LRAutomata

open Text

namespace SymbolTable

variable {t t₀ t' : SymbolTable} {name : String} {s : Symbol}

/-- The names of the symbols in their order. -/
def names (t : SymbolTable) : List String :=
  t.symbols.toList.map Symbol.name

/-! ## The index -/

/-- A name leads to the only symbol that has it, an alias to the first symbol
    that has it. -/
structure Indexed (t : SymbolTable) : Prop where
  byName_eq : ∀ name : String, t.byName[name]? = t.symbols.toList.findIdx? fun s => s.name = name
  byAlias_eq : ∀ name : String,
    t.byAlias[name]? = t.symbols.toList.findIdx? fun s => s.aliasName = some name
  nodup : t.names.Nodup

theorem indexed_empty : empty.Indexed :=
  ⟨fun _ => by simp [empty], fun _ => by simp [empty], by simp [names, empty]⟩

theorem Indexed.contains_iff (h : t.Indexed) :
    t.byName.contains name = true ↔ name ∈ t.names := by
  rw [← Std.TreeMap.isSome_getElem?_eq_contains, h.byName_eq, List.findIdx?_isSome, List.any_eq_true,
    names, List.mem_map]
  simp

theorem Indexed.not_mem (h : t.Indexed) (hs : t.byName.contains name = false) :
    name ∉ t.names := fun hmem => by
  rw [h.contains_iff.2 hmem] at hs; cases hs

/-- A symbol with a new name leaves the names found, and is found last by its alias. -/
theorem Indexed.push (h : t.Indexed) (hs : t.byName.contains s.name = false) :
    (t.push s).Indexed := by
  have fresh := h.not_mem hs
  constructor
  case byName_eq =>
    intro name
    simp only [SymbolTable.push, Std.TreeMap.getElem?_insert, Std.compare_eq_iff_eq,
      Array.toList_push, List.findIdx?_append, List.findIdx?_singleton, h.byName_eq name]
    by_cases hname : s.name = name
    · subst hname
      have none : (t.symbols.toList.findIdx? fun s' => decide (s'.name = s.name)) = none := by
        rw [List.findIdx?_eq_none_iff]
        exact fun s' hs' => decide_eq_false fun heq => fresh (heq ▸ List.mem_map_of_mem hs')
      simp [none]
    · simp [hname]
  case byAlias_eq =>
    intro name
    simp only [SymbolTable.push, Array.toList_push, List.findIdx?_append, List.findIdx?_singleton,
      ← h.byAlias_eq name]
    cases hs : s.aliasName with
    | none => simp
    | some aliasName =>
      simp only [Std.TreeMap.getElem?_insertIfNew, Std.compare_eq_iff_eq,
        Std.TreeMap.mem_iff_isSome_getElem?]
      by_cases heq : aliasName = name
      · subst heq
        cases t.byAlias[aliasName]? <;> simp
      · simp [heq]
  case nodup =>
    simp only [names, SymbolTable.push, Array.toList_push, List.map_append, List.nodup_append]
    refine ⟨h.nodup, by simp, ?_⟩
    rintro a ha b hb rfl
    rw [List.map_singleton, List.mem_singleton] at hb
    exact fresh (hb ▸ ha)

/-- The symbol found by a name: the one of that name, or else the first with that alias. -/
theorem Indexed.find?_eq (h : t.Indexed) (name : String) :
    t.find? name = (t.symbols.toList.findIdx? (·.name = name) <|>
      t.symbols.toList.findIdx? (·.aliasName = some name)) := by
  rw [find?, h.byName_eq, h.byAlias_eq]

/-- The number stored for a name is the place of the symbol that has it. -/
theorem Indexed.byName_eq_some_iff (h : t.Indexed) {X : SymbolId} :
    t.byName[name]? = some X ↔ ∃ hX : X < t.symbols.size, t.symbols[X].name = name := by
  rw [h.byName_eq, List.findIdx?_eq_some_iff_getElem]
  constructor
  · rintro ⟨hX, hname, -⟩
    exact ⟨by simpa using hX, by simpa using hname⟩
  · rintro ⟨hX, rfl⟩
    refine ⟨by simpa using hX, by simp, fun Y hY => ?_⟩
    have differ := List.pairwise_iff_getElem.1 (List.pairwise_map.1 h.nodup) Y X
      (by simpa using Nat.lt_trans hY hX) (by simpa using hX) hY
    simpa using differ

/-- Every symbol is found by its name. -/
theorem Indexed.find?_name (h : t.Indexed) {X : SymbolId} (hX : X < t.symbols.size) :
    t.find? t.symbols[X].name = some X := by
  rw [SymbolTable.find?, h.byName_eq_some_iff.2 ⟨hX, rfl⟩]
  rfl

/-! ## Terminals -/

theorem Indexed.names_addTerminal (ht : t.Indexed) {aliasName : Option String} {token : Option Nat}
    {precedence : Option Precedence} (h : t.addTerminal name aliasName token precedence = .ok t') :
    t'.names = if name ∈ t.names then t.names else t.names ++ [name] := by
  obtain ⟨hold, rfl⟩ | ⟨hnew, number, count, -, rfl⟩ := addTerminal_assigns h
  · rw [if_pos (ht.contains_iff.1 hold)]
  · rw [if_neg (ht.not_mem hnew)]
    simp [names, SymbolTable.push]

/-- The name of a terminal: a character literal or an identifier. -/
def IsTerminalName (name : String) : Prop :=
  CharLiteral.isLiteral name = true ∨ isIdentifier name = true

/-- A table of terminals, of which the ones with `automatic` names have the
    token numbers from `firstToken` on. -/
structure TerminalTable (automatic : String → Bool) (t : SymbolTable) : Prop where
  indexed : t.Indexed
  name_valid : ∀ s ∈ t.symbols.toList, IsTerminalName s.name
  isTerminal : ∀ s ∈ t.symbols.toList, s.isTerminal = true
  tokens : (t.symbols.toList.filter (automatic ·.name)).map Symbol.token =
    List.range' firstToken t.autoTokens
  nonterminalCount_eq : t.nonterminalCount = 0

theorem terminalTable_empty (automatic : String → Bool) : empty.TerminalTable automatic :=
  ⟨indexed_empty, by simp [empty], by simp [empty], by simp [empty], rfl⟩

theorem TerminalTable.addTerminal {automatic : String → Bool} {aliasName : Option String}
    {token : Option Nat} {precedence : Option Precedence} (ht : t.TerminalTable automatic)
    (valid : IsTerminalName name)
    (hauto : t.byName.contains name = false →
      automatic name = (token.isNone && !CharLiteral.isLiteral name))
    (h : t.addTerminal name aliasName token precedence = .ok t') : t'.TerminalTable automatic := by
  obtain ⟨-, rfl⟩ | ⟨hnew, number, count, assigns, rfl⟩ := addTerminal_assigns h
  · exact ht
  have hauto := hauto hnew
  constructor
  case indexed => exact Indexed.push (t := { t with autoTokens := count }) ⟨ht.1.1, ht.1.2, ht.1.3⟩ hnew
  case name_valid => simpa [push, or_imp, forall_and, valid] using ht.name_valid
  case isTerminal => simpa [push, or_imp, forall_and] using ht.isTerminal
  case nonterminalCount_eq => exact ht.nonterminalCount_eq
  case tokens =>
    have old := ht.tokens
    simp only [push, Array.toList_push, List.filter_append, List.map_append, old]
    cases assigns with
    | given token => simp [show automatic name = false from hauto]
    | code hliteral hcode => simp [show automatic name = false by simp [hauto, hliteral]]
    | auto hliteral =>
      simp [show automatic name = true by simp [hauto, hliteral], List.range'_1_concat]

/-! ## Nonterminals -/

/-- The symbols after those of `t₀` are nonterminals without aliases, numbered from 0 on. -/
structure NonterminalsAfter (t₀ t : SymbolTable) : Prop where
  indexed : t.Indexed
  symbols_eq : ∃ added : List Symbol, t.symbols.toList = t₀.symbols.toList ++ added ∧
    (∀ s ∈ added, s.isTerminal = false ∧ s.aliasName = none) ∧
    added.map Symbol.token = List.range t.nonterminalCount

theorem NonterminalsAfter.refl (h : t.Indexed) (hcount : t.nonterminalCount = 0) :
    NonterminalsAfter t t :=
  ⟨h, [], by simp, by simp, by simp [hcount]⟩

theorem Indexed.names_addNonterminal (ht : t.Indexed) (h : t.addNonterminal name = .ok t') :
    t'.names = if name ∈ t.names then t.names else t.names ++ [name] := by
  obtain ⟨hold, rfl⟩ | ⟨hnew, rfl⟩ := addNonterminal_cases h
  · rw [if_pos (ht.contains_iff.1 hold)]
  · rw [if_neg (ht.not_mem hnew)]
    simp [names, SymbolTable.push]

theorem NonterminalsAfter.addNonterminal (ht : NonterminalsAfter t₀ t)
    (h : t.addNonterminal name = .ok t') : NonterminalsAfter t₀ t' := by
  obtain ⟨-, rfl⟩ | ⟨hnew, rfl⟩ := addNonterminal_cases h
  · exact ht
  obtain ⟨added, hsymbols, hnonterminal, htokens⟩ := ht.symbols_eq
  constructor
  case indexed =>
    exact Indexed.push (t := { t with nonterminalCount := t.nonterminalCount + 1 })
      ⟨ht.1.1, ht.1.2, ht.1.3⟩ hnew
  case symbols_eq =>
    refine ⟨added ++ [⟨name, none, false, t.nonterminalCount, none⟩], ?_, ?_, ?_⟩
    · simp only [push, Array.toList_push, hsymbols, List.append_assoc]
    · simpa [or_imp, forall_and] using hnonterminal
    · simp only [push, List.map_append, htokens, List.range_succ, List.map_singleton]

end SymbolTable

end LRAutomata
