/-
  The token numbers of terminals.

  A character literal can be declared if its body denotes a code, the escaped
  double quote excepted, and its token number is this code
  (`Grammar.literal_denotes`).  If the declarations give no numbers, all others
  but the end marker are numbered from `firstToken` on.  So two terminals have the
  same number only if one of them is a literal that stands for the number of the
  other (`Grammar.tokens_collide_iff`).
-/
import Mathlib.Data.Nat.Count
import LRAutomata.Proofs.Grammar.Numbering
import LRAutomata.Proofs.Text.CharLiteral

namespace LRAutomata

open Text

variable {decls : List Declaration} {name : String}

/-! ## Literals in the symbol table -/

/-- An identifier does not begin with a quote. -/
theorem isLiteral_of_isIdentifier (h : isIdentifier name = true) :
    CharLiteral.isLiteral name = false := by
  unfold isIdentifier at h
  unfold CharLiteral.isLiteral CharLiteral.body?
  split at h
  · cases h
  · rename_i first rest hname
    have hquote : first ≠ '\'' := by
      rintro rfl
      have : isIdentifierStart '\'' = false := by decide +kernel
      rw [this] at h
      cases h
    rw [hname]
    simp [hquote]

namespace SymbolTable

variable {given : String → Bool} {t t' : SymbolTable}

/-- Literals are terminals, and those that are given no number have their code. -/
def LiteralsCoded (given : String → Bool) (t : SymbolTable) : Prop :=
  ∀ s ∈ t.symbols.toList, CharLiteral.isLiteral s.name = true → s.isTerminal = true ∧
    (given s.name = false → CharLiteral.code? s.name = some s.token)

theorem LiteralsCoded.addTerminal {aliasName : Option String} {token : Option Nat}
    {precedence : Option Precedence} (h : t.LiteralsCoded given)
    (hgiven : token.isSome = true → CharLiteral.isLiteral name = true → given name = true)
    (ht : t.addTerminal name aliasName token precedence = .ok t') : t'.LiteralsCoded given := by
  obtain ⟨-, rfl⟩ | ⟨-, number, count, assigns, rfl⟩ := addTerminal_assigns ht
  · exact h
  intro s hs hliteral
  simp only [push, Array.toList_push, List.mem_append, List.mem_singleton] at hs
  rcases hs with hs | rfl
  · exact h s hs hliteral
  refine ⟨rfl, fun hfree => ?_⟩
  cases assigns with
  | given => rw [hgiven rfl hliteral] at hfree; cases hfree
  | code _ hcode => exact hcode
  | auto hauto => rw [hauto] at hliteral; cases hliteral

theorem LiteralsCoded.addNonterminal (h : t.LiteralsCoded given)
    (hname : CharLiteral.isLiteral name = false) (ht : t.addNonterminal name = .ok t') :
    t'.LiteralsCoded given := by
  obtain ⟨-, rfl⟩ | ⟨-, rfl⟩ := addNonterminal_cases ht
  · exact h
  intro s hs hliteral
  simp only [push, Array.toList_push, List.mem_append, List.mem_singleton] at hs
  rcases hs with hs | rfl
  · exact h s hs hliteral
  · rw [hname] at hliteral; cases hliteral

end SymbolTable

namespace Draft

variable {d : Draft} {t t' : SymbolTable}

theorem literalsCoded_of_numberTerminals (records : Records decls d) (h : d.numberTerminals = .ok t) :
    t.LiteralsCoded fun name => decls.any (Declaration.givesToken name) := by
  refine keeps_numberTerminals (fun t₁ t₂ t₃ h₁ h₂ h₃ => ?reserved)
    (fun entry hentry t t' ht hstep => ?declared) (fun name _ t t' ht hstep => ?literal) h
  case reserved =>
    have coded₀ : SymbolTable.empty.LiteralsCoded fun name => decls.any (Declaration.givesToken name) :=
      fun s hs => absurd hs (by simp [SymbolTable.empty])
    have reserved : CharLiteral.isLiteral "YYEOF" = false := by decide +kernel
    exact ((coded₀.addTerminal (fun _ h => by rw [reserved] at h; cases h) h₁).addTerminal
      (fun h => by cases h) h₂).addTerminal (fun h => by cases h) h₃
  case declared =>
    exact ht.addTerminal (fun hsome _ => (records.of_mem_terminals hentry).2 ▸ hsome) hstep
  case literal => exact ht.addTerminal (fun h => by cases h) hstep

theorem literalsCoded_of_numberNonterminals (records : Records decls d) {given : String → Bool}
    (ht : t.LiteralsCoded given) (h : d.numberNonterminals t = .ok t') : t'.LiteralsCoded given := by
  refine keeps_numberNonterminals (fun _ h₁ => ht.addNonterminal (by decide +kernel) h₁)
    (fun name hname _ _ hb hstep => hb.addNonterminal ?_ hstep) h
  exact isLiteral_of_isIdentifier (records.isIdentifier_of_nonterminal hname)

end Draft

/-! ## Literals -/

namespace Grammar

variable {g : Grammar} {X Y : SymbolId} {n : Nat}

theorem symbol_mem (hX : X < g.symbols.size) : g.symbol X ∈ g.table.symbols.toList := by
  rw [symbol_eq_getElem hX]
  exact Array.getElem_mem_toList hX

/-- A symbol with the name of a literal is a terminal, and has the literal's code
    unless the declarations give it a number. -/
theorem DefinedBy.literal (h : g.DefinedBy decls) (hX : X < g.symbols.size)
    (hliteral : CharLiteral.isLiteral (g.symbol X).name = true) : g.isTerminal X = true ∧
      (decls.any (Declaration.givesToken (g.symbol X).name) = false →
        CharLiteral.code? (g.symbol X).name = some (g.symbol X).token) := by
  obtain ⟨d, records, hd⟩ := h.exists_records
  obtain ⟨terminals, completes⟩ := Draft.completes_of_prepare hd
  have coded := Draft.literalsCoded_of_numberNonterminals records
    (Draft.literalsCoded_of_numberTerminals records completes.terminals_eq) completes.table_eq
  have syms := (numberedBy_of_prepare records hd).symbols
  rw [← syms.isTerminal_eq X hX]
  exact coded _ (symbol_mem hX) hliteral

/-- **Character literals.**  A quoted text can be declared as a terminal if and only
    if it denotes a code and is not the escaped double quote; else it is reported
    as no literal.  Its token number is the code, if the declarations give no other. -/
theorem literal_denotes (h : CharLiteral.Quoted name) :
    (∀ (d : Draft) (aliasName : Option String) (token : Option Nat),
      ((d.declare (.terminal name aliasName token)).2 = none ↔
        CharLiteral.inner name ≠ ['\\', '"'] ∧ ∃ n, CharLiteral.Denotes (CharLiteral.inner name) n) ∧
      ((d.declare (.terminal name aliasName token)).2 ≠ none →
        (d.declare (.terminal name aliasName token)).2 = some (.invalidCharLiteral name))) ∧
    ∀ (decls : List Declaration) (g : Grammar), g.DefinedBy decls →
      decls.any (Declaration.givesToken name) = false →
      ∀ X < g.symbols.size, (g.symbol X).name = name →
        CharLiteral.Denotes (CharLiteral.inner name) (g.symbol X).token := by
  have hbody := h.body?
  have hliteral : CharLiteral.isLiteral name = true := by rw [CharLiteral.isLiteral, hbody]; rfl
  constructor
  · intro d aliasName token
    have answer : (d.declare (.terminal name aliasName token)).2 = Draft.terminalNameError? name := by
      simp only [Draft.declare]
      cases Draft.terminalNameError? name <;> rfl
    rw [answer, Draft.terminalNameError?, if_pos hliteral]
    cases hcode : CharLiteral.code? name with
    | none =>
      refine ⟨⟨fun h => by simp at h, ?_⟩, fun _ => rfl⟩
      rintro ⟨hne, n, hn⟩
      rw [(CharLiteral.code?_eq_some_iff hbody hne).2 hn] at hcode
      cases hcode
    | some n =>
      have hne := CharLiteral.ne_of_code? hbody hcode
      exact ⟨⟨fun _ => ⟨hne, n, (CharLiteral.code?_eq_some_iff hbody hne).1 hcode⟩, fun _ => rfl⟩,
        fun h => absurd rfl h⟩
  · rintro decls g hg hfree X hX rfl
    have hcode := (hg.literal hX hliteral).2 hfree
    exact (CharLiteral.code?_eq_some_iff hbody (CharLiteral.ne_of_code? hbody hcode)).1 hcode

/-- The octal number 101 stands for a capital A. -/
theorem literal_denotes_octal : CharLiteral.Quoted "'\\101'" ∧
    (∀ d : Draft, (d.declare (.terminal "'\\101'" none none)).2 = none) ∧
    ∃ g, Grammar.define [.rule ⟨"S", ["'\\101'"], none, 1⟩] = .ok g ∧
      (g.symbol 3).name = "'\\101'" ∧ (g.symbol 3).token = 65 ∧
      CharLiteral.Denotes (CharLiteral.inner "'\\101'") (g.symbol 3).token := by
  have quoted : CharLiteral.Quoted "'\\101'" :=
    ⟨by decide +kernel, by decide +kernel, by decide +kernel⟩
  obtain ⟨declared, denoted⟩ := literal_denotes quoted
  obtain ⟨g, hg, hcheck⟩ := exists_define [.rule ⟨"S", ["'\\101'"], none, 1⟩] (fun g =>
    3 < g.symbols.size ∧ (g.symbol 3).name = "'\\101'" ∧ (g.symbol 3).token = 65) (by decide +kernel)
  obtain ⟨hlt, hname, htoken⟩ := of_decide_eq_true hcheck
  have hdenotes := denoted _ g (.inl hg) rfl 3 hlt hname
  have hne : CharLiteral.inner "'\\101'" ≠ ['\\', '"'] := by decide +kernel
  exact ⟨quoted, fun d => (declared d none none).1.2 ⟨hne, _, hdenotes⟩, g, hg, hname, htoken, hdenotes⟩

/-- The escaped double quote denotes a code, but cannot be declared. -/
theorem escaped_quote_refused : CharLiteral.Quoted "'\\\"'" ∧
    CharLiteral.Denotes (CharLiteral.inner "'\\\"'") 34 ∧
    ∀ d : Draft, (d.declare (.terminal "'\\\"'" none none)).2 =
      some (.invalidCharLiteral "'\\\"'") := by
  have inner_eq : CharLiteral.inner "'\\\"'" = ['\\', '"'] := by decide +kernel
  have refused : Draft.terminalNameError? "'\\\"'" = some (.invalidCharLiteral "'\\\"'") := by
    decide +kernel
  refine ⟨⟨by decide +kernel, by decide +kernel, by decide +kernel⟩, ?_, fun d => ?_⟩
  · rw [inner_eq]
    exact .escape (by decide)
  · rw [Draft.declare, refused]

/-! ## Numbers that collide -/

/-- The automatic numbers count on: the one of an element comes after those of the
    automatic elements before it. -/
theorem eq_add_countP_of_filter {α : Type} {p : α → Bool} {f : α → Nat} {l : List α} {s : Nat}
    (h : (l.filter p).map f = List.range' s (l.filter p).length) {i : Nat} {a : α}
    (ha : l[i]? = some a) (hp : p a = true) : f a = s + (l.take i).countP p := by
  induction l generalizing s i with
  | nil => cases ha
  | cons b l ih =>
    cases hb : p b with
    | false =>
      rw [List.filter_cons_of_neg (by simp [hb])] at h
      cases i with
      | zero => cases ha; rw [hp] at hb; cases hb
      | succ i => rw [List.take_succ_cons, List.countP_cons_of_neg (by simp [hb])]; exact ih h ha
    | true =>
      rw [List.filter_cons_of_pos hb, List.map_cons, List.length_cons, List.range'_succ] at h
      obtain ⟨hfirst, h⟩ := List.cons.inj h
      cases i with
      | zero => cases ha; simpa using hfirst
      | succ i =>
        rw [List.take_succ_cons, List.countP_cons_of_pos hb, ih h ha]
        omega

/-- Whether the terminal is no literal, and not the end marker either. -/
def IsPlain (g : Grammar) (X : SymbolId) : Prop :=
  X ≠ SymbolId.endMarker ∧ CharLiteral.isLiteral (g.symbol X).name = false

instance (g : Grammar) : DecidablePred g.IsPlain := fun X =>
  inferInstanceAs (Decidable (X ≠ SymbolId.endMarker ∧ CharLiteral.isLiteral (g.symbol X).name = false))

/-- The number that a terminal has if the declarations give no numbers. -/
inductive TokenNumber (g : Grammar) : SymbolId → Nat → Prop
  | endMarker : TokenNumber g SymbolId.endMarker 0
  | literal {X : SymbolId} {body : List Char} {n : Nat} :
      CharLiteral.body? (g.symbol X).name = some body → CharLiteral.Denotes body n → TokenNumber g X n
  /-- The plain terminals count on from `firstToken`. -/
  | plain {X : SymbolId} : g.IsPlain X →
      TokenNumber g X (SymbolTable.firstToken + Nat.count g.IsPlain X)

theorem NumbersSymbols.name_eq_endMarker_iff (h : g.NumbersSymbols) (hX : X < g.symbols.size) :
    (g.symbol X).name = "YYEOF" ↔ X = SymbolId.endMarker := by
  have hend : (g.symbol SymbolId.endMarker).name = "YYEOF" := by rw [h.endMarker_eq]; rfl
  constructor
  · intro hname
    have found := h.find?_name X hX
    rw [hname, ← hend, h.find?_name SymbolId.endMarker (Nat.zero_lt_of_lt hX)] at found
    exact (Option.some.inj found).symm
  · rintro rfl; exact hend

/-- Without numbers in the declarations, the automatic terminals are the plain ones. -/
theorem NumbersSymbols.isAutomatic_eq (h : g.NumbersSymbols)
    (free : ∀ name, decls.any (Declaration.givesToken name) = false) (hX : X < g.symbols.size) :
    isAutomatic decls (g.symbol X).name = decide (g.IsPlain X) := by
  have hend := h.name_eq_endMarker_iff hX
  rw [isAutomatic]
  split
  · rename_i hmem
    have hliteral : ∀ name ∈ reservedNames, CharLiteral.isLiteral name = false := by decide +kernel
    simp [IsPlain, hend, hliteral _ hmem]
  · rename_i hmem
    have hne : X ≠ SymbolId.endMarker := fun heq => hmem (by simp [hend.2 heq, reservedNames])
    simp [IsPlain, free, hne]

/-- Plain terminals are numbered one after the other. -/
theorem token_of_plain (h : g.DefinedBy decls)
    (free : ∀ name, decls.any (Declaration.givesToken name) = false) (hX : X < g.terminalCount)
    (plain : g.IsPlain X) :
    (g.symbol X).token = SymbolTable.firstToken + Nat.count g.IsPlain X := by
  obtain ⟨d, records, hd⟩ := h.exists_records
  have wf := wellFormed_of_prepare hd
  obtain ⟨syms, tokens, -, -⟩ := numberedBy_of_prepare records hd
  have automatic : ∀ Y < g.terminalCount,
      isAutomatic decls (g.symbol Y).name = decide (g.IsPlain Y) := fun Y hY =>
    syms.isAutomatic_eq free (Nat.lt_of_lt_of_le hY wf.terminalCount_le)
  have hget : (g.terminals.map g.symbol)[X]? = some (g.symbol X) := by simp [terminals, hX]
  rw [eq_add_countP_of_filter tokens.automatic hget (by rw [automatic X hX]; simpa using plain),
    Nat.count, ← List.map_take, terminals, List.take_range, Nat.min_eq_left (Nat.le_of_lt hX),
    List.countP_map]
  congr 1
  refine List.countP_congr fun Y hY => ?_
  simp [automatic Y (Nat.lt_trans (List.mem_range.1 hY) hX)]

theorem tokenNumber_iff (h : g.DefinedBy decls)
    (free : ∀ name, decls.any (Declaration.givesToken name) = false) (hX : X < g.terminalCount) :
    g.TokenNumber X n ↔ (g.symbol X).token = n := by
  obtain ⟨d, records, hd⟩ := h.exists_records
  have hsize := Nat.lt_of_lt_of_le hX (wellFormed_of_prepare hd).terminalCount_le
  have endMarker_token : (g.symbol SymbolId.endMarker).token = 0 := by
    rw [(numberedBy_of_prepare records hd).symbols.endMarker_eq]; rfl
  have literal_code := fun hliteral => (h.literal hsize hliteral).2 (free _)
  constructor
  · intro hn
    cases hn with
    | endMarker => exact endMarker_token
    | literal hbody hdenotes =>
      have hcode := literal_code (by rw [CharLiteral.isLiteral, hbody]; rfl)
      rw [(CharLiteral.code?_eq_some_iff hbody (CharLiteral.ne_of_code? hbody hcode)).2 hdenotes]
        at hcode
      exact (Option.some.inj hcode).symm
    | plain hplain => exact token_of_plain h free hX hplain
  · rintro rfl
    cases hbody : CharLiteral.body? (g.symbol X).name with
    | some body =>
      have hcode := literal_code (by rw [CharLiteral.isLiteral, hbody]; rfl)
      exact .literal hbody
        ((CharLiteral.code?_eq_some_iff hbody (CharLiteral.ne_of_code? hbody hcode)).1 hcode)
    | none =>
      by_cases hend : X = SymbolId.endMarker
      · rw [hend, endMarker_token]; exact .endMarker
      · have plain : g.IsPlain X := ⟨hend, by rw [CharLiteral.isLiteral, hbody]; rfl⟩
        rw [token_of_plain h free hX plain]
        exact .plain plain

/-- Terminals that are no literals have different numbers. -/
theorem token_injective (h : g.DefinedBy decls)
    (free : ∀ name, decls.any (Declaration.givesToken name) = false) (hX : X < g.terminalCount)
    (hY : Y < g.terminalCount) (hXname : CharLiteral.isLiteral (g.symbol X).name = false)
    (hYname : CharLiteral.isLiteral (g.symbol Y).name = false)
    (heq : (g.symbol X).token = (g.symbol Y).token) : X = Y := by
  have cases_of : ∀ Z < g.terminalCount, CharLiteral.isLiteral (g.symbol Z).name = false →
      Z = SymbolId.endMarker ∧ (g.symbol Z).token = 0 ∨
      g.IsPlain Z ∧ (g.symbol Z).token = SymbolTable.firstToken + Nat.count g.IsPlain Z := by
    intro Z hZ hname
    by_cases hend : Z = SymbolId.endMarker
    · subst hend
      exact .inl ⟨rfl, (tokenNumber_iff h free hZ).1 .endMarker⟩
    · exact .inr ⟨⟨hend, hname⟩, token_of_plain h free hZ ⟨hend, hname⟩⟩
  have hpos : 0 < SymbolTable.firstToken := by decide
  rcases cases_of X hX hXname with ⟨hX₀, hXt⟩ | ⟨hXplain, hXt⟩ <;>
    rcases cases_of Y hY hYname with ⟨hY₀, hYt⟩ | ⟨hYplain, hYt⟩
  · rw [hX₀, hY₀]
  · omega
  · omega
  · exact Nat.count_injective hXplain hYplain (by omega)

theorem not_givesToken (free : ∀ name aliasName token,
    Declaration.terminal name aliasName (some token) ∉ decls) (name : String) :
    decls.any (Declaration.givesToken name) = false := by
  rw [List.any_eq_false]
  intro decl hdecl hgives
  cases decl with
  | terminal other aliasName token =>
    cases token with
    | none => cases hgives
    | some token => exact free other aliasName token hdecl
  | _ => cases hgives

/-- **Terminals with the same token number.**  If the declarations give no numbers,
    two terminals have the same one just if one of them is a character literal and
    both stand for the same number: the code of a literal, 0 for the end marker, or
    the place in the count of the plain terminals. -/
theorem tokens_collide_iff (h : g.DefinedBy decls) (free : ∀ name aliasName token,
      Declaration.terminal name aliasName (some token) ∉ decls)
    (hX : X < g.terminalCount) (hY : Y < g.terminalCount) (hne : X ≠ Y) :
    (g.symbol X).token = (g.symbol Y).token ↔
      (CharLiteral.isLiteral (g.symbol X).name = true ∨
        CharLiteral.isLiteral (g.symbol Y).name = true) ∧
      ∃ n, g.TokenNumber X n ∧ g.TokenNumber Y n := by
  have free := not_givesToken free
  simp only [tokenNumber_iff h free hX, tokenNumber_iff h free hY, exists_eq_left']
  refine ⟨fun heq => ⟨?_, heq.symm⟩, fun ⟨_, heq⟩ => heq.symm⟩
  by_contra hnone
  rw [not_or, Bool.not_eq_true, Bool.not_eq_true] at hnone
  exact hne (token_injective h free hX hY hnone.1 hnone.2 heq)

/-- Literals for one character written in two ways, for two characters with the same
    first byte, for the number of the end marker, and for that of the error token. -/
def spellings : List Declaration :=
  [.rule ⟨"S", ["'a'", "'\\141'", "'é'", "'è'", "'\\0'", "'\\400'"], none, 1⟩]

/-- The error token and the octal number 400 stand for the same number, the error
    token and the undefined token do not. -/
theorem tokens_collide_iff_spellings : ∃ g, Grammar.define spellings = .ok g ∧
    (∀ name aliasName token, Declaration.terminal name aliasName (some token) ∉ spellings) ∧
    (∃ n, g.TokenNumber 1 n ∧ g.TokenNumber 8 n) ∧ (g.symbol 1).token ≠ (g.symbol 2).token := by
  obtain ⟨g, hg, hcheck⟩ := exists_define spellings (fun g => g.terminalCount = 9 ∧
    (g.symbol 1).token = (g.symbol 8).token ∧
    CharLiteral.isLiteral (g.symbol 1).name = false ∧
    CharLiteral.isLiteral (g.symbol 2).name = false) (by decide +kernel)
  obtain ⟨hcount, heq, hone, htwo⟩ := of_decide_eq_true hcheck
  have free : ∀ name aliasName token, Declaration.terminal name aliasName (some token) ∉ spellings := by
    simp [spellings]
  refine ⟨g, hg, free, ?_, fun heq' => ?_⟩
  · exact ((tokens_collide_iff (.inl hg) free (by rw [hcount]; decide) (by rw [hcount]; decide)
      (by decide)).1 heq).2
  · have := ((tokens_collide_iff (.inl hg) free (by rw [hcount]; decide) (by rw [hcount]; decide)
      (by decide)).1 heq').1
    rw [hone, htwo] at this
    simp at this

/-- No number is given, and four pairs of terminals have the same one. -/
theorem tokens_collide : ∃ g, Grammar.define spellings = .ok g ∧
    (∀ name aliasName token, Declaration.terminal name aliasName (some token) ∉ spellings) ∧
    g.terminalCount = 9 ∧ (g.symbol 3).token = (g.symbol 4).token ∧
    (g.symbol 5).token = (g.symbol 6).token ∧ (g.symbol 7).token = (g.symbol 0).token ∧
    (g.symbol 8).token = (g.symbol 1).token := by
  obtain ⟨g, hg, hcheck⟩ := exists_define spellings (fun g =>
    g.terminalCount = 9 ∧ (g.symbol 3).token = (g.symbol 4).token ∧
    (g.symbol 5).token = (g.symbol 6).token ∧ (g.symbol 7).token = (g.symbol 0).token ∧
    (g.symbol 8).token = (g.symbol 1).token) (by decide +kernel)
  exact ⟨g, hg, by simp [spellings], of_decide_eq_true hcheck⟩

end Grammar

end LRAutomata
