/-
  What completing a draft does, step by step.

  The steps are those of `Draft.prepare`.  Each can fail, and for each there is
  what it gives when it succeeds:

  * symbols are added, and keep their numbers (`SymbolTable.addTerminal_assigns`,
    `SymbolTable.addNonterminal_cases`); what every addition keeps, the two
    phases keep (`Draft.keeps_numberTerminals`, `Draft.keeps_numberNonterminals`);
  * names are replaced by numbers (`Draft.resolveRules_eq_ok_iff`,
    `Draft.resolveStart_eq_ok_iff`);
  * the rules of each symbol are listed (`Draft.getD_indexRules`), and their
    left-hand sides are checked (`checkRules_eq_ok_iff`).
-/
import Mathlib.Data.List.Forall2
import LRAutomata.Grammar.Define

namespace LRAutomata

/-! ## Computations that may fail -/

theorem ok_of_bind_ok {ε α β : Type} {x : Except ε α} {f : α → Except ε β} {b : β}
    (h : x >>= f = Except.ok b) : ∃ a, x = .ok a ∧ f a = .ok b := by
  rcases x with e | a
  · cases h
  · exact ⟨a, rfl, h⟩

/-- What every step of a fold keeps, the fold keeps. -/
theorem keeps_foldlM_of_mem {ε α β : Type} {P : β → Prop} {f : β → α → Except ε β} :
    ∀ (as : List α), (∀ a ∈ as, ∀ b b', P b → f b a = .ok b' → P b') →
      ∀ {b b' : β}, P b → as.foldlM f b = .ok b' → P b'
  | [], _, _, _, hb, h => by cases h; exact hb
  | a :: as, step, b, b', hb, h => by
    obtain ⟨b₁, h₁, h₂⟩ := ok_of_bind_ok (by simpa only [List.foldlM_cons] using h)
    exact keeps_foldlM_of_mem as (fun a ha => step a (List.mem_cons_of_mem _ ha))
      (step a List.mem_cons_self b b₁ hb h₁) h₂

theorem keeps_foldlM {ε α β : Type} {P : β → Prop} {f : β → α → Except ε β}
    (step : ∀ b a b', P b → f b a = .ok b' → P b') (as : List α) {b b' : β} (hb : P b)
    (h : as.foldlM f b = .ok b') : P b' :=
  keeps_foldlM_of_mem as (fun a _ b b' => step b a b') hb h

theorem exists_of_mem_mapM {ε α β : Type} {f : α → Except ε β} :
    ∀ {as : List α} {bs : List β}, as.mapM f = .ok bs → ∀ b ∈ bs, ∃ a ∈ as, f a = .ok b
  | [], bs, h, b, hb => by cases h; simp at hb
  | a :: as, bs, h, b, hb => by
    obtain ⟨b₁, h₁, h⟩ := ok_of_bind_ok (by simpa only [List.mapM_cons] using h)
    obtain ⟨bs₁, h₂, h⟩ := ok_of_bind_ok h
    cases h
    rcases List.mem_cons.1 hb with rfl | hb
    · exact ⟨a, by simp, h₁⟩
    · obtain ⟨a', ha', hf⟩ := exists_of_mem_mapM h₂ b hb; exact ⟨a', by simp [ha'], hf⟩

/-! ## The symbol table -/

namespace SymbolTable

/-- Every name and alias of the table stands for a symbol of it. -/
structure Numbered (t : SymbolTable) : Prop where
  byName : ∀ (name : String) (id : SymbolId), t.byName[name]? = some id → id < t.symbols.size
  byAlias : ∀ (name : String) (id : SymbolId), t.byAlias[name]? = some id → id < t.symbols.size

/-- The table `t'` has the symbols of `t` and perhaps more. -/
structure Grows (t t' : SymbolTable) : Prop where
  size_le : t.symbols.size ≤ t'.symbols.size
  symbol_eq : ∀ {n}, n < t.symbols.size → t'.symbols[n]? = t.symbols[n]?
  numbered : t.Numbered → t'.Numbered

theorem Grows.refl (t : SymbolTable) : t.Grows t := ⟨Nat.le_refl _, fun _ => rfl, id⟩

theorem Grows.trans {t₁ t₂ t₃ : SymbolTable} (h₁ : t₁.Grows t₂) (h₂ : t₂.Grows t₃) : t₁.Grows t₃ :=
  ⟨Nat.le_trans h₁.size_le h₂.size_le,
    fun hn => (h₂.symbol_eq (Nat.lt_of_lt_of_le hn h₁.size_le)).trans (h₁.symbol_eq hn),
    fun h => h₂.numbered (h₁.numbered h)⟩

/-- A symbol that is numbered keeps its number. -/
theorem Grows.numbered_and {t t' : SymbolTable} (h : t.Grows t') {n : Nat} {s : Symbol}
    (ht : t.Numbered ∧ t.symbols[n]? = some s) : t'.Numbered ∧ t'.symbols[n]? = some s :=
  ⟨h.numbered ht.1, (h.symbol_eq (Array.getElem?_eq_some_iff.1 ht.2).1).trans ht.2⟩

theorem numbered_empty : empty.Numbered :=
  ⟨fun _ _ h => by simp [empty] at h, fun _ _ h => by simp [empty] at h⟩

theorem numbered_push {t : SymbolTable} (h : t.Numbered) (s : Symbol) : (t.push s).Numbered := by
  constructor <;> intro name id hid <;> simp only [push, Array.size_push] at hid ⊢
  · rw [Std.TreeMap.getElem?_insert] at hid
    split at hid
    · cases hid; exact Nat.lt_succ_self _
    · exact Nat.lt_succ_of_lt (h.byName name id hid)
  · split at hid
    · rw [Std.TreeMap.getElem?_insertIfNew] at hid
      split at hid
      · cases hid; exact Nat.lt_succ_self _
      · exact Nat.lt_succ_of_lt (h.byAlias name id hid)
    · exact Nat.lt_succ_of_lt (h.byAlias name id hid)

theorem size_push (t : SymbolTable) (s : Symbol) : (t.push s).symbols.size = t.symbols.size + 1 := by
  simp [push]

theorem grows_push (t : SymbolTable) (m n : Nat) (s : Symbol) :
    t.Grows ({ t with autoTokens := m, nonterminalCount := n }.push s) :=
  ⟨by rw [size_push]; exact Nat.le_succ _,
    fun hn => (Array.getElem?_push_lt hn).trans (Array.getElem?_eq_getElem hn).symm,
    fun h => numbered_push (t := { t with autoTokens := m, nonterminalCount := n }) ⟨h.1, h.2⟩ s⟩

/-- What a terminal that is added gets as its token number; automatic numbers count on. -/
inductive Assigns (t : SymbolTable) (name : String) : Option Nat → Nat → Nat → Prop where
  | given (token : Nat) : Assigns t name (some token) token t.autoTokens
  | code {code : Nat} : Text.CharLiteral.isLiteral name = true → Text.CharLiteral.code? name = some code →
      Assigns t name none code t.autoTokens
  | auto : Text.CharLiteral.isLiteral name = false →
      Assigns t name none (firstToken + t.autoTokens) (t.autoTokens + 1)

/-- A terminal that is added is there already or gets the next number. -/
theorem addTerminal_assigns {t t' : SymbolTable} {name : String} {aliasName : Option String}
    {token : Option Nat} {precedence : Option Precedence}
    (h : t.addTerminal name aliasName token precedence = .ok t') :
    (t.byName.contains name = true ∧ t' = t) ∨
      t.byName.contains name = false ∧ ∃ number count, Assigns t name token number count ∧
        t' = { t with autoTokens := count }.push
          { name, aliasName, isTerminal := true, token := number, precedence } := by
  unfold addTerminal at h
  split at h
  · rename_i hc; cases h; exact .inl ⟨hc, rfl⟩
  rename_i hc
  refine .inr ⟨Bool.eq_false_iff.2 hc, ?_⟩
  split at h
  · cases h
  cases token with
  | some token => cases h; exact ⟨_, _, .given token, rfl⟩
  | none =>
    simp only at h
    split at h
    · rename_i hliteral
      split at h
      · rename_i hcode; cases h; exact ⟨_, _, .code hliteral hcode, rfl⟩
      · cases h
    · rename_i hliteral; cases h; exact ⟨_, _, .auto (by simpa using hliteral), rfl⟩

/-- A nonterminal that is added is there already or gets the next number. -/
theorem addNonterminal_cases {t t' : SymbolTable} {name : String}
    (h : t.addNonterminal name = .ok t') :
    (t.byName.contains name = true ∧ t' = t) ∨
      t.byName.contains name = false ∧
        t' = { t with nonterminalCount := t.nonterminalCount + 1 }.push
          ⟨name, none, false, t.nonterminalCount, none⟩ := by
  unfold addNonterminal at h
  split at h
  · rename_i hold; cases h; exact .inl ⟨hold, rfl⟩
  rename_i hnew
  split at h
  · cases h
  · cases h; exact .inr ⟨Bool.eq_false_iff.2 hnew, rfl⟩

theorem grows_addTerminal {t t' : SymbolTable} {name : String} {aliasName : Option String}
    {token : Option Nat} {precedence : Option Precedence}
    (h : t.addTerminal name aliasName token precedence = .ok t') : t.Grows t' := by
  obtain ⟨-, rfl⟩ | ⟨-, _, count, -, rfl⟩ := addTerminal_assigns h
  · exact .refl _
  · exact grows_push t count t.nonterminalCount _

theorem grows_addNonterminal {t t' : SymbolTable} {name : String}
    (h : t.addNonterminal name = .ok t') : t.Grows t' := by
  obtain ⟨-, rfl⟩ | ⟨-, rfl⟩ := addNonterminal_cases h
  · exact .refl _
  · exact grows_push t t.autoTokens _ _

theorem resolve_eq_ok_iff {t : SymbolTable} {name : String} {id : SymbolId} :
    t.resolve name = .ok id ↔ t.find? name = some id := by
  rw [resolve]
  cases t.find? name <;> simp

theorem resolve_lt {t : SymbolTable} (ht : t.Numbered) {name : String} {id : SymbolId}
    (h : t.resolve name = .ok id) : id < t.symbols.size := by
  have hid := resolve_eq_ok_iff.1 h
  rw [find?] at hid
  cases hn : t.byName[name]? with
  | some n => rw [hn] at hid; cases hid; exact ht.byName name _ hn
  | none => rw [hn] at hid; exact ht.byAlias name _ hid

end SymbolTable

/-! ## The two phases -/

namespace Draft

/-- What holds when the accepting symbol is added and every other nonterminal keeps, all
    together have: the declared ones, and the left-hand sides, which are identifiers. -/
theorem keeps_numberNonterminals {d : Draft} {P : SymbolTable → Prop} {t t' : SymbolTable}
    (accept : ∀ t₁, t.addNonterminal acceptName = .ok t₁ → P t₁)
    (step : ∀ name, name ∈ d.nonterminals.toList ∨ Text.isIdentifier name = true →
      ∀ t t', P t → t.addNonterminal name = .ok t' → P t')
    (h : d.numberNonterminals t = .ok t') : P t' := by
  obtain ⟨t₁, h₁, h⟩ := ok_of_bind_ok h
  obtain ⟨t₂, h₂, h⟩ := ok_of_bind_ok h
  have declared : P t₂ :=
    keeps_foldlM_of_mem _ (fun name hname => step name (.inl hname)) (accept t₁ h₁) h₂
  refine keeps_foldlM (fun b r b' hb hr => ?_) _ declared h
  split at hr
  · cases hr; exact hb
  · split at hr
    · rename_i valid; exact step _ (.inr valid) _ _ hb hr
    · cases hr

theorem grows_numberNonterminals {d : Draft} {t t' : SymbolTable}
    (h : d.numberNonterminals t = .ok t') : t.Grows t' :=
  keeps_numberNonterminals (P := t.Grows) (fun _ ha => SymbolTable.grows_addNonterminal ha)
    (fun _ _ _ _ hb ha => hb.trans (SymbolTable.grows_addNonterminal ha)) h

/-- The symbol that is numbered first. -/
def endMarkerSymbol : Symbol where
  name := "YYEOF"
  aliasName := some "$end"
  isTerminal := true
  token := 0
  precedence := none

/-- What the reserved terminals have and every other terminal keeps, all together
    have: the declared ones, and the literals in rules. -/
theorem keeps_numberTerminals {d : Draft} {P : SymbolTable → Prop}
    (reserved : ∀ t₁ t₂ t₃,
      SymbolTable.empty.addTerminal "YYEOF" (some "$end") (some 0) none = .ok t₁ →
      t₁.addTerminal "YYerror" (some "error") none none = .ok t₂ →
      t₂.addTerminal "YYUNDEF" (some "$undefined") none none = .ok t₃ → P t₃)
    (declared : ∀ entry ∈ d.terminals.toList, ∀ t t', P t →
      t.addTerminal entry.1 entry.2.aliasName entry.2.token entry.2.precedence = .ok t' → P t')
    (literal : ∀ name, Text.CharLiteral.isLiteral name = true → ∀ t t', P t →
      t.addTerminal name none none none = .ok t' → P t')
    {t : SymbolTable} (h : d.numberTerminals = .ok t) : P t := by
  obtain ⟨t₁, h₁, h⟩ := ok_of_bind_ok h
  obtain ⟨t₂, h₂, h⟩ := ok_of_bind_ok h
  obtain ⟨t₃, h₃, h⟩ := ok_of_bind_ok h
  obtain ⟨t₄, h₄, h⟩ := ok_of_bind_ok h
  have all : P t₄ := keeps_foldlM_of_mem _ declared (reserved t₁ t₂ t₃ h₁ h₂ h₃) h₄
  refine keeps_foldlM (fun b name b' hb hstep => ?_) _ all h
  split at hstep
  · rename_i hcond
    exact literal name (Bool.and_eq_true_iff.1 hcond).1 b b' hb hstep
  · cases hstep; exact hb

/-- The terminals are numbered, and there is at least the end marker. -/
theorem numberTerminals_numbered {d : Draft} {t : SymbolTable} (h : d.numberTerminals = .ok t) :
    t.Numbered ∧ t.symbols[SymbolId.endMarker]? = some endMarkerSymbol := by
  refine keeps_numberTerminals
    (P := fun t => t.Numbered ∧ t.symbols[SymbolId.endMarker]? = some endMarkerSymbol)
    (fun t₁ t₂ t₃ h₁ h₂ h₃ => ?_)
    (fun _ _ _ _ ht hstep => (SymbolTable.grows_addTerminal hstep).numbered_and ht)
    (fun _ _ _ _ ht hstep => (SymbolTable.grows_addTerminal hstep).numbered_and ht) h
  have numbered₁ := (SymbolTable.grows_addTerminal h₁).numbered SymbolTable.numbered_empty
  have first : t₁.symbols[SymbolId.endMarker]? = some endMarkerSymbol := by cases h₁; rfl
  exact ((SymbolTable.grows_addTerminal h₂).trans (SymbolTable.grows_addTerminal h₃)).numbered_and
    ⟨numbered₁, first⟩

/-! ## Names replaced by numbers -/

theorem resolveStart_eq_ok_iff {d : Draft} {t : SymbolTable} {n : Nat} {firstLhs : String}
    {id : SymbolId} : d.resolveStart t n firstLhs = .ok id ↔
      t.resolve (d.start.getD firstLhs) = .ok id ∧ n ≤ id := by
  constructor
  · intro h
    obtain ⟨id', hid, h⟩ := ok_of_bind_ok h
    split at h
    · cases h
    · rename_i hge; cases h; exact ⟨hid, Nat.le_of_not_lt hge⟩
  · rintro ⟨hid, hge⟩
    rw [resolveStart, hid]
    exact if_neg (Nat.not_lt.2 hge)

/-- The symbols of a rule exist. -/
structure InRange (n : Nat) (r : Rule) : Prop where
  lhs_lt : r.lhs < n
  rhs_lt : ∀ X ∈ r.rhs, X < n
  precSymbol_lt : ∀ X ∈ r.precSymbol, X < n

theorem mem_of_lastTerminal? {n : Nat} {symbols : List SymbolId} {X : SymbolId}
    (h : X ∈ lastTerminal? n symbols) : X ∈ symbols :=
  List.mem_reverse.1 (List.mem_of_find?_eq_some h)

/-- The last terminal of the accepting rule is the end marker. -/
theorem lastTerminal?_accept {n : Nat} (hpos : 0 < n) (start : SymbolId) :
    lastTerminal? n [start, SymbolId.endMarker] = some SymbolId.endMarker := by
  simp [lastTerminal?, show SymbolId.endMarker < n from hpos]

/-- A rule is resolved to the rule in which every name is replaced by its number. -/
theorem resolveRule_eq_ok_iff {t : SymbolTable} {n : Nat} {decl : RuleDecl} {r : Rule} :
    resolveRule t n decl = .ok r ↔ t.resolve decl.lhs = .ok r.lhs ∧
      decl.rhs.mapM t.resolve = .ok r.rhs ∧
      (match decl.prec with
        | some name => ∃ X, t.resolve name = .ok X ∧ r.precSymbol = some X
        | none => r.precSymbol = lastTerminal? n r.rhs) ∧
      r.line = decl.line := by
  constructor
  · intro h
    obtain ⟨lhs, hlhs, h⟩ := ok_of_bind_ok h
    obtain ⟨rhs, hrhs, h⟩ := ok_of_bind_ok h
    cases hp : decl.prec with
    | none =>
      simp only [hp] at h
      cases h
      exact ⟨hlhs, hrhs, rfl, rfl⟩
    | some name =>
      simp only [hp] at h
      obtain ⟨prec, hprec, h⟩ := ok_of_bind_ok h
      cases hname : t.resolve name with
      | error e => rw [hname] at hprec; cases hprec
      | ok X =>
        rw [hname] at hprec
        cases hprec
        cases h
        exact ⟨hlhs, hrhs, ⟨X, hname, rfl⟩, rfl⟩
  · obtain ⟨lhs, rhs, precSymbol, line⟩ := r
    rintro ⟨hlhs, hrhs, hprec, rfl⟩
    rw [resolveRule, hlhs, hrhs]
    cases hp : decl.prec with
    | none =>
      simp only [hp] at hprec
      rw [hprec]
      rfl
    | some name =>
      simp only [hp] at hprec
      obtain ⟨X, hX, rfl⟩ := hprec
      simp only [hX]
      rfl

theorem resolveRule_inRange {t : SymbolTable} (ht : t.Numbered) {n : Nat} {decl : RuleDecl} {r : Rule}
    (h : resolveRule t n decl = .ok r) : InRange t.symbols.size r := by
  obtain ⟨hlhs, hrhs, hprec, -⟩ := resolveRule_eq_ok_iff.1 h
  have rhs_lt : ∀ X ∈ r.rhs, X < t.symbols.size := by
    intro X hX
    obtain ⟨name, -, hname⟩ := exists_of_mem_mapM hrhs X hX
    exact SymbolTable.resolve_lt ht hname
  refine ⟨SymbolTable.resolve_lt ht hlhs, rhs_lt, fun X hX => ?_⟩
  cases hp : decl.prec with
  | none =>
    rw [hp] at hprec
    exact rhs_lt X (mem_of_lastTerminal? (hprec ▸ hX))
  | some name =>
    rw [hp] at hprec
    obtain ⟨Y, hY, hprec⟩ := hprec
    rw [hprec] at hX
    cases hX
    exact SymbolTable.resolve_lt ht hY

/-- Rules are resolved one after the other, as long as there are not too many. -/
theorem foldlM_resolveRule_eq_ok_iff {t : SymbolTable} {n : Nat} {rules : Array Rule} :
    ∀ {decls : List RuleDecl} {before : Array Rule}, before.size ≤ ruleLimit →
      ((decls.foldlM (fun numbered r => do
        if ruleLimit ≤ numbered.size then .error .tooManyRules
        else .ok (numbered.push (← resolveRule t n r))) before : Except GrammarError (Array Rule)) =
          .ok rules ↔
        ∃ numbered, rules.toList = before.toList ++ numbered ∧
          List.Forall₂ (fun decl r => resolveRule t n decl = .ok r) decls numbered ∧
          rules.size ≤ ruleLimit)
  | [], before, hbefore => by
    constructor
    · intro h
      cases h
      exact ⟨[], by simp, .nil, hbefore⟩
    · rintro ⟨_, hrules, hall, -⟩
      cases hall
      rw [List.append_nil] at hrules
      rw [List.foldlM_nil, Array.toList_inj.1 hrules]
      rfl
  | decl :: decls, before, hbefore => by
    rw [List.foldlM_cons]
    constructor
    · intro h
      obtain ⟨next, hnext, h⟩ := ok_of_bind_ok h
      split at hnext
      · cases hnext
      rename_i hroom
      obtain ⟨r, hr, hnext⟩ := ok_of_bind_ok hnext
      cases hnext
      obtain ⟨numbered, hrules, hall, hle⟩ := (foldlM_resolveRule_eq_ok_iff (by
        rw [Array.size_push]; exact Nat.lt_of_not_le hroom)).1 h
      exact ⟨r :: numbered, by simpa using hrules, .cons hr hall, hle⟩
    · rintro ⟨_, hrules, hall, hle⟩
      cases hall with
      | cons hr hall =>
        rename_i r numbered
        have size_eq := congrArg List.length hrules
        rw [Array.length_toList, List.length_append, List.length_cons, Array.length_toList] at size_eq
        have hroom : ¬ ruleLimit ≤ before.size := by omega
        rw [if_neg hroom, hr]
        exact (foldlM_resolveRule_eq_ok_iff (by rw [Array.size_push]; omega)).2
          ⟨numbered, by simpa using hrules, hall, hle⟩

/-- The accepting rule comes first, then the declared ones; there are not too many. -/
theorem resolveRules_eq_ok_iff {t : SymbolTable} {n : Nat} {start : SymbolId}
    {decls : List RuleDecl} {rules : Array Rule} : resolveRules t n start decls = .ok rules ↔
      ∃ accept numbered, t.resolve acceptName = .ok accept ∧
        rules.toList = ⟨accept, [start, SymbolId.endMarker],
          lastTerminal? n [start, SymbolId.endMarker], 0⟩ :: numbered ∧
        List.Forall₂ (fun decl r => resolveRule t n decl = .ok r) decls numbered ∧
        rules.size ≤ ruleLimit := by
  have one_le : ∀ r : Rule, #[r].size ≤ ruleLimit := fun r => by simp [ruleLimit]
  constructor
  · intro h
    obtain ⟨accept, haccept, h⟩ := ok_of_bind_ok h
    obtain ⟨numbered, hrules, hall⟩ := (foldlM_resolveRule_eq_ok_iff (one_le _)).1 h
    exact ⟨accept, numbered, haccept, hrules, hall⟩
  · rintro ⟨accept, numbered, haccept, hrules, hall⟩
    rw [resolveRules, haccept]
    exact (foldlM_resolveRule_eq_ok_iff (one_le _)).2 ⟨numbered, hrules, hall⟩

/-- The rules of a completed draft: the accepting rule comes first, and all
    their symbols exist. -/
structure Resolved (n terminalCount : Nat) (start : SymbolId) (rules : Array Rule) : Prop where
  accept : (rules.getD RuleId.accept default).rhs = [start, SymbolId.endMarker]
  precSymbol : (rules.getD RuleId.accept default).precSymbol =
    lastTerminal? terminalCount [start, SymbolId.endMarker]
  size_pos : 0 < rules.size
  inRange : ∀ r ∈ rules, InRange n r

theorem resolveRules_resolved {t : SymbolTable} (ht : t.Numbered) {n : Nat} {start : SymbolId}
    (hstart : start < t.symbols.size) (hpos : 0 < t.symbols.size) {decls : List RuleDecl}
    {rules : Array Rule} (h : resolveRules t n start decls = .ok rules) :
    Resolved t.symbols.size n start rules := by
  obtain ⟨accept, numbered, haccept, hrules, hall, -⟩ := resolveRules_eq_ok_iff.1 h
  have rhs_lt : ∀ X ∈ [start, SymbolId.endMarker], X < t.symbols.size := by
    intro X hX
    rcases List.mem_cons.1 hX with rfl | hX
    · exact hstart
    · rw [List.mem_singleton.1 hX]; exact hpos
  have first : rules.getD RuleId.accept default = ⟨accept, [start, SymbolId.endMarker],
      lastTerminal? n [start, SymbolId.endMarker], 0⟩ := by
    rw [Array.getD_eq_getD_getElem?, ← Array.getElem?_toList, hrules]
    rfl
  constructor
  case accept => rw [first]
  case precSymbol => rw [first]
  case size_pos => rw [← Array.length_toList, hrules]; exact Nat.succ_pos _
  case inRange =>
    intro r hr
    rw [← Array.mem_toList_iff, hrules] at hr
    rcases List.mem_cons.1 hr with rfl | hr
    · exact ⟨SymbolTable.resolve_lt ht haccept, rhs_lt, fun X hX => rhs_lt X (mem_of_lastTerminal? hX)⟩
    · obtain ⟨i, hi, rfl⟩ := List.mem_iff_getElem.1 hr
      exact resolveRule_inRange ht (hall.get (hall.length_eq ▸ hi) hi)

/-! ## The rules of a symbol -/

theorem zipIdx_eq_map_range {α : Type} [Inhabited α] (as : List α) :
    as.zipIdx = (List.range as.length).map fun n => (as.getD n default, n) :=
  List.ext_getElem (by simp) fun n h₁ h₂ => by
    have : n < as.length := by simpa using h₁
    simp [List.getD, this]

theorem size_indexRules (n : Nat) (rules : List (Rule × RuleId)) :
    (rules.foldr (fun (r, id) index => index.modify r.lhs (id :: ·))
      (Array.replicate n ([] : List RuleId))).size = n := by
  induction rules with
  | nil => simp
  | cons r rules ih => simpa using ih

theorem getElem?_indexRules (n : Nat) {X : SymbolId} (hX : X < n) (rules : List (Rule × RuleId)) :
    (rules.foldr (fun (r, id) index => index.modify r.lhs (id :: ·))
      (Array.replicate n ([] : List RuleId)))[X]? =
      some ((rules.filter fun r => r.1.lhs = X).map Prod.snd) := by
  induction rules with
  | nil => simp [hX]
  | cons r rules ih =>
    rw [List.foldr_cons, Array.getElem?_modify, ih, List.filter_cons]
    split <;> rename_i h <;> simp [h]

/-- The rules of a symbol are those with that left-hand side; a number that belongs to
    no symbol has none. -/
theorem getD_indexRules {n : Nat} {rules : List Rule} (lhs_lt : ∀ r ∈ rules, r.lhs < n)
    (X : SymbolId) : (indexRules n rules).getD X [] =
      (List.range rules.length).filter fun r => (rules.getD r default).lhs = X := by
  rw [indexRules, Array.getD_eq_getD_getElem?]
  by_cases hX : X < n
  · rw [getElem?_indexRules _ hX, Option.getD_some, zipIdx_eq_map_range, List.filter_map, List.map_map]
    exact List.map_id'' (fun _ => rfl) _
  · rw [Array.getElem?_eq_none (by rw [size_indexRules]; exact Nat.le_of_not_lt hX)]
    refine (List.filter_eq_nil_iff.2 fun r hr heq => hX ?_).symm
    have hr := List.mem_range.1 hr
    rw [← of_decide_eq_true heq, List.getD_eq_getElem?_getD, List.getElem?_eq_getElem hr,
      Option.getD_some]
    exact lhs_lt _ (List.getElem_mem hr)

end Draft

/-- Rules pass the check if they have nonterminals on their left-hand sides. -/
theorem checkRules_eq_ok_iff {symbols : Array Symbol} {n : Nat} {rules : List Rule} :
    checkRules symbols n rules = .ok () ↔ ∀ r ∈ rules, ¬ r.lhs < n := by
  have none_iff : (rules.zipIdx.find? fun r => r.1.lhs < n) = none ↔ ∀ r ∈ rules, ¬ r.lhs < n := by
    rw [List.find?_eq_none]
    constructor
    · intro h r hr
      obtain ⟨id, hid⟩ := List.mem_iff_getElem?.1 hr
      simpa using h (r, id) (List.mem_zipIdx_iff_getElem?.2 hid)
    · rintro h ⟨r, id⟩ hr
      simpa using h r (List.mem_of_getElem? (List.mem_zipIdx_iff_getElem?.1 hr))
  rw [← none_iff, checkRules]
  split <;> simp [*]

end LRAutomata
