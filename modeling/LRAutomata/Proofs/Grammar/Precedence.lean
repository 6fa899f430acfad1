/-
  The precedence that the declarations give to a symbol.

  Every precedence declaration opens a level above those opened before it.  A
  name has the level and the associativity of the last declaration that ranks it
  (`Draft.Ranked`), and this is the precedence of the symbol that the name finds
  (`Grammar.exists_lastRank`).  As the names in these declarations are names of
  terminals, an alias never stands for another symbol there
  (`Grammar.ranks_find?_iff`).
-/
import LRAutomata.Proofs.Grammar.Numbering

namespace LRAutomata

open Text

/-! ## Precedence declarations -/

namespace Declaration

variable {decls : List Declaration} {decl : Declaration} {P Q : String → Prop} {n m : Nat}
  {assoc : Assoc}

/-- Whether the declaration opens a precedence level. -/
def opensLevel : Declaration → Bool
  | precedence .. => true
  | _ => false

/-- The declaration puts a name with the property on a level. -/
def Ranks (P : String → Prop) (assoc : Assoc) (decl : Declaration) : Prop :=
  ∃ names, decl = .precedence assoc names ∧ ∃ name ∈ names, P name

/-- The `n`-th declaration is the last that puts a name with the property on a level. -/
structure LastRank (decls : List Declaration) (P : String → Prop) (n : Nat) (assoc : Assoc) : Prop where
  ranks : ∃ decl, decls[n]? = some decl ∧ decl.Ranks P assoc
  last : ∀ {m decl assoc'}, n < m → decls[m]? = some decl → ¬ decl.Ranks P assoc'

/-- The level that the `n`-th declaration opens, if it opens one. -/
def levelAt (decls : List Declaration) (n : Nat) : Nat :=
  (decls.take n).countP opensLevel

theorem Ranks.opensLevel (h : decl.Ranks P assoc) : decl.opensLevel = true := by
  obtain ⟨names, rfl, -⟩ := h
  rfl

/-- The property of a ranked name can be weakened on the names that are ranked. -/
theorem Ranks.imp (h : decl.Ranks P assoc)
    (himp : ∀ name, decl.Ranks (· = name) assoc → P name → Q name) : decl.Ranks Q assoc := by
  obtain ⟨names, rfl, name, hname, hP⟩ := h
  exact ⟨names, rfl, name, hname, himp name ⟨names, rfl, name, hname, rfl⟩ hP⟩

theorem LastRank.lt (h : LastRank decls P n assoc) : n < decls.length := by
  obtain ⟨_, hdecl, -⟩ := h.ranks
  exact (List.getElem?_eq_some_iff.1 hdecl).1

/-- Properties that agree on the names ranked have the same last declaration. -/
theorem LastRank.congr (h : LastRank decls P n assoc)
    (hiff : ∀ decl ∈ decls, ∀ assoc name, decl.Ranks (· = name) assoc → (P name ↔ Q name)) :
    LastRank decls Q n assoc := by
  constructor
  case ranks =>
    obtain ⟨decl, hdecl, hranks⟩ := h.ranks
    have hmem := List.mem_of_getElem? hdecl
    exact ⟨decl, hdecl, hranks.imp fun name hname => (hiff decl hmem _ name hname).1⟩
  case last =>
    intro m decl assoc' hlt hdecl hranks
    have hmem := List.mem_of_getElem? hdecl
    exact h.last hlt hdecl (hranks.imp fun name hname => (hiff decl hmem _ name hname).2)

/-- A declaration that ranks no such name changes nothing. -/
theorem LastRank.snoc (h : LastRank decls P n assoc) (hnot : ∀ assoc', ¬ decl.Ranks P assoc') :
    LastRank (decls ++ [decl]) P n assoc := by
  constructor
  case ranks =>
    obtain ⟨decl', hdecl, hranks⟩ := h.ranks
    exact ⟨decl', by rwa [List.getElem?_append_left h.lt], hranks⟩
  case last =>
    intro m decl' assoc' hlt hdecl
    rcases Nat.lt_or_ge m decls.length with hm | hm
    · rw [List.getElem?_append_left hm] at hdecl
      exact h.last hlt hdecl
    · rw [List.getElem?_append_right hm] at hdecl
      rw [← List.mem_singleton.1 (List.mem_of_getElem? hdecl)] at hnot
      exact hnot assoc'

theorem lastRank_length (h : decl.Ranks P assoc) :
    LastRank (decls ++ [decl]) P decls.length assoc := by
  constructor
  case ranks => exact ⟨decl, by simp, h⟩
  case last =>
    intro m decl' assoc' hlt hdecl
    have hm := (List.getElem?_eq_some_iff.1 hdecl).1
    rw [List.length_append, List.length_singleton] at hm
    exact absurd hm (Nat.not_lt_of_ge hlt)

theorem levelAt_append (hn : n ≤ decls.length) : levelAt (decls ++ [decl]) n = levelAt decls n := by
  rw [levelAt, List.take_append_of_le_length hn, levelAt]

theorem levelAt_le (h : n ≤ m) : levelAt decls n ≤ levelAt decls m :=
  (List.take_sublist_take_left h).countP_le

/-- Levels rise from one precedence declaration to the next. -/
theorem levelAt_lt (h : LastRank decls P n assoc) (hlt : n < m) : levelAt decls n < levelAt decls m := by
  obtain ⟨decl, hdecl, hranks⟩ := h.ranks
  have hsucc : levelAt decls (n + 1) = levelAt decls n + 1 := by
    rw [levelAt, List.take_add_one, hdecl, List.countP_append, levelAt]
    simp [hranks.opensLevel]
  have hle : levelAt decls (n + 1) ≤ levelAt decls m := levelAt_le hlt
  omega

theorem lt_of_levelAt_lt (h : levelAt decls n < levelAt decls m) : n < m :=
  Nat.lt_of_not_le fun hle => Nat.not_le_of_lt h (levelAt_le hle)

end Declaration

/-! ## Drafts -/

namespace Draft

open Declaration

variable {d d' : Draft} {decls : List Declaration} {decl : Declaration} {name : String}

/-- The precedence declared for a terminal. -/
def precedence? (d : Draft) (name : String) : Option Precedence :=
  (d.terminals.get? name).bind TerminalDecl.precedence

theorem precedence?_declareTerminal (name other : String) (change : TerminalDecl → TerminalDecl) :
    (d.declareTerminal name change).precedence? other =
      if name = other then (change ((d.terminals.get? name).getD .plain)).precedence
      else d.precedence? other := by
  rw [precedence?, declareTerminal, OrderedMap.get?_update]
  split <;> rfl

theorem precedence_getD_plain (name : String) :
    ((d.terminals.get? name).getD .plain).precedence = d.precedence? name := by
  rw [precedence?]
  cases d.terminals.get? name <;> rfl

theorem mem_keys_declareTerminal {other : String} {change : TerminalDecl → TerminalDecl} :
    other ∈ (d.declareTerminal name change).terminals.keys ↔
      other = name ∨ other ∈ d.terminals.keys :=
  OrderedMap.mem_keys_insert

/-- What a precedence declaration does that succeeds. -/
structure Assigns (p : Precedence) (names : List String) (d d' : Draft) : Prop where
  nextLevel_eq : d'.nextLevel = d.nextLevel
  precedence?_eq : ∀ name, d'.precedence? name = if name ∈ names then some p else d.precedence? name
  mem_keys_iff : ∀ name, name ∈ d'.terminals.keys ↔ name ∈ names ∨ name ∈ d.terminals.keys

theorem assigns_of_assignPrecedence {p : Precedence} : ∀ {names : List String} {d : Draft},
    assignPrecedence p d names = (d', none) → Assigns p names d d'
  | [], d, h => by
    cases h
    exact ⟨rfl, by simp, by simp⟩
  | other :: names, d, h => by
    unfold assignPrecedence at h
    split at h
    · cases h
    obtain ⟨hlevel, hprecedence, hkeys⟩ := assigns_of_assignPrecedence h
    refine ⟨hlevel, fun name => ?_, fun name => ?_⟩
    · rw [hprecedence, precedence?_declareTerminal]
      by_cases hname : name ∈ names
      · simp [hname]
      · by_cases heq : other = name
        · simp [heq]
        · simp [hname, heq, Ne.symm heq]
    · rw [hkeys, mem_keys_declareTerminal, List.mem_cons]
      exact or_left_comm.trans or_assoc.symm

/-- The levels of a draft are those that the declarations open, and a name is on
    that of the last declaration that ranks it. -/
structure Ranked (d : Draft) (decls : List Declaration) : Prop where
  nextLevel_eq : d.nextLevel = decls.countP opensLevel
  lastRank : ∀ {name p}, d.precedence? name = some p →
    ∃ n, LastRank decls (· = name) n p.assoc ∧ p.level = levelAt decls n
  mem_keys : ∀ {decl assoc name}, decl ∈ decls → decl.Ranks (· = name) assoc →
    name ∈ d.terminals.keys

theorem ranked_empty : empty.Ranked [] :=
  ⟨rfl, by simp [precedence?, empty], by simp⟩

/-- A declaration of another kind leaves the levels as they are. -/
theorem Ranked.snoc_other (h : d.Ranked decls) (hdecl : decl.opensLevel = false)
    (hlevel : d'.nextLevel = d.nextLevel) (hprecedence : ∀ name, d'.precedence? name = d.precedence? name)
    (hkeys : ∀ name ∈ d.terminals.keys, name ∈ d'.terminals.keys) :
    d'.Ranked (decls ++ [decl]) := by
  have hnot : ∀ {P assoc}, ¬ decl.Ranks P assoc := fun hranks => by
    rw [hranks.opensLevel] at hdecl; cases hdecl
  constructor
  case nextLevel_eq => simp [hlevel, h.nextLevel_eq, hdecl]
  case lastRank =>
    intro name p hp
    rw [hprecedence] at hp
    obtain ⟨n, hlast, hp⟩ := h.lastRank hp
    exact ⟨n, hlast.snoc fun _ => hnot, by rw [hp, levelAt_append (Nat.le_of_lt hlast.lt)]⟩
  case mem_keys =>
    intro decl' assoc name hmem hranks
    rcases List.mem_append.1 hmem with hmem | hmem
    · exact hkeys name (h.mem_keys hmem hranks)
    · rw [List.mem_singleton.1 hmem] at hranks
      exact absurd hranks hnot

/-- A precedence declaration puts its names on a level above those opened before. -/
theorem Ranked.snoc_precedence {assoc : Assoc} {names : List String} (h : d.Ranked decls)
    (hassigns : Assigns ⟨d.nextLevel, assoc⟩ names { d with nextLevel := d.nextLevel + 1 } d') :
    d'.Ranked (decls ++ [.precedence assoc names]) := by
  have ranks_iff : ∀ {name assoc'}, (precedence assoc names).Ranks (· = name) assoc' ↔
      assoc = assoc' ∧ name ∈ names := by
    simp only [Ranks, Declaration.precedence.injEq, exists_eq_right]
    exact ⟨fun ⟨_, ⟨heq, rfl⟩, hmem⟩ => ⟨heq, hmem⟩, fun ⟨heq, hmem⟩ => ⟨_, ⟨heq, rfl⟩, hmem⟩⟩
  constructor
  case nextLevel_eq => simp [hassigns.nextLevel_eq, h.nextLevel_eq, opensLevel]
  case lastRank =>
    intro name p hp
    rw [hassigns.precedence?_eq] at hp
    split at hp
    · rename_i hname
      cases hp
      refine ⟨decls.length, lastRank_length (ranks_iff.2 ⟨rfl, hname⟩), ?_⟩
      rw [levelAt_append (Nat.le_refl _), levelAt, List.take_length]
      exact h.nextLevel_eq
    · rename_i hname
      obtain ⟨n, hlast, hp⟩ := h.lastRank hp
      exact ⟨n, hlast.snoc fun _ hranks => hname (ranks_iff.1 hranks).2,
        by rw [hp, levelAt_append (Nat.le_of_lt hlast.lt)]⟩
  case mem_keys =>
    intro decl assoc' name hmem hranks
    refine (hassigns.mem_keys_iff name).2 ?_
    rcases List.mem_append.1 hmem with hmem | hmem
    · exact .inr (h.mem_keys hmem hranks)
    · rw [List.mem_singleton.1 hmem] at hranks
      exact .inl (ranks_iff.1 hranks).2

/-- What one more declaration does that succeeds. -/
theorem Ranked.declare (h : d.Ranked decls) (hd : d.declare decl = (d', none)) :
    d'.Ranked (decls ++ [decl]) := by
  cases decl with
  | terminal name aliasName token =>
    simp only [Draft.declare] at hd
    split at hd
    · cases hd
    cases hd
    refine h.snoc_other rfl rfl (fun other => ?_) fun _ hmem => mem_keys_declareTerminal.2 (.inr hmem)
    rw [precedence?_declareTerminal]
    split
    · rename_i heq
      subst heq
      exact precedence_getD_plain name
    · rfl
  | nonterminal name =>
    simp only [Draft.declare] at hd
    split at hd <;> cases hd
    exact h.snoc_other rfl rfl (fun _ => rfl) fun _ => id
  | precedence assoc names => exact h.snoc_precedence (assigns_of_assignPrecedence hd)
  | rule _ | start _ | expect _ | expectReduceReduce _ | define _ _ =>
    cases hd
    exact h.snoc_other rfl rfl (fun _ => rfl) fun _ => id

/-- The levels after declarations that all succeed. -/
theorem ranked_of_declareAll (h : empty.declareAll decls = .ok d) : d.Ranked decls :=
  keeps_declareAll (P := fun decls d => d.Ranked decls) ranked_empty (fun _ _ _ _ hd heq => hd.declare heq) h

/-! ## Symbols -/

/-- The precedence of the symbol of that name: the one declared, but none for the
    reserved terminals, which are there before. -/
def rank? (d : Draft) (name : String) : Option Precedence :=
  if name ∈ reservedNames then none else d.precedence? name

theorem rank?_eq_none (hname : name ∉ d.terminals.keys) : d.rank? name = none := by
  rw [OrderedMap.mem_keys_iff, Option.not_isSome_iff_eq_none] at hname
  rw [rank?, precedence?, hname]
  split <;> rfl

/-- The symbols have the precedence declared for their names, and the names listed
    have symbols. -/
structure RankPhase (d : Draft) (names : List String) (t : SymbolTable) : Prop where
  rank_eq : ∀ s ∈ t.symbols.toList, s.precedence = d.rank? s.name
  contains : ∀ name ∈ names, t.byName.contains name = true

variable {names : List String} {t t' : SymbolTable}

theorem RankPhase.push (h : RankPhase d names t) {s : Symbol} (hs : s.precedence = d.rank? s.name)
    (m n : Nat) :
    RankPhase d (s.name :: names) ({ t with autoTokens := m, nonterminalCount := n }.push s) := by
  constructor
  case rank_eq =>
    simp only [SymbolTable.push, Array.toList_push, List.mem_append, List.mem_singleton]
    rintro s' (hs' | rfl)
    · exact h.rank_eq s' hs'
    · exact hs
  case contains =>
    intro name hname
    rw [SymbolTable.push, Std.TreeMap.contains_insert]
    rcases List.mem_cons.1 hname with rfl | hname
    · simp
    · simp [h.contains name hname]

theorem RankPhase.of_cons (h : RankPhase d (name :: names) t) : RankPhase d names t :=
  ⟨h.rank_eq, fun other hother => h.contains other (List.mem_cons_of_mem _ hother)⟩

theorem RankPhase.addTerminal {aliasName : Option String} {token : Option Nat}
    {precedence : Option Precedence} (h : RankPhase d names t)
    (hrank : t.byName.contains name = false → precedence = d.rank? name)
    (ht : t.addTerminal name aliasName token precedence = .ok t') :
    RankPhase d (name :: names) t' := by
  obtain ⟨hold, rfl⟩ | ⟨hnew, number, count, -, rfl⟩ := SymbolTable.addTerminal_assigns ht
  · refine ⟨h.rank_eq, fun other hother => ?_⟩
    rcases List.mem_cons.1 hother with rfl | hother
    · exact hold
    · exact h.contains other hother
  · exact h.push (s := ⟨name, aliasName, true, number, precedence⟩) (hrank hnew) count
      t.nonterminalCount

theorem RankPhase.addNonterminal (h : RankPhase d names t) (hkeys : ∀ name ∈ d.terminals.keys, name ∈ names)
    (ht : t.addNonterminal name = .ok t') : RankPhase d names t' := by
  obtain ⟨-, rfl⟩ | ⟨hnew, rfl⟩ := SymbolTable.addNonterminal_cases ht
  · exact h
  refine (h.push (s := ⟨name, none, false, t.nonterminalCount, none⟩) ?_ t.autoTokens
    (t.nonterminalCount + 1)).of_cons
  refine (rank?_eq_none fun hkey => ?_).symm
  rw [h.contains name (hkeys name hkey)] at hnew
  cases hnew

/-- A step over each of the names makes sure that it has a symbol. -/
theorem RankPhase.foldlM {α : Type} {f : SymbolTable → α → Except GrammarError SymbolTable}
    (key : α → String) : ∀ {as : List α} {names : List String} {t : SymbolTable},
    (∀ a ∈ as, ∀ {names t t'}, RankPhase d names t → (∀ name ∈ reservedNames, name ∈ names) →
      f t a = .ok t' → RankPhase d (key a :: names) t') →
    (∀ name ∈ reservedNames, name ∈ names) → RankPhase d names t → as.foldlM f t = .ok t' →
    RankPhase d ((as.map key).reverse ++ names) t'
  | [], _, _, _, _, h, ht => by cases ht; exact h
  | a :: as, names, t, step, hreserved, h, ht => by
    obtain ⟨t₁, h₁, ht⟩ := ok_of_bind_ok (by simpa only [List.foldlM_cons] using ht)
    have := RankPhase.foldlM key (fun b hb => step b (List.mem_cons_of_mem _ hb))
      (fun name hname => List.mem_cons_of_mem _ (hreserved name hname))
      (step a List.mem_cons_self h hreserved h₁) ht
    simpa using this

/-- The terminals have the precedence declared for them, and every name declared
    is that of a terminal. -/
theorem rankPhase_of_numberTerminals (h : d.numberTerminals = .ok t) :
    RankPhase d d.terminals.keys t := by
  obtain ⟨t₁, h₁, h⟩ := ok_of_bind_ok h
  obtain ⟨t₂, h₂, h⟩ := ok_of_bind_ok h
  obtain ⟨t₃, h₃, h⟩ := ok_of_bind_ok h
  obtain ⟨t₄, h₄, h⟩ := ok_of_bind_ok h
  have phase₀ : RankPhase d [] SymbolTable.empty := ⟨by simp [SymbolTable.empty], by simp⟩
  have phase₃ := ((phase₀.addTerminal (fun _ => by simp [rank?, reservedNames]) h₁).addTerminal
    (fun _ => by simp [rank?, reservedNames]) h₂).addTerminal (fun _ => by simp [rank?, reservedNames]) h₃
  -- The declared ones; a name that has no symbol yet is not reserved.
  have phase₄ := phase₃.foldlM Prod.fst (fun entry hentry names t t' ht hreserved hstep => by
    refine ht.addTerminal (fun hnew => ?_) hstep
    have hname : entry.1 ∉ reservedNames := fun hmem => by
      rw [ht.contains _ (hreserved _ hmem)] at hnew; cases hnew
    rw [rank?, if_neg hname, precedence?, OrderedMap.mem_toList.1 hentry]
    rfl) (by simp [reservedNames]) h₄
  have phase₄ : RankPhase d d.terminals.keys t₄ := by
    refine ⟨phase₄.rank_eq, fun name hname => phase₄.contains name ?_⟩
    obtain ⟨decl, hdecl⟩ := Option.isSome_iff_exists.1 (OrderedMap.mem_keys_iff.1 hname)
    exact List.mem_append_left _ (List.mem_reverse.2
      (List.mem_map_of_mem (f := Prod.fst) (OrderedMap.mem_toList.2 hdecl)))
  -- The literals in rules are new, so nothing is declared of them.
  refine keeps_foldlM (fun b name b' hb hstep => ?_) _ phase₄ h
  split at hstep
  · refine (hb.addTerminal (fun hnew => (rank?_eq_none fun hkey => ?_).symm) hstep).of_cons
    rw [hb.contains name hkey] at hnew
    cases hnew
  · cases hstep; exact hb

theorem RankPhase.numberNonterminals (h : RankPhase d d.terminals.keys t)
    (ht : d.numberNonterminals t = .ok t') : RankPhase d d.terminals.keys t' :=
  keeps_numberNonterminals (fun _ h₁ => h.addNonterminal (fun _ => id) h₁)
    (fun _ _ _ _ hb hstep => hb.addNonterminal (fun _ => id) hstep) ht

end Draft

/-! ## Grammars -/

namespace Grammar

open Declaration

variable {decls : List Declaration} {g : Grammar} {X : SymbolId} {p : Precedence}

/-- The `n`-th declaration is the last precedence declaration that names the symbol,
    and has the associativity. -/
def LastRank (decls : List Declaration) (g : Grammar) (X : SymbolId) (n : Nat) (assoc : Assoc) : Prop :=
  Declaration.LastRank decls (g.find? · = some X) n assoc

/-- The symbols of a grammar have the precedence that its declarations give to their
    names. -/
theorem exists_rankPhase (hg : Grammar.define decls = .ok g) : ∃ d : Draft,
    d.Ranked decls ∧ d.RankPhase d.terminals.keys g.table ∧ g.table.Indexed := by
  obtain ⟨d, hd, hprepare⟩ := ok_of_bind_ok hg
  obtain ⟨terminals, completes⟩ := Draft.completes_of_prepare hprepare
  have records := Draft.records_of_declareAll hd
  have first := Draft.terminalPhase_of_numberTerminals records completes.terminals_eq
  have second := Draft.nonterminalPhase_of_numberNonterminals records first completes.table_eq
  have phase := Draft.rankPhase_of_numberTerminals completes.terminals_eq
  exact ⟨d, Draft.ranked_of_declareAll hd, phase.numberNonterminals completes.table_eq,
    second.table.indexed⟩

/-- A name on a precedence level finds the symbol that has it. -/
theorem ranks_find?_iff (hg : Grammar.define decls = .ok g) (hX : X < g.symbols.size)
    {decl : Declaration} (hdecl : decl ∈ decls) {assoc : Assoc} {name : String}
    (hname : decl.Ranks (· = name) assoc) : g.find? name = some X ↔ name = (g.symbol X).name := by
  obtain ⟨d, ranked, phase, indexed⟩ := exists_rankPhase hg
  have hcontains := phase.contains name (ranked.mem_keys hdecl hname)
  obtain ⟨s, hs, rfl⟩ := List.mem_map.1 (indexed.contains_iff.1 hcontains)
  obtain ⟨Y, hY, rfl⟩ := List.mem_iff_getElem.1 hs
  rw [Array.length_toList] at hY
  have hfind : ∀ {Z : SymbolId} (hZ : Z < g.symbols.size), g.find? g.table.symbols[Z].name = some Z :=
    fun hZ => indexed.find?_name hZ
  rw [Array.getElem_toList, symbol_eq_getElem hX]
  constructor
  · intro h
    rw [hfind hY] at h
    cases h
    rfl
  · intro h
    rw [h]
    exact hfind hX

/-- **The precedence of a symbol** is that of the last declaration that names it. -/
theorem exists_lastRank (hg : Grammar.define decls = .ok g) (hp : (g.symbol X).precedence = some p) :
    ∃ n, g.LastRank decls X n p.assoc ∧ p.level = levelAt decls n := by
  have hX : X < g.symbols.size := by
    refine Nat.lt_of_not_le fun hle => ?_
    rw [symbol, Array.getD_eq_getD_getElem?, Array.getElem?_eq_none hle] at hp
    cases hp
  obtain ⟨d, ranked, phase, -⟩ := exists_rankPhase hg
  have hrank := phase.rank_eq (g.symbol X) (by
    rw [symbol_eq_getElem hX]
    exact Array.getElem_mem_toList hX)
  rw [hp, Draft.rank?] at hrank
  split at hrank
  · cases hrank
  obtain ⟨n, hlast, hlevel⟩ := ranked.lastRank hrank.symm
  exact ⟨n, hlast.congr fun decl hdecl assoc name hname =>
    (ranks_find?_iff hg hX hdecl hname).symm, hlevel⟩

end Grammar

end LRAutomata
