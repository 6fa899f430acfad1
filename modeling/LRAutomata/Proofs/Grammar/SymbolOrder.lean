/-
  Symbols that are numbered in another order.

  When a grammar is completed, names are entered into a table of symbols one after
  another: a name that is wanted and new gets a symbol, if it is valid and there
  is room (`SymbolTable.Enters`).  The order of the names decides the numbers but
  nothing else: if all names can be entered, they can in any other order, and the
  two tables have the same symbols (`Enters.foldlM_perm`).

  The symbols of such tables correspond by their names, and every name finds
  corresponding symbols (`Alike.exists_renumbering`).
-/
import Mathlib.Data.Multiset.AddSub
import Mathlib.Data.Multiset.MapFold
import LRAutomata.Proofs.Data.Permutation
import LRAutomata.Proofs.Grammar.Numbering
import LRAutomata.Proofs.Grammar.Renumbering

namespace LRAutomata

open Text

namespace SymbolTable

variable {base t t' r r' : SymbolTable} {name a b : String} {s : Symbol}

/-! ## Tables over a table -/

/-- The table `t` has the symbols of `base` first, and no other aliases. -/
structure Over (base t : SymbolTable) : Prop where
  indexed : t.Indexed
  symbols_eq : ∃ added : List Symbol, t.symbols.toList = base.symbols.toList ++ added ∧
    ∀ s ∈ added, s.aliasName = none

theorem Over.refl (h : base.Indexed) : Over base base :=
  ⟨h, [], by simp, by simp⟩

theorem Over.byAlias_eq (h : Over base t) (base_indexed : base.Indexed) (name : String) :
    t.byAlias[name]? = base.byAlias[name]? := by
  obtain ⟨added, hsymbols, halias⟩ := h.symbols_eq
  have none : (added.findIdx? fun s => s.aliasName = some name) = none := by
    rw [List.findIdx?_eq_none_iff]
    intro s hs
    simp [halias s hs]
  rw [h.indexed.byAlias_eq, base_indexed.byAlias_eq, hsymbols, List.findIdx?_append, none]
  simp

theorem Indexed.byName_eq_none_iff (h : t.Indexed) : t.byName[name]? = none ↔ name ∉ t.names := by
  rw [← h.contains_iff, ← Std.TreeMap.isSome_getElem?_eq_contains, Option.not_isSome_iff_eq_none]

theorem Indexed.contains_eq_false (h : t.Indexed) (hnew : name ∉ t.names) :
    t.byName.contains name = false :=
  Bool.eq_false_iff.2 fun hc => hnew (h.contains_iff.1 hc)

theorem Over.find?_eq_none_iff (h : Over base t) (base_indexed : base.Indexed) :
    t.find? name = none ↔ name ∉ t.names ∧ base.byAlias[name]? = none := by
  rw [find?, ← h.indexed.byName_eq_none_iff, ← h.byAlias_eq base_indexed]
  cases t.byName[name]? <;> simp

theorem Over.push (h : Over base t) (hnew : t.byName.contains s.name = false)
    (halias : s.aliasName = none) (m n : Nat) :
    Over base ({ t with autoTokens := m, nonterminalCount := n }.push s) := by
  constructor
  case indexed =>
    exact Indexed.push (t := { t with autoTokens := m, nonterminalCount := n })
      ⟨h.indexed.1, h.indexed.2, h.indexed.3⟩ hnew
  case symbols_eq =>
    obtain ⟨added, hsymbols, hadded⟩ := h.symbols_eq
    refine ⟨added ++ [s], by simp [SymbolTable.push, hsymbols], fun s' hs' => ?_⟩
    rcases List.mem_append.1 hs' with hs' | hs'
    · exact hadded s' hs'
    · rw [List.mem_singleton.1 hs', halias]

/-- The two tables over `base` have the same symbols, in any order. -/
structure Alike (base t t' : SymbolTable) : Prop where
  left : Over base t
  right : Over base t'
  symbols : Multiset.Rel Symbol.Same t.symbols.toList t'.symbols.toList

theorem Alike.refl (h : Over base t) : Alike base t t :=
  ⟨h, h, Multiset.rel_refl_of_refl_on fun s _ => .refl s⟩

theorem rel_same_trans {l₁ l₂ l₃ : Multiset Symbol} (h : Multiset.Rel Symbol.Same l₁ l₂)
    (h' : Multiset.Rel Symbol.Same l₂ l₃) : Multiset.Rel Symbol.Same l₁ l₃ := by
  have : IsTrans Symbol Symbol.Same := ⟨fun _ _ _ => Symbol.Same.trans⟩
  exact h.trans _ h'

theorem Alike.trans {t'' : SymbolTable} (h : Alike base t t') (h' : Alike base t' t'') :
    Alike base t t'' :=
  ⟨h.left, h'.right, rel_same_trans h.symbols h'.symbols⟩

theorem Alike.names_perm (h : Alike base t t') : t.names.Perm t'.names := by
  have names : ∀ {l l' : Multiset Symbol}, Multiset.Rel Symbol.Same l l' →
      Multiset.map Symbol.name l = Multiset.map Symbol.name l' := by
    intro l l' h
    induction h with
    | zero => rfl
    | cons hs _ ih => rw [Multiset.map_cons, Multiset.map_cons, ih, hs.name_eq]
  exact Multiset.coe_eq_coe.1 (names h.symbols)

theorem Alike.size_eq (h : Alike base t t') : t'.symbols.size = t.symbols.size := by
  have := h.names_perm.length_eq
  simpa [names] using this.symm

/-! ## Names entered -/

/-- A step that gives a symbol to a name.  A name that is not wanted, or that has
    one, changes nothing; a new name has to be valid, and there has to be room. -/
structure Enters (base : SymbolTable) (wanted valid : String → Prop)
    (New : String → Symbol → Prop)
    (enter : SymbolTable → String → Except GrammarError SymbolTable) : Prop where
  skips : ∀ {t name}, Over base t → (wanted name → name ∈ t.names) → enter t name = .ok t
  enters : ∀ {t name}, Over base t → wanted name → name ∉ t.names → valid name →
    t.symbols.size < limit → ∃ t' s, enter t name = .ok t' ∧ New name s ∧ Over base t' ∧
      t'.symbols = t.symbols.push s
  fails : ∀ {t name}, Over base t → wanted name → name ∉ t.names →
    ¬ (valid name ∧ t.symbols.size < limit) → ∃ e, enter t name = .error e
  name_eq : ∀ {name s}, New name s → s.name = name
  same : ∀ {name s s'}, New name s → New name s' → s.Same s'

namespace Enters

variable {wanted valid : String → Prop} {New : String → Symbol → Prop}
variable {enter : SymbolTable → String → Except GrammarError SymbolTable}

/-- What a step that succeeds has done. -/
inductive Entry (base : SymbolTable) (wanted valid : String → Prop) (New : String → Symbol → Prop)
    (t : SymbolTable) (name : String) : SymbolTable → Prop
  | old : (wanted name → name ∈ t.names) → Entry base wanted valid New t name t
  | new {r : SymbolTable} {s : Symbol} : wanted name → name ∉ t.names → valid name →
      t.symbols.size < limit → New name s → Over base r → r.symbols = t.symbols.push s →
      Entry base wanted valid New t name r

theorem entry (h : Enters base wanted valid New enter) (ht : Over base t)
    (hr : enter t name = .ok r) : Entry base wanted valid New t name r := by
  by_cases hold : wanted name → name ∈ t.names
  · rw [h.skips ht hold] at hr
    cases hr
    exact .old hold
  obtain ⟨hwanted, hnew⟩ := Classical.not_imp.1 hold
  by_cases hvalid : valid name ∧ t.symbols.size < limit
  · obtain ⟨r', s, hr', hs, hover, hsymbols⟩ := h.enters ht hwanted hnew hvalid.1 hvalid.2
    obtain rfl : r' = r := Except.ok.inj (hr'.symm.trans hr)
    exact .new hwanted hnew hvalid.1 hvalid.2 hs hover hsymbols
  · obtain ⟨e, he⟩ := h.fails ht hwanted hnew hvalid
    rw [he] at hr
    cases hr

theorem Entry.over (h : Entry base wanted valid New t name r) (ht : Over base t) : Over base r := by
  cases h with
  | old => exact ht
  | new _ _ _ _ _ hover _ => exact hover

theorem names_push (hr : r.symbols = t.symbols.push s) : r.names = t.names ++ [s.name] := by
  simp [names, hr]

/-- In a table alike the step does the same. -/
theorem alike (h : Enters base wanted valid New enter) (ht : Alike base t t')
    (hr : enter t name = .ok r) : ∃ r', enter t' name = .ok r' ∧ Alike base r r' := by
  have mem_iff := fun name => ht.names_perm.mem_iff (a := name)
  cases h.entry ht.left hr with
  | old hold => exact ⟨t', h.skips ht.right fun hw => (mem_iff name).1 (hold hw), ht⟩
  | new hwanted hnew hvalid hroom hs hover hsymbols =>
    obtain ⟨r', s', hr', hs', hover', hsymbols'⟩ := h.enters ht.right hwanted
      (fun hmem => hnew ((mem_iff name).2 hmem)) hvalid (ht.size_eq ▸ hroom)
    refine ⟨r', hr', hover, hover', ?_⟩
    rw [hsymbols, hsymbols', Array.toList_push, Array.toList_push, ← Multiset.coe_add,
      ← Multiset.coe_add]
    exact ht.symbols.add (.cons (h.same hs hs') .zero)

/-- Two new names can be entered in the other order. -/
theorem swap_new (h : Enters base wanted valid New enter) (ht : Over base t)
    (hroom : t.symbols.size + 1 < limit) (hne : b ≠ a) {s s' : Symbol}
    (ha : wanted a ∧ a ∉ t.names ∧ valid a ∧ New a s) (hb : wanted b ∧ b ∉ t.names ∧ valid b ∧ New b s')
    (hover : Over base r) (hsymbols : r.symbols = (t.symbols.push s).push s') :
    ∃ r', enter t b >>= (enter · a) = .ok r' ∧ Alike base r r' := by
  obtain ⟨hwanted, hnew, hvalid, hs⟩ := ha
  obtain ⟨hwanted', hnew', hvalid', hs'⟩ := hb
  obtain ⟨t₁, s₁, h₁, hs₁, over₁, hsymbols₁⟩ :=
    h.enters ht hwanted' hnew' hvalid' (Nat.lt_of_succ_lt hroom)
  have hnew₁ : a ∉ t₁.names := by
    rw [names_push hsymbols₁, h.name_eq hs₁, List.mem_append, List.mem_singleton, not_or]
    exact ⟨hnew, hne.symm⟩
  obtain ⟨r', s₂, h₂, hs₂, over₂, hsymbols₂⟩ := h.enters over₁ hwanted hnew₁ hvalid
    (by rw [hsymbols₁, Array.size_push]; exact hroom)
  refine ⟨r', by rw [h₁]; exact h₂, hover, over₂, ?_⟩
  rw [hsymbols, hsymbols₂, hsymbols₁]
  simp only [Array.toList_push, List.append_assoc, List.cons_append, List.nil_append,
    ← Multiset.coe_add]
  refine Multiset.Rel.add (Multiset.rel_refl_of_refl_on fun s _ => .refl s) ?_
  have perm : ([s₁, s₂] : List Symbol).Perm [s₂, s₁] := .swap _ _ _
  rw [Multiset.coe_eq_coe.2 perm]
  exact .cons (h.same hs hs₂) (.cons (h.same hs' hs₁) .zero)

/-- Two names can be entered in either order. -/
theorem swap (h : Enters base wanted valid New enter) (ht : Over base t)
    (hr : enter t a >>= (enter · b) = .ok r) :
    ∃ r', enter t b >>= (enter · a) = .ok r' ∧ Alike base r r' := by
  obtain ⟨t₁, h₁, h₂⟩ := ok_of_bind_ok hr
  have entry₁ := h.entry ht h₁
  have over₁ := entry₁.over ht
  have entry₂ := h.entry over₁ h₂
  have over₂ := entry₂.over over₁
  cases entry₁ with
  | old hold =>
    -- The first name has its symbol also after the second is entered.
    refine ⟨r, ?_, .refl over₂⟩
    rw [h₂]
    refine h.skips over₂ fun hw => ?_
    cases entry₂ with
    | old => exact hold hw
    | new _ _ _ _ _ _ hsymbols => rw [names_push hsymbols]; exact List.mem_append_left _ (hold hw)
  | new hwanted hnew hvalid hroom hs _ hsymbols =>
    cases entry₂ with
    | old hold =>
      by_cases heq : b = a
      · subst heq
        exact ⟨r, by rw [h₁]; exact h₂, .refl over₁⟩
      · refine ⟨r, ?_, .refl over₁⟩
        rw [h.skips ht fun hw => ?_]
        · exact h₁
        · have hmem := hold hw
          rw [names_push hsymbols, h.name_eq hs] at hmem
          exact (List.mem_append.1 hmem).resolve_right (by simpa using heq)
    | new hwanted' hnew' hvalid' hroom' hs' _ hsymbols' =>
      rw [names_push hsymbols, h.name_eq hs, List.mem_append, List.mem_singleton, not_or] at hnew'
      rw [hsymbols, Array.size_push] at hroom'
      exact h.swap_new ht hroom' hnew'.2 ⟨hwanted, hnew, hvalid, hs⟩ ⟨hwanted', hnew'.1, hvalid', hs'⟩
        over₂ (hsymbols ▸ hsymbols')

/-- In a table alike the names are entered alike. -/
theorem foldlM_alike (h : Enters base wanted valid New enter) (names : List String) :
    ∀ {t t' r}, Alike base t t' → names.foldlM enter t = .ok r →
      ∃ r', names.foldlM enter t' = .ok r' ∧ Alike base r r' := by
  induction names with
  | nil =>
    intro t t' r ht hr
    cases hr
    exact ⟨t', rfl, ht⟩
  | cons name names ih =>
    intro t t' r ht hr
    obtain ⟨t₁, h₁, hr⟩ := ok_of_bind_ok (by simpa only [List.foldlM_cons] using hr)
    obtain ⟨t₁', h₁', ht₁⟩ := h.alike ht h₁
    obtain ⟨r', hr', hrr'⟩ := ih ht₁ hr
    exact ⟨r', by rw [List.foldlM_cons, h₁']; exact hr', hrr'⟩

/-- **Names can be entered in any order**, and the symbols are the same. -/
theorem foldlM_perm (h : Enters base wanted valid New enter) {names names' : List String}
    (perm : names.Perm names') (ht : Alike base t t') (hr : names.foldlM enter t = .ok r) :
    ∃ r', names'.foldlM enter t' = .ok r' ∧ Alike base r r' := by
  have same_table : ∀ {t r}, Over base t → names.foldlM enter t = .ok r →
      ∃ r', names'.foldlM enter t = .ok r' ∧ Alike base r r' := by
    clear ht hr
    induction perm with
    | nil => exact fun ht hr => by cases hr; exact ⟨_, rfl, .refl ht⟩
    | cons name _ ih =>
      intro t r ht hr
      obtain ⟨t₁, h₁, hr⟩ := ok_of_bind_ok (by simpa only [List.foldlM_cons] using hr)
      obtain ⟨r', hr', hrr'⟩ := ih ((h.entry ht h₁).over ht) hr
      exact ⟨r', by rw [List.foldlM_cons, h₁]; exact hr', hrr'⟩
    | swap a b names =>
      intro t r ht hr
      rw [List.foldlM_cons] at hr
      obtain ⟨t₁, h₁, hr⟩ := ok_of_bind_ok hr
      rw [List.foldlM_cons] at hr
      obtain ⟨t₂, h₂, hr⟩ := ok_of_bind_ok hr
      obtain ⟨t₂', h₂', ht₂⟩ := h.swap (a := b) (b := a) ht (by rw [h₁]; exact h₂)
      obtain ⟨t₁', h₁', h₂'⟩ := ok_of_bind_ok h₂'
      obtain ⟨r', hr', hrr'⟩ := h.foldlM_alike names ht₂ hr
      refine ⟨r', ?_, hrr'⟩
      rw [List.foldlM_cons, h₁']
      show List.foldlM enter t₁' (b :: names) = _
      rw [List.foldlM_cons, h₂']
      exact hr'
    | trans _ _ ih₁ ih₂ =>
      intro t r ht hr
      obtain ⟨r₁, hr₁, hrr₁⟩ := ih₁ ht hr
      obtain ⟨r₂, hr₂, hrr₂⟩ := ih₂ ht hr₁
      exact ⟨r₂, hr₂, hrr₁.trans hrr₂⟩
  obtain ⟨r₁, hr₁, hrr₁⟩ := same_table ht.left hr
  obtain ⟨r', hr', hrr'⟩ := h.foldlM_alike names' ht hr₁
  exact ⟨r', hr', hrr₁.trans hrr'⟩

end Enters

/-! ## The names of a grammar -/

/-- A literal of a rule is entered as a terminal with the code of its character. -/
theorem enters_literal (hbase : base.Indexed) : Enters base
    (fun name => CharLiteral.isLiteral name = true ∧ base.byAlias[name]? = none)
    (fun name => (CharLiteral.code? name).isSome = true)
    (fun name s => ∃ code, CharLiteral.code? name = some code ∧ s = ⟨name, none, true, code, none⟩)
    (fun t name => if CharLiteral.isLiteral name && (t.find? name).isNone
      then t.addTerminal name none none none else .ok t) where
  skips {t name} ht hold := by
    refine if_neg fun hcond => ?_
    obtain ⟨hliteral, hnone⟩ := Bool.and_eq_true_iff.1 hcond
    obtain ⟨hnew, halias⟩ := (ht.find?_eq_none_iff hbase).1 (Option.isNone_iff_eq_none.1 hnone)
    exact hnew (hold ⟨hliteral, halias⟩)
  enters {t name} ht hwanted hnew hvalid hroom := by
    obtain ⟨code, hcode⟩ := Option.isSome_iff_exists.1 hvalid
    have hfresh := ht.indexed.contains_eq_false hnew
    have hnone := (ht.find?_eq_none_iff hbase).2 ⟨hnew, hwanted.2⟩
    refine ⟨_, _, ?_, ⟨code, hcode, rfl⟩,
      ht.push (s := ⟨name, none, true, code, none⟩) hfresh rfl t.autoTokens t.nonterminalCount, rfl⟩
    simp [addTerminal, hwanted.1, hnone, hfresh, Nat.not_le_of_lt hroom, hcode]
  fails {t name} ht hwanted hnew hnot := by
    have hfresh := ht.indexed.contains_eq_false hnew
    have hnone := (ht.find?_eq_none_iff hbase).2 ⟨hnew, hwanted.2⟩
    by_cases hroom : t.symbols.size < limit
    · have hcode : CharLiteral.code? name = none := by
        rw [← Option.not_isSome_iff_eq_none]
        exact fun hvalid => hnot ⟨hvalid, hroom⟩
      exact ⟨.invalidCharLiteral name,
        by simp [addTerminal, hwanted.1, hnone, hfresh, Nat.not_le_of_lt hroom, hcode]⟩
    · exact ⟨.tooManySymbols,
        by simp [addTerminal, hwanted.1, hnone, hfresh, Nat.le_of_not_lt hroom]⟩
  name_eq := by rintro name s ⟨code, -, rfl⟩; rfl
  same := by
    rintro name s s' ⟨code, hcode, rfl⟩ ⟨code', hcode', rfl⟩
    rw [Option.some.inj (hcode.symm.trans hcode')]
    exact .refl _

/-- A nonterminal without other attributes. -/
def IsNonterminal (name : String) (s : Symbol) : Prop :=
  ∃ token, s = ⟨name, none, false, token, none⟩

theorem same_of_isNonterminal {s s' : Symbol} (h : IsNonterminal name s) (h' : IsNonterminal name s') :
    s.Same s' := by
  obtain ⟨token, rfl⟩ := h
  obtain ⟨token', rfl⟩ := h'
  exact ⟨rfl, rfl, rfl, rfl, fun h => by cases h⟩

theorem enters_nonterminal : Enters base (fun _ => True) (fun _ => True) IsNonterminal
    addNonterminal where
  skips {t name} ht hold := by
    rw [addNonterminal, if_pos (ht.indexed.contains_iff.2 (hold trivial))]
  enters {t name} ht _ hnew _ hroom := by
    have hfresh := ht.indexed.contains_eq_false hnew
    refine ⟨_, _, ?_, ⟨t.nonterminalCount, rfl⟩,
      ht.push (s := ⟨name, none, false, t.nonterminalCount, none⟩) hfresh rfl t.autoTokens
        (t.nonterminalCount + 1), rfl⟩
    simp [addNonterminal, hfresh, Nat.not_le_of_lt hroom]
  fails {t name} ht _ hnew hnot := by
    have hfresh := ht.indexed.contains_eq_false hnew
    have hfull : limit ≤ t.symbols.size := Nat.le_of_not_lt fun hroom => hnot ⟨trivial, hroom⟩
    exact ⟨.tooManySymbols, by simp [addNonterminal, hfresh, hfull]⟩
  name_eq := by rintro name s ⟨token, rfl⟩; rfl
  same := same_of_isNonterminal

/-- A left-hand side is entered as a nonterminal, unless it is an alias. -/
theorem enters_lhs (hbase : base.Indexed) : Enters base (fun name => base.byAlias[name]? = none)
    (fun name => isIdentifier name = true) IsNonterminal
    (fun t name => if (t.find? name).isSome then .ok t
      else if isIdentifier name then t.addNonterminal name else .error (.invalidName name)) where
  skips {t name} ht hold := by
    refine if_pos ?_
    by_contra hnone
    obtain ⟨hnew, halias⟩ := (ht.find?_eq_none_iff hbase).1 (Option.not_isSome_iff_eq_none.1 hnone)
    exact hnew (hold halias)
  enters {t name} ht hwanted hnew hvalid hroom := by
    have hnone := (ht.find?_eq_none_iff hbase).2 ⟨hnew, hwanted⟩
    simp only [hnone, Option.isSome_none, Bool.false_eq_true, if_false, hvalid, if_true]
    exact enters_nonterminal.enters ht trivial hnew trivial hroom
  fails {t name} ht hwanted hnew hnot := by
    have hnone := (ht.find?_eq_none_iff hbase).2 ⟨hnew, hwanted⟩
    simp only [hnone, Option.isSome_none, Bool.false_eq_true, if_false]
    split
    · rename_i hvalid
      exact enters_nonterminal.fails ht trivial hnew fun h => hnot ⟨hvalid, h.2⟩
    · exact ⟨_, rfl⟩
  name_eq := by rintro name s ⟨token, rfl⟩; rfl
  same := same_of_isNonterminal

/-! ## Numbers of the symbols -/

/-- The symbols of `t'` are those of `t` in the places that the permutation says, and
    are found by the same names. -/
structure Renumbers (π : Equiv.Perm SymbolId) (t t' : SymbolTable) : Prop where
  lt_iff : ∀ X, π X < t'.symbols.size ↔ X < t.symbols.size
  same : ∀ X, (t.symbols.getD X default).Same (t'.symbols.getD (π X) default)
  find?_eq : ∀ name, t'.find? name = (t.find? name).map π

section Places
variable {π : Equiv.Perm SymbolId}

theorem lt_of_places (hπ : ∀ X, t'.names[π X]? = t.names[X]?) (X : SymbolId) :
    π X < t'.symbols.size ↔ X < t.symbols.size := by
  have length_names : ∀ t : SymbolTable, t.names.length = t.symbols.size := fun t => by simp [names]
  rw [← length_names, ← length_names, List.lt_length_of_places hπ]

theorem name_of_places (hπ : ∀ X, t'.names[π X]? = t.names[X]?) {X : SymbolId}
    (hX : X < t.symbols.size) (hX' : π X < t'.symbols.size) :
    t'.symbols[π X].name = t.symbols[X].name := by
  have := hπ X
  simpa [names, hX, hX'] using this

/-- The symbols of the table below stay in their places. -/
theorem Alike.fixed_of_places (h : Alike base t t') (hπ : ∀ X, t'.names[π X]? = t.names[X]?)
    {X : SymbolId} (hX : X < base.symbols.size) : π X = X := by
  obtain ⟨added, hsymbols, -⟩ := h.left.symbols_eq
  obtain ⟨added', hsymbols', -⟩ := h.right.symbols_eq
  have hplace : t'.names[π X]? = t'.names[X]? := by
    rw [hπ, names, names, hsymbols, hsymbols', List.map_append, List.map_append,
      List.getElem?_append_left (by simpa using hX), List.getElem?_append_left (by simpa using hX)]
  have hX' : X < t'.names.length := by
    rw [names, hsymbols', List.length_map, List.length_append, Array.length_toList]
    exact Nat.lt_add_right _ hX
  exact ((List.getElem?_inj hX' h.right.indexed.nodup).1 hplace.symm).symm

theorem Alike.same_of_places (h : Alike base t t') (hπ : ∀ X, t'.names[π X]? = t.names[X]?)
    (X : SymbolId) : (t.symbols.getD X default).Same (t'.symbols.getD (π X) default) := by
  by_cases hX : X < t.symbols.size
  · have hX' := (lt_of_places hπ X).2 hX
    obtain ⟨s', hs', hsame⟩ := Multiset.exists_mem_of_rel_of_mem h.symbols
      (Multiset.mem_coe.2 (Array.getElem_mem_toList hX))
    -- The symbol alike has the name of the one in the new place, and names are unique.
    have heq : s' = t'.symbols[π X] := by
      refine List.inj_on_of_nodup_map h.right.indexed.nodup (Multiset.mem_coe.1 hs')
        (Array.getElem_mem_toList hX') ?_
      rw [hsame.name_eq, name_of_places hπ hX hX']
    rw [Array.getD_eq_getD_getElem?, Array.getD_eq_getD_getElem?, Array.getElem?_eq_getElem hX,
      Array.getElem?_eq_getElem hX', Option.getD_some, Option.getD_some, ← heq]
    exact hsame
  · have hX' := mt (lt_of_places hπ X).1 hX
    rw [Array.getD_eq_getD_getElem?, Array.getD_eq_getD_getElem?,
      Array.getElem?_eq_none (Nat.le_of_not_lt hX), Array.getElem?_eq_none (Nat.le_of_not_lt hX')]
    exact .refl _

theorem Alike.find?_of_places (h : Alike base t t') (hbase : base.Indexed)
    (hπ : ∀ X, t'.names[π X]? = t.names[X]?) (name : String) :
    t'.find? name = (t.find? name).map π := by
  by_cases hname : name ∈ t.names
  · obtain ⟨s, hs, rfl⟩ := List.mem_map.1 hname
    obtain ⟨X, hX, rfl⟩ := List.mem_iff_getElem.1 hs
    rw [Array.length_toList] at hX
    have hX' := (lt_of_places hπ X).2 hX
    rw [Array.getElem_toList, h.left.indexed.find?_name hX, ← name_of_places hπ hX hX',
      h.right.indexed.find?_name hX']
    rfl
  · -- An alias finds a symbol of the table below.
    have hname' := mt h.names_perm.mem_iff.2 hname
    rw [find?, find?, h.left.indexed.byName_eq_none_iff.2 hname,
      h.right.indexed.byName_eq_none_iff.2 hname', h.left.byAlias_eq hbase, h.right.byAlias_eq hbase]
    cases halias : base.byAlias[name]? with
    | none => rfl
    | some X =>
      rw [hbase.byAlias_eq] at halias
      obtain ⟨hX, -⟩ := List.findIdx?_eq_some_iff_getElem.1 halias
      rw [Array.length_toList] at hX
      show some X = some (π X)
      rw [h.fixed_of_places hπ hX]

/-- **Tables alike differ in the places of their symbols only**, and not in those
    of the table that they are over. -/
theorem Alike.exists_renumbering (h : Alike base t t') (hbase : base.Indexed) :
    ∃ π, Renumbers π t t' ∧ ∀ X < base.symbols.size, π X = X := by
  obtain ⟨π, hπ⟩ := h.names_perm.exists_places
  exact ⟨π, ⟨lt_of_places hπ, h.same_of_places hπ, h.find?_of_places hbase hπ⟩,
    fun _ => h.fixed_of_places hπ⟩

end Places

end SymbolTable

end LRAutomata
