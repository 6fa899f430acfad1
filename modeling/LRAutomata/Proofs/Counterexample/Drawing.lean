/-
  Where the parts of a drawn derivation stand.

  A drawing only ever grows at the ends of its lines, by blanks and by texts
  (`Canvas.Writes`), so no text comes before the end of one that was written earlier on
  its line, and every text stays where it was written.

  `Derivation.Lays` says which texts of a derivation are to stand where: a child begins
  one line below its parent, in the column where the parent has what the child derives.
  The texts are those of the symbols of the rule as the grammar names them
  (`Grammar.names`).
  The lines below a node are shared by what is derived to the left and to the right of
  it.  What keeps the two in place is that a drawing ends in a column that no line from
  its own line on has passed (`Canvas.Within`): then filling a line up to the column
  where a child is to begin always leads to just that column.
-/
import LRAutomata.Proofs.Checked.Derivation
import LRAutomata.Proofs.Grammar.WellFormed

namespace LRAutomata

/-- A text at a column of a line. -/
structure Placed where
  line : Nat
  column : Nat
  text : String
deriving DecidableEq, Repr

namespace Placed

/-- The column after the text. -/
def stop (p : Placed) : Nat :=
  p.column + p.text.length

/-- The text `q` does not begin before the end of `p` if both stand on one line. -/
def Before (p q : Placed) : Prop :=
  p.line = q.line → p.stop ≤ q.column

end Placed

namespace Canvas

/-- The characters of a line. -/
def row (c : Canvas) (n : Nat) : List Char :=
  (c.getD n "").toList

/-- No line from `n` on passes the column `last`. -/
def Within (c : Canvas) (n last : Nat) : Prop :=
  ∀ m, n ≤ m → c.width m ≤ last

/-- A text is in its place. -/
def Shows (c : Canvas) (p : Placed) : Prop :=
  p.text.toList <+: (c.row p.line).drop p.column

/-- The drawing `c'` comes from `c` by new lines, by blanks at the ends of lines and by
    the texts, each of them written at the end of its line, with no change above the line
    `top`. -/
inductive Writes (top : Nat) : Canvas → List Placed → Canvas → Prop
  | done (c : Canvas) : Writes top c [] c
  | line {c c' : Canvas} {texts : List Placed} (n : Nat) : Writes top (c.withLine n) texts c' →
      Writes top c texts c'
  | blank {c c' : Canvas} {texts : List Placed} {n : Nat} (column : Nat) : top ≤ n →
      Writes top (c.pad n column) texts c' → Writes top c texts c'
  | text {c c' : Canvas} {texts : List Placed} {p : Placed} : top ≤ p.line → p.line < c.size →
      p.column = c.width p.line → Writes top (c.write p.line p.text) texts c' →
      Writes top c (p :: texts) c'

variable {c c' c'' : Canvas} {texts texts' : List Placed} {top m n column last : Nat}

/-! ## Lines and widths -/

theorem length_row (c : Canvas) (n : Nat) : (c.row n).length = c.width n :=
  String.length_toList

theorem row_modify (c : Canvas) (m n : Nat) (f : String → String) :
    row (c.modify m f) n = if m = n ∧ n < c.size then (f (c.getD n "")).toList else c.row n := by
  by_cases hn : n < c.size
  · by_cases hm : m = n
    · simp [row, Array.getD, Array.getElem_modify, hn, hm]
    · simp [row, Array.getD, Array.getElem_modify, hn, hm]
  · simp [row, Array.getD, hn]

@[simp] theorem row_withLine (c : Canvas) (m n : Nat) : (c.withLine m).row n = c.row n := by
  rw [withLine]
  split
  · rw [row, row, Array.getD_eq_getD_getElem?, Array.getD_eq_getD_getElem?, Array.getElem?_push]
    split
    · rw [Array.getElem?_eq_none (by omega)]; rfl
    · rfl
  · rfl

theorem row_isPrefix_pad (c : Canvas) (m column n : Nat) : c.row n <+: (c.pad m column).row n := by
  rw [pad, row_modify]
  split
  · rw [String.pushn_eq_repeat_push]
    generalize column - _ = k
    induction k with
    | zero => exact List.prefix_rfl
    | succ k ih => rw [Nat.repeat, String.toList_push]; exact ih.trans (List.prefix_append _ _)
  · exact List.prefix_rfl

theorem row_isPrefix_write (c : Canvas) (m : Nat) (text : String) (n : Nat) :
    c.row n <+: (c.write m text).row n := by
  rw [write, row_modify]
  split
  · rw [String.toList_append]; exact List.prefix_append _ _
  · exact List.prefix_rfl

theorem row_pad_of_ne (c : Canvas) (column : Nat) (h : m ≠ n) : (c.pad m column).row n = c.row n := by
  rw [pad, row_modify, if_neg (fun hmn => h hmn.1)]

theorem row_write_of_ne (c : Canvas) (text : String) (h : m ≠ n) :
    (c.write m text).row n = c.row n := by
  rw [write, row_modify, if_neg (fun hmn => h hmn.1)]

theorem row_write_self (text : String) (h : n < c.size) :
    (c.write n text).row n = c.row n ++ text.toList := by
  rw [write, row_modify, if_pos ⟨rfl, h⟩, String.toList_append, row]

@[simp] theorem width_withLine (c : Canvas) (m n : Nat) : (c.withLine m).width n = c.width n := by
  rw [← length_row, ← length_row, row_withLine]

theorem width_pad_of_ne (c : Canvas) (column : Nat) (h : m ≠ n) :
    (c.pad m column).width n = c.width n := by
  rw [← length_row, ← length_row, row_pad_of_ne c column h]

theorem width_write_of_ne (c : Canvas) (text : String) (h : m ≠ n) :
    (c.write m text).width n = c.width n := by
  rw [← length_row, ← length_row, row_write_of_ne c text h]

theorem width_pad_self (column : Nat) (h : n < c.size) :
    (c.pad n column).width n = max (c.width n) column := by
  rw [← length_row, pad, row_modify, if_pos ⟨rfl, h⟩, String.length_toList, String.length_pushn]
  change c.width n + (column - c.width n) = _
  omega

theorem width_write_self (text : String) (h : n < c.size) :
    (c.write n text).width n = c.width n + text.length := by
  rw [← length_row, row_write_self text h, List.length_append, length_row, String.length_toList]

theorem width_le_pad (c : Canvas) (m column n : Nat) : c.width n ≤ (c.pad m column).width n := by
  rw [← length_row, ← length_row]
  exact (row_isPrefix_pad c m column n).length_le

theorem width_le_write (c : Canvas) (m : Nat) (text : String) (n : Nat) :
    c.width n ≤ (c.write m text).width n := by
  rw [← length_row, ← length_row]
  exact (row_isPrefix_write c m text n).length_le

/-- Filling a line that ends in time leads to the column. -/
theorem Within.width_pad (h : c.Within n column) (hn : n < c.size) :
    (c.pad n column).width n = column := by
  rw [width_pad_self column hn]
  exact Nat.max_eq_right (h n (Nat.le_refl n))

theorem Within.mono (h : c.Within n column) (hm : n ≤ m) (hlast : column ≤ last) :
    c.Within m last :=
  fun k hk => Nat.le_trans (h k (Nat.le_trans hm hk)) hlast

/-- The widths of the line itself and of those below it bound all of them. -/
theorem within_iff : c.Within n last ↔ c.width n ≤ last ∧ c.Within (n + 1) last := by
  constructor
  · exact fun h => ⟨h n (Nat.le_refl n), h.mono (Nat.le_succ n) (Nat.le_refl last)⟩
  · rintro ⟨hn, hbelow⟩ m hm
    rcases Nat.eq_or_lt_of_le hm with rfl | hm
    · exact hn
    · exact hbelow m hm

@[simp] theorem within_withLine : (c.withLine m).Within n last ↔ c.Within n last := by
  simp only [Within, width_withLine]

/-- What is added to a line leaves the lines below it as they are. -/
theorem within_pad_of_lt (h : m < n) : (c.pad m column).Within n last ↔ c.Within n last :=
  forall_congr' fun k => forall_congr' fun hk => by
    rw [width_pad_of_ne c column (Nat.ne_of_lt (Nat.lt_of_lt_of_le h hk))]

theorem within_write_of_lt (text : String) (h : m < n) :
    (c.write m text).Within n last ↔ c.Within n last :=
  forall_congr' fun k => forall_congr' fun hk => by
    rw [width_write_of_ne c text (Nat.ne_of_lt (Nat.lt_of_lt_of_le h hk))]

/-- A line filled up to where those below it end passes all of them. -/
theorem Within.pad (h : c.Within (n + 1) column) (hn : n < c.size) :
    (c.pad n column).Within n ((c.pad n column).width n) := by
  rw [within_iff, within_pad_of_lt (Nat.lt_succ_self n)]
  refine ⟨Nat.le_refl _, h.mono (Nat.le_refl _) ?_⟩
  rw [width_pad_self column hn]
  exact Nat.le_max_right _ _

/-- A text at the end of a line that passes all below it leaves it so. -/
theorem Within.write (h : c.Within n (c.width n)) (text : String) :
    (c.write n text).Within n ((c.write n text).width n) := by
  rw [within_iff, within_write_of_lt text (Nat.lt_succ_self n)]
  exact ⟨Nat.le_refl _, h.mono (Nat.le_succ n) (width_le_write c n text n)⟩

/-! ## Writing -/

namespace Writes

/-- One text at the end of a line. -/
theorem single (text : String) (hn : n < c.size) (hcolumn : c.width n = column) :
    Writes n c [⟨n, column, text⟩] (c.write n text) :=
  .text (Nat.le_refl n) hn hcolumn.symm (.done _)

theorem append (h : Writes top c texts c') (h' : Writes top c' texts' c'') :
    Writes top c (texts ++ texts') c'' := by
  induction h with
  | done c => exact h'
  | line n _ ih => exact .line n (ih h')
  | blank column hn _ ih => exact .blank column hn (ih h')
  | text hn hline hcolumn _ ih => exact .text hn hline hcolumn (ih h')

theorem mono (h : Writes top c texts c') (hn : n ≤ top) : Writes n c texts c' := by
  induction h with
  | done c => exact .done c
  | line m _ ih => exact .line m ih
  | blank column hm _ ih => exact .blank column (Nat.le_trans hn hm) ih
  | text hm hline hcolumn _ ih => exact .text (Nat.le_trans hn hm) hline hcolumn ih

theorem size_le (h : Writes top c texts c') : c.size ≤ c'.size := by
  induction h with
  | done c => exact Nat.le_refl _
  | @line c _ _ n _ ih =>
    refine Nat.le_trans ?_ ih
    rw [withLine]
    split
    · rw [Array.size_push]; exact Nat.le_succ _
    · exact Nat.le_refl _
  | blank _ _ _ ih => rwa [size_pad] at ih
  | text _ _ _ _ ih => rwa [size_write] at ih

/-- The lines above stay as they are. -/
theorem width_of_lt (h : Writes top c texts c') (hn : n < top) : c'.width n = c.width n := by
  induction h with
  | done c => rfl
  | line m _ ih => rwa [width_withLine] at ih
  | @blank c _ _ m column hm _ ih =>
    rwa [width_pad_of_ne c column (Nat.ne_of_gt (Nat.lt_of_lt_of_le hn hm))] at ih
  | @text c _ _ p hm _ _ _ ih =>
    rwa [width_write_of_ne c p.text (Nat.ne_of_gt (Nat.lt_of_lt_of_le hn hm))] at ih

/-- A drawing grows at the ends of its lines. -/
theorem row_isPrefix (h : Writes top c texts c') (n : Nat) : c.row n <+: c'.row n := by
  induction h with
  | done c => exact List.prefix_rfl
  | line m _ ih => rwa [row_withLine] at ih
  | @blank c _ _ m column _ _ ih => exact (row_isPrefix_pad c m column n).trans ih
  | @text c _ _ p _ _ _ _ ih => exact (row_isPrefix_write c p.line p.text n).trans ih

/-- A text begins at or after the end of what its line had before. -/
theorem width_le_column (h : Writes top c texts c') : ∀ p ∈ texts, c.width p.line ≤ p.column := by
  induction h with
  | done c => exact fun p hp => nomatch hp
  | line n _ ih => simpa only [width_withLine] using ih
  | @blank c _ _ m column _ _ ih =>
    exact fun p hp => Nat.le_trans (width_le_pad c m column p.line) (ih p hp)
  | @text c _ _ p _ hline hcolumn _ ih =>
    rintro q (_ | ⟨_, hq⟩)
    · exact Nat.le_of_eq hcolumn.symm
    · exact Nat.le_trans (width_le_write c p.line p.text q.line) (ih q hq)

/-- **No overlap.**  On each line every text begins at or after the end of those that
    were written earlier. -/
theorem pairwise_before (h : Writes top c texts c') : texts.Pairwise Placed.Before := by
  induction h with
  | done c => exact .nil
  | line _ _ ih | blank _ _ _ ih => exact ih
  | @text c _ _ p _ hline hcolumn h ih =>
    refine .cons (fun q hq heq => ?_) ih
    have hq := h.width_le_column q hq
    rwa [← heq, width_write_self p.text hline, ← hcolumn] at hq

/-- Every text stays where it was written. -/
theorem shows (h : Writes top c texts c') : ∀ p ∈ texts, c'.Shows p := by
  induction h with
  | done c => exact fun p hp => nomatch hp
  | line _ _ ih | blank _ _ _ ih => exact ih
  | @text c _ _ p _ hline hcolumn h ih =>
    rintro q (_ | ⟨_, hq⟩)
    · obtain ⟨later, hrow⟩ := h.row_isPrefix p.line
      rw [row_write_self p.text hline, List.append_assoc] at hrow
      rw [Shows, ← hrow, hcolumn, ← length_row, List.drop_left]
      exact List.prefix_append _ _
    · exact ih q hq

end Writes

end Canvas

/-- The names of symbols, a blank between them; a symbol that has an alias goes by it. -/
def Grammar.names (g : Grammar) (symbols : List SymbolId) : String :=
  " ".intercalate (symbols.map fun X => (g.symbol X).aliasName.getD (g.symbol X).name)

open Canvas

namespace Derivation

/-- What a node begins with: in its column its rule and the symbols before the dot, in
    the column `next` the symbol after the dot. -/
def opening (g : Grammar) (i : Item) (line column next : Nat) : List Placed :=
  [⟨line, column, s!"{i.rule}: " ++ g.names ((g.rhs i.rule).take i.position) ++ " "⟩,
    ⟨line, next, g.names (g.rhs i.rule)[i.position]?.toList⟩]

/-- What a leaf writes: its rule, and all symbols with the dot between them. -/
def undrawn (g : Grammar) (i : Item) (line column stop : Nat) : List Placed :=
  [⟨line, column, s!"{i.rule}: " ++ g.names ((g.rhs i.rule).take i.position) ++ " "⟩,
    ⟨line, stop, " • " ++ g.names ((g.rhs i.rule).drop i.position) ++ " "⟩]

/-- What a node ends with: the symbols after the one after the dot. -/
def closing (g : Grammar) (i : Item) (line rest : Nat) : List Placed :=
  [⟨line, rest, g.names ((g.rhs i.rule).drop (i.position + 1)) ++ " "⟩]

variable {g : Grammar} {d l : Derivation} {i : Item} {texts : List Placed} {c c' : Canvas}
variable {column line last : Nat}

/-- Drawn from `column` on, a derivation leads from the drawing `c` to `c'` by writing
    the texts, in this order, and ends in the column `last`.

    The derivation of the symbol after the dot begins one line below that symbol, in the
    same column, and so does what is derived from the symbols after it.  From the line of
    the node on, no line passes the column in which it ends. -/
inductive Lays (g : Grammar) :
    Derivation → (column line : Nat) → Canvas → List Placed → Canvas → (last : Nat) → Prop
  | leaf {i : Item} {column stop line last : Nat} {c c' : Canvas} :
      (leaf i).draw g column line c = (c', last) →
      Writes line c (undrawn g i line column stop) c' → c'.Within line last →
      Lays g (leaf i) column line c (undrawn g i line column stop) c' last
  /-- Nothing is derived to the right, or only its root. -/
  | node {d l : Derivation} {column next stop line last : Nat} {c c₁ c₂ c' : Canvas}
      {below after : List Placed} (rest : Nat) :
      d.draw g column line c = (c', last) →
      d.left? = some l → d.right?.bind left? = none →
      Writes line c (opening g d.item line column next) c₁ →
      Lays g l next (line + 1) c₁ below c₂ stop →
      after = (if d.item.position + 1 < (g.rhs d.item.rule).length then closing g d.item line rest else []) →
      Writes line c₂ after c' → c'.Within line last →
      Lays g d column line c (opening g d.item line column next ++ (below ++ after)) c' last
  | fork {d l r : Derivation} {column next stop rest stop' line last : Nat}
      {c c₁ c₂ c₃ c₄ c' : Canvas} {below beside : List Placed} :
      d.draw g column line c = (c', last) →
      d.left? = some l → d.right?.bind left? = some r →
      Writes line c (opening g d.item line column next) c₁ →
      Lays g l next (line + 1) c₁ below c₂ stop →
      Writes line c₂ [] c₃ → Lays g r rest (line + 1) c₃ beside c₄ stop' →
      Writes line c₄ (closing g d.item line rest) c' → c'.Within line last →
      Lays g d column line c
        (opening g d.item line column next ++ (below ++ (beside ++ closing g d.item line rest))) c' last

theorem Lays.writes (h : Lays g d column line c texts c' last) : Writes line c texts c' := by
  induction h with
  | leaf _ hwrites _ => exact hwrites
  | node _ _ _ _ hhead _ _ hrest _ ih =>
    exact hhead.append ((ih.mono (Nat.le_succ _)).append hrest)
  | fork _ _ _ hhead _ hpad _ hrest _ ihl ihr =>
    have hbeside := hpad.append ((ihr.mono (Nat.le_succ _)).append hrest)
    exact hhead.append ((ihl.mono (Nat.le_succ _)).append hbeside)

theorem Lays.within (h : Lays g d column line c texts c' last) : c'.Within line last := by
  cases h <;> assumption

/-- Drawn from any column that no line from the node's line on has passed, the
    derivation is laid out. -/
def Aligned (g : Grammar) (d : Derivation) : Prop :=
  ∀ (column : Nat) {line : Nat} {c : Canvas}, line ≤ c.size → c.Within line column →
    ∃ texts, Lays g d column line c texts (d.draw g column line c).1 (d.draw g column line c).2

/-! ## One node -/

theorem opening_eq (i : Item) (line column next : Nat) : opening g i line column next =
    [⟨line, column, headText g i⟩, ⟨line, next, nextText g i⟩] := by
  have hnext : g.names (g.rhs i.rule)[i.position]?.toList = nextText g i := by
    rw [nextText, Item.next?]
    cases (g.rhs i.rule)[i.position]? <;> rfl
  rw [opening, hnext]
  rfl

theorem isSome_nextNext?_iff {i : Item} :
    (i.nextNext? g).isSome = true ↔ i.position + 1 < (g.rhs i.rule).length := by
  simp [Item.nextNext?]

/-- The head of a node begins in its column.  It is the last text on its line so far. -/
theorem drawHead_spec (g : Grammar) (i : Item) (hline : line ≤ c.size)
    (hwithin : c.Within line column) :
    Writes line c [⟨line, column, headText g i⟩] (drawHead g i column line c) ∧
      line < (drawHead g i column line c).size ∧
      (drawHead g i column line c).Within line ((drawHead g i column line c).width line) := by
  have hlt := lt_size_withLine hline
  have hwidth := (within_withLine.2 hwithin).width_pad hlt
  have hbelow := hwithin.mono (Nat.le_succ line) (Nat.le_refl _)
  have hpad := ((within_withLine (m := line)).2 hbelow).pad hlt
  rw [← size_pad _ line column] at hlt
  rw [drawHead]
  refine ⟨.line line (.blank column (Nat.le_refl line) (.single _ hlt hwidth)), ?_, hpad.write _⟩
  rwa [size_write]

/-- The symbol after the dot follows the head, and no line below passes the column in
    which it begins. -/
theorem drawNext_spec (g : Grammar) (i : Item) (hline : line ≤ c.size)
    (hwithin : c.Within line column) :
    Writes line c (opening g i line column ((drawHead g i column line c).width line))
        ((drawHead g i column line c).write line (nextText g i)) ∧
      line < ((drawHead g i column line c).write line (nextText g i)).size ∧
      ((drawHead g i column line c).write line (nextText g i)).Within (line + 1)
        ((drawHead g i column line c).width line) := by
  obtain ⟨hhead, hlt, hpassed⟩ := drawHead_spec g i hline hwithin
  refine ⟨?_, ?_, ?_⟩
  · rw [opening_eq]; exact hhead.append (.single (nextText g i) hlt rfl)
  · rwa [size_write]
  · rw [within_write_of_lt _ (Nat.lt_succ_self line)]
    exact hpassed.mono (Nat.le_succ line) (Nat.le_refl _)

theorem aligned_leaf (g : Grammar) (i : Item) : Aligned g (leaf i) := by
  intro column line c hline hwithin
  generalize hcall : (leaf i).draw g column line c = result
  have hresult := hcall
  rw [draw] at hresult
  dsimp only at hresult
  obtain ⟨hhead, hlt, hpassed⟩ := drawHead_spec g i hline hwithin
  generalize drawHead g i column line c = head at hhead hlt hpassed hresult
  subst hresult
  exact ⟨_, .leaf hcall (hhead.append (.single (tailText g i) hlt rfl)) (hpassed.write _)⟩

/-- A text at the end of a line that is then filled up to where the lines below it end. -/
theorem writes_pad (text : String) (hlt : line < c.size) (hcolumn : c.width line = column)
    (hbelow : c.Within (line + 1) last) :
    Writes line c [⟨line, column, text⟩] ((c.write line text).pad line last) ∧
      ((c.write line text).pad line last).Within line
        (((c.write line text).pad line last).width line) := by
  refine ⟨(Writes.single text hlt hcolumn).append (.blank last (Nat.le_refl line) (.done _)), ?_⟩
  rw [← size_write c line text] at hlt
  exact ((within_write_of_lt text (Nat.lt_succ_self line)).2 hbelow).pad hlt

/-- A node whose left child is aligned, and what is derived to its right as well, is
    aligned. -/
theorem aligned_inner (hleft : d.left? = some l) (hl : Aligned g l)
    (hr : ∀ r, d.right?.bind left? = some r → Aligned g r)
    (hdraw : d.draw g = drawInner g d.item (l.draw g) ((d.right?.bind left?).map (draw g))) :
    Aligned g d := by
  intro column line c hline hwithin
  generalize hcall : d.draw g column line c = result
  have hresult := hcall
  rw [hdraw, drawInner_eq] at hresult
  dsimp only at hresult
  obtain ⟨hnext, hlt, hbelow⟩ := drawNext_spec g d.item hline hwithin
  generalize drawHead g d.item column line c = head at hnext hlt hbelow hresult
  -- the left child begins in the column where the head ends
  obtain ⟨below, hlays⟩ := hl (head.width line) hlt hbelow
  generalize l.draw g (head.width line) (line + 1) (head.write line (nextText g d.item)) = drawn
    at hlays hresult
  replace hlt := Nat.lt_of_lt_of_le hlt hlays.writes.size_le
  have hfilled := hlays.within.pad hlt
  have hpad : Writes line drawn.1 [] (drawn.1.pad line drawn.2) :=
    .blank drawn.2 (Nat.le_refl line) (.done _)
  rw [← size_pad drawn.1 line drawn.2] at hlt
  generalize drawn.1.pad line drawn.2 = filled at hfilled hpad hlt hresult
  cases hcase : d.right?.bind left? with
  | none =>
    rw [hcase, Option.map_none, drawRest, Option.elim_none] at hresult
    split at hresult
    · subst hresult
      exact ⟨_, .node (filled.width line) hcall hleft hcase hnext hlays
        (if_pos (isSome_nextNext?_iff.1 ‹_›)).symm
        (hpad.append (.single _ hlt rfl)) (hfilled.write _)⟩
    · subst hresult
      exact ⟨_, .node (filled.width line) hcall hleft hcase hnext hlays
        (if_neg fun hlt => ‹¬ _› (isSome_nextNext?_iff.2 hlt)).symm hpad hfilled⟩
  | some r =>
    -- what is derived to the right begins where the line now ends, and leaves it so
    obtain ⟨beside, hlays'⟩ := hr r hcase (filled.width line) hlt
      (hfilled.mono (Nat.le_succ line) (Nat.le_refl _))
    rw [hcase, Option.map_some, drawRest, Option.elim_some] at hresult
    dsimp only at hresult
    generalize r.draw g (filled.width line) (line + 1) filled = drawn' at hlays' hresult
    subst hresult
    replace hlt := Nat.lt_of_lt_of_le hlt hlays'.writes.size_le
    obtain ⟨hrest, hpassed⟩ := writes_pad (restText g d.item) hlt
      (hlays'.writes.width_of_lt (Nat.lt_succ_self line)) hlays'.within
    exact ⟨_, .fork hcall hleft hcase hnext hlays hpad hlays' hrest hpassed⟩

/-! ## Every node -/

theorem aligned (g : Grammar) : ∀ d : Derivation, Aligned g d
  | leaf i => aligned_leaf g i
  | node _ l | fork _ l (leaf _) => aligned_inner rfl (aligned g l) (fun _ hr => by cases hr) rfl
  | fork _ l (node _ r) | fork _ l (fork _ r _) =>
    aligned_inner rfl (aligned g l) (fun _ hr => by cases hr; exact aligned g r) rfl

/-- **Children stand below what they derive.**  The texts of a derivation are written so
    that the derivation of a symbol begins one line below the symbol, in the same column,
    and that of the symbols after it one line below those; the column in which a node
    ends is one that no line from its own on has passed.  No text begins before the end
    of one that was written earlier on its line, and each stays where it was written. -/
theorem draw_aligned (g : Grammar) (d : Derivation) :
    ∃ texts, Lays g d 0 0 #[] texts (d.draw g 0 0 #[]).1 (d.draw g 0 0 #[]).2 ∧
      texts.Pairwise Placed.Before ∧ ∀ p ∈ texts, (d.draw g 0 0 #[]).1.Shows p := by
  have hwithin : Canvas.Within #[] 0 0 := fun m _ => Nat.le_of_eq rfl
  obtain ⟨texts, hlays⟩ := aligned g d 0 (Nat.zero_le _) hwithin
  exact ⟨texts, hlays, hlays.writes.pairwise_before, hlays.writes.shows⟩

/-- A sequence of two symbols that are derived between two tokens, one of the tokens
    with an alias. -/
def between : List Declaration :=
  [.terminal "TO" (some "to") none, .rule ⟨"S", ["'x'", "A", "B", "'z'"], none, 1⟩,
    .rule ⟨"A", ["'a'"], none, 2⟩, .rule ⟨"B", ["to", "'u'"], none, 3⟩]

/-- `A` is derived to the left, and the token behind it to the right. -/
def betweenTree : Derivation :=
  node ⟨0, 0⟩ (fork ⟨1, 1⟩ (leaf ⟨2, 1⟩) (node ⟨1, 2⟩ (leaf ⟨3, 0⟩)))

/-- Rule 2 stands below `A` and rule 3 below `B`. -/
theorem draw_aligned_between : ∃ g, Grammar.define between = .ok g ∧
    (betweenTree.draw g 0 0 #[]).1.toList =
      ["0:  S                               $end ",
       "    1: 'x' A          B 'z'         ",
       "           2: 'a'  •  3:   • to 'u' "] ∧
    (betweenTree.draw g 0 0 #[]).2 = 41 ∧
    ∃ texts, Lays g betweenTree 0 0 #[] texts (betweenTree.draw g 0 0 #[]).1
      (betweenTree.draw g 0 0 #[]).2 := by
  obtain ⟨g, hg, hcheck⟩ := Grammar.exists_define between (fun g =>
    (betweenTree.draw g 0 0 #[]).1.toList =
      ["0:  S                               $end ",
       "    1: 'x' A          B 'z'         ",
       "           2: 'a'  •  3:   • to 'u' "] ∧
    (betweenTree.draw g 0 0 #[]).2 = 41) (by decide +kernel)
  obtain ⟨hlines, hlast⟩ := of_decide_eq_true hcheck
  obtain ⟨texts, hlays, -⟩ := draw_aligned g betweenTree
  exact ⟨g, hg, hlines, hlast, texts, hlays⟩

end Derivation

end LRAutomata
