/-
  What character literals stand for.

  Between the quotes of a literal stands a single character, an escape, or an
  octal number after a backslash (`CharLiteral.Denotes`).  The code of a literal
  is what its body denotes, except that the escaped double quote has none
  (`bodyCode?_eq_some_iff`).
-/
import Mathlib.Data.Nat.Digits.Defs
import LRAutomata.Text.CharLiteral

namespace LRAutomata.Text.CharLiteral

/-! ## Bodies of literals -/

/-- The characters that can be escaped by a name, with the codes that C gives the escapes. -/
def escapes : List (Char × Nat) :=
  [('n', 10), ('t', 9), ('b', 8), ('f', 12), ('r', 13), ('v', 11), ('\\', 92), ('\'', 39), ('"', 34)]

/-- The digits of octal numbers. -/
def IsOctal (c : Char) : Prop :=
  '0' ≤ c ∧ c ≤ '7'

/-- The number that octal digits write, the most significant first. -/
def octalValue (digits : List Char) : Nat :=
  Nat.ofDigits 8 (digits.reverse.map fun c => c.toNat - '0'.toNat)

/-- What the body of a literal stands for. -/
inductive Denotes : List Char → Nat → Prop
  /-- An ASCII character other than the backslash stands for itself. -/
  | ascii {c : Char} : c ≠ '\\' → c.toNat < 128 → Denotes [c] c.toNat
  /-- Of any other character the first byte counts. -/
  | wide {c : Char} {byte : UInt8} : 128 ≤ c.toNat →
      (String.utf8EncodeChar c).head? = some byte → Denotes [c] byte.toNat
  | escape {c : Char} {n : Nat} : (c, n) ∈ escapes → Denotes ['\\', c] n
  | octal {digits : List Char} : digits ≠ [] → (∀ c ∈ digits, IsOctal c) →
      octalValue digits < 2 ^ 32 → Denotes ('\\' :: digits) (octalValue digits)

variable {c : Char} {body digits : List Char} {name : String} {n : Nat}

theorem denotes_escaped_iff : Denotes ('\\' :: digits) n ↔
    (∃ c, digits = [c] ∧ (c, n) ∈ escapes) ∨
      digits ≠ [] ∧ (∀ c ∈ digits, IsOctal c) ∧ octalValue digits = n ∧ n < 2 ^ 32 := by
  constructor
  · intro h
    generalize hbody : '\\' :: digits = body at h
    cases h with
    | ascii hc _ => exact absurd (List.cons.inj hbody).1.symm hc
    | wide hc _ =>
      rw [← (List.cons.inj hbody).1] at hc
      exact absurd hc (by decide)
    | escape hmem => exact .inl ⟨_, (List.cons.inj hbody).2, hmem⟩
    | octal hne hoctal hlt =>
      obtain rfl := (List.cons.inj hbody).2
      exact .inr ⟨hne, hoctal, rfl, hlt⟩
  · rintro (⟨c, rfl, hmem⟩ | ⟨hne, hoctal, rfl, hlt⟩)
    · exact .escape hmem
    · exact .octal hne hoctal hlt

/-! ## Codes -/

theorem octalDigit?_eq_some_iff :
    octalDigit? c = some n ↔ IsOctal c ∧ c.toNat - '0'.toNat = n := by
  unfold octalDigit? IsOctal
  split <;> rename_i h <;> simp [h]

theorem foldlM_octalDigit? (m : Nat) :
    digits.foldlM (fun n c => (octalDigit? c).map (8 * n + ·)) m = some n ↔
      (∀ c ∈ digits, IsOctal c) ∧
        digits.foldl (fun n c => 8 * n + (c.toNat - '0'.toNat)) m = n := by
  induction digits generalizing m with
  | nil => simp
  | cons c digits ih =>
    cases hc : octalDigit? c with
    | none =>
      have hoctal : ¬ IsOctal c := fun h => by
        rw [octalDigit?_eq_some_iff.2 ⟨h, rfl⟩] at hc; cases hc
      simp [hc, hoctal]
    | some d =>
      obtain ⟨hoctal, rfl⟩ := octalDigit?_eq_some_iff.1 hc
      simp only [List.foldlM_cons, hc, Option.map_some, Option.bind_eq_bind, Option.bind_some, ih,
        List.foldl_cons, List.forall_mem_cons, hoctal, true_and]

theorem octalValue_eq_foldl :
    octalValue digits = digits.foldl (fun n c => 8 * n + (c.toNat - '0'.toNat)) 0 := by
  rw [octalValue, Nat.ofDigits_eq_foldr, List.foldr_map, List.foldr_reverse]
  simp only [Nat.cast_id, Nat.add_comm]

theorem octal?_eq_some_iff : octal? digits = some n ↔
    digits ≠ [] ∧ (∀ c ∈ digits, IsOctal c) ∧ octalValue digits = n := by
  cases digits with
  | nil => simp [octal?]
  | cons c digits =>
    rw [octal?, foldlM_octalDigit?, octalValue_eq_foldl]
    · simp
    · simp

/-- All escapes but that of the double quote are known. -/
theorem escapeCode?_eq_some_iff : escapeCode? c = some n ↔ (c, n) ∈ escapes ∧ c ≠ '"' := by
  unfold escapeCode?
  split <;> simp_all [escapes, eq_comm]

theorem leadByte_of_lt (h : c.toNat < 128) : leadByte c = c.toNat := by
  rw [leadByte, if_pos h]

/-- The lead byte is the first byte of the UTF-8 form. -/
theorem head?_utf8EncodeChar (c : Char) :
    ∃ byte, (String.utf8EncodeChar c).head? = some byte ∧ byte.toNat = leadByte c := by
  have hlt : c.val.toNat < 0x110000 := by
    rcases c.valid with h | ⟨-, h⟩
    · exact Nat.lt_trans h (by decide)
    · exact h
  rw [String.utf8EncodeChar, leadByte, Char.toNat]
  generalize c.val.toNat = v at hlt
  -- The cases are those of one to four bytes; the first one holds the highest bits.
  by_cases h₁ : v < 0x80
  · exact ⟨UInt8.ofNat v, by simp [Nat.le_of_lt_succ h₁], by simp [h₁]; omega⟩
  by_cases h₂ : v < 0x800
  · refine ⟨UInt8.ofNat (v / 64 % 32 + 192), ?_, ?_⟩
    · simp [show ¬ v ≤ 127 by omega, Nat.le_of_lt_succ h₂]
    · rw [if_neg h₁, if_pos h₂, UInt8.toNat_ofNat']; omega
  by_cases h₃ : v < 0x10000
  · refine ⟨UInt8.ofNat (v / 4096 % 16 + 224), ?_, ?_⟩
    · simp [show ¬ v ≤ 127 by omega, show ¬ v ≤ 2047 by omega, Nat.le_of_lt_succ h₃]
    · rw [if_neg h₁, if_neg h₂, if_pos h₃, UInt8.toNat_ofNat']; omega
  · refine ⟨UInt8.ofNat (v / 262144 % 8 + 240), ?_, ?_⟩
    · simp [show ¬ v ≤ 127 by omega, show ¬ v ≤ 2047 by omega, show ¬ v ≤ 65535 by omega]
    · rw [if_neg h₁, if_neg h₂, if_neg h₃, UInt8.toNat_ofNat']; omega

theorem denotes_single_iff (h : c ≠ '\\') : Denotes [c] n ↔ leadByte c = n := by
  obtain ⟨byte, hhead, hbyte⟩ := head?_utf8EncodeChar c
  constructor
  · intro hd
    cases hd with
    | ascii _ hlt => exact leadByte_of_lt hlt
    | wide _ hhead' => rw [← hbyte, Option.some.inj (hhead.symm.trans hhead')]
    | octal _ => exact absurd rfl h
  · rintro rfl
    by_cases hlt : c.toNat < 128
    · rw [leadByte_of_lt hlt]; exact .ascii h hlt
    · rw [← hbyte]; exact .wide (Nat.le_of_not_lt hlt) hhead

/-! ## The code of a body -/

/-- No character is both the name of an escape and an octal digit. -/
theorem escapeCode?_eq_none_of_octal (h : IsOctal c) : escapeCode? c = none := by
  have disjoint : ∀ e ∈ escapes, ¬ ('0' ≤ e.1 ∧ e.1 ≤ '7') := by decide
  rw [Option.eq_none_iff_forall_ne_some]
  exact fun n hn => disjoint _ (escapeCode?_eq_some_iff.1 hn).1 h

theorem octal?_single_lt (h : octal? [c] = some n) : n < codeLimit := by
  obtain ⟨-, hoctal, rfl⟩ := octal?_eq_some_iff.1 h
  have hle : c.toNat ≤ '7'.toNat := (hoctal c List.mem_cons_self).2
  have hvalue : octalValue [c] = c.toNat - '0'.toNat := by simp [octalValue_eq_foldl]
  rw [hvalue]
  exact Nat.lt_of_le_of_lt (Nat.sub_le_sub_right hle _) (by decide)

theorem bodyCode?_escaped : bodyCode? ('\\' :: digits) = some n ↔
    (∃ c, digits = [c] ∧ escapeCode? c = some n) ∨ octal? digits = some n ∧ n < codeLimit := by
  match digits with
  | [] => simp [bodyCode?, octal?]
  | [c] =>
    cases hc : escapeCode? c with
    | none =>
      have hcode : bodyCode? ['\\', c] = octal? [c] := by simp [bodyCode?, hc]
      rw [hcode]
      refine ⟨fun h => .inr ⟨h, octal?_single_lt h⟩, ?_⟩
      rintro (⟨c', hc', hcode'⟩ | ⟨h, -⟩)
      · rw [(List.cons.inj hc').1, hcode'] at hc; cases hc
      · exact h
    | some m =>
      have hnone : octal? [c] = none := by
        rw [Option.eq_none_iff_forall_ne_some]
        intro k hk
        have := escapeCode?_eq_none_of_octal ((octal?_eq_some_iff.1 hk).2.1 c List.mem_cons_self)
        rw [hc] at this; cases this
      simp [bodyCode?, hc, hnone]
  | c :: c' :: digits => simp [bodyCode?, Option.filter_eq_some_iff]

/-- **The code of a body** is what it denotes, but for the escaped double quote. -/
theorem bodyCode?_eq_some_iff (h : body ≠ ['\\', '"']) :
    bodyCode? body = some n ↔ Denotes body n := by
  match body with
  | [] => exact ⟨(fun hcode => by cases hcode), fun hd => by cases hd⟩
  | c :: rest =>
    by_cases hc : c = '\\'
    · subst hc
      rw [bodyCode?_escaped, denotes_escaped_iff, octal?_eq_some_iff]
      refine or_congr (exists_congr fun c => and_congr_right ?_) (by simp [codeLimit, and_assoc])
      rintro rfl
      rw [escapeCode?_eq_some_iff]
      exact and_iff_left fun heq => h (by rw [heq])
    · match rest with
      | [] => rw [denotes_single_iff hc]; simp [bodyCode?]
      | c' :: rest =>
        refine ⟨fun hcode => ?_, fun hd => ?_⟩
        · unfold bodyCode? at hcode
          split at hcode
          · rename_i heq; exact absurd (List.cons.inj heq).1 hc
          · rename_i heq; cases heq
          · cases hcode
        · cases hd with
          | escape _ => exact absurd rfl hc
          | octal _ => exact absurd rfl hc

theorem bodyCode?_escaped_quote : bodyCode? ['\\', '"'] = none := by decide

/-! ## Literals -/

/-- A text of at least three bytes that begins and ends with a quote. -/
structure Quoted (name : String) : Prop where
  size_ge : 3 ≤ name.utf8ByteSize
  first : name.toList.head? = some '\''
  last : name.toList.getLast? = some '\''

/-- The text between the outer quotes. -/
def inner (name : String) : List Char :=
  name.toList.tail.dropLast

/-- Quoted texts are literals. -/
theorem Quoted.body? (h : Quoted name) : body? name = some (inner name) := by
  obtain ⟨hsize, hfirst, hlast⟩ := h
  rw [← String.ofList_toList (s := name)] at hsize
  unfold CharLiteral.body? inner
  match hname : name.toList with
  | [] => rw [hname] at hfirst; cases hfirst
  | [c] =>
    rw [hname] at hfirst hsize
    cases hfirst
    exact absurd hsize (by decide +kernel)
  | [c, c'] =>
    rw [hname] at hfirst hlast hsize
    cases hfirst
    cases hlast
    exact absurd hsize (by decide +kernel)
  | c :: c' :: c'' :: rest =>
    rw [hname] at hfirst hlast
    cases hfirst
    rw [List.getLast?_cons_cons] at hlast
    simp [hlast]

theorem ne_of_code? (hbody : body? name = some body) (h : code? name = some n) :
    body ≠ ['\\', '"'] := by
  rintro rfl
  rw [code?, hbody, Option.bind_some, bodyCode?_escaped_quote] at h
  cases h

/-- The code of a literal is what its body denotes, but for the escaped double quote. -/
theorem code?_eq_some_iff (hbody : body? name = some body) (hne : body ≠ ['\\', '"']) :
    code? name = some n ↔ Denotes body n := by
  rw [code?, hbody, Option.bind_some, bodyCode?_eq_some_iff hne]

end LRAutomata.Text.CharLiteral
