import Cil.Json.Document
import Cil.Proofs.Text.Decimal
import Mathlib.Data.List.TakeWhile

/-!
# Integers in texts

The decimal numeral of an integer is a word of a JSON text, and denotes that integer where it fits
64 bits. A word ends at the next mark, so that the tokens of a text are found part by part.
-/

namespace Cil.Json

open Text (IsDecimal IsDigits)

namespace Numeral

variable {digits : List Char}

private theorem splitMinus_of_isDigits (h : IsDigits digits) :
    splitMinus digits = (false, digits) := by
  cases digits with
  | nil => rfl
  | cons c rest =>
    have hc : c ≠ '-' := fun hc ↦ absurd (h.isDigit c (.head _)) (by rw [hc]; decide)
    rw [splitMinus]
    grind

private theorem splitDigits_of_isDigits (h : IsDigits digits) :
    splitDigits digits = (digits, []) := by
  rw [splitDigits, List.takeWhile_eq_self_iff.mpr h.isDigit,
    List.dropWhile_eq_nil_iff.mpr h.isDigit]

private theorem isWhole_of_isDigits (h : IsDigits digits) : isWhole digits := by
  cases digits with
  | nil => exact absurd rfl h.ne_nil
  | cons c rest =>
    rw [isWhole]
    by_cases hc : c = '0'
    · subst hc
      rw [h.eq_nil_of_zero rest rfl]
      rfl
    · simp [hc]

private theorem ofChars?_of_isDigits (h : IsDigits digits) (negative : Bool) :
    ofChars? (if negative then '-' :: digits else digits) =
      some { negative, whole := digits, fraction := none, exponent := none } := by
  have hsplit : splitMinus (if negative then '-' :: digits else digits) = (negative, digits) := by
    cases negative with
    | false => exact splitMinus_of_isDigits h
    | true => rfl
  rw [ofChars?, hsplit]
  dsimp only
  rw [splitDigits_of_isDigits h]
  dsimp only
  rw [if_pos (isWhole_of_isDigits h)]
  rfl

private theorem integer?_of_lt (h : Nat.ofDigitChars 10 digits 0 < UInt64.size) :
    integer? { negative := false, whole := digits, fraction := none, exponent := none } =
      some (Nat.ofDigitChars 10 digits 0 : Int) := by
  change (if Nat.ofDigitChars 10 digits 0 < UInt64.size then
    some (Nat.ofDigitChars 10 digits 0 : Int) else none) = _
  rw [if_pos h]

private theorem integer?_neg_of_le (hpos : 0 < Nat.ofDigitChars 10 digits 0)
    (h : Nat.ofDigitChars 10 digits 0 ≤ Nat.pow 2 63) :
    integer? { negative := true, whole := digits, fraction := none, exponent := none } =
      some (-(Nat.ofDigitChars 10 digits 0 : Int)) := by
  change (if 0 < Nat.ofDigitChars 10 digits 0 ∧ Nat.ofDigitChars 10 digits 0 ≤ Nat.pow 2 63 then
    some (-(Nat.ofDigitChars 10 digits 0 : Int)) else none) = _
  rw [if_pos ⟨hpos, h⟩]

private theorem exists_number?_of_isDecimal {n : Int} {cs : List Char} (h : IsDecimal n cs)
    (hlow : -(Nat.pow 2 63 : Nat) ≤ n) (hhigh : n < UInt64.size) :
    ∃ numeral, ofChars? cs = some numeral ∧ numeral.number? = some (.int n) := by
  cases h with
  | natural hd =>
    refine ⟨_, ofChars?_of_isDigits hd false, ?_⟩
    rw [number?, integer?_of_lt (Int.ofNat_lt.mp hhigh)]
  | @negative digits hd hne =>
    refine ⟨_, ofChars?_of_isDigits hd true, ?_⟩
    rw [number?, integer?_neg_of_le (hd.ofDigitChars_pos hne)
      (Int.ofNat_le.mp (Int.neg_le_neg_iff.mp hlow))]

end Numeral

namespace Token

/-- The character goes on with a word. -/
def IsWordChar (c : Char) : Prop := isBlank c = false ∧ c ≠ '"' ∧ mark? c = none

/-- Numerals are words. -/
theorem isWordChar_of_isDecimal {n : Int} {cs : List Char} (h : IsDecimal n cs) :
    ∀ c ∈ cs, IsWordChar c := by
  intro c hc
  obtain hdigit | rfl := h.isDigit_or_eq hc
  · obtain ⟨k, hk, rfl⟩ := Text.exists_digitChar hdigit
    have hall : ∀ k < 10, isBlank k.digitChar = false ∧ k.digitChar ≠ '"' ∧
      (mark? k.digitChar).isNone := by decide
    obtain ⟨hblank, hquote, hmark⟩ := hall k hk
    exact ⟨hblank, hquote, Option.isNone_iff_eq_none.mp hmark⟩
  · exact ⟨rfl, by decide, rfl⟩

/-- The token of a decimal numeral is its integer, where that fits 64 bits. -/
theorem ofWord_of_isDecimal {n : Int} {cs : List Char} (h : IsDecimal n cs)
    (hlow : -(Nat.pow 2 63 : Nat) ≤ n) (hhigh : n < UInt64.size) :
    ofWord cs = .atom (.number (.int n)) := by
  have hword {w : List Char} {c : Char} (hc : c ∈ w) (hdigit : c.isDigit = false ∧ c ≠ '-') :
      cs ≠ w := by
    rintro rfl
    simpa [hdigit] using h.isDigit_or_eq hc
  obtain ⟨numeral, hnumeral, hnumber⟩ :=
    Numeral.exists_number?_of_isDecimal h hlow hhigh
  rw [ofWord, if_neg (hword (c := 'n') (by decide) (by decide)),
    if_neg (hword (c := 't') (by decide) (by decide)),
    if_neg (hword (c := 'f') (by decide) (by decide)), hnumeral]
  dsimp only
  rw [hnumber]

-- The characters of a word are read up to the next one that is not of it.
private theorem scan_word_append {w : List Char} (hw : ∀ c ∈ w, IsWordChar c)
    (read rest : List Char) :
    scan (.word read) (w ++ rest) = scan (.word (w.reverse ++ read)) rest := by
  induction w generalizing read with
  | nil => rfl
  | cons c w ih =>
    obtain ⟨⟨hblank, hquote, hmark⟩, hw⟩ := List.forall_mem_cons.mp hw
    rw [List.cons_append, scan, hblank, hmark]
    simp [hquote, ih hw]

/-- A word ends at a mark. -/
theorem scan_word {w : List Char} (hne : w ≠ []) (hw : ∀ c ∈ w, IsWordChar c) {m : Char}
    (hm : isBlank m = false ∧ m ≠ '"') {t : Token} (hmark : mark? m = some t) (rest : List Char) :
    scan .between (w ++ m :: rest) = ofWord w :: t :: scan .between rest := by
  cases w with
  | nil => exact absurd rfl hne
  | cons c w =>
    obtain ⟨⟨hblank, hquote, hnone⟩, hw⟩ := List.forall_mem_cons.mp hw
    rw [List.cons_append, scan, hblank, hnone]
    simp only [hquote, if_false, Bool.false_eq_true]
    rw [scan_word_append hw, scan, hm.1, hmark]
    simp [hm.2]

end Token

end Cil.Json
