import Cil.Text.Hex

/-!
# Decimal numerals

Every integer has one decimal numeral, which is what it is shown as: `Text.isDecimal_iff`.
-/

namespace Cil.Text

/-- The digits of a natural number: at least one, and no zero in front of others. -/
structure IsDigits (cs : List Char) : Prop where
  ne_nil : cs ≠ []
  isDigit : ∀ c ∈ cs, c.isDigit
  eq_nil_of_zero : ∀ rest, cs = '0' :: rest → rest = []

/-- The decimal numeral of an integer: its digits, behind a minus if it is negative. -/
inductive IsDecimal : Int → List Char → Prop
  | natural {digits : List Char} (h : IsDigits digits) :
    IsDecimal (Nat.ofDigitChars 10 digits 0) digits
  | negative {digits : List Char} (h : IsDigits digits) (hne : digits ≠ ['0']) :
    IsDecimal (-Nat.ofDigitChars 10 digits 0) ('-' :: digits)

/-- A decimal digit is that of a number below ten. -/
theorem exists_digitChar {c : Char} (h : c.isDigit) : ∃ k < 10, c = k.digitChar := by
  have hrange : 48 ≤ c.toNat ∧ c.toNat ≤ 57 := Char.isDigit_iff_toNat.mp h
  refine ⟨c.toNat - 48, by omega, ?_⟩
  rw [← Char.toNat_inj, Nat.toNat_digitChar_of_lt_ten (by omega)]
  omega

private theorem head?_toDigits_ne {n : Nat} (h : 0 < n) : (Nat.toDigits 10 n).head? ≠ some '0' := by
  induction n using Nat.base_induction 10 (by decide) with
  | single m hm => simp [Nat.toDigits_of_lt_base hm, Nat.ne_of_gt h]
  | digit m k hk hm ih =>
    rw [← Nat.toDigits_append_toDigits (by decide) hm hk, List.head?_append,
      Option.or_of_isSome (by simp)]
    exact ih hm

private theorem isDigits_toDigits (n : Nat) : IsDigits (Nat.toDigits 10 n) where
  ne_nil := Nat.toDigits_ne_nil
  isDigit _ := Nat.isDigit_of_mem_toDigits (by decide) (by decide)
  eq_nil_of_zero rest h := by
    cases n with
    | zero => simpa [eq_comm] using h
    | succ n => exact absurd (congrArg List.head? h) (head?_toDigits_ne n.succ_pos)

private theorem toDigits_ofDigitChars_of_pos {cs : List Char} (h : ∀ c ∈ cs, c.isDigit) {n : Nat}
    (hn : 0 < n) : Nat.toDigits 10 (Nat.ofDigitChars 10 cs n) = Nat.toDigits 10 n ++ cs := by
  induction cs generalizing n with
  | nil => simp
  | cons c cs ih =>
    rw [List.forall_mem_cons] at h
    obtain ⟨k, hk, rfl⟩ := exists_digitChar h.1
    calc Nat.toDigits 10 (Nat.ofDigitChars 10 (k.digitChar :: cs) n)
      _ = Nat.toDigits 10 (10 * n + k) ++ cs := by
        rw [Nat.ofDigitChars_cons_digitChar_of_lt_ten hk, ih h.2 (by omega)]
      _ = Nat.toDigits 10 n ++ k.digitChar :: cs := by
        rw [← Nat.toDigits_append_toDigits (by decide) hn hk, Nat.toDigits_of_lt_base hk,
          List.append_assoc, List.singleton_append]

private theorem toDigits_ofDigitChars {cs : List Char} (h : IsDigits cs) :
    Nat.toDigits 10 (Nat.ofDigitChars 10 cs 0) = cs := by
  cases cs with
  | nil => exact absurd rfl h.ne_nil
  | cons c cs =>
    obtain ⟨hc, hcs⟩ := List.forall_mem_cons.mp h.isDigit
    obtain ⟨k, hk, rfl⟩ := exists_digitChar hc
    rw [Nat.ofDigitChars_cons_digitChar_of_lt_ten hk, Nat.mul_zero, Nat.zero_add]
    obtain rfl | hpos := k.eq_zero_or_pos
    · obtain rfl := h.eq_nil_of_zero cs rfl
      rfl
    · rw [toDigits_ofDigitChars_of_pos hcs hpos, Nat.toDigits_of_lt_base hk,
        List.singleton_append]

/-- Digits make up a positive number unless they are a zero. -/
theorem IsDigits.ofDigitChars_pos {cs : List Char} (h : IsDigits cs) (hne : cs ≠ ['0']) :
    0 < Nat.ofDigitChars 10 cs 0 := by
  refine Nat.pos_of_ne_zero fun h0 ↦ hne ?_
  rw [← toDigits_ofDigitChars h, h0, Nat.toDigits_zero]

private theorem toList_toString_natCast (n : Nat) :
    (toString (n : Int)).toList = Nat.toDigits 10 n := by
  simp [Int.repr_eq_if]

private theorem toList_toString_neg {n : Nat} (h : 0 < n) :
    (toString (-(n : Int))).toList = '-' :: Nat.toDigits 10 n := by
  have hneg : ¬ 0 ≤ -(n : Int) := by omega
  rw [Int.toString_eq_repr, Int.repr_eq_if, if_neg hneg]
  simp

/-- The decimal numeral of an integer is what it is shown as. -/
theorem isDecimal_iff {n : Int} {cs : List Char} : IsDecimal n cs ↔ cs = (toString n).toList := by
  constructor
  · rintro (⟨h⟩ | ⟨h, hne⟩)
    · rw [toList_toString_natCast, toDigits_ofDigitChars h]
    · rw [toList_toString_neg (h.ofDigitChars_pos hne), toDigits_ofDigitChars h]
  · rintro rfl
    cases n with
    | ofNat m =>
      rw [Int.ofNat_eq_natCast, toList_toString_natCast]
      simpa using IsDecimal.natural (isDigits_toDigits m)
    | negSucc m =>
      have hne : Nat.toDigits 10 (m + 1) ≠ ['0'] := fun h ↦
        head?_toDigits_ne m.succ_pos (congrArg List.head? h)
      rw [Int.negSucc_eq, ← Int.natCast_succ, toList_toString_neg m.succ_pos]
      simpa using IsDecimal.negative (isDigits_toDigits (m + 1)) hne

/-- Every integer has a decimal numeral. -/
theorem isDecimal_toString (n : Int) : IsDecimal n (toString n).toList := isDecimal_iff.mpr rfl

/-- A numeral is that of one integer. -/
theorem IsDecimal.eq {m n : Int} {cs : List Char} (h : IsDecimal m cs) (h' : IsDecimal n cs) :
    m = n := by
  cases h with
  | natural hd =>
    cases h' with
    | natural => rfl
    | negative => exact absurd (hd.isDigit '-' (.head _)) (by decide)
  | negative =>
    cases h' with
    | natural hd' => exact absurd (hd'.isDigit '-' (.head _)) (by decide)
    | negative => rfl

/-- Integers that are shown alike are the same. -/
theorem toString_int_inj {m n : Int} : toString m = toString n ↔ m = n := by
  refine ⟨fun h ↦ ?_, congrArg _⟩
  exact (isDecimal_toString m).eq (h ▸ isDecimal_toString n)

/-- Natural numbers that are shown alike are the same. -/
theorem toString_nat_inj {m n : Nat} : toString m = toString n ↔ m = n := by
  have hcast (k : Nat) : toString (k : Int) = toString k := by
    rw [← String.toList_inj, toList_toString_natCast, Nat.toString_eq_repr, Nat.toList_repr]
  rw [← hcast m, ← hcast n, toString_int_inj, Int.ofNat_inj]

/-- A numeral is not empty. -/
theorem IsDecimal.ne_nil {n : Int} {cs : List Char} (h : IsDecimal n cs) : cs ≠ [] := by
  cases h with
  | natural hd => exact hd.ne_nil
  | negative => exact List.cons_ne_nil _ _

/-- A numeral consists of digits behind what may be a minus. -/
theorem IsDecimal.isDigit_or_eq {n : Int} {cs : List Char} (h : IsDecimal n cs) {c : Char}
    (hc : c ∈ cs) : c.isDigit ∨ c = '-' := by
  cases h with
  | natural hd => exact .inl (hd.isDigit c hc)
  | negative hd =>
    obtain rfl | hc := List.mem_cons.mp hc
    · exact .inr rfl
    · exact .inl (hd.isDigit c hc)

/-- A shown natural number has only digits. -/
theorem notMem_toString_nat {c : Char} (h : c.isDigit = false) (n : Nat) :
    c ∉ (toString n).toList := by
  rw [Nat.toString_eq_repr, Nat.toList_repr]
  intro hc
  have hdigit : c.isDigit = true := Nat.isDigit_of_mem_toDigits (by decide) (by decide) hc
  simp [h] at hdigit

/-- A shown integer has only digits and what may be a minus. -/
theorem notMem_toString_int {c : Char} (h : c.isDigit = false) (hminus : c ≠ '-') (n : Int) :
    c ∉ (toString n).toList := by
  intro hc
  obtain hdigit | hc := (isDecimal_toString n).isDigit_or_eq hc
  · simp [h] at hdigit
  · exact hminus hc

end Cil.Text
