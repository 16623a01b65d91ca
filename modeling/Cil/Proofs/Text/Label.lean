import Cil.Text.Hex

/-!
# Labels

The hexadecimal numerals of two numbers differ, also with zeros in front, and so do the labels of
two offsets: `Text.offsetLabel_inj`. What stands behind a label is found at the first separator.
-/

namespace Cil.Text

section Cut

variable {sep : Char} {l l' t t' : List Char}

private theorem takeWhile_append_of_notMem (hl : sep ∉ l) (ht : ∀ c ∈ t.head?, c = sep) :
    (l ++ t).takeWhile (· != sep) = l := by
  have hfront : ∀ c ∈ l, (c != sep) := fun c hc ↦ bne_iff_ne.mpr fun h ↦ hl (h ▸ hc)
  rw [List.takeWhile_append_of_pos hfront]
  cases t with
  | nil => simp
  | cons c t => simp [ht c rfl]

/-- Texts that are the same have the same parts in front of a separator and from there on. -/
theorem eq_of_append_of_notMem (hl : sep ∉ l) (hl' : sep ∉ l') (ht : ∀ c ∈ t.head?, c = sep)
    (ht' : ∀ c ∈ t'.head?, c = sep) (h : l ++ t = l' ++ t') : l = l' ∧ t = t' := by
  have hfront : l = l' := by
    rw [← takeWhile_append_of_notMem hl ht, h, takeWhile_append_of_notMem hl' ht']
  subst hfront
  exact ⟨rfl, List.append_cancel_left h⟩

end Cut

/-! ### Hexadecimal digits -/

/-- The value of a hexadecimal digit. -/
def hexDigit (c : Char) : Nat :=
  if c.isDigit then c.toNat - '0'.toNat else 10 + (c.toNat - 'a'.toNat)

/-- The value of hexadecimal digits. -/
def hexValue (cs : List Char) : Nat := cs.foldl (fun n c ↦ 16 * n + hexDigit c) 0

private theorem hexDigit_digitChar : ∀ d < 16, hexDigit d.digitChar = d := by decide

private theorem hexValue_toDigits (n : Nat) : hexValue (Nat.toDigits 16 n) = n := by
  induction n using Nat.base_induction 16 (by decide) with
  | single m hm =>
    rw [Nat.toDigits_of_lt_base hm]
    simp [hexValue, hexDigit_digitChar m hm]
  | digit m k hk hm ih =>
    rw [hexValue] at ih
    rw [← Nat.toDigits_append_toDigits (by decide) hm hk, Nat.toDigits_of_lt_base hk, hexValue,
      List.foldl_append, ih]
    simp [hexDigit_digitChar k hk]

private theorem hexValue_replicate_append (k : Nat) (cs : List Char) :
    hexValue (List.replicate k '0' ++ cs) = hexValue cs := by
  induction k with
  | zero => rfl
  | succ k ih => exact ih

/-- The numerals of two numbers differ. -/
theorem toDigits_inj {m n : Nat} : Nat.toDigits 16 m = Nat.toDigits 16 n ↔ m = n := by
  refine ⟨fun h ↦ ?_, congrArg _⟩
  rw [← hexValue_toDigits m, h, hexValue_toDigits]

/-- The padded numerals of two numbers differ. -/
theorem hexPadded_inj {width m n : Nat} : hexPadded width m = hexPadded width n ↔ m = n := by
  refine ⟨fun h ↦ ?_, congrArg _⟩
  have hchars := congrArg (fun s : String ↦ hexValue s.toList) h
  simpa only [hexPadded, List.leftpad, String.toList_ofList, hexValue_replicate_append,
    hexValue_toDigits] using hchars

/-- No numeral has a character that is no digit. -/
theorem notMem_toDigits {c : Char} (h : ∀ d < 16, d.digitChar ≠ c) (n : Nat) :
    c ∉ Nat.toDigits 16 n := by
  induction n using Nat.base_induction 16 (by decide) with
  | single m hm =>
    rw [Nat.toDigits_of_lt_base hm, List.mem_singleton]
    exact (h m hm).symm
  | digit m k hk hm ih =>
    rw [← Nat.toDigits_append_toDigits (by decide) hm hk, List.mem_append, not_or,
      Nat.toDigits_of_lt_base hk, List.mem_singleton]
    exact ⟨ih, (h k hk).symm⟩

/-- A label has no colon. -/
theorem colon_notMem_offsetLabel (offset : Int32) : ':' ∉ (offsetLabel offset).toList := by
  have hdigits := notMem_toDigits (c := ':') (by decide) offset.toUInt32.toNat
  simp [offsetLabel, hexPadded, List.leftpad, hdigits]

/-- The labels of two offsets differ, negative ones included. -/
theorem offsetLabel_inj {m n : Int32} : offsetLabel m = offsetLabel n ↔ m = n := by
  refine ⟨fun h ↦ ?_, congrArg _⟩
  have hnumeral : hexPadded 4 m.toUInt32.toNat = hexPadded 4 n.toUInt32.toNat := by
    rw [← String.toList_inj] at h ⊢
    simpa [offsetLabel] using h
  have hbits : m.toUInt32 = n.toUInt32 := UInt32.toNat_inj.mp (hexPadded_inj.mp hnumeral)
  exact congrArg Int32.ofUInt32 hbits

end Cil.Text
