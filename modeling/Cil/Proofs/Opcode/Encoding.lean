import Cil.Opcode.Basic
import Cil.Proofs.Text.Decimal

/-!
# Encodings of operands

An index or a constant is encoded in one of three ways. Mnemonic, size and shown operand choose
between them by intervals of their own, and each interval is that of one encoding. So an operand is
shown exactly where it takes bytes, and operations with the same mnemonic have the same size. Main
statement: `Opcode.encodings_agree`.
-/

namespace Cil

/-- How an index or a constant is encoded. -/
inductive Encoding
  /-- It is part of the opcode. -/
  | implicit
  /-- It takes one byte. -/
  | short
  /-- It takes all bytes of its type. -/
  | full
  deriving DecidableEq, Repr

namespace Encoding

/-- The encoding of the index of an argument or a local. -/
def ofIndex (n : UInt16) : Encoding :=
  if n ≤ 3 then .implicit else if n ≤ 255 then .short else .full

/-- The encoding of an integer constant. -/
def ofConstant (n : Int32) : Encoding :=
  if -1 ≤ n ∧ n ≤ 8 then .implicit else if -128 ≤ n ∧ n ≤ 127 then .short else .full

/-- The mnemonic of an operation whose operand has this encoding; `value` names it when it is
implicit. -/
def mnemonic (base value : String) : Encoding → String
  | .implicit => base ++ "." ++ value
  | .short => base ++ ".s"
  | .full => base

/-- The operand where it is not part of the mnemonic. -/
def operand? (value : String) : Encoding → Option String
  | .implicit => none
  | .short => some value
  | .full => some value

/-- The size of an operation whose operand has this encoding, given that of the full one. -/
def size (full : Int32) : Encoding → Int32
  | .implicit => 1
  | .short => 2
  | .full => full

variable {e f : Encoding} {base v w : String}

private theorem isSome_operand?_iff {full : Int32} (h : 1 < full.toInt) :
    (e.operand? v).isSome ↔ 1 < (e.size full).toInt := by
  cases e with
  | implicit => simp [operand?, size]
  | short => simp [operand?, size]
  | full => simp [operand?, size, h]

/-- The mnemonic tells the encoding, unless an implicit operand has the name of the short form. -/
theorem eq_of_mnemonic (hv : v ≠ "s") (hw : w ≠ "s")
    (h : e.mnemonic base v = f.mnemonic base w) : e = f := by
  rw [← String.toList_inj] at h
  cases e <;> cases f
  case implicit.implicit | short.short | full.full => rfl
  case implicit.short =>
    have hs : v = "s" := by simpa [mnemonic, ← String.toList_inj] using h
    exact absurd hs hv
  case short.implicit =>
    have hs : w = "s" := by simpa [mnemonic, ← String.toList_inj, eq_comm] using h
    exact absurd hs hw
  case implicit.full | short.full | full.implicit | full.short => simp [mnemonic] at h

-- What stands behind a dot does not change what stands before the first one.
private theorem takeWhile_append_dot (l r : List Char) :
    (l ++ '.' :: r).takeWhile (· != '.') = l.takeWhile (· != '.') := by
  induction l with
  | nil => rfl
  | cons c l ih => rw [List.cons_append, List.takeWhile_cons, List.takeWhile_cons, ih]

private theorem takeWhile_mnemonic (e : Encoding) (base v : String) :
    (e.mnemonic base v).toList.takeWhile (· != '.') = base.toList.takeWhile (· != '.') := by
  cases e with
  | implicit => simpa [mnemonic] using takeWhile_append_dot base.toList v.toList
  | short => simpa [mnemonic] using takeWhile_append_dot base.toList ['s']
  | full => rfl

end Encoding

namespace Opcode

/-! ### The intervals -/

-- What is behind the first interval is where the second one begins.
private theorem four_le_of_not_le_three {n : UInt16} (h : ¬ n ≤ 3) : 4 ≤ n := by
  rw [UInt16.le_iff_toNat_le] at h ⊢
  exact Nat.lt_of_not_le h

/-- The mnemonic with an index is that of its encoding. -/
theorem indexedMnemonic_eq (base : String) (n : UInt16) :
    indexedMnemonic base n = (Encoding.ofIndex n).mnemonic base (toString n.toNat) := by
  unfold indexedMnemonic Encoding.ofIndex
  split
  · rfl
  · next h =>
    simp only [four_le_of_not_le_three h, true_and]
    split <;> rfl

private theorem indexedSize_eq (n : UInt16) : indexedSize n = (Encoding.ofIndex n).size 4 := by
  unfold indexedSize Encoding.ofIndex
  split
  · rfl
  · next h =>
    simp only [four_le_of_not_le_three h, true_and]
    split <;> rfl

/-- An index is shown as its encoding says. -/
theorem indexOperand?_eq (n : UInt16) :
    indexOperand? n = (Encoding.ofIndex n).operand? (toString n.toNat) := by
  unfold indexOperand? Encoding.ofIndex
  by_cases h : n ≤ 3
  · rw [if_neg (UInt16.not_lt.mpr h), if_pos h]
    rfl
  · rw [if_pos (UInt16.not_le.mp h), if_neg h]
    split <;> rfl

/-- The suffix that names an implicit constant. -/
def constantSuffix (n : Int32) : String := if n = -1 then "m1" else toString n.toInt

/-- The mnemonic with a constant is that of its encoding. -/
theorem constantMnemonic_eq (n : Int32) :
    constantMnemonic n = (Encoding.ofConstant n).mnemonic "ldc.i4" (constantSuffix n) := by
  unfold constantMnemonic Encoding.ofConstant constantSuffix
  by_cases h : n = -1
  · subst h
    decide
  · -- Without its first constant the interval of the implicit ones begins at zero.
    have hsmall : (0 ≤ n ∧ n ≤ 8) ↔ (-1 ≤ n ∧ n ≤ 8) := by
      have hne : n.toInt ≠ -1 := fun h' ↦ h (Int32.toInt_inj.mp h')
      have hzero : (0 : Int32).toInt = 0 := rfl
      have hone : (-1 : Int32).toInt = -1 := rfl
      rw [Int32.le_iff_toInt_le, Int32.le_iff_toInt_le, Int32.le_iff_toInt_le, hzero, hone]
      omega
    rw [if_neg h, if_neg h]
    simp only [hsmall]
    split
    · rfl
    · split <;> rfl

private theorem constantSize_eq (n : Int32) : constantSize n = (Encoding.ofConstant n).size 5 := by
  unfold constantSize Encoding.ofConstant
  split
  · rfl
  · split <;> rfl

/-- A constant is shown as its encoding says. -/
theorem constantOperand?_eq (n : Int32) :
    constantOperand? n = (Encoding.ofConstant n).operand? (toString n.toInt) := by
  unfold constantOperand? Encoding.ofConstant
  split
  · rfl
  · split <;> rfl

/-! ### Operations of one kind -/

/-- The operation is none of those that are known. -/
def isOther : Opcode → Bool
  | .other _ _ => true
  | _ => false

/-- What the mnemonics of an operation begin with, up to a dot. -/
def stem : Opcode → String
  | .nop => "nop"
  | .ldarg _ => "ldarg"
  | .ldloc _ => "ldloc"
  | .stloc _ => "stloc"
  | .ldcI4 _ => "ldc"
  | .ldstr _ => "ldstr"
  | .ldnull => "ldnull"
  | .ldfld _ => "ldfld"
  | .stfld _ => "stfld"
  | .call _ => "call"
  | .callvirt _ => "callvirt"
  | .newobj _ => "newobj"
  | .pop => "pop"
  | .dup => "dup"
  | .ret => "ret"
  | .throw => "throw"
  | .other mnemonic _ => mnemonic

/-- Both are the same known operation, with operands that may differ. -/
inductive Akin : Opcode → Opcode → Prop
  | nop : Akin .nop .nop
  | ldarg (m n : UInt16) : Akin (.ldarg m) (.ldarg n)
  | ldloc (m n : UInt16) : Akin (.ldloc m) (.ldloc n)
  | stloc (m n : UInt16) : Akin (.stloc m) (.stloc n)
  | ldcI4 (m n : Int32) : Akin (.ldcI4 m) (.ldcI4 n)
  | ldstr (s t : String) : Akin (.ldstr s) (.ldstr t)
  | ldnull : Akin .ldnull .ldnull
  | ldfld (s t : String) : Akin (.ldfld s) (.ldfld t)
  | stfld (s t : String) : Akin (.stfld s) (.stfld t)
  | call (s t : String) : Akin (.call s) (.call t)
  | callvirt (s t : String) : Akin (.callvirt s) (.callvirt t)
  | newobj (s t : String) : Akin (.newobj s) (.newobj t)
  | pop : Akin .pop .pop
  | dup : Akin .dup .dup
  | ret : Akin .ret .ret
  | throw : Akin .throw .throw

variable {a b : Opcode}

private theorem takeWhile_mnemonic (h : a.isOther = false) :
    a.mnemonic.toList.takeWhile (· != '.') = a.stem.toList := by
  cases a with
  | ldarg | ldloc | stloc =>
    rw [mnemonic, indexedMnemonic_eq, Encoding.takeWhile_mnemonic, stem]
    decide
  | ldcI4 n =>
    rw [mnemonic, constantMnemonic_eq, Encoding.takeWhile_mnemonic, stem]
    decide
  | other => cases h
  | _ => simp only [mnemonic, stem]; decide

/-- Known operations with the same mnemonic are of one kind. -/
theorem akin_of_mnemonic (ha : a.isOther = false) (hb : b.isOther = false)
    (h : a.mnemonic = b.mnemonic) : Akin a b := by
  have hstem : a.stem = b.stem := by
    rw [← String.toList_inj, ← takeWhile_mnemonic ha, ← takeWhile_mnemonic hb, h]
  cases a
  case other => cases ha
  all_goals
    cases b
    case other => cases hb
    -- Operations of two kinds have two stems.
    all_goals first
      | exact absurd hstem (by simp only [stem]; decide)
      | constructor

/-! ### Mnemonic, size and shown operand -/

private theorem toString_index_ne (n : UInt16) : toString n.toNat ≠ "s" := by
  intro h
  have hmem : 's' ∈ (toString n.toNat).toList := h ▸ List.mem_cons_self
  exact Text.notMem_toString_nat (by decide) _ hmem

private theorem constantSuffix_ne (n : Int32) : constantSuffix n ≠ "s" := by
  unfold constantSuffix
  split
  · decide
  · intro h
    have hmem : 's' ∈ (toString n.toInt).toList := h ▸ List.mem_cons_self
    exact Text.notMem_toString_int (by decide) (by decide) _ hmem

private theorem indexedSize_eq_of_mnemonic {base : String} {m n : UInt16}
    (h : indexedMnemonic base m = indexedMnemonic base n) : indexedSize m = indexedSize n := by
  rw [indexedMnemonic_eq, indexedMnemonic_eq] at h
  rw [indexedSize_eq, indexedSize_eq,
    Encoding.eq_of_mnemonic (toString_index_ne m) (toString_index_ne n) h]

private theorem constantSize_eq_of_mnemonic {m n : Int32}
    (h : constantMnemonic m = constantMnemonic n) : constantSize m = constantSize n := by
  rw [constantMnemonic_eq, constantMnemonic_eq] at h
  rw [constantSize_eq, constantSize_eq,
    Encoding.eq_of_mnemonic (constantSuffix_ne m) (constantSuffix_ne n) h]

/-- Known operations with the same mnemonic have the same size. -/
theorem size_eq_of_mnemonic (ha : a.isOther = false) (hb : b.isOther = false)
    (h : a.mnemonic = b.mnemonic) : a.size = b.size := by
  cases akin_of_mnemonic ha hb h with
  | ldarg m n | ldloc m n | stloc m n => exact indexedSize_eq_of_mnemonic h
  | ldcI4 m n => exact constantSize_eq_of_mnemonic h
  | _ => rfl

/-- A known operation has an operand to show exactly where it takes more than one byte. -/
theorem isSome_operand?_iff (h : a.isOther = false) : a.operand?.isSome ↔ 1 < a.size.toInt := by
  cases a with
  | ldarg n | ldloc n | stloc n =>
    rw [operand?, size, indexOperand?_eq, indexedSize_eq]
    exact Encoding.isSome_operand?_iff (by decide)
  | ldcI4 n =>
    rw [operand?, size, constantOperand?_eq, constantSize_eq]
    exact Encoding.isSome_operand?_iff (by decide)
  | other => cases h
  | _ => simp [operand?, size]

private theorem exists_assembly_eq_iff :
    (∃ operand, a.assembly = a.mnemonic ++ " " ++ operand) ↔ a.operand?.isSome := by
  unfold assembly
  cases a.operand? with
  | none => simp [← String.toList_inj]
  | some operand => simp

/-- Mnemonic, size and shown operand agree on the encoding. A known operation shows an operand
behind its mnemonic exactly where it takes more than one byte, and known operations with the same
mnemonic have the same size. Every operation, of whatever stated size, takes at least one byte. -/
theorem encodings_agree :
    (∀ op : Opcode, op.isOther = false →
      ((∃ operand, op.assembly = op.mnemonic ++ " " ++ operand) ↔ 1 < op.size.toInt)) ∧
    (∀ a b : Opcode, a.isOther = false → b.isOther = false → a.mnemonic = b.mnemonic →
      a.size = b.size) ∧
    ∀ op : Opcode, 1 ≤ op.size.toInt := by
  refine ⟨fun op h ↦ ?_, fun a b ↦ size_eq_of_mnemonic, one_le_size⟩
  rw [exists_assembly_eq_iff, isSome_operand?_iff h]

/-- The ends of the short form of constants, and an operation stated to take less than no byte. -/
theorem encodings_agree_ends :
    let low := ldcI4 (-128)
    let high := ldcI4 127
    (low.isOther = false ∧ high.isOther = false ∧ low.mnemonic = high.mnemonic) ∧
    (∃ operand, low.assembly = low.mnemonic ++ " " ++ operand) ∧ low.size = high.size ∧
    1 ≤ (other "unaligned." (-4)).size.toInt := by
  intro low high
  have hmnemonic : low.mnemonic = high.mnemonic := by decide
  have hsize : 1 < low.size.toInt := by decide
  obtain ⟨hshown, hsame, hone⟩ := encodings_agree
  exact ⟨⟨rfl, rfl, hmnemonic⟩, (hshown low rfl).mpr hsize, hsame low high rfl rfl hmnemonic,
    hone _⟩

end Opcode

end Cil
