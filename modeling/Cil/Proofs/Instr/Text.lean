import Cil.Instr.Basic
import Cil.Proofs.Opcode.Encoding
import Cil.Proofs.Text.Quoted

/-!
# Lines of a code listing

The line of an instruction shows where it stands and what it does: instructions of known operations
with the same line have the same offset and the same opcode, operand included. For this it does not
matter how the literal of a string is quoted. Main statement: `Instr.text_identifies`.
-/

namespace Cil

namespace Encoding

private theorem eq_or_eq {e f : Encoding} {base v v' w w' : String}
    (hmnemonic : e.mnemonic base v = f.mnemonic base v') (hoperand : e.operand? w = f.operand? w') :
    v = v' ∨ w = w' := by
  cases e <;> cases f <;> simp_all [mnemonic, operand?]

private theorem blank_notMem_mnemonic {e : Encoding} {base v : String} (hbase : ' ' ∉ base.toList)
    (hv : ' ' ∉ v.toList) : ' ' ∉ (e.mnemonic base v).toList := by
  cases e <;> simp [mnemonic, hbase, hv]

end Encoding

namespace Opcode

/-- The operand as text, with the literal of a string quoted in some way. -/
def operandWith? (quote : String → String) : Opcode → Option String
  | .ldstr literal => some (quote literal)
  | op => op.operand?

/-- The assembly text, with the literal of a string quoted in some way. -/
def assemblyWith (quote : String → String) (op : Opcode) : String :=
  match op.operandWith? quote with
  | some operand => op.mnemonic ++ " " ++ operand
  | none => op.mnemonic

private theorem assemblyWith_quote (op : Opcode) : op.assemblyWith Text.quote = op.assembly := by
  cases op <;> rfl

variable {quote : String → String} {a b : Opcode}

private theorem blank_notMem_constantSuffix (n : Int32) : ' ' ∉ (constantSuffix n).toList := by
  unfold constantSuffix
  split
  · decide
  · exact Text.notMem_toString_int (by decide) (by decide) _

private theorem constantSuffix_inj {m n : Int32} : constantSuffix m = constantSuffix n ↔ m = n := by
  -- No numeral has the letter of the suffix of -1.
  have hletter (k : Int32) : toString k.toInt ≠ "m1" := fun h ↦ absurd
    (h ▸ List.mem_cons_self : 'm' ∈ _) (Text.notMem_toString_int (by decide) (by decide) k.toInt)
  refine ⟨fun h ↦ ?_, congrArg _⟩
  unfold constantSuffix at h
  split at h <;> split at h
  case isTrue.isTrue hm hn => exact hm.trans hn.symm
  case isTrue.isFalse => exact absurd h.symm (hletter n)
  case isFalse.isTrue => exact absurd h (hletter m)
  case isFalse.isFalse => exact Int32.toInt_inj.mp (Text.toString_int_inj.mp h)

private theorem blank_notMem_mnemonic (h : a.isOther = false) : ' ' ∉ a.mnemonic.toList := by
  cases a with
  | ldarg | ldloc | stloc =>
    rw [mnemonic, indexedMnemonic_eq]
    exact Encoding.blank_notMem_mnemonic (by decide) (Text.notMem_toString_nat (by decide) _)
  | ldcI4 n =>
    rw [mnemonic, constantMnemonic_eq]
    exact Encoding.blank_notMem_mnemonic (by decide) (blank_notMem_constantSuffix n)
  | other => cases h
  | _ => simp only [mnemonic]; decide

private theorem index_inj {m n : UInt16} {base : String}
    (hmnemonic : indexedMnemonic base m = indexedMnemonic base n)
    (hoperand : indexOperand? m = indexOperand? n) : m = n := by
  rw [indexedMnemonic_eq, indexedMnemonic_eq] at hmnemonic
  rw [indexOperand?_eq, indexOperand?_eq] at hoperand
  have hshown : toString m.toNat = toString n.toNat :=
    (Encoding.eq_or_eq hmnemonic hoperand).elim id id
  exact UInt16.toNat_inj.mp (Text.toString_nat_inj.mp hshown)

private theorem constant_inj {m n : Int32} (hmnemonic : constantMnemonic m = constantMnemonic n)
    (hoperand : constantOperand? m = constantOperand? n) : m = n := by
  rw [constantMnemonic_eq, constantMnemonic_eq] at hmnemonic
  rw [constantOperand?_eq, constantOperand?_eq] at hoperand
  obtain hsuffix | hshown := Encoding.eq_or_eq hmnemonic hoperand
  · exact constantSuffix_inj.mp hsuffix
  · exact Int32.toInt_inj.mp (Text.toString_int_inj.mp hshown)

/-- Mnemonic and operand identify an operation. -/
theorem eq_of_mnemonic_of_operand (hquote : ∀ s, Text.Quotes (quote s) s)
    (ha : a.isOther = false) (hb : b.isOther = false) (hmnemonic : a.mnemonic = b.mnemonic)
    (hoperand : a.operandWith? quote = b.operandWith? quote) : a = b := by
  cases akin_of_mnemonic ha hb hmnemonic with
  | nop | ldnull | pop | dup | ret | throw => rfl
  | ldarg m n | ldloc m n | stloc m n => exact congrArg _ (index_inj hmnemonic hoperand)
  | ldcI4 m n => exact congrArg _ (constant_inj hmnemonic hoperand)
  | ldstr s t =>
    have hquoted : quote s = quote t := Option.some.inj hoperand
    exact congrArg _ ((hquote s).unique (hquoted ▸ hquote t))
  | ldfld s t | stfld s t | call s t | callvirt s t | newobj s t =>
    exact congrArg _ (Option.some.inj hoperand)

/-- What stands behind a mnemonic: the operand behind a blank, if there is one. -/
def behind : Option String → List Char
  | some operand => ' ' :: operand.toList
  | none => []

private theorem behind_inj {o o' : Option String} : behind o = behind o' ↔ o = o' := by
  cases o <;> cases o' <;> simp [behind, String.toList_inj]

private theorem toList_assemblyWith (quote : String → String) (op : Opcode) :
    (op.assemblyWith quote).toList = op.mnemonic.toList ++ behind (op.operandWith? quote) := by
  unfold assemblyWith
  cases op.operandWith? quote <;> simp [behind]

/-- The assembly text identifies an operation: its first blank, if any, is the one in front of the
operand. -/
theorem assemblyWith_inj (hquote : ∀ s, Text.Quotes (quote s) s) (ha : a.isOther = false)
    (hb : b.isOther = false) : a.assemblyWith quote = b.assemblyWith quote ↔ a = b := by
  have hbehind (o : Option String) : ∀ c ∈ (behind o).head?, c = ' ' := by
    cases o <;> simp [behind]
  refine ⟨fun h ↦ ?_, congrArg _⟩
  rw [← String.toList_inj, toList_assemblyWith, toList_assemblyWith] at h
  obtain ⟨hfront, hback⟩ := Text.eq_of_append_of_notMem (blank_notMem_mnemonic ha)
    (blank_notMem_mnemonic hb) (hbehind _) (hbehind _) h
  exact eq_of_mnemonic_of_operand hquote ha hb (String.toList_inj.mp hfront) (behind_inj.mp hback)

end Opcode

namespace Instr

variable {i j : Instr}

/-- The line of a code listing, with the literal of a string quoted in some way. -/
def textWith (quote : String → String) (i : Instr) : String :=
  Text.offsetLabel i.offset ++ ": " ++ i.opcode.assemblyWith quote

private theorem textWith_quote (i : Instr) : i.textWith Text.quote = i.text := by
  rw [textWith, text, assembly, Opcode.assemblyWith_quote]

/-- The line identifies offset and opcode: its first colon is the one behind the offset. -/
theorem textWith_inj {quote : String → String} (hquote : ∀ s, Text.Quotes (quote s) s)
    (hi : i.opcode.isOther = false) (hj : j.opcode.isOther = false) :
    i.textWith quote = j.textWith quote ↔ i.offset = j.offset ∧ i.opcode = j.opcode := by
  have hchars (k : Instr) : (k.textWith quote).toList =
      (Text.offsetLabel k.offset).toList ++ ':' :: ' ' :: (k.opcode.assemblyWith quote).toList := by
    simp [textWith]
  constructor
  · intro h
    rw [← String.toList_inj, hchars, hchars] at h
    obtain ⟨hfront, hback⟩ := Text.eq_of_append_of_notMem (Text.colon_notMem_offsetLabel _)
      (Text.colon_notMem_offsetLabel _) (by simp) (by simp) h
    have hassembly : i.opcode.assemblyWith quote = j.opcode.assemblyWith quote := by
      simpa [String.toList_inj] using hback
    exact ⟨Text.offsetLabel_inj.mp (String.toList_inj.mp hfront),
      (Opcode.assemblyWith_inj hquote hi hj).mp hassembly⟩
  · rintro ⟨hoffset, hopcode⟩
    rw [textWith, textWith, hoffset, hopcode]

/-- The line of an instruction of a known operation identifies its offset, over all offsets, and its
opcode with the operand. It does so in whichever way literals are quoted. -/
theorem text_identifies (hi : i.opcode.isOther = false) (hj : j.opcode.isOther = false) :
    (i.text = j.text ↔ i.offset = j.offset ∧ i.opcode = j.opcode) ∧
    ∀ quote : String → String, (∀ s, Text.Quotes (quote s) s) →
      (i.textWith quote = j.textWith quote ↔ i.offset = j.offset ∧ i.opcode = j.opcode) := by
  refine ⟨?_, fun quote hquote ↦ textWith_inj hquote hi hj⟩
  rw [← textWith_quote, ← textWith_quote]
  exact textWith_inj Text.quotes_quote hi hj

/-- A line break and a backslash with the letter that it is shown by make two lines. -/
theorem text_identifies_line_break :
    let i : Instr := ⟨⟨1⟩, -1, .ldstr "\n"⟩
    let j : Instr := ⟨⟨2⟩, -1, .ldstr "\\n"⟩
    i.text ≠ j.text ∧ i.textWith Text.quote ≠ j.textWith Text.quote := by
  intro i j
  have hne : ¬ (i.offset = j.offset ∧ i.opcode = j.opcode) := by decide
  have hboth := text_identifies (i := i) (j := j) rfl rfl
  exact ⟨fun h ↦ hne (hboth.1.mp h), fun h ↦ hne ((hboth.2 _ Text.quotes_quote).mp h)⟩

end Instr

end Cil
