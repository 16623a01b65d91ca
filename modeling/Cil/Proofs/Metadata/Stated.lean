import Cil.Proofs.Decode.Stated
import Cil.Proofs.Metadata.Written

/-!
# Definitions come from their written forms only

Every value that a decoder of opcodes, instructions or definitions comes to is written by what it is
decoded from, `TypeDef.isReadByDocument` for a whole document. Together with the other direction
the written forms are all that there is to know of a decoder that succeeds.
-/

namespace Cil

open Decode (Entry Field Gives Inverts Writing)

variable {v : Json}

/-! ### Instructions -/

namespace Opcode

private theorem isReadBy_positiveSize : writtenSize.IsReadBy positiveSize := by
  intro n v h
  obtain ⟨size, hsize, h⟩ := Inverts.bind (m := Except DecodeError) h
  by_cases hsmall : size < 1
  · rw [if_pos hsmall] at h
    cases h
  · rw [if_neg hsmall] at h
    obtain rfl := Except.ok.inj h
    exact ⟨Int32.not_lt.mp hsmall, Decode.isReadBy_int32 hsize⟩

private theorem isGivenBy_otherRecord : otherRecord.IsGivenBy otherEntries where
  fields := by
    refine .cons ?mnemonic (.cons ?size .nil)
    case mnemonic =>
      exact Entry.givenBy_required Decode.isReadBy_string (fun _ _ ↦ rfl) (by simp [otherEntries])
    case size =>
      exact Entry.givenBy_required isReadBy_positiveSize (fun _ _ ↦ rfl) (by simp [otherEntries])
  nodup := by decide
  blank := by simp [otherEntries]

private theorem Operand.writes_of_gives {operand : Operand} {op : Opcode}
    (h : Gives (operand.decode v) op) : operand.Writes op v := by
  cases operand with
  | none =>
    obtain ⟨⟨⟩, hv, h⟩ := Inverts.bind h
    obtain rfl := Inverts.pure h
    cases v with
    | null => exact .null _
    | _ => cases hv
  | index make =>
    obtain ⟨n, hn, rfl⟩ := Decode.exists_of_gives_map h
    obtain rfl := Decode.isReadBy_uint16 hn
    exact .index make n
  | constant make =>
    obtain ⟨n, hn, rfl⟩ := Decode.exists_of_gives_map h
    obtain rfl := Decode.isReadBy_int32 hn
    exact .constant make n
  | text make =>
    obtain ⟨s, hs, rfl⟩ := Decode.exists_of_gives_map h
    obtain rfl := Decode.isReadBy_string hs
    exact .text make s
  | mnemonicAndSize =>
    obtain ⟨⟨mnemonic, size⟩, hv, h⟩ := Inverts.bind h
    obtain rfl := Inverts.pure h
    exact .mnemonicAndSize (isGivenBy_otherRecord.isReadBy id hv)

/-- Opcodes are decoded from nothing but their written forms. -/
theorem isReadBy : writing.IsReadBy decode := by
  intro op v h
  cases v with
  | string name =>
    obtain ⟨operand, hname, h⟩ := Inverts.bind (m := Except DecodeError) h
    cases operand with
    | none op' =>
      obtain rfl := Except.ok.inj h
      exact .alone hname
    | _ => cases h
  | object members =>
    cases members with
    | nil => cases h
    | cons member rest =>
      obtain ⟨name, v⟩ := member
      obtain ⟨operand, hname, h⟩ := Inverts.bind (m := Except DecodeError) h
      obtain ⟨op', hop, h⟩ := Inverts.bind (m := Except DecodeError) h
      cases rest with
      | nil =>
        obtain rfl := Except.ok.inj h
        exact .beside hname (Operand.writes_of_gives hop)
      | cons _ _ => cases h
  | torn members tail =>
    cases members with
    | nil => cases h
    | cons member rest =>
      obtain ⟨_, -, h⟩ := Inverts.bind (m := Except DecodeError) h
      obtain ⟨_, -, h⟩ := Inverts.bind (m := Except DecodeError) h
      cases h
  | _ => cases h

end Opcode

namespace Instr

private theorem isGivenBy_record : record.IsGivenBy entries where
  fields := by
    refine .cons ?offset (.cons ?opcode .nil)
    case offset =>
      exact Entry.givenBy_defaulted Decode.isReadBy_int32 (fun _ _ ↦ rfl) (by simp [entries])
    case opcode =>
      exact Entry.givenBy_required Opcode.isReadBy (fun _ _ ↦ rfl) (by simp [entries])
  nodup := by decide
  blank := by simp [entries, record]

/-- Instructions are decoded from nothing but their written forms. -/
theorem isReadBy : writing.IsReadBy decode := by
  intro i v h
  have hrecord {p : Int32 × Opcode} (hp : Gives (DecodeM.ofExcept (record.decode v)) p) :
      (Writing.record entries fun p ↦ p).Writes p v :=
    Decode.isReadBy_ofExcept (isGivenBy_record.isReadBy _) hp
  cases v with
  | array items =>
    obtain ⟨id, -, h⟩ := Inverts.bind h
    obtain ⟨⟨offset, opcode⟩, hp, h⟩ := Inverts.bind h
    obtain rfl := Inverts.pure h
    exact hrecord hp
  | _ =>
    obtain ⟨⟨offset, opcode⟩, hp, h⟩ := Inverts.bind h
    obtain ⟨id, -, h⟩ := Inverts.bind h
    obtain rfl := Inverts.pure h
    exact hrecord hp

end Instr

/-- Code is decoded from nothing but its written forms. -/
theorem Code.isReadBy : writing.IsReadBy decode := by
  intro c v h
  obtain ⟨l, hl, rfl⟩ := Decode.exists_of_gives_map h
  exact Decode.isReadBy_list Instr.isReadBy hl

/-! ### Definitions -/

/-- References are decoded from nothing but their written forms. -/
theorem TypeRef.isReadBy : TypeRef.writing.IsReadBy TypeRef.decodeM := by
  apply Decode.isReadBy_ofExcept
  intro t v h
  exact (decode_eq_ok_iff.mp h).symm

namespace Attribute

private theorem isGivenBy_record : record.IsGivenBy entries where
  fields := by
    refine .cons ?type .nil
    exact Entry.givenBy_required TypeRef.isReadBy (fun _ _ ↦ rfl) (by simp [entries])
  nodup := by decide
  blank := by simp [entries]

private theorem isReadBy : writing.IsReadBy decode := isGivenBy_record.isReadBy _

end Attribute

namespace MethodBody

private theorem isGivenBy_record : record.IsGivenBy entries where
  fields := by
    refine .cons ?code .nil
    exact Entry.givenBy_defaulted Code.isReadBy (fun _ _ ↦ rfl) (by simp [entries])
  nodup := by decide
  blank := by simp [entries, record]

/-- Method bodies are decoded from nothing but their written forms. -/
theorem isReadBy : writing.IsReadBy decode := isGivenBy_record.isReadBy _

end MethodBody

namespace MethodDef

private theorem isGivenBy_record : record.IsGivenBy entries where
  fields := by
    refine .cons ?name (.cons ?isAbstract (.cons ?body (.cons ?attributes .nil)))
    case name =>
      exact Entry.givenBy_required (Decode.isReadBy_ofExcept Decode.isReadBy_string) (fun _ _ ↦ rfl)
        (by simp [entries])
    case isAbstract =>
      exact Entry.givenBy_defaulted (Decode.isReadBy_ofExcept Decode.isReadBy_bool) (fun _ _ ↦ rfl)
        (by simp [entries])
    case body =>
      exact Entry.givenBy_defaulted (Decode.isReadBy_optional MethodBody.isReadBy) (fun _ _ ↦ rfl)
        (by simp [entries])
    case attributes =>
      exact Entry.givenBy_defaulted (Decode.isReadBy_list Attribute.isReadBy) (fun _ _ ↦ rfl)
        (by simp [entries])
  nodup := by decide
  blank := by simp [entries, record]

/-- Methods are decoded from nothing but their written forms. -/
theorem isReadBy : writing.IsReadBy decode := isGivenBy_record.isReadBy _

end MethodDef

namespace PropertyDef

private theorem isGivenBy_record : record.IsGivenBy entries where
  fields := by
    have haccessor : MethodDef.writing.optional.IsReadBy (Decode.optional MethodDef.decode) :=
      Decode.isReadBy_optional MethodDef.isReadBy
    refine .cons ?name (.cons ?getter (.cons ?setter .nil))
    case name =>
      exact Entry.givenBy_required (Decode.isReadBy_ofExcept Decode.isReadBy_string) (fun _ _ ↦ rfl)
        (by simp [entries])
    case getter =>
      exact Entry.givenBy_defaulted haccessor (fun _ _ ↦ rfl) (by simp [entries])
    case setter =>
      exact Entry.givenBy_defaulted haccessor (fun _ _ ↦ rfl) (by simp [entries])
  nodup := by decide
  blank := by simp [entries, record]

/-- Properties are decoded from nothing but their written forms. -/
theorem isReadBy : writing.IsReadBy decode := isGivenBy_record.isReadBy _

end PropertyDef

namespace TypeDef

private theorem isGivenBy_record : record.IsGivenBy entries where
  fields := by
    refine .cons ?fullName (.cons ?base (.cons ?interfaces (.cons ?methods (.cons ?properties
      (.cons ?attributes .nil)))))
    case fullName =>
      exact Entry.givenBy_required (Decode.isReadBy_ofExcept Decode.isReadBy_string) (fun _ _ ↦ rfl)
        (by simp [entries])
    case base =>
      exact Entry.givenBy_defaulted (Decode.isReadBy_optional TypeRef.isReadBy) (fun _ _ ↦ rfl)
        (by simp [entries])
    case interfaces =>
      exact Entry.givenBy_defaulted (Decode.isReadBy_list TypeRef.isReadBy) (fun _ _ ↦ rfl)
        (by simp [entries])
    case methods =>
      exact Entry.givenBy_defaulted (Decode.isReadBy_list MethodDef.isReadBy) (fun _ _ ↦ rfl)
        (by simp [entries])
    case properties =>
      exact Entry.givenBy_defaulted (Decode.isReadBy_list PropertyDef.isReadBy) (fun _ _ ↦ rfl)
        (by simp [entries])
    case attributes =>
      exact Entry.givenBy_defaulted (Decode.isReadBy_list Attribute.isReadBy) (fun _ _ ↦ rfl)
        (by simp [entries])
  nodup := by decide
  blank := by simp [entries, record, ofName]

/-- Types are decoded from nothing but their written forms. -/
theorem isReadBy : writing.IsReadBy decode := isGivenBy_record.isReadBy _

private theorem isGivenBy_documentRecord : documentRecord.IsGivenBy documentEntries where
  fields := by
    refine .cons ?types .nil
    exact Entry.givenBy_defaulted (Decode.isReadBy_list isReadBy) (fun _ _ ↦ rfl)
      (by simp [documentEntries])
  nodup := by decide
  blank := by simp [documentEntries, documentRecord]

/-- Documents are decoded from nothing but their written forms. -/
theorem isReadByDocument : documentWriting.IsReadBy decodeDocument :=
  isGivenBy_documentRecord.isReadBy _

end TypeDef

end Cil
