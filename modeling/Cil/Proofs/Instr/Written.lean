import Cil.Code.Decode
import Cil.Proofs.Decode.Written

/-!
# Written instructions are read

The written forms of opcodes, instructions and code. An instruction is written without its
identity, so that what is read agrees with what was written up to identities.
-/

namespace Cil

open Decode (Entry Writing Yields Succeeds)

namespace Opcode

/-- A size of at least one byte. -/
def writtenSize : Writing Int32 where
  Writes n v := 1 ≤ n ∧ Writing.int32.Writes n v
  plain := id
  isWellFormed h := Writing.int32.isWellFormed h.2

/-- The mnemonic and the size of an operation that is not modelled. -/
def otherEntries : List (Entry (String × Int32)) := [
  .required "mnemonic" .string Prod.fst,
  .required "size" writtenSize Prod.snd]

/-- The operand is written like this beside the name of its opcode. -/
inductive Operand.Writes : Operand → Opcode → Json → Prop
  | null (op : Opcode) : Writes (.none op) op .null
  | index (make : UInt16 → Opcode) (n : UInt16) :
    Writes (.index make) (make n) (.number (.int n.toNat))
  | constant (make : Int32 → Opcode) (n : Int32) :
    Writes (.constant make) (make n) (.number (.int n.toInt))
  | text (make : String → Opcode) (s : String) : Writes (.text make) (make s) (.string s)
  | mnemonicAndSize {mnemonic : String} {size : Int32} {v : Json}
    (hv : (Writing.record otherEntries id).Writes (mnemonic, size) v) :
    Writes .mnemonicAndSize (.other mnemonic size) v

/-- The opcode is written like this. -/
inductive Writes (op : Opcode) : Json → Prop
  | alone {name : String} (hname : operandOf name = .ok (.none op)) : Writes op (.string name)
  | beside {name : String} {operand : Operand} {v : Json} (hname : operandOf name = .ok operand)
    (hv : operand.Writes op v) : Writes op (.object [(name, v)])

private theorem Operand.Writes.isWellFormed {operand : Operand} {op : Opcode} {v : Json}
    (h : operand.Writes op v) : v.isWellFormed := by
  cases h with
  | mnemonicAndSize hv => exact (Writing.record otherEntries id).isWellFormed hv
  | _ => rfl

/-- Opcodes. -/
def writing : Writing Opcode where
  Writes := Writes
  plain := id
  isWellFormed h := by
    cases h with
    | alone => rfl
    | beside _ hv => exact (Bool.and_eq_true _ _).mpr ⟨hv.isWellFormed, rfl⟩

private theorem reads_positiveSize : writtenSize.Reads positiveSize := by
  rintro n v ⟨hpos, hv⟩
  refine Succeeds.bind (Decode.reads_int32 n v hv) fun size hsize ↦ ?_
  obtain rfl : size = n := hsize
  have hnot : ¬ size < 1 := Int32.not_lt.mpr hpos
  rw [if_neg hnot]
  exact ⟨size, rfl, rfl⟩

private theorem implements_otherRecord : otherRecord.Implements otherEntries id where
  fields := by
    refine .cons ?mnemonic (.cons ?size .nil)
    case mnemonic =>
      exact Entry.readBy_of_put Decode.reads_string (fun _ ↦ rfl) (fun _ _ ↦ rfl)
        (by simp [otherEntries])
    case size =>
      exact Entry.readBy_of_put reads_positiveSize (fun _ ↦ rfl) (fun _ _ ↦ rfl)
        (by simp [otherEntries])
  nodup := by decide
  blank := by simp [otherEntries]
  ext a b h := Prod.ext (h _ (.head _)) (h _ (.tail _ (.head _)))

private theorem Operand.yields_decode {operand : Operand} {op : Opcode} {v : Json}
    (h : operand.Writes op v) : Yields (operand.decode v) (· = op) := by
  cases h with
  | null op => exact ⟨op, rfl, rfl⟩
  | index make n =>
    exact Decode.yields_map (Decode.reads_uint16 n _ rfl) fun b hb ↦ congrArg make hb
  | constant make n =>
    exact Decode.yields_map (Decode.reads_int32 n _ rfl) fun b hb ↦ congrArg make hb
  | text make s =>
    exact Decode.yields_map (Decode.reads_string s _ rfl) fun b hb ↦ congrArg make hb
  | mnemonicAndSize hv =>
    refine Succeeds.bind (implements_otherRecord.reads _ _ hv) fun b hb ↦ Succeeds.pure ?_
    obtain rfl := hb
    rfl

/-- Opcodes are read. -/
theorem reads : writing.Reads decode := by
  intro op v hv
  cases hv with
  | @alone name hname =>
    refine ⟨op, ?_, rfl⟩
    rw [decode, hname]
    rfl
  | @beside name operand v hname hv =>
    obtain ⟨_, hdecode, rfl⟩ := Operand.yields_decode hv
    refine ⟨_, ?_, rfl⟩
    rw [decode, hname]
    change (operand.decode v >>= fun op ↦ _) = _
    rw [hdecode]
    rfl

end Opcode

namespace Instr

/-- The instruction without its identity. -/
def anonymous (i : Instr) : Instr := { i with id := default }

/-- What is written of an instruction. -/
def entries : List (Entry (Int32 × Opcode)) := [
  .defaulted "offset" .int32 Prod.fst 0,
  .required "opcode" Opcode.writing Prod.snd]

/-- Instructions. -/
def writing : Writing Instr :=
  (Writing.record entries fun p ↦ p).part (fun i ↦ (i.offset, i.opcode)) anonymous

private theorem implements_record : record.Implements entries fun p ↦ p where
  fields := by
    refine .cons ?offset (.cons ?opcode .nil)
    case offset =>
      exact Entry.readBy_of_put Decode.reads_int32 nofun (fun _ _ ↦ rfl) (by simp [entries])
    case opcode =>
      exact Entry.readBy_of_put Opcode.reads (fun _ ↦ rfl) (fun _ _ ↦ rfl) (by simp [entries])
  nodup := by decide
  blank := by simp [entries, record]
  ext a b h := Prod.ext (h _ (.head _)) (h _ (.tail _ (.head _)))

/-- Instructions are read, each under an identity of its own. -/
theorem reads : writing.Reads decode := by
  intro i v hv
  have h : Yields (DecodeM.ofExcept (record.decode v)) (· = (i.offset, i.opcode)) :=
    Decode.yields_ofExcept (implements_record.reads _ _ hv)
  cases hv with
  | object =>
    refine Succeeds.bind h fun p hp ↦ Succeeds.bind Decode.yields_fresh fun id _ ↦ ?_
    subst hp
    exact Succeeds.pure rfl
  | array =>
    refine Succeeds.bind Decode.yields_fresh fun id _ ↦ Succeeds.bind h fun p hp ↦ ?_
    subst hp
    exact Succeeds.pure rfl

end Instr

namespace Code

/-- The code without identities. -/
def anonymous (c : Code) : Code := ⟨c.toList.map Instr.anonymous⟩

/-- Code, written as the list of its instructions. -/
def writing : Writing Code := Instr.writing.list.part (·.toList) anonymous

/-- Code is read. -/
theorem reads : writing.Reads decode := by
  intro c v hv
  exact Decode.yields_map (Decode.reads_list Instr.reads c.toList v hv) fun l hl ↦
    congrArg Code.mk hl

end Code

end Cil
