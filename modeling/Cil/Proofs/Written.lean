import Cil.Metadata.Store
import Cil.OffsetRange
import Cil.Options.Load
import Cil.Proofs.Metadata.Written

/-!
# Every written form is read

A value has many written forms: a record is an object of its fields in any order, with members of
other names among them, or an array of its fields; fields may be left out when they have their
default; and the forms of the parts are chosen one by one. The texts of all of them decode to the
value, up to the identities that are handed out: `decodes_of_writesText`.
-/

namespace Cil

open Decode (Entry Form Writing)

namespace OffsetRange

/-- What is written of a range. -/
def entries : List (Entry OffsetRange) := [
  .required "from" .int32 (·.first),
  .required "to" .int32 (·.last)]

/-- Ranges. -/
def writing : Writing OffsetRange := .record entries id

/-- The fields of a range read what is written of it. -/
theorem implements_record : record.Implements entries id where
  fields := by
    refine .cons ?first (.cons ?last .nil)
    case first =>
      exact Entry.readBy_of_put Decode.reads_int32 (fun _ ↦ rfl) (fun _ _ ↦ rfl)
        (by simp [entries])
    case last =>
      exact Entry.readBy_of_put Decode.reads_int32 (fun _ ↦ rfl) (fun _ _ ↦ rfl)
        (by simp [entries])
  nodup := by decide
  blank := by simp [entries]
  ext a b h := congrArg₂ OffsetRange.mk (h _ (.head _)) (h _ (.tail _ (.head _)))

end OffsetRange

namespace Options

/-- What is written of options. -/
def entries : List (Entry Options) := [
  .defaulted "async_state_machine_attribute" .string (·.asyncAttribute) default.asyncAttribute,
  .defaulted "async_state_machine_interface" .string (·.asyncInterface) default.asyncInterface,
  .defaulted "recompute_offsets_after_insert" .bool (·.relayoutAfterInsert)
    default.relayoutAfterInsert]

/-- Options. -/
def writing : Writing Options := .record entries id

/-- The fields of options read what is written of them. -/
theorem implements_record : record.Implements entries id where
  fields := by
    refine .cons ?asyncAttribute (.cons ?asyncInterface (.cons ?relayout .nil))
    case asyncAttribute =>
      exact Entry.readBy_of_put Decode.reads_string nofun (fun _ _ ↦ rfl) (by simp [entries])
    case asyncInterface =>
      exact Entry.readBy_of_put Decode.reads_string nofun (fun _ _ ↦ rfl) (by simp [entries])
    case relayout =>
      exact Entry.readBy_of_put Decode.reads_bool nofun (fun _ _ ↦ rfl) (by simp [entries])
  nodup := by decide
  blank := by simp [entries, record]
  ext a b h := by
    simp only [entries, List.forall_mem_cons] at h
    obtain ⟨hattribute, hinterface, hrelayout, -⟩ := h
    rw [id_eq, id_eq, Options.mk.injEq]
    exact ⟨hattribute, hinterface, hrelayout⟩

end Options

variable {α : Type} {w : Writing α}

/-- Where all of a value is written, its texts decode to the value itself. -/
theorem Decode.text_of_writesText {decode : Json → Except DecodeError α} (h : w.Reads decode)
    (hplain : ∀ a, w.plain a = a) {a : α} {s : String} (hs : w.WritesText a s) :
    Decode.text decode s = .ok a := by
  obtain ⟨b, hb, hplainb⟩ := Decode.reads_text h hs
  rw [hplain, hplain] at hplainb
  rw [hb, hplainb]

/-- With any supply of identities, the texts of a value decode to that value, up to what is not
written. -/
theorem DecodeM.runText_of_writesText {decode : Json → DecodeM α} (h : w.Reads decode) {a : α}
    {s : String} (hs : w.WritesText a s) (supply : Supply) :
    ∃ b rest, DecodeM.runText decode s supply = (.ok b, rest) ∧ w.plain b = w.plain a :=
  Decode.reads_text h hs supply

/-- Every text that is a written form of a value decodes to that value, with any supply up to the
identities that are handed out: ranges, options, opcodes with the content of those that are not
modelled, instructions, attributes, method bodies, methods, properties, types and whole documents,
also as stores. -/
theorem decodes_of_writesText (text : String) (place : Position) (supply : Supply) :
    (∀ r, OffsetRange.writing.WritesText r text → Decode.text OffsetRange.decode text = .ok r) ∧
    (∀ o, Options.writing.WritesText o text → Options.parse text place = .ok o) ∧
    (∀ op, Opcode.writing.WritesText op text → Decode.text Opcode.decode text = .ok op) ∧
    (∀ i, Instr.writing.WritesText i text → ∃ j rest,
      DecodeM.runText Instr.decode text supply = (.ok j, rest) ∧ j.anonymous = i.anonymous) ∧
    (∀ a, Attribute.writing.WritesText a text → ∃ rest,
      DecodeM.runText Attribute.decode text supply = (.ok a, rest)) ∧
    (∀ b, MethodBody.writing.WritesText b text → ∃ c rest,
      DecodeM.runText MethodBody.decode text supply = (.ok c, rest) ∧
        c.anonymous = b.anonymous) ∧
    (∀ m, MethodDef.writing.WritesText m text → ∃ n rest,
      DecodeM.runText MethodDef.decode text supply = (.ok n, rest) ∧
        n.anonymous = m.anonymous) ∧
    (∀ p, PropertyDef.writing.WritesText p text → ∃ q rest,
      DecodeM.runText PropertyDef.decode text supply = (.ok q, rest) ∧
        q.anonymous = p.anonymous) ∧
    (∀ d, TypeDef.writing.WritesText d text → ∃ e rest,
      DecodeM.runText TypeDef.decode text supply = (.ok e, rest) ∧ e.anonymous = d.anonymous) ∧
    (∀ ds, TypeDef.documentWriting.WritesText ds text → ∃ es rest,
      DecodeM.runText TypeDef.decodeDocument text supply = (.ok es, rest) ∧
        Store.parse text place supply = (.ok (Store.loadAll es .empty), rest) ∧
        es.map TypeDef.anonymous = ds.map TypeDef.anonymous) := by
  refine ⟨fun r hr ↦ ?range, fun o ho ↦ ?options, fun op hop ↦ ?opcode, fun i hi ↦ ?instr,
    fun a ha ↦ ?attr, fun b hb ↦ ?body, fun m hm ↦ ?method, fun p hp ↦ ?property,
    fun d hd ↦ ?type, fun ds hds ↦ ?document⟩
  case range =>
    exact Decode.text_of_writesText OffsetRange.implements_record.reads (fun _ ↦ rfl) hr
  case options =>
    rw [Options.parse, Options.decode,
      Decode.text_of_writesText Options.implements_record.reads (fun _ ↦ rfl) ho]
    rfl
  case opcode => exact Decode.text_of_writesText Opcode.reads (fun _ ↦ rfl) hop
  case instr => exact DecodeM.runText_of_writesText Instr.reads hi supply
  case attr =>
    obtain ⟨b, rest, hb, rfl⟩ :=
      DecodeM.runText_of_writesText Attribute.implements_record.reads ha supply
    exact ⟨rest, hb⟩
  case body => exact DecodeM.runText_of_writesText MethodBody.implements_record.reads hb supply
  case method => exact DecodeM.runText_of_writesText MethodDef.implements_record.reads hm supply
  case property =>
    exact DecodeM.runText_of_writesText PropertyDef.implements_record.reads hp supply
  case type => exact DecodeM.runText_of_writesText TypeDef.implements_record.reads hd supply
  case document =>
    obtain ⟨es, rest, hes, hplain⟩ :=
      DecodeM.runText_of_writesText TypeDef.implements_documentRecord.reads hds supply
    refine ⟨es, rest, hes, ?_, hplain⟩
    rw [Store.parse, TypeDef.decodeDocument, hes]

namespace WrittenForms

/-- An operation that is not modelled, and a return behind it. -/
def code : Code := ⟨[⟨default, 0, .other "x" 2⟩, ⟨default, 7, .ret⟩]⟩

/-- A method of the code. -/
def method : MethodDef where
  name := "M"
  isAbstract := false
  body := some ⟨code⟩
  attributes := []

/-- A property that can be set. -/
def property : PropertyDef := { name := "P", getter := none, setter := some (.abstract "S") }

/-- A type with the method, the property and an attribute. -/
def type : TypeDef where
  fullName := "N.T"
  base := none
  interfaces := []
  methods := [method]
  properties := [property]
  attributes := [⟨.named "N.A"⟩]

/-- A document of the type, an object as some of its parts, while the others are arrays. -/
def document : String := "\x7b\"v\":[null,\x7b\"a\":0\x7d],\"types\":[[\"N.T\",null,[]," ++
  "[\x7b\"body\":[[\x7b\"opcode\":\x7b\"other\":[\"x\",2]\x7d\x7d,[7,\"ret\"]]]," ++
  "\"k\":\"\\ud800\",\"name\":\"M\"\x7d],[\x7b\"set_method\":[\"S\",true]," ++
  "\"name\":\"P\"\x7d],[[\"N.A\"]]]]\x7d"

private def codeForm : Json := .array [
  .object [("opcode", .object [("other", .array [.string "x", .number (.int 2)])])],
  .array [.number (.int 7), .string "ret"]]

private def methodForm : Json :=
  .object [("body", .array [codeForm]), ("k", .flaw .unreadable), ("name", .string "M")]

private def propertyForm : Json :=
  .object [("set_method", .array [.string "S", .bool true]), ("name", .string "P")]

private def typeForm : Json := .array [.string "N.T", .null, .array [], .array [methodForm],
  .array [propertyForm], .array [.array [.string "N.A"]]]

set_option maxRecDepth 8000 in
private theorem ofText_document : Json.Document.ofText document = {
    root := .object [
      ("v", .array [.null, .object [("a", .number (.int 0))]]),
      ("types", .array [typeForm])]
    isWhole := true } := by
  rfl

private theorem writes_code : Code.writing.Writes code codeForm := by
  have hsize : Opcode.writtenSize.Writes 2 (.number (.int 2)) := ⟨by decide, rfl⟩
  have hoperand : (Writing.record Opcode.otherEntries id).Writes ("x", 2)
      (.array [.string "x", .number (.int 2)]) :=
    Form.array (.entry rfl (.entry hsize (.nil nofun)))
  have hother : Instr.writing.Writes ⟨default, 0, .other "x" 2⟩
      (.object [("opcode", .object [("other", .array [.string "x", .number (.int 2)])])]) :=
    Form.object (.given 1 (by decide) (Opcode.Writes.beside rfl (.mnemonicAndSize hoperand))
      (.nil (by simp [Instr.entries, Entry.Omits])))
  have hret : Instr.writing.Writes ⟨default, 7, .ret⟩ (.array [.number (.int 7), .string "ret"]) :=
    Form.array (.entry rfl (.entry (Opcode.Writes.alone rfl) (.nil (List.forall_mem_nil _))))
  exact ⟨_, rfl, .cons hother (.cons hret .nil)⟩

private theorem writes_method : MethodDef.writing.Writes method methodForm := by
  have hbody : MethodBody.writing.Writes ⟨code⟩ (.array [codeForm]) :=
    Form.array (.entry writes_code (.nil nofun))
  exact Form.object (.given 2 (by decide) hbody (.other (by decide) rfl
    (.given 0 (by decide) rfl (.nil (by simp [MethodDef.entries, Entry.Omits, method])))))

private theorem writes_property : PropertyDef.writing.Writes property propertyForm := by
  have hsetter : MethodDef.writing.Writes (.abstract "S") (.array [.string "S", .bool true]) :=
    Form.array (.entry rfl (.entry rfl
      (.nil (by simp [Entry.Omits, MethodDef.abstract]))))
  exact Form.object (.given 2 (by decide) hsetter (.given 0 (by decide) rfl
    (.nil (by simp [PropertyDef.entries, Entry.Omits, property]))))

private theorem writes_type : TypeDef.writing.Writes type typeForm := by
  have hattribute : Attribute.writing.Writes ⟨.named "N.A"⟩ (.array [.string "N.A"]) :=
    Form.array (.entry ⟨rfl, rfl⟩ (.nil nofun))
  exact Form.array (.entry rfl (.entry rfl (.entry ⟨_, rfl, .nil⟩
    (.entry ⟨_, rfl, .cons writes_method .nil⟩ (.entry ⟨_, rfl, .cons writes_property .nil⟩
      (.entry ⟨_, rfl, .cons hattribute .nil⟩ (.nil nofun)))))))

private theorem writesText_document : TypeDef.documentWriting.WritesText [type] document := by
  rw [Writing.WritesText, ofText_document]
  refine ⟨rfl, by decide, ?_⟩
  exact Form.object (.other (by decide) rfl
    (.given 0 (by decide) ⟨_, rfl, .cons writes_type .nil⟩ (.nil nofun)))

/-- A range as an object with its last offset first. -/
def range : String := "\x7b\"to\":5,\"note\":[],\"from\":-3\x7d"

/-- Options as an array of the only setting that is not the default. -/
def options : String := "[\"Awaits\"]"

set_option maxRecDepth 4000 in
private theorem ofText_range : Json.Document.ofText range = {
    root := .object [
      ("to", .number (.int 5)), ("note", .array []), ("from", .number (.int (-3)))]
    isWhole := true } := by
  rfl

private theorem writesText_range : OffsetRange.writing.WritesText ⟨-3, 5⟩ range := by
  rw [Writing.WritesText, ofText_range]
  refine ⟨rfl, by decide, ?_⟩
  exact Form.object (.given 1 (by decide) rfl (.other (by decide) rfl
    (.given 0 (by decide) rfl (.nil nofun))))

private theorem writesText_options :
    Options.writing.WritesText { Options.default with asyncAttribute := "Awaits" } options :=
  ⟨by decide +kernel, by decide +kernel,
    Form.array (.entry rfl (.nil (by simp [Entry.Omits])))⟩

/-- A document, a range and options in forms of their own come to what they are forms of. -/
theorem decodes_document_range_options :
    TypeDef.documentWriting.WritesText [type] document ∧
    OffsetRange.writing.WritesText ⟨-3, 5⟩ range ∧
    Options.writing.WritesText { Options.default with asyncAttribute := "Awaits" } options ∧
    (∃ es rest, DecodeM.runText TypeDef.decodeDocument document .full = (.ok es, rest) ∧
      Store.parse document ⟨1, 1⟩ .full = (.ok (Store.loadAll es .empty), rest) ∧
      es.map TypeDef.anonymous = [type].map TypeDef.anonymous) ∧
    Decode.text OffsetRange.decode range = .ok ⟨-3, 5⟩ ∧
    Options.parse options ⟨1, 1⟩ = .ok { Options.default with asyncAttribute := "Awaits" } := by
  obtain ⟨-, -, -, -, -, -, -, -, -, hdocument⟩ := decodes_of_writesText document ⟨1, 1⟩ .full
  obtain ⟨hrange, -⟩ := decodes_of_writesText range ⟨1, 1⟩ .full
  obtain ⟨-, hoptions, -⟩ := decodes_of_writesText options ⟨1, 1⟩ .full
  exact ⟨writesText_document, writesText_range, writesText_options,
    hdocument _ writesText_document, hrange _ writesText_range, hoptions _ writesText_options⟩

end WrittenForms

end Cil
