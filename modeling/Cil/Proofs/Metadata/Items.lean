import Cil.Proofs.Decode.Items
import Cil.Proofs.Decode.Stated
import Cil.Proofs.Json.Query
import Cil.Proofs.Metadata.Copy

/-!
# Instructions and definitions one by one

Code is decoded instruction by instruction, and a metadata document definition by definition: each
as a text of its own would be, the first bad one giving the error. The identities are taken from
the supply on the way and ascend in all code. Main statement: `decodes_item_by_item`.
-/

namespace Cil

open Decode (DecodesAlone FailsAlone Field Gives ItemByItem)
open Json (valuesOf)

/-! ### Identities in order -/

namespace Instr

variable {v : Json} {i : Instr} {s t : Supply}

private theorem of_outcome_decode (h : (decode v).outcome s = (.ok i, t)) :
    i.id = ⟨s.next⟩ ∧ t = ⟨s.next + 1⟩ := by
  rcases hr : record.decode v with e | ⟨offset, opcode⟩
  · cases v <;> simp [decode, DecodeM.outcome_bind, DecodeM.outcome_map, Except.map, hr] at h
  · have hgiven : (decode v).outcome s = (.ok ⟨⟨s.next⟩, offset, opcode⟩, ⟨s.next + 1⟩) := by
      cases v <;>
        simp [decode, DecodeM.outcome_bind, DecodeM.outcome_map, Except.map, hr, Supply.take]
    rw [hgiven] at h
    cases h
    exact ⟨rfl, rfl⟩

/-- Instructions that are decoded one after the other have the identities that were next, in
order. -/
theorem ids_of_mapM {items : List Json} {l : List Instr}
    (h : (items.mapM decode).outcome s = (.ok l, t)) :
    l.map (·.id.val) = List.range' s.next items.length ∧ t.next = s.next + items.length := by
  induction items generalizing l s with
  | nil =>
    obtain ⟨rfl, rfl⟩ : l = [] ∧ t = s := by simpa [eq_comm] using h
    exact ⟨rfl, rfl⟩
  | cons v rest ih =>
    rw [List.mapM_cons, DecodeM.outcome_bind] at h
    rcases hi : (decode v).outcome s with ⟨e | i, u⟩
    · rw [hi] at h
      cases congrArg Prod.fst h
    · rw [hi] at h
      obtain ⟨hid, rfl⟩ := of_outcome_decode hi
      simp only [DecodeM.outcome_bind] at h
      rcases hrest : (rest.mapM decode).outcome ⟨s.next + 1⟩ with ⟨e | l', w⟩
      · rw [hrest] at h
        cases congrArg Prod.fst h
      · rw [hrest] at h
        obtain ⟨rfl, rfl⟩ : i :: l' = l ∧ w = t := by simpa using h
        obtain ⟨hids, hnext⟩ := ih hrest
        refine ⟨?_, ?_⟩
        · rw [List.map_cons, hid, hids, List.length_cons, List.range'_succ]
        · rw [hnext, List.length_cons]
          dsimp only
          omega

end Instr

/-- The identities of the code ascend. -/
def Code.IsNumbered (c : Code) : Prop := (c.toList.map (·.id.val)).Pairwise (· < ·)

private theorem Code.isNumbered_of_gives {v : Json} {c : Code} (h : Gives (decode v) c) :
    c.IsNumbered := by
  obtain ⟨l, ⟨s, t, hl⟩, rfl⟩ := Decode.exists_of_gives_map h
  cases v with
  | array items =>
    rw [IsNumbered, (Instr.ids_of_mapM hl).1]
    exact List.pairwise_lt_range'
  | _ => cases congrArg Prod.fst hl

private theorem MethodBody.isNumbered_of_gives {v : Json} {b : MethodBody}
    (h : Gives (decode v) b) :
    b.code.IsNumbered := by
  have h : Gives (record.decode v) b := h
  refine Decode.Record.of_gives (P := fun b ↦ b.code.IsNumbered) ?_ ?_ h
  · rw [record, List.forall_mem_singleton]
    exact Field.keeps_of_put fun v c hc _ _ ↦ Code.isNumbered_of_gives hc
  · exact .nil

private theorem MethodDef.isNumbered_of_gives {v : Json} {m : MethodDef} (h : Gives (decode v) m) :
    ∀ c ∈ m.codes, c.IsNumbered := by
  have h : Gives (record.decode v) m := h
  refine Decode.Record.of_gives (P := fun m ↦ ∀ c ∈ m.codes, c.IsNumbered) ?_
    (List.forall_mem_nil _) h
  simp only [record, List.forall_mem_cons, List.not_mem_nil, false_implies, implies_true, and_true]
  refine ⟨?name, ?isAbstract, ?body, ?attributes⟩
  case body =>
    apply Field.keeps_of_put
    intro v body hbody m _
    show ∀ c ∈ body.toList.map (·.code), c.IsNumbered
    rw [List.forall_mem_map]
    intro b hb
    obtain ⟨u, hu⟩ := Decode.exists_of_gives_optional hbody b (Option.mem_toList.mp hb)
    exact MethodBody.isNumbered_of_gives hu
  all_goals exact Field.keeps_of_put fun _ _ _ _ hm ↦ hm

private theorem PropertyDef.isNumbered_of_gives {v : Json} {p : PropertyDef}
    (h : Gives (decode v) p) :
    ∀ c ∈ p.codes, c.IsNumbered := by
  have haccessor {v : Json} {o : Option MethodDef}
      (ho : Gives (Decode.optional MethodDef.decode v) o) :
      ∀ c ∈ o.toList.flatMap MethodDef.codes, c.IsNumbered := by
    rw [List.forall_mem_flatMap]
    intro m hm
    obtain ⟨u, hu⟩ := Decode.exists_of_gives_optional ho m (Option.mem_toList.mp hm)
    exact MethodDef.isNumbered_of_gives hu
  have h : Gives (record.decode v) p := h
  refine Decode.Record.of_gives (P := fun p ↦ ∀ c ∈ p.codes, c.IsNumbered) ?_
    (List.forall_mem_nil _) h
  simp only [record, List.forall_mem_cons, List.not_mem_nil, false_implies, implies_true, and_true]
  refine ⟨?name, ?getter, ?setter⟩
  case name => exact Field.keeps_of_put fun _ _ _ _ hp ↦ hp
  case getter =>
    apply Field.keeps_of_put
    intro v o ho p hp
    exact List.forall_mem_append.mpr ⟨haccessor ho, (List.forall_mem_append.mp hp).2⟩
  case setter =>
    apply Field.keeps_of_put
    intro v o ho p hp
    exact List.forall_mem_append.mpr ⟨(List.forall_mem_append.mp hp).1, haccessor ho⟩

/-- The identities in the methods and the accessors of a decoded type ascend. -/
theorem TypeDef.isNumbered_of_gives {v : Json} {d : TypeDef} (h : Gives (decode v) d) :
    ∀ c ∈ d.codes, c.IsNumbered := by
  have h : Gives (record.decode v) d := h
  refine Decode.Record.of_gives (P := fun d ↦ ∀ c ∈ d.codes, c.IsNumbered) ?_
    (List.forall_mem_nil _) h
  simp only [record, List.forall_mem_cons, List.not_mem_nil, false_implies, implies_true, and_true]
  refine ⟨?fullName, ?base, ?interfaces, ?methods, ?properties, ?attributes⟩
  case methods =>
    apply Field.keeps_of_put
    intro v methods hmethods d hd
    refine List.forall_mem_append.mpr ⟨?_, (List.forall_mem_append.mp hd).2⟩
    rw [List.forall_mem_flatMap]
    intro m hm
    obtain ⟨u, hu⟩ := Decode.exists_of_gives_list hmethods m hm
    exact MethodDef.isNumbered_of_gives hu
  case properties =>
    apply Field.keeps_of_put
    intro v properties hproperties d hd
    refine List.forall_mem_append.mpr ⟨(List.forall_mem_append.mp hd).1, ?_⟩
    rw [List.forall_mem_flatMap]
    intro p hp
    obtain ⟨u, hu⟩ := Decode.exists_of_gives_list hproperties p hp
    exact PropertyDef.isNumbered_of_gives hu
  all_goals exact Field.keeps_of_put fun _ _ _ _ hd ↦ hd

/-! ### Documents -/

namespace TypeDef

variable {items : List Json} {v : Json}

/-- The value is a document with these items as its types. -/
def ListedIn (items : List Json) : Json → Prop
  | .object members => valuesOf "types" members = [.array items]
  | .array values => values = [.array items]
  | _ => False

private theorem ListedIn.mem_children (h : ListedIn items v) : .array items ∈ v.children := by
  cases v with
  | object members =>
    have hmem : .array items ∈ valuesOf "types" members := by
      rw [show valuesOf "types" members = _ from h]
      exact List.mem_singleton_self _
    obtain ⟨m, hm, hvalue⟩ := List.mem_map.mp hmem
    exact List.mem_map.mpr ⟨m, List.mem_of_mem_filter hm, hvalue⟩
  | array values =>
    obtain rfl : values = [.array items] := h
    exact List.mem_singleton_self _
  | _ => exact h.elim

private theorem decodeDocument_eq (h : ListedIn items v) (hv : v.isWellFormed) :
    decodeDocument v = items.mapM decode := by
  have htypes : (((fun l (_ : List TypeDef) ↦ l) <$> items.mapM decode) >>=
      fun update ↦ pure (update [])) = items.mapM decode := by
    rw [bind_map_left, bind_pure]
  cases v with
  | object members =>
    have hknown (m : String × Json) : (documentRecord.field? m.1).isSome = (m.1 == "types") := by
      rw [Decode.Record.field?, List.isSome_find?, documentRecord]
      simp [Field.defaulted, eq_comm]
    have hmembers : members.filter (fun m ↦ (documentRecord.field? m.1).isSome) =
        [("types", .array items)] := by
      simp only [hknown]
      obtain ⟨⟨name, v⟩, hfilter, hvalue⟩ := List.map_eq_singleton_iff.mp h
      have hmem : (name, v) ∈ members.filter fun m ↦ m.1 == "types" :=
        hfilter ▸ List.mem_singleton_self _
      obtain rfl : name = "types" := beq_iff_eq.mp (List.mem_filter.mp hmem).2
      obtain rfl : v = .array items := hvalue
      exact hfilter
    rw [decodeDocument, Decode.Record.decode, ← Decode.Record.ofMembers_filter hv, hmembers]
    exact htypes
  | array values =>
    obtain rfl : values = [.array items] := h
    exact htypes
  | _ => exact h.elim

end TypeDef

/-- The identities of definitions, on the way from one supply to a later one. -/
structure TypeDef.Numbered (s t : Supply) (ds : List TypeDef) : Prop where
  /-- They are new, and none is used twice. -/
  fresh : ∀ d ∈ ds, d.ids ≤ s.issued t
  /-- Those of later definitions are later. -/
  across : ds.Pairwise fun d e ↦ ∀ i ∈ d.ids, ∀ j ∈ e.ids, i.val < j.val
  /-- In all code they ascend. -/
  within : ∀ d ∈ ds, ∀ c ∈ d.codes, c.IsNumbered

section Texts

variable {text : String} {supply rest : Supply} {items : List Json}

-- The items of a list in a document are well formed as it is, and nested no deeper.
private theorem isWellFormed_of_mem (h : (Json.array items).isWellFormed)
    (hdepth : (Json.array items).depth ≤ Decode.depthLimit) :
    ∀ v ∈ items, v.isWellFormed ∧ v.depth ≤ Decode.depthLimit := by
  intro v hv
  have hmem : v ∈ (Json.array items).children := hv
  exact ⟨Json.lacks_of_mem_children h hmem, (Json.depth_lt_of_mem_children hmem).le.trans hdepth⟩

private theorem isWellFormed_root {d : Json.Document} (h : d.isWellFormed) : d.root.isWellFormed :=
  ((Bool.and_eq_true _ _).mp h).2

/-- Code is decoded instruction by instruction. -/
theorem Code.itemByItem (hwell : (Json.Document.ofText text).isWellFormed)
    (hdepth : (Json.Document.ofText text).root.depth ≤ Decode.depthLimit)
    (hroot : (Json.Document.ofText text).root = .array items) :
    ItemByItem Instr.decode Instr.anonymous items
      ((DecodeM.runText decode text supply).1.map toList) := by
  have hlist : (Json.array items).isWellFormed := hroot ▸ isWellFormed_root hwell
  apply Decode.itemByItem_of_mapM Instr.alike_decode (isWellFormed_of_mem hlist (hroot ▸ hdepth))
  rw [Decode.outcome_of_runText hwell hdepth, hroot, decode, DecodeM.outcome_map, Decode.list]
  cases ((items.mapM Instr.decode).outcome supply).1 <;> rfl

/-- The message of code with a bad item is the sentence of its error, and then the place at which
the reader stopped. -/
theorem Code.mapError_runText {e : DecodeError}
    (h : (DecodeM.runText decode text supply).1.map toList = .error e) (place : Position) :
    (DecodeM.runText decode text supply).1.mapError (·.messageAt place) =
      .error (e.message ++ place.text) := by
  cases hrun : (DecodeM.runText decode text supply).1 with
  | error e' =>
    rw [hrun] at h
    obtain rfl := Except.error.inj h
    rfl
  | ok c =>
    rw [hrun] at h
    cases h

/-- The identities of decoded code are the next ones of the supply, in order. -/
theorem Code.ids_of_runText (hwell : (Json.Document.ofText text).isWellFormed)
    (hdepth : (Json.Document.ofText text).root.depth ≤ Decode.depthLimit)
    (hroot : (Json.Document.ofText text).root = .array items) {c : Code}
    (hc : DecodeM.runText decode text supply = (.ok c, rest)) :
    c.toList.map (·.id.val) = List.range' supply.next items.length ∧
      rest.next = supply.next + items.length := by
  rw [Decode.outcome_of_runText hwell hdepth, hroot, decode, DecodeM.outcome_map,
    Decode.list] at hc
  rcases hl : (items.mapM Instr.decode).outcome supply with ⟨e | l, t⟩
  · rw [hl] at hc
    cases hc
  · rw [hl] at hc
    cases hc
    exact Instr.ids_of_mapM hl

private theorem TypeDef.runText_eq (hwell : (Json.Document.ofText text).isWellFormed)
    (hdepth : (Json.Document.ofText text).root.depth ≤ Decode.depthLimit)
    (hlisted : ListedIn items (Json.Document.ofText text).root) :
    DecodeM.runText decodeDocument text supply = (items.mapM decode).outcome supply := by
  rw [Decode.outcome_of_runText hwell hdepth, decodeDocument_eq hlisted (isWellFormed_root hwell)]

/-- A document is decoded definition by definition. -/
theorem TypeDef.itemByItem (hwell : (Json.Document.ofText text).isWellFormed)
    (hdepth : (Json.Document.ofText text).root.depth ≤ Decode.depthLimit)
    (hlisted : ListedIn items (Json.Document.ofText text).root) :
    ItemByItem decode anonymous items (DecodeM.runText decodeDocument text supply).1 := by
  have hchild := hlisted.mem_children
  have hlist : (Json.array items).isWellFormed :=
    Json.lacks_of_mem_children (isWellFormed_root hwell) hchild
  have hlimit : (Json.array items).depth ≤ Decode.depthLimit :=
    (Json.depth_lt_of_mem_children hchild).le.trans hdepth
  apply Decode.itemByItem_of_mapM alike_decode (isWellFormed_of_mem hlist hlimit)
  rw [runText_eq hwell hdepth hlisted]

/-- The identities of decoded definitions are new and in order. -/
theorem TypeDef.numbered_of_runText (hwell : (Json.Document.ofText text).isWellFormed)
    (hdepth : (Json.Document.ofText text).root.depth ≤ Decode.depthLimit)
    (hlisted : ListedIn items (Json.Document.ofText text).root) {ds : List TypeDef}
    (hds : DecodeM.runText decodeDocument text supply = (.ok ds, rest)) :
    Numbered supply rest ds := by
  rw [runText_eq hwell hdepth hlisted] at hds
  obtain ⟨-, hfresh, hacross⟩ := Decode.ascending_of_mapM draws_decode hds
  have hgives := Decode.forall₂_of_gives_mapM (m := DecodeM) ⟨supply, rest, hds⟩
  refine ⟨hfresh, hacross, fun d hd ↦ ?_⟩
  obtain ⟨u, -, hu⟩ := Decode.exists_mem_of_forall₂ hgives.flip hd
  exact isNumbered_of_gives hu

private theorem Store.parse_of_error {e : DecodeError}
    (h : (DecodeM.runText TypeDef.decodeDocument text supply).1 = .error e) (place : Position) :
    (parse text place supply).1 =
      .error (.metadata ("Failed to parse metadata JSON: " ++ e.messageAt place)) := by
  rcases hrun : DecodeM.runText TypeDef.decodeDocument text supply with ⟨e' | ds, rest⟩
  · rw [hrun] at h
    obtain rfl := Except.error.inj h
    rw [parse, hrun]
  · rw [hrun] at h
    cases h

end Texts

/-- Where a text is well formed and nested no deeper than texts are read, the array that it holds is
decoded as code instruction by instruction, and as the types of a document definition by definition:
if each item is decoded as a text of its own, to these values but for identities, which are new and
ascend; otherwise with the error of the first item that is not, whatever comes after it. The message
is the sentence of that error and then the place at which the reader stopped, and a store puts in
front of it what it was reading. -/
theorem decodes_item_by_item (text : String) (supply : Supply) (items : List Json)
    (hwell : (Json.Document.ofText text).isWellFormed)
    (hdepth : (Json.Document.ofText text).root.depth ≤ Decode.depthLimit) :
    ((Json.Document.ofText text).root = .array items →
      ItemByItem Instr.decode Instr.anonymous items
        ((DecodeM.runText Code.decode text supply).1.map Code.toList) ∧
      (∀ c rest, DecodeM.runText Code.decode text supply = (.ok c, rest) →
        c.toList.map (·.id.val) = List.range' supply.next items.length ∧
        rest.next = supply.next + items.length) ∧
      ∀ before v after e, items = before ++ v :: after →
        (∀ u ∈ before, DecodesAlone Instr.decode u) → FailsAlone Instr.decode v e →
        ∀ place, (DecodeM.runText Code.decode text supply).1.mapError (·.messageAt place) =
          .error (e.message ++ place.text)) ∧
    (TypeDef.ListedIn items (Json.Document.ofText text).root →
      ItemByItem TypeDef.decode TypeDef.anonymous items
        (DecodeM.runText TypeDef.decodeDocument text supply).1 ∧
      (∀ ds rest, DecodeM.runText TypeDef.decodeDocument text supply = (.ok ds, rest) →
        TypeDef.Numbered supply rest ds) ∧
      ∀ before v after e, items = before ++ v :: after →
        (∀ u ∈ before, DecodesAlone TypeDef.decode u) → FailsAlone TypeDef.decode v e →
        ∀ place, (Store.parse text place supply).1 =
          .error (.metadata ("Failed to parse metadata JSON: " ++ e.message ++ place.text))) := by
  constructor
  · intro hroot
    have hitems : ItemByItem Instr.decode Instr.anonymous items
        ((DecodeM.runText Code.decode text supply).1.map Code.toList) :=
      Code.itemByItem hwell hdepth hroot
    refine ⟨hitems, fun _ _ ↦ Code.ids_of_runText hwell hdepth hroot, ?_⟩
    intro before v after e hsplit hbefore hv place
    have herror := (hitems.error_iff e).mpr ⟨before, v, after, hsplit, hbefore, hv⟩
    exact Code.mapError_runText herror place
  · intro hlisted
    have hitems : ItemByItem TypeDef.decode TypeDef.anonymous items
        (DecodeM.runText TypeDef.decodeDocument text supply).1 :=
      TypeDef.itemByItem hwell hdepth hlisted
    refine ⟨hitems, fun _ _ ↦ TypeDef.numbered_of_runText hwell hdepth hlisted, ?_⟩
    intro before v after e hsplit hbefore hv place
    have herror := (hitems.error_iff e).mpr ⟨before, v, after, hsplit, hbefore, hv⟩
    rw [Store.parse_of_error herror, DecodeError.messageAt, String.append_assoc]

/-- As a whole the message is not that of the item alone. The reader of `[3]` stops at the second
column and that of `3` at the first one, and a store tells before that what it was reading. -/
theorem not_same_message_alone :
    let noInstr := DecodeError.wrongKind (.int 3) "struct Instruction"
    let noType := DecodeError.wrongKind (.int 3) "struct TypeDef"
    let noStore := Error.metadata ("Failed to parse metadata JSON: " ++ noType.messageAt ⟨1, 11⟩)
    ((DecodeM.runText Code.decode "[3]" .full).1 = .error noInstr ∧
      (DecodeM.runText Instr.decode "3" .full).1 = .error noInstr ∧
      noInstr.messageAt ⟨1, 2⟩ ≠ noInstr.messageAt ⟨1, 1⟩) ∧
    (Store.parse "\x7b\"types\":[3]\x7d" ⟨1, 11⟩ .full).1 = .error noStore ∧
      (DecodeM.runText TypeDef.decode "3" .full).1 = .error noType ∧
      noStore.message ≠ noType.messageAt ⟨1, 1⟩ := by
  intro noInstr noType noStore
  have htypes : (DecodeM.runText TypeDef.decodeDocument "\x7b\"types\":[3]\x7d" .full).1 =
      .error noType := by
    decide +kernel
  refine ⟨⟨?_, ?_, ?_⟩, Store.parse_of_error htypes ⟨1, 11⟩, ?_, ?_⟩
  all_goals decide +kernel

namespace FirstBad

/-- A return, and a pop at an offset. -/
def good : String := "[\x7b\"opcode\":\"ret\"\x7d,[7,\"pop\"]]"

/-- A return, an operation of size zero, and no instruction. -/
def bad : String := "[\x7b\"opcode\":\"ret\"\x7d,[0,\x7b\"other\":[\"x\",0]\x7d],3]"

/-- Three types, the second of which has no base that could be one. -/
def badTypes : String := "[[[\"A\"],[\"B\",3],4]]"

private def ret : Json := .object [("opcode", .string "ret")]

private def pop : Json := .array [.number (.int 7), .string "pop"]

private def empty : Json :=
  .array [.number (.int 0), .object [("other", .array [.string "x", .number (.int 0)])]]

private theorem ofText_good :
    Json.Document.ofText good = { root := .array [ret, pop], isWhole := true } := by
  rfl

private theorem ofText_bad :
    Json.Document.ofText bad =
      { root := .array [ret, empty, .number (.int 3)], isWhole := true } := by
  rfl

private def nameOnly : Json := .array [.string "A"]

private def noBase : Json := .array [.string "B", .number (.int 3)]

private theorem ofText_badTypes : Json.Document.ofText badTypes = {
    root := .array [.array [nameOnly, noBase, .number (.int 4)]]
    isWhole := true } := by
  rfl

/-- Two instructions that are decoded together are so alone, and have the next two identities. Where
the second is bad the message is that of its error, and so with definitions. -/
theorem decodes_item_by_item_second :
    (DecodesAlone Instr.decode (.object [("opcode", .string "ret")]) ∧
      DecodesAlone Instr.decode (.array [.number (.int 7), .string "pop"]) ∧
      ∃ c, DecodeM.runText Code.decode good .full = (.ok c, ⟨3⟩) ∧
        c.toList.map (·.id.val) = [1, 2]) ∧
    (∀ place, (DecodeM.runText Code.decode bad .full).1.mapError (·.messageAt place) =
      .error (DecodeError.message (.sizeTooSmall 0) ++ place.text)) ∧
    ∀ place, (Store.parse badTypes place .full).1 = .error (.metadata
      ("Failed to parse metadata JSON: " ++ DecodeError.notTypeRef.message ++ place.text)) := by
  refine ⟨?good, ?bad, ?badTypes⟩
  case good =>
    have hrun : DecodeM.runText Code.decode good .full =
        (.ok ⟨[⟨⟨1⟩, 0, .ret⟩, ⟨⟨2⟩, 7, .pop⟩]⟩, ⟨3⟩) := by
      decide +kernel
    obtain ⟨hcode, -⟩ := decodes_item_by_item good .full [ret, pop]
      (by rw [ofText_good]; rfl) (by rw [ofText_good]; decide)
    obtain ⟨hitems, hids, -⟩ := hcode (by rw [ofText_good])
    have halone := hitems.ok_iff.mp ⟨_, by rw [hrun]; rfl⟩
    exact ⟨halone ret (.head _), halone pop (.tail _ (.head _)), _, hrun, (hids _ _ hrun).1⟩
  case bad =>
    obtain ⟨hcode, -⟩ := decodes_item_by_item bad .full [ret, empty, .number (.int 3)]
      (by rw [ofText_bad]; rfl) (by rw [ofText_bad]; decide)
    obtain ⟨-, -, herror⟩ := hcode (by rw [ofText_bad])
    have hret : DecodesAlone Instr.decode ret := fun s ↦ ⟨_, _, rfl⟩
    have hempty : FailsAlone Instr.decode empty (.sizeTooSmall 0) := fun s ↦ rfl
    exact herror [ret] empty [.number (.int 3)] (.sizeTooSmall 0) rfl (by simpa using hret) hempty
  case badTypes =>
    obtain ⟨-, htypes⟩ := decodes_item_by_item badTypes .full [nameOnly, noBase, .number (.int 4)]
      (by rw [ofText_badTypes]; rfl) (by rw [ofText_badTypes]; decide)
    obtain ⟨-, -, herror⟩ := htypes (by rw [ofText_badTypes]; rfl)
    have hname : DecodesAlone TypeDef.decode nameOnly := fun s ↦ ⟨_, _, rfl⟩
    have hbase : FailsAlone TypeDef.decode noBase .notTypeRef := fun s ↦ rfl
    exact herror [nameOnly] noBase [.number (.int 4)] .notTypeRef rfl (by simpa using hname) hbase

end FirstBad

end Cil
