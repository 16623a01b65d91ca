import Cil.Proofs.Decode.Shown
import Cil.Proofs.Metadata.Loading
import Cil.Proofs.Metadata.Stated

/-!
# Stated sizes

The size of an operation that is not modelled is stated in the document, and must be at least one.
All ways of decoding keep to that: the queries of this module lead to the places where the stated
sizes are written, and a document with anything else in one of these places is not decoded. Main
statement: `keeps_sizes`.
-/

namespace Cil

open Decode (Entry Gives Inverts Record Writing)
open Json (Query Step)

/-- The step to a field of a record. -/
def Decode.Record.step {m : Type → Type} {ρ : Type} (r : Record m ρ) (name : String) : Step :=
  .field (r.fields.map (·.name)) name

/-! ### Operations in decoded values -/

/-- The operations of code. -/
def Code.opcodes (c : Code) : List Opcode := c.toList.map (·.opcode)

/-- The operations of a body. -/
def MethodBody.opcodes (b : MethodBody) : List Opcode := b.code.opcodes

/-- The operations of a method, which has none without a body. -/
def MethodDef.opcodes (m : MethodDef) : List Opcode := m.body.toList.flatMap MethodBody.opcodes

/-- The operations of the accessors of a property. -/
def PropertyDef.opcodes (p : PropertyDef) : List Opcode :=
  p.getter.toList.flatMap MethodDef.opcodes ++ p.setter.toList.flatMap MethodDef.opcodes

/-- The operations of the methods and the accessors of a type. -/
def TypeDef.opcodes (d : TypeDef) : List Opcode :=
  d.methods.flatMap MethodDef.opcodes ++ d.properties.flatMap PropertyDef.opcodes

namespace Opcode

/-- The size that was stated for an operation that is not modelled. -/
def statedSize? : Opcode → Option Int32
  | .other _ size => some size
  | _ => none

/-- The stated sizes of operations, in order. -/
def statedSizes (ops : List Opcode) : List Int32 := ops.filterMap statedSize?

theorem statedSizes_append (ops ops' : List Opcode) :
    statedSizes (ops ++ ops') = statedSizes ops ++ statedSizes ops' := List.filterMap_append

theorem statedSizes_flatMap {α : Type} (f : α → List Opcode) (l : List α) :
    statedSizes (l.flatMap f) = l.flatMap fun a ↦ statedSizes (f a) := List.filterMap_flatMap ..

private theorem mem_statedSizes_iff {ops : List Opcode} {n : Int32} :
    n ∈ statedSizes ops ↔ ∃ mnemonic, .other mnemonic n ∈ ops := by
  rw [statedSizes, List.mem_filterMap]
  constructor
  · rintro ⟨op, hop, hn⟩
    cases op with
    | other mnemonic size =>
      obtain rfl := Option.some.inj hn
      exact ⟨mnemonic, hop⟩
    | _ => cases hn
  · rintro ⟨mnemonic, hop⟩
    exact ⟨_, hop, rfl⟩

end Opcode

/-! ### Where sizes are written -/

/-- The stated size of an opcode. -/
def Opcode.sizes : Query := .inside (.variant "other") (.inside (otherRecord.step "size") .here)

/-- The stated size of an instruction. -/
def Instr.sizes : Query := .inside (record.step "opcode") Opcode.sizes

/-- The stated sizes of code. -/
def Code.sizes : Query := .inside .items Instr.sizes

/-- The stated sizes of a body. -/
def MethodBody.sizes : Query := .inside (record.step "instructions") Code.sizes

/-- The stated sizes of a method. -/
def MethodDef.sizes : Query := .inside (record.step "body") MethodBody.sizes

/-- The stated sizes of a property. -/
def PropertyDef.sizes : Query :=
  .both (.inside (record.step "get_method") MethodDef.sizes)
    (.inside (record.step "set_method") MethodDef.sizes)

/-- The stated sizes of a type. -/
def TypeDef.sizes : Query :=
  .both (.inside (record.step "methods") (.inside .items MethodDef.sizes))
    (.inside (record.step "properties") (.inside .items PropertyDef.sizes))

/-- The stated sizes of a document. -/
def TypeDef.documentSizes : Query :=
  .inside (documentRecord.step "types") (.inside .items TypeDef.sizes)

/-- The query leads from written forms to the stated sizes of these operations. -/
def Decode.Writing.ShowsSizes {α : Type} (w : Writing α) (q : Query) (opcodes : α → List Opcode) :
    Prop :=
  w.Shows q Opcode.writtenSize fun a ↦ Opcode.statedSizes (opcodes a)

namespace Decode.Writing.ShowsSizes

variable {α ρ : Type} {w : Writing α} {p q : Query} {opcodes opcodes' : α → List Opcode}

private theorem both (hp : w.ShowsSizes p opcodes) (hq : w.ShowsSizes q opcodes') :
    w.ShowsSizes (.both p q) fun a ↦ opcodes a ++ opcodes' a := by
  simp only [ShowsSizes, Opcode.statedSizes_append]
  exact Shows.both hp hq

private theorem list (h : w.ShowsSizes q opcodes) :
    w.list.ShowsSizes (.inside .items q) fun l ↦ l.flatMap opcodes := by
  simp only [ShowsSizes, Opcode.statedSizes_flatMap]
  exact Shows.list h

private theorem optional (h : w.ShowsSizes q opcodes) (hnull : q.values .null = []) :
    w.optional.ShowsSizes q fun o ↦ o.toList.flatMap opcodes := by
  simp only [ShowsSizes, Opcode.statedSizes_flatMap]
  exact Shows.optional h hnull

private theorem record {entries : List (Entry ρ)} {e : Entry ρ} {opcodes : e.α → List Opcode}
    (he : e ∈ entries) (hnodup : (entries.map (·.name)).Nodup) (h : e.writing.ShowsSizes q opcodes)
    (hdefault : e.default?.elim [] opcodes = []) (plain : ρ → ρ) :
    (Writing.record entries plain).ShowsSizes
      (.inside (.field (entries.map (·.name)) e.name) q) fun r ↦ opcodes (e.get r) := by
  apply Shows.record he hnodup h _ plain
  cases hd : e.default? with
  | none => rfl
  | some a =>
    rw [hd] at hdefault
    exact congrArg Opcode.statedSizes hdefault

end Decode.Writing.ShowsSizes

private theorem Opcode.variants_cases {name : String} {operand : Operand}
    (h : operandOf name = .ok operand) : name = "other" ∧ operand = .mnemonicAndSize ∨
      name ≠ "other" ∧ ∀ op v, operand.Writes op v → statedSizes [op] = [] := by
  have hmem : (name, operand) ∈ variants := by
    rw [operandOf] at h
    split at h
    next key _ hfind =>
      obtain rfl := Except.ok.inj h
      obtain rfl : key = name := by simpa using List.find?_some hfind
      exact List.mem_of_find?_eq_some hfind
    next => cases h
  simp only [variants, List.mem_cons, List.not_mem_nil, or_false, Prod.mk.injEq] at hmem
  casesm* _ ∨ _, _ ∧ _
  all_goals
    subst_vars
    first
    | exact .inl ⟨rfl, rfl⟩
    | refine .inr ⟨by decide, ?_⟩
      rintro op v ⟨⟩
      rfl

/-- A stated size is written beside the name of other operations. -/
theorem Opcode.shows_sizes : writing.ShowsSizes sizes fun op ↦ [op] := by
  have hsize : .required "size" writtenSize Prod.snd ∈ otherEntries := .tail _ (.head _)
  have hother : (Writing.record otherEntries id).Shows (.inside (otherRecord.step "size") .here)
      writtenSize fun r ↦ [r.2] :=
    .record hsize (by decide) (.here writtenSize) rfl id
  constructor
  intro op v hv
  cases hv with
  | alone hname =>
    obtain ⟨-, hoperand⟩ | ⟨-, hnone⟩ := variants_cases hname
    · cases hoperand
    · rw [hnone op .null (.null op)]
      exact .nil
  | beside hname hv =>
    obtain ⟨rfl, rfl⟩ | ⟨hne, hnone⟩ := variants_cases hname
    · cases hv with
      | mnemonicAndSize hv =>
        rw [sizes, Query.values, Step.values_variant, List.flatMap_singleton]
        exact hother.forall₂ hv
    · rw [hnone op _ hv, sizes, Query.values, Step.values_variant_of_ne hne]
      exact .nil

private theorem Instr.shows_sizes : writing.ShowsSizes sizes fun i ↦ [i.opcode] := by
  have hopcode : .required "opcode" Opcode.writing Prod.snd ∈ entries := .tail _ (.head _)
  have hrecord : (Writing.record entries fun p ↦ p).ShowsSizes sizes fun p ↦ [p.2] :=
    .record hopcode (by decide) Opcode.shows_sizes rfl _
  exact ⟨hrecord.forall₂⟩

private theorem Code.shows_sizes : writing.ShowsSizes sizes opcodes := by
  have hlist := Instr.shows_sizes.list
  simp only [← List.map_eq_flatMap] at hlist
  exact ⟨hlist.forall₂⟩

private theorem MethodBody.shows_sizes : writing.ShowsSizes sizes opcodes := by
  have hcode : .defaulted "instructions" Code.writing (·.code) .empty ∈ entries := .head _
  exact .record hcode (by decide) Code.shows_sizes rfl _

private theorem MethodDef.shows_sizes : writing.ShowsSizes sizes opcodes := by
  have hbody : .defaulted "body" MethodBody.writing.optional (·.body) none ∈ entries :=
    .tail _ (.tail _ (.head _))
  exact .record hbody (by decide) (MethodBody.shows_sizes.optional rfl) rfl _

private theorem PropertyDef.shows_sizes : writing.ShowsSizes sizes opcodes := by
  have haccessor := MethodDef.shows_sizes.optional rfl
  have hgetter : .defaulted "get_method" MethodDef.writing.optional (·.getter) none ∈ entries :=
    .tail _ (.head _)
  have hsetter : .defaulted "set_method" MethodDef.writing.optional (·.setter) none ∈ entries :=
    .tail _ (.tail _ (.head _))
  exact .both (.record hgetter (by decide) haccessor rfl _)
    (.record hsetter (by decide) haccessor rfl _)

/-- The stated sizes of a type are those of its methods and properties. -/
theorem TypeDef.shows_sizes : writing.ShowsSizes sizes opcodes := by
  have hmethods : .defaulted "methods" MethodDef.writing.list (·.methods) [] ∈ entries :=
    .tail _ (.tail _ (.tail _ (.head _)))
  have hproperties : .defaulted "properties" PropertyDef.writing.list (·.properties) [] ∈ entries :=
    .tail _ (.tail _ (.tail _ (.tail _ (.head _))))
  exact .both
    (.record hmethods (by decide) MethodDef.shows_sizes.list rfl _)
    (.record hproperties (by decide) PropertyDef.shows_sizes.list rfl _)

/-- The stated sizes of a document are those of its types. -/
theorem TypeDef.shows_documentSizes :
    documentWriting.ShowsSizes documentSizes fun ds ↦ ds.flatMap opcodes := by
  have htypes : .defaulted "types" writing.list (fun ds ↦ ds) [] ∈ documentEntries := .head _
  exact .record htypes (by decide) shows_sizes.list rfl _

/-! ### Decoding texts -/

/-- The value is written as a size of at least one. -/
def Opcode.IsStatedSize (v : Json) : Prop := ∃ n : Int32, 1 ≤ n ∧ v = .number (.int n.toInt)

private theorem Opcode.not_isStatedSize_of_lt_one {k : Int} (h : k < 1) :
    ¬ IsStatedSize (.number (.int k)) := by
  rintro ⟨n, hone, hn⟩
  injection hn with hn
  injection hn with hn
  have hint : (1 : Int32).toInt ≤ n.toInt := Int32.le_iff_toInt_le.mp hone
  rw [← hn] at hint
  exact absurd h (Int.not_lt.mpr hint)

/-- The decoder admits no stated size below one, and has the stated sizes of these operations from
the places to which the query leads. -/
structure KeepsSizes {m : Type → Type} [Monad m] [MonadExceptOf DecodeError m] [Inverts m]
    {α : Type} (decode : Json → m α) (sizes : Query) (opcodes : α → List Opcode) : Prop where
  /-- The stated sizes are written in these places, in order. -/
  written {text : String} {a : α} : Gives (Decode.text decode text) a →
    List.Forall₂
      (fun n path ↦ follow Json.children (Json.Document.ofText text).root path =
        some (.number (.int n.toInt)))
      (Opcode.statedSizes (opcodes a)) (sizes.places (Json.Document.ofText text).root)
  /-- What states a size is of that size, which is at least one. -/
  positive {text : String} {a : α} : Gives (Decode.text decode text) a →
    ∀ mnemonic n, .other mnemonic n ∈ opcodes a → 1 ≤ n ∧ (Opcode.other mnemonic n).size = n
  /-- No document is decoded that is like another but for one of the sizes, which is not one of at
  least one any more. -/
  changed {text text' : String} {path : List Nat} {new : Json} :
    path ∈ sizes.places (Json.Document.ofText text).root → ¬ Opcode.IsStatedSize new →
    (Json.Document.ofText text').root = (Json.Document.ofText text).root.put path new →
    ∀ a, ¬ Gives (Decode.text decode text') a

section

variable {m : Type → Type} [Monad m] [MonadExceptOf DecodeError m] [Inverts m] {α : Type}
  {w : Writing α} {decode : Json → m α} {sizes : Query} {opcodes : α → List Opcode}

private theorem Decode.Writing.ShowsSizes.keepsSizes (h : w.ShowsSizes sizes opcodes)
    (hread : w.IsReadBy decode) (hheight : sizes.height ≤ Decode.depthLimit) :
    KeepsSizes decode sizes opcodes := by
  have hplaces {text : String} {a : α} (ha : Gives (Decode.text decode text) a) :
      List.Forall₂
        (fun n path ↦ 1 ≤ n ∧ follow Json.children (Json.Document.ofText text).root path =
          some (.number (.int n.toInt)))
        (Opcode.statedSizes (opcodes a)) (sizes.places (Json.Document.ofText text).root) := by
    apply (h.forall₂_places hread hheight ha).imp
    rintro n path ⟨u, k, hu, hone, hclip⟩
    rw [hu, Json.eq_number_of_clip hclip]
    exact ⟨hone, rfl⟩
  constructor
  case written => exact fun ha ↦ (hplaces ha).imp fun _ _ h ↦ h.2
  case positive =>
    intro text a ha mnemonic n hmem
    have hstated : n ∈ Opcode.statedSizes (opcodes a) :=
      Opcode.mem_statedSizes_iff.mpr ⟨mnemonic, hmem⟩
    obtain ⟨path, -, hone, -⟩ := Decode.exists_mem_of_forall₂ (hplaces ha).flip hstated
    exact ⟨hone, if_pos hone⟩
  case changed =>
    -- the query still leads to the place, so a decoded document would have a size there
    intro text text' path new hpath hnew hroot a ha
    have hmem : path ∈ sizes.places (Json.Document.ofText text').root :=
      hroot ▸ Query.mem_places_put hpath new
    obtain ⟨n, -, hone, hn⟩ := Decode.exists_mem_of_forall₂ (hplaces ha) hmem
    obtain ⟨u, -, hu⟩ := Query.exists_follow_of_mem_places hpath
    rw [hroot, Json.follow_put hu] at hn
    exact hnew ⟨n, hone, Option.some.inj hn⟩

end

/-- What a store has been read from is a decoded document, with all the definitions of the store. -/
theorem Store.exists_gives_of_parse {text : String} {place : Position} {supply rest : Supply}
    {events : List LogEvent} {store : Store}
    (h : parse text place supply = (.ok (events, store), rest)) :
    ∃ ds, Gives (Decode.text TypeDef.decodeDocument text) ds ∧
      ∀ name d, store.get? name = some d → d ∈ ds := by
  rw [parse] at h
  rcases hdecode : DecodeM.runText TypeDef.decodeDocument text supply with ⟨e | ds, s⟩
  · rw [hdecode] at h
    cases congrArg Prod.fst h
  · rw [hdecode] at h
    obtain rfl : (loadAll ds empty).2 = store :=
      congrArg Prod.snd (Except.ok.inj (congrArg Prod.fst h))
    refine ⟨ds, ⟨supply, s, hdecode⟩, fun name d hd ↦ ?_⟩
    have hget : (ofList ds).get? name = some d := by
      rw [ofList, ← loadAll_snd]
      exact hd
    rw [get?_ofList] at hget
    exact List.mem_of_mem_filter (List.mem_of_getLast? hget)

/-- No way of decoding admits a size below one: whatever holds an opcode, the sizes of operations
that are not modelled are those written in the document, in places that a query leads to, and with
anything but a size in one of these places nothing is decoded. The same holds of stores that are
read from documents. -/
theorem keeps_sizes :
    KeepsSizes Opcode.decode Opcode.sizes (fun op ↦ [op]) ∧
    KeepsSizes Instr.decode Instr.sizes (fun i ↦ [i.opcode]) ∧
    KeepsSizes Code.decode Code.sizes Code.opcodes ∧
    KeepsSizes MethodBody.decode MethodBody.sizes MethodBody.opcodes ∧
    KeepsSizes MethodDef.decode MethodDef.sizes MethodDef.opcodes ∧
    KeepsSizes PropertyDef.decode PropertyDef.sizes PropertyDef.opcodes ∧
    KeepsSizes TypeDef.decode TypeDef.sizes TypeDef.opcodes ∧
    KeepsSizes TypeDef.decodeDocument TypeDef.documentSizes (·.flatMap TypeDef.opcodes) ∧
    (∀ text place supply events store rest,
      Store.parse text place supply = (.ok (events, store), rest) →
      ∀ name d, store.get? name = some d → ∀ mnemonic n, .other mnemonic n ∈ d.opcodes →
        1 ≤ n ∧ (Opcode.other mnemonic n).size = n ∧
        ∃ path ∈ TypeDef.documentSizes.places (Json.Document.ofText text).root,
          follow Json.children (Json.Document.ofText text).root path =
            some (.number (.int n.toInt))) ∧
    ∀ text text' path new,
      path ∈ TypeDef.documentSizes.places (Json.Document.ofText text).root →
      ¬ Opcode.IsStatedSize new →
      (Json.Document.ofText text').root = (Json.Document.ofText text).root.put path new →
      ∀ place supply, ∃ e rest, Store.parse text' place supply = (.error e, rest) := by
  have hdocument : KeepsSizes TypeDef.decodeDocument TypeDef.documentSizes
      (·.flatMap TypeDef.opcodes) :=
    TypeDef.shows_documentSizes.keepsSizes TypeDef.isReadByDocument (by decide)
  refine ⟨Opcode.shows_sizes.keepsSizes Opcode.isReadBy (by decide),
    Instr.shows_sizes.keepsSizes Instr.isReadBy (by decide),
    Code.shows_sizes.keepsSizes Code.isReadBy (by decide),
    MethodBody.shows_sizes.keepsSizes MethodBody.isReadBy (by decide),
    MethodDef.shows_sizes.keepsSizes MethodDef.isReadBy (by decide),
    PropertyDef.shows_sizes.keepsSizes PropertyDef.isReadBy (by decide),
    TypeDef.shows_sizes.keepsSizes TypeDef.isReadBy (by decide), hdocument, ?stored, ?changed⟩
  case stored =>
    intro text place supply events store rest hparse name d hd mnemonic n hmem
    obtain ⟨ds, hds, hall⟩ := Store.exists_gives_of_parse hparse
    have hop : .other mnemonic n ∈ ds.flatMap TypeDef.opcodes :=
      List.mem_flatMap.mpr ⟨d, hall name d hd, hmem⟩
    obtain ⟨hone, hsize⟩ := hdocument.positive hds mnemonic n hop
    have hstated := Opcode.mem_statedSizes_iff.mpr ⟨mnemonic, hop⟩
    obtain ⟨path, hpath, hn⟩ := Decode.exists_mem_of_forall₂ (hdocument.written hds).flip hstated
    exact ⟨hone, hsize, path, hpath, hn⟩
  case changed =>
    intro text text' path new hpath hnew hroot place supply
    rcases hparse : Store.parse text' place supply with ⟨e | ⟨events, store⟩, rest⟩
    · exact ⟨e, rest, rfl⟩
    · obtain ⟨ds, hds, -⟩ := Store.exists_gives_of_parse hparse
      exact absurd hds (hdocument.changed hpath hnew hroot ds)

namespace StatedInGetter

/-- A document with one operation, in a getter, for which this size is stated. -/
def document (size : String) : String :=
  "[[[\"T\",null,[],[],[[\"P\",[\"g\",false,[[[0,\x7b\"other\":[\"x\"," ++ size ++ "]\x7d]]]]]]]]]"

/-- Where the size is stated. -/
def place : List Nat := [0, 0, 4, 0, 1, 2, 0, 0, 1, 0, 1]

/-- The type that is decoded from the document with a size of two. -/
def type : TypeDef :=
  { TypeDef.ofName "T" with
    properties := [{
      name := "P"
      getter := some { MethodDef.concrete "g" with body := some ⟨⟨[⟨⟨1⟩, 0, .other "x" 2⟩]⟩⟩ }
      setter := none }] }

private def form (size : Int) : Json := .array [.array [.array [.string "T", .null, .array [],
  .array [], .array [.array [.string "P", .array [.string "g", .bool false, .array [.array [.array [
    .number (.int 0), .object [("other", .array [.string "x", .number (.int size)])]]]]]]]]]]

set_option maxRecDepth 8000 in
private theorem root_two : (Json.Document.ofText (document "2")).root = form 2 := by
  rfl

set_option maxRecDepth 8000 in
private theorem root_zero : (Json.Document.ofText (document "0")).root = form 0 := by
  rfl

/-- A size of two in a getter is read and kept, and the document with zero in its place is not
decoded. -/
theorem keeps_sizes_getter :
    DecodeM.runText TypeDef.decodeDocument (document "2") .full = (.ok [type], ⟨2⟩) ∧
    follow Json.children (Json.Document.ofText (document "2")).root place =
      some (.number (.int 2)) ∧
    (Opcode.other "x" 2).size = 2 ∧
    (Json.Document.ofText (document "0")).root =
      (Json.Document.ofText (document "2")).root.put place (.number (.int 0)) ∧
    ∃ e rest, Store.parse (document "0") ⟨1, 56⟩ .full = (.error e, rest) := by
  have hdecode : DecodeM.runText TypeDef.decodeDocument (document "2") .full =
      (.ok [type], ⟨2⟩) := by
    decide +kernel
  have hgives : Gives (Decode.text TypeDef.decodeDocument (document "2")) [type] :=
    ⟨.full, ⟨2⟩, hdecode⟩
  have hplaces : TypeDef.documentSizes.places (Json.Document.ofText (document "2")).root =
      [place] := by
    rw [root_two]
    decide
  have hput : (Json.Document.ofText (document "0")).root =
      (Json.Document.ofText (document "2")).root.put place (.number (.int 0)) := by
    rw [root_zero, root_two]
    rfl
  have hzero : ¬ Opcode.IsStatedSize (.number (.int 0)) :=
    Opcode.not_isStatedSize_of_lt_one (by decide)
  obtain ⟨-, -, -, -, -, -, -, hdocument, -, hchanged⟩ := keeps_sizes
  have hwritten := hdocument.written hgives
  rw [hplaces] at hwritten
  obtain ⟨-, hsize⟩ := hdocument.positive hgives "x" 2 (by decide)
  have hmem : place ∈ TypeDef.documentSizes.places (Json.Document.ofText (document "2")).root :=
    hplaces ▸ List.mem_singleton_self _
  exact ⟨hdecode, (List.forall₂_cons.mp hwritten).1, hsize, hput,
    hchanged _ _ _ _ hmem hzero hput ⟨1, 56⟩ .full⟩

end StatedInGetter

end Cil
