import Cil.Proofs.Decode.Stated
import Cil.Proofs.Written

/-!
# Options as overridden defaults

A text gives some settings of the options, each at most once, and what it does not give keeps its
default. An object may hold other members, whatever they are; an array gives the first settings in
order and holds nothing else. No other text is read as options. Main statement:
`Options.parse_overrides`.
-/

namespace Cil.Options

open Decode (Entry States)
open Json (valuesOf)

/-- Settings that are given, while the others keep their defaults. -/
structure Overrides where
  asyncAttribute : Option String
  asyncInterface : Option String
  relayoutAfterInsert : Option Bool
  deriving DecidableEq

namespace Overrides

/-- The options in which the given settings take the place of their defaults. -/
def options (g : Overrides) : Options where
  asyncAttribute := g.asyncAttribute.getD default.asyncAttribute
  asyncInterface := g.asyncInterface.getD default.asyncInterface
  relayoutAfterInsert := g.relayoutAfterInsert.getD default.relayoutAfterInsert

/-- The values of the settings as they are written, under their names in order of declaration. -/
def values (g : Overrides) : List (String × Option Json) := [
  ("async_state_machine_attribute", g.asyncAttribute.map .string),
  ("async_state_machine_interface", g.asyncInterface.map .string),
  ("recompute_offsets_after_insert", g.relayoutAfterInsert.map .bool)]

/-- A value gives just these settings: an object has the value of each as its only member of that
name, and no member under the names of the others; an array has the value of each in its place, and
no other items. -/
def GivenBy (g : Overrides) : Json → Prop
  | .object members => ∀ setting ∈ g.values, valuesOf setting.1 members = setting.2.toList
  | .array items => ∀ k : Nat, items[k]? = g.values[k]?.bind Prod.snd
  | _ => False

-- Values for each of the entries state the options that the settings with these values override.
private theorem stated_iff {o : Options} {first second third : List Json} :
    List.Forall₂ (·.StatedBy o ·) entries [first, second, third] ↔
      ∃ g : Overrides, g.values.map (·.2.toList) = [first, second, third] ∧ o = g.options := by
  have hstring (s : String) (v : Json) :
      Decode.Writing.string.Writes s v ↔ v = .string s := Iff.rfl
  have hbool (b : Bool) (v : Json) : Decode.Writing.bool.Writes b v ↔ v = .bool b := Iff.rfl
  simp only [entries, List.forall₂_cons, List.forall₂_nil_left_iff, and_true,
    Entry.statedBy_defaulted_iff hstring, Entry.statedBy_defaulted_iff hbool]
  constructor
  · rintro ⟨⟨a, rfl, ha⟩, ⟨i, rfl, hi⟩, r, rfl, hr⟩
    refine ⟨⟨a, i, r⟩, rfl, ?_⟩
    cases o
    simp only at ha hi hr
    rw [ha, hi, hr, options]
  · rintro ⟨g, hvalues, rfl⟩
    simp only [values, List.map_cons, List.map_nil, List.cons.injEq, and_true] at hvalues
    obtain ⟨rfl, rfl, rfl⟩ := hvalues
    exact ⟨⟨_, rfl, rfl⟩, ⟨_, rfl, rfl⟩, _, rfl, rfl⟩

private theorem givenBy_object_iff {g : Overrides} {members : List (String × Json)} :
    g.GivenBy (.object members) ↔
      g.values.map (·.2.toList) = entries.map fun e ↦ valuesOf e.name members := by
  simp [GivenBy, values, entries, eq_comm]

private theorem givenBy_array_iff {g : Overrides} {items : List Json} :
    g.GivenBy (.array items) ↔ items.length ≤ entries.length ∧
      g.values.map (·.2.toList) = [items[0]?.toList, items[1]?.toList, items[2]?.toList] := by
  have hinj (a b : Option Json) : a.toList = b.toList ↔ a = b := by
    cases a <;> cases b <;> simp
  constructor
  · intro h
    have hlength : items.length ≤ 3 := List.getElem?_eq_none_iff.mp (h 3)
    rw [h 0, h 1, h 2]
    exact ⟨hlength, rfl⟩
  · rintro ⟨hlength, hvalues⟩ k
    simp only [values, List.map_cons, List.map_nil, List.cons.injEq, and_true,
      hinj] at hvalues
    obtain ⟨h0, h1, h2⟩ := hvalues
    match k with
    | 0 => exact h0.symm
    | 1 => exact h1.symm
    | 2 => exact h2.symm
    | k + 3 =>
      have hk : items.length ≤ k + 3 := Nat.le_add_left_of_le hlength
      exact List.getElem?_eq_none hk

/-- A value states options when these are the defaults overridden by the settings it gives. -/
theorem states_iff {o : Options} {v : Json} :
    States entries o v ↔ ∃ g : Overrides, g.GivenBy v ∧ o = g.options := by
  cases v with
  | object members =>
    have hentries : States entries o (.object members) ↔ List.Forall₂ (·.StatedBy o ·) entries
        (entries.map fun e ↦ valuesOf e.name members) := by
      rw [States, List.forall₂_map_right_iff, List.forall₂_same]
    simp only [hentries, givenBy_object_iff]
    exact stated_iff
  | array items =>
    have hentries : States entries o (.array items) ↔ items.length ≤ entries.length ∧
        List.Forall₂ (·.StatedBy o ·) entries
          [items[0]?.toList, items[1]?.toList, items[2]?.toList] := by
      simp [States, entries, ← Nat.and_forall_add_one]
    simp only [hentries, givenBy_array_iff, stated_iff]
    grind
  | _ => simp [States, GivenBy]

end Overrides

private theorem isGivenBy_record : record.IsGivenBy entries where
  fields := by
    refine .cons ?asyncAttribute (.cons ?asyncInterface (.cons ?relayout .nil))
    case asyncAttribute =>
      exact Entry.givenBy_defaulted Decode.isReadBy_string (fun _ _ ↦ rfl)
        (by simp [entries])
    case asyncInterface =>
      exact Entry.givenBy_defaulted Decode.isReadBy_string (fun _ _ ↦ rfl)
        (by simp [entries])
    case relayout =>
      exact Entry.givenBy_defaulted Decode.isReadBy_bool (fun _ _ ↦ rfl)
        (by simp [entries])
  nodup := implements_record.nodup
  blank := implements_record.blank

private theorem isFlat_entries : ∀ e ∈ entries, e.writing.IsFlat := by
  simp only [entries, List.forall_mem_cons]
  exact ⟨Decode.Writing.isFlat_string, Decode.Writing.isFlat_string, Decode.Writing.isFlat_bool,
    by simp⟩

/-- A text is read as options exactly when it is well formed and gives settings that override the
defaults to these options. Any other text is an options error, also that of an object one of whose
names denotes no string. -/
theorem parse_overrides (text : String) (place : Position) :
    (∀ o, parse text place = .ok o ↔ (Json.Document.ofText text).isWellFormed ∧
      ∃ g : Overrides, g.GivenBy (Json.Document.ofText text).root ∧ o = g.options) ∧
    ((∃ o, parse text place = .ok o) ∨ ∃ e : DecodeError,
      parse text place =
        .error (.options ("Failed to parse options JSON: " ++ e.messageAt place))) := by
  have htext (o : Options) : Decode.text decode text = .ok o ↔
      (Json.Document.ofText text).isWellFormed ∧
        ∃ g : Overrides, g.GivenBy (Json.Document.ofText text).root ∧ o = g.options := by
    rw [← Overrides.states_iff]
    exact implements_record.text_eq_ok_iff isGivenBy_record isFlat_entries text
  simp only [parse, ← htext]
  cases Decode.text decode text with
  | ok a =>
    constructor
    · intro o
      simp [Except.mapError]
    · exact .inl ⟨a, rfl⟩
  | error e =>
    constructor
    · intro o
      simp [Except.mapError]
    · exact .inr ⟨e, rfl⟩

/-- Members of other names are skipped, also where they cannot be read. -/
example :
    parse "\x7b\"note\":[\"\\ud800\"],\"recompute_offsets_after_insert\":true\x7d" ⟨1, 1⟩ =
      .ok { default with relayoutAfterInsert := true } := by
  decide +kernel

/-- Null does not leave a setting out. -/
example : parse "\x7b\"recompute_offsets_after_insert\":null\x7d" ⟨1, 38⟩ =
    .error (.options
      "Failed to parse options JSON: invalid type: null, expected a boolean at line 1 column 38") :=
  by
  decide +kernel

end Cil.Options
