import Cil.Proofs.Json.Integer
import Cil.Proofs.Written

/-!
# Ranges to texts and back

The text that a range is encoded as decodes to that range, and a text of this form, with any two
decimal numerals of 32-bit integers, is what the range that it decodes to is encoded as:
`OffsetRange.encode_decode`.
-/

namespace Cil

open Json (Document Token)
open Text (IsDecimal)

/-- The text is the decimal numeral of a 32-bit integer. -/
def IsDecimal32 (s : String) : Prop := ∃ n : Int32, IsDecimal n.toInt s.toList

private theorem isDecimal32_toString (n : Int32) : IsDecimal32 (toString n.toInt) :=
  ⟨n, Text.isDecimal_toString n.toInt⟩

namespace OffsetRange

/-- An object of two ends without blanks, the first one in front. -/
def object (first last : String) : String :=
  "\x7b\"from\":" ++ first ++ ",\"to\":" ++ last ++ "\x7d"

-- The tokens of the numeral of a 32-bit integer and the mark behind it.
private theorem scan_decimal {n : Int32} {cs : List Char} (h : IsDecimal n.toInt cs) {m : Char}
    (hm : Token.isBlank m = false ∧ m ≠ '"') {t : Token} (hmark : Token.mark? m = some t)
    (rest : List Char) :
    Token.scan .between (cs ++ m :: rest) =
      .atom (.number (.int n.toInt)) :: t :: Token.scan .between rest := by
  have hlow : -(Nat.pow 2 63 : Nat) ≤ n.toInt := Int.le_trans (by decide) n.minValue_le_toInt
  have hhigh : n.toInt < UInt64.size := Int.lt_of_le_of_lt n.toInt_le (by decide)
  rw [Token.scan_word h.ne_nil (Token.isWordChar_of_isDecimal h) hm hmark,
    Token.ofWord_of_isDecimal h hlow hhigh]

private theorem tokens_object {r : OffsetRange} {first last : String}
    (hfirst : IsDecimal r.first.toInt first.toList) (hlast : IsDecimal r.last.toInt last.toList) :
    Token.ofText (object first last) = [.beginObject, .text (some "from"), .colon,
      .atom (.number (.int r.first.toInt)), .comma, .text (some "to"), .colon,
      .atom (.number (.int r.last.toInt)), .endObject] := by
  have hopen (rest : List Char) : Token.scan .between ("\x7b\"from\":".toList ++ rest) =
      .beginObject :: .text (some "from") :: .colon :: Token.scan .between rest := rfl
  have hname (rest : List Char) : Token.scan .between ("\"to\":".toList ++ rest) =
      .text (some "to") :: .colon :: Token.scan .between rest := rfl
  have hchars : (object first last).toList = "\x7b\"from\":".toList ++ (first.toList ++
      ',' :: ("\"to\":".toList ++ (last.toList ++ ['\x7d']))) := by
    simp [object]
  rw [Token.ofText, hchars, hopen, scan_decimal hfirst ⟨rfl, by decide⟩ rfl, hname,
    scan_decimal hlast ⟨rfl, by decide⟩ rfl]
  rfl

private theorem ofText_object {r : OffsetRange} {first last : String}
    (hfirst : IsDecimal r.first.toInt first.toList) (hlast : IsDecimal r.last.toInt last.toList) :
    Document.ofText (object first last) = {
      root := .object [("from", .number (.int r.first.toInt)), ("to", .number (.int r.last.toInt))]
      isWhole := true } := by
  rw [Document.ofText, tokens_object hfirst hlast]
  rfl

private theorem writesText_object {r : OffsetRange} {first last : String}
    (hfirst : IsDecimal r.first.toInt first.toList) (hlast : IsDecimal r.last.toInt last.toList) :
    writing.WritesText r (object first last) := by
  rw [Decode.Writing.WritesText, ofText_object hfirst hlast]
  have hdepth : 1 ≤ Decode.depthLimit := by decide
  refine ⟨rfl, hdepth, ?_⟩
  exact Decode.Form.object (.given 0 (by decide) rfl (.given 0 (by decide) rfl
    (.nil (List.forall_mem_nil _))))

/-- An object of two ends decodes to the range between them, which is encoded as this object. -/
theorem decode_object {r : OffsetRange} {first last : String}
    (hfirst : IsDecimal r.first.toInt first.toList) (hlast : IsDecimal r.last.toInt last.toList) :
    Decode.text decode (object first last) = .ok r ∧ r.encode = object first last := by
  refine ⟨Decode.text_of_writesText implements_record.reads (fun _ ↦ rfl)
    (writesText_object hfirst hlast), ?_⟩
  rw [encode, object, String.toList_inj.mp (Text.isDecimal_iff.mp hfirst).symm,
    String.toList_inj.mp (Text.isDecimal_iff.mp hlast).symm]

/-- Every range is decoded from what it is encoded as. An object of the numerals of two 32-bit
integers, without blanks and the first offset in front, decodes to a range that is encoded as this
object. -/
theorem encode_decode :
    (∀ r : OffsetRange, Decode.text decode r.encode = .ok r) ∧
    ∀ first last : String, IsDecimal32 first → IsDecimal32 last →
      ∃ r, Decode.text decode (object first last) = .ok r ∧ r.encode = object first last := by
  constructor
  · intro r
    exact (decode_object (Text.isDecimal_toString r.first.toInt)
      (Text.isDecimal_toString r.last.toInt)).1
  · rintro first last ⟨m, hm⟩ ⟨n, hn⟩
    exact ⟨⟨m, n⟩, decode_object hm hn⟩

/-- The ends of all 32-bit integers, and a range that is inverted, come back. -/
theorem encode_decode_extremes :
    IsDecimal32 "-2147483648" ∧ IsDecimal32 "2147483647" ∧
    (∃ r, Decode.text decode (object "-2147483648" "2147483647") = .ok r ∧
      r.encode = object "-2147483648" "2147483647") ∧
    Decode.text decode (encode ⟨7, -2147483648⟩) = .ok ⟨7, -2147483648⟩ := by
  have hmin : IsDecimal32 "-2147483648" := isDecimal32_toString Int32.minValue
  have hmax : IsDecimal32 "2147483647" := isDecimal32_toString Int32.maxValue
  exact ⟨hmin, hmax, encode_decode.2 _ _ hmin hmax, encode_decode.1 _⟩

end OffsetRange

end Cil
