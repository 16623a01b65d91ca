/-!
# Hexadecimal text

Lower-case hexadecimal numerals, padded for offsets: an offset shows at least four digits, and a
negative one all eight of its two's complement.
-/

namespace Cil.Text

/-- The hexadecimal digits of a number, with zeros in front up to a width. -/
def hexPadded (width n : Nat) : String :=
  String.ofList ((Nat.toDigits 16 n).leftpad width '0')

/-- The name of the code position at an offset. -/
def offsetLabel (offset : Int32) : String := "IL_" ++ hexPadded 4 offset.toUInt32.toNat

end Cil.Text
