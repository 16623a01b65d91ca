import Cil.Decimal.Shortest
import Cil.Json.Basic

/-!
# The text of a number

Integers are written in decimal. Doubles are written with their shortest digits: positionally,
and with at least one digit after the point, while the point stands within sixteen digits after
the first digit or within four zeros before it; with a signed exponent otherwise.
-/

namespace Cil.Json

/-- Digits times `10 ^ power`, as text. -/
def decimalText (digits : Nat) (power : Int) : String :=
  let ds := toString digits
  let point : Int := ds.length + power
  if 0 ≤ power ∧ point ≤ 16 then
    ds ++ "".pushn '0' power.toNat ++ ".0"
  else if 0 < point ∧ point ≤ 16 then
    (ds.take point.toNat).toString ++ "." ++ (ds.drop point.toNat).toString
  else if -5 < point ∧ point ≤ 0 then
    "0." ++ "".pushn '0' (-point).toNat ++ ds
  else
    let mantissa := if ds.length = 1 then ds
      else (ds.take 1).toString ++ "." ++ (ds.drop 1).toString
    mantissa ++ (if 0 < point then "e+" else "e") ++ toString (point - 1)

/-- The text of the double with these bits. -/
def doubleText (bits : UInt64) : String :=
  let sign := if Nat.pow 2 63 ≤ bits.toNat then "-" else ""
  if bits.toNat % Nat.pow 2 63 = 0 then sign ++ "0.0"
  else
    let (digits, power) := (Decimal.Binary.ofBits bits).shortest
    sign ++ decimalText digits power

end Cil.Json
