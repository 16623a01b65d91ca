import Cil.Json.Basic

/-!
# Numerals

The written form of a JSON number, and the number it denotes: an integer when it is written as one,
is not minus zero and fits 64 bits, else a double. A double is read the quick way: digits
are taken into a 64-bit significand while they fit, later ones only move the point, and the
significand is then scaled once by a power of ten. The result can miss the nearest double by a
few units in the last place.
-/

namespace Cil.Json

/-- A JSON number as written, its digits as characters. -/
structure Numeral where
  negative : Bool
  whole : List Char
  /-- The digits after the point. -/
  fraction : Option (List Char)
  /-- The power of ten after the exponent mark. -/
  exponent : Option Int
  deriving DecidableEq, Repr

namespace Numeral

/-- The leading digits of a text and what follows them. -/
def splitDigits (cs : List Char) : List Char × List Char :=
  (cs.takeWhile Char.isDigit, cs.dropWhile Char.isDigit)

/-- Reads a sign that may only be a minus. -/
def splitMinus : List Char → Bool × List Char
  | '-' :: rest => (true, rest)
  | cs => (false, cs)

/-- Reads a point and at least one digit, if there is a point. -/
def splitFraction? : List Char → Option (Option (List Char) × List Char)
  | '.' :: rest =>
    match splitDigits rest with
    | ([], _) => none
    | (digits, rest) => some (some digits, rest)
  | cs => some (none, cs)

/-- Reads the signed digits of an exponent up to the end of the text. -/
def exponentOf? (cs : List Char) : Option Int :=
  let (sign, digits) : Int × List Char := match cs with
    | '+' :: rest => (1, rest)
    | '-' :: rest => (-1, rest)
    | cs => (1, cs)
  if digits.isEmpty || !digits.all Char.isDigit then none
  else some (sign * Nat.ofDigitChars 10 digits 0)

/-- Reads an exponent up to the end of the text, if there is one. -/
def splitExponent? : List Char → Option (Option Int)
  | [] => some none
  | c :: rest => if c = 'e' || c = 'E' then (exponentOf? rest).map some else none

/-- The digits of an integer: at least one, and no zero before another. -/
def isWhole : List Char → Bool
  | [] => false
  | c :: rest => c != '0' || rest.isEmpty

/-- The numeral that a whole text is. -/
def ofChars? (cs : List Char) : Option Numeral :=
  let (negative, cs) := splitMinus cs
  let (whole, cs) := splitDigits cs
  if isWhole whole then
    match splitFraction? cs with
    | none => none
    | some (fraction, cs) => (splitExponent? cs).map fun exponent ↦
        { negative, whole, fraction, exponent }
  else none

/-- Takes digits into a 64-bit significand while they fit, and returns those left over. -/
def absorb (significand : Nat) : List Char → Nat × List Char
  | [] => (significand, [])
  | c :: rest =>
    let next := 10 * significand + (c.toNat - '0'.toNat)
    if next < UInt64.size then absorb next rest else (significand, c :: rest)

/-- The power of ten as a double. -/
def powerOfTen (k : Nat) : Float := Float.ofScientific 1 false k

/-- Divides by a power of ten, in steps a double can hold. -/
def divideDown (x : Float) (k : Nat) : Float :=
  if k ≤ 308 then x / powerOfTen k
  else if x == 0 then x
  else divideDown (x / powerOfTen 308) (k - 308)
termination_by k

/-- A significand scaled by a power of ten, unless that overflows. -/
def scale? (significand : Nat) (exponent : Int) : Option Float :=
  let x := significand.toUInt64.toFloat
  match exponent with
  | .ofNat k =>
    if k ≤ 308 then
      let y := x * powerOfTen k
      if y.isInf then none else some y
    else if x == 0 then some x else none
  | .negSucc k => some (divideDown x (k + 1))

/-- The double a numeral denotes, unless it overflows. -/
def float? (n : Numeral) : Option Number :=
  let (significand, dropped) := absorb 0 n.whole
  let digits := n.fraction.getD []
  let (significand, unread) := absorb significand digits
  let point : Int := dropped.length - (digits.length - unread.length : Nat)
  (scale? significand (point + n.exponent.getD 0)).map fun x ↦
    .float (if n.negative then -x else x).toBits

/-- The integer a numeral without fraction and exponent denotes, if it is not minus zero and fits
64 bits. -/
def integer? (n : Numeral) : Option Int :=
  if n.fraction.isSome || n.exponent.isSome then none
  else
    let magnitude := Nat.ofDigitChars 10 n.whole 0
    if n.negative then
      if 0 < magnitude ∧ magnitude ≤ Nat.pow 2 63 then some (-magnitude) else none
    else if magnitude < UInt64.size then some magnitude else none

/-- The number a numeral denotes, unless it overflows. -/
def number? (n : Numeral) : Option Number :=
  match n.integer? with
  | some i => some (.int i)
  | none => n.float?

end Numeral

end Cil.Json
