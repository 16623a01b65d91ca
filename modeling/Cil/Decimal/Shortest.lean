/-!
# Shortest decimals

The decimal with the fewest digits that still rounds to a given double. The reals that round to
the double `m * 2 ^ q` form an interval around it; the result is the point of this interval on the
coarsest decimal grid that has one, the nearer of two, and the even one on a tie.
-/

namespace Cil.Decimal

/-- A positive double `m * 2 ^ q`; `isLowest` tells that the next double below is twice as near
as the one above. -/
structure Binary where
  m : Nat
  q : Int
  isLowest : Bool
  deriving DecidableEq, Repr

namespace Binary

/-- The magnitude of the double with these bits; infinities and NaN are read as larger numbers. -/
def ofBits (bits : UInt64) : Binary :=
  let significand : Nat := bits.toNat % Nat.pow 2 52
  let exponent : Nat := bits.toNat / Nat.pow 2 52 % Nat.pow 2 11
  if exponent = 0 then { m := significand, q := -1074, isLowest := false }
  else {
    m := Nat.pow 2 52 + significand
    q := exponent - 1075
    isLowest := significand = 0 ∧ 1 < exponent }

/-- The ratio `2 ^ (q - 2) / 10 ^ p` as numerator and denominator. -/
def quarter (b : Binary) (p : Int) : Nat × Nat :=
  (Nat.pow 2 (b.q - 2).toNat * Nat.pow 10 (-p).toNat,
    Nat.pow 2 (2 - b.q).toNat * Nat.pow 10 p.toNat)

/-- The multiple `c * 10 ^ p` rounds to the double. -/
def roundsTo (b : Binary) (p : Int) (c : Nat) : Bool :=
  let (num, den) := b.quarter p
  let low := (4 * b.m - if b.isLowest then 1 else 2) * num
  let high := (4 * b.m + 2) * num
  if b.m % 2 = 0 then low ≤ c * den ∧ c * den ≤ high
  else low < c * den ∧ c * den < high

/-- The nearest multiple of `10 ^ p` that rounds to the double, the even one on a tie. -/
def onGrid? (b : Binary) (p : Int) : Option Nat :=
  let (num, den) := b.quarter p
  let value := 4 * b.m * num
  let below := value / den
  match b.roundsTo p below, b.roundsTo p (below + 1) with
  | false, false => none
  | true, false => some below
  | false, true => some (below + 1)
  | true, true =>
    let gap := 2 * (value - below * den)
    if gap < den ∨ (gap = den ∧ below % 2 = 0) then some below else some (below + 1)

/-- Looks for a grid with a point, through so many grids from the power `p` downwards. -/
def search (b : Binary) : Nat → Int → Nat × Int
  | 0, p => (0, p)
  | n + 1, p =>
    match b.onGrid? p with
    | some c => (c, p)
    | none => search b n (p - 1)

/-- The digits and the power of ten of the shortest decimal of a positive double. -/
def shortest (b : Binary) : Nat × Int := b.search 640 310

end Binary

end Cil.Decimal
