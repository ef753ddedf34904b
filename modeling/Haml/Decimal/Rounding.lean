import Haml.Text.Basic

/-!
# Rounding

Quotients of natural numbers, rounded to an integer, to a binary64 number, or to a number of decimal
places. A half goes to the even neighbour everywhere.
-/

namespace Haml.Decimal

/-- The integer nearest to a quotient; a half goes to the even neighbour. -/
def roundDiv (numerator denominator : Nat) : Nat :=
  let quotient := numerator / denominator
  let twice := 2 * (numerator % denominator)
  if twice < denominator then quotient
  else if denominator < twice then quotient + 1
  else quotient + quotient % 2

/--
The binary64 number nearest to a quotient, as a quotient again. The quotient is scaled by a power
of two to an integer of 53 binary digits, rounded there, and scaled back; ranges of the exponent
are ignored.
-/
def nearestBinary64 (numerator denominator : Nat) : Nat × Nat :=
  let low := Nat.log2 numerator
  let high := 53 + Nat.log2 denominator
  let scaled := numerator * Nat.pow 2 high
  let down := if denominator * Nat.pow 2 (low + 53) ≤ scaled then low + 1 else low
  (roundDiv scaled (denominator * Nat.pow 2 down) * Nat.pow 2 down, Nat.pow 2 high)

/-- A quotient in decimal notation with a fixed number of places after the point. -/
def fixed (places numerator denominator : Nat) : Text :=
  let unit := Nat.pow 10 places
  let units := roundDiv (numerator * unit) denominator
  let fraction := Text.ofNat (units % unit)
  Text.ofNat (units / unit) ++ '.' :: (List.replicate (places - fraction.length) '0' ++ fraction)

end Haml.Decimal
