import Haml.Decimal.Rounding

/-!
# Elapsed time

A time is shown in microseconds up to a millisecond, in milliseconds with one place up to a
second, and in seconds with two places from there on. It is shown as the nearest binary64 number
is.
-/

namespace Haml.Elapsed

/-- A number of milliseconds, given in microseconds. -/
def milliseconds (micros : Nat) : Text :=
  let (numerator, denominator) := Decimal.nearestBinary64 micros 1000
  Decimal.fixed 1 numerator denominator

/-- A number of seconds, given in microseconds: the whole seconds and the rest are rounded apart. -/
def seconds (micros : Nat) : Text :=
  let (numerator, denominator) := Decimal.nearestBinary64 (micros % 1000000) 1000000
  let whole := micros / 1000000
  let (numerator, denominator) :=
    Decimal.nearestBinary64 (whole * denominator + numerator) denominator
  Decimal.fixed 2 numerator denominator

def text (micros : Nat) : Text :=
  if micros < 1000 then Text.ofNat micros ++ "μs".toList
  else if micros < 1000000 then milliseconds micros ++ "ms".toList
  else seconds micros ++ "s".toList

end Haml.Elapsed
