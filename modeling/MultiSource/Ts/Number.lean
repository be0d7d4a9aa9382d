import MultiSource.Doubles

/-!
# `Number::toString`

The canonical spelling of a number: the shortest digits that read back, of several the closest to
the number, and of two as close the even ones.
-/

namespace MultiSource.Ts

open Decimals

/-- A finite number above zero. -/
def positiveToString (x : F64) : Str :=
  let d := pick x.readsBack x.shortestLength x.magnitude
  layout (decimal d.digits) (d.exponent + x.shortestLength + 1)

def numberToString (x : F64) : Str :=
  if x.isNan then "NaN".toList
  else if x.isZero then "0".toList
  else if x.isNegative then
    '-' :: if x.neg.isInfinite then "Infinity".toList else positiveToString x.neg
  else if x.isInfinite then "Infinity".toList
  else positiveToString x

end MultiSource.Ts
