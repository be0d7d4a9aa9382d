import MultiSource.Value

/-!
# Numbers as text

How a numeric reference is spelled. The two exponent forms of the standard library's formatter are
parameters.
-/

namespace MultiSource

/-- A formatted number: the digits of its mantissa and its power of ten. -/
structure ExpForm where
  digits : Str
  exponent : ℤ

/-- The exponent forms of a formatter: the shortest that reads back, and the one with a given
number of digits after the point. -/
structure ExpFormat where
  shortest : F64 → ExpForm
  precise : ℕ → F64 → ExpForm

/-- The digits with their point at position `n`: the four cases of the specification, in its
order. -/
def layout (digits : Str) (n : ℤ) : Str :=
  let k : ℤ := digits.length
  if k ≤ n ∧ n ≤ 21 then digits ++ List.replicate (n - k).toNat '0'
  else if 1 ≤ n ∧ n ≤ 21 then digits.take n.toNat ++ '.' :: digits.drop n.toNat
  else if -5 ≤ n ∧ n ≤ 0 then "0.".toList ++ List.replicate (-n).toNat '0' ++ digits
  else
    let sign := if n - 1 < 0 then '-' else '+'
    let power := decimal (n - 1).natAbs
    if k = 1 then digits ++ 'e' :: sign :: power
    else digits.take 1 ++ '.' :: digits.drop 1 ++ 'e' :: sign :: power

/-- A number that is neither zero, negative nor special. -/
def formatPositive (float : ExpFormat) (number : F64) : Str :=
  let shortestK := (float.shortest number).digits.length
  let exponential := float.precise (shortestK - 1) number
  let digits := trimEnd (· = '0') exponential.digits
  layout (if digits = [] then "0".toList else digits) (exponential.exponent + 1)

def formatNumber (float : ExpFormat) (number : F64) : Str :=
  if number.isNan then "NaN".toList
  else if number.isZero then "0".toList
  else if number.isNegative then
    '-' :: if number.neg.isInfinite then "Infinity".toList else formatPositive float number.neg
  else if number.isInfinite then "Infinity".toList
  else formatPositive float number

end MultiSource
