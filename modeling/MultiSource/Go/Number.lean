import MultiSource.Body
import MultiSource.Number
import MultiSource.Lib.Segments

/-!
# Which source a Go body names

`specPathString` and the number formatting behind it, on the exponent forms of the standard
library. The default format of an ordered map is the engine's.
-/

namespace MultiSource.Go

/-- The last stage of `jsNumberToString`: `digits`, `k` of them, with the point at `n`. -/
def layout (digits : Str) (k : ℕ) (n : ℤ) : Str :=
  if k ≤ n ∧ n ≤ 21 then digits ++ List.replicate (n - k).toNat '0'
  else if 0 < n ∧ n ≤ 21 then digits.take n.toNat ++ '.' :: digits.drop n.toNat
  else if -6 < n ∧ n ≤ 0 then "0.".toList ++ List.replicate (-n).toNat '0' ++ digits
  else
    let e := n - 1
    let head := if 1 < k then digits.take 1 ++ '.' :: digits.drop 1 else digits
    head ++ 'e' :: (if e < 0 then '-' else '+') :: decimal e.natAbs

def jsNumberToString (float : ExpFormat) (f : F64) : Str :=
  if f.isNan then "NaN".toList
  else if f.isInfinite ∧ f.isNegative = false then "Infinity".toList
  else if f.isInfinite ∧ f.isNegative then "-Infinity".toList
  else if f.isZero then "0".toList
  else
    let magnitude := if f.isNegative then f.neg else f
    let k := (float.shortest magnitude).digits.length
    let fixed := float.precise (k - 1) magnitude
    let body := layout fixed.digits k (fixed.exponent + 1)
    if f.isNegative then '-' :: body else body

/-- What `%v` makes of a float, and of an ordered map. -/
structure DefaultFormat where
  float : F64 → Str
  orderedMap : Entries Body → Str

mutual

/-- `fmt.Sprintf("%v", value)`. -/
def sprint (format : DefaultFormat) : Body → Str
  | .absent => "<nil>".toList
  | .null => "<nil>".toList
  | .bool flag => if flag then "true".toList else "false".toList
  | .number number => format.float number
  | .string text => text
  | .array items => '[' :: Segments.joined ' ' (sprintItems format items) ++ [']']
  | .object entries => format.orderedMap entries
termination_by structural body => body

def sprintItems (format : DefaultFormat) : List Body → List Str
  | [] => []
  | item :: items => sprint format item :: sprintItems format items
termination_by structural items => items

end

/-- Go has no absent value: it is `nil` as null is. -/
def specPathString (float : ExpFormat) (format : DefaultFormat) : Body → Str
  | .string text => text
  | .number number => jsNumberToString float number
  | .absent => []
  | .null => []
  | value => sprint format value

/-- The reference the action takes from a body. -/
def pathStr (float : ExpFormat) (format : DefaultFormat) : Body → Str
  | .string text => text
  | .object entries =>
    match Entries.get "path".toList entries with
    | some value => specPathString float format value
    | none => []
  | _ => []

end MultiSource.Go
