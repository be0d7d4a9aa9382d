import MultiSource.Ports.Numbers

/-!
# The layout of digits around their point

The last stage of the two number formatters, with what a slice or a repeat count out of range would
do. On digits that neither begin nor end in a zero both stages finish, with one text for one number.
Positions are integers: the few hundred that a formatter gives are far from any overflow.
-/

namespace MultiSource

/-! ## Operations that can fail -/

/-- `"0"` repeated, which panics at a negative count. -/
def repeatZero (count : ℤ) : Option Str :=
  if 0 ≤ count then some (List.replicate count.toNat '0') else none

/-- The part of an ASCII text between two positions, which panics where they are out of order or
past the end. -/
def slice (s : Str) (start stop : ℤ) : Option Str :=
  if 0 ≤ start ∧ start ≤ stop ∧ stop ≤ s.length then some ((s.take stop.toNat).drop start.toNat)
  else none

/-- An integer in decimal. -/
def integer (n : ℤ) : Str := if n < 0 then '-' :: decimal n.natAbs else decimal n.natAbs

theorem repeatZero_eq {count : ℤ} (h : 0 ≤ count) :
    repeatZero count = some (List.replicate count.toNat '0') := if_pos h

theorem slice_front {s : Str} {n : ℤ} (h₀ : 0 ≤ n) (h : n ≤ s.length) :
    slice s 0 n = some (s.take n.toNat) := if_pos ⟨le_rfl, h₀, h⟩

theorem slice_back {s : Str} {n : ℤ} (h₀ : 0 ≤ n) (h : n ≤ s.length) :
    slice s n s.length = some (s.drop n.toNat) := by
  have hall : s.take (s.length : ℤ).toNat = s := by
    rw [Int.toNat_natCast, List.take_length]
  rw [slice, if_pos ⟨h₀, h, le_rfl⟩, hall]

theorem integer_of_nonneg {n : ℤ} (h : 0 ≤ n) : integer n = decimal n.natAbs :=
  if_neg (by omega)

/-! ## The two stages -/

/-- The four cases at the end of `format_number`, `none` where one of them panics. -/
def layoutChecked (digits : Str) (n : ℤ) : Option Str :=
  let k : ℤ := digits.length
  if k ≤ n ∧ n ≤ 21 then do
    let zeros ← repeatZero (n - k)
    return digits ++ zeros
  else if 1 ≤ n ∧ n ≤ 21 then do
    let point := n
    let whole ← slice digits 0 point
    let fraction ← slice digits point k
    return whole ++ '.' :: fraction
  else if -5 ≤ n ∧ n ≤ 0 then do
    let zeros ← repeatZero (-n)
    return "0.".toList ++ zeros ++ digits
  else
    let sign := if n - 1 < 0 then '-' else '+'
    let power := integer |n - 1|
    if k = 1 then some (digits ++ 'e' :: sign :: power)
    else do
      let head ← slice digits 0 1
      let tail ← slice digits 1 k
      return head ++ '.' :: tail ++ 'e' :: sign :: power

/-- The four cases of `jsNumberToString`, for `digits` whose number is taken to be `k`. -/
def Go.layoutChecked (digits : Str) (k : ℕ) (n : ℤ) : Option Str :=
  if k ≤ n ∧ n ≤ 21 then do
    let zeros ← repeatZero (n - k)
    return digits ++ zeros
  else if 0 < n ∧ n ≤ 21 then do
    let whole ← slice digits 0 n
    let fraction ← slice digits n digits.length
    return whole ++ '.' :: fraction
  else if -6 < n ∧ n ≤ 0 then do
    let zeros ← repeatZero (-n)
    return "0.".toList ++ zeros ++ digits
  else do
    let e := n - 1
    let head ←
      if 1 < k then do
        let head ← slice digits 0 1
        let tail ← slice digits 1 digits.length
        pure (head ++ '.' :: tail)
      else pure digits
    let sign := if e < 0 then '-' else '+'
    let e := if e < 0 then -e else e
    return head ++ 'e' :: sign :: integer e

section Stages

variable {digits : Str}

theorem layoutChecked_eq (h : digits ≠ []) (n : ℤ) :
    layoutChecked digits n = some (layout digits n) := by
  have hpos := List.length_pos_of_ne_nil h
  have hpower : integer |n - 1| = decimal (n - 1).natAbs := by
    rw [integer_of_nonneg (abs_nonneg _), Int.natAbs_abs]
  unfold layoutChecked layout
  dsimp only
  rw [hpower]
  generalize (if n - 1 < 0 then '-' else '+') = sign
  split_ifs with h₁ h₂ h₃ h₄
  · rw [repeatZero_eq (by omega)]
    rfl
  · rw [slice_front (by omega) (by omega), slice_back (by omega) (by omega)]
    rfl
  · rw [repeatZero_eq (by omega)]
    rfl
  · rfl
  · rw [slice_front (by omega) (by omega), slice_back (by omega) (by omega)]
    rfl

theorem Go.layoutChecked_eq (h : digits ≠ []) (n : ℤ) :
    Go.layoutChecked digits digits.length n = some (Go.layout digits digits.length n) := by
  have hpos := List.length_pos_of_ne_nil h
  have hpower : integer (if n - 1 < 0 then -(n - 1) else n - 1) = decimal (n - 1).natAbs := by
    split_ifs with hn
    · rw [integer_of_nonneg (by omega), Int.natAbs_neg]
    · exact integer_of_nonneg (by omega)
  unfold Go.layoutChecked Go.layout
  dsimp only
  rw [hpower]
  generalize (if n - 1 < 0 then '-' else '+') = sign
  split_ifs with h₁ h₂ h₃ h₄
  · rw [repeatZero_eq (by omega)]
    rfl
  · rw [slice_front (by omega) (by omega), slice_back (by omega) (by omega)]
    rfl
  · rw [repeatZero_eq (by omega)]
    rfl
  · rw [slice_front (by omega) (by omega), slice_back (by omega) (by omega)]
    rfl
  · rfl

example : layoutChecked "15".toList (-6) = some "1.5e-7".toList := by decide

/-- The exponent form is taken past 21 places before the point and from 6 zeros after it. -/
theorem mem_layout_iff (hd : AllDigits digits) (h : digits ≠ []) (n : ℤ) :
    'e' ∈ layout digits n ↔ 21 < n ∨ n ≤ -6 := by
  have hmem : 'e' ∉ digits := hd.not_mem rfl
  have hzeros : ∀ j, 'e' ∉ List.replicate j '0' := fun j => (AllDigits.zeros j).not_mem rfl
  have hform := laidOut_layout h n
  generalize layout digits n = text at hform ⊢
  cases hform with
  | whole zeros point bound =>
    apply iff_of_false _ (by omega)
    simp [hmem, hzeros]
  | inside front back split nonempty point bound =>
    subst split
    apply iff_of_false _ (by omega)
    simpa using hmem
  | after zeros point bound =>
    apply iff_of_false _ (by omega)
    simp [hmem, hzeros]
  | power power single value bound =>
    apply iff_of_true _ bound
    simp
  | pointPower front back power split single value bound =>
    apply iff_of_true _ bound
    simp

end Stages

/-! ## One text for one number -/

namespace Significand

open Decimals

/-- What the text denotes, with the point at `n`. -/
def decimalAt (s : Significand) (n : ℤ) : Decimal := ⟨digitsValue s.digits, n - s.digits.length⟩

theorem literalValue_eq (s : Significand) (n : ℤ) :
    literalValue (layout s.digits n) = (s.decimalAt n).value :=
  literalValue_layout s.allDigits s.ne_nil n

theorem eq_of_digitsValue {s t : Significand} (h : digitsValue s.digits = digitsValue t.digits) :
    s = t := by
  apply Significand.ext
  rw [← decimal_digitsValue s.allDigits s.ne_nil s.head_ne_zero, h,
    decimal_digitsValue t.allDigits t.ne_nil t.head_ne_zero]

theorem layout_inj {s t : Significand} {m n : ℤ} (h : layout s.digits m = layout t.digits n) :
    s = t ∧ m = n := by
  have hvalue : (s.decimalAt m).value = (t.decimalAt n).value := by
    rw [← literalValue_eq, h, literalValue_eq]
  have hdec : s.decimalAt m = t.decimalAt n :=
    eq_of_value (digitsValue_mod_ne_zero s.allDigits s.ne_nil s.last_ne_zero)
      (digitsValue_mod_ne_zero t.allDigits t.ne_nil t.last_ne_zero) hvalue
  obtain rfl := eq_of_digitsValue (congrArg Decimal.digits hdec)
  have hexp := congrArg Decimal.exponent hdec
  exact ⟨rfl, sub_left_injective hexp⟩

end Significand

/-- **Number layout.** On digits that neither begin nor end in a zero, the two stages finish with
one text: a literal of the digits' value with the point where it was put, in exponent form exactly
past 21 places and from 6 zeros on, and of no other digits or point. -/
theorem layouts_denote_and_differ (s : Significand) (n : ℤ) :
    layoutChecked s.digits n = some (layout s.digits n) ∧
    Go.layoutChecked s.digits s.digits.length n = some (layout s.digits n) ∧
    literalValue (layout s.digits n) = digitsValue s.digits * 10 ^ (n - s.digits.length) ∧
    ('e' ∈ layout s.digits n ↔ 21 < n ∨ n ≤ -6) ∧
    ∀ (t : Significand) (m : ℤ), layout t.digits m = layout s.digits n → t = s ∧ m = n := by
  refine ⟨layoutChecked_eq s.ne_nil n, ?_, s.literalValue_eq n, ?_, fun t m => ?_⟩
  · rw [Go.layoutChecked_eq s.ne_nil, Ports.go_layout_eq s.ne_nil]
  · exact mem_layout_iff s.allDigits s.ne_nil n
  · exact Significand.layout_inj

end MultiSource
