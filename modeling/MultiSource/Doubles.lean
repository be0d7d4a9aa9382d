import Mathlib.Order.Interval.Set.OrdConnected
import Mathlib.Tactic.LinearCombination
import MultiSource.Number
import MultiSource.Lib.Decimals

/-!
# Doubles and the decimals that read back to them

A finite double is an exact dyadic rational. The rationals that round to it, to nearest and ties to
even, are an interval around it; `jsDigits` is the shortest decimal in that interval, and
`ExpFormat.Correct` is what the standard formatters promise.
-/

namespace MultiSource

open Decimals

namespace F64

def significand (x : F64) : ℕ :=
  if x.biasedExponent = 0 then x.fraction else 2 ^ 52 + x.fraction

def scale (x : F64) : ℤ := (max x.biasedExponent 1 : ℕ) - 1075

/-- The absolute value of a finite double. -/
def magnitude (x : F64) : ℚ := x.significand * 2 ^ x.scale

def isFinite (x : F64) : Bool := x.biasedExponent ≠ 2047

/-- The rationals that round to the magnitude. Below a power of two the next double is half as far
as above it. A tie goes to the even significand. -/
def readsBack (x : F64) : Set ℚ :=
  let gap : ℚ := if x.fraction = 0 ∧ 1 < x.biasedExponent then 1 / 4 else 1 / 2
  let low := ((x.significand : ℚ) - gap) * 2 ^ x.scale
  let high := ((x.significand : ℚ) + 1 / 2) * 2 ^ x.scale
  if x.significand % 2 = 0 then Set.Icc low high else Set.Ioo low high

instance (x : F64) : DecidablePred (· ∈ x.readsBack) := fun q => by
  unfold readsBack
  dsimp only
  split_ifs <;> infer_instance

/-! ## The sign -/

/-- `f64::abs`, for a number that is not special. -/
def abs (x : F64) : F64 := if x.isNegative then x.neg else x

theorem neg_toNat (x : F64) : x.neg.bits.toNat = x.bits.toNat ^^^ 2 ^ 63 := by
  unfold neg
  rw [BitVec.toNat_xor]
  rfl

theorem neg_fraction (x : F64) : x.neg.fraction = x.fraction := by
  unfold fraction
  rw [neg_toNat, Nat.xor_mod_two_pow]
  simp

theorem neg_biasedExponent (x : F64) : x.neg.biasedExponent = x.biasedExponent := by
  unfold biasedExponent
  rw [neg_toNat]
  apply Nat.eq_of_testBit_eq
  intro i
  simp only [Nat.testBit_mod_two_pow, Nat.testBit_div_two_pow, Nat.testBit_xor,
    Nat.testBit_two_pow]
  by_cases hi : i < 11
  · have : ¬ 63 = i + 52 := by omega
    simp [this]
  · simp [hi]

@[simp] theorem isInfinite_neg (x : F64) : x.neg.isInfinite = x.isInfinite := by
  unfold isInfinite
  rw [neg_fraction, neg_biasedExponent]

theorem isZero_abs (x : F64) : x.abs.isZero = x.isZero := by
  unfold abs
  split_ifs
  · unfold isZero
    rw [neg_fraction, neg_biasedExponent]
  · rfl

theorem isFinite_abs (x : F64) : x.abs.isFinite = x.isFinite := by
  unfold abs
  split_ifs
  · unfold isFinite
    rw [neg_biasedExponent]
  · rfl

theorem isFinite_of_not (x : F64) (hn : x.isNan = false) (hi : x.isInfinite = false) :
    x.isFinite = true := by
  unfold isNan at hn
  unfold isInfinite at hi
  unfold isFinite
  simp only [decide_eq_false_iff_not, decide_eq_true_eq] at hn hi ⊢
  tauto

/-! ## What rounds to a double -/

variable {x : F64}

theorem readsBack_ordConnected (x : F64) : x.readsBack.OrdConnected := by
  unfold readsBack
  dsimp only
  split_ifs
  · exact Set.ordConnected_Icc
  · exact Set.ordConnected_Icc
  · exact Set.ordConnected_Ioo
  · exact Set.ordConnected_Ioo

theorem magnitude_mem_readsBack (x : F64) : x.magnitude ∈ x.readsBack := by
  have hscale : (0 : ℚ) < 2 ^ x.scale := by positivity
  unfold readsBack magnitude
  dsimp only
  split_ifs
  all_goals
    constructor
    · nlinarith
    · nlinarith

theorem magnitude_pos (h : x.isZero = false) : 0 < x.magnitude := by
  have hsig : 0 < x.significand := by
    unfold isZero at h
    unfold significand
    split_ifs with he
    · simp only [he, true_and, decide_eq_false_iff_not] at h
      omega
    · omega
  unfold magnitude
  positivity

/-- Every double is a decimal. -/
theorem exists_decimal (h : x.isZero = false) :
    ∃ d : Decimal, 0 < d.digits ∧ d.value = x.magnitude := by
  have hpos := magnitude_pos h
  have hsig : 0 < x.significand := by
    by_contra hz
    simp [magnitude, Nat.eq_zero_of_not_pos hz] at hpos
  by_cases hs : 0 ≤ x.scale
  · refine ⟨⟨x.significand * 2 ^ x.scale.toNat, 0⟩, by positivity, ?_⟩
    unfold Decimal.value magnitude
    have : (2 : ℚ) ^ x.scale = 2 ^ x.scale.toNat := by
      conv_lhs => rw [← Int.toNat_of_nonneg hs, zpow_natCast]
    rw [this]
    push_cast
    ring
  · refine ⟨⟨x.significand * 5 ^ (-x.scale).toNat, x.scale⟩, by positivity, ?_⟩
    unfold Decimal.value magnitude
    have hten : (10 : ℚ) ^ x.scale = 2 ^ x.scale * 5 ^ x.scale := by
      rw [← mul_zpow]
      norm_num
    have hfive : (5 : ℚ) ^ (-x.scale).toNat * 5 ^ x.scale = 1 := by
      rw [← zpow_natCast, Int.toNat_of_nonneg (by omega), ← zpow_add₀ (by norm_num),
        neg_add_cancel, zpow_zero]
    push_cast
    rw [hten]
    linear_combination (x.significand * 2 ^ x.scale : ℚ) * hfive

/-- One of the two decimals of `k + 1` digits around the magnitude reads back. -/
def NeighbourReads (x : F64) (k : ℕ) : Prop :=
  (below k x.magnitude).value ∈ x.readsBack ∨ (above k x.magnitude).value ∈ x.readsBack

instance (x : F64) : DecidablePred x.NeighbourReads := fun _ =>
  inferInstanceAs (Decidable (_ ∨ _))

theorem reaches_iff_neighbourReads (h : x.isZero = false) {k : ℕ} :
    Reaches x.readsBack k ↔ x.NeighbourReads k :=
  reaches_iff (readsBack_ordConnected x) (magnitude_pos h) (magnitude_mem_readsBack x)

theorem exists_neighbourReads (h : x.isZero = false) : ∃ k, x.NeighbourReads k := by
  obtain ⟨d, hd, hv⟩ := exists_decimal h
  exact ⟨_, (reaches_iff_neighbourReads h).mp
    (reaches_of_value hd (hv ▸ magnitude_mem_readsBack x))⟩

/-- One less than the number of digits of the shortest decimals that read back. -/
def shortestLength (x : F64) : ℕ :=
  if h : x.isZero = false then Nat.find (exists_neighbourReads h) else 0

theorem reaches_shortestLength (h : x.isZero = false) :
    Reaches x.readsBack x.shortestLength := by
  unfold shortestLength
  rw [dif_pos h, reaches_iff_neighbourReads h]
  exact Nat.find_spec (exists_neighbourReads h)

theorem not_reaches_of_lt (h : x.isZero = false) {k : ℕ} (hk : k < x.shortestLength) :
    ¬ Reaches x.readsBack k := by
  unfold shortestLength at hk
  rw [dif_pos h] at hk
  rw [reaches_iff_neighbourReads h]
  exact Nat.find_min (exists_neighbourReads h) hk

/-- The nearest decimal of the shortest length reads back. -/
def Faithful (x : F64) : Prop := (nearest x.shortestLength x.magnitude).value ∈ x.readsBack

instance (x : F64) : Decidable x.Faithful := inferInstanceAs (Decidable (_ ∈ x.readsBack))

end F64

/-! ## The formatters -/

/-- A decimal of `k + 1` digits with its point after the first. -/
def expForm (k : ℕ) (d : Decimal) : ExpForm := ⟨decimal d.digits, d.exponent + k⟩

/-- What the standard formatters promise: the shortest form has the fewest digits of any decimal
that reads back, and the form of a given precision is correctly rounded. -/
structure ExpFormat.Correct (float : ExpFormat) : Prop where
  shortest : ∀ x : F64, x.isFinite = true → x.isZero = false → ∃ d : Decimal,
    d.HasLength x.shortestLength ∧ d.value ∈ x.readsBack ∧
      float.shortest x = expForm x.shortestLength d
  precise : ∀ (x : F64) (k : ℕ), x.isFinite = true → x.isZero = false →
    float.precise k x = expForm k (nearest k x.magnitude)

/-- A formatter in exact arithmetic. -/
def exactFormat : ExpFormat where
  shortest x := expForm x.shortestLength (pick x.readsBack x.shortestLength x.magnitude)
  precise k x := expForm k (nearest k x.magnitude)

theorem exactFormat_correct : exactFormat.Correct where
  shortest x _ hz := ⟨_, hasLength_pick (F64.magnitude_pos hz),
    pick_mem (F64.readsBack_ordConnected x) (F64.magnitude_pos hz) (F64.magnitude_mem_readsBack x)
      (F64.reaches_shortestLength hz), rfl⟩
  precise _ _ _ _ := rfl

end MultiSource
