import Mathlib.Algebra.Order.Field.Power
import Mathlib.Data.Rat.Floor
import Mathlib.Data.Int.Log
import Mathlib.Data.Nat.Find
import Mathlib.Tactic.FieldSimp
import Mathlib.Tactic.Linarith
import Mathlib.Tactic.Positivity
import Mathlib.Tactic.Ring

/-!
# Decimals of a given length

The decimals with `k` significant digits around a positive rational: the one below it, the one above
it, and the nearest. `Reaches R k` says that some decimal with `k` digits lies in the set `R`; for a
convex `R` around the number, one of the two neighbours then does.
-/

namespace Decimals

/-- `digits · 10 ^ exponent`. -/
structure Decimal where
  digits : ℕ
  exponent : ℤ
  deriving DecidableEq

def Decimal.value (d : Decimal) : ℚ := d.digits * 10 ^ d.exponent

/-- The decimal has `k + 1` digits, the first of them not zero. -/
def Decimal.HasLength (d : Decimal) (k : ℕ) : Prop := 10 ^ k ≤ d.digits ∧ d.digits < 10 ^ (k + 1)

/-- The exponent of the last of `k + 1` digits of `q`. -/
def unitOf (k : ℕ) (q : ℚ) : ℤ := Int.log 10 q - k

/-- `q` in units of its last digit. -/
def scaled (k : ℕ) (q : ℚ) : ℚ := q / 10 ^ unitOf k q

/-- A digit too many is moved into the exponent. -/
def carry (k : ℕ) (d : Decimal) : Decimal :=
  if d.digits = 10 ^ (k + 1) then ⟨10 ^ k, d.exponent + 1⟩ else d

/-- The greatest decimal of `k + 1` digits not above `q`. -/
def below (k : ℕ) (q : ℚ) : Decimal := ⟨⌊scaled k q⌋₊, unitOf k q⟩

/-- The least decimal of `k + 1` digits above `q`. -/
def above (k : ℕ) (q : ℚ) : Decimal := carry k ⟨⌊scaled k q⌋₊ + 1, unitOf k q⟩

/-- The decimal of `k + 1` digits nearest to `q`, of two the one with an even last digit. -/
def nearest (k : ℕ) (q : ℚ) : Decimal :=
  let rest := scaled k q - ⌊scaled k q⌋₊
  if rest < 1 / 2 ∨ rest = 1 / 2 ∧ ⌊scaled k q⌋₊ % 2 = 0 then below k q else above k q

/-- Some decimal of `k + 1` digits is in `R`. -/
def Reaches (R : Set ℚ) (k : ℕ) : Prop := ∃ d : Decimal, d.HasLength k ∧ d.value ∈ R

/-- The nearest decimal of `k + 1` digits if it is in `R`, else the neighbour of `q` that is. -/
def pick (R : Set ℚ) [DecidablePred (· ∈ R)] (k : ℕ) (q : ℚ) : Decimal :=
  if (nearest k q).value ∈ R then nearest k q
  else if (below k q).value ∈ R then below k q
  else above k q

variable {q : ℚ} {k : ℕ}

theorem pow_unitOf (k : ℕ) (q : ℚ) :
    (10 : ℚ) ^ Int.log 10 q = 10 ^ k * 10 ^ unitOf k q := by
  rw [← zpow_natCast, ← zpow_add₀ (by norm_num), unitOf]
  congr 1
  omega

theorem scaled_bounds (hq : 0 < q) : (10 : ℚ) ^ k ≤ scaled k q ∧ scaled k q < 10 ^ (k + 1) := by
  have hlow := Int.zpow_log_le_self (b := 10) (by norm_num) hq
  have hhigh := Int.lt_zpow_succ_log_self (b := 10) (by norm_num) q
  have hpos : (0 : ℚ) < 10 ^ unitOf k q := zpow_pos (by norm_num) _
  push_cast at hlow hhigh
  rw [zpow_add₀ (by norm_num), zpow_one, pow_unitOf k] at hhigh
  rw [pow_unitOf k] at hlow
  unfold scaled
  rw [le_div_iff₀ hpos, div_lt_iff₀ hpos]
  refine ⟨hlow, ?_⟩
  calc q < 10 ^ k * 10 ^ unitOf k q * 10 := hhigh
    _ = 10 ^ (k + 1) * 10 ^ unitOf k q := by ring

theorem scaled_mul (k : ℕ) (q : ℚ) : scaled k q * 10 ^ unitOf k q = q :=
  div_mul_cancel₀ _ (zpow_ne_zero _ (by norm_num))

theorem floor_bounds (hq : 0 < q) : 10 ^ k ≤ ⌊scaled k q⌋₊ ∧ ⌊scaled k q⌋₊ < 10 ^ (k + 1) := by
  obtain ⟨hlow, hhigh⟩ := scaled_bounds (k := k) hq
  constructor
  · exact Nat.le_floor (by exact_mod_cast hlow)
  · exact (Nat.floor_lt (le_trans (by positivity) hlow)).mpr (by exact_mod_cast hhigh)

theorem pow_mul_le {e u : ℤ} (k : ℕ) (h : e < u) :
    (10 : ℚ) ^ (k + 1) * 10 ^ e ≤ 10 ^ k * 10 ^ u := by
  have hstep : (10 : ℚ) ^ (e + 1) ≤ 10 ^ u := zpow_le_zpow_right₀ (by norm_num) (by omega)
  calc (10 : ℚ) ^ (k + 1) * 10 ^ e = 10 ^ k * 10 ^ (e + 1) := by
        rw [zpow_add₀ (by norm_num), zpow_one]
        ring
    _ ≤ 10 ^ k * 10 ^ u := by gcongr

theorem value_carry (k : ℕ) (d : Decimal) : (carry k d).value = d.value := by
  unfold carry
  split_ifs with h
  · unfold Decimal.value
    rw [h, zpow_add₀ (by norm_num), zpow_one]
    push_cast
    ring
  · rfl

/-! ## The two neighbours -/

theorem hasLength_below (hq : 0 < q) : (below k q).HasLength k := floor_bounds hq

theorem hasLength_above (hq : 0 < q) : (above k q).HasLength k := by
  obtain ⟨hlow, hhigh⟩ := floor_bounds (k := k) hq
  unfold above carry Decimal.HasLength
  split_ifs with h
  · exact ⟨le_rfl, Nat.pow_lt_pow_right (by norm_num) (by omega)⟩
  · simp only at h ⊢
    omega

theorem hasLength_nearest (hq : 0 < q) : (nearest k q).HasLength k := by
  unfold nearest
  dsimp only
  split_ifs
  · exact hasLength_below hq
  · exact hasLength_above hq

theorem value_below_le (hq : 0 < q) : (below k q).value ≤ q := by
  have hfloor : (⌊scaled k q⌋₊ : ℚ) ≤ scaled k q :=
    Nat.floor_le (le_trans (by positivity) (scaled_bounds hq).1)
  calc (below k q).value ≤ scaled k q * 10 ^ unitOf k q := by
        unfold below Decimal.value
        gcongr
    _ = q := scaled_mul k q

theorem value_above (k : ℕ) (q : ℚ) :
    (above k q).value = (⌊scaled k q⌋₊ + 1 : ℕ) * 10 ^ unitOf k q :=
  value_carry k _

theorem lt_value_above (k : ℕ) (q : ℚ) : q < (above k q).value := by
  have hfloor : scaled k q < (⌊scaled k q⌋₊ + 1 : ℕ) := by
    push_cast
    exact Nat.lt_floor_add_one _
  rw [value_above]
  calc q = scaled k q * 10 ^ unitOf k q := (scaled_mul k q).symm
    _ < (⌊scaled k q⌋₊ + 1 : ℕ) * 10 ^ unitOf k q := by gcongr

/-- No decimal of the length is between the lower neighbour and `q`. -/
theorem le_below (hq : 0 < q) {d : Decimal} (hd : d.HasLength k) (h : d.value ≤ q) :
    d.value ≤ (below k q).value := by
  have hpow : (10 : ℚ) ^ k ≤ d.digits := by exact_mod_cast hd.1
  rcases lt_trichotomy d.exponent (unitOf k q) with hlt | heq | hgt
  · have hdig : (d.digits : ℚ) ≤ 10 ^ (k + 1) := by exact_mod_cast hd.2.le
    have hbelow : (10 : ℚ) ^ k ≤ ⌊scaled k q⌋₊ := by exact_mod_cast (floor_bounds (k := k) hq).1
    calc d.value ≤ 10 ^ (k + 1) * 10 ^ d.exponent := by
          unfold Decimal.value
          gcongr
      _ ≤ 10 ^ k * 10 ^ unitOf k q := pow_mul_le k hlt
      _ ≤ (below k q).value := by
          unfold below Decimal.value
          gcongr
  · have hscaled : (d.digits : ℚ) ≤ scaled k q := by
      unfold scaled
      rw [le_div_iff₀ (zpow_pos (by norm_num) _), ← heq]
      exact h
    unfold below Decimal.value
    rw [← heq]
    gcongr
    exact Nat.le_floor hscaled
  · have hq' : q < 10 ^ (k + 1) * 10 ^ unitOf k q := by
      rw [← div_lt_iff₀ (zpow_pos (by norm_num) _)]
      exact (scaled_bounds hq).2
    have hle : (10 : ℚ) ^ (k + 1) * 10 ^ unitOf k q ≤ d.value := by
      refine (pow_mul_le k hgt).trans ?_
      unfold Decimal.value
      gcongr
    linarith

/-- No decimal of the length is between `q` and the upper neighbour. -/
theorem above_le (hq : 0 < q) {d : Decimal} (hd : d.HasLength k) (h : q < d.value) :
    (above k q).value ≤ d.value := by
  have hfloor := (floor_bounds (k := k) hq).2
  rw [value_above]
  rcases lt_trichotomy d.exponent (unitOf k q) with hlt | heq | hgt
  · have hdig : (d.digits : ℚ) ≤ 10 ^ (k + 1) := by exact_mod_cast hd.2.le
    have hle : d.value ≤ q := by
      calc d.value ≤ 10 ^ (k + 1) * 10 ^ d.exponent := by
            unfold Decimal.value
            gcongr
        _ ≤ 10 ^ k * 10 ^ unitOf k q := pow_mul_le k hlt
        _ ≤ scaled k q * 10 ^ unitOf k q := by
            gcongr
            exact (scaled_bounds hq).1
        _ = q := scaled_mul k q
    linarith
  · have hscaled : scaled k q < d.digits := by
      unfold scaled
      rw [div_lt_iff₀ (zpow_pos (by norm_num) _), ← heq]
      exact h
    have hdig : ⌊scaled k q⌋₊ < d.digits :=
      (Nat.floor_lt (le_trans (by positivity) (scaled_bounds hq).1)).mpr hscaled
    unfold Decimal.value
    rw [← heq]
    gcongr
    exact hdig
  · have hdig : (10 : ℚ) ^ k ≤ d.digits := by exact_mod_cast hd.1
    have hfloor' : ((⌊scaled k q⌋₊ + 1 : ℕ) : ℚ) ≤ 10 ^ (k + 1) := by exact_mod_cast hfloor
    calc ((⌊scaled k q⌋₊ + 1 : ℕ) : ℚ) * 10 ^ unitOf k q
        ≤ 10 ^ (k + 1) * 10 ^ unitOf k q := by gcongr
      _ ≤ 10 ^ k * 10 ^ d.exponent := pow_mul_le k hgt
      _ ≤ d.value := by
          unfold Decimal.value
          gcongr

/-! ## Decimals in a convex set -/

section Convex

variable {R : Set ℚ} (hR : R.OrdConnected) (hq : 0 < q) (hmem : q ∈ R)

include hR hq hmem

theorem below_or_above_mem {d : Decimal} (hd : d.HasLength k) (h : d.value ∈ R) :
    (below k q).value ∈ R ∨ (above k q).value ∈ R := by
  by_cases hle : d.value ≤ q
  · exact .inl (hR.out h hmem ⟨le_below hq hd hle, value_below_le hq⟩)
  · exact .inr (hR.out hmem h ⟨(lt_value_above k q).le, above_le hq hd (not_le.mp hle)⟩)

theorem reaches_iff : Reaches R k ↔ (below k q).value ∈ R ∨ (above k q).value ∈ R := by
  constructor
  · rintro ⟨d, hd, h⟩
    exact below_or_above_mem hR hq hmem hd h
  · rintro (h | h)
    · exact ⟨_, hasLength_below hq, h⟩
    · exact ⟨_, hasLength_above hq, h⟩

end Convex

theorem hasLength_pick {R : Set ℚ} [DecidablePred (· ∈ R)] (hq : 0 < q) :
    (pick R k q).HasLength k := by
  unfold pick
  split_ifs
  · exact hasLength_nearest hq
  · exact hasLength_below hq
  · exact hasLength_above hq

theorem pick_mem {R : Set ℚ} [DecidablePred (· ∈ R)] (hR : R.OrdConnected) (hq : 0 < q)
    (hmem : q ∈ R) (h : Reaches R k) : (pick R k q).value ∈ R := by
  unfold pick
  split_ifs with hn hb
  · exact hn
  · exact hb
  · exact ((reaches_iff hR hq hmem).mp h).resolve_left hb

/-! ## The remainder -/

/-- What is left of `q` after `k + 1` digits. -/
def remainder (k : ℕ) (q : ℚ) : ℚ := q - ⌊scaled k q⌋₊ * 10 ^ unitOf k q

/-- The remainder is less than half a unit, or half a unit after an even digit. -/
def RoundsDown (k : ℕ) (q : ℚ) : Prop :=
  2 * remainder k q < 10 ^ unitOf k q ∨
    2 * remainder k q = 10 ^ unitOf k q ∧ ⌊scaled k q⌋₊ % 2 = 0

instance (k : ℕ) (q : ℚ) : Decidable (RoundsDown k q) := inferInstanceAs (Decidable (_ ∨ _))

theorem value_below (k : ℕ) (q : ℚ) : (below k q).value = q - remainder k q :=
  (sub_sub_cancel q _).symm

theorem value_above_eq (k : ℕ) (q : ℚ) :
    (above k q).value = q - remainder k q + 10 ^ unitOf k q := by
  rw [value_above, remainder]
  push_cast
  ring

theorem remainder_eq (k : ℕ) (q : ℚ) :
    remainder k q = (scaled k q - ⌊scaled k q⌋₊) * 10 ^ unitOf k q := by
  rw [sub_mul, scaled_mul, remainder]

theorem nearest_eq (k : ℕ) (q : ℚ) :
    nearest k q = if RoundsDown k q then below k q else above k q := by
  have hunit : (0 : ℚ) < 10 ^ unitOf k q := zpow_pos (by norm_num) _
  have hlt : scaled k q - ⌊scaled k q⌋₊ < 1 / 2 ↔ 2 * remainder k q < 10 ^ unitOf k q := by
    rw [remainder_eq]
    constructor
    · intro h
      nlinarith
    · intro h
      by_contra hn
      nlinarith
  have heq : scaled k q - ⌊scaled k q⌋₊ = 1 / 2 ↔ 2 * remainder k q = 10 ^ unitOf k q := by
    rw [remainder_eq]
    constructor
    · intro h
      rw [h]
      ring
    · intro h
      apply mul_right_cancel₀ hunit.ne'
      linarith
  unfold nearest
  exact if_congr (or_congr hlt (and_congr_left' heq)) rfl rfl

/-- A last digit of zero is one digit too many. -/
theorem exists_shorter {d : Decimal} (hd : d.HasLength (k + 1)) (h : d.digits % 10 = 0) :
    ∃ d' : Decimal, d'.HasLength k ∧ d'.value = d.value := by
  have hdig : d.digits = 10 * (d.digits / 10) := by omega
  obtain ⟨hlow, hhigh⟩ := hd
  rw [pow_succ] at hlow
  rw [pow_succ (n := k + 1)] at hhigh
  refine ⟨⟨d.digits / 10, d.exponent + 1⟩, ⟨by dsimp only; omega, by dsimp only; omega⟩, ?_⟩
  unfold Decimal.value
  rw [zpow_add₀ (by norm_num), zpow_one]
  conv_rhs => rw [hdig]
  push_cast
  ring

/-- A last digit that is no zero leaves no room for a greater exponent. -/
theorem exponent_le_of_value {d d' : Decimal} (hd : d.digits % 10 ≠ 0) (h : d.value = d'.value) :
    d'.exponent ≤ d.exponent := by
  by_contra hlt
  obtain ⟨j, hj⟩ : ∃ j : ℕ, d'.exponent = d.exponent + (j + 1 : ℕ) :=
    ⟨(d'.exponent - d.exponent - 1).toNat, by omega⟩
  have hq : (d.digits : ℚ) = 10 * (10 ^ j * d'.digits) := by
    apply mul_right_cancel₀ (zpow_ne_zero d.exponent (by norm_num : (10 : ℚ) ≠ 0))
    calc (d.digits : ℚ) * 10 ^ d.exponent = d'.digits * 10 ^ d'.exponent := h
      _ = 10 * (10 ^ j * d'.digits) * 10 ^ d.exponent := by
        rw [hj, zpow_add₀ (by norm_num), zpow_natCast, pow_succ]
        ring
  have hn : d.digits = 10 * (10 ^ j * d'.digits) := by exact_mod_cast hq
  omega

/-- Of the decimals of one value, only one does not end in a zero. -/
theorem eq_of_value {d d' : Decimal} (hd : d.digits % 10 ≠ 0) (hd' : d'.digits % 10 ≠ 0)
    (h : d.value = d'.value) : d = d' := by
  have hexp : d.exponent = d'.exponent :=
    le_antisymm (exponent_le_of_value hd' h.symm) (exponent_le_of_value hd h)
  have hdig : (d.digits : ℚ) = d'.digits := by
    apply mul_right_cancel₀ (zpow_ne_zero d.exponent (by norm_num : (10 : ℚ) ≠ 0))
    calc (d.digits : ℚ) * 10 ^ d.exponent = d'.digits * 10 ^ d'.exponent := h
      _ = d'.digits * 10 ^ d.exponent := by rw [hexp]
  cases d
  cases d'
  congr
  exact_mod_cast hdig

/-- A number that is a decimal has some length. -/
theorem reaches_of_value {R : Set ℚ} {d : Decimal} (hd : 0 < d.digits) (h : d.value ∈ R) :
    Reaches R (Nat.log 10 d.digits) :=
  ⟨d, ⟨Nat.pow_log_le_self 10 hd.ne', Nat.lt_pow_succ_log_self (by norm_num) _⟩, h⟩

end Decimals
