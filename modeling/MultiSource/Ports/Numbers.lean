import Mathlib.Data.List.DropRight
import MultiSource.Doubles
import MultiSource.Go.Number
import MultiSource.Layout
import MultiSource.Ts.Number

/-!
# Numbers in the three ports

Rust and Go spell the nearest decimal of the shortest length, the canonical port a decimal of that
length that reads back. The spellings are the same exactly where the nearest one reads back.
-/

namespace MultiSource.Ports

open Decimals

/-! ## The digits -/

theorem length_decimal {d : Decimal} {k : ℕ} (h : d.HasLength k) :
    (decimal d.digits).length = k + 1 := by
  have hle : (decimal d.digits).length ≤ k + 1 :=
    (Nat.length_toDigits_le_iff (by decide) (Nat.succ_pos k)).mpr h.2
  have hge : ¬ (decimal d.digits).length ≤ k := by
    intro hk
    cases k with
    | zero => exact absurd hk (Nat.not_le.mpr Nat.length_toDigits_pos)
    | succ k =>
      have := (Nat.length_toDigits_le_iff (by decide) (Nat.succ_pos k)).mp hk
      exact absurd h.1 (Nat.not_le.mpr this)
  omega

/-- Digits that do not end in a zero are not trimmed. -/
theorem trimEnd_decimal {n : ℕ} (h : n % 10 ≠ 0) : trimEnd (· = '0') (decimal n) = decimal n := by
  apply List.rdropWhile_eq_self_iff.mpr
  intro hne hlast
  have hvalue := digitsValue_decimal n
  rw [← List.dropLast_append_getLast hne, of_decide_eq_true hlast, digitsValue_concat] at hvalue
  have hzero : '0'.toNat = 48 := rfl
  omega

theorem layout_ne_nil {digits : Str} (h : digits ≠ []) (n : ℤ) : layout digits n ≠ [] := by
  unfold layout
  dsimp only
  split_ifs <;> simp [h]

/-- The two layouts are one. -/
theorem go_layout_eq {digits : Str} (h : digits ≠ []) (n : ℤ) :
    Go.layout digits digits.length n = layout digits n := by
  have hpos := List.length_pos_of_ne_nil h
  unfold Go.layout layout
  dsimp only
  by_cases h₁ : (digits.length : ℤ) ≤ n ∧ n ≤ 21
  · rw [if_pos h₁, if_pos h₁]
  · rw [if_neg h₁, if_neg h₁]
    by_cases h₂ : 1 ≤ n ∧ n ≤ 21
    · rw [if_pos h₂, if_pos ⟨by omega, h₂.2⟩]
    · rw [if_neg h₂, if_neg fun h => h₂ ⟨by omega, h.2⟩]
      by_cases h₃ : -5 ≤ n ∧ n ≤ 0
      · rw [if_pos h₃, if_pos ⟨by omega, h₃.2⟩]
      · rw [if_neg h₃, if_neg fun h => h₃ ⟨by omega, h.2⟩]
        by_cases h₄ : (digits.length : ℤ) = 1
        · rw [if_pos h₄, if_neg (by omega)]
        · rw [if_neg h₄, if_pos (by omega)]

/-! ## A positive number -/

/-- The digits of a decimal and its point. -/
def spelled (k : ℕ) (d : Decimal) : Str := layout (decimal d.digits) (d.exponent + k + 1)

/-- A spelling denotes its decimal. -/
theorem literalValue_spelled {k : ℕ} {d : Decimal} (h : d.HasLength k) :
    literalValue (spelled k d) = d.value := by
  unfold spelled Decimal.value
  rw [literalValue_layout (.decimal _) (decimal_ne_nil _), digitsValue_decimal, length_decimal h]
  congr 2
  push_cast
  ring

section Positive

variable {float : ExpFormat} {x : F64}

theorem shortest_length (hc : float.Correct) (hf : x.isFinite = true) (hz : x.isZero = false) :
    (float.shortest x).digits.length = x.shortestLength + 1 := by
  obtain ⟨d, hd, -, he⟩ := hc.shortest x hf hz
  rw [he]
  exact length_decimal hd

/-- Go spells the nearest decimal. -/
theorem go_positive (hc : float.Correct) (hf : x.isFinite = true) (hz : x.isZero = false) :
    Go.layout (float.precise ((float.shortest x).digits.length - 1) x).digits
        (float.shortest x).digits.length
        ((float.precise ((float.shortest x).digits.length - 1) x).exponent + 1) =
      spelled x.shortestLength (nearest x.shortestLength x.magnitude) := by
  have hlen : (decimal (nearest x.shortestLength x.magnitude).digits).length =
      x.shortestLength + 1 := length_decimal (hasLength_nearest (F64.magnitude_pos hz))
  rw [shortest_length hc hf hz, Nat.add_sub_cancel, hc.precise x _ hf hz]
  unfold expForm spelled
  dsimp only
  rw [← hlen, go_layout_eq (decimal_ne_nil _)]

/-- So does Rust, if its last digit is no zero. -/
theorem rust_positive (hc : float.Correct) (hf : x.isFinite = true) (hz : x.isZero = false)
    (hlast : (nearest x.shortestLength x.magnitude).digits % 10 ≠ 0) :
    formatPositive float x =
      spelled x.shortestLength (nearest x.shortestLength x.magnitude) := by
  unfold formatPositive
  dsimp only
  rw [shortest_length hc hf hz, Nat.add_sub_cancel, hc.precise x _ hf hz]
  unfold expForm spelled
  dsimp only
  rw [trimEnd_decimal hlast, if_neg (decimal_ne_nil _)]

/-- A shortest decimal that reads back has no zero to spare. -/
theorem last_digit_ne_zero (hz : x.isZero = false) {d : Decimal} (hd : d.HasLength x.shortestLength)
    (hr : d.value ∈ x.readsBack) : d.digits % 10 ≠ 0 := by
  intro h0
  cases hk : x.shortestLength with
  | zero =>
    rw [hk] at hd
    obtain ⟨h₁, h₂⟩ := hd
    simp only [pow_zero, zero_add, pow_one] at h₁ h₂
    omega
  | succ k =>
    rw [hk] at hd
    obtain ⟨d', hd', hv⟩ := exists_shorter hd h0
    exact F64.not_reaches_of_lt hz (by omega) ⟨d', hd', hv ▸ hr⟩

/-- The canonical port and Go spell a positive number alike exactly if the nearest decimal reads
back, and then Rust does too. -/
theorem positive_agree_iff {rust go : ExpFormat} (hrust : rust.Correct) (hgo : go.Correct)
    (hf : x.isFinite = true) (hz : x.isZero = false) :
    formatPositive rust x = Ts.positiveToString x ∧
        Go.layout (go.precise ((go.shortest x).digits.length - 1) x).digits
          (go.shortest x).digits.length
          ((go.precise ((go.shortest x).digits.length - 1) x).exponent + 1) =
        Ts.positiveToString x ↔
      x.Faithful := by
  have hpos := F64.magnitude_pos hz
  have hts : Ts.positiveToString x =
      spelled x.shortestLength (pick x.readsBack x.shortestLength x.magnitude) := rfl
  rw [go_positive hgo hf hz, hts]
  constructor
  · rintro ⟨-, he⟩
    have hv := congrArg literalValue he
    rw [literalValue_spelled (hasLength_nearest hpos), literalValue_spelled (hasLength_pick hpos)]
      at hv
    unfold F64.Faithful
    rw [hv]
    exact pick_mem (F64.readsBack_ordConnected x) hpos (F64.magnitude_mem_readsBack x)
      (F64.reaches_shortestLength hz)
  · intro h
    have hpick : pick x.readsBack x.shortestLength x.magnitude =
        nearest x.shortestLength x.magnitude := if_pos h
    rw [hpick, rust_positive hrust hf hz (last_digit_ne_zero hz (hasLength_nearest hpos) h)]
    exact ⟨rfl, rfl⟩

end Positive

/-! ## Any number -/

/-- A number has one spelling: it is special or zero, or the nearest decimal of the shortest length
reads back. -/
def OneSpelling (x : F64) : Prop :=
  x.isNan = true ∨ x.isInfinite = true ∨ x.isZero = true ∨ x.abs.Faithful

theorem go_abs (x : F64) : (if x.isNegative then x.neg else x) = x.abs := rfl

theorem numbers_agree_iff {rust go : ExpFormat} (hrust : rust.Correct) (hgo : go.Correct)
    (x : F64) : formatNumber rust x = Ts.numberToString x ∧
      Go.jsNumberToString go x = Ts.numberToString x ↔ OneSpelling x := by
  unfold OneSpelling formatNumber Ts.numberToString Go.jsNumberToString
  dsimp only
  by_cases hn : x.isNan = true
  · simp [hn]
  · by_cases hz : x.isZero = true
    · have hi : x.isInfinite = false := by
        unfold F64.isZero at hz
        unfold F64.isInfinite
        simp only [decide_eq_true_eq, decide_eq_false_iff_not] at hz ⊢
        omega
      simp [hn, hz, hi]
    · by_cases hi : x.isInfinite = true
      · cases x.isNegative <;> simp [hn, hz, hi]
      · rw [Bool.not_eq_true] at hn hz hi
        have hfin := x.isFinite_abs.trans (x.isFinite_of_not hn hi)
        have hiff := positive_agree_iff hrust hgo hfin (x.isZero_abs.trans hz)
        rw [go_abs]
        cases hs : x.isNegative with
        | true =>
          have habs : x.abs = x.neg := if_pos hs
          rw [habs] at hiff ⊢
          simpa [hn, hz, hi, hs] using hiff
        | false =>
          have habs : x.abs = x := if_neg (by simp [hs])
          rw [habs] at hiff ⊢
          simpa [hn, hz, hi, hs] using hiff

end MultiSource.Ports
