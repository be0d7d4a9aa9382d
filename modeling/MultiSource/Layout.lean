import Mathlib.Algebra.Order.Field.Power
import Mathlib.Data.List.DropRight
import Mathlib.Data.List.TakeWhile
import Mathlib.Tactic.Ring
import MultiSource.Number

/-!
# What a number's text denotes

The layout of a number reads back, as a decimal literal, to its digits with the point where it was
put.
-/

namespace MultiSource

/-- The text before the first `c`, and the text after it. -/
def cut (c : Char) (s : Str) : Str × Str := (s.takeWhile (· ≠ c), (s.dropWhile (· ≠ c)).drop 1)

def digitsValue (digits : Str) : ℕ := Nat.ofDigitChars 10 digits 0

/-- The power of ten after an `e`. -/
def powerValue : Str → ℤ
  | '-' :: digits => -digitsValue digits
  | '+' :: digits => digitsValue digits
  | digits => digitsValue digits

/-- The number a decimal literal without a sign denotes. -/
def literalValue (text : Str) : ℚ :=
  let mantissa := cut 'e' text
  let parts := cut '.' mantissa.1
  digitsValue (parts.1 ++ parts.2) * 10 ^ (powerValue mantissa.2 - parts.2.length)

example : literalValue "12.5e-1".toList = 5 / 4 := by decide +kernel

variable {c : Char} {a b : Str}

theorem cut_append (h : c ∉ a) : cut c (a ++ c :: b) = (a, b) := by
  have hp : ∀ d ∈ a, (decide (d ≠ c)) = true := fun d hd => by
    simpa using fun he : d = c => h (he ▸ hd)
  unfold cut
  rw [List.takeWhile_append_of_pos hp, List.dropWhile_append_of_pos hp]
  simp

theorem cut_of_not_mem (h : c ∉ a) : cut c a = (a, []) := by
  have hp : ∀ d ∈ a, (decide (d ≠ c)) = true := fun d hd => by
    simpa using fun he : d = c => h (he ▸ hd)
  unfold cut
  rw [List.takeWhile_eq_self_iff.mpr hp, List.dropWhile_eq_nil_iff.mpr hp]
  rfl

/-- Only decimal digits. -/
def AllDigits (s : Str) : Prop := ∀ d ∈ s, d.isDigit = true

namespace AllDigits

theorem not_mem (h : AllDigits a) (hc : c.isDigit = false) : c ∉ a := fun hm => by
  rw [h c hm] at hc
  cases hc

theorem append (ha : AllDigits a) (hb : AllDigits b) : AllDigits (a ++ b) := fun d hd =>
  (List.mem_append.mp hd).elim (ha d) (hb d)

theorem of_append (h : AllDigits (a ++ b)) : AllDigits a ∧ AllDigits b :=
  ⟨fun d hd => h d (List.mem_append_left _ hd), fun d hd => h d (List.mem_append_right _ hd)⟩

theorem zeros (n : ℕ) : AllDigits (List.replicate n '0') := fun d hd => by
  rw [List.eq_of_mem_replicate hd]
  rfl

theorem decimal (n : ℕ) : AllDigits (decimal n) := fun d hd =>
  Nat.isDigit_of_mem_toDigits (by decide) (by decide) hd

end AllDigits

/-! ## Values -/

theorem digitsValue_append_zeros (a : Str) (n : ℕ) :
    digitsValue (a ++ List.replicate n '0') = 10 ^ n * digitsValue a := by
  unfold digitsValue
  rw [Nat.ofDigitChars_append, Nat.ofDigitChars_replicate_zero]

theorem digitsValue_zeros_append (n : ℕ) (a : Str) :
    digitsValue (List.replicate n '0' ++ a) = digitsValue a := by
  unfold digitsValue
  rw [Nat.ofDigitChars_append, Nat.ofDigitChars_replicate_zero, Nat.mul_zero]

@[simp] theorem digitsValue_decimal (n : ℕ) : digitsValue (decimal n) = n :=
  Nat.ofDigitChars_ten_toDigits

theorem digitsValue_concat (a : Str) (c : Char) :
    digitsValue (a ++ [c]) = 10 * digitsValue a + (c.toNat - 48) := by
  unfold digitsValue
  rw [Nat.ofDigitChars_append, Nat.ofDigitChars_cons, Nat.ofDigitChars_nil]
  rfl

theorem digit_bounds {c : Char} (h : c.isDigit = true) : 48 ≤ c.toNat ∧ c.toNat < 58 := by
  obtain ⟨hlow, hhigh⟩ := Char.isDigit_iff_toNat.mp h
  exact ⟨hlow, Nat.lt_succ_of_le hhigh⟩

theorem digitChar_digit {c : Char} (h : c.isDigit = true) : (c.toNat - 48).digitChar = c := by
  obtain ⟨hlow, hhigh⟩ := digit_bounds h
  apply Char.toNat_inj.mp
  rw [Nat.toNat_digitChar_of_lt_ten (by omega)]
  omega

theorem decimal_concat {n d : ℕ} (hn : 0 < n) (hd : d < 10) :
    decimal (10 * n + d) = decimal n ++ [d.digitChar] := by
  unfold decimal
  rw [← Nat.toDigits_append_toDigits (by decide) hn hd, Nat.toDigits_of_lt_base hd]

theorem decimal_ne_nil (n : ℕ) : decimal n ≠ [] := Nat.toDigits_ne_nil

theorem head_decimal_ne_zero {n : ℕ} (hn : 0 < n) : (decimal n).head? ≠ some '0' := by
  induction n using Nat.strong_induction_on with
  | _ n ih =>
    by_cases hlt : n < 10
    · rw [decimal, Nat.toDigits_of_lt_base hlt, List.head?_cons, ne_eq, Option.some.injEq,
        Nat.digitChar_eq_zero]
      omega
    · have hsplit : n = 10 * (n / 10) + n % 10 := by omega
      rw [hsplit, decimal_concat (by omega) (by omega),
        List.head?_append_of_ne_nil _ (decimal_ne_nil _)]
      exact ih (n / 10) (by omega) (by omega)

/-- Digits that do not begin with a zero are the decimal of their value. -/
theorem decimal_digitsValue {digits : Str} (hd : AllDigits digits) (hne : digits ≠ [])
    (hhead : digits.head? ≠ some '0') : decimal (digitsValue digits) = digits := by
  induction digits using List.reverseRecOn with
  | nil => exact absurd rfl hne
  | append_singleton init c ih =>
    obtain ⟨hinit, hlast⟩ := AllDigits.of_append hd
    have hc := hlast c (List.mem_singleton_self c)
    obtain ⟨hlow, hhigh⟩ := digit_bounds hc
    rw [digitsValue_concat]
    by_cases hi : init = []
    · subst hi
      have hzero : digitsValue [] = 0 := rfl
      rw [hzero, Nat.mul_zero, Nat.zero_add, decimal, Nat.toDigits_of_lt_base (by omega),
        digitChar_digit hc, List.nil_append]
    · have hih : decimal (digitsValue init) = init :=
        ih hinit hi (by rwa [List.head?_append_of_ne_nil _ hi] at hhead)
      have hpos : digitsValue init ≠ 0 := by
        intro hz
        rw [hz] at hih
        rw [← hih] at hhead
        exact hhead rfl
      rw [decimal_concat (by omega) (by omega), hih, digitChar_digit hc]

/-- The value of digits that do not end in a zero does not either. -/
theorem digitsValue_mod_ne_zero {digits : Str} (hd : AllDigits digits) (hne : digits ≠ [])
    (hlast : digits.getLast? ≠ some '0') : digitsValue digits % 10 ≠ 0 := by
  obtain ⟨init, c, rfl⟩ : ∃ init c, digits = init ++ [c] :=
    ⟨_, _, (List.dropLast_append_getLast hne).symm⟩
  have hcode : c.toNat ≠ 48 := by
    intro he
    apply hlast
    rw [List.getLast?_concat, Char.toNat_inj.mp (he.trans rfl : c.toNat = '0'.toNat)]
  obtain ⟨hlow, hhigh⟩ := digit_bounds (hd c (by simp))
  rw [digitsValue_concat]
  omega

/-! ## Digits without a zero to spare -/

/-- Digits that neither begin nor end in a zero. -/
@[ext] structure Significand where
  digits : Str
  allDigits : AllDigits digits
  ne_nil : digits ≠ []
  head_ne_zero : digits.head? ≠ some '0'
  last_ne_zero : digits.getLast? ≠ some '0'

theorem trimEnd_isPrefix (p : Char → Bool) (s : Str) : trimEnd p s <+: s :=
  List.rdropWhile_prefix p s

theorem getLast?_trimEnd_ne {p : Char → Bool} (hc : p c = true) (s : Str) :
    (trimEnd p s).getLast? ≠ some c := by
  intro hlast
  obtain ⟨hne, rfl⟩ := List.mem_getLast?_eq_getLast (Option.mem_def.mpr hlast)
  exact List.rdropWhile_last_not p s hne hc

theorem trimEnd_decimal_ne_nil {n : ℕ} (hn : 0 < n) : trimEnd (· = '0') (decimal n) ≠ [] := by
  intro hnil
  obtain ⟨c, rest, hdecimal⟩ := List.exists_cons_of_ne_nil (decimal_ne_nil n)
  have hall : ∀ c ∈ decimal n, decide (c = '0') = true := List.rdropWhile_eq_nil_iff.mp hnil
  apply head_decimal_ne_zero hn
  rw [hdecimal, List.head?_cons, of_decide_eq_true (hall c (by rw [hdecimal]; simp))]

/-- The digits of a positive number without the zeros at their end. -/
def Significand.trimmed (n : ℕ) (hn : 0 < n) : Significand where
  digits := trimEnd (· = '0') (decimal n)
  allDigits := fun d hd => AllDigits.decimal n d ((trimEnd_isPrefix _ _).subset hd)
  ne_nil := trimEnd_decimal_ne_nil hn
  head_ne_zero := by
    obtain ⟨rest, hrest⟩ := trimEnd_isPrefix (· = '0') (decimal n)
    have hhead := head_decimal_ne_zero hn
    rwa [← hrest, List.head?_append_of_ne_nil _ (trimEnd_decimal_ne_nil hn)] at hhead
  last_ne_zero := getLast?_trimEnd_ne rfl _

example : (Significand.trimmed 150 (by decide)).digits = "15".toList := by decide

/-! ## Literals -/

theorem powerValue_signed (n : ℤ) :
    powerValue ((if n < 0 then '-' else '+') :: decimal n.natAbs) = n := by
  split_ifs with h
  · show -(digitsValue (decimal n.natAbs) : ℤ) = n
    rw [digitsValue_decimal]
    omega
  · show (digitsValue (decimal n.natAbs) : ℤ) = n
    rw [digitsValue_decimal]
    omega

section Literals

variable {whole fraction : Str}

/-- A literal without an exponent. -/
theorem literalValue_point (hw : AllDigits whole) (hf : AllDigits fraction) :
    literalValue (whole ++ '.' :: fraction) =
      digitsValue (whole ++ fraction) * 10 ^ (-fraction.length : ℤ) := by
  have he : 'e' ∉ whole ++ '.' :: fraction := by
    simp [hw.not_mem (c := 'e') rfl, hf.not_mem (c := 'e') rfl]
  unfold literalValue
  rw [cut_of_not_mem he]
  dsimp only
  rw [cut_append (hw.not_mem rfl)]
  simp [powerValue, digitsValue]

theorem literalValue_whole (hw : AllDigits whole) : literalValue whole = digitsValue whole := by
  unfold literalValue
  rw [cut_of_not_mem (hw.not_mem rfl)]
  dsimp only
  rw [cut_of_not_mem (hw.not_mem rfl)]
  simp [powerValue, digitsValue]

theorem literalValue_exp (hw : AllDigits whole) (power : Str) :
    literalValue (whole ++ 'e' :: power) = digitsValue whole * 10 ^ powerValue power := by
  unfold literalValue
  rw [cut_append (hw.not_mem rfl)]
  dsimp only
  rw [cut_of_not_mem (hw.not_mem rfl)]
  simp

theorem literalValue_point_exp (hw : AllDigits whole) (hf : AllDigits fraction) (power : Str) :
    literalValue (whole ++ '.' :: fraction ++ 'e' :: power) =
      digitsValue (whole ++ fraction) * 10 ^ (powerValue power - fraction.length) := by
  have he : 'e' ∉ whole ++ '.' :: fraction := by
    simp [hw.not_mem (c := 'e') rfl, hf.not_mem (c := 'e') rfl]
  unfold literalValue
  rw [cut_append he]
  dsimp only
  rw [cut_append (hw.not_mem rfl)]

end Literals

/-! ## The forms of a layout -/

/-- The texts that spell `digits` with the point at `n`. -/
inductive LaidOut (digits : Str) (n : ℤ) : Str → Prop
  | whole (zeros : ℕ) (point : n = digits.length + zeros) (bound : n ≤ 21) :
      LaidOut digits n (digits ++ List.replicate zeros '0')
  | inside (front back : Str) (split : digits = front ++ back) (nonempty : front ≠ [])
      (point : n = front.length) (bound : n ≤ 21) : LaidOut digits n (front ++ '.' :: back)
  | after (zeros : ℕ) (point : n = -zeros) (bound : -5 ≤ n) :
      LaidOut digits n ('0' :: '.' :: (List.replicate zeros '0' ++ digits))
  | power (power : Str) (single : digits.length = 1) (value : powerValue power = n - 1)
      (bound : 21 < n ∨ n ≤ -6) : LaidOut digits n (digits ++ 'e' :: power)
  | pointPower (front back power : Str) (split : digits = front ++ back)
      (single : front.length = 1) (value : powerValue power = n - 1) (bound : 21 < n ∨ n ≤ -6) :
      LaidOut digits n (front ++ '.' :: back ++ 'e' :: power)

section Layouts

variable {digits : Str}

theorem laidOut_layout (hne : digits ≠ []) (n : ℤ) : LaidOut digits n (layout digits n) := by
  have hpos := List.length_pos_of_ne_nil hne
  have hvalue := powerValue_signed (n - 1)
  unfold layout
  dsimp only
  generalize (if n - 1 < 0 then '-' else '+') = sign at hvalue ⊢
  split_ifs with h₁ h₂ h₃ h₄
  · exact .whole _ (by omega) h₁.2
  · refine .inside _ _ (List.take_append_drop n.toNat digits).symm ?_ ?_ h₂.2
    · rw [ne_eq, List.take_eq_nil_iff, not_or]
      exact ⟨by omega, hne⟩
    · rw [List.length_take]
      omega
  · exact .after _ (by omega) h₃.1
  · exact .power _ (by omega) hvalue (by omega)
  · refine .pointPower _ _ _ (List.take_append_drop 1 digits).symm ?_ hvalue (by omega)
    rw [List.length_take]
    omega

/-- The layout of some digits denotes them, with the point at `n`. -/
theorem literalValue_layout (hd : AllDigits digits) (hne : digits ≠ []) (n : ℤ) :
    literalValue (layout digits n) = digitsValue digits * 10 ^ (n - digits.length) := by
  have hform := laidOut_layout hne n
  generalize layout digits n = text at hform ⊢
  cases hform with
  | whole zeros point =>
    rw [literalValue_whole (hd.append (.zeros _)), digitsValue_append_zeros, mul_comm, point,
      add_sub_cancel_left, zpow_natCast]
    push_cast
    rfl
  | inside front back split nonempty point =>
    subst split
    obtain ⟨hfront, hback⟩ := hd.of_append
    rw [literalValue_point hfront hback, List.length_append]
    congr 2
    omega
  | after zeros point =>
    have hvalue : digitsValue (['0'] ++ (List.replicate zeros '0' ++ digits)) =
        digitsValue digits := by
      rw [← List.append_assoc]
      exact digitsValue_zeros_append (zeros + 1) digits
    have hzero : AllDigits ['0'] := AllDigits.zeros 1
    show literalValue (['0'] ++ '.' :: (List.replicate zeros '0' ++ digits)) = _
    rw [literalValue_point hzero ((AllDigits.zeros _).append hd), hvalue, List.length_append,
      List.length_replicate]
    congr 2
    omega
  | power power single value =>
    rw [literalValue_exp hd, value, single]
    rfl
  | pointPower front back power split single value =>
    subst split
    obtain ⟨hfront, hback⟩ := hd.of_append
    rw [literalValue_point_exp hfront hback, value, List.length_append, single]
    congr 2
    omega

end Layouts

end MultiSource
