import MultiSource.Ports.Numbers

/-!
# Whether a number's name is its own

Rust and Go spell the decimal nearest to a number, of the length of the shortest that reads back.
Around a power of two what reads back reaches half as far down as up, and the nearest may lie
outside.
-/

namespace MultiSource

open Decimals

namespace F64

variable {x y : F64} {q v w : ℚ}

/-- The number below is half as far away as the number above. -/
def Uneven (x : F64) : Prop := x.fraction = 0 ∧ 1 < x.biasedExponent

instance (x : F64) : Decidable x.Uneven := inferInstanceAs (Decidable (_ ∧ _))

/-- A power of two whose remainder after the digits of the shortest length is rounded off though it
is more than a quarter of the spacing. -/
def Strays (x : F64) : Prop :=
  x.Uneven ∧ 2 ^ x.scale / 4 < remainder x.shortestLength x.magnitude ∧
    RoundsDown x.shortestLength x.magnitude

instance (x : F64) : Decidable x.Strays := inferInstanceAs (Decidable (_ ∧ _))

theorem mem_readsBack_of_uneven (h : x.Uneven) :
    q ∈ x.readsBack ↔ x.magnitude - 2 ^ x.scale / 4 ≤ q ∧ q ≤ x.magnitude + 2 ^ x.scale / 2 := by
  have hsig : x.significand % 2 = 0 := by
    obtain ⟨hf, hb⟩ := h
    unfold significand
    rw [if_neg (by omega), hf]
    rfl
  have hlow : ((x.significand : ℚ) - 1 / 4) * 2 ^ x.scale = x.magnitude - 2 ^ x.scale / 4 := by
    rw [magnitude]
    ring
  have hhigh : ((x.significand : ℚ) + 1 / 2) * 2 ^ x.scale = x.magnitude + 2 ^ x.scale / 2 := by
    rw [magnitude]
    ring
  unfold readsBack
  unfold Uneven at h
  dsimp only
  rw [if_pos hsig, if_pos h, hlow, hhigh]
  exact Iff.rfl

theorem mem_readsBack_of_even (h : ¬ x.Uneven) :
    q ∈ x.readsBack ↔ if x.significand % 2 = 0 then |q - x.magnitude| ≤ 2 ^ x.scale / 2
      else |q - x.magnitude| < 2 ^ x.scale / 2 := by
  have hlow : ((x.significand : ℚ) - 1 / 2) * 2 ^ x.scale = x.magnitude - 2 ^ x.scale / 2 := by
    rw [magnitude]
    ring
  have hhigh : ((x.significand : ℚ) + 1 / 2) * 2 ^ x.scale = x.magnitude + 2 ^ x.scale / 2 := by
    rw [magnitude]
    ring
  unfold readsBack
  unfold Uneven at h
  dsimp only
  rw [if_neg h, hlow, hhigh]
  split_ifs with hsig
  · rw [abs_sub_le_iff, Set.mem_Icc]
    constructor
    · intro h
      constructor <;> linarith
    · intro h
      constructor <;> linarith
  · rw [abs_sub_lt_iff, Set.mem_Ioo]
    constructor
    · intro h
      constructor <;> linarith
    · intro h
      constructor <;> linarith

/-- What is as near as something that reads back does, unless the spacing is uneven. -/
theorem mem_readsBack_of_closer (h : ¬ x.Uneven) (hw : w ∈ x.readsBack)
    (hd : |v - x.magnitude| ≤ |w - x.magnitude|) : v ∈ x.readsBack := by
  rw [mem_readsBack_of_even h] at hw ⊢
  split_ifs at hw ⊢ with hsig
  · exact hd.trans hw
  · exact hd.trans_lt hw

/-- Where both neighbours of a number are as far, the nearer of the two decimals reads back since
one of them does. -/
theorem faithful_of_even (hz : x.isZero = false) (hu : ¬ x.Uneven) : x.Faithful := by
  have hreach := (reaches_iff_neighbourReads hz).mp (reaches_shortestLength hz)
  unfold NeighbourReads at hreach
  have hbelow := value_below x.shortestLength x.magnitude
  have habove := value_above_eq x.shortestLength x.magnitude
  have hle := value_below_le (k := x.shortestLength) (magnitude_pos hz)
  have hlt := lt_value_above x.shortestLength x.magnitude
  unfold Faithful
  rw [nearest_eq]
  split_ifs with hd
  · have hhalf : 2 * remainder x.shortestLength x.magnitude ≤
        10 ^ unitOf x.shortestLength x.magnitude := hd.elim le_of_lt fun h => h.1.le
    rcases hreach with h | h
    · exact h
    · apply mem_readsBack_of_closer hu h
      rw [abs_of_nonpos (by linarith), abs_of_pos (by linarith)]
      linarith
  · unfold RoundsDown at hd
    push Not at hd
    have hhalf := hd.1
    rcases hreach with h | h
    · apply mem_readsBack_of_closer hu h
      rw [abs_of_pos (by linarith), abs_of_nonpos (by linarith)]
      linarith
    · exact h

/-- The nearest decimal of the shortest length reads back unless the number strays. -/
theorem faithful_iff (hz : x.isZero = false) : x.Faithful ↔ ¬ x.Strays := by
  by_cases hu : x.Uneven
  · have hreach := (reaches_iff_neighbourReads hz).mp (reaches_shortestLength hz)
    unfold NeighbourReads at hreach
    have hbelow := value_below x.shortestLength x.magnitude
    have habove := value_above_eq x.shortestLength x.magnitude
    have hle := value_below_le (k := x.shortestLength) (magnitude_pos hz)
    have hlt := lt_value_above x.shortestLength x.magnitude
    have hscale : (0 : ℚ) < 2 ^ x.scale := by positivity
    unfold Faithful Strays
    rw [mem_readsBack_of_uneven hu, mem_readsBack_of_uneven hu] at hreach
    rw [nearest_eq, mem_readsBack_of_uneven hu]
    by_cases hd : RoundsDown x.shortestLength x.magnitude
    · -- what is rounded off must stay within a quarter
      rw [if_pos hd]
      constructor
      · rintro ⟨h, -⟩ ⟨-, hs, -⟩
        linarith
      · intro h
        have : ¬ 2 ^ x.scale / 4 < remainder x.shortestLength x.magnitude := fun hs =>
          h ⟨hu, hs, hd⟩
        constructor <;> linarith
    · -- what is added is at most what would be rounded off
      rw [if_neg hd]
      unfold RoundsDown at hd
      push Not at hd
      apply iff_of_true
      · rcases hreach with h | h
        · have := hd.1
          constructor <;> linarith
        · exact h
      · rintro ⟨-, -, hs⟩
        rcases hs with hs | ⟨hs, hpar⟩
        · exact absurd hs (not_lt.mpr hd.1)
        · exact hd.2 hs hpar
  · exact iff_of_true (faithful_of_even hz hu) fun h => hu h.1

/-! ## No two numbers read back from one decimal -/

theorem le_high (h : q ∈ x.readsBack) : q ≤ (x.significand + 1 / 2) * 2 ^ x.scale ∧
    (x.significand % 2 ≠ 0 → q < (x.significand + 1 / 2) * 2 ^ x.scale) := by
  unfold readsBack at h
  dsimp only at h
  split_ifs at h with hs
  · exact ⟨h.2, fun hn => absurd hs hn⟩
  · exact ⟨h.2, fun hn => absurd hs hn⟩
  · exact ⟨h.2.le, fun _ => h.2⟩
  · exact ⟨h.2.le, fun _ => h.2⟩

theorem low_le (h : q ∈ x.readsBack) : (x.significand - 1 / 2) * 2 ^ x.scale ≤ q ∧
    (x.significand % 2 ≠ 0 → (x.significand - 1 / 2) * 2 ^ x.scale < q) := by
  have hscale : (0 : ℚ) < 2 ^ x.scale := by positivity
  have hgap : ((x.significand : ℚ) - 1 / 2) * 2 ^ x.scale ≤
      (x.significand - 1 / 4) * 2 ^ x.scale := by
    gcongr
    norm_num
  unfold readsBack at h
  dsimp only at h
  split_ifs at h with hs
  · exact ⟨hgap.trans h.1, fun hn => absurd hs hn⟩
  · exact ⟨h.1, fun hn => absurd hs hn⟩
  · exact ⟨hgap.trans h.1.le, fun _ => hgap.trans_lt h.1⟩
  · exact ⟨h.1.le, fun _ => h.1⟩

theorem fraction_lt (x : F64) : x.fraction < 2 ^ 52 := Nat.mod_lt _ (by norm_num)

theorem significand_lt (x : F64) : x.significand < 2 ^ 53 := by
  have := fraction_lt x
  unfold significand
  split_ifs <;> omega

/-- Of two numbers with one scale, the ranges meet in no point. -/
theorem readsBack_of_significand_lt (hs : x.scale = y.scale) (hm : x.significand < y.significand)
    (hx : q ∈ x.readsBack) (hy : q ∈ y.readsBack) : False := by
  have hscale : (0 : ℚ) < 2 ^ y.scale := by positivity
  obtain ⟨hx₁, hx₂⟩ := le_high hx
  obtain ⟨hy₁, hy₂⟩ := low_le hy
  rw [hs] at hx₁ hx₂
  by_cases hnext : y.significand = x.significand + 1
  · have hmeet : ((y.significand : ℚ) - 1 / 2) * 2 ^ y.scale =
        (x.significand + 1 / 2) * 2 ^ y.scale := by
      rw [hnext]
      push_cast
      ring
    rw [hmeet] at hy₁ hy₂
    by_cases hpar : x.significand % 2 = 0
    · exact absurd hx₁ (not_le.mpr (hy₂ (by omega)))
    · exact absurd hy₁ (not_le.mpr (hx₂ hpar))
  · have hgap : (x.significand : ℚ) + 2 ≤ y.significand := by
      exact_mod_cast (show x.significand + 2 ≤ y.significand by omega)
    have hlt : ((x.significand : ℚ) + 1 / 2) * 2 ^ y.scale <
        (y.significand - 1 / 2) * 2 ^ y.scale := by
      gcongr
      linarith
    linarith

/-- A number of a greater scale reads back from nothing below its power of two less a quarter. -/
theorem quarter_le (hb : 1 < x.biasedExponent) (h : q ∈ x.readsBack) :
    (2 ^ 53 - 1 / 2) * (2 ^ x.scale / 2) ≤ q := by
  have hscale : (0 : ℚ) < 2 ^ x.scale := by positivity
  have hsig : x.significand = 2 ^ 52 + x.fraction := by
    unfold significand
    rw [if_neg (by omega)]
  by_cases hf : x.fraction = 0
  · have hlow := ((mem_readsBack_of_uneven ⟨hf, hb⟩).mp h).1
    rw [magnitude, hsig, hf] at hlow
    push_cast at hlow
    linarith
  · have hlow := (low_le h).1
    have hone : (2 : ℚ) ^ 52 + 1 ≤ x.significand := by
      exact_mod_cast (show 2 ^ 52 + 1 ≤ x.significand by omega)
    have hle :
        ((2 : ℚ) ^ 52 + 1 - 1 / 2) * 2 ^ x.scale ≤ (x.significand - 1 / 2) * 2 ^ x.scale := by
      gcongr
    linarith

theorem readsBack_of_scale_lt (hs : x.scale < y.scale) (hx : q ∈ x.readsBack)
    (hy : q ∈ y.readsBack) : False := by
  have hscale : (0 : ℚ) < 2 ^ x.scale := by positivity
  have hb : 1 < y.biasedExponent := by
    unfold scale at hs
    omega
  have hlow := quarter_le hb hy
  have hdouble : (2 : ℚ) ^ x.scale ≤ 2 ^ y.scale / 2 := by
    rw [le_div_iff₀ (by norm_num), ← zpow_add_one₀ (by norm_num)]
    exact zpow_le_zpow_right₀ (by norm_num) (by omega)
  obtain ⟨hx₁, hx₂⟩ := le_high hx
  have hmax := significand_lt x
  have hstep : ((2 : ℚ) ^ 53 - 1 / 2) * 2 ^ x.scale ≤ q :=
    le_trans (by gcongr) hlow
  by_cases hlast : x.significand = 2 ^ 53 - 1
  · have hhigh := hx₂ (by rw [hlast]; norm_num)
    rw [hlast] at hhigh
    push_cast at hhigh
    linarith
  · have hsig : (x.significand : ℚ) + 2 ≤ 2 ^ 53 := by
      exact_mod_cast (show x.significand + 2 ≤ 2 ^ 53 by omega)
    have hlt : ((x.significand : ℚ) + 1 / 2) * 2 ^ x.scale < (2 ^ 53 - 1 / 2) * 2 ^ x.scale := by
      gcongr
      linarith
    linarith

theorem eq_fields_of_readsBack (hx : q ∈ x.readsBack) (hy : q ∈ y.readsBack) :
    x.biasedExponent = y.biasedExponent ∧ x.fraction = y.fraction := by
  have hscale : x.scale = y.scale := by
    rcases lt_trichotomy x.scale y.scale with h | h | h
    · exact (readsBack_of_scale_lt h hx hy).elim
    · exact h
    · exact (readsBack_of_scale_lt h hy hx).elim
  have hsig : x.significand = y.significand := by
    rcases lt_trichotomy x.significand y.significand with h | h | h
    · exact (readsBack_of_significand_lt hscale h hx hy).elim
    · exact h
    · exact (readsBack_of_significand_lt hscale.symm h hy hx).elim
  have hxf := fraction_lt x
  have hyf := fraction_lt y
  unfold scale at hscale
  unfold significand at hsig
  split_ifs at hsig <;> constructor <;> omega

theorem shortestLength_of_readsBack (hx : x.isZero = false) (hy : y.isZero = false)
    (h : x.readsBack = y.readsBack) : x.shortestLength = y.shortestLength := by
  apply le_antisymm
  · by_contra hlt
    exact not_reaches_of_lt hx (not_le.mp hlt) (h ▸ reaches_shortestLength hy)
  · by_contra hlt
    exact not_reaches_of_lt hy (not_le.mp hlt) (h ▸ reaches_shortestLength hx)

theorem abs_fraction (x : F64) : x.abs.fraction = x.fraction := by
  unfold abs
  split_ifs
  · exact neg_fraction x
  · rfl

theorem abs_biasedExponent (x : F64) : x.abs.biasedExponent = x.biasedExponent := by
  unfold abs
  split_ifs
  · exact neg_biasedExponent x
  · rfl

theorem abs_magnitude (x : F64) : x.abs.magnitude = x.magnitude := by
  unfold magnitude significand scale
  rw [abs_fraction, abs_biasedExponent]

theorem abs_readsBack (x : F64) : x.abs.readsBack = x.readsBack := by
  unfold readsBack significand scale
  rw [abs_fraction, abs_biasedExponent]

theorem abs_shortestLength (hz : x.isZero = false) :
    x.abs.shortestLength = x.shortestLength :=
  shortestLength_of_readsBack (x.isZero_abs.trans hz) hz (abs_readsBack x)

theorem readsBack_pos (hz : x.isZero = false) (h : q ∈ x.readsBack) : 0 < q := by
  have hpos := magnitude_pos hz
  have hscale : (0 : ℚ) < 2 ^ x.scale := by positivity
  have hsig : (1 : ℚ) ≤ x.significand := by
    unfold magnitude at hpos
    exact_mod_cast Nat.cast_pos.mp (pos_of_mul_pos_left hpos hscale.le)
  have hlow := (low_le h).1
  nlinarith

theorem not_special (hf : x.isFinite = true) : x.isNan = false ∧ x.isInfinite = false := by
  unfold isFinite at hf
  unfold isNan isInfinite
  simp only [decide_eq_true_eq, decide_eq_false_iff_not] at hf ⊢
  exact ⟨fun h => hf h.1, fun h => hf h.1⟩

theorem eq_of_fields (hs : x.isNegative = y.isNegative)
    (hb : x.biasedExponent = y.biasedExponent) (hf : x.fraction = y.fraction) : x = y := by
  obtain ⟨x⟩ := x
  obtain ⟨y⟩ := y
  unfold isNegative at hs
  unfold biasedExponent at hb
  unfold fraction at hf
  dsimp only at hs hb hf
  rw [BitVec.msb_eq_decide, BitVec.msb_eq_decide, decide_eq_decide] at hs
  have hx := x.isLt
  have hy := y.isLt
  congr 1
  apply BitVec.eq_of_toNat_eq
  omega

end F64

/-! ## What a name denotes -/

/-- The number a decimal literal denotes. -/
def denoted (text : Str) : ℚ :=
  if text.head? = some '-' then -literalValue (text.drop 1) else literalValue text

/-- The rationals that round to a double. -/
def F64.roundsTo (x : F64) : Set ℚ := {q | (if x.isNegative then -q else q) ∈ x.readsBack}

/-- The text denotes a decimal that rounds to the number, and none with fewer digits does. -/
def NamesItself (x : F64) (text : Str) : Prop :=
  denoted text ∈ x.roundsTo ∧ ∃ k, (∃ d : Decimal, d.HasLength k ∧ d.value = |denoted text|) ∧
    ∀ (j : ℕ) (d : Decimal), j < k → d.HasLength j →
      (if x.isNegative then -d.value else d.value) ∉ x.roundsTo

theorem head_layout {digits : Str} (hd : AllDigits digits) (hne : digits ≠ []) (n : ℤ) :
    (layout digits n).head? ≠ some '-' := by
  have hhead : ∀ front rest : Str, front ≠ [] → (∀ c ∈ front, c ∈ digits) →
      (front ++ rest).head? ≠ some '-' := by
    intro front rest hfront hsub hc
    rw [List.head?_append_of_ne_nil _ hfront] at hc
    exact hd.not_mem rfl (hsub '-' (List.mem_of_mem_head? hc))
  have hform := laidOut_layout hne n
  generalize layout digits n = text at hform ⊢
  cases hform with
  | whole zeros => exact hhead _ _ hne fun _ => id
  | inside front back split nonempty =>
    exact hhead _ _ nonempty fun c hc => split ▸ List.mem_append_left _ hc
  | after zeros =>
    intro hc
    cases hc
  | power power => exact hhead _ _ hne fun _ => id
  | pointPower front back power split single =>
    rw [List.append_assoc]
    exact hhead _ _ (List.ne_nil_of_length_pos (by omega)) fun c hc =>
      split ▸ List.mem_append_left _ hc

theorem denoted_signed {positive : Str} (negative : Bool) (h : positive.head? ≠ some '-') :
    denoted (if negative then '-' :: positive else positive) =
      if negative then -literalValue positive else literalValue positive := by
  unfold denoted
  cases negative with
  | true => rfl
  | false => exact if_neg h

/-- A text that denotes the nearest decimal of the shortest length, with the number's sign. -/
theorem namesItself_iff {x : F64} {positive : Str} (hz : x.isZero = false)
    (hhead : positive.head? ≠ some '-')
    (hvalue : literalValue positive = (nearest x.shortestLength x.magnitude).value) :
    NamesItself x (if x.isNegative then '-' :: positive else positive) ↔ ¬ x.Strays := by
  have hpos := F64.magnitude_pos hz
  have hsign : ∀ q : ℚ, (if x.isNegative then -q else q) ∈ x.roundsTo ↔ q ∈ x.readsBack := by
    intro q
    show (if x.isNegative then -(if x.isNegative then -q else q) else
      if x.isNegative then -q else q) ∈ x.readsBack ↔ _
    cases x.isNegative with
    | true => rw [if_pos rfl, if_pos rfl, neg_neg]
    | false => rfl
  rw [← F64.faithful_iff hz, F64.Faithful, NamesItself, denoted_signed _ hhead, hsign, hvalue]
  constructor
  · exact fun h => h.1
  · intro h
    refine ⟨h, x.shortestLength, ⟨_, hasLength_nearest hpos, ?_⟩, ?_⟩
    · have hp := F64.readsBack_pos hz h
      split_ifs
      · rw [abs_neg, abs_of_pos hp]
      · rw [abs_of_pos hp]
    · intro j d hj hd hmem
      exact F64.not_reaches_of_lt hz hj ⟨d, hd, (hsign d.value).mp hmem⟩

/-- Of two numbers that do not stray, the names differ. -/
theorem eq_of_namesItself {x y : F64} {text : Str} (hxz : x.isZero = false)
    (hyz : y.isZero = false) (hx : NamesItself x text) (hy : NamesItself y text) : x = y := by
  have hx := hx.1
  have hy := hy.1
  unfold F64.roundsTo at hx hy
  rw [Set.mem_ofPred_eq] at hx hy
  have hxp := F64.readsBack_pos hxz hx
  have hyp := F64.readsBack_pos hyz hy
  have hs : x.isNegative = y.isNegative := by
    cases hxs : x.isNegative <;> cases hys : y.isNegative
    · rfl
    · rw [hxs] at hxp
      rw [hys] at hyp
      simp only [Bool.false_eq_true, if_false, if_true] at hxp hyp
      linarith
    · rw [hxs] at hxp
      rw [hys] at hyp
      simp only [Bool.false_eq_true, if_false, if_true] at hxp hyp
      linarith
    · rfl
  rw [← hs] at hy
  obtain ⟨hb, hf⟩ := F64.eq_fields_of_readsBack hx hy
  exact F64.eq_of_fields hs hb hf

namespace Ports

variable {float : ExpFormat} {x : F64}

theorem decimal_eq_trim (n : ℕ) : ∃ j, decimal n =
    trimEnd (· = '0') (decimal n) ++ List.replicate j '0' := by
  refine ⟨(List.rtakeWhile (· = '0') (decimal n)).length, ?_⟩
  have hzeros : List.rtakeWhile (· = '0') (decimal n) =
      List.replicate (List.rtakeWhile (· = '0') (decimal n)).length '0' := by
    apply List.eq_replicate_of_mem
    intro c hc
    have := List.mem_rtakeWhile_imp hc
    exact of_decide_eq_true this
  rw [← hzeros]
  exact List.rdropWhile_append_rtakeWhile.symm

/-- Rust lays out the digits of the nearest decimal without the zeros at their end. -/
theorem formatPositive_eq_layout (hc : float.Correct) (hf : x.isFinite = true)
    (hz : x.isZero = false) {d : Decimal} (hd : nearest x.shortestLength x.magnitude = d)
    (hpos : 0 < d.digits) : formatPositive float x =
      layout (Significand.trimmed d.digits hpos).digits (d.exponent + x.shortestLength + 1) := by
  unfold formatPositive
  dsimp only
  rw [shortest_length hc hf hz, Nat.add_sub_cancel, hc.precise x _ hf hz, hd]
  unfold expForm
  dsimp only
  rw [if_neg (trimEnd_decimal_ne_nil hpos)]
  rfl

/-- Rust's text of a positive number denotes the nearest decimal too. -/
theorem denotes_formatPositive (hc : float.Correct) (hf : x.isFinite = true)
    (hz : x.isZero = false) : (formatPositive float x).head? ≠ some '-' ∧
      literalValue (formatPositive float x) = (nearest x.shortestLength x.magnitude).value := by
  have hlen := hasLength_nearest (k := x.shortestLength) (F64.magnitude_pos hz)
  generalize hd : nearest x.shortestLength x.magnitude = d at hlen ⊢
  have hpos : 0 < d.digits := lt_of_lt_of_le (by positivity) hlen.1
  obtain ⟨j, hj⟩ : ∃ j, decimal d.digits =
      (Significand.trimmed d.digits hpos).digits ++ List.replicate j '0' :=
    decimal_eq_trim d.digits
  rw [formatPositive_eq_layout hc hf hz hd hpos]
  generalize Significand.trimmed d.digits hpos = s at hj ⊢
  have hvalue : d.digits = 10 ^ j * digitsValue s.digits := by
    rw [← digitsValue_append_zeros, ← hj, digitsValue_decimal]
  have hcount : x.shortestLength + 1 = s.digits.length + j := by
    rw [← length_decimal hlen, hj, List.length_append, List.length_replicate]
  have hexp : d.exponent + (x.shortestLength : ℤ) + 1 - s.digits.length = j + d.exponent := by
    omega
  refine ⟨head_layout s.allDigits s.ne_nil _, ?_⟩
  rw [literalValue_layout s.allDigits s.ne_nil, Decimal.value, hvalue, hexp,
    zpow_add₀ (by norm_num), zpow_natCast]
  push_cast
  ring

theorem denotes_spelled (hz : x.isZero = false) :
    (spelled x.shortestLength (nearest x.shortestLength x.magnitude)).head? ≠ some '-' ∧
      literalValue (spelled x.shortestLength (nearest x.shortestLength x.magnitude)) =
        (nearest x.shortestLength x.magnitude).value :=
  ⟨head_layout (.decimal _) (decimal_ne_nil _) _,
    literalValue_spelled (hasLength_nearest (F64.magnitude_pos hz))⟩

/-- The text of a number that is not special is its sign and the text of its absolute value. -/
theorem formatNumber_of_finite (hf : x.isFinite = true) (hz : x.isZero = false) :
    formatNumber float x =
      if x.isNegative then '-' :: formatPositive float x.abs else formatPositive float x.abs := by
  obtain ⟨hn, hi⟩ := F64.not_special hf
  unfold formatNumber F64.abs
  cases x.isNegative <;> simp [hn, hi, hz]

theorem jsNumberToString_of_finite (hf : x.isFinite = true) (hz : x.isZero = false) :
    Go.jsNumberToString float x =
      if x.isNegative then
        '-' :: Go.layout (float.precise ((float.shortest x.abs).digits.length - 1) x.abs).digits
          (float.shortest x.abs).digits.length
          ((float.precise ((float.shortest x.abs).digits.length - 1) x.abs).exponent + 1)
      else Go.layout (float.precise ((float.shortest x.abs).digits.length - 1) x.abs).digits
          (float.shortest x.abs).digits.length
          ((float.precise ((float.shortest x.abs).digits.length - 1) x.abs).exponent + 1) := by
  obtain ⟨hn, hi⟩ := F64.not_special hf
  unfold Go.jsNumberToString
  rw [go_abs]
  cases x.isNegative <;> simp [hn, hi, hz]

theorem formatNumber_names_iff (hc : float.Correct) (hf : x.isFinite = true)
    (hz : x.isZero = false) : NamesItself x (formatNumber float x) ↔ ¬ x.Strays := by
  obtain ⟨hhead, hvalue⟩ := denotes_formatPositive hc (x.isFinite_abs.trans hf)
    (x.isZero_abs.trans hz)
  rw [F64.abs_shortestLength hz, F64.abs_magnitude] at hvalue
  rw [formatNumber_of_finite hf hz]
  exact namesItself_iff hz hhead hvalue

theorem jsNumberToString_names_iff (hc : float.Correct) (hf : x.isFinite = true)
    (hz : x.isZero = false) : NamesItself x (Go.jsNumberToString float x) ↔ ¬ x.Strays := by
  obtain ⟨hhead, hvalue⟩ := denotes_spelled (x.isZero_abs.trans hz)
  rw [← go_positive hc (x.isFinite_abs.trans hf) (x.isZero_abs.trans hz)] at hhead hvalue
  rw [F64.abs_shortestLength hz, F64.abs_magnitude] at hvalue
  rw [jsNumberToString_of_finite hf hz]
  exact namesItself_iff hz hhead hvalue

/-- In both ports a number's name denotes the number, by as few digits as can, exactly if it is no
power of two whose remainder after these digits is too much to round off. No two other numbers share
a name. -/
theorem number_names_itself_iff {rust go : ExpFormat} (hrust : rust.Correct) (hgo : go.Correct) :
    (∀ x : F64, x.isFinite = true → x.isZero = false →
      (NamesItself x (formatNumber rust x) ↔ ¬ x.Strays) ∧
        (NamesItself x (Go.jsNumberToString go x) ↔ ¬ x.Strays)) ∧
    ∀ x y : F64, x.isFinite = true → x.isZero = false → y.isFinite = true → y.isZero = false →
      ¬ x.Strays → ¬ y.Strays →
      (formatNumber rust x = formatNumber rust y ∨
        Go.jsNumberToString go x = Go.jsNumberToString go y) → x = y := by
  constructor
  · intro x hf hz
    exact ⟨formatNumber_names_iff hrust hf hz, jsNumberToString_names_iff hgo hf hz⟩
  · intro x y hxf hxz hyf hyz hx hy h
    rcases h with h | h
    · apply eq_of_namesItself hxz hyz ((formatNumber_names_iff hrust hxf hxz).mpr hx)
      rw [h]
      exact (formatNumber_names_iff hrust hyf hyz).mpr hy
    · apply eq_of_namesItself hxz hyz ((jsNumberToString_names_iff hgo hxf hxz).mpr hx)
      rw [h]
      exact (jsNumberToString_names_iff hgo hyf hyz).mpr hy

theorem number_names_itself_one :
    NamesItself ⟨0x3FF0000000000000⟩ (formatNumber exactFormat ⟨0x3FF0000000000000⟩) :=
  (((number_names_itself_iff exactFormat_correct exactFormat_correct).1 _ (by decide)
    (by decide)).1).mpr (by decide +kernel)

/-- The name of 2^-24 reads back to the number below it, which has the same name. -/
theorem power_of_two_strays :
    ¬ NamesItself ⟨0x3E70000000000000⟩ (formatNumber exactFormat ⟨0x3E70000000000000⟩) ∧
    ¬ NamesItself ⟨0x3E70000000000000⟩ (Go.jsNumberToString exactFormat ⟨0x3E70000000000000⟩) ∧
    formatNumber exactFormat ⟨0x3E70000000000000⟩ =
      formatNumber exactFormat ⟨0x3E6FFFFFFFFFFFFF⟩ := by
  have hstrays : F64.Strays ⟨0x3E70000000000000⟩ := by decide +kernel
  refine ⟨?_, ?_, ?_⟩
  · exact fun h => (formatNumber_names_iff exactFormat_correct rfl rfl).mp h hstrays
  · exact fun h => (jsNumberToString_names_iff exactFormat_correct rfl rfl).mp h hstrays
  · decide +kernel

end Ports

end MultiSource
