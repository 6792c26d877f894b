/-
# Rounding to binary numbers

`nearestMagnitude` is given a fraction as numerator and denominator.  It depends
on the quotient only, so a decimal may be written with more or fewer trailing
zeros, and it gives a magnitude back from the number that the magnitude stands
for.  Both come from what `floorLogTwo` computes: the exponent of the greatest
power of two that is not above the fraction.
-/
import JvmListing.Proofs.Digits
import Mathlib.Data.Int.Log
import Mathlib.Algebra.Order.Field.Power
import Mathlib.Tactic.Positivity
import Mathlib.Tactic.FieldSimp
import Mathlib.Tactic.Linarith
import Mathlib.Tactic.NormNum
import Mathlib.Tactic.Ring

namespace JvmListing

/-! ## Powers of two -/

theorem scaleByTwo_spec (n : Nat) {d : Nat} (hd : 0 < d) (e : Int) :
    0 < (scaleByTwo n d e).2
      ∧ ((scaleByTwo n d e).1 : ℚ) / (scaleByTwo n d e).2 = n / d * 2 ^ e := by
  have hd' : (d : ℚ) ≠ 0 := by positivity
  unfold scaleByTwo
  split
  · rename_i he
    obtain ⟨k, rfl⟩ : ∃ k : Nat, e = -(k : Int) := ⟨(-e).toNat, by omega⟩
    refine ⟨by positivity, ?_⟩
    simp only [neg_neg, Int.toNat_natCast, Nat.cast_mul, Nat.cast_pow, Nat.cast_ofNat, zpow_neg,
      zpow_natCast]
    field_simp
  · obtain ⟨k, rfl⟩ : ∃ k : Nat, e = (k : Int) := ⟨e.toNat, by omega⟩
    refine ⟨hd, ?_⟩
    simp only [Int.toNat_natCast, Nat.cast_mul, Nat.cast_pow, Nat.cast_ofNat, zpow_natCast]
    field_simp

/-- The exponent of the power of two below a number is the only one. -/
theorem exponent_unique {q : ℚ} {a b : Int} (ha : (2 : ℚ) ^ a ≤ q) (ha' : q < 2 ^ (a + 1))
    (hb : (2 : ℚ) ^ b ≤ q) (hb' : q < 2 ^ (b + 1)) : a = b := by
  have h₁ : a < b + 1 := (zpow_lt_zpow_iff_right₀ (by norm_num)).mp (ha.trans_lt hb')
  have h₂ : b < a + 1 := (zpow_lt_zpow_iff_right₀ (by norm_num)).mp (hb.trans_lt ha')
  omega

theorem two_pow_log2_le {n : Nat} (hn : 0 < n) :
    (2 : ℚ) ^ (n.log2 : Int) ≤ n ∧ (n : ℚ) < 2 ^ ((n.log2 : Int) + 1) := by
  constructor
  · rw [zpow_natCast]
    exact_mod_cast Nat.log2_self_le (Nat.pos_iff_ne_zero.mp hn)
  · have := @Nat.lt_log2_self n
    rw [show ((n.log2 : Int) + 1) = ((n.log2 + 1 : Nat) : Int) by push_cast; rfl, zpow_natCast]
    exact_mod_cast this

theorem floorLogTwo_spec {n d : Nat} (hn : 0 < n) (hd : 0 < d) :
    (2 : ℚ) ^ floorLogTwo n d ≤ (n : ℚ) / d ∧ (n : ℚ) / d < 2 ^ (floorLogTwo n d + 1) := by
  have hdq : (0 : ℚ) < d := by exact_mod_cast hd
  obtain ⟨hn₁, hn₂⟩ := two_pow_log2_le hn
  obtain ⟨hd₁, hd₂⟩ := two_pow_log2_le hd
  obtain ⟨hpos, hscale⟩ := scaleByTwo_spec n hd (-((n.log2 : Int) - d.log2))
  have hposq : (0 : ℚ) < (scaleByTwo n d (-((n.log2 : Int) - d.log2))).2 := by exact_mod_cast hpos
  have hpow : (0 : ℚ) < 2 ^ ((n.log2 : Int) - d.log2) := by positivity
  -- the fraction is below twice the quotient of the leading powers, and above half of it
  have hupper : (n : ℚ) / d < 2 ^ ((n.log2 : Int) - d.log2 + 1) := by
    rw [div_lt_iff₀ hdq]
    calc (n : ℚ) < 2 ^ ((n.log2 : Int) + 1) := hn₂
      _ = 2 ^ ((n.log2 : Int) - d.log2 + 1) * 2 ^ (d.log2 : Int) := by
          rw [← zpow_add₀ (by norm_num)]
          congr 1
          ring
      _ ≤ 2 ^ ((n.log2 : Int) - d.log2 + 1) * d := by gcongr
  have hlower : (2 : ℚ) ^ ((n.log2 : Int) - d.log2 - 1) ≤ (n : ℚ) / d := by
    rw [le_div_iff₀ hdq]
    calc (2 : ℚ) ^ ((n.log2 : Int) - d.log2 - 1) * d
        ≤ 2 ^ ((n.log2 : Int) - d.log2 - 1) * 2 ^ ((d.log2 : Int) + 1) := by gcongr
      _ = 2 ^ (n.log2 : Int) := by
          rw [← zpow_add₀ (by norm_num)]
          congr 1
          ring
      _ ≤ n := hn₁
  unfold floorLogTwo
  dsimp only
  split
  · rename_i hle
    refine ⟨?_, hupper⟩
    have hone : (1 : ℚ) ≤ (n : ℚ) / d * 2 ^ (-((n.log2 : Int) - d.log2)) := by
      rw [← hscale, one_le_div hposq]
      exact_mod_cast hle
    rwa [zpow_neg, ← div_eq_mul_inv, one_le_div hpow] at hone
  · rename_i hlt
    refine ⟨hlower, ?_⟩
    have hone : (n : ℚ) / d * 2 ^ (-((n.log2 : Int) - d.log2)) < 1 := by
      rw [← hscale, div_lt_one hposq]
      exact_mod_cast not_le.mp hlt
    rw [zpow_neg, ← div_eq_mul_inv, div_lt_one hpow] at hone
    rwa [sub_add_cancel]

theorem floorLogTwo_eq {n d : Nat} (hn : 0 < n) (hd : 0 < d) {e : Int}
    (hle : (2 : ℚ) ^ e ≤ (n : ℚ) / d) (hlt : (n : ℚ) / d < 2 ^ (e + 1)) : floorLogTwo n d = e := by
  obtain ⟨h₁, h₂⟩ := floorLogTwo_spec hn hd
  exact exponent_unique h₁ h₂ hle hlt

/-! ## Quotients -/

theorem roundHalfEven_mul_left {k : Nat} (hk : 0 < k) (n d : Nat) :
    roundHalfEven (k * n) (k * d) = roundHalfEven n d := by
  have hdouble : 2 * (k * (n % d)) = k * (2 * (n % d)) := by ring
  have h₁ : k * d < 2 * (k * (n % d)) ↔ d < 2 * (n % d) := by
    rw [hdouble]
    exact Nat.mul_lt_mul_left hk
  have h₂ : 2 * (k * (n % d)) = k * d ↔ 2 * (n % d) = d := by
    rw [hdouble]
    exact Nat.mul_right_inj (Nat.pos_iff_ne_zero.mp hk)
  simp only [roundHalfEven, Nat.mul_div_mul_left _ _ hk, Nat.mul_mod_mul_left, h₁, h₂]

theorem cross_eq_of_div_eq {n d n' d' : Nat} (hd : 0 < d) (hd' : 0 < d')
    (h : (n : ℚ) / d = n' / d') : n * d' = n' * d := by
  have hdq : (d : ℚ) ≠ 0 := by positivity
  have hdq' : (d' : ℚ) ≠ 0 := by positivity
  rw [div_eq_div_iff hdq hdq'] at h
  exact_mod_cast h

theorem roundHalfEven_congr {n d n' d' : Nat} (hd : 0 < d) (hd' : 0 < d')
    (h : (n : ℚ) / d = n' / d') : roundHalfEven n d = roundHalfEven n' d' := by
  have hcross := cross_eq_of_div_eq hd hd' h
  calc roundHalfEven n d = roundHalfEven (d' * n) (d' * d) := (roundHalfEven_mul_left hd' n d).symm
    _ = roundHalfEven (d * n') (d * d') := by
        rw [Nat.mul_comm d' n, hcross, Nat.mul_comm n' d, Nat.mul_comm d' d]
    _ = roundHalfEven n' d' := roundHalfEven_mul_left hd n' d'

theorem roundHalfEven_mul_self {d : Nat} (hd : 0 < d) (n : Nat) : roundHalfEven (n * d) d = n := by
  have hzero : n * d % d = 0 := Nat.mul_mod_left n d
  unfold roundHalfEven
  simp only [Nat.mul_div_cancel n hd, hzero]
  rw [if_neg]
  omega

/-- A fraction that is a whole number rounds to it. -/
theorem roundHalfEven_of_eq {n d k : Nat} (hd : 0 < d) (h : (n : ℚ) / d = k) :
    roundHalfEven n d = k := by
  have hdq : (d : ℚ) ≠ 0 := by positivity
  have hn : n = k * d := by
    rw [div_eq_iff hdq] at h
    exact_mod_cast h
  rw [hn, roundHalfEven_mul_self hd]

/-- Rounding depends on the quotient only. -/
theorem nearestMagnitude_congr (f : BinaryFormat) {n d n' d' : Nat} (hn : 0 < n) (hd : 0 < d)
    (hn' : 0 < n') (hd' : 0 < d') (h : (n : ℚ) / d = n' / d') :
    nearestMagnitude f n d = nearestMagnitude f n' d' := by
  have hlog : floorLogTwo n d = floorLogTwo n' d' := by
    obtain ⟨h₁, h₂⟩ := floorLogTwo_spec hn' hd'
    exact floorLogTwo_eq hn hd (h ▸ h₁) (h ▸ h₂)
  unfold nearestMagnitude
  dsimp only
  rw [hlog]
  obtain ⟨hpos, hscale⟩ := scaleByTwo_spec n hd
    (-(max (floorLogTwo n' d' + 1 - f.precision) f.leastUnit))
  obtain ⟨hpos', hscale'⟩ := scaleByTwo_spec n' hd'
    (-(max (floorLogTwo n' d' + 1 - f.precision) f.leastUnit))
  rw [roundHalfEven_congr hpos hpos' (by rw [hscale, hscale', h])]

/-! ## Magnitudes -/

/-- A format with subnormal and normal numbers. -/
structure BinaryFormat.Regular (f : BinaryFormat) : Prop where
  precision_pos : 0 < f.precision
  exponentBits_gt : 1 < f.exponentBits

theorem BinaryFormat.single_regular : BinaryFormat.single.Regular := ⟨by decide, by decide⟩

theorem BinaryFormat.double_regular : BinaryFormat.double.Regular := ⟨by decide, by decide⟩

/-- The real number that a finite magnitude stands for. -/
def BinaryFormat.value (f : BinaryFormat) (magnitude : Nat) : ℚ :=
  f.significand magnitude * 2 ^ f.unit magnitude

namespace BinaryFormat

variable {f : BinaryFormat} {m : Nat}

theorem binade_pos (f : BinaryFormat) : 0 < f.binade := Nat.two_pow_pos _

theorem cast_binade (hf : f.Regular) : (f.binade : ℚ) = 2 ^ ((f.precision : Int) - 1) := by
  have hp := hf.precision_pos
  rw [show (f.precision : Int) - 1 = ((f.precision - 1 : Nat) : Int) by omega, zpow_natCast]
  exact_mod_cast rfl

theorem significand_pos (hm : 0 < m) : 0 < f.significand m := by
  have := f.binade_pos
  unfold significand
  split <;> omega

theorem significand_lt : f.significand m < 2 * f.binade := by
  have := Nat.mod_lt m f.binade_pos
  unfold significand
  split <;> omega

theorem leastUnit_le_unit : f.leastUnit ≤ f.unit m := by
  unfold unit
  omega

theorem unit_of_lt (h : m < f.binade) : f.unit m = f.leastUnit := by
  unfold unit
  rw [Nat.div_eq_of_lt h]
  simp

/-- A magnitude is counted up from the magnitudes with smaller units. -/
theorem unit_mul_binade_add :
    (f.unit m - f.leastUnit).toNat * f.binade + f.significand m = m := by
  have hunit : (f.unit m - f.leastUnit).toNat = m / f.binade - 1 := by
    unfold unit
    omega
  rw [hunit]
  unfold significand
  split
  · rename_i h
    rw [Nat.div_eq_of_lt h]
    simp
  · rename_i h
    have hone : 1 ≤ m / f.binade := Nat.div_pos (not_lt.mp h) f.binade_pos
    calc (m / f.binade - 1) * f.binade + (m % f.binade + f.binade)
        = (m / f.binade - 1 + 1) * f.binade + m % f.binade := by ring
      _ = m / f.binade * f.binade + m % f.binade := by rw [Nat.sub_add_cancel hone]
      _ = m := Nat.div_add_mod' m f.binade

theorem value_pos (hm : 0 < m) : 0 < f.value m := by
  have hsig : (0 : ℚ) < f.significand m := by exact_mod_cast significand_pos hm
  unfold value
  positivity

/-- The unit of a magnitude is the one that rounding its value chooses. -/
theorem unit_of_exponent (hf : f.Regular) {e : Int} (hle : (2 : ℚ) ^ e ≤ f.value m)
    (hlt : f.value m < 2 ^ (e + 1)) : max (e + 1 - f.precision) f.leastUnit = f.unit m := by
  by_cases h : m < f.binade
  · -- a subnormal number lies below the least normal one
    have hvalue : f.value m < 2 ^ ((f.precision : Int) - 1 + f.leastUnit) := by
      rw [value, unit_of_lt h, zpow_add₀ (by norm_num), ← cast_binade hf, significand, if_pos h]
      gcongr
    have := (zpow_lt_zpow_iff_right₀ (by norm_num)).mp (hle.trans_lt hvalue)
    rw [unit_of_lt h]
    omega
  · have hsig : f.binade ≤ f.significand m := by
      rw [significand, if_neg h]
      omega
    have hpow : (2 : ℚ) ^ ((f.precision : Int) - 1 + f.unit m) ≤ f.value m := by
      rw [value, zpow_add₀ (by norm_num), ← cast_binade hf]
      gcongr
    have hpow' : f.value m < 2 ^ ((f.precision : Int) - 1 + f.unit m + 1) := by
      rw [value, add_right_comm, zpow_add₀ (by norm_num), zpow_add₀ (by norm_num),
        ← cast_binade hf, zpow_one, mul_comm (f.binade : ℚ)]
      have := f.significand_lt (m := m)
      gcongr
      exact_mod_cast this
    have := exponent_unique hle hlt hpow hpow'
    have := f.leastUnit_le_unit (m := m)
    omega

/-- Rounding a number of the format gives the number. -/
theorem nearestMagnitude_value (hf : f.Regular) {n d : Nat} (hn : 0 < n) (hd : 0 < d)
    (hfin : m < f.infinity) (h : (n : ℚ) / d = f.value m) : nearestMagnitude f n d = m := by
  obtain ⟨hle, hlt⟩ := floorLogTwo_spec hn hd
  rw [h] at hle hlt
  unfold nearestMagnitude
  dsimp only
  rw [unit_of_exponent hf hle hlt]
  obtain ⟨hpos, hscale⟩ := scaleByTwo_spec n hd (-f.unit m)
  have hround : (((scaleByTwo n d (-f.unit m)).1 : ℚ)) / (scaleByTwo n d (-f.unit m)).2
      = f.significand m := by
    rw [hscale, h, value, mul_assoc, ← zpow_add₀ (by norm_num)]
    simp
  rw [roundHalfEven_of_eq hpos hround, unit_mul_binade_add]
  omega

theorem value_lt (hf : f.Regular) (hfin : m < f.infinity) :
    f.value m < 2 ^ ((f.bias : Int) + 1) := by
  have hp := hf.precision_pos
  have hbits := hf.exponentBits_gt
  have hbias : 2 ^ f.exponentBits = 2 * (f.bias + 1) ∧ 1 ≤ f.bias := by
    obtain ⟨k, hk⟩ : ∃ k, f.exponentBits = k + 2 := ⟨f.exponentBits - 2, by omega⟩
    have := Nat.two_pow_pos k
    simp only [bias, hk, show k + 2 - 1 = k + 1 by omega, Nat.pow_succ]
    omega
  have hquot : m / f.binade < 2 ^ f.exponentBits - 1 := Nat.div_lt_of_lt_mul (by
    rw [Nat.mul_comm]
    exact hfin)
  have hunit : f.unit m ≤ f.bias + 1 - f.precision := by
    unfold unit leastUnit
    omega
  calc f.value m < (2 * f.binade : ℚ) * 2 ^ f.unit m := by
        have := f.significand_lt (m := m)
        unfold value
        gcongr
        exact_mod_cast this
    _ = 2 ^ ((f.precision : Int) + f.unit m) := by
        rw [cast_binade hf, zpow_add₀ (by norm_num), zpow_sub₀ (by norm_num)]
        ring
    _ ≤ 2 ^ ((f.bias : Int) + 1) := zpow_le_zpow_right₀ (by norm_num) (by omega)

theorem le_value (hm : 0 < m) : (2 : ℚ) ^ f.leastUnit ≤ f.value m := by
  have hsig : (1 : ℚ) ≤ f.significand m := by exact_mod_cast significand_pos hm
  have hpow : (2 : ℚ) ^ f.leastUnit ≤ 2 ^ f.unit m :=
    zpow_le_zpow_right₀ (by norm_num) leastUnit_le_unit
  calc (2 : ℚ) ^ f.leastUnit ≤ 1 * 2 ^ f.unit m := by rwa [one_mul]
    _ ≤ f.value m := by
        unfold value
        gcongr

end BinaryFormat

/-! ## Decimals -/

/-- The real number of a decimal. -/
def Decimal.value (d : Decimal) : ℚ := d.digits * 10 ^ d.exponent

theorem scaleByTen_spec (n : Nat) (e : Int) :
    0 < (scaleByTen n e).2 ∧ ((scaleByTen n e).1 : ℚ) / (scaleByTen n e).2 = n * 10 ^ e := by
  unfold scaleByTen
  split
  · rename_i he
    obtain ⟨k, rfl⟩ : ∃ k : Nat, e = -(k : Int) := ⟨(-e).toNat, by omega⟩
    refine ⟨by positivity, ?_⟩
    simp only [neg_neg, Int.toNat_natCast, Nat.cast_pow, Nat.cast_ofNat, zpow_neg, zpow_natCast]
    rfl
  · obtain ⟨k, rfl⟩ : ∃ k : Nat, e = (k : Int) := ⟨e.toNat, by omega⟩
    refine ⟨Nat.one_pos, ?_⟩
    simp only [Int.toNat_natCast, Nat.cast_mul, Nat.cast_pow, Nat.cast_ofNat, zpow_natCast,
      Nat.cast_one, div_one]

theorem scaleByTen_pos {n : Nat} (hn : 0 < n) (e : Int) : 0 < (scaleByTen n e).1 := by
  unfold scaleByTen
  split <;> positivity

namespace Decimal

variable {d d' : Decimal}

/-- The exponent of the power of ten above a decimal. -/
def order (d : Decimal) : Int := (Nat.toDigits 10 d.digits).length + d.exponent

theorem value_eq_zero_iff : d.value = 0 ↔ d.digits = 0 := by
  have : (10 : ℚ) ^ d.exponent ≠ 0 := by positivity
  simp [value, this]

theorem order_bounds (hd : 0 < d.digits) :
    (10 : ℚ) ^ (d.order - 1) ≤ d.value ∧ d.value < 10 ^ d.order := by
  obtain ⟨h₁, h₂⟩ := length_toDigits_bounds hd
  constructor
  · have hq : (10 : ℚ) ^ (Nat.toDigits 10 d.digits).length ≤ 10 * d.digits := by exact_mod_cast h₁
    rw [order, value, add_sub_right_comm, zpow_add₀ (by norm_num), zpow_sub₀ (by norm_num),
      zpow_natCast, zpow_one]
    gcongr
    rw [div_le_iff₀ (by norm_num)]
    linarith
  · have hq : (d.digits : ℚ) < 10 ^ (Nat.toDigits 10 d.digits).length := by exact_mod_cast h₂
    rw [order, value, zpow_add₀ (by norm_num), zpow_natCast]
    gcongr

theorem order_eq_of_value_eq (hd : 0 < d.digits) (hd' : 0 < d'.digits) (h : d.value = d'.value) :
    d.order = d'.order := by
  obtain ⟨h₁, h₂⟩ := order_bounds hd
  obtain ⟨h₃, h₄⟩ := order_bounds hd'
  have ha := (zpow_lt_zpow_iff_right₀ (by norm_num)).mp (h₁.trans_lt (h ▸ h₄))
  have hb := (zpow_lt_zpow_iff_right₀ (by norm_num)).mp (h₃.trans_lt (h ▸ h₂))
  omega

end Decimal

namespace Binary

variable {f : BinaryFormat} {d d' : Decimal} {m : Nat}

/-- Reading a decimal, by its order. -/
theorem ofDecimal_eq (negative : Bool) (d : Decimal) :
    (ofDecimal negative d.digits d.exponent : Binary f) = ofMagnitude negative
      (if d.digits = 0 then 0
       else if d.order > f.bias + 2 then f.infinity
       else if d.order < -((f.bias : Int) + f.precision) then 0
       else nearestMagnitude f (scaleByTen d.digits d.exponent).1
          (scaleByTen d.digits d.exponent).2) := by
  unfold ofDecimal Decimal.order
  dsimp only
  split
  · rfl
  split
  · simp [infinite, ofMagnitude]
  split <;> rfl

/-- Reading a decimal depends on its value only. -/
theorem ofDecimal_congr (negative : Bool) (h : d.value = d'.value) :
    (ofDecimal negative d.digits d.exponent : Binary f)
      = ofDecimal negative d'.digits d'.exponent := by
  rw [ofDecimal_eq, ofDecimal_eq]
  by_cases hz : d.digits = 0
  · have hz' : d'.digits = 0 := by
      rw [← Decimal.value_eq_zero_iff, ← h]
      exact Decimal.value_eq_zero_iff.mpr hz
    rw [if_pos hz, if_pos hz']
  · have hz' : d'.digits ≠ 0 := by
      intro hz'
      apply hz
      rw [← Decimal.value_eq_zero_iff, h]
      exact Decimal.value_eq_zero_iff.mpr hz'
    have hd := Nat.pos_of_ne_zero hz
    have hd' := Nat.pos_of_ne_zero hz'
    obtain ⟨hpos, hq⟩ := scaleByTen_spec d.digits d.exponent
    obtain ⟨hpos', hq'⟩ := scaleByTen_spec d'.digits d'.exponent
    rw [if_neg hz, if_neg hz', Decimal.order_eq_of_value_eq hd hd' h,
      nearestMagnitude_congr f (scaleByTen_pos hd _) hpos (scaleByTen_pos hd' _) hpos'
        (by rw [hq, hq']; exact h)]

/-- The sign is apart from the magnitude. -/
theorem ofDecimal_of_unsigned (negative : Bool)
    (h : (ofDecimal false d.digits d.exponent : Binary f) = ofMagnitude false m) :
    (ofDecimal negative d.digits d.exponent : Binary f) = ofMagnitude negative m := by
  rw [ofDecimal_eq] at h ⊢
  simp only [ofMagnitude, number.injEq, true_and] at h ⊢
  exact h

/-- A decimal that is a number of the format reads as that number. -/
theorem ofDecimal_of_value (hf : f.Regular) (negative : Bool) (hm : 0 < m) (hfin : m < f.infinity)
    (h : d.value = f.value m) :
    (ofDecimal negative d.digits d.exponent : Binary f) = ofMagnitude negative m := by
  have hz : d.digits ≠ 0 := by
    intro hz
    have := BinaryFormat.value_pos (f := f) hm
    rw [← h, Decimal.value_eq_zero_iff.mpr hz] at this
    exact lt_irrefl _ this
  have hd := Nat.pos_of_ne_zero hz
  obtain ⟨hlow, hhigh⟩ := Decimal.order_bounds hd
  have hlarge : ¬ d.order > f.bias + 2 := by
    intro hlarge
    have h₁ : (2 : ℚ) ^ ((f.bias : Int) + 1) ≤ 10 ^ (d.order - 1) :=
      calc (2 : ℚ) ^ ((f.bias : Int) + 1) ≤ 10 ^ ((f.bias : Int) + 1) :=
            zpow_le_zpow_left₀ (by omega) (by norm_num) (by norm_num)
        _ ≤ 10 ^ (d.order - 1) := zpow_le_zpow_right₀ (by norm_num) (by omega)
    exact absurd (BinaryFormat.value_lt hf hfin) (not_lt.mpr (h ▸ h₁.trans hlow))
  have hsmall : ¬ d.order < -((f.bias : Int) + f.precision) := by
    intro hsmall
    obtain ⟨k, hk⟩ : ∃ k : Nat, d.order = -(k : Int) := ⟨(-d.order).toNat, by omega⟩
    have h₁ : (10 : ℚ) ^ d.order ≤ 2 ^ f.leastUnit :=
      calc (10 : ℚ) ^ d.order ≤ 2 ^ d.order := by
            rw [hk, zpow_neg, zpow_neg, zpow_natCast, zpow_natCast]
            gcongr
            norm_num
        _ ≤ 2 ^ f.leastUnit :=
            zpow_le_zpow_right₀ (by norm_num) (by unfold BinaryFormat.leastUnit; omega)
    exact absurd hhigh (not_lt.mpr (h₁.trans (h ▸ BinaryFormat.le_value hm)))
  obtain ⟨hpos, hq⟩ := scaleByTen_spec d.digits d.exponent
  rw [ofDecimal_eq, if_neg hz, if_neg hlarge, if_neg hsmall,
    BinaryFormat.nearestMagnitude_value hf (scaleByTen_pos hd _) hpos hfin (hq.trans h)]

end Binary

/-! ## The shortest decimal -/

namespace BinaryFormat

variable {f : BinaryFormat} {m : Nat}

theorem value_exactDecimal (m : Nat) : (f.exactDecimal m).value = f.value m := by
  unfold exactDecimal
  dsimp only
  split
  · rename_i hneg
    obtain ⟨k, hk⟩ : ∃ k : Nat, f.unit m = -(k : Int) := ⟨(-f.unit m).toNat, by omega⟩
    rw [Decimal.value, value, hk]
    simp only [neg_neg, Int.toNat_natCast, Nat.cast_mul, Nat.cast_pow, Nat.cast_ofNat, zpow_neg,
      zpow_natCast]
    rw [show (10 : ℚ) = 5 * 2 by norm_num, mul_pow]
    field_simp
  · obtain ⟨k, hk⟩ : ∃ k : Nat, f.unit m = (k : Int) := ⟨(f.unit m).toNat, by omega⟩
    rw [Decimal.value, value, hk]
    simp

theorem readsBack_onGrid? {e : Int} {d : Decimal} (h : f.onGrid? m e = some d) :
    f.readsBack m d = true := by
  unfold onGrid? at h
  dsimp only at h
  generalize (if e < 0 then _ else _ : Nat × Nat) = scaled at h
  split at h
  · rename_i hlower hupper
    obtain rfl := Option.some.inj h
    split
    · exact hlower
    · exact hupper
  · rename_i hlower _
    obtain rfl := Option.some.inj h
    exact hlower
  · rename_i _ hupper
    obtain rfl := Option.some.inj h
    exact hupper
  · cases h

theorem readsBack_shortestFrom (hf : f.Regular) (hm : 0 < m) (hfin : m < f.infinity) (top : Int) :
    ∀ tries size, f.readsBack m (f.shortestFrom m top tries size) = true
  | 0, _ => by
      rw [shortestFrom, readsBack,
        Binary.ofDecimal_of_value hf false hm hfin (value_exactDecimal m)]
      exact beq_self_eq_true _
  | tries + 1, size => by
      rw [shortestFrom]
      split
      · rename_i d h
        exact readsBack_onGrid? h
      · exact readsBack_shortestFrom hf hm hfin top tries (size + 1)

end BinaryFormat

theorem Decimal.value_stripZeros : ∀ (fuel : Nat) (d : Decimal), (d.stripZeros fuel).value = d.value
  | 0, _ => rfl
  | fuel + 1, d => by
      rw [stripZeros]
      split
      · rename_i h
        rw [value_stripZeros fuel]
        have hdigits : (d.digits : ℚ) = (d.digits / 10 : Nat) * 10 := by
          exact_mod_cast (Nat.div_mul_cancel (Nat.dvd_of_mod_eq_zero h.2)).symm
        rw [value, value, hdigits, zpow_add₀ (by norm_num), zpow_one]
        ring
      · rfl

/-- The shortest decimal reads back, with any sign. -/
theorem Binary.ofDecimal_shortest {f : BinaryFormat} {m : Nat} (hf : f.Regular) (hm : 0 < m)
    (hfin : m < f.infinity) (negative : Bool) {d : Decimal}
    (h : d.value = (f.shortest m).value) :
    (ofDecimal negative d.digits d.exponent : Binary f) = ofMagnitude negative m := by
  apply ofDecimal_of_unsigned
  rw [ofDecimal_congr false h]
  unfold BinaryFormat.shortest
  dsimp only
  rw [ofDecimal_congr false (Decimal.value_stripZeros _ _)]
  exact beq_iff_eq.mp (BinaryFormat.readsBack_shortestFrom hf hm hfin _ _ _)

end JvmListing
