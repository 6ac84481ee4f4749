import SequentSearch.Cost.Feature
import SequentSearch.Proofs.Rounding

/-!
# Computed lines

The line through two points has a slope and an intercept, which are rationals. What
`Feature.throughNumbers` computes in their place is off by the error of each operation. For points
whose coordinates are of size at most `B`, the errors add up to `B ^ 2 / 2 ^ 49` (`drawn_of_le`); if
the denominator of the slope is a power of two, there is none (`drawn_of_dyadic`).
-/

namespace SequentSearch

namespace Feature

open Binary64

variable {d₀ d₁ i₀ i₁ : ℤ}

/-! ## The exact line -/

/-- The slope of the line through two points. -/
def slope (d₀ d₁ i₀ i₁ : ℤ) : ℚ := (i₁ - i₀) / (d₁ - d₀)

/-- The image of zero on the line through two points. -/
def intercept (d₀ d₁ i₀ i₁ : ℤ) : ℚ := i₀ - slope d₀ d₁ i₀ i₁ * d₀

theorem slope_mul_fst : slope d₀ d₁ i₀ i₁ * d₀ = i₀ - intercept d₀ d₁ i₀ i₁ := by
  rw [intercept, sub_sub_cancel]

theorem slope_mul_snd (hd : d₀ ≠ d₁) : slope d₀ d₁ i₀ i₁ * d₁ = i₁ - intercept d₀ d₁ i₀ i₁ := by
  have hne : (d₁ : ℚ) - d₀ ≠ 0 := sub_ne_zero.mpr (by exact_mod_cast hd.symm)
  have hrise : slope d₀ d₁ i₀ i₁ * (d₁ - d₀) = i₁ - i₀ := div_mul_cancel₀ _ hne
  rw [intercept]
  linarith

theorem one_le_abs_sub (hd : d₀ ≠ d₁) : (1 : ℚ) ≤ |(d₁ : ℚ) - d₀| := by
  have : (1 : ℤ) ≤ |d₁ - d₀| := Int.one_le_abs (sub_ne_zero.mpr hd.symm)
  exact_mod_cast this

section Bounds

variable {B : ℚ} (hB : ∀ x ∈ [d₀, d₁, i₀, i₁], |(x : ℚ)| ≤ B)
include hB

theorem abs_sub_le_two_mul {x y : ℤ} (hx : x ∈ [d₀, d₁, i₀, i₁]) (hy : y ∈ [d₀, d₁, i₀, i₁]) :
    |(x : ℚ) - y| ≤ 2 * B := by
  have := abs_sub (x : ℚ) y
  linarith [hB x hx, hB y hy]

theorem abs_slope_le (hd : d₀ ≠ d₁) : |slope d₀ d₁ i₀ i₁| ≤ 2 * B := by
  calc |slope d₀ d₁ i₀ i₁|
    _ = |(i₁ : ℚ) - i₀| / |(d₁ : ℚ) - d₀| := abs_div _ _
    _ ≤ |(i₁ : ℚ) - i₀| := div_le_self (abs_nonneg _) (one_le_abs_sub hd)
    _ ≤ 2 * B := abs_sub_le_two_mul hB (by simp) (by simp)

theorem le_abs_slope (hd : d₀ ≠ d₁) (hi : i₀ ≠ i₁) : 1 / (2 * B) ≤ |slope d₀ d₁ i₀ i₁| := by
  have hrun := abs_sub_le_two_mul hB (x := d₁) (y := d₀) (by simp) (by simp)
  rw [slope, abs_div]
  exact div_le_div₀ (abs_nonneg _) (one_le_abs_sub hi)
    (zero_lt_one.trans_le (one_le_abs_sub hd)) hrun

theorem abs_slope_mul_le (hd : d₀ ≠ d₁) {x : ℤ} (hx : x ∈ [d₀, d₁, i₀, i₁]) :
    |slope d₀ d₁ i₀ i₁| * |(x : ℚ)| ≤ 2 * B ^ 2 := by
  calc |slope d₀ d₁ i₀ i₁| * |(x : ℚ)|
    _ ≤ 2 * B * B := mul_le_mul (abs_slope_le hB hd) (hB x hx) (abs_nonneg _)
      ((abs_nonneg _).trans (abs_slope_le hB hd))
    _ = 2 * B ^ 2 := by ring

end Bounds

/-! ## The computed line -/

/-- The coefficient that is computed. -/
def coeff (d₀ d₁ i₀ i₁ : ℤ) : Binary64 :=
  ((ofInt i₁).sub (ofInt i₀)).div ((ofInt d₁).sub (ofInt d₀))

/-- The intercept that is computed, before its fraction is cut off. -/
def start (d₀ d₁ i₀ i₁ : ℤ) : Binary64 := (ofInt i₀).sub ((ofInt d₀).mul (coeff d₀ d₁ i₀ i₁))

/-- The product that is computed, before it is made an integer. -/
def product (d₀ d₁ i₀ i₁ x : ℤ) : Binary64 :=
  ((coeff d₀ d₁ i₀ i₁).mul (ofInt x)).add (.round (mkRat 1 2))

theorem throughNumbers_number {f : Feature} {ctx : FeatureContext} {app : RuleApp} {x : ℤ}
    (h : f ctx app = .number x) :
    f.throughNumbers d₀ d₁ i₀ i₁ ctx app =
      .number (saturate ((product d₀ d₁ i₀ i₁ x).floor + (start d₀ d₁ i₀ i₁).truncate)) := by
  rw [throughNumbers, affine, h]
  rfl

/-- What is computed for two points is near to what it stands for: the intercept up to `e`, the
products up to `e'`. -/
structure Drawn (d₀ d₁ i₀ i₁ : ℤ) (e e' : ℚ) : Prop where
  start : (start d₀ d₁ i₀ i₁).Within (intercept d₀ d₁ i₀ i₁) e
  fst : (product d₀ d₁ i₀ i₁ d₀).Within (i₀ - intercept d₀ d₁ i₀ i₁ + 1 / 2) e'
  snd : (product d₀ d₁ i₀ i₁ d₁).Within (i₁ - intercept d₀ d₁ i₀ i₁ + 1 / 2) e'

theorem round_half : Binary64.round (mkRat 1 2) = finite (1 / 2) := by
  decide +kernel

theorem sub_ofInt {a b : ℤ} (ha : |a| ≤ 2 ^ 23) (hb : |b| ≤ 2 ^ 23) :
    (ofInt a).sub (ofInt b) = finite ((a : ℚ) - b) := by
  have hab : |a + -b| < 2 ^ 53 := by
    rw [abs_le] at ha hb
    rw [abs_lt]
    omega
  rw [ofInt_eq_finite (by omega), ofInt_eq_finite (by omega)]
  calc (finite (a : ℚ)).sub (finite b)
    _ = ofInt (a + -b) := by
      rw [ofInt, Int.cast_add, Int.cast_neg]
      rfl
    _ = finite ((a : ℚ) - b) := by
      rw [ofInt_eq_finite hab, Int.cast_add, Int.cast_neg, sub_eq_add_neg]

section Computed

variable (hd : d₀ ≠ d₁) (hsmall : ∀ x ∈ [d₀, d₁, i₀, i₁], |x| ≤ 2 ^ 23)
include hd hsmall

theorem coeff_eq_round : coeff d₀ d₁ i₀ i₁ = .round (slope d₀ d₁ i₀ i₁) := by
  have hne : (d₁ : ℚ) - d₀ ≠ 0 := sub_ne_zero.mpr (by exact_mod_cast hd.symm)
  rw [coeff, sub_ofInt (hsmall _ (by simp)) (hsmall _ (by simp)),
    sub_ofInt (hsmall _ (by simp)) (hsmall _ (by simp))]
  exact if_neg hne

omit hd in
theorem ofInt_coordinate {x : ℤ} (hx : x ∈ [d₀, d₁, i₀, i₁]) : ofInt x = finite x :=
  ofInt_eq_finite ((hsmall x hx).trans_lt (by norm_num))

/-! ### In general -/

section Approximate

variable {B : ℚ} (hB : ∀ x ∈ [d₀, d₁, i₀, i₁], |(x : ℚ)| ≤ B) (hlow : 1 ≤ B) (hhigh : B ≤ 2 ^ 23)
include hB hlow hhigh

/-- The coefficient is off by a part of its last place. -/
theorem coeff_within : (coeff d₀ d₁ i₀ i₁).Within (slope d₀ d₁ i₀ i₁)
    (|slope d₀ d₁ i₀ i₁| / 2 ^ 53) := by
  rw [coeff_eq_round hd hsmall]
  rcases eq_or_ne i₀ i₁ with rfl | hi
  · rw [show slope d₀ d₁ i₀ i₀ = 0 by simp [slope], round_zero]
    exact (within_finite 0).mono (by simp)
  · refine within_round le_rfl ?_ (by linarith [abs_slope_le hB hd])
    calc (2 : ℚ) ^ (-1022 : ℤ)
      _ ≤ 2 ^ (-24 : ℤ) := zpow_le_zpow_right₀ one_le_two (by norm_num)
      _ = 1 / 2 ^ 24 := by norm_num
      _ ≤ 1 / (2 * B) := one_div_le_one_div_of_le (by linarith) (by linarith)
      _ ≤ |slope d₀ d₁ i₀ i₁| := le_abs_slope hB hd hi

/-- A product is off by that times the point, and by its own rounding. -/
theorem mul_within {x : ℤ} (hx : x ∈ [d₀, d₁, i₀, i₁]) :
    ((coeff d₀ d₁ i₀ i₁).mul (ofInt x)).Within (slope d₀ d₁ i₀ i₁ * x) (3 * B ^ 2 / 2 ^ 52) := by
  have hle := abs_slope_mul_le hB hd hx
  have hsq : B ^ 2 ≤ 2 ^ 46 := by nlinarith
  have hone : 1 ≤ B ^ 2 := by nlinarith
  rw [ofInt_coordinate hsmall hx]
  exact ((coeff_within hd hsmall hB hlow hhigh).mul (b := 4 * B ^ 2) x (by linarith) (by linarith)
    (by linarith)).mono (by linarith)

theorem product_within {x : ℤ} (hx : x ∈ [d₀, d₁, i₀, i₁]) :
    (product d₀ d₁ i₀ i₁ x).Within (slope d₀ d₁ i₀ i₁ * x + 1 / 2) (B ^ 2 / 2 ^ 49) := by
  have hle := abs_slope_mul_le hB hd hx
  have hsq : B ^ 2 ≤ 2 ^ 46 := by nlinarith
  have hone : 1 ≤ B ^ 2 := by nlinarith
  have hhalf : |(1 / 2 : ℚ)| = 1 / 2 := by norm_num
  rw [product, round_half]
  refine ((mul_within hd hsmall hB hlow hhigh hx).add (b := 8 * B ^ 2)
    (within_finite _) ?_ (by linarith) (by linarith)).mono (by linarith)
  rw [abs_mul, hhalf]
  linarith

theorem start_within : (start d₀ d₁ i₀ i₁).Within (intercept d₀ d₁ i₀ i₁) (B ^ 2 / 2 ^ 49) := by
  have hle := abs_slope_mul_le hB hd (x := d₀) (by simp)
  have hsq : B ^ 2 ≤ 2 ^ 46 := by nlinarith
  have hone : B ≤ B ^ 2 := by nlinarith
  rw [start, ofInt_coordinate hsmall (x := i₀) (by simp), Binary64.mul_comm]
  refine ((within_finite _).sub (b := 8 * B ^ 2)
    (mul_within hd hsmall hB hlow hhigh (by simp)) ?_ (by linarith)
      (by linarith)).mono (by linarith)
  rw [abs_mul]
  linarith [hB i₀ (by simp)]

/-- **The error of the computed line**, for points whose coordinates are of size at most `B`. -/
theorem drawn_of_le : Drawn d₀ d₁ i₀ i₁ (B ^ 2 / 2 ^ 49) (B ^ 2 / 2 ^ 49) := by
  refine ⟨start_within hd hsmall hB hlow hhigh, ?_, ?_⟩
  · rw [← slope_mul_fst]
    exact product_within hd hsmall hB hlow hhigh (by simp)
  · rw [← slope_mul_snd hd]
    exact product_within hd hsmall hB hlow hhigh (by simp)

end Approximate

omit hd in
theorem cast_coordinate_le : ∀ x ∈ [d₀, d₁, i₀, i₁], |(x : ℚ)| ≤ 2 ^ 23 := by
  intro x hx
  exact_mod_cast hsmall x hx

theorem drawn_eighth : Drawn d₀ d₁ i₀ i₁ (1 / 8) (1 / 8) := by
  have h := drawn_of_le hd hsmall (cast_coordinate_le hsmall) (by norm_num) le_rfl
  rwa [show ((2 : ℚ) ^ 23) ^ 2 / 2 ^ 49 = 1 / 8 by norm_num] at h

/-- A line that starts at zero has an exact intercept. -/
theorem start_of_zero (hzero : d₀ = 0) : (start d₀ d₁ i₀ i₁).Within (intercept d₀ d₁ i₀ i₁) 0 := by
  obtain ⟨c, hc, -⟩ := coeff_within hd hsmall (cast_coordinate_le hsmall) (by norm_num) le_rfl
  have hmul : (finite (0 : ℤ)).mul (finite c) = finite 0 := by
    rw [mul, Int.cast_zero, zero_mul, round_zero]
  have hintercept : intercept d₀ d₁ i₀ i₁ = i₀ := by
    rw [intercept, hzero, Int.cast_zero, mul_zero, sub_zero]
  rw [within_zero_iff, start, hc, ofInt_coordinate hsmall (x := d₀) (by simp), hzero, hmul,
    ← Int.cast_zero, ← ofInt_coordinate hsmall (x := 0) (by simp [hzero]),
    sub_ofInt (hsmall _ (by simp)) (by norm_num),
    ← hzero, hintercept, hzero, Int.cast_zero, sub_zero]

/-! ### With a power of two as denominator -/

omit hd in
theorem natAbs_sub_le {x y : ℤ} (hx : x ∈ [d₀, d₁, i₀, i₁]) (hy : y ∈ [d₀, d₁, i₀, i₁]) :
    (x - y).natAbs ≤ 2 ^ 24 := by
  have hx' := abs_le.mp (hsmall x hx)
  have hy' := abs_le.mp (hsmall y hy)
  omega

theorem exists_slope_eq {n : ℕ} (hden : (slope d₀ d₁ i₀ i₁).den = 2 ^ n) :
    ∃ m : ℤ, slope d₀ d₁ i₀ i₁ = m / 2 ^ n ∧ |m| ≤ 2 ^ 24 ∧ n ≤ 24 := by
  have hne : d₁ - d₀ ≠ 0 := sub_ne_zero.mpr hd.symm
  have heq : slope d₀ d₁ i₀ i₁ = Rat.divInt (i₁ - i₀) (d₁ - d₀) := by
    rw [slope, Rat.divInt_eq_div, Int.cast_sub, Int.cast_sub]
  refine ⟨(slope d₀ d₁ i₀ i₁).num, ?_, ?_, ?_⟩
  · rw [← Nat.cast_ofNat, ← Nat.cast_pow, ← hden, Rat.num_div_den]
  · rcases eq_or_ne (i₁ - i₀) 0 with hzero | hrise
    · rw [heq, hzero, Rat.zero_divInt]
      norm_num
    · have hdvd : (slope d₀ d₁ i₀ i₁).num ∣ i₁ - i₀ := heq ▸ Rat.num_dvd _ hne
      have hle := Int.natAbs_le_of_dvd_ne_zero hdvd hrise
      have := natAbs_sub_le hsmall (x := i₁) (y := i₀) (by simp) (by simp)
      rw [Int.abs_eq_natAbs]
      omega
  · have hdvd : ((slope d₀ d₁ i₀ i₁).den : ℤ) ∣ d₁ - d₀ := heq ▸ Rat.den_dvd _ _
    have hle := Int.natAbs_le_of_dvd_ne_zero hdvd hne
    rw [Int.natAbs_natCast, hden] at hle
    have := natAbs_sub_le hsmall (x := d₁) (y := d₀) (by simp) (by simp)
    exact (Nat.pow_le_pow_iff_right one_lt_two).mp (hle.trans this)

section Exact

variable {m : ℤ} {n : ℕ} (hslope : slope d₀ d₁ i₀ i₁ = m / 2 ^ n) (hm : |m| ≤ 2 ^ 24) (hn : n ≤ 24)
include hm

omit hd in
theorem abs_mul_coordinate_le {x : ℤ} (hx : x ∈ [d₀, d₁, i₀, i₁]) : |m * x| ≤ 2 ^ 47 := by
  rw [abs_mul]
  exact mul_le_mul hm (hsmall x hx) (abs_nonneg x) (by norm_num)

include hslope hn

theorem mul_eq_finite {x : ℤ} (hx : x ∈ [d₀, d₁, i₀, i₁]) :
    (coeff d₀ d₁ i₀ i₁).mul (ofInt x) = finite (slope d₀ d₁ i₀ i₁ * x) := by
  rw [coeff_eq_round hd hsmall, round_eq_finite hslope (hm.trans_lt (by norm_num)) (by omega),
    ofInt_coordinate hsmall hx]
  refine round_eq_finite (m := m * x) (j := n) ?_
    ((abs_mul_coordinate_le hsmall hm hx).trans_lt (by norm_num)) (by omega)
  rw [hslope]
  push_cast
  ring

theorem product_eq_finite {x : ℤ} (hx : x ∈ [d₀, d₁, i₀, i₁]) :
    product d₀ d₁ i₀ i₁ x = finite (slope d₀ d₁ i₀ i₁ * x + 1 / 2) := by
  have hpow : (2 : ℤ) ^ n ≤ 2 ^ 24 := pow_le_pow_right₀ one_le_two hn
  have hpos : (0 : ℤ) < 2 ^ n := by positivity
  have hle := abs_le.mp (abs_mul_coordinate_le hsmall hm hx)
  rw [product, mul_eq_finite hd hsmall hslope hm hn hx, round_half]
  refine round_eq_finite (m := 2 * (m * x) + 2 ^ n)
    (j := n + 1) ?_ (abs_lt.mpr (by omega)) (by omega)
  rw [hslope, pow_succ]
  push_cast
  field_simp

theorem start_eq_finite : start d₀ d₁ i₀ i₁ = finite (intercept d₀ d₁ i₀ i₁) := by
  have hpos : (0 : ℤ) < 2 ^ n := by positivity
  have hle := abs_le.mp (abs_mul_coordinate_le hsmall hm (x := d₀) (by simp))
  have hle' : |i₀ * 2 ^ n| ≤ 2 ^ 47 := by
    rw [abs_mul, abs_of_pos hpos]
    exact mul_le_mul (hsmall i₀ (by simp)) (pow_le_pow_right₀ one_le_two hn) hpos.le (by norm_num)
  rw [abs_le] at hle'
  rw [start, Binary64.mul_comm, mul_eq_finite hd hsmall hslope hm hn (by simp),
    ofInt_coordinate hsmall (x := i₀) (by simp), intercept, sub_eq_add_neg]
  refine round_eq_finite (m := i₀ * 2 ^ n - m * d₀) (j := n) ?_ (abs_lt.mpr (by omega)) (by omega)
  rw [hslope]
  push_cast
  field_simp
  ring

end Exact

/-- **The computed line is exact** if the denominator of the slope is a power of two. -/
theorem drawn_of_dyadic {n : ℕ} (hden : (slope d₀ d₁ i₀ i₁).den = 2 ^ n) :
    Drawn d₀ d₁ i₀ i₁ 0 0 := by
  obtain ⟨m, hslope, hm, hn⟩ := exists_slope_eq hd hsmall hden
  refine ⟨within_zero_iff.mpr (start_eq_finite hd hsmall hslope hm hn), within_zero_iff.mpr ?_,
    within_zero_iff.mpr ?_⟩
  · rw [← slope_mul_fst]
    exact product_eq_finite hd hsmall hslope hm hn (by simp)
  · rw [← slope_mul_snd hd]
    exact product_eq_finite hd hsmall hslope hm hn (by simp)

end Computed

end Feature

end SequentSearch
