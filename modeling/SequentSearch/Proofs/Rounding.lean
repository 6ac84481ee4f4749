import Mathlib.Data.Rat.Floor
import Mathlib.Tactic
import SequentSearch.Cost.Binary64

/-!
# Rounding to binary64

What is needed to compute with numbers of the format: a number with less than 54 binary places is
not changed by rounding (`Binary64.round_eq_finite`), and every other number of moderate size
changes by at most one part in `2 ^ 53` (`Binary64.within_round`). Both come from where the last of
the 53 places is (`Binary64.lastPlace_spec`). Errors are carried through sums and products by
`Binary64.Within`.
-/

namespace SequentSearch

namespace Binary64

variable {n d : ℕ}

/-! ## The last place -/

/-- The nearest natural number is at most a half away. -/
theorem abs_nearest_sub_le (n : ℕ) (hd : 0 < d) : |(nearest n d : ℚ) - n / d| ≤ 1 / 2 := by
  have hd' : (0 : ℚ) < d := by exact_mod_cast hd
  have hsum : (d : ℚ) * (n / d : ℕ) + (n % d : ℕ) = n := by exact_mod_cast Nat.div_add_mod n d
  have hquot : (n : ℚ) / d = (n / d : ℕ) + ((n % d : ℕ) : ℚ) / d := by
    rw [← hsum, add_div, mul_div_cancel_left₀ _ hd'.ne']
  have hnonneg : (0 : ℚ) ≤ ((n % d : ℕ) : ℚ) / d := by positivity
  have hlt : ((n % d : ℕ) : ℚ) / d < 1 := by
    rw [div_lt_one hd']
    exact_mod_cast Nat.mod_lt n hd
  rw [nearest, hquot, abs_le]
  split <;> rename_i hr
  · have hhalf : ((n % d : ℕ) : ℚ) / d ≤ 1 / 2 := by
      rw [div_le_div_iff₀ hd' two_pos]
      exact_mod_cast (by omega : n % d * 2 ≤ 1 * d)
    constructor <;> linarith
  · have hhalf : 1 / 2 ≤ ((n % d : ℕ) : ℚ) / d := by
      rw [div_le_div_iff₀ two_pos hd']
      exact_mod_cast (by omega : 1 * d ≤ n % d * 2)
    push_cast
    constructor <;> linarith

theorem scaled_spec (n : ℕ) (hd : 0 < d) (e : ℤ) :
    0 < (scaled n d e).2 ∧ ((scaled n d e).1 : ℚ) / (scaled n d e).2 = n / d / 2 ^ e := by
  rw [scaled]
  split <;> rename_i he
  · obtain ⟨k, rfl⟩ : ∃ k : ℕ, e = -k := ⟨(-e).toNat, by omega⟩
    refine ⟨hd, ?_⟩
    simp only [neg_neg, Int.toNat_natCast, Nat.pow_eq, zpow_neg, zpow_natCast]
    push_cast
    field_simp
  · obtain ⟨k, rfl⟩ : ∃ k : ℕ, e = k := ⟨e.toNat, by omega⟩
    refine ⟨by simp only [Int.toNat_natCast, Nat.pow_eq]; positivity, ?_⟩
    simp only [Int.toNat_natCast, Nat.pow_eq, zpow_natCast]
    push_cast
    rw [div_div]

theorem places_eq (m : ℕ) (e : ℤ) : places m e = m * 2 ^ e := by
  rw [places]
  split <;> rename_i he
  · obtain ⟨k, rfl⟩ : ∃ k : ℕ, e = -k := ⟨(-e).toNat, by omega⟩
    simp only [neg_neg, Int.toNat_natCast, Nat.pow_eq, zpow_neg, zpow_natCast, Rat.mkRat_eq_div]
    push_cast
    rw [div_eq_mul_inv]
  · obtain ⟨k, rfl⟩ : ∃ k : ℕ, e = k := ⟨e.toNat, by omega⟩
    simp only [Int.toNat_natCast, Nat.pow_eq, zpow_natCast]
    push_cast
    rfl

theorem two_zpow_log2_le (hn : 0 < n) : (2 : ℚ) ^ (n.log2 : ℤ) ≤ n := by
  rw [zpow_natCast]
  exact_mod_cast Nat.log2_self_le hn.ne'

theorem lt_two_zpow_log2_add_one (n : ℕ) : (n : ℚ) < 2 ^ ((n.log2 : ℤ) + 1) := by
  have : (n : ℚ) < 2 ^ (n.log2 + 1) := by exact_mod_cast Nat.lt_log2_self
  exact_mod_cast this

/-- The logarithms place a quotient up to a factor of four. -/
theorem quotient_bounds (hn : 0 < n) (hd : 0 < d) {e : ℤ} (he : e = (n.log2 : ℤ) - d.log2 - 53) :
    (2 : ℚ) ^ 52 * 2 ^ e < n / d ∧ (n : ℚ) / d < 2 ^ 54 * 2 ^ e := by
  have hd' : (0 : ℚ) < d := by exact_mod_cast hd
  rw [lt_div_iff₀ hd', div_lt_iff₀ hd', ← zpow_natCast, ← zpow_natCast, ← zpow_add₀ two_ne_zero,
    ← zpow_add₀ two_ne_zero]
  constructor
  · calc (2 : ℚ) ^ (((52 : ℕ) : ℤ) + e) * d
      _ < 2 ^ (((52 : ℕ) : ℤ) + e) * 2 ^ ((d.log2 : ℤ) + 1) := by
        gcongr
        exact lt_two_zpow_log2_add_one d
      _ = 2 ^ (n.log2 : ℤ) := by
        rw [← zpow_add₀ two_ne_zero]
        congr 1
        omega
      _ ≤ n := two_zpow_log2_le hn
  · calc (n : ℚ)
      _ < 2 ^ ((n.log2 : ℤ) + 1) := lt_two_zpow_log2_add_one n
      _ = 2 ^ (((54 : ℕ) : ℤ) + e) * 2 ^ (d.log2 : ℤ) := by
        rw [← zpow_add₀ two_ne_zero]
        congr 1
        omega
      _ ≤ 2 ^ (((54 : ℕ) : ℤ) + e) * d := by
        gcongr
        exact two_zpow_log2_le hd

/-- **The last place**: there are at most 53 places from it on, and exactly 53 unless it is the last
place of the format. -/
theorem lastPlace_spec (hn : 0 < n) (hd : 0 < d) :
    (n : ℚ) / d < 2 ^ 53 * 2 ^ lastPlace n d ∧
      (lastPlace n d = -1074 ∨ (2 : ℚ) ^ 52 * 2 ^ lastPlace n d ≤ n / d) := by
  obtain ⟨e, he⟩ : ∃ e : ℤ, e = (n.log2 : ℤ) - d.log2 - 53 := ⟨_, rfl⟩
  obtain ⟨hlow, hhigh⟩ := quotient_bounds hn hd he
  -- one comparison decides between the two places that are left
  obtain ⟨place, hplace, hlow', hhigh'⟩ : ∃ place : ℤ, lastPlace n d = max place (-1074) ∧
      (2 : ℚ) ^ 52 * 2 ^ place ≤ n / d ∧ (n : ℚ) / d < 2 ^ 53 * 2 ^ place := by
    obtain ⟨hk, hquot⟩ := scaled_spec n hd e
    have hk' : (0 : ℚ) < (scaled n d e).2 := by exact_mod_cast hk
    have htest : Nat.pow 2 53 * (scaled n d e).2 ≤ (scaled n d e).1 ↔
        (2 : ℚ) ^ 53 * 2 ^ e ≤ n / d := by
      rw [← le_div_iff₀ (by positivity), ← hquot, le_div_iff₀ hk']
      norm_cast
    refine ⟨_, by rw [lastPlace, ← he], ?_⟩
    split <;> rename_i hle
    · rw [zpow_add₀ two_ne_zero, zpow_one]
      have := htest.mp hle
      constructor <;> linarith
    · exact ⟨hlow.le, not_le.mp (mt htest.mpr hle)⟩
  rw [hplace]
  rcases le_total place (-1074) with hle | hle
  · have hmono : (2 : ℚ) ^ place ≤ 2 ^ (-1074 : ℤ) := zpow_le_zpow_right₀ one_le_two hle
    rw [max_eq_right hle]
    exact ⟨by linarith, .inl rfl⟩
  · rw [max_eq_left hle]
    exact ⟨hhigh', .inr hlow'⟩

/-! ## Magnitudes -/

/-- A magnitude is rounded to a whole number of its last place. -/
theorem roundMagnitude_eq (n : ℕ) (hd : 0 < d) :
    ∃ m : ℕ, roundMagnitude n d = m * 2 ^ lastPlace n d ∧
      |(m : ℚ) - n / d / 2 ^ lastPlace n d| ≤ 1 / 2 := by
  obtain ⟨hk, hquot⟩ := scaled_spec n hd (lastPlace n d)
  refine ⟨nearest (scaled n d (lastPlace n d)).1 (scaled n d (lastPlace n d)).2, ?_, ?_⟩
  · rw [← places_eq]
    rfl
  · rw [← hquot]
    exact abs_nearest_sub_le _ hk

/-- **A magnitude with few places is not changed.** -/
theorem roundMagnitude_exact (hn : 0 < n) (hd : 0 < d) {m j : ℕ} (hm : m < 2 ^ 53) (hj : j ≤ 1074)
    (h : (n : ℚ) / d = m / 2 ^ j) : roundMagnitude n d = n / d := by
  obtain ⟨-, hplace⟩ := lastPlace_spec hn hd
  obtain ⟨r, hr, hnear⟩ := roundMagnitude_eq n hd
  -- the last place of the number is not behind that of the format
  have hle : lastPlace n d ≤ -(j : ℤ) := by
    rcases hplace with hplace | hplace
    · omega
    · have hlt : (2 : ℚ) ^ (((52 : ℕ) : ℤ) + lastPlace n d) < 2 ^ (((53 : ℕ) : ℤ) + -(j : ℤ)) := by
        rw [zpow_add₀ two_ne_zero, zpow_add₀ two_ne_zero, zpow_natCast, zpow_natCast,
          zpow_neg, zpow_natCast, ← div_eq_mul_inv]
        refine lt_of_le_of_lt hplace ?_
        rw [h]
        gcongr
        exact_mod_cast hm
      have := (zpow_lt_zpow_iff_right₀ (one_lt_two (α := ℚ))).mp hlt
      omega
  -- so it is a whole number of that place, and nothing else is as near
  obtain ⟨k, hk⟩ : ∃ k : ℕ, -(j : ℤ) = lastPlace n d + k :=
    ⟨(-(j : ℤ) - lastPlace n d).toNat, by omega⟩
  have hwhole : (n : ℚ) / d = ((m * 2 ^ k : ℕ) : ℚ) * 2 ^ lastPlace n d := by
    rw [h, div_eq_mul_inv, ← zpow_natCast, ← zpow_neg, hk, zpow_add₀ two_ne_zero, zpow_natCast]
    push_cast
    ring
  have hpos : (0 : ℚ) < 2 ^ lastPlace n d := by positivity
  rw [hwhole, mul_div_cancel_right₀ _ hpos.ne', abs_le] at hnear
  have hlow : r < m * 2 ^ k + 1 := by
    have : (r : ℚ) < (m * 2 ^ k : ℕ) + 1 := by linarith
    exact_mod_cast this
  have hhigh : m * 2 ^ k < r + 1 := by
    have : ((m * 2 ^ k : ℕ) : ℚ) < r + 1 := by linarith
    exact_mod_cast this
  rw [hr, hwhole, show r = m * 2 ^ k by omega]

/-- **Rounding changes a magnitude by at most one part in `2 ^ 53`**, as long as it is not among the
least of the format. -/
theorem abs_roundMagnitude_sub_le (hn : 0 < n) (hd : 0 < d) {b : ℚ} (hb : (2 : ℚ) ^ (-1022 : ℤ) ≤ b)
    (hle : (n : ℚ) / d ≤ b) : |roundMagnitude n d - n / d| ≤ b / 2 ^ 53 := by
  obtain ⟨-, hplace⟩ := lastPlace_spec hn hd
  obtain ⟨r, hr, hnear⟩ := roundMagnitude_eq n hd
  have hpos : (0 : ℚ) < 2 ^ lastPlace n d := by positivity
  have hlast : (2 : ℚ) ^ 52 * 2 ^ lastPlace n d ≤ b := by
    rcases hplace with hplace | hplace
    · refine le_trans (le_of_eq ?_) hb
      rw [hplace, ← zpow_natCast, ← zpow_add₀ two_ne_zero]
      rfl
    · exact hplace.trans hle
  have hdiff : roundMagnitude n d - n / d =
      ((r : ℚ) - n / d / 2 ^ lastPlace n d) * 2 ^ lastPlace n d := by
    rw [hr, sub_mul, div_mul_cancel₀ _ hpos.ne']
  rw [hdiff, abs_mul, abs_of_pos hpos]
  calc |(r : ℚ) - n / d / 2 ^ lastPlace n d| * 2 ^ lastPlace n d
    _ ≤ 1 / 2 * 2 ^ lastPlace n d := by gcongr
    _ ≤ b / 2 ^ 53 := by linarith

/-! ## Numbers -/

theorem natAbs_num_div_den (q : ℚ) : (q.num.natAbs : ℚ) / q.den = |q| := by
  rw [← Rat.num_div_den q, abs_div, Nat.abs_cast, ← Int.cast_abs, Nat.cast_natAbs, Rat.num_div_den]

@[simp] theorem round_zero : round 0 = finite 0 := by
  decide +kernel

/-- A number is rounded as its magnitude is, if that stays within the format. -/
theorem round_eq_of_lt {q : ℚ} {k : ℕ} (hk : k ≤ 1024)
    (h : roundMagnitude q.num.natAbs q.den < 2 ^ k) :
    round q = finite (if q < 0 then -roundMagnitude q.num.natAbs q.den
      else roundMagnitude q.num.natAbs q.den) := by
  rw [round]
  -- nothing is to compute the end of the format
  generalize 1024 = e at hk ⊢
  have hend : (2 : ℚ) ^ k ≤ (Nat.pow 2 e : ℕ) := by
    exact_mod_cast Nat.pow_le_pow_right two_pos hk
  exact if_neg (not_le.mpr (h.trans_le hend))

/-- **A number with few places is not changed.** -/
theorem round_eq_finite {q : ℚ} {m : ℤ} {j : ℕ} (hq : q = m / 2 ^ j) (hm : |m| < 2 ^ 53)
    (hj : j ≤ 1074) :
    round q = finite q := by
  rcases eq_or_ne q 0 with rfl | hne
  · exact round_zero
  have habs : |q| = m.natAbs / 2 ^ j := by
    rw [hq, abs_div, abs_of_pos (by positivity : (0 : ℚ) < 2 ^ j), ← Int.cast_abs, Nat.cast_natAbs]
  have hm' : m.natAbs < 2 ^ 53 := by
    rw [Int.abs_eq_natAbs] at hm
    exact_mod_cast hm
  have hexact : roundMagnitude q.num.natAbs q.den = |q| := by
    rw [roundMagnitude_exact (by simpa using hne) q.den_pos hm' hj
      ((natAbs_num_div_den q).trans habs), natAbs_num_div_den]
  have hlt : roundMagnitude q.num.natAbs q.den < 2 ^ 53 := by
    calc roundMagnitude q.num.natAbs q.den
      _ = m.natAbs / 2 ^ j := hexact.trans habs
      _ ≤ m.natAbs := div_le_self (by positivity) (one_le_pow₀ one_le_two)
      _ < 2 ^ 53 := by exact_mod_cast hm'
  rw [round_eq_of_lt (by norm_num) hlt, hexact]
  congr 1
  split <;> rename_i hsign
  · rw [abs_of_neg hsign, neg_neg]
  · exact abs_of_nonneg (not_lt.mp hsign)

@[simp] theorem ofInt_eq_finite {n : ℤ} (hn : |n| < 2 ^ 53) : ofInt n = finite n :=
  round_eq_finite (j := 0) (by simp) hn (by omega)

/-- The number is finite and at most `e` away from `q`. -/
def Within (x : Binary64) (q e : ℚ) : Prop :=
  ∃ r, x = finite r ∧ |r - q| ≤ e

theorem within_finite (q : ℚ) : (finite q).Within q 0 :=
  ⟨q, rfl, by simp⟩

theorem within_zero_iff {x : Binary64} {q : ℚ} : x.Within q 0 ↔ x = finite q := by
  constructor
  · rintro ⟨r, rfl, hr⟩
    rw [abs_nonpos_iff, sub_eq_zero] at hr
    rw [hr]
  · rintro rfl
    exact within_finite q

/-- **Every number of moderate size changes by at most one part in `2 ^ 53`.** -/
theorem within_round {q b : ℚ} (hq : |q| ≤ b) (hlow : (2 : ℚ) ^ (-1022 : ℤ) ≤ b)
    (hhigh : b ≤ 2 ^ 200) :
    (round q).Within q (b / 2 ^ 53) := by
  have hb : 0 < b := lt_of_lt_of_le (by positivity) hlow
  rcases eq_or_ne q 0 with rfl | hne
  · exact ⟨0, round_zero, by simpa using by positivity⟩
  have hnear := abs_roundMagnitude_sub_le (by simpa using hne) q.den_pos hlow
    ((natAbs_num_div_den q).le.trans hq)
  rw [natAbs_num_div_den] at hnear
  have hlt : roundMagnitude q.num.natAbs q.den < 2 ^ 202 := by
    have hle := (abs_le.mp hnear).2
    have hpart : b / 2 ^ 53 ≤ b := div_le_self hb.le (by norm_num)
    calc roundMagnitude q.num.natAbs q.den
      _ ≤ 2 * b := by linarith
      _ ≤ 2 * 2 ^ 200 := by linarith
      _ < 2 ^ 202 := by norm_num
  refine ⟨_, round_eq_of_lt (by norm_num) hlt, ?_⟩
  split <;> rename_i hsign
  · rw [abs_of_neg hsign] at hnear
    rwa [← neg_add', abs_neg, ← sub_neg_eq_add]
  · rwa [abs_of_nonneg (not_lt.mp hsign)] at hnear

/-! ## Operations -/

section Operations

variable {x y : Binary64} {p q e e' b : ℚ}

theorem Within.mono (h : x.Within q e) (he : e ≤ e') : x.Within q e' := by
  obtain ⟨r, rfl, hr⟩ := h
  exact ⟨r, rfl, hr.trans he⟩

theorem Within.neg (h : x.Within q e) : x.neg.Within (-q) e := by
  obtain ⟨r, rfl, hr⟩ := h
  refine ⟨-r, rfl, ?_⟩
  rwa [neg_sub_neg, abs_sub_comm]

theorem within_round_of_one_le (hq : |q| ≤ b) (hlow : 1 ≤ b) (hhigh : b ≤ 2 ^ 200) :
    (round q).Within q (b / 2 ^ 53) :=
  within_round hq ((zpow_le_one_of_nonpos₀ one_le_two (by decide)).trans hlow) hhigh

/-- The errors of the operands add up, and that of rounding comes on top. -/
theorem Within.add (hx : x.Within p e) (hy : y.Within q e') (hb : |p| + |q| + e + e' ≤ b)
    (hlow : 1 ≤ b) (hhigh : b ≤ 2 ^ 200) : (x.add y).Within (p + q) (e + e' + b / 2 ^ 53) := by
  obtain ⟨r, rfl, hr⟩ := hx
  obtain ⟨s, rfl, hs⟩ := hy
  have hsum : |r + s - (p + q)| ≤ e + e' := by
    rw [add_sub_add_comm]
    exact (abs_add_le _ _).trans (add_le_add hr hs)
  have hle : |r + s| ≤ b := by
    have h₁ := abs_sub_abs_le_abs_sub (r + s) (p + q)
    have h₂ := abs_add_le p q
    linarith
  obtain ⟨t, ht, hnear⟩ := within_round_of_one_le hle hlow hhigh
  refine ⟨t, ht, ?_⟩
  calc |t - (p + q)|
    _ ≤ |t - (r + s)| + |r + s - (p + q)| := abs_sub_le _ _ _
    _ ≤ e + e' + b / 2 ^ 53 := by linarith

theorem Within.sub (hx : x.Within p e) (hy : y.Within q e') (hb : |p| + |q| + e + e' ≤ b)
    (hlow : 1 ≤ b) (hhigh : b ≤ 2 ^ 200) : (x.sub y).Within (p - q) (e + e' + b / 2 ^ 53) := by
  rw [sub_eq_add_neg]
  exact hx.add hy.neg (by rwa [abs_neg]) hlow hhigh

/-- The error of an operand is multiplied by the other one, and that of rounding comes on top. -/
theorem Within.mul (hx : x.Within p e) (q : ℚ) (hb : (|p| + e) * |q| ≤ b) (hlow : 1 ≤ b)
    (hhigh : b ≤ 2 ^ 200) : (x.mul (finite q)).Within (p * q) (e * |q| + b / 2 ^ 53) := by
  obtain ⟨r, rfl, hr⟩ := hx
  have hprod : |r * q - p * q| ≤ e * |q| := by
    rw [← sub_mul, abs_mul]
    gcongr
  have hle : |r * q| ≤ b := by
    have h := abs_sub_abs_le_abs_sub r p
    refine le_trans ?_ hb
    rw [abs_mul]
    gcongr
    linarith
  obtain ⟨t, ht, hnear⟩ := within_round_of_one_le hle hlow hhigh
  refine ⟨t, ht, ?_⟩
  calc |t - p * q|
    _ ≤ |t - r * q| + |r * q - p * q| := abs_sub_le _ _ _
    _ ≤ e * |q| + b / 2 ^ 53 := by linarith

protected theorem mul_comm (x y : Binary64) : x.mul y = y.mul x := by
  cases x <;> cases y <;> simp [mul, mul_comm, or_comm, bne_comm]

end Operations

/-! ## Integers -/

theorem saturate_eq {n : ℤ} (hlow : leastNumber ≤ n) (hhigh : n ≤ greatestNumber) :
    saturate n = n := by
  rw [saturate, min_eq_left hhigh, max_eq_right hlow]

theorem saturate_eq_of_inRange {n : ℤ} (h : inRange n) : saturate n = n := by
  obtain ⟨hlow, hhigh⟩ := Bool.and_eq_true_iff.mp h
  exact saturate_eq (of_decide_eq_true hlow) (of_decide_eq_true hhigh)

theorem saturate_eq_of_near {n : ℤ} {q : ℚ} (hq : |q| ≤ 2 ^ 60) (hn : |(n : ℚ) - q| ≤ 2) :
    saturate n = n := by
  rw [abs_le] at hq hn
  have hlow : (leastNumber : ℚ) ≤ n := by
    norm_num [leastNumber]
    linarith
  have hhigh : (n : ℚ) ≤ greatestNumber := by
    norm_num [greatestNumber]
    linarith
  exact saturate_eq (by exact_mod_cast hlow) (by exact_mod_cast hhigh)

/-- A number without its fraction. -/
def wholePart (q : ℚ) : ℤ :=
  if 0 ≤ q then ⌊q⌋ else ⌈q⌉

theorem tdiv_eq_wholePart (q : ℚ) : q.num.tdiv q.den = wholePart q := by
  rw [wholePart]
  split <;> rename_i hsign
  · rw [Rat.floor_def', Int.tdiv_eq_ediv_of_nonneg (Rat.num_nonneg.mpr hsign)]
  · rw [Rat.ceil_def', ← Int.tdiv_eq_ediv_of_nonneg, Int.neg_tdiv, neg_neg]
    rw [neg_nonneg]
    exact (Rat.num_neg.mpr (not_le.mp hsign)).le

/-- What is cut off has the sign of the number and is less than one. -/
theorem wholePart_spec (q : ℚ) :
    (0 ≤ q ∧ wholePart q ≤ q ∧ q < wholePart q + 1) ∨
    (q < 0 ∧ wholePart q - 1 < q ∧ q ≤ wholePart q) := by
  rw [wholePart]
  split <;> rename_i hsign
  · exact .inl ⟨hsign, Int.floor_le q, Int.lt_floor_add_one q⟩
  · refine .inr ⟨not_le.mp hsign, ?_, Int.le_ceil q⟩
    linarith [Int.ceil_lt_add_one q]

theorem abs_sub_wholePart_lt (b : ℚ) : |b - wholePart b| < 1 := by
  rw [abs_lt]
  rcases wholePart_spec b with ⟨-, hle, hlt⟩ | ⟨-, hlt, hle⟩ <;> constructor <;> linarith

@[simp] theorem wholePart_intCast (k : ℤ) : wholePart k = k := by
  simp [wholePart]

theorem floor_finite {q : ℚ} (hq : |q| ≤ 2 ^ 60) : (finite q).floor = ⌊q⌋ := by
  change saturate ⌊q⌋ = ⌊q⌋
  refine saturate_eq_of_near hq (abs_le.mpr ⟨?_, ?_⟩)
  · linarith [Int.lt_floor_add_one q]
  · linarith [Int.floor_le q]

theorem truncate_finite {q : ℚ} (hq : |q| ≤ 2 ^ 60) : (finite q).truncate = wholePart q := by
  rw [truncate, toNumber, tdiv_eq_wholePart]
  refine saturate_eq_of_near hq ?_
  rw [abs_sub_comm]
  exact (abs_sub_wholePart_lt q).le.trans one_le_two

end Binary64

end SequentSearch
