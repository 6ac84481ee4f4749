import SequentSearch.Proofs.ComputedLines

/-!
# Affine maps through two points

`Feature.throughPoints` is asked for given costs at two points. It has them wherever it tests for a
cost or is constant, and also where it shifts costs (`samples_of_test`, `samples_shift`). The line
through two points with finite coordinates is another matter: its offset is the **intercept without
its fraction**, while products are rounded to the nearest integer. If more than a half is cut off,
both points are missed by one, in the same direction (`Feature.miss`).

Coefficient and offset are also computed with an error of their own. It decides nothing if the
denominator of the slope is a power of two, or if the intercept is far enough from where rounding
changes over (`Feature.Robust`); in the other cases the two costs are still at most one away
(`exists_samples`).
-/

namespace SequentSearch

namespace Feature

open Binary64

variable {f : Feature} {d₀ d₁ i₀ i₁ : ℤ}

/-! ## What is missed

The cost at a point is the sum of a rounded product and the offset. With the intercept `b`, the
product is `1 / 2 - b` beyond the image; if `a` is computed for that, and `b'` for the intercept,
then the image is missed by `⌊a⌋ + wholePart b'`. -/

/-- By how much a line with the intercept `b` misses its points: by one if more than a half is cut
off, or just a half of a negative intercept. -/
def miss (b : ℚ) : ℤ :=
  if b - wholePart b ≤ -(1 / 2) then 1 else if b - wholePart b ≤ 1 / 2 then 0 else -1

theorem floor_add_wholePart (b : ℚ) : ⌊1 / 2 - b⌋ + wholePart b = miss b := by
  have hlt := abs_lt.mp (abs_sub_wholePart_lt b)
  suffices ⌊1 / 2 - b⌋ = miss b - wholePart b by omega
  rw [Int.floor_eq_iff, miss]
  push_cast
  split_ifs <;> constructor <;> linarith

@[simp] theorem miss_intCast (k : ℤ) : miss k = 0 := by
  norm_num [miss]

section Errors

variable {a b b' e e' : ℚ}

/-- Errors of an eighth do not make more than one out of it. -/
theorem abs_floor_add_wholePart_le (hb : |b' - b| ≤ 1 / 8) (ha : |a - (1 / 2 - b)| ≤ 1 / 8) :
    |⌊a⌋ + wholePart b'| ≤ 1 := by
  have hcut := abs_lt.mp (abs_sub_wholePart_lt b')
  rw [abs_le] at hb ha
  have hlow : (-2 : ℚ) < (⌊a⌋ + wholePart b' : ℤ) := by
    push_cast
    linarith [Int.lt_floor_add_one a]
  have hhigh : ((⌊a⌋ + wholePart b' : ℤ) : ℚ) < 2 := by
    push_cast
    linarith [Int.floor_le a]
  have hlow' : -2 < ⌊a⌋ + wholePart b' := by exact_mod_cast hlow
  have hhigh' : ⌊a⌋ + wholePart b' < 2 := by exact_mod_cast hhigh
  rw [abs_le]
  omega

/-- If the intercept is an integer, and the offset is that integer, nothing is missed. -/
theorem floor_add_intCast {k : ℤ} (ha : |a - (1 / 2 - k)| ≤ 1 / 8) : ⌊a⌋ + k = 0 := by
  rw [abs_le] at ha
  suffices ⌊a⌋ = -k by omega
  rw [Int.floor_eq_iff]
  push_cast
  constructor <;> linarith

theorem floor_eq_of_far {x y : ℚ} (h : |y - x| ≤ e) (hfar : ∀ k : ℤ, e < |x - k|) : ⌊y⌋ = ⌊x⌋ := by
  rw [abs_le] at h
  have hbelow := hfar ⌊x⌋
  have habove := hfar (⌊x⌋ + 1)
  rw [abs_of_nonneg (sub_nonneg.mpr (Int.floor_le x))] at hbelow
  rw [abs_sub_comm, Int.cast_add, Int.cast_one,
    abs_of_pos (sub_pos.mpr (Int.lt_floor_add_one x))] at habove
  rw [Int.floor_eq_iff]
  constructor <;> linarith

theorem wholePart_eq_of_far (h : |b' - b| ≤ e) (hfar : ∀ k : ℤ, e < |b - k|) :
    wholePart b' = wholePart b := by
  have hzero := hfar 0
  rw [Int.cast_zero, sub_zero] at hzero
  have hbounds := abs_le.mp h
  rcases le_or_gt 0 b with hb | hb
  · rw [abs_of_nonneg hb] at hzero
    rw [wholePart, wholePart, if_pos (by linarith), if_pos hb]
    exact floor_eq_of_far h hfar
  · rw [abs_of_neg hb] at hzero
    rw [wholePart, wholePart, if_neg (by linarith), if_neg (by linarith), ← neg_inj,
      ← Int.floor_neg, ← Int.floor_neg]
    have hneg : |-b' - -b| ≤ e := by rwa [neg_sub_neg, abs_sub_comm]
    refine floor_eq_of_far hneg fun k => ?_
    have := hfar (-k)
    rwa [Int.cast_neg, sub_neg_eq_add, ← abs_neg, neg_add'] at this

/-- Errors of `e` in the intercept and of `e'` in the product do not change what is missed. -/
def Settled (b e e' : ℚ) : Prop :=
  ∀ a b', |b' - b| ≤ e → |a - (1 / 2 - b)| ≤ e' → ⌊a⌋ + wholePart b' = miss b

theorem settled_exact (b : ℚ) : Settled b 0 0 := by
  intro a b' hb ha
  rw [abs_nonpos_iff, sub_eq_zero] at hb ha
  rw [hb, ha, floor_add_wholePart]

/-- An exact integer has no fraction, and the product is far from where rounding changes over. -/
theorem settled_intCast (k : ℤ) : Settled k 0 (1 / 8) := by
  intro a b' hb ha
  rw [abs_nonpos_iff, sub_eq_zero] at hb
  rw [hb, wholePart_intCast, miss_intCast]
  exact floor_add_intCast ha

theorem settled_zero : Settled 0 (1 / 8) (1 / 8) := by
  intro a b' hb ha
  have hwhole : wholePart b' = 0 := by
    rw [sub_zero, abs_le] at hb
    rw [wholePart]
    split
    · exact Int.floor_eq_zero_iff.mpr ⟨by assumption, by linarith⟩
    · exact Int.ceil_eq_zero_iff.mpr ⟨by linarith, by linarith⟩
  have hfloor : ⌊a⌋ + 0 = 0 := floor_add_intCast (by rwa [Int.cast_zero])
  have hmiss : miss 0 = 0 := by exact_mod_cast miss_intCast 0
  rw [hwhole, hfloor, hmiss]

/-- Rounding changes over at the multiples of a half. -/
theorem settled_of_far (hfar : ∀ k : ℤ, e < |b - k / 2|) : Settled b e e := by
  intro a b' hb ha
  have hfloor : ⌊a⌋ = ⌊1 / 2 - b⌋ := by
    refine floor_eq_of_far ha fun k => ?_
    have := hfar (1 - 2 * k)
    rw [abs_sub_comm] at this
    convert this using 2
    push_cast
    ring
  have hwhole : wholePart b' = wholePart b := by
    refine wholePart_eq_of_far hb fun k => ?_
    have := hfar (2 * k)
    convert this using 3
    push_cast
    ring
  rw [hfloor, hwhole, floor_add_wholePart]

end Errors

/-- The lines on which the errors of the computation decide nothing: those that start at zero or go
through it, those with a power of two as denominator of the slope, and among the ones with smaller
coordinates those whose intercept is no multiple of a half. -/
def Robust (d₀ d₁ i₀ i₁ : ℤ) : Prop :=
  d₀ = 0 ∨ intercept d₀ d₁ i₀ i₁ = 0 ∨ (∃ n, (slope d₀ d₁ i₀ i₁).den = 2 ^ n) ∨
    ((∀ x ∈ [d₀, d₁, i₀, i₁], |x| ≤ 2 ^ 15) ∧ ∀ k : ℤ, 2 * intercept d₀ d₁ i₀ i₁ ≠ k)

/-! ## Samples -/

/-- The map through two points is there, and its costs at the points are `cost₀` and `cost₁`. -/
def Samples (f : Feature) (dom₀ dom₁ img₀ img₁ cost₀ cost₁ : Cost) : Prop :=
  ∃ g, f.throughPoints dom₀ dom₁ img₀ img₁ = .ok g ∧
    (∀ ctx app, f ctx app = dom₀ → g ctx app = cost₀) ∧
    ∀ ctx app, f ctx app = dom₁ → g ctx app = cost₁

theorem one_le_abs_mul_of_eq_intCast {q r : ℚ} {z : ℤ} (h : q * r = z) (hq : q ≠ 0) (hr : r ≠ 0) :
    1 ≤ |q| * |r| := by
  have hz : z ≠ 0 := by
    rintro rfl
    exact mul_ne_zero hq hr (h.trans Int.cast_zero)
  rw [← abs_mul, h]
  exact_mod_cast Int.one_le_abs hz

section Lines

variable (hd : d₀ ≠ d₁) (hsmall : ∀ x ∈ [d₀, d₁, i₀, i₁], |x| ≤ 2 ^ 23)
include hd hsmall

theorem abs_intercept_le : |intercept d₀ d₁ i₀ i₁| ≤ 2 ^ 48 := by
  have hcast := cast_coordinate_le hsmall
  have hle := abs_slope_mul_le hcast hd (x := d₀) (by simp)
  have hi := hcast i₀ (by simp)
  calc |intercept d₀ d₁ i₀ i₁|
    _ ≤ |(i₀ : ℚ)| + |slope d₀ d₁ i₀ i₁ * d₀| := abs_sub _ _
    _ ≤ 2 ^ 48 := by
      rw [abs_mul]
      linarith

/-- At a point the cost is put together as the offset and the product are. -/
theorem throughNumbers_sample {r b' : ℚ} {x i : ℤ} (hstart : start d₀ d₁ i₀ i₁ = finite b')
    (hb : |b' - intercept d₀ d₁ i₀ i₁| ≤ 1 / 8) (hproduct : product d₀ d₁ i₀ i₁ x = finite r)
    (hr : |r - (i - intercept d₀ d₁ i₀ i₁ + 1 / 2)| ≤ 1 / 8) (hi : |i| ≤ 2 ^ 23)
    {ctx : FeatureContext} {app : RuleApp} (happ : f ctx app = .number x) :
    f.throughNumbers d₀ d₁ i₀ i₁ ctx app = .number (i + (⌊r - i⌋ + wholePart b')) := by
  have hle := abs_le.mp (abs_intercept_le hd hsmall)
  have hi' : |(i : ℚ)| ≤ 2 ^ 23 := by exact_mod_cast hi
  rw [abs_le] at hb hr hi'
  have hb' : |b'| ≤ 2 ^ 60 := abs_le.mpr (by constructor <;> linarith)
  have hr' : |r| ≤ 2 ^ 60 := abs_le.mpr (by constructor <;> linarith)
  have hsum : saturate (⌊r⌋ + wholePart b') = ⌊r⌋ + wholePart b' := by
    have hcut := abs_lt.mp (abs_sub_wholePart_lt b')
    refine saturate_eq_of_near (q := r + b') (abs_le.mpr ?_) (abs_le.mpr ?_)
    · constructor <;> linarith
    · push_cast
      constructor <;> linarith [Int.floor_le r, Int.lt_floor_add_one r]
  rw [throughNumbers_number happ, hstart, hproduct, floor_finite hr', truncate_finite hb', hsum,
    Int.floor_sub_intCast]
  congr 1
  omega

/-- **The costs at the points of a line**, from the errors that it is drawn with. -/
theorem samples_of_drawn {e e' : ℚ} (hi : i₀ ≠ i₁) (h : Drawn d₀ d₁ i₀ i₁ e e') (he : e ≤ 1 / 8)
    (he' : e' ≤ 1 / 8) :
    ∃ δ₀ δ₁ : ℤ, f.Samples (.number d₀) (.number d₁) (.number i₀) (.number i₁) (.number (i₀ + δ₀))
        (.number (i₁ + δ₁)) ∧ |δ₀| ≤ 1 ∧ |δ₁| ≤ 1 ∧
      (Settled (intercept d₀ d₁ i₀ i₁) e e' → δ₀ = miss (intercept d₀ d₁ i₀ i₁) ∧
        δ₁ = miss (intercept d₀ d₁ i₀ i₁)) := by
  obtain ⟨⟨b', hstart, hb⟩, ⟨r₀, hfst, hr₀⟩, ⟨r₁, hsnd, hr₁⟩⟩ := h
  have ha₀ : |r₀ - i₀ - (1 / 2 - intercept d₀ d₁ i₀ i₁)| ≤ e' := by
    convert hr₀ using 2
    ring
  have ha₁ : |r₁ - i₁ - (1 / 2 - intercept d₀ d₁ i₀ i₁)| ≤ e' := by
    convert hr₁ using 2
    ring
  refine ⟨⌊r₀ - i₀⌋ + wholePart b', ⌊r₁ - i₁⌋ + wholePart b',
    ⟨f.throughNumbers d₀ d₁ i₀ i₁, ?_, ?_, ?_⟩,
    abs_floor_add_wholePart_le (hb.trans he) (ha₀.trans he'),
    abs_floor_add_wholePart_le (hb.trans he) (ha₁.trans he'), fun hk =>
      ⟨hk _ _ hb ha₀, hk _ _ hb ha₁⟩⟩
  · simp [throughPoints, hd, hi]
  · intro ctx app happ
    exact throughNumbers_sample hd hsmall hstart (hb.trans he) hfst (hr₀.trans he')
      (hsmall i₀ (by simp)) happ
  · intro ctx app happ
    exact throughNumbers_sample hd hsmall hstart (hb.trans he) hsnd (hr₁.trans he')
      (hsmall i₁ (by simp)) happ

omit hsmall in
/-- An intercept that is no multiple of a half is far from all of them, because its denominator
divides the distance of the points. -/
theorem far_of_two_mul_ne (hle : ∀ x ∈ [d₀, d₁, i₀, i₁], |x| ≤ 2 ^ 15)
    (hne : ∀ k : ℤ, 2 * intercept d₀ d₁ i₀ i₁ ≠ k) (k : ℤ) :
    1 / 2 ^ 17 ≤ |intercept d₀ d₁ i₀ i₁ - k / 2| := by
  have hB : ∀ x ∈ [d₀, d₁, i₀, i₁], |(x : ℚ)| ≤ 2 ^ 15 := fun x hx => by exact_mod_cast hle x hx
  have hrun := abs_sub_le_two_mul hB (x := d₁) (y := d₀) (by simp) (by simp)
  have hrun' : (d₁ : ℚ) - d₀ ≠ 0 := sub_ne_zero.mpr (by exact_mod_cast hd.symm)
  have hint : 2 * (intercept d₀ d₁ i₀ i₁ - k / 2) * (d₁ - d₀) =
      (2 * (i₀ * (d₁ - d₀) - (i₁ - i₀) * d₀) - k * (d₁ - d₀) : ℤ) := by
    rw [intercept, slope]
    push_cast
    field_simp
  have hdiff : 2 * (intercept d₀ d₁ i₀ i₁ - k / 2) ≠ 0 := by
    intro hzero
    exact hne k (by linarith)
  have hone := one_le_abs_mul_of_eq_intCast hint hdiff hrun'
  rw [abs_mul, abs_two] at hone
  have hpos := abs_nonneg (intercept d₀ d₁ i₀ i₁ - k / 2)
  nlinarith

theorem exists_drawn_of_robust (h : Robust d₀ d₁ i₀ i₁) :
    ∃ e e', Drawn d₀ d₁ i₀ i₁ e e' ∧ e ≤ 1 / 8 ∧ e' ≤ 1 / 8 ∧
      Settled (intercept d₀ d₁ i₀ i₁) e e' := by
  have heighth := drawn_eighth hd hsmall
  rcases h with hzero | hzero | ⟨n, hden⟩ | ⟨hle, hne⟩
  · refine ⟨0, 1 / 8, ⟨start_of_zero hd hsmall hzero, heighth.fst,
      heighth.snd⟩, by norm_num, le_rfl, ?_⟩
    rw [show intercept d₀ d₁ i₀ i₁ = i₀ by simp [intercept, hzero]]
    exact settled_intCast i₀
  · refine ⟨1 / 8, 1 / 8, heighth, le_rfl, le_rfl, ?_⟩
    rw [hzero]
    exact settled_zero
  · exact ⟨0, 0, drawn_of_dyadic hd hsmall hden, by norm_num, by norm_num, settled_exact _⟩
  · have hdrawn := drawn_of_le hd hsmall (B := 2 ^ 15)
        (fun x hx => by exact_mod_cast hle x hx) (by norm_num)
      (by norm_num)
    refine ⟨_, _, hdrawn, by norm_num, by norm_num, settled_of_far fun k => ?_⟩
    exact lt_of_lt_of_le (by norm_num) (far_of_two_mul_ne hd hle hne k)

/-- **The samples of a line** are at most one away from the images, and by as much as the intercept
says. -/
theorem exists_samples :
    ∃ δ₀ δ₁ : ℤ, f.Samples (.number d₀) (.number d₁) (.number i₀) (.number i₁) (.number (i₀ + δ₀))
        (.number (i₁ + δ₁)) ∧ |δ₀| ≤ 1 ∧ |δ₁| ≤ 1 ∧
      (Robust d₀ d₁ i₀ i₁ → δ₀ = miss (intercept d₀ d₁ i₀ i₁) ∧
        δ₁ = miss (intercept d₀ d₁ i₀ i₁)) := by
  rcases eq_or_ne i₀ i₁ with rfl | hi
  · have hintercept : intercept d₀ d₁ i₀ i₀ = i₀ := by simp [intercept, slope]
    refine ⟨0, 0, ⟨const (.number i₀), ?_, ?_, ?_⟩, by norm_num, by norm_num, fun _ => ?_⟩
    · simp [throughPoints, hd]
    · simp [const]
    · simp [const]
    · rw [hintercept, miss_intCast]
      exact ⟨rfl, rfl⟩
  by_cases h : Robust d₀ d₁ i₀ i₁
  · obtain ⟨e, e', hdrawn, he, he', hsettled⟩ := exists_drawn_of_robust hd hsmall h
    obtain ⟨δ₀, δ₁, hsamples, h₀, h₁, hmiss⟩ := samples_of_drawn hd hsmall hi hdrawn he he'
    exact ⟨δ₀, δ₁, hsamples, h₀, h₁, fun _ => hmiss hsettled⟩
  · obtain ⟨δ₀, δ₁, hsamples, h₀, h₁, -⟩ :=
      samples_of_drawn hd hsmall hi (drawn_eighth hd hsmall) le_rfl le_rfl
    exact ⟨δ₀, δ₁, hsamples, h₀, h₁, fun hrobust => absurd hrobust h⟩

end Lines

/-! ### Tests and shifts -/

section Tests

variable {dom₀ dom₁ img₀ img₁ : Cost} (hd : dom₀ ≠ dom₁)
include hd

theorem samples_of_condConst_fst
    (h : f.throughPoints dom₀ dom₁ img₀ img₁ = .ok (f.condConst dom₀ img₀ img₁)) :
    f.Samples dom₀ dom₁ img₀ img₁ img₀ img₁ := by
  refine ⟨_, h, ?_, ?_⟩ <;> intro ctx app happ <;> simp [condConst, cond, const, happ, hd.symm]

theorem samples_of_condConst_snd
    (h : f.throughPoints dom₀ dom₁ img₀ img₁ = .ok (f.condConst dom₁ img₁ img₀)) :
    f.Samples dom₀ dom₁ img₀ img₁ img₀ img₁ := by
  refine ⟨_, h, ?_, ?_⟩ <;> intro ctx app happ <;> simp [condConst, cond, const, happ, hd]

/-- Where the images are equal, or `top` is among the coordinates and does not go to `top`, the
samples are the images. -/
theorem samples_of_test
    (h : img₀ = img₁ ∨ .top ∈ [dom₀, dom₁, img₀, img₁] ∧ ¬(dom₀ = .top ∧ img₀ = .top) ∧
      ¬(dom₁ = .top ∧ img₁ = .top)) : f.Samples dom₀ dom₁ img₀ img₁ img₀ img₁ := by
  by_cases hi : img₀ = img₁
  · exact ⟨const img₀, by simp [throughPoints, hd, hi], by simp [const], by simp [const, hi]⟩
  obtain ⟨htop, hfst, hsnd⟩ := h.resolve_left hi
  cases dom₀ with
  | top =>
    cases dom₁ with
    | top => exact absurd rfl hd
    | number d₁ =>
      cases img₀ with
      | top => exact absurd ⟨rfl, rfl⟩ hfst
      | number i₀ => exact samples_of_condConst_fst hd (by simp [throughPoints, throughTop, hi])
  | number d₀ =>
    cases dom₁ with
    | top =>
      cases img₁ with
      | top => exact absurd ⟨rfl, rfl⟩ hsnd
      | number i₁ => exact samples_of_condConst_snd hd (by simp [throughPoints, throughTop, hi])
    | number d₁ =>
      cases img₀ with
      | top => exact samples_of_condConst_snd hd (by simp [throughPoints, hd, hi])
      | number i₀ =>
        cases img₁ with
        | top => exact samples_of_condConst_fst hd (by simp [throughPoints, hd])
        | number i₁ => simp at htop

end Tests

section Shifts

variable {d : ℤ} (hd : |d| < 2 ^ 52)
include hd

theorem affineCost_one_number (n : ℤ) :
    affineCost (.ofInt 1) n (.number d) = .number (saturate (d + n)) := by
  have hd' := abs_lt.mp hd
  have hsum : ((Binary64.ofInt 1).mul (.ofInt d)).add (.round (mkRat 1 2)) =
      finite (d + 1 / 2) := by
    rw [ofInt_eq_finite (by norm_num), ofInt_eq_finite (by omega), round_half, mul,
      Int.cast_one, one_mul, ← ofInt, ofInt_eq_finite (by omega)]
    refine round_eq_finite (m := 2 * d + 1) (j := 1) ?_ (abs_lt.mpr (by omega)) (by norm_num)
    push_cast
    ring
  have hfloor : ⌊(d : ℚ) + 1 / 2⌋ = d := by
    rw [Int.floor_intCast_add]
    norm_num
  have hle : |(d : ℚ) + 1 / 2| ≤ 2 ^ 60 := by
    have hcast : |(d : ℚ)| < 2 ^ 52 := by exact_mod_cast hd
    rw [abs_lt] at hcast
    exact abs_le.mpr (by constructor <;> linarith)
  rw [affineCost, hsum, floor_finite hle, hfloor]

/-- A shift has its samples as long as the number and a half is exact. -/
theorem samples_shift {i : ℤ} (hi : inRange i) (hshift : inRange (i - d)) :
    f.Samples .top (.number d) .top (.number i) .top (.number i) ∧
      f.Samples (.number d) .top (.number i) .top (.number i) .top := by
  have htop : ∀ ctx app, f ctx app = .top → f.affine (.ofInt 1) (i - d) ctx app = .top := by
    intro ctx app happ
    have hone : (Binary64.ofInt 1).isWithin threshold = false := by decide +kernel
    rw [affine, happ, affineCost, hone]
    rfl
  have hnumber : ∀ ctx app, f ctx app = .number d →
      f.affine (.ofInt 1) (i - d) ctx app = .number i := by
    intro ctx app happ
    rw [affine, happ, affineCost_one_number hd, add_sub_cancel, saturate_eq_of_inRange hi]
  refine ⟨⟨_, ?_, htop, hnumber⟩, ⟨_, ?_, hnumber, htop⟩⟩ <;>
    simp only [throughPoints, throughTop, reduceCtorEq, if_false, hshift, if_true]

end Shifts

/-- There is no shift by a difference that is out of the range. -/
theorem throughPoints_eq_overflow {d i : ℤ} (h : inRange (i - d) = false) :
    f.throughPoints .top (.number d) .top (.number i) = .error .overflow ∧
      f.throughPoints (.number d) .top (.number i) .top = .error .overflow := by
  constructor <;>
    simp only [throughPoints, throughTop, reduceCtorEq, if_false, h, Bool.false_eq_true]

/-! ### The map through two points -/

/-- **The samples of the map through two points**: they are the images if the map is constant, a
test or a shift, and those of a line are off by what is missed, at most by one. There is a shift
unless the difference overflows. -/
theorem throughPoints_samples (f : Feature) :
    (∀ dom₀ dom₁ img₀ img₁ : Cost, dom₀ ≠ dom₁ →
      (img₀ = img₁ ∨ .top ∈ [dom₀, dom₁, img₀, img₁] ∧ ¬(dom₀ = .top ∧ img₀ = .top) ∧
        ¬(dom₁ = .top ∧ img₁ = .top)) → f.Samples dom₀ dom₁ img₀ img₁ img₀ img₁) ∧
    (∀ d i : ℤ, |d| < 2 ^ 52 → inRange i → inRange (i - d) →
      f.Samples .top (.number d) .top (.number i) .top (.number i) ∧
        f.Samples (.number d) .top (.number i) .top (.number i) .top) ∧
    (∀ d i : ℤ, inRange (i - d) = false →
      f.throughPoints .top (.number d) .top (.number i) = .error .overflow ∧
        f.throughPoints (.number d) .top (.number i) .top = .error .overflow) ∧
    ∀ d₀ d₁ i₀ i₁ : ℤ, d₀ ≠ d₁ → (∀ x ∈ [d₀, d₁, i₀, i₁], |x| ≤ 2 ^ 23) →
      ∃ δ₀ δ₁ : ℤ, f.Samples (.number d₀) (.number d₁) (.number i₀) (.number i₁) (.number (i₀ + δ₀))
          (.number (i₁ + δ₁)) ∧ |δ₀| ≤ 1 ∧ |δ₁| ≤ 1 ∧
        (Robust d₀ d₁ i₀ i₁ → δ₀ = miss (intercept d₀ d₁ i₀ i₁) ∧
          δ₁ = miss (intercept d₀ d₁ i₀ i₁)) := by
  refine ⟨?_, ?_, ?_, ?_⟩
  · intro dom₀ dom₁ img₀ img₁ hd h
    exact samples_of_test hd h
  · intro d i hd hi hshift
    exact samples_shift hd hi hshift
  · intro d i hshift
    exact throughPoints_eq_overflow hshift
  · intro d₀ d₁ i₀ i₁ hd hsmall
    exact exists_samples hd hsmall

theorem throughPoints_samples_branchLength :
    branchLength.Samples (.number 0) (.number 1) .top (.number 9) .top (.number 9) ∧
    branchLength.Samples .top (.number 2) .top (.number 5) .top (.number 5) ∧
    branchLength.Samples (.number 1) (.number 3) (.number 0) (.number 1) (.number 1)
      (.number 2) := by
  obtain ⟨htest, hshift, -, hline⟩ := throughPoints_samples branchLength
  obtain ⟨δ₀, δ₁, hsamples, -, -, hmiss⟩ := hline 1 3 0 1 (by decide) (by decide)
  obtain ⟨rfl, rfl⟩ := hmiss (.inr (.inr (.inl ⟨1, by decide +kernel⟩)))
  refine ⟨htest _ _ _ _ (by decide) (.inr (by decide)),
    (hshift 2 5 (by decide) (by decide) (by decide)).1, ?_⟩
  have hone : miss (intercept 1 3 0 1) = 1 := by decide +kernel
  rw [hone] at hsamples
  exact hsamples

/-- A line with the intercept minus a half misses its points: the cost `1` is to become `0`, and
stays. -/
theorem exists_sample_missed :
    ∃ g, (const (.number 1)).throughPoints (.number 1) (.number 3) (.number 0) (.number 1) = .ok g ∧
      ∀ ctx app, g ctx app = .number 1 := by
  refine ⟨(const (.number 1)).throughNumbers 1 3 0 1, rfl, fun ctx app => ?_⟩
  have hcost : affineCost (coeff 1 3 0 1) (start 1 3 0 1).truncate (.number 1) = .number 1 := by
    decide +kernel
  exact hcost

end Feature

end SequentSearch
