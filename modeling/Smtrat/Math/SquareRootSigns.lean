import Smtrat.Math.Instances

/-!
# Signs of square root expressions

The sign of `(q + r * √d) / s` is told by the signs of `q`, `r` and `s` and by that of the difference
`q ^ 2 - r ^ 2 * d`.
-/

namespace SquareRootSigns

section Root

variable {q r d : ℝ} (hd : 0 ≤ d)

include hd

/-- The difference of the squares is a product with the conjugate. -/
theorem difference_eq : q ^ 2 - r ^ 2 * d = (q + r * √d) * (q - r * √d) := by
  have hsq : √d * √d = d := Real.mul_self_sqrt hd
  linear_combination r ^ 2 * hsq

theorem eq_zero_iff : q + r * √d = 0 ↔ q * r ≤ 0 ∧ q ^ 2 - r ^ 2 * d = 0 := by
  have hw := Real.sqrt_nonneg d
  rw [difference_eq hd, mul_eq_zero]
  constructor
  · intro h
    have hq : q = -(r * √d) := by linarith
    refine ⟨?_, .inl h⟩
    rw [hq]
    nlinarith [mul_nonneg (sq_nonneg r) hw]
  · rintro ⟨hqr, h | h⟩
    · exact h
    · have hq : q = r * √d := by linarith
      rw [hq] at hqr ⊢
      -- The product is nonnegative as well, so that it vanishes.
      have hzero : r ^ 2 * √d = 0 :=
        le_antisymm (by linarith [hqr]) (mul_nonneg (sq_nonneg r) hw)
      rcases mul_eq_zero.mp hzero with hr | hr
      · rw [pow_eq_zero_iff two_ne_zero] at hr
        simp [hr]
      · simp [hr]

theorem neg_iff : q + r * √d < 0 ↔ q < 0 ∧ 0 < q ^ 2 - r ^ 2 * d ∨ r ≤ 0 ∧ q < 0 ∨
    r ≤ 0 ∧ q ^ 2 - r ^ 2 * d < 0 := by
  have hw := Real.sqrt_nonneg d
  rw [difference_eq hd]
  rcases le_or_gt r 0 with hr | hr
  · have hrw : r * √d ≤ 0 := mul_nonpos_of_nonpos_of_nonneg hr hw
    constructor
    · intro h
      rcases lt_or_ge q 0 with hq | hq
      · exact .inr (.inl ⟨hr, hq⟩)
      · exact .inr (.inr ⟨hr, mul_neg_of_neg_of_pos h (by linarith)⟩)
    · rintro (⟨hq, -⟩ | ⟨-, hq⟩ | ⟨-, h⟩)
      · linarith
      · linarith
      · rcases mul_neg_iff.mp h with ⟨-, h⟩ | ⟨h, -⟩
        · linarith
        · exact h
  · have hrw : 0 ≤ r * √d := mul_nonneg hr.le hw
    constructor
    · intro h
      exact .inl ⟨by linarith, mul_pos_of_neg_of_neg h (by linarith)⟩
    · rintro (⟨hq, h⟩ | ⟨h, -⟩ | ⟨h, -⟩)
      · rcases pos_and_pos_or_neg_and_neg_of_mul_pos h with ⟨-, h⟩ | ⟨h, -⟩
        · linarith
        · exact h
      · exact absurd h (not_le.mpr hr)
      · exact absurd h (not_le.mpr hr)

theorem nonpos_iff : q + r * √d ≤ 0 ↔ q ≤ 0 ∧ 0 ≤ q ^ 2 - r ^ 2 * d ∨
    r ≤ 0 ∧ q ^ 2 - r ^ 2 * d ≤ 0 := by
  have hw := Real.sqrt_nonneg d
  rw [difference_eq hd]
  rcases le_or_gt r 0 with hr | hr
  · have hrw : r * √d ≤ 0 := mul_nonpos_of_nonpos_of_nonneg hr hw
    constructor
    · intro h
      rcases le_or_gt (q - r * √d) 0 with hq | hq
      · exact .inl ⟨by linarith, mul_nonneg_of_nonpos_of_nonpos h hq⟩
      · exact .inr ⟨hr, mul_nonpos_of_nonpos_of_nonneg h hq.le⟩
    · rintro (⟨hq, -⟩ | ⟨-, h⟩)
      · linarith
      · by_contra! hpos
        nlinarith [hpos, h]
  · have hrw : 0 ≤ r * √d := mul_nonneg hr.le hw
    constructor
    · intro h
      exact .inl ⟨by linarith, mul_nonneg_of_nonpos_of_nonpos h (by linarith)⟩
    · rintro (⟨hq, h⟩ | ⟨h, -⟩)
      · by_contra! hpos
        nlinarith [hpos, h]
      · exact absurd h (not_le.mpr hr)

theorem ne_zero_iff_cases : q + r * √d ≠ 0 ↔ 0 < q ∧ 0 < r ∨ q < 0 ∧ r < 0 ∨
    q ^ 2 - r ^ 2 * d ≠ 0 := by
  rw [ne_eq, eq_zero_iff hd, not_and_or, not_le, mul_pos_iff, or_assoc]

theorem eq_zero_iff_cases : q + r * √d = 0 ↔ q = 0 ∧ r = 0 ∨ q = 0 ∧ d = 0 ∨
    q < 0 ∧ 0 < r ∧ q ^ 2 - r ^ 2 * d = 0 ∨ 0 < q ∧ r < 0 ∧ q ^ 2 - r ^ 2 * d = 0 := by
  rw [eq_zero_iff hd]
  rcases lt_trichotomy q 0 with hq | rfl | hq
  · rcases lt_trichotomy r 0 with hr | rfl | hr
    · simp [hq.ne, hq.not_gt, hr.not_gt, mul_pos_of_neg_of_neg hq hr]
    · simp [hq.ne]
    · simp [hq, hq.ne, hr, hq.not_gt, (mul_neg_of_neg_of_pos hq hr).le]
  · simp [or_comm]
  · rcases lt_trichotomy r 0 with hr | rfl | hr
    · simp [hq, hq.ne', hr, hq.not_gt, (mul_neg_of_pos_of_neg hq hr).le]
    · simp [hq.ne']
    · simp [hq.ne', hq.not_gt, hr.not_gt, mul_pos hq hr]

/-- Where one of the parts may vanish, the other one has to vanish or the root does. -/
theorem weak_cases : 0 ≤ q ∧ 0 ≤ q ^ 2 - r ^ 2 * d ∨ 0 ≤ r ∧ q ^ 2 - r ^ 2 * d ≤ 0 ↔
    0 < q ∧ 0 ≤ q ^ 2 - r ^ 2 * d ∨ 0 < r ∧ q ^ 2 - r ^ 2 * d ≤ 0 ∨ r = 0 ∧ q = 0 ∨
      d = 0 ∧ q = 0 := by
  constructor
  · rintro (⟨hq, h⟩ | ⟨hr, h⟩)
    · rcases hq.eq_or_lt with rfl | hq
      · have hprod : r ^ 2 * d = 0 :=
          le_antisymm (by linarith) (mul_nonneg (sq_nonneg r) hd)
        rcases mul_eq_zero.mp hprod with hr | hd
        · exact .inr (.inr (.inl ⟨pow_eq_zero_iff two_ne_zero |>.mp hr, rfl⟩))
        · exact .inr (.inr (.inr ⟨hd, rfl⟩))
      · exact .inl ⟨hq, h⟩
    · rcases hr.eq_or_lt with rfl | hr
      · have hq : q ^ 2 = 0 := le_antisymm (by linarith) (sq_nonneg q)
        exact .inr (.inr (.inl ⟨rfl, pow_eq_zero_iff two_ne_zero |>.mp hq⟩))
      · exact .inr (.inl ⟨hr, h⟩)
  · rintro (⟨hq, h⟩ | ⟨hr, h⟩ | ⟨rfl, rfl⟩ | ⟨rfl, rfl⟩)
    · exact .inl ⟨hq.le, h⟩
    · exact .inr ⟨hr.le, h⟩
    · simp
    · simp

end Root

/-! ## Fractions -/

section Fraction

variable {q r d s : ℝ}

theorem mul_neg_iff_left {a b : ℝ} (hb : 0 < b) : a * b < 0 ↔ a < 0 := by
  rw [← neg_pos, ← neg_mul, mul_pos_iff_of_pos_right hb, neg_pos]

theorem mul_nonpos_iff_left {a b : ℝ} (hb : 0 < b) : a * b ≤ 0 ↔ a ≤ 0 := by
  rw [← neg_nonneg, ← neg_mul, mul_nonneg_iff_of_pos_right hb, neg_nonneg]

theorem mul_neg_iff_of_neg {a b : ℝ} (hb : b < 0) : a * b < 0 ↔ 0 < a := by
  rw [← neg_pos, ← mul_neg, mul_pos_iff_of_pos_right (neg_pos.mpr hb)]

theorem mul_nonpos_iff_of_neg {a b : ℝ} (hb : b < 0) : a * b ≤ 0 ↔ 0 ≤ a := by
  rw [← neg_nonneg, ← mul_neg, mul_nonneg_iff_of_pos_right (neg_pos.mpr hb)]

variable (hd : 0 ≤ d) (hs : s ≠ 0)

include hd hs

theorem div_neg_iff : (q + r * √d) / s < 0 ↔ q * s < 0 ∧ 0 < q ^ 2 - r ^ 2 * d ∨
    r * s ≤ 0 ∧ q * s < 0 ∨ r * s ≤ 0 ∧ q ^ 2 - r ^ 2 * d < 0 := by
  have hs2 : 0 < s ^ 2 := by positivity
  have hnum : (q + r * √d) / s < 0 ↔ q * s + r * s * √d < 0 := by
    have heq : (q + r * √d) / s = (q * s + r * s * √d) / s ^ 2 := by field_simp
    rw [heq, div_lt_iff₀ hs2, zero_mul]
  have hdiff : (q * s) ^ 2 - (r * s) ^ 2 * d = (q ^ 2 - r ^ 2 * d) * s ^ 2 := by ring
  rw [hnum, neg_iff hd, hdiff, mul_pos_iff_of_pos_right hs2, mul_neg_iff_left hs2]

theorem div_nonpos_iff : (q + r * √d) / s ≤ 0 ↔ q * s ≤ 0 ∧ 0 ≤ q ^ 2 - r ^ 2 * d ∨
    r * s ≤ 0 ∧ q ^ 2 - r ^ 2 * d ≤ 0 := by
  have hs2 : 0 < s ^ 2 := by positivity
  have hnum : (q + r * √d) / s ≤ 0 ↔ q * s + r * s * √d ≤ 0 := by
    have heq : (q + r * √d) / s = (q * s + r * s * √d) / s ^ 2 := by field_simp
    rw [heq, div_le_iff₀ hs2, zero_mul]
  have hdiff : (q * s) ^ 2 - (r * s) ^ 2 * d = (q ^ 2 - r ^ 2 * d) * s ^ 2 := by ring
  rw [hnum, nonpos_iff hd, hdiff, mul_nonneg_iff_of_pos_right hs2, mul_nonpos_iff_left hs2]

/-- The case of a negative fraction, by the signs of the parts and of the denominator. -/
theorem div_neg_iff_cases : (q + r * √d) / s < 0 ↔
    q < 0 ∧ 0 < s ∧ 0 < q ^ 2 - r ^ 2 * d ∨ 0 < q ∧ s < 0 ∧ 0 < q ^ 2 - r ^ 2 * d ∨
      0 < r ∧ s < 0 ∧ q ^ 2 - r ^ 2 * d < 0 ∨ r < 0 ∧ 0 < s ∧ q ^ 2 - r ^ 2 * d < 0 ∨
      0 ≤ r ∧ 0 < q ∧ s < 0 ∨ r ≤ 0 ∧ q < 0 ∧ 0 < s := by
  rw [div_neg_iff hd hs]
  -- Without the root, the difference of the squares is not negative.
  have hr : q ^ 2 - r ^ 2 * d < 0 → r ≠ 0 := by
    rintro h rfl
    exact absurd h (not_lt.mpr (by simpa using sq_nonneg q))
  rcases lt_or_gt_of_ne hs with hs | hs
  · have hle : 0 ≤ r ∧ q ^ 2 - r ^ 2 * d < 0 ↔ 0 < r ∧ q ^ 2 - r ^ 2 * d < 0 :=
      and_congr_left fun h => ⟨fun hle => lt_of_le_of_ne hle (hr h).symm, le_of_lt⟩
    simp only [mul_neg_iff_of_neg hs, mul_nonpos_iff_of_neg hs, hs, hs.not_gt, hle, true_and,
      false_and, and_false, and_true, false_or, or_false]
    exact or_congr Iff.rfl or_comm
  · have hle : r ≤ 0 ∧ q ^ 2 - r ^ 2 * d < 0 ↔ r < 0 ∧ q ^ 2 - r ^ 2 * d < 0 :=
      and_congr_left fun h => ⟨fun hle => lt_of_le_of_ne hle (hr h), le_of_lt⟩
    simp only [mul_neg_iff_left hs, mul_nonpos_iff_left hs, hs, hs.not_gt, hle, true_and,
      false_and, and_false, and_true, false_or]
    exact or_congr Iff.rfl or_comm

theorem div_nonpos_iff_cases : (q + r * √d) / s ≤ 0 ↔
    q < 0 ∧ 0 < s ∧ 0 ≤ q ^ 2 - r ^ 2 * d ∨ 0 < q ∧ s < 0 ∧ 0 ≤ q ^ 2 - r ^ 2 * d ∨
      0 < r ∧ s < 0 ∧ q ^ 2 - r ^ 2 * d ≤ 0 ∨ r < 0 ∧ 0 < s ∧ q ^ 2 - r ^ 2 * d ≤ 0 ∨
      r = 0 ∧ q = 0 ∨ d = 0 ∧ q = 0 := by
  rw [div_nonpos_iff hd hs]
  rcases lt_or_gt_of_ne hs with hs | hs
  · simp only [mul_nonpos_iff_of_neg hs, hs, hs.not_gt, true_and, false_and, and_false, false_or]
    exact weak_cases hd
  · have hneg := weak_cases (q := -q) (r := -r) hd
    simp only [neg_nonneg, neg_pos, neg_eq_zero, even_two, Even.neg_pow] at hneg
    simp only [mul_nonpos_iff_left hs, hs, hs.not_gt, true_and, false_and, and_false, false_or]
    exact hneg

end Fraction

end SquareRootSigns
