import Mathlib

/-!
# Dominating powers

A sum of powers `c * n ^ e` of a growing base has the sign of its coefficients at the greatest
exponent.  A linear function of the exponents that is positive at a positive coefficient and
negative at all negative ones shows that this sign is positive; if it is only known not to have the
wrong sign, the coefficients where it is zero have to be summed up.
-/

namespace Dominance

open Filter List

universe u v

variable {ι : Type u} {K : Type v} [Field K] [LinearOrder K] [IsStrictOrderedRing K]
  {ts : List ι} {c : ι → K} {e : ι → ℤ}

/-- The sum of the powers of a base. -/
def value (c : ι → K) (e : ι → ℤ) (ts : List ι) (n : K) : K := (ts.map fun t => c t * n ^ e t).sum

/-- The sum of the coefficients at an exponent. -/
def leading (c : ι → K) (e : ι → ℤ) (ts : List ι) (E : ℤ) : K :=
  (ts.map fun t => if e t = E then c t else 0).sum

/-- Powers below the greatest one are bounded by the next power. -/
theorem le_value {E : ℤ} (hE : ∀ t ∈ ts, e t ≤ E) {n : K} (hn : 1 ≤ n) :
    leading c e ts E * n ^ E - (ts.map fun t => |c t|).sum * n ^ (E - 1) ≤ value c e ts n := by
  induction ts with
  | nil => simp [leading, value]
  | cons t ts ih =>
    have ih := ih fun t ht => hE t (mem_cons_of_mem _ ht)
    have hpos : 0 < n ^ (E - 1) := zpow_pos (by linarith) _
    simp only [leading, value, map_cons, sum_cons] at ih ⊢
    have hterm : (if e t = E then c t else 0) * n ^ E - |c t| * n ^ (E - 1) ≤ c t * n ^ e t := by
      by_cases ht : e t = E
      · have := mul_nonneg (abs_nonneg (c t)) hpos.le
        rw [if_pos ht, ht]
        linarith
      · have hle : e t ≤ E - 1 := by
          have := hE t mem_cons_self
          omega
        have hpow : n ^ e t ≤ n ^ (E - 1) := zpow_le_zpow_right₀ hn hle
        have hpowpos : 0 < n ^ e t := zpow_pos (by linarith) _
        have habs : -(c t * n ^ e t) ≤ |c t| * n ^ (E - 1) :=
          calc -(c t * n ^ e t) = -c t * n ^ e t := by ring
            _ ≤ |c t| * n ^ e t := mul_le_mul_of_nonneg_right (neg_le_abs (c t)) hpowpos.le
            _ ≤ |c t| * n ^ (E - 1) := mul_le_mul_of_nonneg_left hpow (abs_nonneg _)
        rw [if_neg ht]
        linarith
    linarith

/-- The coefficients at the greatest exponent decide. -/
theorem eventually_pos [Archimedean K] {E : ℤ} (hE : ∀ t ∈ ts, e t ≤ E)
    (hpos : 0 < leading c e ts E) : ∀ᶠ n : ℕ in atTop, 0 < value c e ts (n : K) := by
  have hlarge : ∀ᶠ n : ℕ in atTop, (ts.map fun t => |c t|).sum / leading c e ts E < n :=
    tendsto_natCast_atTop_atTop.eventually_gt_atTop _
  filter_upwards [hlarge, eventually_ge_atTop 1] with n hn hone
  have hcast : (1 : K) ≤ n := by exact_mod_cast hone
  have hn : (ts.map fun t => |c t|).sum < leading c e ts E * n := by
    rw [div_lt_iff₀ hpos] at hn
    linarith
  have hpow : 0 < (n : K) ^ (E - 1) := zpow_pos (by linarith) _
  have hsplit : (n : K) ^ E = n * (n : K) ^ (E - 1) := by
    rw [← zpow_one_add₀ (by linarith : (n : K) ≠ 0)]
    congr 1
    ring
  have hmul := mul_pos (sub_pos.mpr hn) hpow
  refine lt_of_lt_of_le ?_ (le_value hE hcast)
  rw [hsplit]
  linarith

/-- There is a greatest exponent. -/
theorem exists_greatest (h : ts ≠ []) : ∃ t ∈ ts, ∀ u ∈ ts, e u ≤ e t := by
  induction ts with
  | nil => exact absurd rfl h
  | cons t ts ih =>
    by_cases hts : ts = []
    · exact ⟨t, mem_cons_self, by simp [hts]⟩
    · obtain ⟨u, hu, hmax⟩ := ih hts
      rcases le_total (e u) (e t) with hle | hle
      · refine ⟨t, mem_cons_self, forall_mem_cons.mpr ⟨le_rfl, fun w hw => ?_⟩⟩
        exact (hmax w hw).trans hle
      · exact ⟨u, mem_cons_of_mem _ hu, forall_mem_cons.mpr ⟨hle, hmax⟩⟩

/-- Coefficients that are positive at an exponent have a positive sum. -/
theorem leading_pos {t : ι} (ht : t ∈ ts) (h : ∀ u ∈ ts, e u = e t → 0 < c u) :
    0 < leading c e ts (e t) := by
  have hmem : c t ∈ ts.map fun u => if e u = e t then c u else 0 :=
    mem_map.mpr ⟨t, ht, if_pos rfl⟩
  refine (h t ht rfl).trans_le (single_le_sum (fun x hx => ?_) _ hmem)
  obtain ⟨u, hu, rfl⟩ := mem_map.mp hx
  by_cases he : e u = e t
  · rw [if_pos he]
    exact (h u hu he).le
  · rw [if_neg he]

section Separation

variable [Archimedean K] {b s : K}

/-- A hyperplane that has a positive coefficient strictly above it and no negative one. -/
theorem eventually_pos_of_strict (hs : 0 < s) (hne : ∀ t ∈ ts, c t ≠ 0)
    (habove : ∃ t ∈ ts, 0 < c t ∧ 0 < b + s * e t)
    (hbelow : ∀ t ∈ ts, c t < 0 → b + s * e t < 0) :
    ∀ᶠ n : ℕ in atTop, 0 < value c e ts (n : K) := by
  obtain ⟨t, ht, -, hpos⟩ := habove
  obtain ⟨u, hu, hmax⟩ := exists_greatest (e := e) (ne_nil_of_mem ht)
  refine eventually_pos hmax (leading_pos hu fun w hw hwu => ?_)
  have hle : s * (e t : K) ≤ s * e u :=
    mul_le_mul_of_nonneg_left (by exact_mod_cast hmax t ht) hs.le
  rcases lt_or_gt_of_ne (hne w hw) with hneg | hwpos
  · have := hbelow w hw hneg
    rw [hwu] at this
    linarith
  · exact hwpos

/-- A hyperplane that has no negative coefficient strictly above it; `r` rates the coefficients,
those on the hyperplane by themselves and those below by zero. -/
theorem eventually_pos_of_weak {r : ι → K} (hs : 0 < s) (hne : ∀ t ∈ ts, c t ≠ 0)
    (habove : ∃ t ∈ ts, 0 < c t ∧ 0 ≤ b + s * e t)
    (hbelow : ∀ t ∈ ts, c t < 0 → b + s * e t ≤ 0)
    (hzero : ∀ t ∈ ts, b + s * e t < 0 → r t = 0)
    (hon : ∀ t ∈ ts, b + s * e t = 0 → r t = c t) (hrating : 0 < (ts.map r).sum) :
    ∀ᶠ n : ℕ in atTop, 0 < value c e ts (n : K) := by
  obtain ⟨t, ht, -, hpos⟩ := habove
  obtain ⟨u, hu, hmax⟩ := exists_greatest (e := e) (ne_nil_of_mem ht)
  have hle (w) (hw : w ∈ ts) : s * (e w : K) ≤ s * e u :=
    mul_le_mul_of_nonneg_left (by exact_mod_cast hmax w hw) hs.le
  have hheight : 0 ≤ b + s * (e u : K) := by linarith [hle t ht]
  rcases hheight.lt_or_eq with hgt | hzeroheight
  · refine eventually_pos hmax (leading_pos hu fun w hw hwu => ?_)
    rcases lt_or_gt_of_ne (hne w hw) with hneg | hwpos
    · have := hbelow w hw hneg
      rw [hwu] at this
      linarith
    · exact hwpos
  · refine eventually_pos hmax ?_
    have hratings : ts.map r = ts.map fun w => if e w = e u then c w else 0 := by
      refine map_congr_left fun w hw => ?_
      by_cases hwu : e w = e u
      · rw [if_pos hwu]
        exact hon w hw (by rw [hwu, ← hzeroheight])
      · rw [if_neg hwu]
        have hlt : s * (e w : K) < s * e u := by
          have := lt_of_le_of_ne (hmax w hw) hwu
          exact mul_lt_mul_of_pos_left (by exact_mod_cast this) hs
        exact hzero w hw (by linarith)
    rw [leading, ← hratings]
    exact hrating

end Separation

end Dominance
