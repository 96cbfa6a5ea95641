import Smtrat.Math.Instances

/-!
# Signs of real polynomials along a filter

To the right of a point and towards infinity a polynomial has a sign: it is zero, or eventually
negative, or eventually positive.  To the right of a point the sign is that of the first derivative
that does not vanish there, towards infinity that of the leading coefficient.
-/

namespace PolynomialSign

open Polynomial Filter Topology

/-- Every polynomial has a sign along the filter. -/
structure Decides (l : Filter ℝ) : Prop where
  neBot : l.NeBot
  cases : ∀ P : ℝ[X], P = 0 ∨ (∀ᶠ x in l, P.eval x < 0) ∨ ∀ᶠ x in l, 0 < P.eval x

namespace Decides

variable {l : Filter ℝ} (h : Decides l) {P : ℝ[X]}

include h

theorem not_neg_pos (hneg : ∀ᶠ x in l, P.eval x < 0) : ¬ ∀ᶠ x in l, 0 < P.eval x := by
  intro hpos
  have := h.neBot
  obtain ⟨x, hx, hx'⟩ := (hneg.and hpos).exists
  exact lt_asymm hx hx'

theorem ne_zero_of_eventually (hne : ∀ᶠ x in l, P.eval x ≠ 0) : P ≠ 0 := by
  rintro rfl
  have := h.neBot
  obtain ⟨x, hx⟩ := hne.exists
  exact hx eval_zero

theorem eventually_ne_iff : (∀ᶠ x in l, P.eval x ≠ 0) ↔ P ≠ 0 := by
  constructor
  · exact h.ne_zero_of_eventually
  · intro hP
    rcases (h.cases P).resolve_left hP with hneg | hpos
    · exact hneg.mono fun _ hx => hx.ne
    · exact hpos.mono fun _ hx => hx.ne'

theorem eventually_eq_iff : (∀ᶠ x in l, P.eval x = 0) ↔ P = 0 := by
  constructor
  · intro heq
    by_contra hP
    have := h.neBot
    obtain ⟨x, hx, hx'⟩ := (heq.and (h.eventually_ne_iff.mpr hP)).exists
    exact hx' hx
  · rintro rfl
    exact Eventually.of_forall fun _ => eval_zero

theorem eventually_le_iff : (∀ᶠ x in l, P.eval x ≤ 0) ↔ P = 0 ∨ ∀ᶠ x in l, P.eval x < 0 := by
  constructor
  · intro hle
    rcases h.cases P with hP | hneg | hpos
    · exact .inl hP
    · exact .inr hneg
    · have := h.neBot
      obtain ⟨x, hx, hx'⟩ := (hle.and hpos).exists
      exact absurd hx (not_le.mpr hx')
  · rintro (rfl | hneg)
    · exact Eventually.of_forall fun _ => eval_zero.le
    · exact hneg.mono fun _ hx => hx.le

theorem eventually_ge_iff : (∀ᶠ x in l, 0 ≤ P.eval x) ↔ P = 0 ∨ ∀ᶠ x in l, 0 < P.eval x := by
  have hneg := h.eventually_le_iff (P := -P)
  simpa using hneg

end Decides

/-! ## To the right of a point -/

section Right

variable {P : ℝ[X]} {t : ℝ}

theorem eventually_neg_of_eval (h : P.eval t < 0) : ∀ᶠ x in 𝓝[>] t, P.eval x < 0 :=
  (P.continuous.continuousAt.eventually_lt_const h).filter_mono nhdsWithin_le_nhds

/-- From a zero, the polynomial follows the sign of its derivative. -/
theorem eventually_neg_of_derivative (h : P.eval t = 0)
    (hderiv : ∀ᶠ x in 𝓝[>] t, P.derivative.eval x < 0) : ∀ᶠ x in 𝓝[>] t, P.eval x < 0 := by
  obtain ⟨u, hu, hsub⟩ := mem_nhdsGT_iff_exists_Ioo_subset.mp hderiv
  have hanti : StrictAntiOn (fun x => P.eval x) (Set.Ico t u) := by
    apply strictAntiOn_of_deriv_neg (convex_Ico t u) P.continuous.continuousOn
    intro x hx
    rw [interior_Ico] at hx
    rw [Polynomial.deriv]
    exact hsub hx
  refine mem_nhdsGT_iff_exists_Ioo_subset.mpr ⟨u, hu, fun x hx => ?_⟩
  have hlt := hanti ⟨le_rfl, hu⟩ ⟨hx.1.le, hx.2⟩ hx.1
  exact lt_of_lt_of_eq hlt h

theorem eventually_pos_of_eval (h : 0 < P.eval t) : ∀ᶠ x in 𝓝[>] t, 0 < P.eval x := by
  have hneg := eventually_neg_of_eval (P := -P) (t := t)
  simp only [eval_neg, Left.neg_neg_iff] at hneg
  exact hneg h

theorem eventually_pos_of_derivative (h : P.eval t = 0)
    (hderiv : ∀ᶠ x in 𝓝[>] t, 0 < P.derivative.eval x) : ∀ᶠ x in 𝓝[>] t, 0 < P.eval x := by
  have hneg := eventually_neg_of_derivative (P := -P) (t := t)
  simp only [eval_neg, derivative_neg, Left.neg_neg_iff, neg_eq_zero] at hneg
  exact hneg h hderiv

theorem eq_zero_of_derivative (h : P.derivative = 0) (ht : P.eval t = 0) : P = 0 := by
  rw [eq_C_of_derivative_eq_zero h, eval_C] at ht
  rw [eq_C_of_derivative_eq_zero h, ht, C_0]

theorem decides_right (t : ℝ) : Decides (𝓝[>] t) where
  neBot := inferInstance
  cases := by
    intro P
    obtain ⟨n, hn⟩ : ∃ n, P.natDegree ≤ n := ⟨_, le_rfl⟩
    induction n generalizing P with
    | zero =>
      obtain ⟨c, rfl⟩ := natDegree_eq_zero.mp (Nat.le_zero.mp hn)
      rcases lt_trichotomy c 0 with hc | rfl | hc
      · exact .inr (.inl (Eventually.of_forall fun x => by rwa [eval_C]))
      · exact .inl C_0
      · exact .inr (.inr (Eventually.of_forall fun x => by rwa [eval_C]))
    | succ n ih =>
      rcases lt_trichotomy (P.eval t) 0 with ht | ht | ht
      · exact .inr (.inl (eventually_neg_of_eval ht))
      · have hdeg : P.derivative.natDegree ≤ n :=
          (natDegree_derivative_le P).trans (Nat.sub_le_of_le_add hn)
        rcases ih P.derivative hdeg with hzero | hneg | hpos
        · exact .inl (eq_zero_of_derivative hzero ht)
        · exact .inr (.inl (eventually_neg_of_derivative ht hneg))
        · exact .inr (.inr (eventually_pos_of_derivative ht hpos))
      · exact .inr (.inr (eventually_pos_of_eval ht))

theorem eventually_neg_right_iff : (∀ᶠ x in 𝓝[>] t, P.eval x < 0) ↔
    P.eval t < 0 ∨ P.eval t = 0 ∧ ∀ᶠ x in 𝓝[>] t, P.derivative.eval x < 0 := by
  constructor
  · intro hneg
    rcases lt_trichotomy (P.eval t) 0 with ht | ht | ht
    · exact .inl ht
    · refine .inr ⟨ht, ?_⟩
      rcases (decides_right t).cases P.derivative with hzero | hderiv | hderiv
      · exact absurd (eq_zero_of_derivative hzero ht) ((decides_right t).ne_zero_of_eventually (hneg.mono fun _ hx => hx.ne))
      · exact hderiv
      · exact absurd (eventually_pos_of_derivative ht hderiv) ((decides_right t).not_neg_pos hneg)
    · exact absurd (eventually_pos_of_eval ht) ((decides_right t).not_neg_pos hneg)
  · rintro (ht | ⟨ht, hderiv⟩)
    · exact eventually_neg_of_eval ht
    · exact eventually_neg_of_derivative ht hderiv

theorem eventually_pos_right_iff : (∀ᶠ x in 𝓝[>] t, 0 < P.eval x) ↔
    0 < P.eval t ∨ P.eval t = 0 ∧ ∀ᶠ x in 𝓝[>] t, 0 < P.derivative.eval x := by
  have hneg := eventually_neg_right_iff (P := -P) (t := t)
  simpa using hneg

end Right

/-! ## Towards infinity -/

section Infinity

variable {P : ℝ[X]}

theorem eventually_pos_atTop (h : 0 < P.leadingCoeff) : ∀ᶠ x in atTop, 0 < P.eval x := by
  rcases Nat.eq_zero_or_pos P.natDegree with hdeg | hdeg
  · obtain ⟨c, rfl⟩ := natDegree_eq_zero.mp hdeg
    rw [leadingCoeff_C] at h
    exact Eventually.of_forall fun x => by rwa [eval_C]
  · exact (P.tendsto_atTop_of_leadingCoeff_nonneg (natDegree_pos_iff_degree_pos.mp hdeg)
      h.le).eventually_gt_atTop 0

theorem eventually_neg_atTop (h : P.leadingCoeff < 0) : ∀ᶠ x in atTop, P.eval x < 0 := by
  have hpos := eventually_pos_atTop (P := -P)
  simp only [leadingCoeff_neg, eval_neg, Left.neg_pos_iff] at hpos
  exact hpos h

theorem decides_atTop : Decides atTop where
  neBot := inferInstance
  cases := by
    intro P
    rcases lt_trichotomy P.leadingCoeff 0 with h | h | h
    · exact .inr (.inl (eventually_neg_atTop h))
    · exact .inl (leadingCoeff_eq_zero.mp h)
    · exact .inr (.inr (eventually_pos_atTop h))

theorem eventually_neg_atTop_iff : (∀ᶠ x in atTop, P.eval x < 0) ↔ P.leadingCoeff < 0 := by
  refine ⟨fun hneg => ?_, eventually_neg_atTop⟩
  rcases lt_trichotomy P.leadingCoeff 0 with h | h | h
  · exact h
  · exact absurd (leadingCoeff_eq_zero.mp h)
      (decides_atTop.ne_zero_of_eventually (hneg.mono fun _ hx => hx.ne))
  · exact absurd (eventually_pos_atTop h) (decides_atTop.not_neg_pos hneg)

theorem eventually_pos_atTop_iff : (∀ᶠ x in atTop, 0 < P.eval x) ↔ 0 < P.leadingCoeff := by
  have hneg := eventually_neg_atTop_iff (P := -P)
  simpa using hneg

/-- Towards minus infinity is towards infinity after a reflection. -/
theorem eventually_atBot_iff {q : ℝ → Prop} :
    (∀ᶠ x in atBot, q (P.eval x)) ↔ ∀ᶠ x in atTop, q ((P.comp (-X)).eval x) := by
  rw [← map_neg_atTop, eventually_map]
  simp only [eval_comp, eval_neg, eval_X]

theorem leadingCoeff_reflect :
    (P.comp (-X)).leadingCoeff = (-1) ^ P.natDegree * P.leadingCoeff := by
  rw [leadingCoeff_comp (by simp), leadingCoeff_neg, leadingCoeff_X, mul_comm]

theorem eventually_neg_atBot_iff : (∀ᶠ x in atBot, P.eval x < 0) ↔
    (-1) ^ P.natDegree * P.leadingCoeff < 0 := by
  rw [eventually_atBot_iff (q := (· < 0)), eventually_neg_atTop_iff, leadingCoeff_reflect]

theorem eventually_pos_atBot_iff : (∀ᶠ x in atBot, 0 < P.eval x) ↔
    0 < (-1) ^ P.natDegree * P.leadingCoeff := by
  rw [eventually_atBot_iff (q := (0 < ·)), eventually_pos_atTop_iff, leadingCoeff_reflect]

theorem decides_atBot : Decides atBot where
  neBot := inferInstance
  cases := by
    intro P
    rcases decides_atTop.cases (P.comp (-X)) with h | h | h
    · left
      rw [← leadingCoeff_eq_zero, leadingCoeff_reflect] at h
      simpa using h
    · exact .inr (.inl ((eventually_atBot_iff (q := (· < 0))).mpr h))
    · exact .inr (.inr ((eventually_atBot_iff (q := (0 < ·))).mpr h))

end Infinity

end PolynomialSign
