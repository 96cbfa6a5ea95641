import Smtrat.Math.LineCells

/-!
# Test points of a conjunction of sign conditions

If sign conditions on polynomials in one variable hold somewhere, then they hold for all small enough
values, or at a zero of a polynomial with a weak condition, or right behind a zero of a polynomial with
a strict one.
-/

namespace TestPoints

open Polynomial LineCells

/-- A sign condition on a polynomial. -/
abbrev SignCondition := Smtrat.Relation × ℝ[X]

/-- All conditions hold at a point. -/
def HoldAt (conditions : List SignCondition) (r : ℝ) : Prop :=
  ∀ c ∈ conditions, c.1.evaluate (c.2.eval r) 0

/-- The zeros of the polynomials that are not zero. -/
noncomputable def zeros (conditions : List SignCondition) : List ℝ :=
  conditions.flatMap fun c => c.2.roots.toList

variable {conditions : List SignCondition} {c : SignCondition} {x z : ℝ}

theorem mem_zeros : z ∈ zeros conditions ↔ ∃ c ∈ conditions, c.2 ≠ 0 ∧ c.2.eval z = 0 := by
  simp [zeros, List.mem_flatMap, mem_roots', IsRoot]

/-- A condition does not tell points apart that lie in the same way to the zeros of its polynomial. -/
theorem evaluate_iff_of_sameCell {s t : ℝ} (h : SameCell c.2.roots.toList s t) :
    c.1.evaluate (c.2.eval s) 0 ↔ c.1.evaluate (c.2.eval t) 0 := by
  by_cases hzero : c.2 = 0
  · rw [hzero, eval_zero, eval_zero]
  · refine respects_sign c.1 (fun r hr => ?_) s t h
    exact Multiset.mem_toList.mpr ((mem_roots hzero).mpr hr)

theorem holdAt_of_sameCell {s t : ℝ} (h : SameCell (zeros conditions) s t)
    (ht : HoldAt conditions t) : HoldAt conditions s := by
  intro c hc
  refine (evaluate_iff_of_sameCell (h.mono fun r hr => ?_)).mpr (ht c hc)
  exact List.mem_flatMap.mpr ⟨c, hc, hr⟩

/-- There is a last zero that is not behind the point, or none. -/
theorem exists_last_zero (conditions : List SignCondition) (x : ℝ) :
    (∀ r ∈ zeros conditions, x < r) ∨
      ∃ z ∈ zeros conditions, z ≤ x ∧ ∀ r ∈ zeros conditions, r ≤ x → r ≤ z := by
  classical
  set before := (zeros conditions).toFinset.filter (· ≤ x) with hbef
  have hmem (r : ℝ) : r ∈ before ↔ r ∈ zeros conditions ∧ r ≤ x := by
    rw [hbef, Finset.mem_filter, List.mem_toFinset]
  rcases before.eq_empty_or_nonempty with hempty | hne
  · refine .inl fun r hr => lt_of_not_ge fun hle => ?_
    have hr : r ∈ before := (hmem r).mpr ⟨hr, hle⟩
    rw [hempty] at hr
    exact Finset.notMem_empty r hr
  · obtain ⟨z, hz, hmax⟩ := before.exists_max_image id hne
    obtain ⟨hz, hle⟩ := (hmem z).mp hz
    exact .inr ⟨z, hz, hle, fun r hr hrx => hmax r ((hmem r).mpr ⟨hr, hrx⟩)⟩

/-- Behind the last zero the conditions hold up to the point. -/
theorem holdAt_behind {r : ℝ} (hx : HoldAt conditions x)
    (hlast : ∀ r ∈ zeros conditions, r ≤ x → r ≤ z) (hr : z < r) (hrx : r ≤ x) :
    HoldAt conditions r := by
  refine holdAt_of_sameCell (fun d hd => ⟨⟨fun hrd => ?_, hrx.trans_lt⟩, ?_, fun hdx => ?_⟩) hx
  · exact lt_of_not_ge fun hdx => absurd (hlast d hd hdx) (not_le.mpr (hr.trans hrd))
  · exact fun hdr => hdr.trans_le hrx
  · exact (hlast d hd hdx.le).trans_lt hr

/-- At the last zero the conditions hold if no strict one has it. -/
theorem holdAt_last (hx : HoldAt conditions x) (hzx : z ≤ x)
    (hlast : ∀ r ∈ zeros conditions, r ≤ x → r ≤ z)
    (hweak : ∀ c ∈ conditions, c.2 ≠ 0 → c.2.eval z = 0 → c.1.isStrict = false) :
    HoldAt conditions z := by
  intro c hc
  by_cases hpoly : c.2 = 0
  · have h := hx c hc
    rw [hpoly, eval_zero] at h ⊢
    exact h
  · by_cases hzero : c.2.eval z = 0
    · have hrel := hweak c hc hpoly hzero
      rw [hzero]
      cases hc : c.1 <;> simp_all [Smtrat.Relation.isStrict, Smtrat.Relation.evaluate]
    · refine (evaluate_iff_of_sameCell fun r hr => ?_).mpr (hx c hc)
      have hroot : c.2.eval r = 0 := ((mem_roots hpoly).mp (Multiset.mem_toList.mp hr))
      have hne : r ≠ z := by
        rintro rfl
        exact hzero hroot
      have hr : r ∈ zeros conditions := mem_zeros.mpr ⟨c, hc, hpoly, hroot⟩
      refine ⟨⟨fun hzr => ?_, hzx.trans_lt⟩, fun hrz => hrz.trans_le hzx, fun hrx => ?_⟩
      · exact lt_of_not_ge fun hrx => absurd (hlast r hr hrx) (not_le.mpr hzr)
      · exact lt_of_le_of_ne (hlast r hr hrx.le) hne

/-- The test points are complete. -/
theorem exists_testPoint (hx : HoldAt conditions x) :
    (∃ m, ∀ r ≤ m, HoldAt conditions r) ∨
      ∃ c ∈ conditions, ∃ z, c.2 ≠ 0 ∧ c.2.eval z = 0 ∧
        ((c.1.isStrict = false ∧ HoldAt conditions z) ∨
          (c.1.isStrict = true ∧ ∃ ε > 0, ∀ r, z < r → r < z + ε → HoldAt conditions r)) := by
  rcases exists_last_zero conditions x with hnone | ⟨z, hz, hzx, hlast⟩
  · refine .inl ⟨x, fun r hrx => holdAt_of_sameCell (fun d hd => ?_) hx⟩
    have hxd := hnone d hd
    exact ⟨iff_of_true (hrx.trans_lt hxd) hxd, iff_of_false (hrx.trans hxd.le).not_gt hxd.le.not_gt⟩
  · refine .inr ?_
    by_cases hstr : ∃ c ∈ conditions, c.2 ≠ 0 ∧ c.2.eval z = 0 ∧ c.1.isStrict = true
    · obtain ⟨c, hc, hpoly, hzero, hstr⟩ := hstr
      -- the point itself is no zero of a strict condition
      have hlt : z < x := by
        refine lt_of_le_of_ne hzx ?_
        rintro rfl
        have h := hx c hc
        rw [hzero] at h
        cases hrel : c.1 <;> simp_all [Smtrat.Relation.isStrict, Smtrat.Relation.evaluate]
      refine ⟨c, hc, z, hpoly, hzero, .inr ⟨hstr, x - z, sub_pos.mpr hlt, fun r hr hrε => ?_⟩⟩
      exact holdAt_behind hx hlast hr (by linarith)
    · obtain ⟨c, hc, hpoly, hzero⟩ := mem_zeros.mp hz
      have hweak : ∀ c ∈ conditions, c.2 ≠ 0 → c.2.eval z = 0 → c.1.isStrict = false :=
        fun c hc hpoly hzero =>
          Bool.eq_false_iff.mpr fun h => hstr ⟨c, hc, hpoly, hzero, h⟩
      exact ⟨c, hc, z, hpoly, hzero, .inl ⟨hweak c hc hpoly hzero, holdAt_last hx hzx hlast hweak⟩⟩

end TestPoints
