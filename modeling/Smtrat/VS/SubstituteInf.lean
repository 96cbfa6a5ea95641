import Smtrat.VS.SubstituteEps

/-!
# Substitution of infinite values

The conjunctions for an infinite value say which coefficient is the leading one, and compare it with
a relation that depends on the parity of its degree.
-/

namespace Smtrat.VS

open SparsePoly PolynomialSign Filter Topology Polynomial List

universe u

variable {V : Type u} {α : V → ℝ}

/-! ## Leading coefficients -/

section Leading

variable [DecidableEq V] (lib : PolynomialLibrary V) {x : V} {c : Constraint V}
  {type : SubstitutionType V}

theorem leadingRelation_strict (type : SubstitutionType V) (relation : Relation) {k : Nat}
    (hk : k ≠ 0) : leadingRelation type relation k = .less ∨
      leadingRelation type relation k = .greater := by
  rw [leadingRelation, if_neg hk, coefficientRelations]
  split_ifs <;> simp

/-- The conjunction is about the coefficient before which all the others vanish. -/
theorem sat_leadingCase (k : Nat) (hk : k ≤ Poly.maxDegree x c.lhs) :
    (∀ d ∈ leadingCase lib type c x k, d.Sat α) ↔
      (Poly.univariate x α c.lhs).natDegree ≤ k ∧
        (leadingRelation type c.relation k).evaluate ((Poly.univariate x α c.lhs).coeff k) 0 := by
  rw [leadingCase, forall_mem_append, forall_mem_map, forall_mem_singleton]
  simp only [lib.sat_constraint, ← Poly.coeff_univariate]
  refine and_congr_left fun _ => ?_
  rw [natDegree_le_iff_coeff_eq_zero]
  constructor
  · intro h j hj
    by_cases hle : j ≤ Poly.maxDegree x c.lhs
    · have hrange : Poly.maxDegree x c.lhs - j ∈ List.range (Poly.maxDegree x c.lhs - k) :=
        mem_range.mpr (by omega)
      have hcoeff := h _ hrange
      rwa [Nat.sub_sub_self hle] at hcoeff
    · exact coeff_eq_zero_of_natDegree_lt
        ((Poly.natDegree_univariate_le x α c.lhs).trans_lt (not_le.mp hle))
  · intro h j hj
    exact h _ (by have := mem_range.mp hj; omega)

/-- Only the conjunction for the degree counts. -/
theorem holds_substituteInfLessGreater :
    Holds α (substituteInfLessGreater lib type c x) ↔
      (leadingRelation type c.relation (Poly.univariate x α c.lhs).natDegree).evaluate
        (Poly.univariate x α c.lhs).leadingCoeff 0 := by
  have hdeg := Poly.natDegree_univariate_le x α c.lhs
  have hcases : Holds α (substituteInfLessGreater lib type c x) ↔
      ∃ k ≤ Poly.maxDegree x c.lhs, ∀ d ∈ leadingCase lib type c x k, d.Sat α := by
    simp [Holds, substituteInfLessGreater]
  rw [hcases]
  constructor
  · rintro ⟨k, hk, hcase⟩
    obtain ⟨hle, hrel⟩ := (sat_leadingCase lib k hk).mp hcase
    rcases hle.eq_or_lt with rfl | hlt
    · exact hrel
    · rw [coeff_eq_zero_of_natDegree_lt hlt] at hrel
      rcases leadingRelation_strict type c.relation (Nat.ne_zero_of_lt hlt) with h | h <;>
        simp [h, Relation.evaluate] at hrel
  · intro hrel
    exact ⟨_, hdeg, (sat_leadingCase lib _ hdeg).mpr ⟨le_rfl, hrel⟩⟩

end Leading

/-! ## Infinite values -/

section Along

variable {P : ℝ[X]}

theorem along_atTop_less : Along atTop .less P ↔ P.leadingCoeff < 0 := eventually_neg_atTop_iff

theorem along_atTop_greater : Along atTop .greater P ↔ 0 < P.leadingCoeff :=
  eventually_pos_atTop_iff

theorem along_atBot_less : Along atBot .less P ↔ (-1) ^ P.natDegree * P.leadingCoeff < 0 :=
  eventually_neg_atBot_iff

theorem along_atBot_greater : Along atBot .greater P ↔ 0 < (-1) ^ P.natDegree * P.leadingCoeff :=
  eventually_pos_atBot_iff

/-- A polynomial that is constant is compared by its value. -/
theorem along_of_natDegree_eq_zero {l : Filter ℝ} [l.NeBot] {relation : Relation}
    (h : P.natDegree = 0) : Along l relation P ↔ relation.evaluate P.leadingCoeff 0 := by
  obtain ⟨r, rfl⟩ := natDegree_eq_zero.mp h
  rw [Along, leadingCoeff_C]
  simp only [eval_C, eventually_const]

/-- A polynomial that is not constant is not zero, so that weak relations are strict. -/
theorem along_of_natDegree_ne_zero {l : Filter ℝ} (hl : Decides l) {relation : Relation}
    (h : P.natDegree ≠ 0) (heq : relation ≠ .eq) (hneq : relation ≠ .neq) :
    Along l relation P ↔ Along l (gradientRelation relation) P := by
  have hP : P ≠ 0 := by
    rintro rfl
    exact h natDegree_zero
  cases relation with
  | eq => exact absurd rfl heq
  | neq => exact absurd rfl hneq
  | less => rfl
  | greater => rfl
  | leq => exact (along_leq_iff hl).trans (or_iff_right hP)
  | geq => exact (along_geq_iff hl).trans (or_iff_right hP)

end Along

section Infinity

variable [DecidableEq V] {relation : Relation} {P : ℝ[X]}

theorem leadingRelation_minusInfinity (heq : relation ≠ .eq) (hneq : relation ≠ .neq) :
    (leadingRelation (V := V) .minusInfinity relation P.natDegree).evaluate P.leadingCoeff 0 ↔
      Along atBot relation P := by
  by_cases hdeg : P.natDegree = 0
  · rw [along_of_natDegree_eq_zero hdeg, leadingRelation, if_pos hdeg]
  · rw [along_of_natDegree_ne_zero decides_atBot hdeg heq hneq, leadingRelation, if_neg hdeg]
    rcases Nat.even_or_odd P.natDegree with heven | hodd
    · have hmod : ¬ P.natDegree % 2 ≠ 0 := by simpa using Nat.even_iff.mp heven
      rw [if_neg hmod]
      cases relation <;>
        simp_all [coefficientRelations, gradientRelation, along_atBot_less, along_atBot_greater,
          heven.neg_one_pow, Relation.evaluate]
    · have hmod : P.natDegree % 2 ≠ 0 := by simp [Nat.odd_iff.mp hodd]
      rw [if_pos hmod]
      cases relation <;>
        simp_all [coefficientRelations, gradientRelation, along_atBot_less, along_atBot_greater,
          hodd.neg_one_pow, Relation.evaluate]

theorem leadingRelation_plusInfinity (heq : relation ≠ .eq) (hneq : relation ≠ .neq) :
    ((leadingRelation (V := V) .plusInfinity relation P.natDegree).evaluate P.leadingCoeff 0 ↔
      Along atTop relation P) ↔ (P.natDegree = 0 ∨ P.natDegree % 2 = 1) := by
  by_cases hdeg : P.natDegree = 0
  · rw [along_of_natDegree_eq_zero hdeg, leadingRelation, if_pos hdeg]
    exact iff_of_true Iff.rfl (.inl hdeg)
  · rw [along_of_natDegree_ne_zero decides_atTop hdeg heq hneq, leadingRelation, if_neg hdeg]
    have hlead : P.leadingCoeff ≠ 0 := by
      rw [leadingCoeff_ne_zero]
      rintro rfl
      exact hdeg natDegree_zero
    rcases Nat.mod_two_eq_zero_or_one P.natDegree with hmod | hmod
    · -- The sign is compared with the opposite relation.
      have hopposite : ¬ (P.leadingCoeff < 0 ↔ 0 < P.leadingCoeff) := by
        rcases lt_or_gt_of_ne hlead with h | h <;> simp [h, h.not_gt]
      refine iff_of_false ?_ (by simp [hdeg, hmod])
      cases relation <;>
        simp_all [coefficientRelations, gradientRelation, along_atTop_less, along_atTop_greater,
          Relation.evaluate, iff_comm]
    · refine iff_of_true ?_ (.inr hmod)
      cases relation <;>
        simp_all [coefficientRelations, gradientRelation, along_atTop_less, along_atTop_greater,
          Relation.evaluate]

variable (lib : PolynomialLibrary V) {x : V} {c : Constraint V} (hconst : isConstant c.lhs = false)

include hconst

theorem holds_substituteInf {type : SubstitutionType V} {l : Filter ℝ} (hl : Decides l) :
    Holds α (substituteInf lib (.proper c) x type []) ↔
      if Poly.hasVariable x c.lhs ∧ c.relation ≠ .eq ∧ c.relation ≠ .neq then
        (leadingRelation type c.relation (Poly.univariate x α c.lhs).natDegree).evaluate
          (Poly.univariate x α c.lhs).leadingCoeff 0
      else Along l c.relation (Poly.univariate x α c.lhs) := by
  have := hl.neBot
  rw [substituteInf, hconst, if_neg Bool.false_ne_true]
  by_cases hvar : Poly.hasVariable x c.lhs
  · rw [if_pos hvar, holds_simplify, nil_append]
    by_cases heq : c.relation = .eq
    · rw [if_pos heq, if_neg (by simp [heq]), heq, along_eq_iff hl,
        ← holds_substituteTrivialCase lib]
      simp
    · by_cases hneq : c.relation = .neq
      · rw [if_neg heq, if_pos hneq, if_neg (by simp [hneq]), hneq, along_neq_iff hl,
          holds_substituteNotTrivialCase lib]
      · rw [if_neg heq, if_neg hneq, if_pos ⟨hvar, heq, hneq⟩, holds_substituteInfLessGreater]
  · rw [if_neg hvar, if_neg (fun h => hvar h.1), along_of_not_hasVariable hvar]
    simp [ConstraintT.Sat]

theorem holds_substituteInf_minusInfinity :
    Holds α (substituteInf lib (.proper c) x .minusInfinity []) ↔
      Along atBot c.relation (Poly.univariate x α c.lhs) := by
  rw [holds_substituteInf lib hconst decides_atBot]
  split_ifs with h
  · exact leadingRelation_minusInfinity h.2.1 h.2.2
  · rfl

theorem holds_substituteInf_plusInfinity :
    (Holds α (substituteInf lib (.proper c) x .plusInfinity []) ↔
      Along atTop c.relation (Poly.univariate x α c.lhs)) ↔
    (Poly.hasVariable x c.lhs → c.relation ≠ .eq → c.relation ≠ .neq →
      (Poly.univariate x α c.lhs).natDegree = 0 ∨
        (Poly.univariate x α c.lhs).natDegree % 2 = 1) := by
  rw [holds_substituteInf lib hconst decides_atTop]
  split_ifs with h
  · rw [leadingRelation_plusInfinity h.2.1 h.2.2]
    exact ⟨fun hdeg _ _ _ => hdeg, fun hdeg => hdeg h.1 h.2.1 h.2.2⟩
  · exact iff_of_true Iff.rfl fun hvar heq hneq => absurd ⟨hvar, heq, hneq⟩ h

end Infinity

end Smtrat.VS
