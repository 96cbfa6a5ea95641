import Smtrat.Math.SparsePoly

/-!
# Sparse polynomials as polynomials in one variable

If the other variables have values, a sparse polynomial is a polynomial in the variable `x`.  Its
coefficients are the values of the sparse coefficients, and it has the derivative of the sparse
polynomial.
-/

namespace SparsePoly

open Polynomial List Function

universe u v w

variable {σ : Type u} {R : Type v} {K : Type w} [DecidableEq σ]

section Derivative

variable [CommRing R]

/-- The derivative of a term that has a power of the variable. -/
def Term.derivative (x : σ) (t : Term σ R) : Term σ R :=
  ⟨monomialDegree x t.monomial * t.coeff,
    (x, monomialDegree x t.monomial - 1) :: monomialErase x t.monomial⟩

/-- The derivative; terms without the variable disappear. -/
def Poly.derivative (x : σ) (p : Poly σ R) : Poly σ R :=
  (p.filter fun t => 0 < monomialDegree x t.monomial).map (Term.derivative x)

end Derivative

section Degree

variable (x : σ)

theorem monomialDegree_cons (p : σ × ℕ) (m : List (σ × ℕ)) :
    monomialDegree x (p :: m) = (if p.1 = x then p.2 else 0) + monomialDegree x m := by
  rw [monomialDegree, map_cons, sum_cons]
  rfl

theorem monomialDegree_erase (m : List (σ × ℕ)) : monomialDegree x (monomialErase x m) = 0 := by
  refine sum_eq_zero fun k hk => ?_
  obtain ⟨p, hp, rfl⟩ := mem_map.mp hk
  exact if_neg (of_decide_eq_true (mem_filter.mp hp).2)

theorem Poly.maxDegree_le_iff {p : Poly σ R} {n : ℕ} :
    Poly.maxDegree x p ≤ n ↔ ∀ t ∈ p, monomialDegree x t.monomial ≤ n := by
  induction p with
  | nil => simp [Poly.maxDegree]
  | cons t p ih => rw [Poly.maxDegree_cons, max_le_iff, ih, forall_mem_cons]

end Degree

section Univariate

variable [CommRing R] [CommRing K] [Algebra R K] (x : σ) (α : σ → K)

noncomputable def Term.univariate (t : Term σ R) : K[X] :=
  Polynomial.monomial (monomialDegree x t.monomial)
    (algebraMap R K t.coeff * monomialEval α (monomialErase x t.monomial))

/-- The polynomial in `x`, where the other variables have the values of the assignment. -/
noncomputable def Poly.univariate (p : Poly σ R) : K[X] := (p.map (Term.univariate x α)).sum

@[simp] theorem Poly.univariate_nil : Poly.univariate x α ([] : Poly σ R) = 0 := rfl

@[simp] theorem Poly.univariate_cons (t : Term σ R) (p : Poly σ R) :
    Poly.univariate x α (t :: p) = Term.univariate x α t + Poly.univariate x α p := by
  simp [Poly.univariate]

theorem Term.eval_univariate (t : Term σ R) (r : K) :
    (Term.univariate x α t).eval r = t.eval (update α x r) := by
  have hrest : monomialEval (update α x r) (monomialErase x t.monomial)
      = monomialEval α (monomialErase x t.monomial) :=
    monomialEval_erase_congr (fun y hy => update_of_ne hy r α) t.monomial
  rw [Term.univariate, eval_monomial, Term.eval,
    monomialEval_split (update α x r) x t.monomial, hrest, update_self]
  ring

theorem Poly.eval_univariate (p : Poly σ R) (r : K) :
    (Poly.univariate x α p).eval r = Poly.eval (update α x r) p := by
  induction p with
  | nil => simp
  | cons t p ih =>
    rw [Poly.univariate_cons, Polynomial.eval_add, Term.eval_univariate, ih, Poly.eval_cons]

theorem Poly.coeff_univariate (p : Poly σ R) (k : ℕ) :
    (Poly.univariate x α p).coeff k = Poly.eval α (Poly.coefficient x k p) := by
  induction p with
  | nil => simp [Poly.coefficient]
  | cons t p ih =>
    rw [Poly.univariate_cons, coeff_add, ih, Poly.coefficient_cons, Term.univariate, coeff_monomial]
    split_ifs
    · rw [Poly.eval_cons, Term.eval]
    · rw [zero_add]

theorem Poly.natDegree_univariate_le (p : Poly σ R) :
    (Poly.univariate x α p).natDegree ≤ Poly.maxDegree x p := by
  induction p with
  | nil => simp
  | cons t p ih =>
    rw [Poly.univariate_cons, Poly.maxDegree_cons]
    refine (natDegree_add_le _ _).trans (max_le_max ?_ ih)
    exact natDegree_monomial_le _

theorem Term.univariate_derivative (t : Term σ R) :
    Term.univariate x α (t.derivative x) = Polynomial.derivative (Term.univariate x α t) := by
  have hdeg : monomialDegree x (t.derivative x).monomial = monomialDegree x t.monomial - 1 := by
    rw [Term.derivative, monomialDegree_cons, monomialDegree_erase, if_pos rfl, add_zero]
  have herase : monomialErase x (t.derivative x).monomial = monomialErase x t.monomial := by
    rw [Term.derivative, monomialErase, filter_cons_of_neg (by simp)]
    exact filter_eq_self.mpr fun p hp => (mem_filter.mp hp).2
  rw [Term.univariate, Term.univariate, derivative_monomial, hdeg, herase]
  congr 1
  simp only [Term.derivative, map_mul, map_natCast]
  ring

theorem Poly.univariate_derivative (p : Poly σ R) :
    Poly.univariate x α (Poly.derivative x p) = Polynomial.derivative (Poly.univariate x α p) := by
  induction p with
  | nil => simp [Poly.derivative]
  | cons t p ih =>
    rw [Poly.univariate_cons, derivative_add, ← ih]
    by_cases h : 0 < monomialDegree x t.monomial
    · have hcons : Poly.derivative x (t :: p) = t.derivative x :: Poly.derivative x p := by
        simp [Poly.derivative, h]
      rw [hcons, Poly.univariate_cons, Term.univariate_derivative]
    · have hcons : Poly.derivative x (t :: p) = Poly.derivative x p := by
        simp [Poly.derivative, h]
      have hzero : monomialDegree x t.monomial = 0 := Nat.eq_zero_of_not_pos h
      rw [hcons, Term.univariate, hzero, derivative_monomial, Nat.cast_zero, mul_zero,
        Polynomial.monomial_zero_right, zero_add]

/-- A polynomial without the variable is constant in it. -/
theorem Poly.univariate_of_not_hasVariable {p : Poly σ R} (h : ¬ Poly.hasVariable x p) :
    Poly.univariate x α p = C (Poly.eval α p) := by
  have hdeg : Poly.maxDegree x p ≤ 0 := by
    refine (Poly.maxDegree_le_iff x).mpr fun t ht => ?_
    simpa using mt (fun hpos => any_eq_true.mpr ⟨t, ht, decide_eq_true hpos⟩) h
  have hnat := Nat.le_zero.mp ((Poly.natDegree_univariate_le x α p).trans hdeg)
  rw [eq_C_of_natDegree_eq_zero hnat]
  have heval := Poly.eval_univariate x α p (α x)
  rw [update_eq_self, eq_C_of_natDegree_eq_zero hnat, eval_C] at heval
  rw [heval]

theorem Poly.eval_update_of_not_hasVariable {p : Poly σ R} (h : ¬ Poly.hasVariable x p) (r : K) :
    Poly.eval (update α x r) p = Poly.eval α p := by
  rw [← Poly.eval_univariate, Poly.univariate_of_not_hasVariable x α h, eval_C]

end Univariate

/-- Differentiation lowers the degree. -/
theorem Poly.maxDegree_derivative_le [CommRing R] (x : σ) {p : Poly σ R} {n : ℕ}
    (h : Poly.maxDegree x p ≤ n + 1) : Poly.maxDegree x (Poly.derivative x p) ≤ n := by
  rw [Poly.maxDegree_le_iff] at h ⊢
  intro t ht
  obtain ⟨s, hs, rfl⟩ := mem_map.mp ht
  rw [Term.derivative, monomialDegree_cons, if_pos rfl, monomialDegree_erase, add_zero]
  exact Nat.sub_le_of_le_add (h s (mem_filter.mp hs).1)

end SparsePoly
