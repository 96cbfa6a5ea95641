import Mathlib

/-!
# Sparse multivariate polynomials as lists of terms

A polynomial over the variables `σ` with coefficients in `R` is a list of terms, each a
coefficient and a list of powers.  Nothing here is kept in normal form: two lists may denote
the same polynomial, and every result is about the value `Poly.eval`, which does not see the
difference.  What the rest of the development uses is that the operations are computable, that
evaluation is a ring homomorphism, and that a polynomial of degree at most one in `x` splits
as `c₁ * x + c₀` with coefficients that do not mention `x` (`Poly.eval_linear`).
-/

namespace SparsePoly
open List

universe u v w

variable {σ : Type u} {R : Type v} {K : Type w}

/-- A coefficient together with a list of powers `x ^ k`. -/
structure Term (σ : Type u) (R : Type v) where
  /-- The coefficient. -/
  coeff : R
  /-- The powers, multiplied together. -/
  monomial : List (σ × ℕ)
deriving DecidableEq, Repr

/-- A polynomial is the sum of its terms. -/
abbrev Poly (σ : Type u) (R : Type v) := List (Term σ R)

instance Poly.lawfulBEq [DecidableEq σ] [DecidableEq R] : LawfulBEq (Poly σ R) := inferInstance

/-! ## Values -/

section Eval

variable [CommRing R] [CommRing K] [Algebra R K] (α : σ → K)

/-- The value of a list of powers. -/
def monomialEval (m : List (σ × ℕ)) : K := (m.map fun p => α p.1 ^ p.2).prod

def Term.eval (t : Term σ R) : K := algebraMap R K t.coeff * monomialEval α t.monomial

def Poly.eval (p : Poly σ R) : K := (p.map (Term.eval α)).sum

@[simp] theorem monomialEval_nil : monomialEval α [] = 1 := rfl

@[simp] theorem monomialEval_cons (p : σ × ℕ) (m : List (σ × ℕ)) :
    monomialEval α (p :: m) = α p.1 ^ p.2 * monomialEval α m := by
  simp [monomialEval]

@[simp] theorem monomialEval_append (m n : List (σ × ℕ)) :
    monomialEval α (m ++ n) = monomialEval α m * monomialEval α n := by
  simp [monomialEval]

@[simp] theorem Poly.eval_nil : Poly.eval α ([] : Poly σ R) = 0 := rfl

@[simp] theorem Poly.eval_cons (t : Term σ R) (p : Poly σ R) :
    Poly.eval α (t :: p) = t.eval α + Poly.eval α p := by
  simp [Poly.eval]

@[simp] theorem Poly.eval_append (p q : Poly σ R) :
    Poly.eval α (p ++ q) = Poly.eval α p + Poly.eval α q := by
  simp [Poly.eval]

end Eval

/-! ## Variables -/

/-- The variables that have a power in some term. -/
def Poly.variables (p : Poly σ R) : List σ := p.flatMap fun t => t.monomial.map (·.1)

theorem Poly.mem_variables {x : σ} {p : Poly σ R} :
    x ∈ Poly.variables p ↔ ∃ t ∈ p, ∃ k, (x, k) ∈ t.monomial := by
  simp [Poly.variables]

section Congr

variable [CommRing R] [CommRing K] [Algebra R K] {α β : σ → K}

theorem monomialEval_congr {m : List (σ × ℕ)} (h : ∀ p ∈ m, α p.1 = β p.1) :
    monomialEval α m = monomialEval β m := by
  unfold monomialEval
  refine congrArg List.prod (map_congr_left fun p hp => ?_)
  rw [h p hp]

/-- The value of a polynomial depends on its variables only. -/
theorem Poly.eval_congr {p : Poly σ R} (h : ∀ x ∈ Poly.variables p, α x = β x) :
    Poly.eval α p = Poly.eval β p := by
  unfold Poly.eval
  refine congrArg List.sum (map_congr_left fun t ht => ?_)
  rw [Term.eval, Term.eval, monomialEval_congr fun p hp => h p.1 ?_]
  exact Poly.mem_variables.mpr ⟨t, ht, p.2, hp⟩

end Congr

/-- At a point with coefficients as coordinates, the value is one of them. -/
theorem Poly.eval_algebraMap [CommRing R] [CommRing K] [Algebra R K] (α : σ → R) (p : Poly σ R) :
    Poly.eval (fun x => algebraMap R K (α x)) p = algebraMap R K (Poly.eval α p) := by
  have hmonomial (m : List (σ × ℕ)) :
      monomialEval (fun x => algebraMap R K (α x)) m = algebraMap R K (monomialEval α m) := by
    induction m with
    | nil => simp
    | cons e m ih => simp [ih]
  induction p with
  | nil => simp
  | cons t p ih => simp [ih, Term.eval, hmonomial]

/-! ## Ring operations -/

section Ring

variable [CommRing R]

def Poly.const (r : R) : Poly σ R := [⟨r, []⟩]

def Poly.var (x : σ) : Poly σ R := [⟨1, [(x, 1)]⟩]

variable (p : Poly σ R)

def Poly.neg : Poly σ R := p.map fun t => ⟨-t.coeff, t.monomial⟩

variable (q : Poly σ R)

def Poly.add : Poly σ R := p ++ q

def Poly.sub : Poly σ R := p ++ Poly.neg q

/-- The product with a single term. -/
def Poly.mulTerm (t : Term σ R) (q : Poly σ R) : Poly σ R :=
  q.map fun s => ⟨t.coeff * s.coeff, t.monomial ++ s.monomial⟩

def Poly.mul : Poly σ R := p.flatMap fun t => Poly.mulTerm t q

variable [CommRing K] [Algebra R K] (α : σ → K)

@[simp] theorem Poly.eval_const (r : R) :
    Poly.eval α (Poly.const r : Poly σ R) = algebraMap R K r := by
  simp [Poly.const, Term.eval]

@[simp] theorem Poly.eval_var (x : σ) : Poly.eval α (Poly.var x : Poly σ R) = α x := by
  simp [Poly.var, Term.eval]

@[simp] theorem Poly.eval_neg : Poly.eval α (Poly.neg p) = -Poly.eval α p := by
  induction p with
  | nil => simp [Poly.neg]
  | cons t p ih =>
    have hcons : Poly.neg (t :: p) = ⟨-t.coeff, t.monomial⟩ :: Poly.neg p := rfl
    rw [hcons, Poly.eval_cons, Poly.eval_cons, ih]
    simp only [Term.eval, map_neg]
    ring

@[simp] theorem Poly.eval_add :
    Poly.eval α (Poly.add p q) = Poly.eval α p + Poly.eval α q := Poly.eval_append α p q

@[simp] theorem Poly.eval_sub : Poly.eval α (Poly.sub p q) = Poly.eval α p - Poly.eval α q := by
  rw [Poly.sub, Poly.eval_append, Poly.eval_neg, sub_eq_add_neg]

theorem Poly.eval_mulTerm (t : Term σ R) (q : Poly σ R) :
    Poly.eval α (Poly.mulTerm t q) = t.eval α * Poly.eval α q := by
  induction q with
  | nil => simp [Poly.mulTerm]
  | cons s q ih =>
    have hcons : Poly.mulTerm t (s :: q) =
        ⟨t.coeff * s.coeff, t.monomial ++ s.monomial⟩ :: Poly.mulTerm t q := rfl
    rw [hcons, Poly.eval_cons, Poly.eval_cons, ih]
    simp only [Term.eval, map_mul, monomialEval_append]
    ring

@[simp] theorem Poly.eval_mul : Poly.eval α (Poly.mul p q) = Poly.eval α p * Poly.eval α q := by
  induction p with
  | nil => simp [Poly.mul]
  | cons t p ih =>
    have hcons : Poly.mul (t :: p) q = Poly.mulTerm t q ++ Poly.mul p q := by
      simp [Poly.mul]
    rw [hcons, Poly.eval_append, Poly.eval_mulTerm, ih, Poly.eval_cons, add_mul]

end Ring

/-! ## Degrees and coefficients in one variable -/

section Degree

variable [DecidableEq σ] (x : σ)

/-- The exponent of `x` in a list of powers. -/
def monomialDegree (m : List (σ × ℕ)) : ℕ :=
  (m.map fun p => if p.1 = x then p.2 else 0).sum

/-- The list of powers without those of `x`. -/
def monomialErase (m : List (σ × ℕ)) : List (σ × ℕ) := m.filter fun p => p.1 ≠ x

def Poly.maxDegree (p : Poly σ R) : ℕ :=
  (p.map fun t => monomialDegree x t.monomial).foldr max 0

def Poly.hasVariable (p : Poly σ R) : Bool :=
  p.any fun t => 0 < monomialDegree x t.monomial

/-- The coefficient of `x ^ k`, a polynomial without `x`. -/
def Poly.coefficient (k : ℕ) (p : Poly σ R) : Poly σ R :=
  (p.filter fun t => monomialDegree x t.monomial = k).map
    fun t => ⟨t.coeff, monomialErase x t.monomial⟩

theorem Poly.maxDegree_cons (t : Term σ R) (p : Poly σ R) :
    Poly.maxDegree x (t :: p) = max (monomialDegree x t.monomial) (Poly.maxDegree x p) := rfl

theorem Poly.mem_variables_coefficient {x y : σ} {k : ℕ} {p : Poly σ R}
    (h : y ∈ Poly.variables (Poly.coefficient x k p)) : y ∈ Poly.variables p ∧ y ≠ x := by
  obtain ⟨t, ht, n, hn⟩ := Poly.mem_variables.mp h
  obtain ⟨s, hs, rfl⟩ := mem_map.mp ht
  obtain ⟨hmem, hne⟩ := mem_filter.mp hn
  exact ⟨Poly.mem_variables.mpr ⟨s, (mem_filter.mp hs).1, n, hmem⟩, of_decide_eq_true hne⟩

theorem Poly.coefficient_cons (k : ℕ) (t : Term σ R) (p : Poly σ R) :
    Poly.coefficient x k (t :: p) = if monomialDegree x t.monomial = k then
      ⟨t.coeff, monomialErase x t.monomial⟩ :: Poly.coefficient x k p
      else Poly.coefficient x k p := by
  unfold Poly.coefficient
  by_cases h : monomialDegree x t.monomial = k <;> simp [h]

variable [CommRing R] [CommRing K] [Algebra R K]

theorem monomialEval_split (α : σ → K) (x : σ) (m : List (σ × ℕ)) :
    monomialEval α m = monomialEval α (monomialErase x m) * α x ^ monomialDegree x m := by
  induction m with
  | nil => simp [monomialErase, monomialDegree]
  | cons p m ih =>
    have ih' : monomialEval α m = monomialEval α (m.filter fun p => p.1 ≠ x) *
        α x ^ (m.map fun p => if p.1 = x then p.2 else 0).sum := ih
    by_cases h : p.1 = x
    · simp only [monomialErase, monomialDegree, map_cons, sum_cons, h, if_true,
        monomialEval_cons, filter_cons, ne_eq, not_true_eq_false, decide_false,
        Bool.false_eq_true, if_false, pow_add]
      rw [ih']
      simp only [ne_eq]
      ring
    · simp only [monomialErase, monomialDegree, map_cons, sum_cons, h, if_false,
        zero_add, monomialEval_cons, filter_cons, ne_eq, not_false_eq_true, decide_true,
        if_true]
      rw [ih']
      simp only [ne_eq]
      ring

/-- Values of `x`-free lists of powers do not depend on the value of `x`. -/
theorem monomialEval_erase_congr {α β : σ → K} {x : σ} (h : ∀ y, y ≠ x → α y = β y)
    (m : List (σ × ℕ)) :
    monomialEval α (monomialErase x m) = monomialEval β (monomialErase x m) := by
  unfold monomialEval monomialErase
  congr 1
  refine map_congr_left fun p hp => ?_
  have hne : p.1 ≠ x := by simpa using (mem_filter.mp hp).2
  rw [h p.1 hne]

theorem Poly.eval_coefficient_congr {α β : σ → K} {x : σ} (h : ∀ y, y ≠ x → α y = β y)
    (k : ℕ) (p : Poly σ R) :
    Poly.eval α (Poly.coefficient x k p) = Poly.eval β (Poly.coefficient x k p) := by
  unfold Poly.eval Poly.coefficient
  rw [map_map, map_map]
  congr 1
  refine map_congr_left fun t _ => ?_
  simp only [Function.comp_apply, Term.eval, monomialEval_erase_congr h]

/-- A polynomial of degree at most one in `x` is `c₁ * x + c₀`. -/
theorem Poly.eval_linear (α : σ → K) (x : σ) (p : Poly σ R) (h : Poly.maxDegree x p ≤ 1) :
    Poly.eval α p = Poly.eval α (Poly.coefficient x 1 p) * α x +
      Poly.eval α (Poly.coefficient x 0 p) := by
  induction p with
  | nil => simp [Poly.coefficient]
  | cons t p ih =>
    rw [Poly.maxDegree_cons, max_le_iff] at h
    have ht := monomialEval_split α x t.monomial
    rw [Poly.eval_cons, ih h.2, Poly.coefficient_cons, Poly.coefficient_cons]
    rcases Nat.le_one_iff_eq_zero_or_eq_one.mp h.1 with hd | hd
    · simp only [hd, if_neg (zero_ne_one' ℕ), if_true, Poly.eval_cons, Term.eval]
      rw [ht, hd]
      ring
    · simp only [hd, if_neg (one_ne_zero' ℕ), if_true, Poly.eval_cons, Term.eval]
      rw [ht, hd]
      ring

end Degree

end SparsePoly
