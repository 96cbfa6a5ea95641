import Smtrat.Math.Dominance
import Smtrat.STrop.STropModule

/-!
# Signed powers

The variables get powers of a base as values, with the signs and the exponents of a model of the
inner solver.  If the model satisfies the linearization of a polynomial, the polynomial has the sign
of the direction for all large bases.
-/

namespace Smtrat.STrop

open SparsePoly PropFormula Filter List

universe u

variable {V : Type u} (a : Assignment (InnerVariable V) V) (z : V → ℤ)

/-- The point for a base. -/
noncomputable def signedPower (n : ℝ) (x : V) : ℝ := signOf a x * n ^ z x

/-- The exponent of a monomial at the points. -/
def exponent (m : List (V × ℕ)) : ℤ := (m.map fun e => (e.2 : ℤ) * z e.1).sum

theorem monomialEval_signedPower {n : ℝ} (hn : n ≠ 0) (m : List (V × ℕ)) :
    monomialEval (signedPower a z n) m = monomialEval (signOf a) m * n ^ exponent z m := by
  induction m with
  | nil => simp [exponent]
  | cons e m ih =>
    have hexponent : exponent z (e :: m) = z e.1 * e.2 + exponent z m := by
      rw [exponent, map_cons, sum_cons, mul_comm]
      rfl
    rw [monomialEval_cons, monomialEval_cons, ih, hexponent, zpow_add₀ hn, signedPower, mul_pow,
      zpow_mul, zpow_natCast]
    ring

/-- The value of a polynomial is a sum of powers of the base. -/
theorem eval_signedPower (negated : Bool) {n : ℝ} (hn : n ≠ 0) (p : Poly V ℚ) :
    Dominance.value (variant a negated) (fun v => exponent z v.mMonomial) (vertices p) n =
      if negated then -Poly.eval (signedPower a z n) p else Poly.eval (signedPower a z n) p := by
  have hterm (c : ℚ) (m : List (V × ℕ)) (r : InnerVariable V) :
      variant a negated ⟨c, m, r⟩ * n ^ exponent z m =
        (if negated then -1 else 1) * Term.eval (signedPower a z n) ⟨c, m⟩ := by
    rw [variant, Term.eval, monomialEval_signedPower a z hn]
    cases negated <;> simp [mul_assoc]
  have hsum (ts : List (Term V ℚ)) (k : ℕ) :
      Dominance.value (variant a negated) (fun v => exponent z v.mMonomial)
        ((ts.zipIdx k).map fun q => ⟨q.1.coeff, q.1.monomial, .rating p q.2⟩) n =
        (if negated then -1 else 1) * Poly.eval (signedPower a z n) ts := by
    induction ts generalizing k with
    | nil => simp [Dominance.value]
    | cons t ts ih =>
      have ih := ih (k + 1)
      rw [Dominance.value] at ih ⊢
      rw [zipIdx_cons, map_cons, map_cons, sum_cons, ih, Poly.eval_cons, mul_add, hterm]
  rw [vertices, hsum]
  cases negated <;> simp

variable {a z} {s : ℝ} {p : Poly V ℚ}

/-- The exponents are those of the model up to a factor. -/
theorem degree_eq {m : List (V × ℕ)}
    (hz : ∀ e ∈ m, a.arith (.normalVector e.1) = s * z e.1) :
    degree a m = s * exponent z m := by
  induction m with
  | nil => simp [degree, exponent]
  | cons e m ih =>
    have ih := ih fun e he => hz e (mem_cons_of_mem _ he)
    rw [degree] at ih ⊢
    rw [exponent] at ih ⊢
    rw [map_cons, sum_cons, ih, hz e mem_cons_self, map_cons, sum_cons]
    push_cast
    ring

theorem mem_vertices {v : Vertex V} (hv : v ∈ vertices p) : ⟨v.mCoefficient, v.mMonomial⟩ ∈ p := by
  obtain ⟨⟨t, i⟩, ht, rfl⟩ := mem_map.mp hv
  exact fst_mem_of_mem_zipIdx ht

/-- A model of a separator gives the polynomial, or the negated one, positive values. -/
theorem eventually_pos_of_separator (pool : LinearPool V) (type : SeparatorType) (negated : Bool)
    (hs : 0 < s) (hp : ∀ t ∈ p, t.coeff ≠ 0)
    (hz : ∀ x ∈ Poly.variables p, a.arith (.normalVector x) = s * z x)
    (h : a.Satisfies (createSeparator pool type p negated)) :
    ∀ᶠ n : ℕ in atTop, 0 < if negated then -Poly.eval (signedPower a z n) p
      else Poly.eval (signedPower a z n) p := by
  have hcoeff (v : Vertex V) (hv : v ∈ vertices p) : v.mCoefficient ≠ 0 := hp _ (mem_vertices hv)
  have hheight (v : Vertex V) (hv : v ∈ vertices p) :
      height a p v.mMonomial = a.arith (.bias p) + s * (exponent z v.mMonomial : ℤ) := by
    rw [height, degree_eq fun e he => hz e.1 ?_]
    exact Poly.mem_variables.mpr ⟨_, mem_vertices hv, e.2, he⟩
  have hne (v : Vertex V) (hv : v ∈ vertices p) := variant_ne_zero a negated (hcoeff v hv)
  obtain ⟨⟨w, hw, hwpos, habove⟩, hbelow, hrating⟩ :=
    separates_of_satisfies a p negated pool type hcoeff h
  have hpos : ∀ᶠ n : ℕ in atTop, 0 < Dominance.value (variant a negated)
      (fun v => exponent z v.mMonomial) (vertices p) (n : ℝ) := by
    cases type with
    | strict =>
      refine Dominance.eventually_pos_of_strict (b := a.arith (.bias p)) hs hne
        ⟨w, hw, hwpos, ?_⟩ fun v hv hneg => ?_
      · rw [← hheight w hw]
        simpa using habove
      · rw [← hheight v hv]
        simpa using hbelow v hv hneg
    | weak =>
      obtain ⟨hrate, hsum⟩ := hrating rfl
      refine Dominance.eventually_pos_of_weak (b := a.arith (.bias p))
        (r := fun v => a.arith v.mRating) hs hne ⟨w, hw, hwpos, ?_⟩ (fun v hv hneg => ?_) (fun v hv hlt => ?_) (fun v hv heq => ?_) hsum
      · rw [← hheight w hw]
        simpa using habove
      · rw [← hheight v hv]
        simpa using hbelow v hv hneg
      · exact (hrate v hv).1 (by rwa [hheight v hv])
      · exact (hrate v hv).2 (by rwa [hheight v hv])
  filter_upwards [hpos, eventually_ge_atTop 1] with n hn hone
  have hcast : (n : ℝ) ≠ 0 := Nat.cast_ne_zero.mpr (by omega)
  rwa [eval_signedPower a z negated hcast] at hn

/-- The relations that hold of the values a direction leads to. -/
def Direction.Supports : Direction → Relation → Prop
  | .negative, r => r = .neq ∨ r = .less ∨ r = .leq
  | .positive, r => r = .neq ∨ r = .greater ∨ r = .geq
  | .both, r => r = .neq

instance (d : Direction) (r : Relation) : Decidable (d.Supports r) := by
  unfold Direction.Supports
  cases d <;> infer_instance

/-- A model of a linearization makes every relation its direction supports true. -/
theorem eventually_evaluate (pool : LinearPool V) (type : SeparatorType) {d : Direction}
    {r : Relation} (hr : d.Supports r) (hs : 0 < s) (hp : ∀ t ∈ p, t.coeff ≠ 0)
    (hz : ∀ x ∈ Poly.variables p, a.arith (.normalVector x) = s * z x)
    (h : a.Satisfies (createLinearization pool type p d)) :
    ∀ᶠ n : ℕ in atTop, r.evaluate (Poly.eval (signedPower a z n) p) 0 := by
  have hpos := eventually_pos_of_separator pool type false hs hp hz
  have hneg := eventually_pos_of_separator pool type true hs hp hz
  cases d with
  | negative =>
    filter_upwards [hneg h] with n hn
    have hn : Poly.eval (signedPower a z n) p < 0 := by simpa using hn
    rcases hr with rfl | rfl | rfl
    · exact hn.ne
    · exact hn
    · exact hn.le
  | positive =>
    filter_upwards [hpos h] with n hn
    have hn : 0 < Poly.eval (signedPower a z n) p := by simpa using hn
    rcases hr with rfl | rfl | rfl
    · exact hn.ne'
    · exact hn
    · exact hn.le
  | both =>
    rw [createLinearization, satisfies_create, satisfies_app_xor] at h
    obtain rfl : r = .neq := hr
    rcases h with ⟨h, -⟩ | ⟨h, -⟩
    · filter_upwards [hpos h] with n hn
      have hn : 0 < Poly.eval (signedPower a z n) p := by simpa using hn
      exact hn.ne'
    · filter_upwards [hneg h] with n hn
      have hn : Poly.eval (signedPower a z n) p < 0 := by simpa using hn
      exact hn.ne

end Smtrat.STrop
