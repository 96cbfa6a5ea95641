import Smtrat.Math.PolynomialSign
import Smtrat.VS.SubstituteNormal

/-!
# Substitution of infinitesimals and infinite values

A polynomial has the sign of its first derivative that does not vanish to the right of a point, and
the sign of its leading coefficient towards infinity.  Towards plus infinity the parity of the
degree is of no importance, but the cases for it regard it.
-/

namespace Smtrat.VS

open SparsePoly PolynomialSign Filter Topology List Function

universe u

variable {V : Type u} {α : V → ℝ}

/-! ## Combinations -/

theorem holds_combinations (ds : List (DisjunctionOfConstraintConjunctions V)) :
    Holds α (combinations ds) ↔ ∀ d ∈ ds, Holds α d := by
  induction ds with
  | nil => simp [combinations]
  | cons d ds ih =>
    rw [List.forall_mem_cons, ← ih, combinations]
    simp only [Holds, List.mem_flatMap, List.mem_map]
    constructor
    · rintro ⟨_, ⟨rest, hrest, conj, hconj, rfl⟩, h⟩
      exact ⟨⟨conj, hconj, fun c hc => h c (List.mem_append_left _ hc)⟩,
        rest, hrest, fun c hc => h c (List.mem_append_right _ hc)⟩
    · rintro ⟨⟨conj, hconj, h⟩, rest, hrest, h'⟩
      exact ⟨_, ⟨rest, hrest, conj, hconj, rfl⟩, fun c hc =>
        (List.mem_append.mp hc).elim (h c) (h' c)⟩

theorem estimate_eq_false {n : Nat} {ds : List (DisjunctionOfConstraintConjunctions V)}
    (h : estimate n ds = some false) : [] ∈ ds := by
  induction ds generalizing n with
  | nil => cases h
  | cons d ds ih =>
    rw [estimate] at h
    split_ifs at h with hempty
    · rw [List.isEmpty_iff.mp hempty]
      exact mem_cons_self
    · dsimp only at h
      split_ifs at h
      exact mem_cons_of_mem d (ih h)

variable {result : DisjunctionOfConstraintConjunctions V}

theorem holds_combine {ds : List (DisjunctionOfConstraintConjunctions V)} (hds : ds ≠ [])
    (h : (combine ds result).1 = true) :
    Holds α (combine ds result).2 ↔ Holds α result ∨ ∀ d ∈ ds, Holds α d := by
  rw [combine, if_neg (by simpa using hds)] at h ⊢
  cases hest : estimate 1 ds with
  | none => rw [hest] at h; cases h
  | some b =>
    cases b with
    | false =>
      have hempty : ¬ ∀ d ∈ ds, Holds α d :=
        fun hall => not_holds_nil (hall [] (estimate_eq_false hest))
      exact (or_iff_left hempty).symm
    | true =>
      dsimp only
      rw [holds_append, holds_combinations]

/-! ## Derivatives -/

/-- The polynomial meets the relation along the filter. -/
def Along (l : Filter ℝ) (relation : Relation) (P : Polynomial ℝ) : Prop :=
  ∀ᶠ y in l, relation.evaluate (P.eval y) 0

/-- The polynomial meets the relation to the right of the value. -/
def RightOf (relation : Relation) (P : Polynomial ℝ) (t : ℝ) : Prop := Along (𝓝[>] t) relation P

variable {P : Polynomial ℝ}

theorem rightOf_iff {relation : Relation} (hrel : relation = .less ∨ relation = .greater) {t : ℝ} :
    RightOf relation P t ↔
      relation.evaluate (P.eval t) 0 ∨ P.eval t = 0 ∧ RightOf relation P.derivative t := by
  rcases hrel with rfl | rfl
  · exact eventually_neg_right_iff
  · exact eventually_pos_right_iff

theorem not_rightOf_zero {relation : Relation} (hrel : relation = .less ∨ relation = .greater)
    (t : ℝ) : ¬ RightOf relation 0 t := by
  intro h
  obtain ⟨y, hy⟩ := Eventually.exists h
  rcases hrel with rfl | rfl <;> simp [Relation.evaluate] at hy

/-- The polynomial is constant, so that its derivative adds no case. -/
theorem or_rightOf_iff {relation : Relation} (hrel : relation = .less ∨ relation = .greater)
    (hzero : P.derivative = 0) (t : ℝ) (a b : Prop) :
    a ↔ a ∨ b ∧ P.eval t = 0 ∧ RightOf relation P.derivative t := by
  rw [hzero]
  exact (or_iff_left fun hcase => not_rightOf_zero hrel t hcase.2.2).symm

/-- The cases that end with a derivative and the cases after it. -/
theorem or_next_iff {a b c d e f : Prop} :
    (a ∨ b ∧ c ∧ d) ∨ (b ∧ c) ∧ e ∧ f ↔ a ∨ b ∧ c ∧ (d ∨ e ∧ f) := by
  constructor
  · rintro ((ha | ⟨hb, hc, hd⟩) | ⟨⟨hb, hc⟩, hnext⟩)
    · exact .inl ha
    · exact .inr ⟨hb, hc, .inl hd⟩
    · exact .inr ⟨hb, hc, .inr hnext⟩
  · rintro (ha | ⟨hb, hc, hd | hnext⟩)
    · exact .inl (.inl ha)
    · exact .inl (.inr ⟨hb, hc, hd⟩)
    · exact .inr ⟨⟨hb, hc⟩, hnext⟩

variable {p : Poly V ℚ}

section Derivatives

variable [DecidableEq V] (lib : PolynomialLibrary V) {x : V} {term : SqrtEx V}
  {relation : Relation} {accordingPaper : Bool}

/-- No substitution in a derivative goes wrong. -/
def FaithfulDerivatives (α : V → ℝ) (p : Poly V ℚ) (x : V) (term : SqrtEx V) (relation : Relation)
    (accordingPaper : Bool) : Prop :=
  ∀ i, Faithful lib α (lib.constraint ((Poly.derivative x)^[i] p) .eq) x term accordingPaper ∧
    Faithful lib α (lib.constraint ((Poly.derivative x)^[i] p) relation) x term accordingPaper

variable (hterm : term.Defined α)

include hterm

theorem holds_substitute_derivative {r : Relation}
    (hfaith : Faithful lib α (lib.constraint p r) x term accordingPaper)
    (h : (substituteNormal lib (lib.constraint p r) x term [] accordingPaper).1 = true) :
    Holds α (substituteNormal lib (lib.constraint p r) x term [] accordingPaper).2 ↔
      r.evaluate ((Poly.univariate x α p).eval (term.value α)) 0 := by
  rw [(substituteNormal_exact_iff lib hterm h).mpr hfaith, lib.sat_constraint, Poly.eval_univariate]

theorem holds_substituteDerivatives (hrel : relation = .less ∨ relation = .greater) (n : Nat)
    {deriv : Poly V ℚ} (hdeg : Poly.maxDegree x deriv ≤ n)
    (hfaith : FaithfulDerivatives lib α deriv x term relation accordingPaper)
    {equations : List (DisjunctionOfConstraintConjunctions V)}
    (h : (substituteDerivatives lib x term relation accordingPaper n deriv equations result).1
      = true) :
    Holds α (substituteDerivatives lib x term relation accordingPaper n deriv equations result).2 ↔
      Holds α result ∨ (∀ d ∈ equations, Holds α d) ∧
        (Poly.univariate x α deriv).eval (term.value α) = 0 ∧
        RightOf relation (Poly.univariate x α deriv).derivative (term.value α) := by
  induction n generalizing deriv equations result with
  | zero =>
    refine or_rightOf_iff hrel (Polynomial.derivative_eq_zero.mpr ?_) _ _ _
    exact Nat.le_zero.mp ((Poly.natDegree_univariate_le x α deriv).trans hdeg)
  | succ n ih =>
    rw [substituteDerivatives] at h ⊢
    dsimp only at h ⊢
    split_ifs at h ⊢ with hvar heqn hineq hcombined
    · rw [Bool.not_eq_true', Bool.not_eq_false] at heqn hineq hcombined
      have hzero := holds_substitute_derivative lib hterm (hfaith 0).1 heqn
      have hnext := holds_substitute_derivative lib hterm (hfaith 1).2 hineq
      have hright : RightOf relation (Poly.univariate x α deriv).derivative (term.value α) ↔ _ :=
        rightOf_iff hrel
      have hne : equations ++ [(substituteNormal lib (lib.constraint deriv .eq) x term []
          accordingPaper).2, (substituteNormal lib (lib.constraint (Poly.derivative x deriv)
          relation) x term [] accordingPaper).2] ≠ [] := by simp
      rw [ih (Poly.maxDegree_derivative_le x hdeg) (fun i => hfaith (i + 1)) h, holds_simplify,
        holds_combine hne hcombined, hright, forall_mem_append, forall_mem_append,
        List.forall_mem_cons, forall_mem_singleton, forall_mem_singleton]
      simp only [iterate_zero, iterate_one, id] at hzero hnext
      rw [hzero, hnext, Poly.univariate_derivative]
      exact or_next_iff
    · rw [Poly.univariate_of_not_hasVariable x α hvar]
      exact or_rightOf_iff hrel Polynomial.derivative_C _ _ _

theorem holds_substituteEpsGradients (hrel : relation = .less ∨ relation = .greater)
    (hfaith : FaithfulDerivatives lib α p x term relation accordingPaper)
    (h : (substituteEpsGradients lib p x term relation result accordingPaper).1 = true) :
    Holds α (substituteEpsGradients lib p x term relation result accordingPaper).2 ↔
      Holds α result ∨ RightOf relation (Poly.univariate x α p) (term.value α) := by
  rw [substituteEpsGradients] at h ⊢
  split_ifs at h ⊢ with hfst
  · rw [h] at hfst
    cases hfst
  · rw [Bool.not_eq_true', Bool.not_eq_false] at hfst
    have hcons : Faithful lib α (lib.constraint p relation) x term accordingPaper := (hfaith 0).2
    rw [holds_substituteDerivatives lib hterm hrel _ le_rfl hfaith h,
      holds_substituteNormal_of_faithful lib hterm result hcons hfst,
      lib.sat_constraint, rightOf_iff hrel (P := Poly.univariate x α p), Poly.eval_univariate,
      or_assoc, and_iff_right (fun _ hd => absurd hd not_mem_nil)]

end Derivatives

/-! ## Trivial cases -/

section Trivial

variable [DecidableEq V] (lib : PolynomialLibrary V) {x : V}

theorem univariate_eq_zero_iff : Poly.univariate x α p = 0 ↔
    ∀ i ∈ List.range (Poly.maxDegree x p + 1), Poly.eval α (Poly.coefficient x i p) = 0 := by
  constructor
  · intro h i _
    rw [← Poly.coeff_univariate, h, Polynomial.coeff_zero]
  · intro h
    ext i
    rw [Polynomial.coeff_zero, Poly.coeff_univariate]
    by_cases hi : i ≤ Poly.maxDegree x p
    · exact h i (mem_range.mpr (Nat.lt_succ_of_le hi))
    · rw [← Poly.coeff_univariate]
      exact Polynomial.coeff_eq_zero_of_natDegree_lt
        ((Poly.natDegree_univariate_le x α p).trans_lt (not_le.mp hi))

theorem holds_substituteTrivialCase (p : Poly V ℚ) :
    (∀ c ∈ substituteTrivialCase lib p x, c.Sat α) ↔ Poly.univariate x α p = 0 := by
  rw [univariate_eq_zero_iff, substituteTrivialCase, forall_mem_map]
  simp only [lib.sat_constraint]
  rfl

theorem holds_substituteNotTrivialCase (p : Poly V ℚ) :
    Holds α (substituteNotTrivialCase lib p x) ↔ Poly.univariate x α p ≠ 0 := by
  rw [ne_eq, univariate_eq_zero_iff, substituteNotTrivialCase, Holds]
  simp [lib.sat_constraint, Relation.evaluate]

end Trivial

variable {l : Filter ℝ}

theorem along_eq_iff (hl : Decides l) : Along l .eq P ↔ P = 0 := hl.eventually_eq_iff

theorem along_neq_iff (hl : Decides l) : Along l .neq P ↔ P ≠ 0 := hl.eventually_ne_iff

theorem along_leq_iff (hl : Decides l) :
    Along l .leq P ↔ P = 0 ∨ Along l .less P := hl.eventually_le_iff

theorem along_geq_iff (hl : Decides l) :
    Along l .geq P ↔ P = 0 ∨ Along l .greater P := hl.eventually_ge_iff

/-- A constraint without the variable is met along any filter. -/
theorem along_of_not_hasVariable [DecidableEq V] [l.NeBot] {c : Constraint V} {x : V}
    (h : ¬ Poly.hasVariable x c.lhs) :
    Along l c.relation (Poly.univariate x α c.lhs) ↔ c.Sat α := by
  rw [Along, Poly.univariate_of_not_hasVariable x α h]
  simp only [Polynomial.eval_C, eventually_const]
  rfl

/-! ## Infinitesimals -/

section PlusEps

variable [DecidableEq V] (lib : PolynomialLibrary V) {x : V} {term : SqrtEx V}
  (hterm : term.Defined α) {accordingPaper : Bool} {c : Constraint V}

include hterm

/-- The strict relation that the gradients are compared with. -/
def gradientRelation : Relation → Relation
  | .less | .leq => .less
  | .greater | .geq => .greater
  | r => r

theorem holds_substitutePlusEps (hconst : isConstant c.lhs = false)
    (hfaith : c.relation ≠ .eq → c.relation ≠ .neq →
      FaithfulDerivatives lib α c.lhs x term (gradientRelation c.relation) accordingPaper)
    (h : (substitutePlusEps lib (.proper c) x term [] accordingPaper).1 = true) :
    Holds α (substitutePlusEps lib (.proper c) x term [] accordingPaper).2 ↔
      RightOf c.relation (Poly.univariate x α c.lhs) (term.value α) := by
  have hl := decides_right (term.value α)
  rw [substitutePlusEps, hconst, if_neg Bool.false_ne_true] at h ⊢
  split_ifs at h ⊢ with hvar
  · dsimp only at h ⊢
    rw [holds_simplify]
    cases hrel : c.relation with
    | eq =>
      rw [RightOf, along_eq_iff hl, ← holds_substituteTrivialCase lib]
      simp
    | neq =>
      rw [RightOf, along_neq_iff hl, ← holds_substituteNotTrivialCase lib]
      simp
    | less =>
      simp only [hrel] at h hfaith ⊢
      rw [holds_substituteEpsGradients lib hterm (.inl rfl) (hfaith (by decide) (by decide)) h,
        or_iff_right not_holds_nil]
    | greater =>
      simp only [hrel] at h hfaith ⊢
      rw [holds_substituteEpsGradients lib hterm (.inr rfl) (hfaith (by decide) (by decide)) h,
        or_iff_right not_holds_nil]
    | leq =>
      simp only [hrel] at h hfaith ⊢
      rw [holds_substituteEpsGradients lib hterm (.inl rfl) (hfaith (by decide) (by decide)) h, RightOf,
        RightOf, along_leq_iff hl, ← holds_substituteTrivialCase lib]
      simp
    | geq =>
      simp only [hrel] at h hfaith ⊢
      rw [holds_substituteEpsGradients lib hterm (.inr rfl) (hfaith (by decide) (by decide)) h, RightOf,
        RightOf, along_geq_iff hl, ← holds_substituteTrivialCase lib]
      simp
  · rw [RightOf, along_of_not_hasVariable hvar]
    simp [ConstraintT.Sat]

end PlusEps

end Smtrat.VS
