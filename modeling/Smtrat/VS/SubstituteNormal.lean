import Smtrat.Math.SquareRootSigns
import Smtrat.VS.Substitute

/-!
# Substitution of square root terms

The cases for a term are exact, except for the disequation according to the paper: it asks for a
positive product of `q` and `r` and for different squares, where one of them is enough.
-/

namespace Smtrat.VS

open SparsePoly List Function

universe u

variable {V : Type u}

/-! ## Disjunctions -/

section Holds

variable {α : V → ℝ}

@[simp] theorem not_holds_nil : ¬ Holds α ([] : DisjunctionOfConstraintConjunctions V) := by
  rintro ⟨conj, h, -⟩
  cases h

@[simp] theorem holds_cons (conj : List (ConstraintT V))
    (d : DisjunctionOfConstraintConjunctions V) :
    Holds α (conj :: d) ↔ (∀ c ∈ conj, c.Sat α) ∨ Holds α d := by
  simp [Holds]

@[simp] theorem holds_append (d e : DisjunctionOfConstraintConjunctions V) :
    Holds α (d ++ e) ↔ Holds α d ∨ Holds α e := by
  induction d with
  | nil => simp
  | cons conj d ih => rw [cons_append, holds_cons, holds_cons, ih, or_assoc]

variable [DecidableEq V]

theorem simplifyConjunction_none {conj : List (ConstraintT V)}
    (h : simplifyConjunction conj = none) : ¬ ∀ c ∈ conj, c.Sat α := by
  intro hall
  rw [simplifyConjunction, ite_eq_left_iff] at h
  have hmem : .constant false ∈ conj := by
    by_contra hn
    cases h hn
  cases hall _ hmem

theorem simplifyConjunction_some {conj conj' : List (ConstraintT V)}
    (h : simplifyConjunction conj = some conj') :
    (∀ c ∈ conj', c.Sat α) ↔ ∀ c ∈ conj, c.Sat α := by
  rw [simplifyConjunction, Option.ite_none_left_eq_some] at h
  cases h.2
  constructor
  · intro hall c hc
    by_cases htrue : c = .constant true
    · rw [htrue]
      rfl
    · exact hall c (mem_filter.mpr ⟨hc, decide_eq_true htrue⟩)
  · exact fun hall c hc => hall c (mem_filter.mp hc).1

/-- Simplification keeps the truth value; empty conjunctions may be dropped if there is one already. -/
theorem holds_simplify_or (b : Bool) (d : DisjunctionOfConstraintConjunctions V) :
    b = true ∨ Holds α (simplify b d) ↔ b = true ∨ Holds α d := by
  induction d generalizing b with
  | nil => rfl
  | cons conj d ih =>
    rw [simplify, holds_cons]
    cases h : simplifyConjunction conj with
    | none =>
      dsimp only
      rw [ih, or_iff_right (simplifyConjunction_none h)]
    | some conj' =>
      rw [← simplifyConjunction_some h]
      cases conj' with
      | nil => cases b <;> simp
      | cons c conj' =>
        rw [holds_cons, or_left_comm, ih, or_left_comm]

@[simp] theorem holds_simplify (d : DisjunctionOfConstraintConjunctions V) :
    Holds α (simplify false d) ↔ Holds α d := by
  simpa using holds_simplify_or (α := α) false d

end Holds

/-! ## Square root terms -/

section Cases

theorem eval_squareDifference (α : V → ℝ) (radicand q r : Poly V ℚ) :
    Poly.eval α (squareDifference radicand q r) =
      Poly.eval α q ^ 2 - Poly.eval α r ^ 2 * Poly.eval α radicand := by
  rw [squareDifference, Poly.eval_sub, Poly.eval_mul, Poly.eval_mul, Poly.eval_mul]
  ring

variable [DecidableEq V] (lib : PolynomialLibrary V) {α : V → ℝ} {radicand q r s : Poly V ℚ}
  (result : DisjunctionOfConstraintConjunctions V) (accordingPaper : Bool)

/-- The value of the disequation according to the paper. -/
def PaperNeq (α : V → ℝ) (radicand q r : Poly V ℚ) : Prop :=
  0 < Poly.eval α q * Poly.eval α r ∧
    Poly.eval α q ^ 2 - Poly.eval α r ^ 2 * Poly.eval α radicand ≠ 0

theorem holds_sqrtNeq_paper (h : (substituteNormalSqrtNeq lib radicand q r result true).1 = true) :
    Holds α (substituteNormalSqrtNeq lib radicand q r result true).2 ↔
      Holds α result ∨ PaperNeq α radicand q r := by
  have hsize : ¬ tooManyTerms [q, r, radicand] := by
    intro hsize
    simp [substituteNormalSqrtNeq, hsize] at h
  rw [substituteNormalSqrtNeq, if_neg hsize]
  simp [lib.sat_constraint, Relation.evaluate, eval_squareDifference, PaperNeq]

variable (hd : 0 ≤ Poly.eval α radicand)

include hd

theorem holds_sqrtEq
    (h : (substituteNormalSqrtEq lib radicand q r result accordingPaper).1 = true) :
    Holds α (substituteNormalSqrtEq lib radicand q r result accordingPaper).2 ↔
      Holds α result ∨ Poly.eval α q + Poly.eval α r * √(Poly.eval α radicand) = 0 := by
  rw [substituteNormalSqrtEq] at h ⊢
  split_ifs at h ⊢
  · rw [SquareRootSigns.eq_zero_iff hd]
    simp [lib.sat_constraint, Relation.evaluate, eval_squareDifference]
  · rw [SquareRootSigns.eq_zero_iff_cases hd]
    simp [lib.sat_constraint, Relation.evaluate, eval_squareDifference]

theorem holds_sqrtNeq (h : (substituteNormalSqrtNeq lib radicand q r result false).1 = true) :
    Holds α (substituteNormalSqrtNeq lib radicand q r result false).2 ↔
      Holds α result ∨ Poly.eval α q + Poly.eval α r * √(Poly.eval α radicand) ≠ 0 := by
  have hsize : ¬ tooManyTerms [q, r, radicand] := by
    intro hsize
    simp [substituteNormalSqrtNeq, hsize] at h
  rw [substituteNormalSqrtNeq, if_neg hsize, SquareRootSigns.ne_zero_iff_cases hd]
  simp [lib.sat_constraint, Relation.evaluate, eval_squareDifference]

variable (hs : Poly.eval α s ≠ 0)

include hs

theorem holds_sqrtLess
    (h : (substituteNormalSqrtLess lib radicand q r s result accordingPaper).1 = true) :
    Holds α (substituteNormalSqrtLess lib radicand q r s result accordingPaper).2 ↔
      Holds α result ∨
        (Poly.eval α q + Poly.eval α r * √(Poly.eval α radicand)) / Poly.eval α s < 0 := by
  rw [substituteNormalSqrtLess] at h ⊢
  split_ifs at h ⊢
  · rw [SquareRootSigns.div_neg_iff hd hs]
    simp [lib.sat_constraint, Relation.evaluate, eval_squareDifference]
  · rw [SquareRootSigns.div_neg_iff_cases hd hs]
    simp [lib.sat_constraint, Relation.evaluate, eval_squareDifference]

theorem holds_sqrtLeq
    (h : (substituteNormalSqrtLeq lib radicand q r s result accordingPaper).1 = true) :
    Holds α (substituteNormalSqrtLeq lib radicand q r s result accordingPaper).2 ↔
      Holds α result ∨
        (Poly.eval α q + Poly.eval α r * √(Poly.eval α radicand)) / Poly.eval α s ≤ 0 := by
  rw [substituteNormalSqrtLeq] at h ⊢
  split_ifs at h ⊢
  · rw [SquareRootSigns.div_nonpos_iff hd hs]
    simp [lib.sat_constraint, Relation.evaluate, eval_squareDifference]
  · rw [SquareRootSigns.div_nonpos_iff_cases hd hs]
    simp [lib.sat_constraint, Relation.evaluate, eval_squareDifference]

end Cases

/-! ## Fractions -/

section Fraction

variable {q s : ℝ}

theorem evaluate_inverseRelation (r : Relation) (a b : ℝ) :
    (inverseRelation r).evaluate a b ↔ r.evaluate b a := by
  cases r <;> simp [inverseRelation, Relation.evaluate, eq_comm]

/-- A fraction with a positive denominator compares as its numerator. -/
theorem evaluate_div_of_pos (r : Relation) (hs : 0 < s) :
    r.evaluate (q / s) 0 ↔ r.evaluate q 0 := by
  cases r with
  | eq => simp [Relation.evaluate, hs.ne']
  | neq => simp [Relation.evaluate, hs.ne']
  | less => rw [Relation.evaluate, Relation.evaluate, div_lt_iff₀ hs, zero_mul]
  | leq => rw [Relation.evaluate, Relation.evaluate, div_le_iff₀ hs, zero_mul]
  | greater =>
    rw [Relation.evaluate, Relation.evaluate, gt_iff_lt, gt_iff_lt, lt_div_iff₀ hs, zero_mul]
  | geq =>
    rw [Relation.evaluate, Relation.evaluate, ge_iff_le, ge_iff_le, le_div_iff₀ hs, zero_mul]

theorem evaluate_neg (r : Relation) (a : ℝ) : r.evaluate (-a) 0 ↔ r.evaluate 0 a := by
  cases r <;> simp [Relation.evaluate, eq_comm]

theorem evaluate_div_of_neg (r : Relation) (hs : s < 0) :
    r.evaluate (q / s) 0 ↔ (inverseRelation r).evaluate q 0 := by
  have hdiv : q / s = -q / -s := (neg_div_neg_eq q s).symm
  rw [hdiv, evaluate_div_of_pos r (neg_pos.mpr hs), evaluate_neg, evaluate_inverseRelation]

end Fraction

section Normal

variable [DecidableEq V] (lib : PolynomialLibrary V) {α : V → ℝ} {sub : SqrtEx V}
  (hsub : sub.Defined α) {constantDenominator : Bool}
  (hpos : constantDenominator = true → 0 < Poly.eval α sub.denominator)

include hsub hpos

theorem holds_rationalCases (hsqrt : sub.hasSqrt = false) (relation : Relation) :
    Holds α (rationalCases lib relation sub constantDenominator) ↔
      relation.evaluate (sub.value α) 0 := by
  have hval : sub.value α = Poly.eval α sub.constantPart / Poly.eval α sub.denominator := by
    have hfac : sub.factor = [] := by
      simpa [SqrtEx.hasSqrt] using hsqrt
    rw [SqrtEx.value, hfac, Poly.eval_nil, zero_mul, add_zero]
  have hne := hsub.denominator_ne_zero
  rw [hval, rationalCases]
  split_ifs with hcases
  · rw [holds_cons, forall_mem_singleton, lib.sat_constraint, or_iff_left not_holds_nil]
    rcases hcases with rfl | rfl | hconst
    · simp [Relation.evaluate, hne]
    · simp [Relation.evaluate, hne]
    · exact (evaluate_div_of_pos relation (hpos hconst)).symm
  · simp only [holds_cons, forall_mem_cons, lib.sat_constraint]
    rcases lt_or_gt_of_ne hne with hs | hs
    · rw [evaluate_div_of_neg relation hs]
      simp [Relation.evaluate, hs, hs.not_gt]
    · rw [evaluate_div_of_pos relation hs]
      simp [Relation.evaluate, hs, hs.not_gt]

/-- The cases are exact unless the disequation is treated according to the paper. -/
theorem holds_sqrtCases {relation : Relation} {accordingPaper : Bool}
    (hcase : ¬ (accordingPaper = true ∧ relation = .neq))
    (result : DisjunctionOfConstraintConjunctions V)
    (h : (sqrtCases lib relation sub constantDenominator result accordingPaper).1 = true) :
    Holds α (sqrtCases lib relation sub constantDenominator result accordingPaper).2 ↔
      Holds α result ∨ relation.evaluate (sub.value α) 0 := by
  have hd := hsub.radicand_nonneg
  have hne := hsub.denominator_ne_zero
  -- The denominator of the cases has the sign of the denominator of the term.
  have hden : ∀ (r : Relation) (a : ℝ), r.evaluate (a / Poly.eval α sub.denominator) 0 ↔
      r.evaluate (a / Poly.eval α
        (if constantDenominator then SparsePoly.Poly.const 1 else sub.denominator)) 0 := by
    intro r a
    split_ifs with hconst
    · rw [evaluate_div_of_pos r (hpos hconst), Poly.eval_const, map_one, div_one]
    · rfl
  have hs : Poly.eval α
      (if constantDenominator then SparsePoly.Poly.const 1 else sub.denominator) ≠ 0 := by
    split_ifs
    · rw [Poly.eval_const, map_one]
      exact one_ne_zero
    · exact hne
  have hneg : Poly.eval α (SparsePoly.Poly.neg
      (if constantDenominator then SparsePoly.Poly.const 1 else sub.denominator)) ≠ 0 := by
    rw [Poly.eval_neg]
    exact neg_ne_zero.mpr hs
  rw [SqrtEx.value, hden]
  cases relation with
  | eq =>
    rw [Relation.evaluate, div_eq_zero_iff, or_iff_left hs]
    exact holds_sqrtEq lib result accordingPaper hd h
  | neq =>
    cases accordingPaper with
    | true => exact absurd ⟨rfl, rfl⟩ hcase
    | false =>
      rw [Relation.evaluate, div_ne_zero_iff, and_iff_left hs]
      exact holds_sqrtNeq lib result hd h
  | less => exact holds_sqrtLess lib result accordingPaper hd hs h
  | leq => exact holds_sqrtLeq lib result accordingPaper hd hs h
  | greater =>
    refine (holds_sqrtLess lib result accordingPaper hd hneg h).trans ?_
    rw [Poly.eval_neg, div_neg, neg_lt_zero]
    rfl
  | geq =>
    refine (holds_sqrtLeq lib result accordingPaper hd hneg h).trans ?_
    rw [Poly.eval_neg, div_neg, neg_nonpos]
    rfl

end Normal

/-! ## Constraints -/

section Substitute

variable [DecidableEq V] (lib : PolynomialLibrary V) {α : V → ℝ}

/-- The constraint is a disequation that is treated according to the paper. -/
def FollowsPaper (cons : ConstraintT V) (x : V) (term : SqrtEx V) (accordingPaper : Bool) : Prop :=
  ∃ c, cons = .proper c ∧ accordingPaper = true ∧ c.relation = .neq ∧ Poly.hasVariable x c.lhs ∧
    (lib.subBySqrtEx c.lhs x term).hasSqrt

theorem sat_update_of_not_hasVariable {c : Constraint V} {x : V}
    (h : ¬ Poly.hasVariable x c.lhs) (r : ℝ) : c.Sat (update α x r) ↔ c.Sat α := by
  rw [Constraint.Sat, Constraint.Sat, Poly.eval_update_of_not_hasVariable x α h]

variable {cons : ConstraintT V} {x : V} {term : SqrtEx V} (hterm : term.Defined α)
  (result : DisjunctionOfConstraintConjunctions V) {accordingPaper : Bool}

include hterm

theorem holds_substituteNormal (hcase : ¬ FollowsPaper lib cons x term accordingPaper)
    (h : (substituteNormal lib cons x term result accordingPaper).1 = true) :
    Holds α (substituteNormal lib cons x term result accordingPaper).2 ↔
      Holds α result ∨ cons.Sat (update α x (term.value α)) := by
  cases cons with
  | constant b => simp [substituteNormal, ConstraintT.Sat]
  | proper c =>
    rw [substituteNormal] at h ⊢
    split_ifs at h ⊢ with hvar hsize
    · have hsub := lib.subBySqrtEx_defined c.lhs x term α hterm
      have hpos : isConstant term.denominator = true →
          0 < Poly.eval α (lib.subBySqrtEx c.lhs x term).denominator :=
        lib.denominator_pos c.lhs x term α hterm
      have hsat : (ConstraintT.proper c).Sat (update α x (term.value α)) ↔
          c.relation.evaluate ((lib.subBySqrtEx c.lhs x term).value α) 0 := by
        rw [lib.subBySqrtEx_value c.lhs x term α hterm]
        rfl
      dsimp only at h ⊢
      rw [holds_simplify, hsat]
      split_ifs at h ⊢ with hsqrt
      · have hpaper : ¬ (accordingPaper = true ∧ c.relation = .neq) :=
          fun hboth => hcase ⟨c, rfl, hboth.1, hboth.2, hvar, hsqrt⟩
        exact holds_sqrtCases lib hsub hpos hpaper result h
      · rw [holds_append, holds_rationalCases lib hsub hpos (Bool.eq_false_iff.mpr hsqrt)]
    · simp [ConstraintT.Sat, sat_update_of_not_hasVariable hvar]

omit hterm in
/-- A disequation treated according to the paper. -/
theorem holds_substituteNormal_paper {c : Constraint V} (hneq : c.relation = .neq)
    (hvar : Poly.hasVariable x c.lhs) (hsqrt : (lib.subBySqrtEx c.lhs x term).hasSqrt)
    (h : (substituteNormal lib (.proper c) x term result true).1 = true) :
    Holds α (substituteNormal lib (.proper c) x term result true).2 ↔
      Holds α result ∨ PaperNeq α (lib.subBySqrtEx c.lhs x term).radicand
        (lib.subBySqrtEx c.lhs x term).constantPart (lib.subBySqrtEx c.lhs x term).factor := by
  rw [substituteNormal, if_pos hvar] at h ⊢
  split_ifs at h ⊢
  dsimp only at h ⊢
  rw [holds_simplify]
  rw [if_pos hsqrt] at h ⊢
  rw [hneq, sqrtCases] at h ⊢
  exact holds_sqrtNeq_paper lib result h

/-- Where the disequation follows the paper, both of its conditions hold or none does. -/
def Faithful (α : V → ℝ) (cons : ConstraintT V) (x : V) (term : SqrtEx V) (accordingPaper : Bool) :
    Prop :=
  ∀ c, cons = .proper c → accordingPaper = true → c.relation = .neq → Poly.hasVariable x c.lhs →
    let sub := lib.subBySqrtEx c.lhs x term
    sub.hasSqrt → (0 < Poly.eval α sub.constantPart * Poly.eval α sub.factor ↔
      Poly.eval α sub.constantPart ^ 2 - Poly.eval α sub.factor ^ 2 * Poly.eval α sub.radicand ≠ 0)

theorem sat_paper {c : Constraint V} (hneq : c.relation = .neq) :
    (ConstraintT.proper c).Sat (update α x (term.value α)) ↔
      0 < Poly.eval α (lib.subBySqrtEx c.lhs x term).constantPart *
          Poly.eval α (lib.subBySqrtEx c.lhs x term).factor ∨
        Poly.eval α (lib.subBySqrtEx c.lhs x term).constantPart ^ 2 -
          Poly.eval α (lib.subBySqrtEx c.lhs x term).factor ^ 2 *
            Poly.eval α (lib.subBySqrtEx c.lhs x term).radicand ≠ 0 := by
  have hsub := lib.subBySqrtEx_defined c.lhs x term α hterm
  rw [ConstraintT.Sat, Constraint.Sat, hneq, Relation.evaluate,
    ← lib.subBySqrtEx_value c.lhs x term α hterm, SqrtEx.value, div_ne_zero_iff,
    and_iff_left hsub.denominator_ne_zero, ne_eq, SquareRootSigns.eq_zero_iff hsub.radicand_nonneg,
    not_and_or, not_le]

theorem holds_substituteNormal_of_faithful
    (hfaith : Faithful lib α cons x term accordingPaper)
    (h : (substituteNormal lib cons x term result accordingPaper).1 = true) :
    Holds α (substituteNormal lib cons x term result accordingPaper).2 ↔
      Holds α result ∨ cons.Sat (update α x (term.value α)) := by
  by_cases hcase : FollowsPaper lib cons x term accordingPaper
  · obtain ⟨c, rfl, rfl, hneq, hvar, hsqrt⟩ := hcase
    rw [holds_substituteNormal_paper lib result hneq hvar hsqrt h, sat_paper lib hterm hneq,
      PaperNeq, hfaith c rfl rfl hneq hvar hsqrt, and_self, or_self]
  · exact holds_substituteNormal lib hterm result hcase h

/-- The substitution is exact if and only if it is faithful. -/
theorem substituteNormal_exact_iff
    (h : (substituteNormal lib cons x term [] accordingPaper).1 = true) :
    (Holds α (substituteNormal lib cons x term [] accordingPaper).2 ↔
        cons.Sat (update α x (term.value α))) ↔
      Faithful lib α cons x term accordingPaper := by
  constructor
  · rintro hiff c rfl rfl hneq hvar sub hsqrt
    rw [holds_substituteNormal_paper lib [] hneq hvar hsqrt h, or_iff_right not_holds_nil,
      sat_paper lib hterm hneq] at hiff
    exact ⟨fun hprod => (hiff.mpr (.inl hprod)).2, fun hdiff => (hiff.mpr (.inr hdiff)).1⟩
  · intro hfaith
    rw [holds_substituteNormal_of_faithful lib hterm [] hfaith h, or_iff_right not_holds_nil]

end Substitute

end Smtrat.VS
