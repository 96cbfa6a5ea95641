import Smtrat.Math.Instances

/-!
# Relation symbols of constraints

The six relations `lhs ~ 0` a constraint can carry, with the operations on them that the
modules use: the inverse (the relation of the negated constraint), strictness, and evaluation.
-/

namespace Smtrat

/-- `carl::Relation`. -/
inductive Relation where
  | eq | neq | less | leq | greater | geq
deriving DecidableEq, Repr

namespace Relation

/-- The relation of the negated constraint. -/
def inverse : Relation → Relation
  | eq => neq
  | neq => eq
  | less => geq
  | leq => greater
  | greater => leq
  | geq => less

def isStrict : Relation → Bool
  | neq | less | greater => true
  | eq | leq | geq => false

/-- The relation of the two sides in exchanged order. -/
def turnAroundRelation : Relation → Relation
  | eq => eq
  | neq => neq
  | less => greater
  | leq => geq
  | greater => less
  | geq => leq

variable {K : Type*}

/-- `evaluate r a b` is `a r b`. -/
def evaluate [LT K] [LE K] (r : Relation) (a b : K) : Prop :=
  match r with
  | eq => a = b
  | neq => a ≠ b
  | less => a < b
  | leq => a ≤ b
  | greater => a > b
  | geq => a ≥ b

instance [LinearOrder K] (r : Relation) (a b : K) : Decidable (evaluate r a b) :=
  match r with
  | eq => inferInstanceAs (Decidable (a = b))
  | neq => inferInstanceAs (Decidable (a ≠ b))
  | less => inferInstanceAs (Decidable (a < b))
  | leq => inferInstanceAs (Decidable (a ≤ b))
  | greater => inferInstanceAs (Decidable (a > b))
  | geq => inferInstanceAs (Decidable (a ≥ b))

@[simp] theorem inverse_inverse (r : Relation) : r.inverse.inverse = r := by
  cases r <;> rfl

@[simp] theorem evaluate_inverse [LinearOrder K] (r : Relation) (a b : K) :
    evaluate r.inverse a b ↔ ¬ evaluate r a b := by
  cases r <;> simp [inverse, evaluate]

/-- A factor keeps the relation to zero if it is positive, and turns it around if it is negative. -/
theorem evaluate_mul_zero [Field K] [LinearOrder K] [IsStrictOrderedRing K] (r : Relation)
    {c a : K} (hc : c ≠ 0) :
    evaluate r (c * a) 0 ↔ evaluate (if c < 0 then r.turnAroundRelation else r) a 0 := by
  rcases lt_or_gt_of_ne hc with hneg | hpos
  · rw [if_pos hneg]
    cases r <;> simp [evaluate, turnAroundRelation, hc, mul_neg_iff, mul_nonpos_iff, mul_pos_iff,
      mul_nonneg_iff, hneg, hneg.le, hneg.not_gt, hneg.not_ge]
  · rw [if_neg hpos.not_gt]
    cases r <;> simp [evaluate, hc, mul_neg_iff, mul_nonpos_iff, hpos, hpos.le, hpos.not_gt,
      hpos.not_ge]

/-- Comparing two values is comparing their difference with zero. -/
theorem evaluate_sub_zero [Field K] [LinearOrder K] [IsStrictOrderedRing K]
    (r : Relation) (a b : K) : evaluate r (a - b) 0 ↔ evaluate r a b := by
  cases r <;> simp [evaluate, sub_eq_zero]

/-- Comparing a multiple is comparing with the quotient. -/
theorem evaluate_mul [Field K] [LinearOrder K] [IsStrictOrderedRing K] (r : Relation) {c : K}
    (hc : c ≠ 0) (a b : K) :
    evaluate r (c * a) b ↔ evaluate (if c < 0 then r.turnAroundRelation else r) a (b / c) := by
  have hdistance : c * a - b = c * (a - b / c) := by
    rw [mul_sub, mul_div_left_comm, div_self hc, mul_one]
  rw [← evaluate_sub_zero, hdistance, evaluate_mul_zero r hc, evaluate_sub_zero]

end Relation

end Smtrat
