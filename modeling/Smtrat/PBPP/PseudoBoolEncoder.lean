import Smtrat.Common.Relation
import Smtrat.Logic.Formula
import Smtrat.Math.LinearPolynomial
import Smtrat.Math.Selections

/-!
# Pseudo-Boolean constraints and their encoders

A pseudo-Boolean constraint compares a linear polynomial with zero whose variables are Boolean and count
as zero or one.  An encoder replaces it by a formula over the variables.  Where it cannot, the constraint
is left as an atom.
-/

namespace Smtrat.PBPP

open PropFormula

universe u

variable {V : Type u}

/-- `ConstraintT` over Boolean variables. -/
structure ConstraintT (V : Type u) where
  lhs : LinearPolynomial V
  relation : Relation
deriving DecidableEq

/-- The value of a linear polynomial if the variables count as zero or one. -/
def value (σ : V → Bool) (p : LinearPolynomial V) : ℚ :=
  Combination.selected σ p.terms + p.constantPart

namespace ConstraintT

/-- The constraint `lhs ~ 0` as the pool of constraints keeps it, with `≥` and `>` turned around. -/
def create (lhs : LinearPolynomial V) : Relation → ConstraintT V
  | .geq => ⟨lhs.neg, .leq⟩
  | .greater => ⟨lhs.neg, .less⟩
  | relation => ⟨lhs, relation⟩

/-- `variables()` -/
def vars (c : ConstraintT V) : List V := c.lhs.vars

def constantPart (c : ConstraintT V) : ℚ := c.lhs.constantPart

/-- The number on the right of `≤` once the variables stand alone on the left; for `<` it is the one that
is less by one. -/
def rightHandSide (c : ConstraintT V) : ℚ :=
  if c.relation = .less then -c.constantPart - 1 else -c.constantPart

/-- The constraint holds for 0/1 values of the variables. -/
def Sat (σ : V → Bool) (c : ConstraintT V) : Prop := c.relation.evaluate (value σ c.lhs) 0

instance (σ : V → Bool) (c : ConstraintT V) : Decidable (c.Sat σ) :=
  inferInstanceAs (Decidable (c.relation.evaluate (value σ c.lhs) 0))

end ConstraintT

/-! ## Formulas -/

inductive Atom (V : Type u) where
  | bool (x : V)
  | constraint (c : ConstraintT V)
deriving DecidableEq

def Atom.holds (σ : V → Bool) : Atom V → Bool
  | bool x => σ x
  | constraint c => decide (c.Sat σ)

abbrev FormulaT (V : Type u) := Formula (Atom V)

def Satisfies (σ : V → Bool) (f : FormulaT V) : Prop := f.eval (Atom.holds σ) = true

section Satisfies

variable (σ : V → Bool) (pool : FormulaPool (Atom V))

@[simp] theorem satisfies_const (b : Bool) : Satisfies σ (.const b) ↔ b = true := by
  rw [Satisfies, Formula.eval_const]

@[simp] theorem satisfies_bool (x : V) : Satisfies σ (.atom (.bool x)) ↔ σ x = true := by
  rw [Satisfies, Formula.eval_atom, Atom.holds]

@[simp] theorem satisfies_constraint (c : ConstraintT V) :
    Satisfies σ (.atom (.constraint c)) ↔ c.Sat σ := by
  rw [Satisfies, Formula.eval_atom, Atom.holds, decide_eq_true_eq]

@[simp] theorem satisfies_not (f : FormulaT V) :
    Satisfies σ (pool.create .not [f]) ↔ ¬ Satisfies σ f := by
  simp [Satisfies]

@[simp] theorem satisfies_and (fs : List (FormulaT V)) :
    Satisfies σ (pool.create .and fs) ↔ ∀ f ∈ fs, Satisfies σ f := by
  simp [Satisfies]

@[simp] theorem satisfies_or (fs : List (FormulaT V)) :
    Satisfies σ (pool.create .or fs) ↔ ∃ f ∈ fs, Satisfies σ f := by
  simp [Satisfies]

@[simp] theorem satisfies_implies (f g : FormulaT V) :
    Satisfies σ (pool.create .implies [f, g]) ↔ (Satisfies σ f → Satisfies σ g) := by
  simp [Satisfies, imp_iff_not_or]

end Satisfies

/-! ## Encoders -/

/-- `PseudoBoolEncoder`, with its virtual functions. -/
structure PseudoBoolEncoder (V : Type u) where
  canEncode : ConstraintT V → Bool
  doEncode : ConstraintT V → Option (FormulaT V)

/-- `-x1 - x2 - 2 < 0` is the same as `x1 + x2 < 2`, hence as `x1 + x2 <= 1`. -/
def normalizeLessConstraint (c : ConstraintT V) : ConstraintT V := ⟨c.lhs.addConstant 1, .leq⟩

/-- `PseudoBoolEncoder::encode` -/
def PseudoBoolEncoder.encode (e : PseudoBoolEncoder V) (c : ConstraintT V) : Option (FormulaT V) :=
  if c.relation = .less then e.doEncode (normalizeLessConstraint c) else e.doEncode c

/-- The formula is satisfied by exactly the 0/1 assignments that satisfy the constraint. -/
def ConstraintT.EncodedBy (c : ConstraintT V) (f : FormulaT V) : Prop := ∀ σ, Satisfies σ f ↔ c.Sat σ

def generateVarChain (pool : FormulaPool (Atom V)) (vars : List V) (type : Connective) : FormulaT V :=
  pool.create type (vars.map fun x => .atom (.bool x))

theorem satisfies_varChain_and {pool : FormulaPool (Atom V)} {σ : V → Bool} {vars : List V} :
    Satisfies σ (generateVarChain pool vars .and) ↔ ∀ x ∈ vars, σ x = true := by
  simp [generateVarChain]

theorem satisfies_varChain_or {pool : FormulaPool (Atom V)} {σ : V → Bool} {vars : List V} :
    Satisfies σ (generateVarChain pool vars .or) ↔ ∃ x ∈ vars, σ x = true := by
  simp [generateVarChain]

/-! ## Values -/

theorem value_addConstant (σ : V → Bool) (p : LinearPolynomial V) (c : ℚ) :
    value σ (p.addConstant c) = value σ p + c := by
  rw [value, value, LinearPolynomial.addConstant, add_assoc]

/-- Turning a relation around does not change a constraint. -/
theorem sat_create (σ : V → Bool) (p : LinearPolynomial V) (r : Relation) :
    (ConstraintT.create p r).Sat σ ↔ r.evaluate (value σ p) 0 := by
  have hneg : value σ p.neg = -value σ p := by
    rw [value, value, LinearPolynomial.neg, Combination.selected_scale]
    ring
  cases r <;> simp [ConstraintT.create, ConstraintT.Sat, Relation.evaluate, hneg]

/-- With integer coefficients and an integer constant all values are integers. -/
theorem exists_value_eq_intCast (σ : V → Bool) {p : LinearPolynomial V}
    (hterms : ∀ t ∈ p.terms, ∃ z : ℤ, t.2 = z) (hconst : ∃ z : ℤ, p.constantPart = z) :
    ∃ z : ℤ, value σ p = z := by
  obtain ⟨c, hc⟩ := hconst
  obtain ⟨z, hz⟩ := Combination.exists_selected_eq_intCast σ hterms
  exact ⟨z + c, by rw [value, hz, hc, Int.cast_add]⟩

theorem sat_normalizeLess (σ : V → Bool) (c : ConstraintT V) :
    (normalizeLessConstraint c).Sat σ ↔ value σ c.lhs + 1 ≤ 0 := by
  rw [ConstraintT.Sat, normalizeLessConstraint, value_addConstant]
  rfl

/-- Among integers `<` can be replaced by `≤`. -/
theorem sat_normalizeLess_iff {σ : V → Bool} {c : ConstraintT V} (hrel : c.relation = .less)
    (hint : ∃ z : ℤ, value σ c.lhs = z) : (normalizeLessConstraint c).Sat σ ↔ c.Sat σ := by
  obtain ⟨z, hz⟩ := hint
  rw [sat_normalizeLess, ConstraintT.Sat, hrel, Relation.evaluate, hz]
  norm_cast

/-- A formula for the normalized constraint is one for the constraint with `<` if no value lies in
between. -/
theorem ConstraintT.encodedBy_less_iff {c : ConstraintT V} {f : FormulaT V} (hrel : c.relation = .less)
    (h : (normalizeLessConstraint c).EncodedBy f) :
    c.EncodedBy f ↔ ∀ σ, ¬ (-1 < value σ c.lhs ∧ value σ c.lhs < 0) := by
  refine forall_congr' fun σ => ?_
  rw [h σ, sat_normalizeLess, ConstraintT.Sat, hrel, Relation.evaluate]
  constructor
  · rintro hiff ⟨hgt, hlt⟩
    have hle := hiff.mpr hlt
    linarith
  · intro hnot
    constructor
    · intro hle
      linarith
    · intro hlt
      by_contra hle
      exact hnot ⟨by linarith, hlt⟩

end Smtrat.PBPP
