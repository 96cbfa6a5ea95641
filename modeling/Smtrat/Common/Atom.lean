import Smtrat.Common.Relation
import Smtrat.Logic.Formula
import Smtrat.Math.SparsePoly

/-!
# Atoms of solver formulas

The atoms a solver is asked about are Boolean variables, polynomial constraints, and atoms of
other theories, bit-vector constraints and uninterpreted equations, whose truth does not depend on
the arithmetic variables.
-/

/-!
## Answers and models
-/

namespace Smtrat

inductive Answer where
  | sat | unsat | unknown | aborted
deriving DecidableEq, Repr

/-- `ModelValue`, as far as objectives are concerned. -/
inductive ModelValue where
  | rational (r : ℚ)
  | infinity (positive : Bool)
  /-- Values that are neither rational nor infinite. -/
  | other
deriving DecidableEq, Repr

/-- The values a model assigns, for some of the variables. -/
abbrev Model (V : Type*) := V → Option ModelValue

end Smtrat

/-!
## Polynomial constraints

A constraint is a polynomial with rational coefficients compared with zero.  It is read over
any ordered field containing the rationals: over `ℝ` for what a lemma claims of all real
assignments, over `ℚ` for what a model computes.
-/

namespace Smtrat

open SparsePoly

universe u v

/-- `ConstraintT`, the constraint `lhs ~ 0`. -/
structure Constraint (σ : Type u) where
  /-- The left-hand side. -/
  lhs : Poly σ ℚ
  /-- The relation to zero. -/
  relation : Relation
deriving DecidableEq, Repr

namespace Constraint

variable {σ : Type u}

instance lawfulBEq [DecidableEq σ] : LawfulBEq (Constraint σ) := inferInstance

def negation (c : Constraint σ) : Constraint σ := ⟨c.lhs, c.relation.inverse⟩

section Sat

variable {K : Type v} [CommRing K] [LinearOrder K] [Algebra ℚ K]

/-- The constraint holds at the assignment `α`. -/
def Sat (α : σ → K) (c : Constraint σ) : Prop := c.relation.evaluate (Poly.eval α c.lhs) 0

instance (α : σ → K) (c : Constraint σ) : Decidable (c.Sat α) :=
  inferInstanceAs (Decidable (c.relation.evaluate (Poly.eval α c.lhs) 0))

@[simp] theorem sat_negation (α : σ → K) (c : Constraint σ) : c.negation.Sat α ↔ ¬ c.Sat α :=
  Relation.evaluate_inverse c.relation _ _

end Sat

end Constraint

end Smtrat

namespace Smtrat

open SparsePoly PropFormula

universe u v

inductive Atom (V : Type u) (B : Type v) where
  | bool (b : B)
  | constraint (c : Constraint V)
  | theory (t : B)
deriving DecidableEq

/-- Values for everything that occurs in atoms; for the atoms of other theories it is only said
which of them hold. -/
structure Assignment (V : Type u) (B : Type v) where
  arith : V → ℝ
  bool : B → Bool
  theory : B → Bool

variable {V : Type u} {B : Type v}

namespace Atom

def Holds (a : Assignment V B) : Atom V B → Prop
  | bool b => a.bool b = true
  | constraint c => c.Sat a.arith
  | theory t => a.theory t = true

/-- The arithmetic variables of an atom. -/
def vars : Atom V B → List V
  | bool _ => []
  | constraint c => Poly.variables c.lhs
  | theory _ => []

end Atom

theorem Atom.holds_congr {a b : Assignment V B} {p : Atom V B} (hbool : a.bool = b.bool)
    (hthy : a.theory = b.theory) (h : ∀ x ∈ p.vars, a.arith x = b.arith x) :
    p.Holds a ↔ p.Holds b := by
  cases p with
  | bool x => rw [Holds, Holds, hbool]
  | constraint c => rw [Holds, Holds, Constraint.Sat, Constraint.Sat, Poly.eval_congr h]
  | theory t => rw [Holds, Holds, hthy]

/-- At rational points a constraint holds over the reals if it holds over the rational numbers. -/
theorem Constraint.sat_cast (α : V → ℚ) (c : Constraint V) :
    c.Sat (fun x => (α x : ℝ)) ↔ c.Sat α := by
  have heval : Poly.eval (fun x => (α x : ℝ)) c.lhs = ((Poly.eval α c.lhs : ℚ) : ℝ) := by
    exact Poly.eval_algebraMap (K := ℝ) α c.lhs
  rw [Constraint.Sat, Constraint.Sat, heval]
  cases c.relation <;> simp [Relation.evaluate]

/-- The arithmetic variables of a formula. -/
def gatherVariables (f : Formula (Atom V B)) : List V := f.atoms.flatMap Atom.vars

open Classical in
/-- The formula is true under an assignment. -/
def Assignment.Satisfies (a : Assignment V B) (f : Formula (Atom V B)) : Prop :=
  f.eval (fun p => decide (p.Holds a)) = true

theorem satisfies_congr {a b : Assignment V B} {f : Formula (Atom V B)} (hbool : a.bool = b.bool)
    (hthy : a.theory = b.theory) (h : ∀ x ∈ gatherVariables f, a.arith x = b.arith x) :
    a.Satisfies f ↔ b.Satisfies f := by
  rw [Assignment.Satisfies, Assignment.Satisfies, Formula.eval_congr fun p hp => ?_]
  have hp := (Formula.mem_atoms p f).mpr hp
  refine decide_eq_decide.mpr (Atom.holds_congr hbool hthy fun x hx => h x ?_)
  exact List.mem_flatMap.mpr ⟨p, hp, hx⟩

@[simp] theorem satisfies_atom (a : Assignment V B) (p : Atom V B) :
    a.Satisfies (.atom p) ↔ p.Holds a := by
  simp [Assignment.Satisfies]

@[simp] theorem satisfies_const (a : Assignment V B) (b : Bool) :
    a.Satisfies (.const b : Formula (Atom V B)) ↔ b = true := by
  simp [Assignment.Satisfies]

end Smtrat

/-!
## Truth of connectives
-/

namespace Smtrat

open PropFormula

universe u v

variable {V : Type u} {B : Type v} (a : Assignment V B)

@[simp] theorem satisfies_app_not (f : Formula (Atom V B)) :
    a.Satisfies (.app .not [f]) ↔ ¬ a.Satisfies f := by
  simp [Assignment.Satisfies]

@[simp] theorem satisfies_app_and (fs : List (Formula (Atom V B))) :
    a.Satisfies (.app .and fs) ↔ ∀ f ∈ fs, a.Satisfies f := by
  simp [Assignment.Satisfies]

@[simp] theorem satisfies_app_or (fs : List (Formula (Atom V B))) :
    a.Satisfies (.app .or fs) ↔ ∃ f ∈ fs, a.Satisfies f := by
  simp [Assignment.Satisfies]

@[simp] theorem satisfies_app_implies (f g : Formula (Atom V B)) :
    a.Satisfies (.app .implies [f, g]) ↔ (a.Satisfies f → a.Satisfies g) := by
  simp [Assignment.Satisfies, imp_iff_not_or]

@[simp] theorem satisfies_app_xor (f g : Formula (Atom V B)) :
    a.Satisfies (.app .xor [f, g]) ↔ Xor (a.Satisfies f) (a.Satisfies g) := by
  simp only [Assignment.Satisfies, Formula.eval_app, List.map_cons, List.map_nil,
    Connective.eval_xor, Xor]
  cases f.eval _ <;> cases g.eval _ <;> simp

/-- A pool keeps the truth of the formulas it builds. -/
theorem satisfies_create (pool : FormulaPool (Atom V B)) (c : Connective)
    (fs : List (Formula (Atom V B))) :
    a.Satisfies (pool.create c fs) ↔ a.Satisfies (.app c fs) := by
  rw [Assignment.Satisfies, Assignment.Satisfies, FormulaPool.eval_create, Formula.eval_app]

end Smtrat
