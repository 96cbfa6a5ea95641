import Smtrat.Common.Atom

/-!
# The literals of the theory and the trail of the backend

A literal on the trail is a constraint, a comparison of a variable with a root, or an assignment of a
variable.  `Bookkeeping` keeps the model, the assigned variables and the asserted literals on stacks.
-/

namespace Smtrat.Mcsat

open SparsePoly

/-- `MultivariateRootT`: the `k`-th real root of a polynomial in `none`, counted from one. -/
structure MultivariateRoot (σ : Type*) where
  poly : Poly (Option σ) ℚ
  k : ℕ
deriving DecidableEq

/-- The numbers a model assigns. -/
inductive Number (A : Type*) where
  | rational (q : ℚ)
  | ran (a : A)
deriving DecidableEq

/-- `ModelValue`, as far as comparisons are concerned. -/
inductive ModelValue (σ A : Type*) where
  | number (n : Number A)
  | substitution (root : MultivariateRoot σ)
deriving DecidableEq

/-- `VariableComparisonT`, the comparison `var ~ value` or its negation. -/
structure VariableComparison (σ A : Type*) where
  var : σ
  value : ModelValue σ A
  relation : Relation
  negated : Bool
deriving DecidableEq

/-- `FormulaT`, as far as theory literals are concerned. -/
inductive Formula (σ A : Type*) where
  | true
  | false
  | constraint (c : Constraint σ)
  | varcompare (v : VariableComparison σ A)
  | varassign (x : σ) (value : Number A) (negated : Bool)
deriving DecidableEq

section Variables

variable {σ A : Type*}

def MultivariateRoot.variables (r : MultivariateRoot σ) : List σ :=
  (Poly.variables r.poly).filterMap id

def ModelValue.variables : ModelValue σ A → List σ
  | .number _ => []
  | .substitution r => r.variables

/-- `gatherVariables` -/
def Formula.variables : Formula σ A → List σ
  | .true | .false => []
  | .constraint c => Poly.variables c.lhs
  | .varcompare v => v.var :: v.value.variables
  | .varassign x _ _ => [x]

/-- `FormulaT::negated`, which flips a literal. -/
def Formula.negated : Formula σ A → Formula σ A
  | .true => .false
  | .false => .true
  | .constraint c => .constraint c.negation
  | .varcompare v => .varcompare { v with negated := !v.negated }
  | .varassign x value negated => .varassign x value !negated

end Variables

/-- `Model` -/
abbrev Model (σ A : Type*) := σ → Option (Number A)

namespace Model

variable {σ A : Type*} [DecidableEq σ]

def assign (m : Model σ A) (x : σ) (n : Number A) : Model σ A := Function.update m x (some n)

def erase (m : Model σ A) (x : σ) : Model σ A := Function.update m x none

end Model

/-- `Bookkeeping` -/
structure Bookkeeping (σ A : Type*) where
  /-- Current (partial) model. -/
  model : Model σ A
  /-- Stack of variables being assigned. -/
  assignedVariables : List σ
  /-- Stack of theory assignments. -/
  assignments : List (Formula σ A)
  /-- Stack of asserted constraints. -/
  constraints : List (Formula σ A)
  /-- Stack of asserted multivariate root bounds. -/
  mvBounds : List (Formula σ A)
  /-- Sequence defining the variable ordering. -/
  variableOrder : List σ

namespace Bookkeeping

variable {σ A : Type*} [DecidableEq σ]

/-- Other formulas than constraints and comparisons are an error. -/
def pushConstraint (b : Bookkeeping σ A) (f : Formula σ A) : Bookkeeping σ A :=
  match f with
  | .constraint _ => { b with constraints := b.constraints ++ [f] }
  | .varcompare _ => { b with mvBounds := b.mvBounds ++ [f] }
  | _ => b

def popConstraint (b : Bookkeeping σ A) (f : Formula σ A) : Bookkeeping σ A :=
  match f with
  | .constraint _ => { b with constraints := b.constraints.dropLast }
  | .varcompare _ => { b with mvBounds := b.mvBounds.dropLast }
  | _ => b

def pushAssignment (b : Bookkeeping σ A) (v : σ) (mv : Number A) (f : Formula σ A) :
    Bookkeeping σ A :=
  { b with
    model := b.model.assign v mv
    assignedVariables := b.assignedVariables ++ [v]
    assignments := b.assignments ++ [f] }

def popAssignment (b : Bookkeeping σ A) (v : σ) : Bookkeeping σ A :=
  { b with
    model := b.model.erase v
    assignedVariables := b.assignedVariables.dropLast
    assignments := b.assignments.dropLast }

end Bookkeeping

end Smtrat.Mcsat
