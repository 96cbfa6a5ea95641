import Smtrat.Common.Relation
import Smtrat.Logic.Formula
import Smtrat.Math.LinearPolynomial

/-!
# Fourier-Motzkin quantifier elimination

A variable is eliminated from a conjunction of linear constraints.  They are sorted into lower
bounds, upper bounds, equations and constraints without the variable, from which the new
constraints are made.
-/

namespace Smtrat.QE

open PropFormula List

universe u

/-- `ConstraintT`, for a linear left-hand side. -/
structure LinearConstraint (V : Type u) where
  lhs : LinearPolynomial V
  relation : Relation
deriving DecidableEq

variable {V : Type u}

def LinearConstraint.Sat (α : V → ℝ) (c : LinearConstraint V) : Prop :=
  c.relation.evaluate (c.lhs.eval α) 0

open Classical in
/-- The formula is true under an assignment. -/
def Satisfies (α : V → ℝ) (f : Formula (LinearConstraint V)) : Prop :=
  f.eval (fun c => decide (c.Sat α)) = true

/-- How formulas are stored: some constraints are constant and the others are kept in a normal form,
and connectives are simplified. -/
structure Pool (V : Type u) where
  create : LinearConstraint V → Bool ⊕ LinearConstraint V
  create_inl : ∀ c b, create c = .inl b → ∀ α, c.Sat α ↔ b = true
  create_inr : ∀ c c', create c = .inr c' → ∀ α, c.Sat α ↔ c'.Sat α
  vars_inr : ∀ c c', create c = .inr c' → ∀ x ∈ c'.lhs.vars, x ∈ c.lhs.vars
  connectives : FormulaPool (LinearConstraint V)
  /-- A conjunction with `FALSE` is `FALSE`. -/
  and_false : ∀ fs, .const false ∈ fs → connectives.create .and fs = .const false

/-- The formula of a constraint. -/
def Pool.constraint (pool : Pool V) (c : LinearConstraint V) : Formula (LinearConstraint V) :=
  match pool.create c with
  | .inl b => .const b
  | .inr c => .atom c

/-- Conjunctions without `TRUE`; one with `FALSE` is `FALSE`. -/
def simplifyAnd [DecidableEq V] (fs : List (Formula (LinearConstraint V))) :
    Formula (LinearConstraint V) :=
  let fs := fs.filter (· ≠ .const true)
  if .const false ∈ fs then .const false
  else match fs with
    | [] => .const true
    | [f] => f
    | fs => .app .and fs

theorem eval_simplifyAnd [DecidableEq V] (α : LinearConstraint V → Bool)
    (fs : List (Formula (LinearConstraint V))) :
    (simplifyAnd fs).eval α = (Formula.app .and fs).eval α := by
  have hfilt : (Formula.app .and fs).eval α = (fs.filter (· ≠ .const true)).all (·.eval α) := by
    rw [Formula.eval_app, Connective.eval_and, all_map, all_filter]
    refine all_congr rfl fun f => ?_
    by_cases hf : f = .const true <;> simp [hf]
  rw [hfilt, simplifyAnd]
  generalize fs.filter (· ≠ .const true) = gs
  split_ifs with hfalse
  · rw [Formula.eval_const, eq_comm, all_eq_false]
    exact ⟨_, hfalse, by simp⟩
  · match gs with
    | [] => simp
    | [f] => simp
    | f :: g :: gs => simp

theorem mentions_simplifyAnd [DecidableEq V] {c : LinearConstraint V}
    {fs : List (Formula (LinearConstraint V))} (h : (simplifyAnd fs).Mentions c) :
    ∃ f ∈ fs, f.Mentions c := by
  suffices hfilt : ∃ f ∈ fs.filter (· ≠ .const true), f.Mentions c by
    obtain ⟨f, hf, hc⟩ := hfilt
    exact ⟨f, (mem_filter.mp hf).1, hc⟩
  rw [simplifyAnd] at h
  generalize fs.filter (· ≠ .const true) = gs at h ⊢
  split_ifs at h
  · exact absurd h (Formula.mentions_const _ _)
  · match gs with
    | [] => exact absurd h (Formula.mentions_const _ _)
    | [f] => exact ⟨f, mem_cons_self, h⟩
    | f :: g :: gs => exact (Formula.mentions_app _ _ _).mp h

/-- The pool that evaluates constant constraints and simplifies conjunctions. -/
def Pool.simplifying (V : Type u) [DecidableEq V] : Pool V where
  create := fun c =>
    if c.lhs.isConstant then .inl (decide (c.relation.evaluate c.lhs.constantPart 0)) else .inr c
  create_inl := by
    intro c b hc α
    split_ifs at hc with h
    cases hc
    rw [LinearConstraint.Sat, LinearPolynomial.eval_of_isConstant h, decide_eq_true_eq]
    cases c.relation <;> simp [Relation.evaluate]
  create_inr := by
    intro c c' hc α
    split_ifs at hc
    cases hc
    rfl
  vars_inr := by
    intro c c' hc x hx
    split_ifs at hc
    cases hc
    exact hx
  connectives :=
    { simplify := fun
        | .app .and fs => simplifyAnd fs
        | f => f
      eval_simplify := by
        intro α f
        split
        · exact eval_simplifyAnd α _
        · rfl
      mentions_simplify := by
        intro c f h
        split at h
        · exact (Formula.mentions_app _ _ _).mpr (mentions_simplifyAnd h)
        · exact h }
  and_false := by
    intro fs h
    have hmem : .const false ∈ fs.filter (· ≠ .const true) :=
      mem_filter.mpr ⟨h, by simp⟩
    rw [FormulaPool.create]
    dsimp only
    rw [simplifyAnd, if_pos hmem]

namespace FourierMotzkinQE

/-- The constraints by their role for a variable; `unrelated` is the fourth subset. -/
structure FormulaPartition (V : Type u) where
  lowerBounds : List (LinearConstraint V)
  upperBounds : List (LinearConstraint V)
  equations : List (LinearConstraint V)
  unrelated : List (LinearConstraint V)

def FormulaPartition.empty : FormulaPartition V := ⟨[], [], [], []⟩

variable [DecidableEq V]

def isLinearLowerBound (c : LinearConstraint V) (x : V) : Bool :=
  ((c.relation = .leq || c.relation = .less) && c.lhs.coefficient x < 0) ||
    ((c.relation = .geq || c.relation = .greater) && 0 < c.lhs.coefficient x)

/-- A constraint with the variable is put in its subset. -/
def insertRelated (x : V) (res : FormulaPartition V) (c : LinearConstraint V) :
    FormulaPartition V :=
  if c.relation = .eq then { res with equations := res.equations ++ [c] }
  else if isLinearLowerBound c x then { res with lowerBounds := res.lowerBounds ++ [c] }
  else { res with upperBounds := res.upperBounds ++ [c] }

/-- A conjunct is put in its subset; one without the variable goes to the equations. -/
def insertConjunct (x : V) (res : FormulaPartition V) (c : LinearConstraint V) :
    FormulaPartition V :=
  if c.lhs.hasVariable x then insertRelated x res c
  else { res with equations := res.equations ++ [c] }

/-- The constraint that a formula is. -/
def asConstraint : Formula (LinearConstraint V) → Option (LinearConstraint V)
  | .atom c => some c
  | _ => none

/-- `findBounds`, for a constraint or a conjunction of constraints. -/
def findBounds (x : V) : Formula (LinearConstraint V) → Option (FormulaPartition V)
  | .atom c =>
    some (if c.lhs.hasVariable x then insertRelated x .empty c
      else { FormulaPartition.empty with unrelated := [c] })
  | .app .and fs => (fs.mapM asConstraint).map fun cs => cs.foldl (insertConjunct x) .empty
  | _ => none

/-- The constraint without the term of the variable, with the sign of a bound on the other side. -/
def getRemainder (c : LinearConstraint V) (x : V) (isLowerBnd : Bool) : LinearPolynomial V :=
  if isLowerBnd then
    if c.relation = .less || c.relation = .leq then c.lhs.erase x else (c.lhs.erase x).neg
  else
    if c.relation = .less || c.relation = .leq then (c.lhs.erase x).neg else c.lhs.erase x

/-- All the pairs of a lower and an upper bound are combined. -/
def createNewConstraints (pool : Pool V) (bounds : FormulaPartition V) (x : V) :
    List (Formula (LinearConstraint V)) :=
  bounds.lowerBounds.flatMap fun lowerBnd => bounds.upperBounds.map fun upperBnd =>
    pool.constraint ⟨(getRemainder lowerBnd x true).sub (getRemainder upperBnd x false), .leq⟩

/-- Whether two constraints are considered as equations that contradict each other. -/
def contradictory (pool : Pool V) (f g : LinearConstraint V) : Bool :=
  pool.create ⟨f.lhs.sub g.lhs, .eq⟩ = .inl false

/-- The first equation is used to substitute the variable in the other constraints, unless two of
them contradict each other. -/
def substituteEquations (pool : Pool V) (bounds : FormulaPartition V) (x : V) :
    List (Formula (LinearConstraint V)) :=
  if bounds.equations.any fun f => bounds.equations.any fun g => contradictory pool f g then
    [.const false]
  else
    match bounds.equations with
    | [] => []
    | e :: _ =>
      (bounds.lowerBounds ++ bounds.upperBounds).map fun c =>
        pool.constraint ⟨LinearPolynomial.substitute x (e.lhs.erase x) c.lhs, c.relation⟩

/-- The elimination of one variable; only constraints and their conjunctions are expected. -/
def eliminateVariable (pool : Pool V) (mFormula : Formula (LinearConstraint V)) (x : V) :
    Option (Formula (LinearConstraint V)) :=
  (findBounds x mFormula).map fun bounds =>
    let newConstraints :=
      if bounds.equations.isEmpty then createNewConstraints pool bounds x
      else substituteEquations pool bounds x
    pool.connectives.create .and (newConstraints ++ bounds.equations.map .atom)

inductive QuantifierType where
  | exists | forall
deriving DecidableEq

/-- The elimination of the variables of a query, which has existential quantifiers only. -/
def eliminateQuantifiers (pool : Pool V) (mQuery : List (QuantifierType × List V))
    (mFormula : Formula (LinearConstraint V)) : Option (Formula (LinearConstraint V)) :=
  mQuery.foldlM (fun f q =>
    if q.1 = .exists then q.2.foldlM (eliminateVariable pool) f else none) mFormula

end FourierMotzkinQE

end Smtrat.QE
