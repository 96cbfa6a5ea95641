import Smtrat.Math.Univariate
import Smtrat.Mcsat.Bookkeeping

/-!
# Real algebraic numbers and the evaluation of literals

The numbers and the evaluation come from carl.  `RealAlgebraicNumber` lists the operations on numbers
the assignment finder uses, `Evaluation` those on literals, each with what is promised of it; the
promises compare the results with the truth of a literal under real assignments.
-/

namespace Smtrat.Mcsat

open SparsePoly

/-- `carl::RealAlgebraicNumber<Rational>` -/
class RealAlgebraicNumber (A : Type*) extends LinearOrder A where
  toReal : A → ℝ
  toReal_strictMono : StrictMono toReal
  ofRational : ℚ → A
  toReal_ofRational (q : ℚ) : toReal (ofRational q) = q
  /-- The number is represented by a rational. -/
  isNumeric : A → Bool
  value : A → ℚ
  ofRational_value {a : A} : isNumeric a → ofRational (value a) = a
  isIntegral : A → Bool
  /-- The size of the representation. -/
  size : A → ℕ
  abs : A → A
  sampleBelow : A → A
  sampleBelow_lt (a : A) : sampleBelow a < a
  sampleBetween : A → A → A
  lt_sampleBetween {a b : A} : a < b → a < sampleBetween a b
  sampleBetween_lt {a b : A} : a < b → sampleBetween a b < b
  sampleAbove : A → A
  lt_sampleAbove (a : A) : a < sampleAbove a

variable {σ A : Type*}

/-! ## Truth under real assignments -/

/-- The real `t` is the root, where the other variables have the values of the assignment. -/
def MultivariateRoot.IsValue [DecidableEq σ] (α : σ → ℝ) (r : MultivariateRoot σ) (t : ℝ) : Prop :=
  letI P := Poly.univariate none (fun o : Option σ => o.elim 0 α) r.poly
  P.IsRoot t ∧ P ≠ 0 ∧ (P.roots.toFinset.filter (· < t)).card + 1 = r.k

section Truth

variable [DecidableEq σ] [RealAlgebraicNumber A]

open RealAlgebraicNumber

def Number.toReal : Number A → ℝ
  | .rational q => q
  | .ran a => RealAlgebraicNumber.toReal a

def ModelValue.IsValue (α : σ → ℝ) : ModelValue σ A → ℝ → Prop
  | .number n, t => t = n.toReal
  | .substitution r, t => r.IsValue α t

/-- The truth of a literal.  A comparison with a root that does not exist is not false. -/
def Formula.Sat (α : σ → ℝ) : Formula σ A → Prop
  | .true => True
  | .false => False
  | .constraint c => c.Sat α
  | .varcompare v =>
    ∀ t, v.value.IsValue α t → (v.relation.evaluate (α v.var) t ↔ ¬ v.negated)
  | .varassign x n negated => α x = n.toReal ↔ ¬ negated

/-- The roots in the literal exist. -/
def Formula.Defined (α : σ → ℝ) : Formula σ A → Prop
  | .varcompare v => ∃ t, v.value.IsValue α t
  | _ => True

/-- The assignment has the values of the model. -/
def Model.Agrees (m : Model σ A) (α : σ → ℝ) : Prop :=
  ∀ y n, m y = some n → α y = n.toReal

def Model.Covers (m : Model σ A) (vars : List σ) : Prop := ∀ y ∈ vars, (m y).isSome

end Truth

/-! ## What carl computes -/

/-- The functions of carl the assignment finder calls on literals. -/
structure Evaluation (σ A : Type*) [DecidableEq σ] [RealAlgebraicNumber A] where
  /-- `carl::model::substitute` -/
  substitute : Formula σ A → Model σ A → Formula σ A
  /-- `carl::model::tryRealRoots` -/
  tryRealRoots : Poly σ ℚ → σ → Model σ A → Option (List A)
  /-- `carl::model::evaluate`, where the result is a Boolean. -/
  evaluate : Formula σ A → Model σ A → Option Bool
  /-- `ModelSubstitution::evaluate` -/
  evaluateSubstitution : MultivariateRoot σ → Model σ A → ModelValue σ A
  /-- Substitution keeps the truth and adds no variables. -/
  sat_substitute {f : Formula σ A} {m : Model σ A} {α : σ → ℝ} :
    m.Agrees α → ((substitute f m).Sat α ↔ f.Sat α)
  variables_substitute {f : Formula σ A} {m : Model σ A} : (substitute f m).variables ⊆ f.variables
  substitute_constraint (c : Constraint σ) (m : Model σ A) :
    substitute (.constraint c) m = .true ∨ substitute (.constraint c) m = .false ∨
      ∃ d, substitute (.constraint c) m = .constraint d
  /-- A constraint without unassigned variables is evaluated. -/
  substitute_assigned {c : Constraint σ} {m : Model σ A} :
    m.Covers (Poly.variables c.lhs) →
      substitute (.constraint c) m = .true ∨ substitute (.constraint c) m = .false
  substitute_varcompare {v : VariableComparison σ A} {m : Model σ A} :
    m v.var = none → substitute (.varcompare v) m = .true ∨ substitute (.varcompare v) m = .false ∨
      ∃ value : ModelValue σ A, value.variables ⊆ v.value.variables ∧
        substitute (.varcompare v) m = .varcompare { v with value := value }
  /-- The roots are isolated, unless the polynomial vanishes. -/
  tryRealRoots_some {p : Poly σ ℚ} {x : σ} {m : Model σ A} {roots : List A} {α : σ → ℝ} :
    m.Covers (Poly.variables p |>.filter (· ≠ x)) → m.Agrees α →
      tryRealRoots p x m = some roots → Poly.univariate x α p ≠ 0 ∧ roots.Pairwise (· < ·) ∧
        ∀ t, (Poly.univariate x α p).IsRoot t ↔ t ∈ roots.map RealAlgebraicNumber.toReal
  tryRealRoots_none {p : Poly σ ℚ} {x : σ} {m : Model σ A} {α : σ → ℝ} :
    m.Covers (Poly.variables p |>.filter (· ≠ x)) → m.Agrees α →
      tryRealRoots p x m = none → Poly.univariate x α p = 0
  /-- Evaluation gives the truth where the roots exist, and is inconclusive where they do not. -/
  evaluate_defined {f : Formula σ A} {m : Model σ A} {α : σ → ℝ} :
    m.Covers f.variables → m.Agrees α → f.Defined α →
      ∃ b, evaluate f m = some b ∧ (b = true ↔ f.Sat α)
  evaluate_undefined {f : Formula σ A} {m : Model σ A} {α : σ → ℝ} :
    m.Covers f.variables → m.Agrees α → ¬ f.Defined α → evaluate f m = none
  evaluateSubstitution_number {r : MultivariateRoot σ} {m : Model σ A} {α : σ → ℝ} {n : Number A} :
    m.Covers r.variables → m.Agrees α → evaluateSubstitution r m = .number n → r.IsValue α n.toReal
  evaluateSubstitution_substitution {r s : MultivariateRoot σ} {m : Model σ A} {α : σ → ℝ} :
    m.Covers r.variables → m.Agrees α → evaluateSubstitution r m = .substitution s →
      ∀ t, ¬ r.IsValue α t

end Smtrat.Mcsat
