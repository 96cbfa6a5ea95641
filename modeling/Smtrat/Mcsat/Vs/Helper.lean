import Smtrat.Mcsat.Arithmetic.RealAlgebraicNumber
import Smtrat.VS.SubstituteExact
import Smtrat.VS.TestCandidates

/-!
# Virtual substitution of literals

The zeros of a literal with their side conditions, the test candidates of the literals of a formula, and
the substitution of a test candidate into a literal.  A comparison with a real algebraic number is turned
into a constraint on two fresh variables, for which the candidate and the number are substituted.
-/

namespace Smtrat.Mcsat.Vs

open SparsePoly Smtrat.VS

universe u v

/-- `FormulaT` -/
abbrev FormulaT (σ : Type u) (A : Type v) := PropFormula.Formula (Mcsat.Formula σ A)

section Variables

variable {σ : Type u}

def SqrtEx.variables (t : SqrtEx σ) : List σ :=
  Poly.variables t.constantPart ++ Poly.variables t.factor ++ Poly.variables t.radicand ++
    Poly.variables t.denominator

def SubstitutionType.variables : SubstitutionType σ → List σ
  | .normal term | .plusEpsilon term => SqrtEx.variables term
  | .minusInfinity | .plusInfinity => []

def ConstraintT.variables : ConstraintT σ → List σ
  | .constant _ => []
  | .proper c => Poly.variables c.lhs

def ConstraintT.hasVariable [DecidableEq σ] (x : σ) : ConstraintT σ → Bool
  | .constant _ => false
  | .proper c => Poly.hasVariable x c.lhs

end Variables

section Semantics

variable {σ : Type u} {A : Type v} [DecidableEq σ] [RealAlgebraicNumber A]

open Classical in
/-- The truth of a formula under a real assignment. -/
def Holds (α : σ → ℝ) (f : FormulaT σ A) : Prop := f.eval (fun l => decide (l.Sat α)) = true

end Semantics

/-- Formulas of conjunctions and disjunctions. -/
inductive Positive {σ : Type u} {A : Type v} : FormulaT σ A → Prop where
  | const (b : Bool) : Positive (.const b)
  | atom (l : Mcsat.Formula σ A) : Positive (.atom l)
  | and (fs : List (FormulaT σ A)) : (∀ f ∈ fs, Positive f) → Positive (.app .and fs)
  | or (fs : List (FormulaT σ A)) : (∀ f ∈ fs, Positive f) → Positive (.app .or fs)

/-- What is used of carl and of the virtual substitution. -/
structure ExplanationLibrary (σ : Type u) (A : Type v) [DecidableEq σ] [RealAlgebraicNumber A]
    extends EliminationLibrary σ where
  /-- Constraints without variables are evaluated, and equations stay equations. -/
  constraint_constant : ∀ p r, isConstant p → ∃ b, constraint p r = .constant b
  constraint_eq : ∀ p c, constraint p .eq = .proper c → c.relation = .eq
  constraint_variables : ∀ p r, ConstraintT.variables (constraint p r) ⊆ Poly.variables p
  factorization_variables : ∀ p fs, factorization p = some fs → ∀ f ∈ fs,
    Poly.variables f.1 ⊆ Poly.variables p
  sqrtEx_variables : ∀ t, SqrtEx.variables (sqrtEx t) ⊆ SqrtEx.variables t
  /-- `vs::substitute`, exact and without the variable in the result. -/
  substitute : ConstraintT σ → Substitution σ → Option (DisjunctionOfConstraintConjunctions σ)
  substitute_exact : ∀ c subs res, substitute c subs = some res → ∀ α : σ → ℝ,
    SideConditions α subs.type → (VS.Holds α res ↔ Meets α c subs.var subs.type)
  substitute_variables : ∀ c subs res, substitute c subs = some res → ∀ conj ∈ res, ∀ d ∈ conj,
    ∀ y ∈ ConstraintT.variables d, y ≠ subs.var ∧
      (y ∈ ConstraintT.variables c ∨ y ∈ SubstitutionType.variables subs.type)
  /-- The elements of a set of constraints, in order. -/
  elements : Finset (ConstraintT σ) → List (ConstraintT σ)
  mem_elements : ∀ s c, c ∈ elements s ↔ c ∈ s
  /-- The constructor of conjunctions and disjunctions keeps the truth and adds no literals. -/
  create : PropFormula.Connective → List (FormulaT σ A) → FormulaT σ A
  holds_create : ∀ (α : σ → ℝ) c fs, Holds α (create c fs) ↔ Holds α (.app c fs)
  mentions_create : ∀ l c fs, (create c fs).Mentions l → ∃ f ∈ fs, f.Mentions l
  positive_and : ∀ fs, (∀ f ∈ fs, Positive f) → Positive (create .and fs)
  positive_or : ∀ fs, (∀ f ∈ fs, Positive f) → Positive (create .or fs)
  /-- A literal of a conjunction that is not dropped stays a subformula. -/
  contains_create : ∀ l c fs, .atom l ∈ fs → (create c fs).Mentions l →
    (create c fs).contains (.atom l) = true
  /-- A conjunction of literals that is not constant keeps them all. -/
  mentions_and : ∀ ls : List (Mcsat.Formula σ A),
    (∃ b, create .and (ls.map .atom) = .const b) ∨ ∀ l ∈ ls, (create .and (ls.map .atom)).Mentions l
  /-- `carl::model::evaluate`, where the result is a Boolean. -/
  evaluate : FormulaT σ A → Model σ A → Option Bool
  evaluate_sound : ∀ f m b, evaluate f m = some b → ∀ α : σ → ℝ, m.Agrees α → (Holds α f ↔ b = true)
  /-- The number is given by a polynomial and an open interval. -/
  isInterval : A → Bool
  getIRPolynomial : A → Poly σ ℚ
  mainVar : A → σ
  lower : A → ℚ
  upper : A → ℚ
  irPolynomial_variables : ∀ a, isInterval a → ∀ y ∈ Poly.variables (getIRPolynomial a), y = mainVar a
  irPolynomial_root : ∀ a, isInterval a → ∀ (α : σ → ℝ) (z : ℝ), lower a < z → z < upper a →
    ((Poly.univariate (mainVar a) α (getIRPolynomial a)).eval z = 0 ↔
      z = RealAlgebraicNumber.toReal a)
  lower_lt : ∀ a, isInterval a → (lower a : ℝ) < RealAlgebraicNumber.toReal a
  lt_upper : ∀ a, isInterval a → RealAlgebraicNumber.toReal a < (upper a : ℝ)

section Helper

variable {σ : Type u} {A : Type v} [DecidableEq σ] [RealAlgebraicNumber A]
  (lib : ExplanationLibrary σ A)

/-- A constraint as a formula. -/
def ofConstraint : ConstraintT σ → FormulaT σ A
  | .constant b => .const b
  | .proper c => .atom (.constraint c)

/-- `getFormulaAtoms` -/
def getFormulaAtoms (f : FormulaT σ A) : List (Mcsat.Formula σ A) :=
  f.atoms.filter fun
    | .constraint _ => true
    | .varcompare _ => true
    | _ => false

def doccToFormula (docc : DisjunctionOfConstraintConjunctions σ) : FormulaT σ A :=
  lib.create .or (docc.map fun conjunction => lib.create .and (conjunction.map ofConstraint))

/-! ## Zeros -/

/-- A zero with its side conditions. -/
abbrev Zero (σ : Type u) := SqrtEx σ × Finset (ConstraintT σ)

/-- The zeros of a factor, if its degree is not too high. -/
def zerosOfFactor (eliminationVar : σ) (sideConditions : Finset (ConstraintT σ)) (factor : Poly σ ℚ) :
    Option (List (Zero σ)) :=
  let constantCoeff := Poly.coefficient eliminationVar 0 factor
  let linearCoeff := Poly.coefficient eliminationVar 1 factor
  match Poly.maxDegree eliminationVar factor with
  | 0 => some []
  | 1 =>
    -- ({b!=0} + oldConditions, [x -> -c/b])
    let cons := lib.constraint linearCoeff .neq
    some (if cons = .constant false then []
      else [(lib.sqrtEx ⟨Poly.neg constantCoeff, [], [], linearCoeff⟩,
        insertCondition cons sideConditions)])
  | 2 =>
    let leadingCoeff := Poly.coefficient eliminationVar 2 factor
    let radicand := Poly.sub (Poly.mul linearCoeff linearCoeff)
      (Poly.mul (SparsePoly.Poly.const 4) (Poly.mul leadingCoeff constantCoeff))
    let cons11 := lib.constraint leadingCoeff .eq
    let cons12 := lib.constraint linearCoeff .neq
    let cons21 := lib.constraint radicand .geq
    let cons22 := lib.constraint leadingCoeff .neq
    let sideCond := insertCondition cons22 (insertCondition cons21 sideConditions)
    some
      -- ({a==0, b!=0} + oldConditions, [x -> -c/b])
      ((if cons11 = .constant false ∨ cons12 = .constant false then []
        else [(lib.sqrtEx ⟨Poly.neg constantCoeff, [], [], linearCoeff⟩,
          insertCondition cons12 (insertCondition cons11 sideConditions))]) ++
      -- ({a!=0, b^2-4ac>=0} + oldConditions, [x -> (-b-sqrt(b^2-4ac))/2a]) and the other zero
      (if cons21 = .constant false ∨ cons22 = .constant false then []
        else [(lib.sqrtEx ⟨Poly.neg linearCoeff, SparsePoly.Poly.const (-1), radicand,
            Poly.mul (SparsePoly.Poly.const 2) leadingCoeff⟩, sideCond),
          (lib.sqrtEx ⟨Poly.neg linearCoeff, SparsePoly.Poly.const 1, radicand,
            Poly.mul (SparsePoly.Poly.const 2) leadingCoeff⟩, sideCond)]))
  | _ => none

/-- `generateZeros` of a constraint. -/
def generateZeros (constraint : Constraint σ) (eliminationVar : σ) : Option (List (Zero σ)) :=
  if Poly.hasVariable eliminationVar constraint.lhs then
    ((factorsOf lib.toEliminationLibrary true eliminationVar constraint.lhs).mapM
      (zerosOfFactor lib eliminationVar (sideConditionsOf lib.toEliminationLibrary true eliminationVar
        constraint.lhs))).map List.flatten
  else some []

/-- The value of a polynomial without variables. -/
def constantValue (p : Poly σ ℚ) : ℚ := Poly.eval (fun _ => (0 : ℚ)) p

def rationalLessThanSqrtEx (rat : ℚ) (expr : SqrtEx σ) : Bool :=
  let constantPart := constantValue expr.constantPart
  let factor := constantValue expr.factor
  let denominator := constantValue expr.denominator
  let radicand := constantValue expr.radicand
  if factor = 0 then rat < constantPart / denominator
  else
    let rs := denominator * factor
    let lhs := (rat * denominator - constantPart) / factor
    if 0 < rs then lhs < 0 || lhs * lhs < radicand
    else if rs < 0 then 0 < lhs && radicand < lhs * lhs
    else false

def sqrtExLessThanRational (expr : SqrtEx σ) (rat : ℚ) : Bool :=
  let constantPart := constantValue expr.constantPart
  let factor := constantValue expr.factor
  let denominator := constantValue expr.denominator
  let radicand := constantValue expr.radicand
  if factor = 0 then constantPart / denominator < rat
  else
    let rs := denominator * factor
    let lhs := (rat * denominator - constantPart) / factor
    if 0 < rs then 0 < lhs && radicand < lhs * lhs
    else if rs < 0 then lhs < 0 || lhs * lhs < radicand
    else false

/-- `generateZeros` of a real algebraic number: the zero of its polynomial in its interval. -/
def generateZerosNumber (ran : A) : Option (Zero σ) :=
  if RealAlgebraicNumber.isNumeric ran then none
  else if lib.isInterval ran then
    let zeros := match lib.constraint (lib.getIRPolynomial ran) .eq with
      | .constant _ => some []
      | .proper constraint => generateZeros lib constraint (lib.mainVar ran)
    zeros.bind fun zeros => zeros.find? fun zero =>
      rationalLessThanSqrtEx (lib.lower ran) zero.1 && sqrtExLessThanRational zero.1 (lib.upper ran)
  else none

/-- `generateZeros` of the value of a comparison; it is disabled for multivariate roots. -/
def generateZerosValue : ModelValue σ A → Option (Zero σ)
  | .substitution _ => none
  | .number (.rational _) => none
  | .number (.ran a) => generateZerosNumber lib a

/-- `generateZeros` of a literal. -/
def generateZerosLiteral (eliminationVar : σ) : Mcsat.Formula σ A → Option (List (Zero σ))
  | .constraint c => generateZeros lib c eliminationVar
  | .varcompare v =>
    if v.var = eliminationVar then (generateZerosValue lib v.value).map fun zero => [zero] else some []
  | .true | .false => some []
  | .varassign .. => none

/-! ## Test candidates -/

/-- `relation()`, which does not regard whether a comparison is negated. -/
def relation : Mcsat.Formula σ A → Relation
  | .constraint c => c.relation
  | .varcompare v => v.relation
  | .true | .false | .varassign .. => .eq

def addOrMergeTestCandidate (results : List (TestCandidate σ)) (newSubstitution : TestCandidate σ) :
    List (TestCandidate σ) :=
  if newSubstitution ∈ results then results else results ++ [newSubstitution]

/-- The test candidates of a literal. -/
def candidatesOf (eliminationVar : σ) (l : Mcsat.Formula σ A) : Option (List (TestCandidate σ)) :=
  (generateZerosLiteral lib eliminationVar l).map fun zeros =>
    zeros.map fun zero => ⟨⟨eliminationVar, subType (relation l) zero.1⟩, zero.2⟩

def generateTestCandidates (eliminationVar : σ) (constraints : List (Mcsat.Formula σ A)) :
    Option (List (TestCandidate σ)) :=
  (constraints.mapM (candidatesOf lib eliminationVar)).map fun candidates =>
    candidates.flatten.foldl addOrMergeTestCandidate [⟨⟨eliminationVar, .minusInfinity⟩, ∅⟩]

/-! ## Substitution -/

/-- The variables `__subVar1` and `__subVar2`. -/
structure SubVars (σ : Type u) where
  subVar1 : σ
  subVar2 : σ

variable (fresh : SubVars σ)

/-- `substitute`, into a constraint. -/
def substituteConstraint (constraint : ConstraintT σ) (substitution : Substitution σ) :
    Option (FormulaT σ A) :=
  if ConstraintT.hasVariable substitution.var constraint then
    (lib.substitute constraint substitution).map (doccToFormula lib)
  else some (ofConstraint constraint)

/-- The relation of a comparison that may be negated. -/
def varcompRelation (varcomp : VariableComparison σ A) : Relation :=
  if varcomp.negated then varcomp.relation.inverse else varcomp.relation

/-- `subVar1 - subVar2 ~ 0 [term // subVar1] [zero // subVar2]` -/
def substituteBoth (relation : Relation) (type : SubstitutionType σ) (zero : SqrtEx σ) :
    Option (FormulaT σ A) :=
  let subConstraint := lib.constraint
    (Poly.sub (Poly.var fresh.subVar1) (Poly.var fresh.subVar2)) relation
  let disjF := (lib.substitute subConstraint ⟨fresh.subVar1, type⟩).bind fun subRes1 =>
    subRes1.mapM fun conj =>
      (conj.mapM fun constr =>
        (lib.substitute constr ⟨fresh.subVar2, .normal zero⟩).map (doccToFormula lib)).map
          (lib.create .and)
  disjF.map (lib.create .or)

/-- `substitute`, into a comparison. -/
def substituteComparison (varcomp : VariableComparison σ A) (substitution : Substitution σ) :
    Option (FormulaT σ A) :=
  if varcomp.var = substitution.var then
    match substitution.type with
    | .normal _ | .plusEpsilon _ =>
      (generateZerosValue lib varcomp.value).bind fun zero =>
        (substituteBoth lib fresh (varcompRelation varcomp) substitution.type zero.1).map
          fun subRes => lib.create .and (subRes :: (lib.elements zero.2).map ofConstraint)
    | .minusInfinity =>
      -- the square root term is irrelevant
      substituteConstraint lib (lib.constraint (Poly.var fresh.subVar1) (varcompRelation varcomp))
        ⟨fresh.subVar1, .minusInfinity⟩
    | .plusInfinity => none
  else some (.atom (.varcompare varcomp))

/-- `substitute`, into a literal. -/
def substituteLiteral (substitution : Substitution σ) : Mcsat.Formula σ A → Option (FormulaT σ A)
  | .constraint c => substituteConstraint lib (.proper c) substitution
  | .varcompare v => substituteComparison lib fresh v substitution
  | .true | .false | .varassign .. => none

end Helper

end Smtrat.Mcsat.Vs
