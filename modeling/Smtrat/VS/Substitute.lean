import Smtrat.Common.Atom
import Smtrat.Math.Univariate

/-!
# Virtual substitution

A square root term, such a term plus an infinitesimal, or an infinite value is substituted for a
variable in a constraint.  The result is a disjunction of conjunctions of constraints, which the
functions append to the disjunction they are given; where it would get too large they give up.
-/

namespace Smtrat.VS

open SparsePoly

universe u

/-- `ConstraintT` as it is stored: `TRUE`, `FALSE` or a constraint. -/
inductive ConstraintT (V : Type u) where
  | constant (b : Bool)
  | proper (c : Constraint V)
deriving DecidableEq

/-- The square root expression `(constantPart + factor * sqrt(radicand)) / denominator`. -/
structure SqrtEx (V : Type u) where
  constantPart : Poly V ℚ
  factor : Poly V ℚ
  radicand : Poly V ℚ
  denominator : Poly V ℚ
deriving DecidableEq

variable {V : Type u}

def ConstraintT.Sat (α : V → ℝ) : ConstraintT V → Prop
  | constant b => b = true
  | proper c => c.Sat α

/-- A disjunction of conjunctions of constraints. -/
abbrev DisjunctionOfConstraintConjunctions (V : Type u) := List (List (ConstraintT V))

/-- One of the conjunctions is true under an assignment. -/
def Holds (α : V → ℝ) (d : DisjunctionOfConstraintConjunctions V) : Prop :=
  ∃ conj ∈ d, ∀ c ∈ conj, c.Sat α

namespace SqrtEx

/-- The side conditions of a term. -/
structure Defined (α : V → ℝ) (t : SqrtEx V) : Prop where
  radicand_nonneg : 0 ≤ Poly.eval α t.radicand
  denominator_ne_zero : Poly.eval α t.denominator ≠ 0

noncomputable def value (α : V → ℝ) (t : SqrtEx V) : ℝ :=
  (Poly.eval α t.constantPart + Poly.eval α t.factor * √(Poly.eval α t.radicand)) /
    Poly.eval α t.denominator

def hasSqrt (t : SqrtEx V) : Bool := !t.factor.isEmpty

end SqrtEx

def isConstant (p : Poly V ℚ) : Bool := (Poly.variables p).isEmpty

def hasConstantTerm (p : Poly V ℚ) : Bool := p.any fun t => t.monomial.isEmpty

/-- What is used of polynomials and constraints that is not modelled. -/
structure PolynomialLibrary (V : Type u) [DecidableEq V] where
  /-- The constraint that is stored for a polynomial and a relation. -/
  constraint : Poly V ℚ → Relation → ConstraintT V
  sat_constraint : ∀ p r (α : V → ℝ), (constraint p r).Sat α ↔ r.evaluate (Poly.eval α p) 0
  /-- A term is substituted for a variable in a polynomial. -/
  subBySqrtEx : Poly V ℚ → V → SqrtEx V → SqrtEx V
  subBySqrtEx_defined : ∀ p x t (α : V → ℝ), t.Defined α → (subBySqrtEx p x t).Defined α
  subBySqrtEx_value : ∀ p x t (α : V → ℝ), t.Defined α →
    (subBySqrtEx p x t).value α = Poly.eval (Function.update α x (t.value α)) p
  denominator_pos : ∀ p x t (α : V → ℝ), t.Defined α → isConstant t.denominator →
    0 < Poly.eval α (subBySqrtEx p x t).denominator
  /-- The leading coefficient is negative. -/
  lcoeffNegative : Poly V ℚ → Bool
  /-- A decomposition into squares with positive factors, empty if none is found. -/
  sosDecomposition : Poly V ℚ → List (ℚ × Poly V ℚ)
  sosDecomposition_pos : ∀ p, ∀ s ∈ sosDecomposition p, 0 < s.1
  sosDecomposition_eval : ∀ p, sosDecomposition p ≠ [] → ∀ α : V → ℝ,
    Poly.eval α p = ((sosDecomposition p).map fun s => (s.1 : ℝ) * Poly.eval α s.2 ^ 2).sum

/-! ## Simplification and combination -/

/-- A conjunction without `TRUE`, if it does not contain `FALSE`. -/
def simplifyConjunction [DecidableEq V] (conj : List (ConstraintT V)) :
    Option (List (ConstraintT V)) :=
  if .constant false ∈ conj then none else some (conj.filter (· ≠ .constant true))

/-- `simplify`, with an empty solution space; only the first empty conjunction is kept. -/
def simplify [DecidableEq V] (containsEmptyDisjunction : Bool) :
    DisjunctionOfConstraintConjunctions V → DisjunctionOfConstraintConjunctions V
  | [] => []
  | conj :: rest =>
    match simplifyConjunction conj with
    | none => simplify containsEmptyDisjunction rest
    | some [] =>
      if containsEmptyDisjunction then simplify true rest else [] :: simplify true rest
    | some conj => conj :: simplify containsEmptyDisjunction rest

def MAX_NUM_OF_TERMS : Nat := 512

def MAX_NUM_OF_COMBINATION_RESULT : Nat := 1025

/-- The number of combinations is estimated: `none` if there are too many, and `false` if one of the
disjunctions is empty. -/
def estimate : Nat → List (DisjunctionOfConstraintConjunctions V) → Option Bool
  | _, [] => some true
  | estimatedResultSize, d :: ds =>
    if d.isEmpty then some false
    else
      let size := estimatedResultSize * (d.length % 2 ^ 32) % 2 ^ 32
      if MAX_NUM_OF_COMBINATION_RESULT < size then none else estimate size ds

/-- All the ways to choose a conjunction of each disjunction, the first one changing fastest. -/
def combinations :
    List (DisjunctionOfConstraintConjunctions V) → DisjunctionOfConstraintConjunctions V
  | [] => [[]]
  | d :: ds => (combinations ds).flatMap fun rest => d.map fun conj => conj ++ rest

def combine (toCombine : List (DisjunctionOfConstraintConjunctions V))
    (combination : DisjunctionOfConstraintConjunctions V) :
    Bool × DisjunctionOfConstraintConjunctions V :=
  if toCombine.isEmpty then (true, combination)
  else
    match estimate 1 toCombine with
    | none => (false, combination)
    | some false => (true, combination)
    | some true => (true, combination ++ combinations toCombine)

/-! ## Square root terms -/

section Normal

variable [DecidableEq V] (lib : PolynomialLibrary V)

def tooManyTerms (ps : List (Poly V ℚ)) : Bool := ps.any fun p => MAX_NUM_OF_TERMS < p.length

/-- `q^2 - r^2 * radicand`. -/
def squareDifference (radicand q r : Poly V ℚ) : Poly V ℚ :=
  Poly.sub (Poly.mul q q) (Poly.mul (Poly.mul r r) radicand)

def substituteNormalSqrtEq (radicand q r : Poly V ℚ)
    (result : DisjunctionOfConstraintConjunctions V) (accordingPaper : Bool) :
    Bool × DisjunctionOfConstraintConjunctions V :=
  if tooManyTerms [q, r, radicand] then (false, result)
  else
    let lhs := squareDifference radicand q r
    (true, result ++
      if accordingPaper then
        [[lib.constraint (Poly.mul q r) .leq, lib.constraint lhs .eq]]
      else
        [[lib.constraint q .eq, lib.constraint r .eq],
          [lib.constraint q .eq, lib.constraint radicand .eq],
          [lib.constraint q .less, lib.constraint r .greater, lib.constraint lhs .eq],
          [lib.constraint q .greater, lib.constraint r .less, lib.constraint lhs .eq]])

def substituteNormalSqrtNeq (radicand q r : Poly V ℚ)
    (result : DisjunctionOfConstraintConjunctions V) (accordingPaper : Bool) :
    Bool × DisjunctionOfConstraintConjunctions V :=
  if tooManyTerms [q, r, radicand] then (false, result)
  else
    let lhs := squareDifference radicand q r
    (true, result ++
      if accordingPaper then
        [[lib.constraint (Poly.mul q r) .greater, lib.constraint lhs .neq]]
      else
        [[lib.constraint q .greater, lib.constraint r .greater],
          [lib.constraint q .less, lib.constraint r .less],
          [lib.constraint lhs .neq]])

def substituteNormalSqrtLess (radicand q r s : Poly V ℚ)
    (result : DisjunctionOfConstraintConjunctions V) (accordingPaper : Bool) :
    Bool × DisjunctionOfConstraintConjunctions V :=
  if tooManyTerms [q, r, radicand] then (false, result)
  else
    let lhs := squareDifference radicand q r
    let qs := Poly.mul q s
    let rs := Poly.mul r s
    (true, result ++
      if accordingPaper then
        [[lib.constraint qs .less, lib.constraint lhs .greater],
          [lib.constraint rs .leq, lib.constraint qs .less],
          [lib.constraint rs .leq, lib.constraint lhs .less]]
      else
        [[lib.constraint q .less, lib.constraint s .greater, lib.constraint lhs .greater],
          [lib.constraint q .greater, lib.constraint s .less, lib.constraint lhs .greater],
          [lib.constraint r .greater, lib.constraint s .less, lib.constraint lhs .less],
          [lib.constraint r .less, lib.constraint s .greater, lib.constraint lhs .less],
          [lib.constraint r .geq, lib.constraint q .greater, lib.constraint s .less],
          [lib.constraint r .leq, lib.constraint q .less, lib.constraint s .greater]])

def substituteNormalSqrtLeq (radicand q r s : Poly V ℚ)
    (result : DisjunctionOfConstraintConjunctions V) (accordingPaper : Bool) :
    Bool × DisjunctionOfConstraintConjunctions V :=
  if tooManyTerms [q, r, radicand] then (false, result)
  else
    let lhs := squareDifference radicand q r
    let qs := Poly.mul q s
    let rs := Poly.mul r s
    (true, result ++
      if accordingPaper then
        [[lib.constraint qs .leq, lib.constraint lhs .geq],
          [lib.constraint rs .leq, lib.constraint lhs .leq]]
      else
        [[lib.constraint q .less, lib.constraint s .greater, lib.constraint lhs .geq],
          [lib.constraint q .greater, lib.constraint s .less, lib.constraint lhs .geq],
          [lib.constraint r .greater, lib.constraint s .less, lib.constraint lhs .leq],
          [lib.constraint r .less, lib.constraint s .greater, lib.constraint lhs .leq],
          [lib.constraint r .eq, lib.constraint q .eq],
          [lib.constraint radicand .eq, lib.constraint q .eq]])

/-- The relation with the sides exchanged. -/
def inverseRelation : Relation → Relation
  | .less => .greater
  | .greater => .less
  | .leq => .geq
  | .geq => .leq
  | r => r

/-- The conjunctions for a term `q/s`, by the sign of a denominator that is not constant. -/
def rationalCases (relation : Relation) (sub : SqrtEx V) (constantDenominator : Bool) :
    DisjunctionOfConstraintConjunctions V :=
  if relation = .eq ∨ relation = .neq ∨ constantDenominator then
    [[lib.constraint sub.constantPart relation]]
  else
    [[lib.constraint sub.denominator .greater, lib.constraint sub.constantPart relation],
      [lib.constraint sub.denominator .less,
        lib.constraint sub.constantPart (inverseRelation relation)]]

/-- The cases for a term `(q+r*sqrt(b^2-4ac))/s`. -/
def sqrtCases (relation : Relation) (sub : SqrtEx V) (constantDenominator : Bool)
    (result : DisjunctionOfConstraintConjunctions V) (accordingPaper : Bool) :
    Bool × DisjunctionOfConstraintConjunctions V :=
  let s := if constantDenominator then SparsePoly.Poly.const 1 else sub.denominator
  match relation with
  | .eq => substituteNormalSqrtEq lib sub.radicand sub.constantPart sub.factor result accordingPaper
  | .neq =>
    substituteNormalSqrtNeq lib sub.radicand sub.constantPart sub.factor result accordingPaper
  | .less =>
    substituteNormalSqrtLess lib sub.radicand sub.constantPart sub.factor s result accordingPaper
  | .greater => substituteNormalSqrtLess lib sub.radicand sub.constantPart sub.factor
      (SparsePoly.Poly.neg s) result accordingPaper
  | .leq =>
    substituteNormalSqrtLeq lib sub.radicand sub.constantPart sub.factor s result accordingPaper
  | .geq => substituteNormalSqrtLeq lib sub.radicand sub.constantPart sub.factor
      (SparsePoly.Poly.neg s) result accordingPaper

def substituteNormal (cons : ConstraintT V) (x : V) (term : SqrtEx V)
    (result : DisjunctionOfConstraintConjunctions V) (accordingPaper : Bool) :
    Bool × DisjunctionOfConstraintConjunctions V :=
  match cons with
  | .constant b => (true, simplify false (result ++ [[.constant b]]))
  | .proper c =>
    if Poly.hasVariable x c.lhs then
      if MAX_NUM_OF_TERMS * MAX_NUM_OF_TERMS < (term.constantPart.length +
          term.factor.length * term.radicand.length) ^ Poly.maxDegree x c.lhs then
        (false, result)
      else
        let sub := lib.subBySqrtEx c.lhs x term
        let constantDenominator := isConstant term.denominator
        let r := if sub.hasSqrt then
            sqrtCases lib c.relation sub constantDenominator result accordingPaper
          else (true, result ++ rationalCases lib c.relation sub constantDenominator)
        (r.1, simplify false r.2)
    else (true, simplify false (result ++ [[.proper c]]))

end Normal

/-! ## Infinitesimals and infinite values -/

section Limits

variable [DecidableEq V] (lib : PolynomialLibrary V)

def substituteTrivialCase (p : Poly V ℚ) (x : V) : List (ConstraintT V) :=
  (List.range (Poly.maxDegree x p + 1)).map fun i => lib.constraint (Poly.coefficient x i p) .eq

def substituteNotTrivialCase (p : Poly V ℚ) (x : V) : DisjunctionOfConstraintConjunctions V :=
  (List.range (Poly.maxDegree x p + 1)).map fun i => [lib.constraint (Poly.coefficient x i p) .neq]

/-- The loop over the derivatives; the numbers of steps is the degree of the first polynomial. -/
def substituteDerivatives (x : V) (term : SqrtEx V) (relation : Relation) (accordingPaper : Bool) :
    Nat → Poly V ℚ → List (DisjunctionOfConstraintConjunctions V) →
      DisjunctionOfConstraintConjunctions V → Bool × DisjunctionOfConstraintConjunctions V
  | 0, _, _, result => (true, result)
  | n + 1, deriv, equations, result =>
    if Poly.hasVariable x deriv then
      let next := Poly.derivative x deriv
      let equation := substituteNormal lib (lib.constraint deriv .eq) x term [] accordingPaper
      let inequality :=
        substituteNormal lib (lib.constraint next relation) x term [] accordingPaper
      if !equation.1 then (false, result)
      else if !inequality.1 then (false, result)
      else
        let combined := combine (equations ++ [equation.2, inequality.2]) result
        if !combined.1 then (false, combined.2)
        else substituteDerivatives x term relation accordingPaper n next
          (equations ++ [equation.2]) (simplify false combined.2)
    else (true, result)

def substituteEpsGradients (p : Poly V ℚ) (x : V) (term : SqrtEx V) (relation : Relation)
    (result : DisjunctionOfConstraintConjunctions V) (accordingPaper : Bool) :
    Bool × DisjunctionOfConstraintConjunctions V :=
  let first := substituteNormal lib (lib.constraint p relation) x term result accordingPaper
  if !first.1 then first
  else substituteDerivatives lib x term relation accordingPaper (Poly.maxDegree x p) p [] first.2

def substitutePlusEps (cons : ConstraintT V) (x : V) (term : SqrtEx V)
    (result : DisjunctionOfConstraintConjunctions V) (accordingPaper : Bool) :
    Bool × DisjunctionOfConstraintConjunctions V :=
  match cons with
  | .constant _ => (true, result)
  | .proper c =>
    if isConstant c.lhs then (true, result)
    else if Poly.hasVariable x c.lhs then
      let r := match c.relation with
        | .eq => (true, result ++ [substituteTrivialCase lib c.lhs x])
        | .neq => (true, result ++ substituteNotTrivialCase lib c.lhs x)
        | .less => substituteEpsGradients lib c.lhs x term .less result accordingPaper
        | .greater => substituteEpsGradients lib c.lhs x term .greater result accordingPaper
        | .leq => substituteEpsGradients lib c.lhs x term .less
            (result ++ [substituteTrivialCase lib c.lhs x]) accordingPaper
        | .geq => substituteEpsGradients lib c.lhs x term .greater
            (result ++ [substituteTrivialCase lib c.lhs x]) accordingPaper
      (r.1, simplify false r.2)
    else (true, result ++ [[.proper c]])

inductive SubstitutionType (V : Type u) where
  | normal (term : SqrtEx V)
  | plusEpsilon (term : SqrtEx V)
  | minusInfinity
  | plusInfinity
deriving DecidableEq

structure Substitution (V : Type u) where
  var : V
  type : SubstitutionType V
deriving DecidableEq

/-- The relations for the leading coefficients of odd and of even degree. -/
def coefficientRelations (type : SubstitutionType V) (relation : Relation) : Relation × Relation :=
  if type = .minusInfinity then
    if relation = .greater ∨ relation = .geq then (.less, .greater) else (.greater, .less)
  else
    if relation = .less ∨ relation = .leq then (.less, .greater) else (.greater, .less)

/-- The relation for a leading coefficient of degree `k`. -/
def leadingRelation (type : SubstitutionType V) (relation : Relation) (k : Nat) : Relation :=
  if k = 0 then relation
  else if k % 2 ≠ 0 then (coefficientRelations type relation).1
  else (coefficientRelations type relation).2

/-- The conjunction for a leading coefficient of degree `k`. -/
def leadingCase (type : SubstitutionType V) (c : Constraint V) (x : V) (k : Nat) :
    List (ConstraintT V) :=
  let degree := Poly.maxDegree x c.lhs
  (List.range (degree - k)).map (fun j => lib.constraint (Poly.coefficient x (degree - j) c.lhs) .eq)
    ++ [lib.constraint (Poly.coefficient x k c.lhs) (leadingRelation type c.relation k)]

def substituteInfLessGreater (type : SubstitutionType V) (c : Constraint V) (x : V) :
    DisjunctionOfConstraintConjunctions V :=
  (List.range (Poly.maxDegree x c.lhs + 1)).reverse.map (leadingCase lib type c x)

def substituteInf (cons : ConstraintT V) (x : V) (type : SubstitutionType V)
    (result : DisjunctionOfConstraintConjunctions V) : DisjunctionOfConstraintConjunctions V :=
  match cons with
  | .constant _ => result
  | .proper c =>
    if isConstant c.lhs then result
    else if Poly.hasVariable x c.lhs then
      simplify false (result ++
        if c.relation = .eq then [substituteTrivialCase lib c.lhs x]
        else if c.relation = .neq then substituteNotTrivialCase lib c.lhs x
        else substituteInfLessGreater lib type c x)
    else result ++ [[.proper c]]

end Limits

/-! ## Sums of squares -/

/-- What is done with a constraint whose left-hand side is a sum of squares. -/
inductive Judgement (V : Type u) where
  | keep
  | invalid
  /-- The constraint is removed, and the squares are equated with zero. -/
  | replace (squares : List (Poly V ℚ))
deriving DecidableEq

section SumOfSquares

variable [DecidableEq V] (lib : PolynomialLibrary V)

/-- The squares of the left-hand side, with the opposite sign if it starts with a negative term. -/
def decomposition (p : Poly V ℚ) : List (ℚ × Poly V ℚ) :=
  lib.sosDecomposition (if lib.lcoeffNegative p then SparsePoly.Poly.neg p else p)

omit [DecidableEq V] in
/-- The cases of the relation for a sum of squares. -/
def judgeSum (relation : Relation) (lcoeffNeg constantTerm : Bool) (squares : List (Poly V ℚ)) :
    Judgement V :=
  match relation with
  | .eq => if constantTerm then .invalid else .replace squares
  | .neq => if constantTerm then .replace [] else .keep
  | .leq =>
    if lcoeffNeg then .replace [] else if constantTerm then .invalid else .replace squares
  | .less => if lcoeffNeg then if constantTerm then .replace [] else .keep else .invalid
  | .geq =>
    if !lcoeffNeg then .replace [] else if constantTerm then .invalid else .replace squares
  | .greater => if lcoeffNeg then .invalid else if constantTerm then .replace [] else .keep

def judge : ConstraintT V → Judgement V
  | .constant _ => .keep
  | .proper c =>
    let sosDec := decomposition lib c.lhs
    if sosDec.length ≤ 1 then .keep
    else judgeSum c.relation (lib.lcoeffNegative c.lhs) (hasConstantTerm c.lhs) (sosDec.map (·.2))

/-- An element is removed by moving the last one to its place. -/
def removeAt {A : Type u} (l : List A) (pos : Nat) : List A :=
  match l.getLast? with
  | none => []
  | some b => (l.set pos b).dropLast

/-- The loop over a conjunction; `none` if it takes too many steps, and no conjunction if it is
found to be invalid. -/
def splitConjunction : Nat → List (ConstraintT V) → Nat → Option (Option (List (ConstraintT V)))
  | 0, _, _ => none
  | n + 1, cc, pos =>
    match cc[pos]? with
    | none => some (some cc)
    | some c =>
      match judge lib c with
      | .keep => splitConjunction n cc (pos + 1)
      | .invalid => some none
      | .replace squares =>
        splitConjunction n (removeAt cc pos ++ squares.map (lib.constraint · .eq)) pos

/-- `splitSosDecompositions`, with a bound on the steps for each conjunction. -/
def splitSosDecompositions (fuel : Nat) :
    Nat → DisjunctionOfConstraintConjunctions V → Nat →
      Option (DisjunctionOfConstraintConjunctions V)
  | 0, toSimplify, _ => some toSimplify
  | n + 1, toSimplify, i =>
    match toSimplify[i]? with
    | none => some toSimplify
    | some cc =>
      match splitConjunction lib fuel cc 0 with
      | none => none
      | some none => splitSosDecompositions fuel n (removeAt toSimplify i) i
      | some (some cc) => splitSosDecompositions fuel n (toSimplify.set i cc) (i + 1)

/-- The substitution by its type. -/
def substituteByType (cons : ConstraintT V) (subs : Substitution V) (accordingPaper : Bool) :
    Bool × DisjunctionOfConstraintConjunctions V :=
  match subs.type with
  | .normal term => substituteNormal lib cons subs.var term [] accordingPaper
  | .plusEpsilon term => substitutePlusEps lib cons subs.var term [] accordingPaper
  | .minusInfinity => (true, substituteInf lib cons subs.var .minusInfinity [])
  | .plusInfinity => (true, substituteInf lib cons subs.var .plusInfinity [])

def substitute (fuel : Nat) (cons : ConstraintT V) (subs : Substitution V)
    (accordingPaper : Bool) : Option (Bool × DisjunctionOfConstraintConjunctions V) :=
  let r := substituteByType lib cons subs accordingPaper
  if r.1 then (splitSosDecompositions lib fuel r.2.length r.2 0).map fun d => (true, d)
  else some r

end SumOfSquares

end Smtrat.VS
