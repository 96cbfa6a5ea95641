import Smtrat.Common.Atom

/-!
# Fourier-Motzkin explanations of MCSAT

`ConflictGenerator::generateExplanation` takes a list of constraints, a model that assigns a
rational to every variable but `x`, and `x`.  Every constraint that is linear in `x` is split
as `p * x ~ q` and evaluated to a bound `x ~ r`; pairs and triples of bounds that leave no value
for `x` are turned into clauses and handed to a callback, which may end the search.

`std::sort` with the comparator of the template parameter is an insertion sort here: only the
order of the calls depends on it, never which bounds are combined.
-/

namespace Smtrat.Mcsat.FM

open SparsePoly

universe u

variable {σ : Type u} [DecidableEq σ]

/-- A constraint read as a bound on the eliminated variable. -/
structure Bound (σ : Type u) where
  /-- The constraint `p * x ~ q` the bound stems from. -/
  constr : Constraint σ
  p : Poly σ ℚ
  q : Poly σ ℚ
  /-- The value of `q / p` under the model. -/
  r : ℚ
  /-- Whether `p` is negative under the model. -/
  neg : Bool
deriving Repr

/-- The literals of an explanation, read as a disjunction. -/
abbrev Clause (σ : Type u) := List (Constraint σ)

/-! ## Conflict shapes -/

def sideCondition (b : Bound σ) : Constraint σ := ⟨b.p, .neq⟩

def sideConditionLoUp (b : Bound σ) : Constraint σ := ⟨b.p, if b.neg then .less else .greater⟩

/-- `l.q * u.p - u.q * l.p`. -/
def crossProduct (l u : Bound σ) : Poly σ ℚ := .sub (.mul l.q u.p) (.mul u.q l.p)

def strict (lower upper : Bound σ) : Bool :=
  lower.constr.relation.isStrict || upper.constr.relation.isStrict

def conflictLowerAndUpperBound (lower upper : Bound σ) : Clause σ :=
  let rel : Relation :=
    if xor lower.neg upper.neg then (if strict lower upper then .greater else .geq)
    else (if strict lower upper then .less else .leq)
  [lower.constr.negation, upper.constr.negation, ⟨crossProduct lower upper, rel⟩,
    (sideConditionLoUp lower).negation, (sideConditionLoUp upper).negation]

def conflictEqualityAndInequality (eq ineq : Bound σ) : Clause σ :=
  [ineq.constr.negation, eq.constr.negation, ⟨crossProduct eq ineq, .neq⟩,
    (sideCondition eq).negation, (sideCondition ineq).negation]

def conflictInequalitiesAndInequality (lower upper ineq : Bound σ) : Clause σ :=
  [ineq.constr.negation, lower.constr.negation, upper.constr.negation,
    Constraint.negation ⟨crossProduct lower upper, .eq⟩, ⟨crossProduct lower ineq, .neq⟩,
    (sideCondition ineq).negation, (sideConditionLoUp lower).negation,
    (sideConditionLoUp upper).negation]

/-- The clause for a constraint whose coefficient of `x` vanishes under the model. -/
def conflictZeroCoefficient (b : Constraint σ) (p q : Poly σ ℚ) : Clause σ :=
  [b.negation, Constraint.negation ⟨p, .eq⟩, ⟨.neg q, b.relation⟩]

/-! ## The callback -/

/-- The clauses handed to the callback so far, and whether it ended the search. -/
structure Calls (σ : Type u) where
  passed : List (Clause σ) := []
  returned : Bool := false

/-- A callback decides from the clauses it has seen and the current one whether to stop. -/
abbrev Callback (σ : Type u) := List (Clause σ) → Clause σ → Bool

/-- `mcsat_yield`. -/
def mcsatYield (callback : Callback σ) (out : Calls σ) (result : Clause σ) : Calls σ :=
  if out.returned then out else ⟨out.passed ++ [result], callback out.passed result⟩

/-! ## Collecting the bounds -/

structure Bounds (σ : Type u) where
  mLower : List (Bound σ) := []
  mUpper : List (Bound σ) := []
  mInequalities : List (Bound σ) := []
  mEqualities : List (Bound σ) := []
  out : Calls σ := {}

/-- `q = p * x - lhs`. -/
def remainder (x : σ) (b : Constraint σ) : Poly σ ℚ :=
  .sub (.mul (.coefficient x 1 b.lhs) (.var x)) b.lhs

/-- Files a bound under the kinds its relation and the sign of `p` make it. -/
def Bounds.insert (s : Bounds σ) (b : Bound σ) : Bounds σ :=
  match b.constr.relation with
  | .less | .leq =>
    if b.neg then { s with mLower := s.mLower ++ [b] } else { s with mUpper := s.mUpper ++ [b] }
  | .eq => { s with
      mLower := s.mLower ++ [b]
      mUpper := s.mUpper ++ [b]
      mEqualities := s.mEqualities ++ [b] }
  | .neq => { s with mInequalities := s.mInequalities ++ [b] }
  | .geq | .greater =>
    if b.neg then { s with mUpper := s.mUpper ++ [b] } else { s with mLower := s.mLower ++ [b] }

/-- One round of the loop over `mBounds`.  The model is total, so both `isRational` tests of
the source succeed; its value at `x` is never looked at, since neither `p` nor `q` contains `x`. -/
def processBound (mModel : σ → ℚ) (x : σ) (callback : Callback σ) (s : Bounds σ)
    (b : Constraint σ) : Bounds σ :=
  if s.out.returned then s
  else if ¬ b.lhs.hasVariable x then s
  else if b.lhs.maxDegree x > 1 then s
  else
    let p := b.lhs.coefficient x 1
    if p.isEmpty then s
    else
      let evalp := p.eval mModel
      let q := remainder x b
      let evalq := q.eval mModel
      if evalp = 0 then
        if b.relation.evaluate 0 evalq then s
        else { s with out := mcsatYield callback s.out (conflictZeroCoefficient b p q) }
      else s.insert ⟨b, p, q, evalq / evalp, evalp < 0⟩

def collectBounds (mModel : σ → ℚ) (x : σ) (callback : Callback σ)
    (mBounds : List (Constraint σ)) : Bounds σ :=
  mBounds.foldl (processBound mModel x callback) {}

/-! ## Combining the bounds -/

/-- The comparator of the template parameter. -/
structure Comparator (σ : Type u) where
  symmetric : Bool
  lt : Bound σ → Bound σ → Bool

def Comparator.sort (c : Comparator σ) (l : List (Bound σ)) : List (Bound σ) :=
  l.insertionSort fun a b => !c.lt b a

/-- A pair is in conflict, or both bounds are weak and agree, or neither. -/
def combine (callback : Callback σ) (s : Calls σ × List (Bound σ × Bound σ))
    (pair : Bound σ × Bound σ) : Calls σ × List (Bound σ × Bound σ) :=
  if s.1.returned then s
  else if pair.1.r < pair.2.r then s
  else if pair.1.r = pair.2.r ∧ ¬ strict pair.1 pair.2 then (s.1, s.2 ++ [pair])
  else (mcsatYield callback s.1 (conflictLowerAndUpperBound pair.1 pair.2), s.2)

def resolveEquality (mInequalities : List (Bound σ)) (callback : Callback σ) (out : Calls σ)
    (eq : Bound σ) : Calls σ :=
  match mInequalities.find? fun i => i.r = eq.r with
  | some ineq => mcsatYield callback out (conflictEqualityAndInequality eq ineq)
  | none => out

def resolvePair (mInequalities : List (Bound σ)) (callback : Callback σ) (out : Calls σ)
    (bounds : Bound σ × Bound σ) : Calls σ :=
  match mInequalities.find? fun i => i.r = bounds.1.r with
  | some ineq =>
    mcsatYield callback out (conflictInequalitiesAndInequality bounds.1 bounds.2 ineq)
  | none => out

/-- The pairs of a lower and an upper bound in the order the sorted lists put them. -/
def boundPairs (comparator : Comparator σ) (s : Bounds σ) : List (Bound σ × Bound σ) :=
  let mUpper :=
    if comparator.symmetric then (comparator.sort s.mUpper).reverse else comparator.sort s.mUpper
  (comparator.sort s.mLower).flatMap fun lower => mUpper.map fun upper => (lower, upper)

def combineBounds (comparator : Comparator σ) (callback : Callback σ) (s : Bounds σ) :
    Calls σ × List (Bound σ × Bound σ) :=
  (boundPairs comparator s).foldl (combine callback) (s.out, [])

/-- `ConflictGenerator::generateExplanation`: the clauses passed to the callback, in order. -/
def generateExplanation (comparator : Comparator σ) (mBounds : List (Constraint σ))
    (mModel : σ → ℚ) (x : σ) (callback : Callback σ) : List (Clause σ) :=
  let s := collectBounds mModel x callback mBounds
  let combined := combineBounds comparator callback s
  let out := s.mEqualities.foldl (resolveEquality s.mInequalities callback) combined.1
  (combined.2.foldl (resolvePair s.mInequalities callback) out).passed

end Smtrat.Mcsat.FM
