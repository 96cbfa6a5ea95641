import Smtrat.Common.Atom

/-!
# Bounds of variables

The bounds on a variable are kept in two ordered sets, one for the upper and one for the lower
bounds.  A bound has a set of origins and is active as long as there is one; it stays in its set
when it has lost them all.  An equation is both an upper and a lower bound.
-/

namespace Smtrat.VB

open SparsePoly PropFormula Function

universe u v w

inductive BoundType where
  | strictLower | weakLower | equal | weakUpper | strictUpper
deriving DecidableEq, Repr

/-- A bound of a variable.  No set has two bounds of one type with one limit, so they are told
apart by these; the limit of an infinite bound is missing. -/
structure Bound where
  mType : BoundType
  mpLimit : Option ℚ
deriving DecidableEq, Repr

namespace Bound

def isUpperBound (b : Bound) : Bool :=
  match b.mType with
  | .equal | .weakUpper | .strictUpper => true
  | .strictLower | .weakLower => false

def isLowerBound (b : Bound) : Bool :=
  match b.mType with
  | .strictLower | .weakLower | .equal => true
  | .weakUpper | .strictUpper => false

def isInfinite (b : Bound) : Bool := b.mpLimit.isNone

/-- `Bound::operator<`: of two upper bounds the stricter one is smaller, of two lower bounds the
weaker one. -/
def lt (a b : Bound) : Bool :=
  if a.isUpperBound && b.isUpperBound then
    match a.mpLimit, b.mpLimit with
    | none, _ => false
    | some _, none => true
    | some l, some m =>
      if l < m then true
      else if l = m then
        match a.mType with
        | .strictUpper => b.mType ≠ .strictUpper
        | .equal => b.mType = .weakUpper
        | _ => false
      else false
  else
    match b.mpLimit, a.mpLimit with
    | none, _ => false
    | some _, none => true
    | some m, some l =>
      if l < m then true
      else if l = m then
        match a.mType with
        | .weakLower => b.mType ≠ .weakLower
        | .equal => b.mType = .strictLower
        | _ => false
      else false

/-- Insertion into an ordered set, and whether the bound is new. -/
def insert (b : Bound) : List Bound → List Bound × Bool
  | [] => ([b], true)
  | c :: cs =>
    if b.lt c then (b :: c :: cs, true)
    else if c.lt b then
      let (cs, new) := insert b cs
      (c :: cs, new)
    else (c :: cs, false)

/-- No value is above the lower bound and below the upper bound. -/
def contradict (l u : Bound) : Bool :=
  match l.mpLimit, u.mpLimit with
  | some m, some n => n < m || (m = n && (l.mType = .strictLower || u.mType = .strictUpper))
  | _, _ => false

end Bound

def supremumOfAll : Bound := ⟨.strictUpper, none⟩

def infimumOfAll : Bound := ⟨.strictLower, none⟩

/-- `Variable`, with the origins of each of its bounds in order. -/
structure Variable (T : Type w) where
  mUpdatedExactInterval : Bool
  mpSupremum : Bound
  mpInfimum : Bound
  mUpperbounds : List Bound
  mLowerbounds : List Bound
  mpOrigins : Bound → List T

/-- `carl::Interval`, as it is constructed here.  The limit of a missing bound does not matter. -/
structure Interval where
  lower : Option (ℚ × Bool)
  upper : Option (ℚ × Bool)
deriving DecidableEq, Repr

namespace Variable

variable {T : Type w}

def new : Variable T where
  mUpdatedExactInterval := true
  mpSupremum := supremumOfAll
  mpInfimum := infimumOfAll
  mUpperbounds := [supremumOfAll]
  mLowerbounds := [infimumOfAll]
  mpOrigins := fun _ => []

/-- An infinite bound has an origin from the start, which is never removed. -/
def isActive (x : Variable T) (b : Bound) : Bool := b.isInfinite || !(x.mpOrigins b).isEmpty

def conflicting (x : Variable T) : Bool := x.mpInfimum.contradict x.mpSupremum

/-- `Variable::updateBounds`, when the bound `b` has changed. -/
def updateBounds (b : Bound) (x : Variable T) : Variable T :=
  { x with
    mUpdatedExactInterval := true
    mpSupremum :=
      if b.isUpperBound then (x.mUpperbounds.find? x.isActive).getD x.mpSupremum else x.mpSupremum
    mpInfimum :=
      if b.isLowerBound then (x.mLowerbounds.reverse.find? x.isActive).getD x.mpInfimum
      else x.mpInfimum }

/-- The interval between the infimum and the supremum, and which of its ends are strict. -/
def interval (x : Variable T) : Interval where
  lower := x.mpInfimum.mpLimit.map (·, x.mpInfimum.mType = .strictLower)
  upper := x.mpSupremum.mpLimit.map (·, x.mpSupremum.mType = .strictUpper)

/-- The bound is put in the sets it belongs to; an equation that is an upper bound already is a
lower bound, too. -/
def insertBound (b : Bound) (x : Variable T) : Variable T :=
  match b.mType with
  | .equal =>
    let (upper, new) := b.insert x.mUpperbounds
    if new then
      { x with mUpperbounds := upper, mLowerbounds := (b.insert x.mLowerbounds).1 }
    else x
  | .weakUpper | .strictUpper => { x with mUpperbounds := (b.insert x.mUpperbounds).1 }
  | .weakLower | .strictLower => { x with mLowerbounds := (b.insert x.mLowerbounds).1 }

variable [LinearOrder T]

/-- `Bound::activate`: the origin must be new.  The result says whether it is the only one. -/
def activate (b : Bound) (o : T) (x : Variable T) : Option (Bool × Variable T) :=
  if o ∈ x.mpOrigins b then none
  else
    let os := (x.mpOrigins b).orderedInsert (· ≤ ·) o
    some (os.length = 1, { x with mpOrigins := update x.mpOrigins b os })

/-- `Bound::deactivate`: the origin must be there.  The result says whether none is left. -/
def deactivate (b : Bound) (o : T) (x : Variable T) : Option (Bool × Variable T) :=
  if o ∈ x.mpOrigins b then
    let os := (x.mpOrigins b).erase o
    some (os.isEmpty, { x with mpOrigins := update x.mpOrigins b os })
  else none

end Variable

/-! ## Bounds of constraints -/

section Constraints

variable {V : Type u}

/-- The coefficient of a power of the only variable of a polynomial. -/
def coefficientSum [DecidableEq V] (x : V) (k : Nat) (p : Poly V ℚ) : ℚ :=
  ((Poly.coefficient x k p).map (·.coeff)).sum

/-- The only variable of a constraint in which it is linear, if that is so.  The polynomial need
not be in normal form, so it is asked that its coefficient does not vanish. -/
def boundedVariable [DecidableEq V] (c : Constraint V) : Option V :=
  match (Poly.variables c.lhs).dedup with
  | [x] => if Poly.maxDegree x c.lhs ≤ 1 ∧ coefficientSum x 1 c.lhs ≠ 0 then some x else none
  | _ => none

/-- The type of the bound that a linear constraint gives for its variable, from its relation and
the coefficient of the variable. -/
def boundType (relation : Relation) (coeff : ℚ) : Option BoundType :=
  match relation with
  | .eq => some .equal
  | .neq => none
  | .geq => some (if coeff < 0 then .weakUpper else .weakLower)
  | .leq => some (if coeff < 0 then .weakLower else .weakUpper)
  | .greater => some (if coeff < 0 then .strictUpper else .strictLower)
  | .less => some (if coeff < 0 then .strictLower else .strictUpper)

/-- The variable a constraint bounds, and the bound it is. -/
def boundOf [DecidableEq V] (c : Constraint V) : Option (V × Bound) :=
  (boundedVariable c).bind fun x =>
    let coeff := coefficientSum x 1 c.lhs
    (boundType c.relation coeff).map fun t => (x, ⟨t, some (-coefficientSum x 0 c.lhs / coeff)⟩)

end Constraints

/-- The constraint that a formula is, as a constraint or the negation of one. -/
def literal {V : Type u} {B : Type v} : Formula (Atom V B) → Option (Constraint V)
  | .atom (.constraint c) => some c
  | .app .not [.atom (.constraint c)] => some c.negation
  | _ => none

/-- `VariableBounds`. -/
structure VariableBounds (V : Type u) (T : Type w) where
  mpConflictingVariable : Option V
  mpVariableMap : AList fun _ : V => Variable T
  mpConstraintBoundMap : Constraint V → Option (V × Bound)
  /-- The intervals that have been computed. -/
  mEvalIntervalMap : V → Interval
  mNonBoundConstraints : List (Constraint V)

namespace VariableBounds

variable {V : Type u} {B : Type v} {T : Type w} [DecidableEq V]

def initial : VariableBounds V T := ⟨none, ∅, fun _ => none, fun _ => ⟨none, none⟩, []⟩

def isConflicting (s : VariableBounds V T) : Bool := s.mpConflictingVariable.isSome

/-- A variable that is not known yet gets no bounds. -/
def touch (s : VariableBounds V T) (x : V) : VariableBounds V T :=
  if (s.mpVariableMap.lookup x).isSome then s
  else { s with mpVariableMap := s.mpVariableMap.insert x .new }

def setVariable (s : VariableBounds V T) (x : V) (y : Variable T) : VariableBounds V T :=
  { s with mpVariableMap := s.mpVariableMap.insert x y }

/-- A variable the bounds of which changed is remembered if it is in conflict. -/
def updated (s : VariableBounds V T) (x : V) (y : Variable T) : VariableBounds V T :=
  { s.setVariable x y with
    mpConflictingVariable := if y.conflicting then some x else s.mpConflictingVariable }

def getInterval (s : VariableBounds V T) (x : V) : Interval × VariableBounds V T :=
  match s.mpVariableMap.lookup x with
  | none =>
    (⟨none, none⟩,
      { s.setVariable x { Variable.new with mUpdatedExactInterval := false } with
        mEvalIntervalMap := update s.mEvalIntervalMap x ⟨none, none⟩ })
  | some y =>
    if y.mUpdatedExactInterval then
      (y.interval, { s.setVariable x { y with mUpdatedExactInterval := false } with
        mEvalIntervalMap := update s.mEvalIntervalMap x y.interval })
    else (s.mEvalIntervalMap x, s)

/-- The first origin of the infimum and of the supremum of a variable, where these are finite. -/
def getOriginsOfBounds (s : VariableBounds V T) (x : V) : List T :=
  match s.mpVariableMap.lookup x with
  | none => []
  | some y =>
    (if y.mpInfimum.isInfinite then [] else ((y.mpOrigins y.mpInfimum).head?).toList)
      ++ if y.mpSupremum.isInfinite then [] else ((y.mpOrigins y.mpSupremum).head?).toList

variable [LinearOrder T]

/-! ## Additions -/

/-- The addition of a constraint that is the bound `b` on `x`.  The constraint may be known from
before, and then so is the bound. -/
def addLinear (c : Constraint V) (o : T) (x : V) (b : Bound) (s : VariableBounds V T) :
    Option (VariableBounds V T) :=
  match s.mpConstraintBoundMap c with
  | some (x, b) =>
    (s.mpVariableMap.lookup x).bind fun y =>
      (y.activate b o).map fun (activated, y) =>
        if activated then s.updated x (y.updateBounds b) else s.setVariable x y
  | none =>
    let s := s.touch x
    (s.mpVariableMap.lookup x).bind fun y =>
      ((y.insertBound b).activate b o).map fun (_, y) =>
        { s.updated x (y.updateBounds b) with
          mpConstraintBoundMap := update s.mpConstraintBoundMap c (some (x, b)) }

/-- `addBound` for a constraint; the result says whether it is a bound. -/
def addBound (c : Constraint V) (o : T) (s : VariableBounds V T) :
    Option (Bool × VariableBounds V T) :=
  match boundOf c with
  | some (x, b) => (s.addLinear c o x b).map (true, ·)
  | none =>
    let vars := (Poly.variables c.lhs).dedup
    if c.relation = .neq then some (false, vars.foldl touch s)
    else if c ∈ s.mNonBoundConstraints then some (false, s)
    else some (false, vars.foldl touch
      { s with mNonBoundConstraints := c :: s.mNonBoundConstraints })

mutual

/-- `addBound` for a formula: no conjunct is added after one that is a bound. -/
def addFormula (o : T) :
    Formula (Atom V B) → VariableBounds V T → Option (Bool × VariableBounds V T)
  | .app .and fs, s => addFormulas o fs false s
  | f, s =>
    match literal f with
    | some c => s.addBound c o
    | none => some (false, s)

def addFormulas (o : T) :
    List (Formula (Atom V B)) → Bool → VariableBounds V T → Option (Bool × VariableBounds V T)
  | [], res, s => some (res, s)
  | f :: fs, res, s =>
    if res then addFormulas o fs true s
    else (addFormula o f s).bind fun (res, s) => addFormulas o fs res s

end

/-! ## Removals -/

/-- The removal of a constraint that is a bound. -/
def removeLinear (c : Constraint V) (o : T) (s : VariableBounds V T) :
    Option (Nat × VariableBounds V T) :=
  (s.mpConstraintBoundMap c).bind fun (x, b) =>
    (s.mpVariableMap.lookup x).bind fun y =>
      (y.deactivate b o).map fun (deactivated, y) =>
        if deactivated then
          let y := y.updateBounds b
          (2, { s.setVariable x y with
            mpConflictingVariable := if y.conflicting then some x else none })
        else (1, s.setVariable x y)

/-- `removeBound` for a constraint. -/
def removeBound (c : Constraint V) (o : T) (s : VariableBounds V T) :
    Option (Nat × VariableBounds V T) :=
  match boundOf c with
  | some _ => s.removeLinear c o
  | none =>
    if c.relation = .neq then some (0, s)
    else some (0, { s with mNonBoundConstraints := s.mNonBoundConstraints.erase c })

mutual

/-- `removeBound` for a formula: all the conjuncts are removed. -/
def removeFormula (o : T) :
    Formula (Atom V B) → VariableBounds V T → Option (Nat × VariableBounds V T)
  | .app .and fs, s => removeFormulas o fs 0 s
  | f, s =>
    match literal f with
    | some c => s.removeBound c o
    | none => some (0, s)

def removeFormulas (o : T) :
    List (Formula (Atom V B)) → Nat → VariableBounds V T → Option (Nat × VariableBounds V T)
  | [], res, s => some (res, s)
  | f :: fs, res, s =>
    (removeFormula o f s).bind fun (r, s) => removeFormulas o fs (max res r) s

end

/-! ## Runs -/

inductive Action (V : Type u) (B : Type v) (T : Type w) where
  | addBound (f : Formula (Atom V B)) (origin : T)
  | removeBound (f : Formula (Atom V B)) (origin : T)
  | getInterval (x : V)

def step (s : VariableBounds V T) : Action V B T → Option (VariableBounds V T)
  | .addBound f o => (addFormula o f s).map (·.2)
  | .removeBound f o => (removeFormula o f s).map (·.2)
  | .getInterval x => some (s.getInterval x).2

end VariableBounds

end Smtrat.VB
