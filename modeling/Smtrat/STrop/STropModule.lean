import Smtrat.STrop.Linearization

/-!
# The module

All received constraints with the same left-hand side after normalization share a separator.  A
check decides for each separator the direction it is used in, updates the formulas of the inner
solver where this direction has changed, and asks the inner solver for exponents and signs.
-/

namespace Smtrat.STrop

open SparsePoly PropFormula Function

universe u v

/-- The values the inner solver gives to its variables; a sign variant without a value is false. -/
structure LRAModel (V : Type u) where
  arith : InnerVariable V → ℚ
  bool : V → Bool

/-- What the inner solver answers, and its infeasible subsets if it has found no model. -/
inductive Reply (V : Type u) where
  | sat (model : LRAModel V)
  | other (infeasibleSubsets : List (List (LinearFormula V)))

noncomputable def LRAModel.toAssignment {V : Type u} (m : LRAModel V) :
    Assignment (InnerVariable V) V := ⟨fun x => m.arith x, m.bool, fun _ => false⟩

/-- The inner solver at some point of a run. -/
structure LASolver (V : Type u) where
  check : List (LinearFormula V) → Reply V
  sound : ∀ fs m, check fs = .sat m → ∀ f ∈ fs, m.toAssignment.Satisfies f

/-- What the backends answer, and their infeasible subsets. -/
structure BackendsReply (V : Type u) (B : Type v) where
  answer : Answer
  infeasibleSubsets : List (List (Formula (Atom V B)))

variable {V : Type u} {B : Type v}

/-! ## Normalized constraints -/

section Normalize

/-- The coefficient of the leading term, which is the last one. -/
def lcoeff (p : Poly V ℚ) : ℚ :=
  match p.getLast? with
  | some t => t.coeff
  | none => 0

def normalize (p : Poly V ℚ) : Poly V ℚ := p.map fun t => ⟨t.coeff / lcoeff p, t.monomial⟩

/-- The normalized left-hand side of a constraint, and the relation turned accordingly. -/
def normalization (c : Constraint V) : Poly V ℚ × Relation :=
  (normalize c.lhs, if lcoeff c.lhs < 0 then c.relation.turnAroundRelation else c.relation)

/-- What a formula contributes to the separators, if it is a constraint. -/
def normalizationOf : Formula (Atom V B) → Option (Poly V ℚ × Relation)
  | .atom (.constraint c) => some (normalization c)
  | _ => none

end Normalize

/-- What is used of the libraries, and the orders in which sets and maps are traversed. -/
structure Library (V : Type u) (B : Type v) where
  linear : LinearPool V
  separatorType : SeparatorType
  /-- The variables of type integer. -/
  int : V → Bool
  /-- The constraints that are not stored as constants. -/
  stored : Constraint V → Bool
  coeff_ne_zero : ∀ c, stored c → c.lhs ≠ [] ∧ ∀ t ∈ c.lhs, t.coeff ≠ 0
  /-- `FormulaT(Poly, Relation)` -/
  formula : Poly V ℚ → Relation → Formula (Atom V B)
  normalizationOf_formula : ∀ c, stored c →
    normalizationOf (formula (normalization c).1 (normalization c).2) = some (normalization c)
  /-- The truth value that `carl::model::substitute` yields, if it yields one. -/
  substitute : Formula (Atom V B) → (V → Option ℚ) → Option Bool
  substitute_const : ∀ b m, substitute (.const b) m = some b
  substitute_constraint : ∀ c (m : V → Option ℚ), (∀ x ∈ Poly.variables c.lhs, (m x).isSome) →
    substitute (.atom (.constraint c)) m = some (decide (c.Sat fun x => (m x).getD 0))
  separatorOrder : List (Poly V ℚ) → List (Poly V ℚ)
  separatorOrder_perm : ∀ ps, List.Perm (separatorOrder ps) ps
  variableOrder : List V → List V
  variableOrder_perm : ∀ xs, List.Perm (variableOrder xs) xs

/-- `Separator`; its key determines the bias and the vertices. -/
structure Separator where
  mRelations : Finset Relation
  mActiveDirection : Option Direction

/-- `STropModule`, with the received formulas and the answer if it has just been checked. -/
structure STropModule (V : Type u) (B : Type v) where
  received : List (Formula (Atom V B))
  mInfeasibleSubsets : List (List (Formula (Atom V B)))
  /-- The keys of `mMoments`. -/
  moments : List V
  mUsed : V → Bool
  /-- The keys of `mSeparators`. -/
  separators : List (Poly V ℚ)
  mSeparators : Poly V ℚ → Separator
  mChangedSeparators : List (Poly V ℚ)
  mRelationalConflicts : ℤ
  mLinearizationConflicts : List (List (Poly V ℚ × Direction))
  mCheckedWithBackends : Bool
  /-- The formulas of `mLRAModule`. -/
  inner : List (LinearFormula V)
  /-- The model of `mLRAModule`. -/
  model : LRAModel V
  answer : Option Answer

/-! ## Relations and directions -/

section Relations

/-- The relations that `addCore` finds in conflict with a new one; the cases of `LESS` and `GREATER`
fall through to those of `LEQ` and `GEQ`. -/
def conflicting : Relation → List Relation
  | .eq => [.neq, .less, .greater]
  | .neq => [.eq]
  | .less => [.eq, .geq, .greater]
  | .leq => [.greater]
  | .greater => [.eq, .leq, .less]
  | .geq => [.less]

/-- A relation prohibits the method, given the others. -/
def prohibits (relation : Relation) (relations : Finset Relation) : Bool :=
  relation = .eq || (relation = .leq && .geq ∈ relations) || (relation = .geq && .leq ∈ relations)

/-- The greatest element of a set of relations. -/
def rbegin (relations : Finset Relation) : Option Relation :=
  [.geq, .leq, .greater, .less, .neq, .eq].find? (· ∈ relations)

/-- The direction that shall be active. -/
def nextDirection (s : Separator) : Option Direction :=
  if s.mActiveDirection = some .negative ∧ (.less ∈ s.mRelations ∨ .leq ∈ s.mRelations) then
    some .negative
  else if s.mActiveDirection = some .positive ∧
      (.greater ∈ s.mRelations ∨ .geq ∈ s.mRelations) then
    some .positive
  else
    match rbegin s.mRelations with
    | none | some .eq => none
    | some .neq => some .both
    | some .less | some .leq => some .negative
    | some .greater | some .geq => some .positive

/-- The relations include one that needs the direction of an entry of a conflict. -/
def hasDirection (relations : Finset Relation) (direction : Direction) : Bool :=
  ((direction = .negative || direction = .both) && (.less ∈ relations || .leq ∈ relations)) ||
    ((direction = .positive || direction = .both) && (.greater ∈ relations || .geq ∈ relations)) ||
    (direction = .both && .neq ∈ relations)

end Relations

/-- An element of the vector that `updateModel` builds. -/
structure Weight (V : Type u) where
  mVariable : V
  mExponent : ℚ
  mSign : Bool

/-- `carl::gcd` of rational numbers. -/
def gcd (a b : ℚ) : ℚ := (Int.gcd a.num b.num : ℚ) / (Nat.lcm a.den b.den : ℚ)

/-- The value of a variable for a sample base. -/
def Weight.value (w : Weight V) (base : ℚ) : ℚ :=
  let value := (if w.mExponent < 0 then 1 / base else base) ^ |w.mExponent|.floor.toNat
  if w.mSign then value * -1 else value

namespace STropModule

def initial : STropModule V B where
  received := []
  mInfeasibleSubsets := []
  moments := []
  mUsed := fun _ => false
  separators := []
  mSeparators := fun _ => ⟨∅, none⟩
  mChangedSeparators := []
  mRelationalConflicts := 0
  mLinearizationConflicts := []
  mCheckedWithBackends := false
  inner := []
  model := ⟨fun _ => 0, fun _ => false⟩
  answer := none

variable [DecidableEq V] [DecidableEq B] (lib : Library V B) (s : STropModule V B)

/-! ## Additions and removals -/

def addCore (f : Formula (Atom V B)) (s : STropModule V B) : STropModule V B :=
  match f with
  | .const false => { s with mInfeasibleSubsets := s.mInfeasibleSubsets ++ [[f]] }
  | .atom (.constraint c) =>
    let (p, relation) := normalization c
    let separator := s.mSeparators p
    let relations := insert relation separator.mRelations
    { s with
      separators := if p ∈ s.separators then s.separators else s.separators ++ [p]
      mSeparators := update s.mSeparators p { separator with mRelations := relations }
      mChangedSeparators :=
        if p ∈ s.mChangedSeparators then s.mChangedSeparators else s.mChangedSeparators ++ [p]
      mRelationalConflicts := s.mRelationalConflicts + if prohibits relation relations then 1 else 0
      mInfeasibleSubsets := s.mInfeasibleSubsets ++
        ((conflicting relation).filter (· ∈ relations)).map fun r =>
          [lib.formula p relation, lib.formula p r] }
  | _ => s

def removeCore (f : Formula (Atom V B)) (s : STropModule V B) : STropModule V B :=
  match f with
  | .atom (.constraint c) =>
    let (p, relation) := normalization c
    let separator := s.mSeparators p
    let relations := separator.mRelations.erase relation
    { s with
      mSeparators := update s.mSeparators p { separator with mRelations := relations }
      mChangedSeparators :=
        if p ∈ s.mChangedSeparators then s.mChangedSeparators else s.mChangedSeparators ++ [p]
      mRelationalConflicts :=
        s.mRelationalConflicts - if prohibits relation relations then 1 else 0 }
  | _ => s

/-- `Module::add` -/
def add (f : Formula (Atom V B)) : STropModule V B :=
  { addCore lib f s with received := s.received ++ [f], answer := none }

/-- `Module::remove`, with the infeasible subsets the formula occurs in. -/
def remove (f : Formula (Atom V B)) : STropModule V B :=
  { removeCore f s with
    received := s.received.erase f
    mInfeasibleSubsets := s.mInfeasibleSubsets.filter (f ∉ ·)
    answer := none }

/-! ## Checks -/

/-- The conflict is a subset of the asserted constraints. -/
def hasConflict (conflict : List (Poly V ℚ × Direction)) : Bool :=
  conflict.all fun entry => hasDirection (s.mSeparators entry.1).mRelations entry.2

/-- `ModuleInput::isConstraintConjunction`; constants are constraints as well. -/
def isConstraintConjunction (fs : List (Formula (Atom V B))) : Bool :=
  fs.all fun f =>
    match f with
    | .const _ | .atom (.constraint _) => true
    | _ => false

/-- The asserted formula is not trivially undecidable. -/
def applicable : Bool :=
  s.mRelationalConflicts = 0 && isConstraintConjunction s.received &&
    !s.mLinearizationConflicts.any s.hasConflict

/-- `Module::receivedVariable` -/
def receivedVariable (x : V) : Bool := s.received.any fun f => x ∈ gatherVariables f

/-- The variables that get a moment when a linearization is created. -/
def createMoments (moments : List V) (p : Poly V ℚ) : List V :=
  (Poly.variables p).foldl (fun xs x => if x ∈ xs then xs else xs ++ [x]) moments

def linearization (p : Poly V ℚ) (direction : Direction) : LinearFormula V :=
  createLinearization lib.linear lib.separatorType p direction

/-- The turn of the loop of `checkCore` for one of the changed separators. -/
def updateSeparator (s : STropModule V B) (p : Poly V ℚ) : Option (STropModule V B) :=
  let separator := s.mSeparators p
  let direction := nextDirection separator
  if separator.mActiveDirection = direction then some s
  else
    (Assertions.replace (separator.mActiveDirection.map (linearization lib p))
      (direction.map (linearization lib p)) s.inner).map fun inner =>
        { s with
          inner
          moments := createMoments s.moments p
          mSeparators := update s.mSeparators p { separator with mActiveDirection := direction } }

/-- The component of the normal vector for an integer is not negative. -/
def positivity (x : V) : LinearFormula V :=
  lib.linear.constraint (Poly.var (.normalVector x)) .geq

/-- The turn of the loop of `checkCore` for one of the moments. -/
def updateMoment (s : STropModule V B) (x : V) : Option (STropModule V B) :=
  if lib.int x && s.mUsed x != s.receivedVariable x then
    let asserted := fun used => if used then some (positivity lib x) else none
    (Assertions.replace (asserted (s.mUsed x)) (asserted !s.mUsed x) s.inner).map fun inner =>
      { s with inner, mUsed := update s.mUsed x !s.mUsed x }
  else some s

/-- The update of the formulas of the inner solver. -/
def updateLinearization : Option (STropModule V B) :=
  ((lib.separatorOrder s.mChangedSeparators).foldlM (updateSeparator lib) s).bind fun s =>
    (lib.variableOrder s.moments).foldlM (updateMoment lib) { s with mChangedSeparators := [] }

/-- The conflicting sets of separators. -/
def learn (infeasibleSubsets : List (List (LinearFormula V))) :
    List (List (Poly V ℚ × Direction)) :=
  infeasibleSubsets.map fun conflict =>
    (lib.separatorOrder s.separators).filterMap fun p =>
      if .bias p ∈ conflict.flatMap gatherVariables then
        (s.mSeparators p).mActiveDirection.map (p, ·)
      else none

def runBackends (reply : BackendsReply V B) : STropModule V B :=
  { s with
    mCheckedWithBackends := true
    mInfeasibleSubsets :=
      if reply.answer = .unsat then s.mInfeasibleSubsets ++ reply.infeasibleSubsets
      else s.mInfeasibleSubsets
    answer := some reply.answer }

def checkCore (solver : LASolver V) (reply : BackendsReply V B) : Option (STropModule V B) :=
  if s.mInfeasibleSubsets ≠ [] then some { s with answer := some .unsat }
  else if s.applicable then
    (s.updateLinearization lib).map fun s =>
      match solver.check s.inner with
      | .sat model => { s with mCheckedWithBackends := false, model, answer := some .sat }
      | .other infeasibleSubsets =>
        { s with
          mLinearizationConflicts :=
            s.mLinearizationConflicts ++ s.learn lib infeasibleSubsets }.runBackends reply
  else some (s.runBackends reply)

/-! ## Models -/

/-- The weights of the used moments, as the inner solver gives them. -/
def innerWeights : List (Weight V) :=
  (lib.variableOrder s.moments).filterMap fun x =>
    if s.mUsed x then some ⟨x, s.model.arith (.normalVector x), s.model.bool x⟩ else none

/-- The weights with the smallest possible integer valued exponents. -/
def weights : List (Weight V) :=
  let ws := s.innerWeights lib
  let g := ws.foldl (fun g w => gcd g w.mExponent) 0
  if g ≠ 0 ∧ g ≠ 1 then ws.map fun w => { w with mExponent := w.mExponent / g } else ws

/-- The model for a sample base. -/
def modelAt (base : ℚ) (x : V) : Option ℚ :=
  ((s.weights lib).find? fun w => w.mVariable = x).map fun w => w.value base

/-- `ModuleInput::satisfiedBy` -/
def satisfiedBy (m : V → Option ℚ) : List (Formula (Atom V B)) → ℕ → ℕ
  | [], result => result
  | f :: fs, result =>
    match lib.substitute f m with
    | some false => 0
    | some true => satisfiedBy m fs result
    | none => satisfiedBy m fs 2

/-- The loop of `updateModel` after some bases, for a number of further ones. -/
def searchModel : ℕ → ℕ → Option (V → Option ℚ)
  | 0, _ => none
  | fuel + 1, base =>
    let m := s.modelAt lib ((base + 1 : ℕ) : ℚ)
    if satisfiedBy lib m s.received 1 = 0 then searchModel fuel (base + 1) else some m

/-! ## Runs -/

inductive Action (V : Type u) (B : Type v) where
  | add (f : Formula (Atom V B))
  | remove (f : Formula (Atom V B))
  | check (solver : LASolver V) (reply : BackendsReply V B)

def step (s : STropModule V B) : Action V B → Option (STropModule V B)
  | .add f => some (s.add lib f)
  | .remove f => some (s.remove f)
  | .check solver reply => s.checkCore lib solver reply

end STropModule

end Smtrat.STrop
