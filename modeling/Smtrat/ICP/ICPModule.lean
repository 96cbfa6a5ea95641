import Smtrat.Solver.Manager

/-!
# The module for interval constraint propagation

A constraint is linearized by replacing its nonlinear monomials by new variables.  Its contraction
candidates stem from the equations between the monomials and these variables and from the equation
between the linear expression and a further variable.  Constraints share candidates, and a candidate
is active as long as it has an origin.
-/

namespace Smtrat.ICP

open SparsePoly PropFormula Function

universe u v w

variable {U : Type u} {B : Type v} {S : Type w}

/-- The product of powers of variables. -/
abbrev Monomial (U : Type u) := List (SolverVariable U × ℕ)

structure ContractionCandidate (U : Type u) where
  mLhs : SolverVariable U
  mRhs : Poly (SolverVariable U) ℚ
  mDerivationVar : SolverVariable U
  mOrigin : List (Constraint (SolverVariable U))
  mIsLinear : Bool

def ContractionCandidate.isActive (cc : ContractionCandidate U) : Bool := !cc.mOrigin.isEmpty

/-- Candidates are referred to by their positions in the list of the candidate manager. -/
structure IcpVariable (U : Type u) where
  mOriginal : Bool
  mCandidates : List ℕ
  mOriginalConstraints : List (Constraint (SolverVariable U))

/-- What the module uses of polynomials and of the internal LRA module, which has a slack variable
for each linear expression. -/
structure Library (U : Type u) (B : Type v) (S : Type w) where
  int : U → Bool
  pool : ConstraintPool (SolverVariable U) B
  /-- The result is 2 if this depends on the variables. -/
  isConsistent : Constraint (SolverVariable U) → ℕ
  isBound : Constraint (SolverVariable U) → Bool
  getSlackVariable : Constraint (SolverVariable U) → S
  expression : S → Poly (SolverVariable U) ℚ
  /-- `LRAModule::add` finds no conflict with the constraints before. -/
  add : List (Constraint (SolverVariable U)) → Constraint (SolverVariable U) → Bool

structure ICPModule (U : Type u) (S : Type w) where
  mCandidateManager : List (ContractionCandidate U)
  mActiveNonlinearConstraints : List ℕ
  mActiveLinearConstraints : List ℕ
  mLinearConstraints : S → Option (List ℕ)
  mNonlinearConstraints : Constraint (SolverVariable U) → Option (List ℕ)
  mNotEqualConstraints : List (Constraint (SolverVariable U))
  mVariables : SolverVariable U → Option (IcpVariable U)
  mLinearizations : Constraint (SolverVariable U) → Option (Constraint (SolverVariable U))
  mDeLinearizations : Constraint (SolverVariable U) → Option (Constraint (SolverVariable U))
  mVariableLinearizations : Monomial U → Option (SolverVariable U)
  mSubstitutions : SolverVariable U → Option (Poly (SolverVariable U) ℚ)
  /-- The formulas of the internal LRA module. -/
  mValidationFormula : List (Constraint (SolverVariable U))
  /-- The number of variables made so far. -/
  freshVariables : ℕ

/-! ## Polynomials -/

/-- The degree of a monomial is at most one. -/
def isAtMostLinear (m : Monomial U) : Bool := (m.map (·.2)).sum ≤ 1

def isLinear (p : Poly (SolverVariable U) ℚ) : Bool := p.all fun t => isAtMostLinear t.monomial

def getNonlinearMonomials (p : Poly (SolverVariable U) ℚ) : List (Monomial U) :=
  (p.filter fun t => !isAtMostLinear t.monomial).map (·.monomial)

namespace ICPModule

def initial : ICPModule U S where
  mCandidateManager := []
  mActiveNonlinearConstraints := []
  mActiveLinearConstraints := []
  mLinearConstraints _ := none
  mNonlinearConstraints _ := none
  mNotEqualConstraints := []
  mVariables _ := none
  mLinearizations _ := none
  mDeLinearizations _ := none
  mVariableLinearizations _ := none
  mSubstitutions _ := none
  mValidationFormula := []
  freshVariables := 0

/-! ## Candidates -/

/-- New candidates for an equation, one for each variable. -/
def createCandidates (lhs : SolverVariable U) (rhs : Poly (SolverVariable U) ℚ) (linear : Bool)
    (vars : List (SolverVariable U)) (m : ICPModule U S) : List ℕ × ICPModule U S :=
  (List.range' m.mCandidateManager.length vars.length,
    { m with mCandidateManager := m.mCandidateManager ++
        vars.map fun x => ⟨lhs, rhs, x, [], linear⟩ })

section DecidableEq

variable [DecidableEq U] [DecidableEq S] (lib : Library U B S)

/-- `IcpVariable::addCandidates` for several variables. -/
def addCandidates (ccs : List ℕ) :
    List (SolverVariable U) → ICPModule U S → Option (ICPModule U S)
  | [], m => some m
  | x :: xs, m =>
    match m.mVariables x with
    | none => none
    | some icpVar => addCandidates ccs xs { m with
        mVariables := update m.mVariables x
          (some { icpVar with mCandidates := icpVar.mCandidates ∪ ccs }) }

/-- The candidates for an equation with a new variable belong to all its variables. -/
def createCCs (newVar : SolverVariable U) (rhs : Poly (SolverVariable U) ℚ) (linear : Bool)
    (vars : List (SolverVariable U)) (m : ICPModule U S) : Option (List ℕ × ICPModule U S) :=
  let (ccs, m) := m.createCandidates newVar rhs linear (vars ++ [newVar])
  (m.addCandidates ccs (vars ++ [newVar])).map fun m => (ccs, m)

def getIcpVariable (x : SolverVariable U) (original : Bool) (m : ICPModule U S) :
    ICPModule U S :=
  match m.mVariables x with
  | some _ => m
  | none => { m with mVariables := update m.mVariables x (some ⟨original, [], []⟩) }

/-- A new variable for the module, with what it stands for. -/
def newVariable (int : Bool) (p : SolverVariable U → Poly (SolverVariable U) ℚ)
    (m : ICPModule U S) : SolverVariable U × ICPModule U S :=
  let newVar := .fresh m.freshVariables int
  (newVar, getIcpVariable newVar false { m with
    mSubstitutions := update m.mSubstitutions newVar (some (p newVar))
    freshVariables := m.freshVariables + 1 })

/-! ## Linearization -/

/-- A turn of the first loop of `createNonlinearCCs`, with the candidates collected so far. -/
def linearizeMonomial (monom : Monomial U) (ccs : List ℕ) (m : ICPModule U S) :
    Option (List ℕ × ICPModule U S) :=
  match m.mVariableLinearizations monom with
  | none =>
    let vars := (monom.map (·.1)).dedup
    let (newVar, m) := m.newVariable (vars.all (Manager.isInt lib.int)) fun _ => [⟨1, monom⟩]
    let m := { m with
      mVariableLinearizations := update m.mVariableLinearizations monom (some newVar) }
    (m.createCCs newVar (Poly.sub [⟨1, monom⟩] (Poly.var newVar)) false vars).map
      fun (new, m) => (ccs ∪ new, m)
  | some x => (m.mVariables x).map fun icpVar => (ccs ∪ icpVar.mCandidates, m)

def linearizeMonomials :
    List (Monomial U) → List ℕ → ICPModule U S → Option (List ℕ × ICPModule U S)
  | [], ccs, m => some (ccs, m)
  | monom :: monoms, ccs, m =>
    (linearizeMonomial lib monom ccs m).bind fun (ccs, m) => linearizeMonomials monoms ccs m

/-- The polynomial with variables in place of the nonlinear monomials. -/
def linearize (m : ICPModule U S) : Poly (SolverVariable U) ℚ → Option (Poly (SolverVariable U) ℚ)
  | [] => some []
  | t :: p =>
    if isAtMostLinear t.monomial then (linearize m p).map (t :: ·)
    else (m.mVariableLinearizations t.monomial).bind fun x =>
      (linearize m p).map (⟨t.coeff, [(x, 1)]⟩ :: ·)

def createNonlinearCCs (c : Constraint (SolverVariable U)) (m : ICPModule U S) :
    Option (Poly (SolverVariable U) ℚ × ICPModule U S) :=
  (linearizeMonomials lib (getNonlinearMonomials c.lhs) [] m).bind fun (ccs, m) =>
    (m.linearize c.lhs).map fun lhs => (lhs, { m with
      mNonlinearConstraints :=
        if (m.mNonlinearConstraints c).isSome then m.mNonlinearConstraints
        else update m.mNonlinearConstraints c (some ccs) })

def createLinearCCs (f : Constraint (SolverVariable U)) (m : ICPModule U S) :
    Option (ICPModule U S) :=
  let slack := lib.getSlackVariable f
  match m.mLinearConstraints slack with
  | some _ => some m
  | none =>
    let vars := (Poly.variables f.lhs).dedup
    let (newVar, m) := m.newVariable (vars.all (Manager.isInt lib.int)) Poly.var
    (m.createCCs newVar (Poly.sub (lib.expression slack) (Poly.var newVar)) true vars).bind
      fun (_, m) => (m.mVariables newVar).map fun icpVar => { m with
        mLinearConstraints := update m.mLinearConstraints slack (some icpVar.mCandidates) }

/-- The variables of a constraint, if they are not known. -/
def introduce (m : ICPModule U S) (x : SolverVariable U) : ICPModule U S :=
  if (m.mSubstitutions x).isSome then m
  else getIcpVariable x true { m with
    mSubstitutions := update m.mSubstitutions x (some (Poly.var x)) }

/-- The linearization of a constraint. -/
def linearFormula (c : Constraint (SolverVariable U)) (m : ICPModule U S) :
    Option (Constraint (SolverVariable U) × ICPModule U S) :=
  if isLinear c.lhs then some (c, m)
  else (createNonlinearCCs lib c m).bind fun (lhs, m) =>
    match lib.pool.create ⟨lhs, c.relation⟩ with
    | .inl _ => none
    | .inr f => some (f, m)

/-- There is no result where two constraints have the same linearization, which is asserted not to
happen, and where something is used that a map does not contain. -/
def addConstraint (c : Constraint (SolverVariable U)) (m : ICPModule U S) :
    Option (ICPModule U S) :=
  match m.mLinearizations c with
  | some _ => some m
  | none =>
    (linearFormula lib c ((Poly.variables c.lhs).dedup.foldl introduce m)).bind fun (f, m) =>
      if (m.mDeLinearizations f).isSome then none
      else
        let m := { m with
          mDeLinearizations := update m.mDeLinearizations f (some c)
          mLinearizations := update m.mLinearizations c (some f) }
        if lib.isBound f then some m else createLinearCCs lib f m

def informCore (c : Constraint (SolverVariable U)) (m : ICPModule U S) : Option (ICPModule U S) :=
  if lib.isConsistent c = 2 ∧ c.relation ≠ .neq then addConstraint lib c m else some m

/-! ## Additions -/

/-- The candidate at a position changes. -/
def modifyCandidate (m : ICPModule U S) (id : ℕ)
    (f : ContractionCandidate U → ContractionCandidate U) : ICPModule U S :=
  { m with mCandidateManager := m.mCandidateManager.modify id f }

def isActiveAt (m : ICPModule U S) (id : ℕ) : Bool :=
  (m.mCandidateManager[id]?).any (·.isActive)

def addOrigin (c : Constraint (SolverVariable U)) (id : ℕ) (m : ICPModule U S) : ICPModule U S :=
  m.modifyCandidate id fun cc => { cc with mOrigin := cc.mOrigin.insert c }

def activateNonlinear (c : Constraint (SolverVariable U)) (m : ICPModule U S) (id : ℕ) :
    ICPModule U S :=
  addOrigin c id { m with
    mActiveNonlinearConstraints :=
      if m.isActiveAt id then m.mActiveNonlinearConstraints
      else m.mActiveNonlinearConstraints.insert id }

def activateLinear (c : Constraint (SolverVariable U)) (m : ICPModule U S) (id : ℕ) :
    ICPModule U S :=
  addOrigin c id { m with
    mActiveLinearConstraints :=
      if m.isActiveAt id then m.mActiveLinearConstraints
      else m.mActiveLinearConstraints.insert id }

def activateNonlinearConstraint (c : Constraint (SolverVariable U)) (m : ICPModule U S) :
    Option (ICPModule U S) :=
  (m.mNonlinearConstraints c).map fun ccs => ccs.foldl (activateNonlinear c) m

/-- `ModuleInput::add` for the formulas of the LRA module, which says whether they stay
consistent. -/
def assertLra (f : Constraint (SolverVariable U)) (m : ICPModule U S) : Bool × ICPModule U S :=
  if f ∈ m.mValidationFormula then (true, m)
  else (lib.add m.mValidationFormula f,
    { m with mValidationFormula := m.mValidationFormula ++ [f] })

def activateLinearConstraint (f origin : Constraint (SolverVariable U)) (m : ICPModule U S) :
    Option (ICPModule U S) :=
  (m.mLinearConstraints (lib.getSlackVariable f)).map fun ccs =>
    (assertLra lib f (ccs.foldl (activateLinear origin) m)).2

/-- `IcpVariable::addOriginalConstraint` for several variables. -/
def addOriginalConstraint (c : Constraint (SolverVariable U)) :
    List (SolverVariable U) → ICPModule U S → Option (ICPModule U S)
  | [], m => some m
  | x :: xs, m =>
    match m.mVariables x with
    | none => none
    | some icpVar => addOriginalConstraint c xs { m with
        mVariables := update m.mVariables x (some { icpVar with
          mOriginalConstraints := icpVar.mOriginalConstraints.insert c }) }

/-- `addCore` for a constraint. -/
def addCoreConstraint (c : Constraint (SolverVariable U)) (m : ICPModule U S) :
    Option (Bool × ICPModule U S) :=
  if c.relation = .neq then
    some (true, { m with mNotEqualConstraints := m.mNotEqualConstraints.insert c })
  else
    (if lib.isBound c then some m
      else addOriginalConstraint c (Poly.variables c.lhs).dedup m).bind fun m =>
    (if isLinear c.lhs then some m else activateNonlinearConstraint c m).bind fun m =>
    (m.mLinearizations c).bind fun f =>
    if lib.isBound f then some (assertLra lib f m)
    else (activateLinearConstraint lib f c m).map fun m => (true, m)

def addCore (formula : Formula (Atom (SolverVariable U) B)) (m : ICPModule U S) :
    Option (Bool × ICPModule U S) :=
  match formula with
  | .const b => some (b, m)
  | .atom (.constraint c) => addCoreConstraint lib c m
  | _ => some (true, m)

/-! ## Removals -/

def removeOrigin (c : Constraint (SolverVariable U)) (id : ℕ) (m : ICPModule U S) :
    ICPModule U S :=
  m.modifyCandidate id fun cc => { cc with mOrigin := cc.mOrigin.filter (· ≠ c) }

def deactivateNonlinear (c : Constraint (SolverVariable U)) (m : ICPModule U S) (id : ℕ) :
    ICPModule U S :=
  let m := removeOrigin c id m
  if m.isActiveAt id then m
  else { m with mActiveNonlinearConstraints := m.mActiveNonlinearConstraints.filter (· ≠ id) }

def hasOriginAt (m : ICPModule U S) (id : ℕ) (c : Constraint (SolverVariable U)) : Bool :=
  (m.mCandidateManager[id]?).any (c ∈ ·.mOrigin)

def deactivateLinear (c : Constraint (SolverVariable U)) (m : ICPModule U S) (id : ℕ) :
    ICPModule U S :=
  if m.hasOriginAt id c then
    let m := removeOrigin c id m
    if m.isActiveAt id then m
    else { m with mActiveLinearConstraints := m.mActiveLinearConstraints.filter (· ≠ id) }
  else m

/-- `removeCore` for a constraint; its variables keep it as an original constraint. -/
def removeCoreConstraint (c : Constraint (SolverVariable U)) (m : ICPModule U S) :
    Option (ICPModule U S) :=
  if c.relation = .neq then
    some { m with mNotEqualConstraints := m.mNotEqualConstraints.filter (· ≠ c) }
  else
    (if lib.isBound c then some m
      else addOriginalConstraint c (Poly.variables c.lhs).dedup m).bind fun m =>
    let m := ((m.mNonlinearConstraints c).getD []).foldl (deactivateNonlinear c) m
    (m.mLinearizations c).map fun f =>
      let m := ((m.mLinearConstraints (lib.getSlackVariable f)).getD []).foldl
        (deactivateLinear c) m
      { m with mValidationFormula := m.mValidationFormula.erase f }

def removeCore (formula : Formula (Atom (SolverVariable U) B)) (m : ICPModule U S) :
    Option (ICPModule U S) :=
  match formula with
  | .atom (.constraint c) => removeCoreConstraint lib c m
  | _ => some m

/-! ## Checks -/

/-- The bounds of a box that are not asserted yet are asserted, starting with the list of those
that have been. -/
def addBoundaries : List (Constraint (SolverVariable U)) →
    List (Constraint (SolverVariable U)) × List (Constraint (SolverVariable U)) →
    List (Constraint (SolverVariable U)) × List (Constraint (SolverVariable U))
  | [], r => r
  | f :: fs, (added, l) =>
    addBoundaries fs (if f ∈ l then (added, l) else (added ++ [f], l ++ [f]))

/-- `checkBoxAgainstLinearFeasibleRegion`, with the bounds of the current box. -/
def checkBox (m : ICPModule U S) (boundaries : List (Constraint (SolverVariable U))) :
    ICPModule U S :=
  let (added, l) := addBoundaries boundaries ([], m.mValidationFormula)
  { m with mValidationFormula := added.foldl List.erase l }

/-- `checkCore`, with the boxes that the contraction computes. -/
def checkCore (boxes : List (List (Constraint (SolverVariable U)))) (m : ICPModule U S) :
    ICPModule U S :=
  boxes.foldl checkBox m

end DecidableEq

end ICPModule

end Smtrat.ICP
