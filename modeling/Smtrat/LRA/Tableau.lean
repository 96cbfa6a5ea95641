import Smtrat.LRA.RowSystem

/-!
# Bounds and assignments of the tableau

The tableau keeps a value for every variable.  Bounds are created for the constraints the module
is informed about, and become active when a constraint is added: a non-basic variable is then
moved to the bound it violates, and the basic variables move along.
-/

namespace Smtrat.LRA

open Combination Function

/-- `Tableau::LearnedBound`.  The limit is not divided by the factor of the row. -/
structure LearnedBound where
  newLimit : Value ℚ
  nextWeakerBound : Bound
  premise : List Bound
deriving DecidableEq

/-- `lra::Tableau`. -/
structure Tableau extends RowSystem, Bounds where
  /-- `mAssignment` of the variables. -/
  assignment : VarId → Value ℚ
  mpTheta : Value ℚ
  mPivotingSteps : ℕ
  mMaxPivotsWithoutBlandsRule : ℕ
  mConflictingRows : List VarId
  mLearnedLowerBounds : List (VarId × LearnedBound)
  mLearnedUpperBounds : List (VarId × LearnedBound)
  /-- The learned bounds to process, upper ones marked with `true`. -/
  mNewLearnedBounds : List (Bool × VarId)

/-- An `EntryID`, by the row and the column of the entry. -/
structure EntryID where
  row : VarId
  col : VarId
deriving DecidableEq, Repr

namespace Tableau

/-- The tableau without variables. -/
def empty (expression : LinearForm) : Tableau where
  toRowSystem :=
    { nextId := 0
      isOriginal := fun _ => false
      isInteger := fun _ => false
      expression := fun _ => expression
      row := fun _ => ⟨1, []⟩
      mRows := []
      mColumns := []
      mNonActiveBasics := []
      mOriginalVars := fun _ => none
      mSlackVars := fun _ => none }
  toBounds := Bounds.empty
  assignment _ := 0
  mpTheta := 0
  mPivotingSteps := 0
  mMaxPivotsWithoutBlandsRule := 0
  mConflictingRows := []
  mLearnedLowerBounds := []
  mLearnedUpperBounds := []
  mNewLearnedBounds := []

variable (settings : TableauSettings) (t : Tableau)

/-! ## Bounds of constraints -/

/-- Enter `c` in `mConstraintToBound` unless it is there. -/
def registerConstraint (c : LinearConstraint) (bs : List Bound) : Tableau :=
  match t.mConstraintToBound c with
  | some _ => t
  | none => { t with mConstraintToBound := update t.mConstraintToBound c (some bs) }

/-- The bound of an inequality and the bound of its negation, which becomes its complement unless
the negation has a bound already. -/
def addBoundWithComplement (upper : Bool) (v : VarId) (limit complement : Value ℚ)
    (c : LinearConstraint) : Bound × Tableau :=
  let (b, s) := t.toBounds.addDirected upper v limit c
  let s := { s with
    mConstraintToBound := update s.mConstraintToBound c (some [b])
    boundExists := update s.boundExists b true }
  let (b', s) := s.addDirected (!upper) v complement c.negated
  match s.mConstraintToBound c.negated with
  | some _ => (b, { t with toBounds := s })
  | none => (b, { t with toBounds := { s with
      mConstraintToBound := update s.mConstraintToBound c.negated (some [b'])
      complement := update (update s.complement b (some b')) b' (some b) } })

/-- One of the four bounds of a disequality `c`, with the constraint it represents. -/
def addNeqBound (upper : Bool) (v : VarId) (limit : Value ℚ) (c : LinearConstraint)
    (relation : Relation) : Bound × Tableau :=
  let (b, s) := t.toBounds.addDirected upper v limit (c.withRelation relation)
  let t := ({ t with toBounds := s } : Tableau).registerConstraint (c.withRelation relation) [b]
  (b, { t with
    neqRepresentation := update t.neqRepresentation b (some ((t.neqRepresentation b).getD c)) })

/-- The limits next to `x` that exclude it, below and above: those of the next integers, or
those an infinitesimal apart. -/
def strictlyBelow (integerValued : Bool) (x : ℚ) : Value ℚ :=
  if integerValued then ⟨x - 1, 0⟩ else ⟨x, -1⟩

def strictlyAbove (integerValued : Bool) (x : ℚ) : Value ℚ :=
  if integerValued then ⟨x + 1, 0⟩ else ⟨x, 1⟩

/-- `Tableau::newBound`. -/
def newBound (c : LinearConstraint) : Tableau :=
  match t.mConstraintToBound c with
  | some _ => t
  | none =>
    let (ref, rows) := t.toRowSystem.getVariable c.lhs c.constantPart
    let t := { t with toRowSystem := rows }
    let v := ref.var
    let x := ref.boundValue
    let negative := ref.negative
    let below := fun integerValued =>
      if negative then strictlyAbove integerValued x else strictlyBelow integerValued x
    let above := fun integerValued =>
      if negative then strictlyBelow integerValued x else strictlyAbove integerValued x
    match c.relation with
    | .eq =>
      let (b, s) := t.toBounds.addEqualBound v ⟨x, 0⟩ c
      { t with toBounds := { s with
          boundExists := update s.boundExists b true
          mConstraintToBound := update s.mConstraintToBound c (some [b]) } }
    | .leq =>
      (t.addBoundWithComplement (!negative) v ⟨x, 0⟩ (above c.integerValued) c).2
    | .geq =>
      (t.addBoundWithComplement negative v ⟨x, 0⟩ (below c.integerValued) c).2
    | .less =>
      (t.addBoundWithComplement (!negative) v (below false) ⟨x, 0⟩ c).2
    | .greater =>
      (t.addBoundWithComplement negative v (above false) ⟨x, 0⟩ c).2
    | .neq =>
      -- the integer limits do not depend on the sign of the factor
      let valueA := if c.integerValued then strictlyBelow true x else below false
      let valueD := if c.integerValued then strictlyAbove true x else above false
      let (less, t) := t.addNeqBound (!negative) v valueA c .less
      let (leq, t) := t.addNeqBound (!negative) v ⟨x, 0⟩ c .leq
      let (geq, t) := t.addNeqBound negative v ⟨x, 0⟩ c .geq
      let (greater, t) := t.addNeqBound negative v valueD c .greater
      { t with
        mConstraintToBound :=
          update t.mConstraintToBound c (some [less, leq, geq, greater])
        complement := update (update (update (update
          t.complement less (some geq)) leq (some greater)) geq (some less))
          greater (some leq) }

/-! ## Assignments -/

/-- The change of a basic variable when the variable of a column changes: the content of the
entry times the change, divided by the factor of the row. -/
def effect (content factor : ℚ) (change : Value ℚ) : Value ℚ :=
  if settings.omit_division then (content • change) / factor else content • change

/-- `Tableau::updateBasicAssignments`. -/
def updateBasicAssignments (c : VarId) (change : Value ℚ) : Tableau :=
  { t with assignment := fun v =>
      if v ∈ t.mRows then
        match t.content v c with
        | some k => t.assignment v + effect settings k (t.row v).factor change
        | none => t.assignment v
      else t.assignment v }

/-- Move the non-basic variable `c` to `value`, and the basic variables with it. -/
def moveNonbasic (c : VarId) (value : Value ℚ) : Tableau :=
  let t' := t.updateBasicAssignments settings c (value - t.assignment c)
  { t' with assignment := update t'.assignment c value }

/-- `Tableau::activateBasicVar`.  The assignment is computed from the columns. -/
def activateBasicVar (v : VarId) : Tableau :=
  if v ∈ t.mNonActiveBasics then
    let rows := t.toRowSystem.activateBasicVar settings.omit_division v
    let value := eval t.assignment (rows.row v).entries
    { t with
      toRowSystem := rows
      assignment := update t.assignment v
        (if settings.omit_division then value / (rows.row v).factor else value) }
  else t

/-- `Tableau::deactivateBasicVar`. -/
def deactivateBasicVar (v : VarId) : Tableau :=
  { t with
    toRowSystem := t.toRowSystem.deactivateBasicVar v
    mConflictingRows := t.mConflictingRows.erase v }

/-- The part of `activateBound` for upper bounds. -/
def activateUpperBound (b : Bound) : Tableau :=
  let v := b.var
  if (t.supremum v).gt b then
    let t := { t with supremum := update t.supremum v b }
    if !(t.infimum v).gtValue b.limitValue && !t.isBasic v && b.ltValue (t.assignment v) then
      t.moveNonbasic settings v b.limitValue
    else t
  else t

/-- The part of `activateBound` for lower bounds. -/
def activateLowerBound (b : Bound) : Tableau :=
  let v := b.var
  if (t.infimum v).lt b then
    let t := { t with infimum := update t.infimum v b }
    if !(t.supremum v).ltValue b.limitValue && !t.isBasic v && b.gtValue (t.assignment v) then
      t.moveNonbasic settings v b.limitValue
    else t
  else t

/-- Add an origin to a bound. -/
def addOrigin (b : Bound) (o : Origin) : Tableau :=
  { t with origins := update t.origins b (t.origins b ++ [o]) }

/-- `Tableau::activateBound`. -/
def activateBound (b : Bound) (o : Origin) : Tableau :=
  let t := t.addOrigin b o
  let v := b.var
  let t := if !t.hasBound v && t.isBasic v && !t.isOriginal v then t.activateBasicVar settings v
    else t
  let t := if b.isUpperBound then t.activateUpperBound settings b else t
  if b.isLowerBound then t.activateLowerBound settings b else t

/-- Move a non-basic variable that violates its supremum or its infimum to it. -/
def repairNonbasic (v : VarId) : Tableau :=
  if (t.supremum v).ltValue (t.assignment v) then
    t.moveNonbasic settings v (t.supremum v).limitValue
  else if (t.infimum v).gtValue (t.assignment v) then
    t.moveNonbasic settings v (t.infimum v).limitValue
  else t

/-- What `LRAModule::removeCore` does in the tableau with a bound that lost its last origin: the
supremum and the infimum are found again, a non-basic variable is moved between them, and the
row of a slack variable without bounds becomes inactive. -/
def releaseBound (b : Bound) : Tableau :=
  let v := b.var
  let (s, changed) := t.toBounds.deactivateBound b
  let t := { t with toBounds := s }
  let t := if changed && !t.isBasic v then t.repairNonbasic settings v else t
  if !t.hasBound v && t.isBasic v && !t.isOriginal v then t.deactivateBasicVar v else t

end Tableau

end Smtrat.LRA
