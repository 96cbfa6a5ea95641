import Smtrat.LRA.Pivot

/-!
# The module for linear real arithmetic

The module translates the constraints it receives to bounds of the tableau and keeps account of
why a bound is active.  A bound is activated by its own constraint, by a bound a row implies for
its basic variable, or, when it is strict, by a disequality together with the weak bound.  Every
constraint knows the bounds it may be an origin of, so that its removal finds them.
-/

namespace Smtrat.LRA

open Combination

/-- `LRAModule`, as far as linear constraints are concerned. -/
structure LRAModule where
  mTableau : Tableau
  /-- The constraints of the received formula. -/
  received : List LinearConstraint
  mActiveResolvedNEQConstraints : List LinearConstraint
  mActiveUnresolvedNEQConstraints : List LinearConstraint
  mInfeasibleSubsets : List (List LinearConstraint)
  /-- `mTheoryPropagations`, premise and conclusion. -/
  mTheoryPropagations : List (List LinearConstraint × LinearConstraint)

namespace LRAModule

variable (settings : TableauSettings) (m : LRAModule)

/-- The module before any constraint. -/
def empty (expression : LinearForm) : LRAModule where
  mTableau := .empty expression
  received := []
  mActiveResolvedNEQConstraints := []
  mActiveUnresolvedNEQConstraints := []
  mInfeasibleSubsets := []
  mTheoryPropagations := []

/-- `LRAModule::informCore`. -/
def informCore (c : LinearConstraint) : LRAModule := { m with mTableau := m.mTableau.newBound c }

/-- The constraints of the first origin of a bound. -/
def firstOrigin (b : Bound) : List LinearConstraint :=
  match m.mTableau.origins b with
  | [] => []
  | o :: _ => o.constraints

/-- The conflict of two bounds, by their first origins. -/
def addConflict (b b' : Bound) : LRAModule :=
  { m with mInfeasibleSubsets := m.mInfeasibleSubsets ++ [m.firstOrigin b ++ m.firstOrigin b'] }

/-- `LRAModule::activateBound`, which also collects the conflicts with the bounds that were active
on the other side. -/
def activateBound (b : Bound) (o : Origin) : LRAModule :=
  let inf := m.mTableau.infimum b.var
  let sup := m.mTableau.supremum b.var
  let m := { m with mTableau := m.mTableau.activateBound settings b o }
  let lower := ((m.mTableau.lowerbounds b.var).reverse.dropWhile fun c => c ≠ inf).takeWhile
    fun c => m.mTableau.isActive c && c.gtValue b.limitValue
  let upper := ((m.mTableau.upperbounds b.var).dropWhile fun c => c ≠ sup).takeWhile
    fun c => m.mTableau.isActive c && c.ltValue b.limitValue
  let m := if b.isUpperBound then lower.foldl (fun m c => m.addConflict b c) m else m
  if b.isLowerBound then upper.foldl (fun m c => m.addConflict b c) m else m

/-- Enter a bound in the list of a constraint that is an origin of it. -/
def registerBound (b : Bound) (c : LinearConstraint) : LRAModule :=
  { m with mTableau := { m.mTableau with
      mConstraintToBound := Function.update m.mTableau.mConstraintToBound c
        ((m.mTableau.mConstraintToBound c).map fun bs => bs ++ [b]) } }

/-- `LRAModule::activateStrictBound`.  The set of the first origin was moved from when the origins
after it are formed of it, so these are empty conjunctions. -/
def activateStrictBound (neq : LinearConstraint) (weak strict : Bound) : LRAModule :=
  match m.mTableau.origins weak with
  | [] => m
  | o :: os =>
    let m := m.activateBound settings strict (.and (neq :: o.constraints))
    let originSet : List LinearConstraint := []
    let t := os.foldl (fun t _ => t.addOrigin strict (.and originSet)) m.mTableau
    let involvedConstraints := ((o :: os).flatMap Origin.constraints).dedup
    involvedConstraints.foldl (fun m c => m.registerBound strict c) { m with mTableau := t }

/-- The bounds of a constraint. -/
def bounds (c : LinearConstraint) : List Bound := (m.mTableau.mConstraintToBound c).getD []

/-- The part of `addCore` for a bound that belongs to an unresolved disequality. -/
def resolveNeq (b : Bound) : LRAModule :=
  match m.mTableau.neqRepresentation b with
  | none => m
  | some neq =>
    if neq ∈ m.mActiveUnresolvedNEQConstraints then
      let m := { m with
        mActiveResolvedNEQConstraints := m.mActiveResolvedNEQConstraints ++ [neq]
        mActiveUnresolvedNEQConstraints := m.mActiveUnresolvedNEQConstraints.erase neq }
      match m.bounds neq with
      | less :: leq :: geq :: greater :: _ =>
        if b = leq then m.activateStrictBound settings neq b less
        else if b = geq then m.activateStrictBound settings neq b greater
        else m
      | _ => m
    else m

/-- The part of `addCore` for disequalities. -/
def addNeq (c : LinearConstraint) : LRAModule :=
  match m.bounds c with
  | less :: leq :: geq :: greater :: _ =>
    if [less, leq, geq, greater].any m.mTableau.isActive then
      let m := { m with
        mActiveResolvedNEQConstraints := m.mActiveResolvedNEQConstraints ++ [c] }
      if m.mTableau.isActive leq then m.activateStrictBound settings c leq less
      else if m.mTableau.isActive geq then m.activateStrictBound settings c geq greater
      else m
    else { m with
      mActiveUnresolvedNEQConstraints := m.mActiveUnresolvedNEQConstraints ++ [c] }
  | _ => m

/-- `LRAModule::addCore` for a linear constraint. -/
def addCore (c : LinearConstraint) : LRAModule :=
  let m := { m with received := m.received ++ [c] }
  if c.relation = .neq then m.addNeq settings c
  else
    match m.bounds c with
    | [] => m
    | b :: _ => (m.activateBound settings b (.constraint c)).resolveNeq settings b

/-! ## Removal -/

/-- The origins of a bound without those that join the constraint `c` and without one that is
`c`. -/
def eraseOrigins (c : LinearConstraint) (os : List Origin) : List Origin :=
  (os.filter fun o => match o with
    | .conjunction cs => c ∉ cs
    | _ => true).erase (.constraint c)

/-- The disequality of a bound is unresolved when none of its bounds is active any more. -/
def unresolveNeq (b : Bound) : LRAModule :=
  match m.mTableau.neqRepresentation b with
  | none => m
  | some neq =>
    if ((m.bounds neq).take 4).any m.mTableau.isActive then m
    else if neq ∈ m.mActiveResolvedNEQConstraints then { m with
      mActiveUnresolvedNEQConstraints := m.mActiveUnresolvedNEQConstraints ++ [neq]
      mActiveResolvedNEQConstraints := m.mActiveResolvedNEQConstraints.erase neq }
    else m

/-- The conflict of a non-basic variable whose bounds still contradict each other. -/
def addConflictOf (v : VarId) : LRAModule :=
  if !m.mTableau.isBasic v && m.mTableau.isConflicting v then
    m.addConflict (m.mTableau.supremum v) (m.mTableau.infimum v)
  else m

/-- The loop body of `removeCore` for a bound of the removed constraint. -/
def removeOrigin (c : LinearConstraint) (b : Bound) : LRAModule :=
  if m.mTableau.isActive b then
    let m := { m with mTableau := { m.mTableau with
      origins := Function.update m.mTableau.origins b (eraseOrigins c (m.mTableau.origins b)) } }
    if m.mTableau.isActive b then m
    else
      let m := m.unresolveNeq b
      let changed := (m.mTableau.toBounds.deactivateBound b).2
      let m := { m with mTableau := m.mTableau.releaseBound settings b }
      if changed then m.addConflictOf b.var else m
  else m

/-- The loop of `removeCore` over the bounds of the removed constraint, with the bounds it keeps
in the list: the constraint's own ones and those that are active. -/
def removeFromBounds (c : LinearConstraint) : ℕ → List Bound → LRAModule → List Bound × LRAModule
  | _, [], m => ([], m)
  | own, b :: bs, m =>
    let m := m.removeOrigin settings c b
    let (kept, m') := removeFromBounds c (own - 1) bs m
    (if own = 0 && !m.mTableau.isActive b then kept else b :: kept, m')

/-- `LRAModule::removeCore` for a linear constraint, with the removal of the infeasible subsets
the constraint occurs in. -/
def removeCore (c : LinearConstraint) : LRAModule :=
  let own := if c.relation = .neq then 4 else 1
  let (kept, m) := removeFromBounds settings c own (m.bounds c) m
  let m := { m with
    received := m.received.erase c
    mInfeasibleSubsets := m.mInfeasibleSubsets.filter fun cs => c ∉ cs
    mTableau := { m.mTableau with
      mConstraintToBound := Function.update m.mTableau.mConstraintToBound c
        ((m.mTableau.mConstraintToBound c).map fun _ => kept) } }
  if c.relation = .neq then
    if c ∈ m.mActiveResolvedNEQConstraints then { m with
      mActiveResolvedNEQConstraints := m.mActiveResolvedNEQConstraints.erase c }
    else { m with
      mActiveUnresolvedNEQConstraints := m.mActiveUnresolvedNEQConstraints.erase c }
  else m

/-! ## Learned bounds -/

/-- The learned bound of a variable. -/
def learnedBound (upper : Bool) (v : VarId) : Option LearnedBound :=
  ((if upper then m.mTableau.mLearnedUpperBounds else m.mTableau.mLearnedLowerBounds).find?
    fun p => p.1 = v).map Prod.snd

/-- The body of `processLearnedBounds`. -/
def processLearnedBound (learned : LearnedBound) : LRAModule :=
  let originSet := learned.premise.flatMap m.firstOrigin
  let m := originSet.foldl (fun m c => m.registerBound learned.nextWeakerBound c) m
  m.activateBound settings learned.nextWeakerBound (.and originSet)

/-- `LRAModule::processLearnedBounds`, which takes the new learned bounds from the back. -/
def processLearnedBounds : LRAModule :=
  m.mTableau.mNewLearnedBounds.reverse.foldl (fun m p =>
    match m.learnedBound p.1 p.2 with
    | none => m
    | some learned => m.processLearnedBound settings learned)
    { m with mTableau := { m.mTableau with mNewLearnedBounds := [] } }

/-- One pivoting step of `checkCore`. -/
def pivotStep (e : EntryID) : LRAModule :=
  { m with mTableau := m.mTableau.pivot settings e }.processLearnedBounds settings

end LRAModule

end Smtrat.LRA

/-!
## Executions of the module

A solver informs the module about constraints, adds and removes them in any order, and lets it
check them in between.  The steps of a check are actions of their own, and so are the operations
of the tableau that these steps and the additions are made of: what holds in every execution then
holds wherever such an operation is called.
-/

namespace Smtrat.LRA

/-- A bound object of the tableau: it was created for a constraint. -/
def Tableau.HasBoundObject (t : Tableau) (b : Bound) : Prop :=
  b.isInfinite = false ∧ (b ∈ t.upperbounds b.var ∨ b ∈ t.lowerbounds b.var)

instance (t : Tableau) (b : Bound) : Decidable (t.HasBoundObject b) := inferInstanceAs (Decidable (_ ∧ _))

namespace LRAModule

/-- What happens to the module. -/
inductive Action where
  | inform (c : LinearConstraint)
  | add (c : LinearConstraint)
  | remove (c : LinearConstraint)
  /-- The beginning of `checkCore`. -/
  | startCheck
  /-- The body of the loop in `checkCore`, when there is an element to pivot at. -/
  | pivotStep
  /-- The end of `checkCore`. -/
  | finishCheck
  /-- `Tableau::activateBound`, `Tableau::pivot` at the next element, `Tableau::activateBasicVar`
  and `Tableau::deactivateBasicVar` alone. -/
  | activateBound (b : Bound) (o : Origin)
  | pivot
  | activateBasicVar (v : VarId)
  | deactivateBasicVar (v : VarId)

/-- The state after an action, where it is possible: a constraint is added after the module was
informed about it and before it is removed, and only bounds that exist are activated. -/
def step (settings : TableauSettings) (m : LRAModule) : Action → Option LRAModule
  | .inform c => some (m.informCore c)
  | .add c =>
    if (m.mTableau.mConstraintToBound c).isSome ∧ c ∉ m.received
    then some (m.addCore settings c) else none
  | .remove c => if c ∈ m.received then some (m.removeCore settings c) else none
  | .startCheck =>
    some { m with mTableau := { m.mTableau with mMaxPivotsWithoutBlandsRule := 1000 } }
  | .pivotStep =>
    match m.mTableau.nextPivotingElement settings with
    | ((some e, true), t) => some ({ m with mTableau := t }.pivotStep settings e)
    | _ => none
  | .finishCheck => some { m with mTableau := { m.mTableau with mPivotingSteps := 0 } }
  | .activateBound b o =>
    if m.mTableau.HasBoundObject b
    then some { m with mTableau := m.mTableau.activateBound settings b o } else none
  | .pivot =>
    match m.mTableau.nextPivotingElement settings with
    | ((some e, true), t) => some { m with mTableau := t.pivot settings e }
    | _ => none
  | .activateBasicVar v => some { m with mTableau := m.mTableau.activateBasicVar settings v }
  | .deactivateBasicVar v =>
    if v ∈ m.mTableau.mRows ∧ m.mTableau.isOriginal v = false
    then some { m with mTableau := m.mTableau.deactivateBasicVar v } else none

end LRAModule

end Smtrat.LRA
