import Smtrat.LRA.Tableau

/-!
# Pivoting

A check repeats two steps until no bound is violated or a row cannot be repaired: it looks for a
row whose basic variable violates a bound together with a column whose variable can be moved to
repair it, and then exchanges the two variables.  On the way the bounds which the rows imply for
their basic variables are learned.
-/

namespace Smtrat.LRA

open Combination

namespace Tableau

variable (settings : TableauSettings) (t : Tableau)

/-! ## Signs of entries -/

variable (v : VarId)

/-- `entryIsPositive`, for an entry of the row of `v`. -/
def entryIsPositive (content : ℚ) : Bool :=
  if settings.omit_division then
    0 < content && 0 < (t.row v).factor || content < 0 && (t.row v).factor < 0
  else 0 < content

/-- `entryIsNegative`, for an entry of the row of `v`. -/
def entryIsNegative (content : ℚ) : Bool :=
  if settings.omit_division then
    content < 0 && 0 < (t.row v).factor || 0 < content && (t.row v).factor < 0
  else content < 0

/-! ## Learning bounds -/

/-- `uPremise`, and `lPremise` if not `upper`: the bounds of the columns that bound the basic
variable of a row in one direction, if they are all finite. -/
def refinementPremise (upper : Bool) (v : VarId) : Option (List Bound) :=
  (t.row v).entries.mapM fun e =>
    let b := if t.entryIsPositive settings v e.2 == upper then t.supremum e.1 else t.infimum e.1
    if b.isInfinite then none else some b

/-- `newlimit`: the row at the limits of a premise, not divided by the factor. -/
def refinementLimit (premise : List Bound) : Value ℚ :=
  ((premise.zip (t.row v).entries).map fun p => p.2.2 • p.1.limitValue).sum

/-- The value a limit is compared with. -/
def dividedLimit (newLimit : Value ℚ) : Value ℚ :=
  if settings.omit_division then newLimit / (t.row v).factor else newLimit

/-- The strongest bound in `bs` that `isWeaker`, unless the bound `current` is met before. -/
def nextWeakerBound (current : Bound) (isWeaker : Bound → Bool) : List Bound → Option Bound
  | [] => none
  | b :: bs =>
    if isWeaker b && b.type != .equal then if b.isInfinite then none else some b
    else if b = current then none
    else nextWeakerBound current isWeaker bs

/-- Enter a learned bound, unless one that is not weaker is known. -/
def learnBound (isBetter : Bound → Bound → Bool) (v : VarId) (learned : LearnedBound)
    (known : List (VarId × LearnedBound)) : Option (List (VarId × LearnedBound)) :=
  match known.find? fun p => p.1 = v with
  | none => some (known ++ [(v, learned)])
  | some (_, old) =>
    if isBetter learned.nextWeakerBound old.nextWeakerBound then
      some (known.map fun p => if p.1 = v then
        (v, { p.2 with nextWeakerBound := learned.nextWeakerBound, premise := learned.premise })
        else p)
    else none

/-- The part of `rowRefinement` for upper bounds. -/
def refineUpper : Tableau :=
  match t.refinementPremise settings true v with
  | none => t
  | some premise =>
    let newLimit := t.refinementLimit v premise
    match nextWeakerBound (t.supremum v)
        (fun b => b.gtValue (t.dividedLimit settings v newLimit)) (t.upperbounds v) with
    | none => t
    | some ubound =>
      match learnBound Bound.lt v ⟨newLimit, ubound, premise⟩ t.mLearnedUpperBounds with
      | none => t
      | some known => { t with
          mLearnedUpperBounds := known
          mNewLearnedBounds := t.mNewLearnedBounds ++ [(true, v)] }

/-- The part of `rowRefinement` for lower bounds. -/
def refineLower : Tableau :=
  match t.refinementPremise settings false v with
  | none => t
  | some premise =>
    let newLimit := t.refinementLimit v premise
    match nextWeakerBound (t.infimum v)
        (fun b => b.ltValue (t.dividedLimit settings v newLimit)) (t.lowerbounds v).reverse with
    | none => t
    | some lbound =>
      match learnBound Bound.gt v ⟨newLimit, lbound, premise⟩ t.mLearnedLowerBounds with
      | none => t
      | some known => { t with
          mLearnedLowerBounds := known
          mNewLearnedBounds := t.mNewLearnedBounds ++ [(false, v)] }

/-- `Tableau::rowRefinement`. -/
def rowRefinement : Tableau :=
  if 128 < (t.row v).entries.length then t
  else (t.refineUpper settings v).refineLower settings v

/-! ## Pivoting -/

/-- The body of `update` for the row of `i`, with the column of `r` and the row of `c`. -/
def updateRow (r c i : VarId) : Tableau :=
  let value := t.assignment i + effect settings ((t.content i r).getD 0) (t.row i).factor t.mpTheta
  let t := { t with
    toRowSystem := t.toRowSystem.eliminate settings.omit_division r c i
    assignment := Function.update t.assignment i value }
  if (t.supremum i).gtValue value || (t.infimum i).ltValue value then
    let t := { t with mConflictingRows := t.mConflictingRows ++ [i] }
    if settings.use_refinement then t.rowRefinement settings i else t
  else t

/-- The beginning of `pivot`: the two variables are exchanged and assigned. -/
def exchangeVariables (r c : VarId) : Tableau :=
  { t with
    toRowSystem := t.toRowSystem.exchange settings.omit_division r c
    assignment := Function.update (Function.update t.assignment
      r (t.assignment r + effect settings ((t.content r c).getD 0) (t.row r).factor t.mpTheta))
      c (t.assignment c + t.mpTheta) }

/-- `Tableau::pivot`. -/
def pivot (e : EntryID) : Tableau :=
  let r := e.row
  let c := e.col
  let t := t.exchangeVariables settings r c
  let t := if settings.use_refinement && t.hasBound c then t.rowRefinement settings c else t
  let t := (t.rowsToUpdate r c).foldl (fun t i => t.updateRow settings r c i) t
  let t := { t with mPivotingSteps := t.mPivotingSteps + 1 }
  -- a slack variable is created with a bound, so here its row is only stored, not deleted
  if !t.hasBound c && !t.isOriginal c then t.deactivateBasicVar c else t

/-! ## The choice of the pivoting element -/

/-- `startEntry`: the leftmost entry of a row, the lowest entry of a column. -/
def startEntry : Option EntryID :=
  if t.isBasic v then
    if v ∈ t.mRows then (t.row v).entries.head?.map fun e => ⟨v, e.1⟩ else none
  else (t.column v).getLast?.map fun i => ⟨i, v⟩

/-- The entries from `e` on to the right. -/
def entriesFrom (e : EntryID) : List (VarId × ℚ) :=
  (t.row e.row).entries.dropWhile fun d => d.1 ≠ e.col

/-- `boundedVariables` for a non-basic variable. -/
def boundedVariables (c : VarId) (stopCriterium : ℕ) : ℕ :=
  let n := ((t.column c).filter fun v => t.hasBound v).length
  if stopCriterium ≠ 0 ∧ stopCriterium ≤ n then stopCriterium + 1 else n

/-- `betterEntry`, for the columns of two entries. -/
def betterEntry (isBetter : VarId) : Option VarId → Bool
  | none => true
  | some than =>
    if t.mMaxPivotsWithoutBlandsRule ≤ t.mPivotingSteps then isBetter < than
    else if (t.column isBetter).length < (t.column than).length then true
    else if (t.column isBetter).length = (t.column than).length then
      let valueA := t.boundedVariables isBetter 0
      valueA < t.boundedVariables than valueA
    else false

/-- An entry of the row of `v` whose column variable can be moved so that the basic variable
increases, or else decreases. -/
def entryIsSuitable (increase : Bool) (v : VarId) (e : VarId × ℚ) : Bool :=
  if (if increase then t.entryIsPositive settings v e.2 else t.entryIsNegative settings v e.2) then
    (t.supremum e.1).gtValue (t.assignment e.1)
  else (t.infimum e.1).ltValue (t.assignment e.1)

/-- `Tableau::isSuitable`. -/
def isSuitable (forIncreasingAssignment : Bool) : Option EntryID :=
  match t.startEntry v with
  | none => none
  | some start =>
    ((t.entriesFrom start).foldl (fun best e =>
      if t.entryIsSuitable settings forIncreasingAssignment start.row e && t.betterEntry e.1 best
      then some e.1 else best) none).map fun c => ⟨start.row, c⟩

/-- The distance of a variable to the bound it violates, and whether that is the lower one. -/
def violation : Option (Value ℚ × Bool) :=
  if (t.supremum v).ltValue (t.assignment v) then
    some ((t.supremum v).limitValue - t.assignment v, false)
  else if (t.infimum v).gtValue (t.assignment v) then
    some ((t.infimum v).limitValue - t.assignment v, true)
  else none

/-- A row to repair, with the entry to pivot at and the change of its variable. -/
structure Candidate where
  var : VarId
  entry : EntryID
  thetaB : Value ℚ

/-- The loop over the rows.  It ends with the start entry of a row that cannot be repaired, or else
with the best candidate. -/
def findCandidate (isBetter : VarId → Candidate → Bool) :
    List VarId → Option Candidate → Except (Option EntryID) (Option Candidate)
  | [], best => .ok best
  | v :: vs, best =>
    match t.violation v with
    | none => findCandidate isBetter vs best
    | some (thetaB, lowerBoundViolated) =>
      match t.isSuitable settings v lowerBoundViolated with
      | none => .error (t.startEntry v)
      | some e => findCandidate isBetter vs
          (if best.all (isBetter v) then some ⟨v, e, thetaB⟩ else best)

/-- The change of the column variable that changes the basic variable by `thetaB`. -/
def theta (candidate : Candidate) : Value ℚ :=
  let thetaB := if settings.omit_division then (t.row candidate.var).factor • candidate.thetaB
    else candidate.thetaB
  thetaB / (t.content candidate.entry.row candidate.entry.col).getD 0

/-- The search with the pivoting strategy: first among the rows in conflict since the last
pivoting step, and in all rows when none of these violates a bound. -/
def findPivot : (Option EntryID × Bool) × Tableau :=
  let conflictingRows := t.mConflictingRows.filter fun v => (t.violation v).isSome
  let initialSearch := conflictingRows.isEmpty
  -- every candidate replaces the one before
  match t.findCandidate settings (fun _ _ => true)
      (if initialSearch then t.mRows else conflictingRows) none with
  | .error e => ((e, e.isNone), { t with mConflictingRows := [] })
  | .ok (some best) =>
    ((some best.entry, true), { t with
      mpTheta := t.theta settings best
      mConflictingRows := if initialSearch then [] else conflictingRows.dropLast })
  | .ok none => ((none, true), { t with mConflictingRows := [] })

/-- The search with Bland's rule, for the candidate with the smallest id. -/
def findPivotBland : (Option EntryID × Bool) × Tableau :=
  match t.findCandidate settings (fun v best => v < best.var) t.mRows none with
  | .error e => ((e, false), t)
  | .ok (some best) => ((some best.entry, true), { t with mpTheta := t.theta settings best })
  | .ok none => ((none, true), t)

/-- `Tableau::nextPivotingElement`.  No entry with `true` means that no bound is violated, an entry
with `false` that its row cannot be repaired. -/
def nextPivotingElement : (Option EntryID × Bool) × Tableau :=
  if t.mPivotingSteps < t.mMaxPivotsWithoutBlandsRule then t.findPivot settings
  else t.findPivotBland settings

/-- `Tableau::isConflicting`: an active variable has an infimum above its supremum. -/
def hasConflict : Bool := (t.mRows ++ t.mColumns).any fun v => t.isConflicting v

/-! ## Conflicts -/

/-- The bounds of the columns that hold the basic variable of a row down, or up: those that
keep every entry from being suitable. -/
def blockingBounds (increase : Bool) (v : VarId) : List Bound :=
  (t.row v).entries.map fun e =>
    if (if increase then t.entryIsPositive settings v e.2 else t.entryIsNegative settings v e.2)
    then t.supremum e.1 else t.infimum e.1

/-- `Tableau::getConflict`: the weakest active bound that is still violated, with the bounds of
the columns. -/
def getConflict (e : EntryID) : List Bound :=
  let v := e.row
  if (t.supremum v).ltValue (t.assignment v) then
    (((t.upperbounds v).reverse.find? fun b =>
        b == t.supremum v || t.isActive b && b.ltValue (t.assignment v)).getD (t.supremum v)) ::
      t.blockingBounds settings false v
  else
    (((t.lowerbounds v).find? fun b =>
        b == t.infimum v || t.isActive b && b.gtValue (t.assignment v)).getD (t.infimum v)) ::
      t.blockingBounds settings true v

/-- The conflict of one row in `getConflictsFrom`, if it cannot be repaired. -/
def rowConflict : Option (List Bound) :=
  if (t.supremum v).ltValue (t.assignment v) then
    if (t.row v).entries.any fun e => t.entryIsSuitable settings false v e then none
    else some (t.supremum v :: t.blockingBounds settings false v)
  else if (t.infimum v).gtValue (t.assignment v) then
    if (t.row v).entries.any fun e => t.entryIsSuitable settings true v e then none
    else some (t.infimum v :: t.blockingBounds settings true v)
  else none

/-- `Tableau::getConflictsFrom`. -/
def getConflictsFrom (e : EntryID) : List (List Bound) :=
  (t.mRows.dropWhile fun v => v ≠ e.row).filterMap fun v => t.rowConflict settings v

end Tableau

end Smtrat.LRA
