import Smtrat.Datastructures.BoundConflict
import Smtrat.Modules.OriginBookkeeping
import Smtrat.PFE.Simplification

/-!
# The module

Received formulas are passed as they are if they are bounds, and simplified by the bounds otherwise.
A simplified formula has as origins those of the bounds of its variables and the formula itself.
Unless the bounds have changed, only the formulas that are new since the last check are passed.
-/

namespace Smtrat.PFE

open SparsePoly PropFormula VB

universe u v w

/-- What the backends answer to a check, and their infeasible subsets of the passed formulas. -/
structure Backend (V : Type u) (B : Type v) where
  run : List (Formula (Atom V B)) → Answer × List (List (Formula (Atom V B)))
  sound : ∀ passed, ∀ subset ∈ (run passed).2, (∀ f ∈ subset, f ∈ passed) ∧
    ¬ ∃ a : Assignment V B, ∀ f ∈ subset, a.Satisfies f

/-- `PFEModule`, with the received formulas before and from `mFirstUncheckedReceivedSubformula`. -/
structure PFEModule (V : Type u) (B : Type v) (F : Type w) where
  varbounds : VariableBounds V F
  boundsChanged : Bool
  mpPassedFormula : ModuleInput (Atom V B)
  mInfeasibleSubsets : List (List F)
  checked : List F
  unchecked : List F
  /-- The formulas that checks have left out, starting with one that was found to be false. -/
  leftOut : List F

variable {V : Type u} {B : Type v} {F : Type w}

/-! ## Passing formulas -/

section Passing

/-- The number of subformulas. -/
def size : Formula (Atom V B) → ℕ
  | .app _ fs => fs.length
  | _ => 1

/-- `Module::findBestOrigin` -/
def findBestOrigin (origins : List (Formula (Atom V B))) : Option (Formula (Atom V B)) :=
  match origins.find? (size · = 1) with
  | some origin => some origin
  | none => origins.foldl (fun smallest origin =>
    match smallest with
    | none => some origin
    | some o => if size origin < size o then some origin else some o) none

/-- The formula is a bound of a variable. -/
def isBound [DecidableEq V] (f : Formula (Atom V B)) : Bool :=
  ((literal f).bind boundOf).isSome

/-- The only value of an interval. -/
def pointOf (i : Interval) : Option ℚ :=
  match i.lower, i.upper with
  | some (l, false), some (u, false) => if l = u then some l else none
  | _, _ => none

variable [LinearOrder V] [DecidableEq B]

/-- `addReceivedSubformulaToPassedFormula` -/
def addReceived (f : Formula (Atom V B)) (m : ModuleInput (Atom V B)) : ModuleInput (Atom V B) :=
  (ModuleInput.add (.single f) f false m).2

/-- `addSubformulaToPassedFormula`, with a new vector of origins. -/
def addSubformula (f : Formula (Atom V B)) (origins : List (Formula (Atom V B)))
    (m : ModuleInput (Atom V B)) : ModuleInput (Atom V B) :=
  (ModuleInput.add (.shared (some m.nextVector)) f true (m.allocate origins)).2

/-- `Module::clearPassedFormula` -/
def clearPassedFormula (m : ModuleInput (Atom V B)) : ModuleInput (Atom V B) :=
  (m.elements.map (·.position)).foldl ModuleInput.erase m

variable (lib : Library V B) (content : F → Formula (Atom V B)) (bounds : VariableBounds V F)

/-- `completeBounds` -/
def completeBounds (x : V) : Interval := (bounds.getInterval x).1

/-- `getOriginsOfBounds` for the variables of a formula. -/
def originsOfBounds (f : Formula (Atom V B)) : List F :=
  ((gatherVariables f).dedup.insertionSort (· ≤ ·)).flatMap bounds.getOriginsOfBounds

/-- One turn of the loop of `checkCore`; there is no result if the formula is false. -/
def passFormula (f : F) (m : ModuleInput (Atom V B)) : Option (ModuleInput (Atom V B)) :=
  let formula := content f
  if isBound formula then some (addReceived formula m)
  else
    let simplified := simplify lib (completeBounds bounds) formula
    if simplified = .const false then none
    else if simplified = .const true then some m
    else if simplified = formula then some (addReceived formula m)
    else some (addSubformula simplified
      ((originsOfBounds bounds formula).map content ++ [formula]) m)

/-- The loop of `checkCore`, with the formulas from the first one that is false. -/
def passFormulas : List F → ModuleInput (Atom V B) → ModuleInput (Atom V B) × List F
  | [], m => (m, [])
  | f :: fs, m =>
    match passFormula lib content bounds f m with
    | some m => passFormulas fs m
    | none => (m, f :: fs)

/-- The turn of `generateVariableAssignments` for one variable. -/
def generateVariableAssignment (m : ModuleInput (Atom V B)) (x : V) : ModuleInput (Atom V B) :=
  match pointOf (completeBounds bounds x) with
  | some c => addSubformula (lib.constraint (Poly.sub (Poly.var x) (SparsePoly.Poly.const c)) .eq)
      ((bounds.getOriginsOfBounds x).map content) m
  | none => m

def generateVariableAssignments (m : ModuleInput (Atom V B)) : ModuleInput (Atom V B) :=
  (bounds.mpVariableMap.keys.insertionSort (· ≤ ·)).foldl
    (generateVariableAssignment lib content bounds) m

end Passing

namespace PFEModule

/-- The received formulas, in order. -/
def received (s : PFEModule V B F) : List F := s.checked ++ s.unchecked

def initial : PFEModule V B F := ⟨.initial, false, .empty, [], [], [], []⟩

variable [LinearOrder V] [DecidableEq B] [LinearOrder F] (lib : Library V B)
  (content : F → Formula (Atom V B))

/-- `Module::collectOrigins` -/
def collectOrigins (s : PFEModule V B F) (formula : Formula (Atom V B)) : List F :=
  match s.received.find? (content · = formula) with
  | some f => [f]
  | none => formula.subformulas.filterMap fun g => s.received.find? (content · = g)

/-- `Module::getOrigins` -/
def getOrigins (s : PFEModule V B F) (formula : Formula (Atom V B)) : List F :=
  match findBestOrigin (s.mpPassedFormula.origins formula) with
  | some origin => s.collectOrigins content origin
  | none => []

/-- `Module::getInfeasibleSubsets`, for one infeasible subset of a backend. -/
def getInfeasibleSubset (s : PFEModule V B F) (subset : List (Formula (Atom V B))) : List F :=
  subset.flatMap (s.getOrigins content)

/-- The addition of a formula that is not received yet. -/
def addCore (s : PFEModule V B F) (f : F) : Option (PFEModule V B F) :=
  if content f ∈ s.received.map content then none
  else (VariableBounds.addFormula f (content f) s.varbounds).map fun (changed, varbounds) =>
    { s with
      varbounds := varbounds
      boundsChanged := s.boundsChanged || changed
      mInfeasibleSubsets :=
        if varbounds.isConflicting then s.mInfeasibleSubsets ++ [varbounds.getConflict]
        else s.mInfeasibleSubsets
      unchecked := s.unchecked ++ [f] }

/-- `Module::remove` and `removeCore`; the order of the infeasible subsets does not matter. -/
def removeCore (s : PFEModule V B F) (f : F) : Option (PFEModule V B F) :=
  if f ∈ s.received then
    (VariableBounds.removeFormula f (content f) s.varbounds).map fun (res, varbounds) =>
      { s with
        varbounds := varbounds
        boundsChanged := s.boundsChanged || res = 2
        mpPassedFormula := s.mpPassedFormula.removeReceived (content f)
        mInfeasibleSubsets := s.mInfeasibleSubsets.filter (f ∉ ·)
        checked := s.checked.filter (· ≠ f)
        unchecked := s.unchecked.filter (· ≠ f)
        leftOut := s.leftOut.filter (· ≠ f) }
  else none

/-- The formulas a check passes, and what is passed already. -/
def toPass (s : PFEModule V B F) : List F × ModuleInput (Atom V B) :=
  if s.boundsChanged then (s.received, clearPassedFormula s.mpPassedFormula)
  else (s.unchecked, s.mpPassedFormula)

/-- The state after the loop of `checkCore`. -/
def checkFormulas (s : PFEModule V B F) : PFEModule V B F :=
  let (passed, leftOut) := passFormulas lib content s.varbounds s.toPass.1 s.toPass.2
  { s with
    boundsChanged := false
    mpPassedFormula := passed
    checked := s.received
    unchecked := []
    leftOut := if s.boundsChanged then leftOut else s.leftOut ++ leftOut }

/-- `Module::check` and `checkCore`. -/
def checkCore (backend : Backend V B) (s : PFEModule V B F) : Answer × PFEModule V B F :=
  if s.received = [] then (.sat, s)
  else
    let t := s.checkFormulas lib content
    match (passFormulas lib content s.varbounds s.toPass.1 s.toPass.2).2 with
    | f :: _ =>
      (.unsat, { t with
        mInfeasibleSubsets := [originsOfBounds s.varbounds (content f) ++ [f]] })
    | [] =>
      let t := { t with
        mpPassedFormula := generateVariableAssignments lib content s.varbounds t.mpPassedFormula }
      let (answer, subsets) := backend.run t.mpPassedFormula.formulas
      (answer, if answer = .unsat then
        { t with
          mInfeasibleSubsets := t.mInfeasibleSubsets ++ subsets.map (t.getInfeasibleSubset content) }
        else t)

inductive Action (V : Type u) (B : Type v) (F : Type w) where
  | addCore (f : F)
  | removeCore (f : F)
  | checkCore (backend : Backend V B)

def step (s : PFEModule V B F) : Action V B F → Option (PFEModule V B F)
  | .addCore f => s.addCore content f
  | .removeCore f => s.removeCore content f
  | .checkCore backend => some (s.checkCore lib content backend).2

end PFEModule

end Smtrat.PFE
