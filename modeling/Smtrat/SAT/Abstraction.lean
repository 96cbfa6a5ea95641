import Smtrat.Common.Atom
import Smtrat.Modules.ModuleInput
import Smtrat.SAT.Literal

/-!
# Abstracted constraints and the passed formula

A theory constraint of the received formulas is abstracted by a variable of the SAT solver; its
negation is abstracted by the negative literal.  The constraints whose literals are true are passed
to the backends, but not at once: assigning and resetting a literal only counts what has to change,
and `adaptPassedFormula` makes the changes before the backends are asked.
-/

namespace Smtrat

open PropFormula Function

universe u v

namespace SAT

/-- The atoms of received formulas.  Uninterpreted equations and bit-vector constraints are
constraints here too. -/
inductive Atom (B : Type u) (C : Type v) where
  | bool (b : B)
  | constraint (c : C)
deriving DecidableEq, Repr

variable {B : Type u} {C : Type v}

/-- The literal over an atom. -/
def literal (content : Atom B C) (negated : Bool) : Formula (Atom B C) :=
  if negated then .app .not [.atom content] else .atom content

/-- Stores all information regarding a Boolean abstraction of a constraint. -/
structure Abstraction (A : Type u) where
  /-- Whether the constraint occurs in a received formula. -/
  consistencyRelevant : Bool
  /-- Positive if the constraint must still be added to the passed formula, negative if it must
  still be removed. -/
  updateInfo : Int
  updatedReabstraction : Bool
  /-- The position in the passed formula; `none` is its end. -/
  position : Option Nat
  reabstraction : Formula A
  origins : Option Nat
deriving DecidableEq, Repr

namespace Abstraction

variable {A : Type u}

def new (reabstraction : Formula A) : Abstraction A :=
  { consistencyRelevant := false
    updateInfo := 0
    updatedReabstraction := false
    position := none
    reabstraction := reabstraction
    origins := none }

def setRelevant (a : Abstraction A) : Abstraction A := { a with consistencyRelevant := true }

def setUpdateInfo (a : Abstraction A) (n : Int) : Abstraction A := { a with updateInfo := n }

end Abstraction

/-- What the used backends say about formulas after they have been run. -/
structure Backends (A : Type u) where
  /-- The value of a formula in the model that `updateModel` collects. -/
  model : Formula A → Bool
  /-- `currentlySatisfiedByBackend`: 1 if the current model satisfies the formula, 0 if it is
  conflicted by it, 2 otherwise and 3 if nothing is known. -/
  currentlySatisfied : Formula A → Nat
  model_of_currentlySatisfied : ∀ f, currentlySatisfied f = 1 → model f = true

/-- Backends that do not know anything yet. -/
def Backends.initial (A : Type u) : Backends A := ⟨fun _ => false, fun _ => 3, nofun⟩

/-- The part of a `SATModule` that the passed formula depends on. -/
structure State (B : Type u) (C : Type v) where
  nVars : Nat
  assigns : Assigns
  decision : Var → Bool
  trail : List Lit
  trail_lim : List Nat
  assumptions : List Lit
  mReceivedFormulaPurelyPropositional : Bool
  mBooleanVarMap : B → Option Var
  mConstraintLiteralMap : Formula (Atom B C) → Option Lit
  /-- The abstraction that each literal stands for. -/
  mBooleanConstraintMap : Lit → Option (Abstraction (Atom B C))
  mChangedBooleans : List Var
  passedFormula : ModuleInput (Atom B C)
  mChangedPassedFormula : Bool
  mCurrentAssignmentConsistent : Answer
  backends : Backends (Atom B C)

namespace State

/-- The state after construction: there is one variable, which is true. -/
def init : State B C where
  nVars := 1
  assigns := Assigns.enqueue (fun _ => none) (mkLit 0 false)
  decision := fun v => v = 0
  trail := [mkLit 0 false]
  trail_lim := []
  assumptions := []
  mReceivedFormulaPurelyPropositional := true
  mBooleanVarMap := fun _ => none
  mConstraintLiteralMap := fun _ => none
  mBooleanConstraintMap := fun _ => none
  mChangedBooleans := []
  passedFormula := .empty
  mChangedPassedFormula := false
  mCurrentAssignmentConsistent := .sat
  backends := .initial _

variable (s : State B C)

def value (l : Lit) : Option Bool := s.assigns.value l

def decisionLevel : Nat := s.trail_lim.length

/-- Every variable to decide on is assigned. -/
def fullAssignment : Bool :=
  (List.range s.nVars).all fun v => !s.decision v || (s.assigns v).isSome

def newVar (dvar : Bool) : State B C :=
  { s with nVars := s.nVars + 1, decision := update s.decision s.nVars dvar }

def setDecisionVar (v : Var) (decisionRelevant : Bool) : State B C :=
  if decisionRelevant then { s with decision := update s.decision v true } else s

def setAbstraction (l : Lit) (a : Abstraction (Atom B C)) : State B C :=
  { s with mBooleanConstraintMap := update s.mBooleanConstraintMap l (some a) }

def pushChanged (v : Var) : State B C :=
  { s with mChangedBooleans := s.mChangedBooleans ++ [v] }

/-- `abstr.origins->push_back( _origin )`, in a new vector if there is none yet. -/
def pushOrigin (l : Lit) (a : Abstraction (Atom B C)) (origin : Formula (Atom B C)) : State B C :=
  match a.origins with
  | none =>
    { s with passedFormula := s.passedFormula.allocate [origin] }.setAbstraction l
      { a with origins := some s.passedFormula.nextVector }
  | some v =>
    { s with
      passedFormula := s.passedFormula.setVector v (s.passedFormula.vectors v ++ [origin]) }

section createLiteral

variable [DecidableEq B] [DecidableEq C]

/-- A constraint that exists already: the side of its abstraction becomes relevant, also while its
literal is true. -/
def activate (s : State B C) (l : Lit) (a : Abstraction (Atom B C)) : State B C :=
  if a.consistencyRelevant then s
  else if s.value l = some true then
    let s' := s.setAbstraction l (a.setUpdateInfo (a.updateInfo + 1)).setRelevant
    if 0 < a.updateInfo + 1 then s'.pushChanged l.var else s'
  else s.setAbstraction l a.setRelevant

/-- The variables and abstractions for a constraint that does not exist yet. -/
def newConstraint (s : State B C) (c : C) (decisionRelevant : Bool) : State B C :=
  let v := s.nVars
  let constraint := literal (.constraint c) false
  let invertedConstraint := literal (.constraint c) true
  let s := (s.newVar decisionRelevant).setAbstraction (mkLit v false) (.new constraint)
  let s := s.setAbstraction (mkLit v true) (.new invertedConstraint)
  { s with
    mConstraintLiteralMap :=
      update (update s.mConstraintLiteralMap constraint (some (mkLit v false)))
        invertedConstraint (some (mkLit v true)) }

/-- Adds an origin to the abstraction of `l`, which is relevant from then on. -/
def addRelevantOrigin (s : State B C) (l : Lit) (origin : Formula (Atom B C)) : State B C :=
  match s.mBooleanConstraintMap l with
  | none => s
  | some a => (s.setAbstraction l a.setRelevant).pushOrigin l a.setRelevant origin

def setRelevant (s : State B C) (l : Lit) : State B C :=
  match s.mBooleanConstraintMap l with
  | none => s
  | some a => s.setAbstraction l a.setRelevant

/-- The branch of `createLiteral` for constraints that exist. -/
def reuseConstraint (s : State B C) (l : Lit) (negated : Bool) (origin : Formula (Atom B C))
    (decisionRelevant : Bool) : State B C :=
  let s := s.setDecisionVar l.var decisionRelevant
  if origin = .const true && negated then s
  else match s.mBooleanConstraintMap l with
    | none => s
    | some a =>
      let s := s.activate l a
      if origin = .const true then s
      else match s.mBooleanConstraintMap l with
        | none => s
        | some a => s.pushOrigin l a origin

/-- The literal for a Boolean variable or a constraint, which is created if there is none. -/
def createLiteral (s : State B C) (content : Atom B C) (negated : Bool)
    (origin : Formula (Atom B C)) (decisionRelevant : Bool) : Lit × State B C :=
  match content with
  | .bool b =>
    match s.mBooleanVarMap b with
    | some v => (mkLit v negated, s.setDecisionVar v decisionRelevant)
    | none =>
      (mkLit s.nVars negated,
        { s.newVar decisionRelevant with
          mBooleanVarMap := update s.mBooleanVarMap b (some s.nVars) })
  | .constraint c =>
    match s.mConstraintLiteralMap (literal content negated) with
    | some l => (l, s.reuseConstraint l negated origin decisionRelevant)
    | none =>
      let l := mkLit s.nVars negated
      let s' := s.newConstraint c decisionRelevant
      if origin = .const true then (l, (s'.setRelevant l).setRelevant l.neg)
      else (l, s'.addRelevantOrigin l origin)

end createLiteral

/-! ## Assigning and resetting -/

/-- The counting in `uncheckedEnqueue` for a constraint whose literal becomes true. -/
def countAssigned (equivalentToTrue : Formula (Atom B C) → Bool) (s : State B C) (l : Lit)
    (a : Abstraction (Atom B C)) : State B C :=
  if a.updatedReabstraction then s.pushChanged l.var
  else if a.consistencyRelevant && !equivalentToTrue a.reabstraction then
    let s' := s.setAbstraction l (a.setUpdateInfo (a.updateInfo + 1))
    if 0 < a.updateInfo + 1 then
      let s' := s'.pushChanged l.var
      if s.backends.currentlySatisfied a.reabstraction = 1 then s'
      else { s' with mCurrentAssignmentConsistent := .unknown }
    else s'
  else s

def uncheckedEnqueue (equivalentToTrue : Formula (Atom B C) → Bool) (s : State B C) (l : Lit) :
    State B C :=
  let s := { s with assigns := s.assigns.enqueue l, trail := s.trail ++ [l] }
  if s.mReceivedFormulaPurelyPropositional then s
  else match s.mBooleanConstraintMap l with
    | none => s
    | some a => s.countAssigned equivalentToTrue l a

/-- The counting in `resetVariableAssignment` for a constraint whose literal was true. -/
def countReset (l : Lit) (a : Abstraction (Atom B C)) : State B C :=
  if a.position.isSome then
    if 0 ≤ a.updateInfo then
      let s' := s.setAbstraction l (a.setUpdateInfo (a.updateInfo - 1))
      if a.updateInfo - 1 < 0 then s'.pushChanged l.var else s'
    else s
  else if a.consistencyRelevant then s.setAbstraction l (a.setUpdateInfo 0)
  else s

def resetVariableAssignment (v : Var) : State B C :=
  let l := mkLit v (s.assigns v = some false)
  let s := if s.mReceivedFormulaPurelyPropositional then s
    else match s.mBooleanConstraintMap l with
      | none => s
      | some a => s.countReset l a
  { s with assigns := s.assigns.reset v }

def newDecisionLevel : State B C :=
  { s with trail_lim := s.trail_lim ++ [s.trail.length] }

/-- The literals assigned above a level, the last one first. -/
def assignedAbove (level : Nat) : List Lit :=
  (s.trail.drop (s.trail_lim.getD level s.trail.length)).reverse

def cancelAssignmentUntil (level : Nat) : State B C :=
  (s.assignedAbove level).foldl (fun s l => s.resetVariableAssignment l.var) s

def cancelUntil (level : Nat) (force : Bool) : State B C :=
  let level := if level < s.assumptions.length && !force then s.assumptions.length else level
  if level < s.decisionLevel then
    { s.cancelAssignmentUntil level with
      trail := s.trail.take (s.trail_lim.getD level s.trail.length)
      trail_lim := s.trail_lim.take level }
  else s

/-! ## The passed formula -/

section adaptPassedFormula

variable [DecidableEq B] [DecidableEq C]

/-- `removeOrigins` of a module: a formula without origins is erased. -/
def removeOrigins (m : ModuleInput (Atom B C)) (it : Nat) (os : Option Nat) :
    ModuleInput (Atom B C) :=
  let r := m.removeOrigins it os
  if r.1 then r.2.erase it else r.2

/-- The first part of `adaptPassedFormula( Abstraction& )`. -/
def withdraw (s : State B C) (l : Lit) (a : Abstraction (Atom B C)) : State B C :=
  if a.updatedReabstraction || a.updateInfo < 0 then
    match a.position with
    | none => s
    | some it =>
      { s with
        passedFormula := removeOrigins s.passedFormula it a.origins
        mChangedPassedFormula := true }.setAbstraction l { a with position := none }
  else s

/-- The second part of `adaptPassedFormula( Abstraction& )`. -/
def pass (s : State B C) (l : Lit) (a : Abstraction (Atom B C)) : State B C :=
  if a.updatedReabstraction || 0 < a.updateInfo then
    let r := s.passedFormula.add (.shared a.origins) a.reabstraction true
    { s with passedFormula := r.2, mChangedPassedFormula := true }.setAbstraction l
      { a with position := r.1.1 }
  else s

/-- `adaptPassedFormula( Abstraction& )`. -/
def adaptAbstraction (s : State B C) (l : Lit) : State B C :=
  match s.mBooleanConstraintMap l with
  | none => s
  | some a =>
    let s := s.withdraw l a
    match s.mBooleanConstraintMap l with
    | none => s
    | some a =>
      let s := s.pass l a
      match s.mBooleanConstraintMap l with
      | none => s
      | some a => s.setAbstraction l { a with updateInfo := 0, updatedReabstraction := false }

/-- Both sides of a variable. -/
def adaptVariable (s : State B C) (v : Var) : State B C :=
  (s.adaptAbstraction (mkLit v false)).adaptAbstraction (mkLit v true)

def adaptPassedFormula (s : State B C) : State B C :=
  let s := { s.mChangedBooleans.foldl adaptVariable s with mChangedBooleans := [] }
  if s.mChangedPassedFormula then { s with mCurrentAssignmentConsistent := .sat } else s

/-- What the backends answer when they are run, and their state after that. -/
structure Reply (A : Type u) where
  answer : Answer
  backends : Backends A

/-- The answer that is stored: an aborted run is as good as an unknown result. -/
def storedAnswer : Answer → Answer
  | .aborted => .unknown
  | answer => answer

def theoryCall (s : State B C) (reply : Reply (Atom B C)) : State B C :=
  if s.mReceivedFormulaPurelyPropositional || s.decisionLevel < s.assumptions.length then s
  else
    let s := if s.mCurrentAssignmentConsistent = .sat then s else s.adaptPassedFormula
    let finalCheck := s.fullAssignment
    if s.mChangedPassedFormula || finalCheck then
      { s with
        mChangedPassedFormula := false
        mCurrentAssignmentConsistent := storedAnswer reply.answer
        backends := reply.backends }
    else s

end adaptPassedFormula

end State

end SAT

end Smtrat
