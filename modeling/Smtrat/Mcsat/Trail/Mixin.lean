import Smtrat.Mcsat.Bookkeeping
import Smtrat.SAT.Literal

/-!
# The theory levels of an MCSAT solver

`MCSATMixin` keeps a stack of theory levels next to the trail of the backend.  A level belongs to a
theory variable, may have the literal that assigns it, and lists the Boolean variables that are
univariate in it.  The stack is a list with the current level in front, the level of the non-theory
variables at its end.
-/

namespace Smtrat.Mcsat

open SAT

/-- `TheoryLevel` -/
structure TheoryLevel (σ : Type*) where
  /-- Theory variable for this level; `none` is `NO_VARIABLE`. -/
  theoryVariable : Option σ
  /-- Literal that assigns this theory variable; `none` is `lit_Undef`. -/
  decisionLiteral : Option Lit
  /-- Boolean variables univariate in this theory variable. -/
  univariateVariables : List Var
deriving DecidableEq

def TheoryLevel.empty {σ : Type*} : TheoryLevel σ := ⟨none, none, []⟩

/-- `MCSATMixin` -/
structure Mixin (σ A : Type*) where
  theoryStack : List (TheoryLevel σ)
  /-- Variables that are not univariate in any variable yet. -/
  undecidedVariables : List Var
  backend : Bookkeeping σ A

namespace Mixin

variable {σ A : Type*} [DecidableEq σ]

/-! ## Auxiliary getters -/

variable (m : Mixin σ A)

def level : ℕ := m.theoryStack.length - 1

/-- The variable of a level according to the variable order. -/
def variableAt : ℕ → Option σ
  | 0 => none
  | level + 1 => m.backend.variableOrder[level]?

def currentVariable : Option σ := m.variableAt m.level

def hasNextVariable : Bool := m.level < m.backend.variableOrder.length

def nextVariable : Option σ := m.backend.variableOrder[m.level]?

def mayDoAssignment : Bool :=
  match m.theoryStack with
  | [] => false
  | current :: _ => current.theoryVariable.isSome && current.decisionLiteral.isNone

/-- Whether `carl::model::evaluate` gives a Boolean. -/
abbrev Evaluates (σ A : Type*) := Formula σ A → Model σ A → Bool

/-- The evaluation looks at the values of the variables of the formula. -/
def Local (evaluates : Evaluates σ A) : Prop :=
  ∀ f model model', (∀ y ∈ f.variables, model y = model' y) → evaluates f model = evaluates f model'

/-- The loop of `theoryLevel` from a level downwards; at its end the assertion fails. -/
def theoryLevelLoop (evaluates : Evaluates σ A) (order : List σ) (f : Formula σ A) :
    ℕ → Model σ A → ℕ
  | 0, _ => 0
  | level + 1, model =>
    match order[level]? with
    | none => theoryLevelLoop evaluates order f level model
    | some x =>
      let model := model.erase x
      if x ∉ f.variables then theoryLevelLoop evaluates order f level model
      else if !evaluates f model then level + 1
      else theoryLevelLoop evaluates order f level model

/-- The theory level of an abstraction, `none` if it is undecided. -/
def theoryLevel (evaluates : Evaluates σ A) (m : Mixin σ A) : Option (Formula σ A) → Option ℕ
  | none => some 0
  | some f =>
    if f.variables = [] then some 0
    else if !evaluates f m.backend.model then none
    else some (theoryLevelLoop evaluates m.backend.variableOrder f m.level m.backend.model)

/-! ## Modifiers -/

/-- The formula a literal is handled with: an abstraction that does not assign a variable. -/
def theoryConstraint : Option (Formula σ A) → Option (Formula σ A)
  | some (.varassign _ _ _) => none
  | f => f

/-- `doAssignment`, for the reabstraction of the literal. -/
def doAssignment (f : Option (Formula σ A)) : Mixin σ A :=
  match theoryConstraint f with
  | none => m
  | some f => { m with backend := m.backend.pushConstraint f }

def undoAssignment (f : Option (Formula σ A)) : Mixin σ A :=
  match theoryConstraint f with
  | none => m
  | some f => { m with backend := m.backend.popConstraint f }

/-- Appends to the list of the numbered level. -/
def addUnivariate (level : ℕ) (v : Var) : List (TheoryLevel σ) → List (TheoryLevel σ)
  | [] => []
  | l :: rest =>
    if rest.length = level then { l with univariateVariables := l.univariateVariables ++ [v] } :: rest
    else l :: addUnivariate level v rest

def addVariable (evaluates : Evaluates σ A) (m : Mixin σ A) (f : Option (Formula σ A)) (v : Var) :
    Mixin σ A :=
  match m.theoryLevel evaluates f with
  | none => { m with undecidedVariables := m.undecidedVariables ++ [v] }
  | some level => { m with theoryStack := addUnivariate level v m.theoryStack }

def pushLevel (x : Option σ) : Mixin σ A :=
  { m with theoryStack := ⟨x, none, []⟩ :: m.theoryStack }

/-- `SATModule::pickTheoryBranchLit` -/
def pickTheoryBranchLit : Mixin σ A :=
  if m.hasNextVariable then m.pushLevel m.nextVariable else m.pushLevel none

/-- Moves the undecided variables that belong to the current level; `reabstract` gives the
abstraction of a variable. -/
def updateCurrentLevel (evaluates : Evaluates σ A) (reabstract : Var → Option (Formula σ A))
    (m : Mixin σ A) : Mixin σ A :=
  match m.theoryStack with
  | [] => m
  | current :: rest =>
    let here := fun v => m.theoryLevel evaluates (reabstract v) = some m.level
    { m with
      theoryStack := { current with univariateVariables :=
        current.univariateVariables ++ m.undecidedVariables.filter (here ·) } :: rest
      undecidedVariables := m.undecidedVariables.filter (¬ here ·) }

def makeDecision (evaluates : Evaluates σ A) (reabstract : Var → Option (Formula σ A))
    (m : Mixin σ A) (decisionLiteral : Lit) : Mixin σ A :=
  match m.theoryStack with
  | [] => m
  | current :: rest =>
    { m with theoryStack := { current with decisionLiteral := some decisionLiteral } :: rest }
      |>.updateCurrentLevel evaluates reabstract

/-- One round of the loop of `backtrackTo`: retracts a level and undoes the decision below it. -/
def retractLevel : Mixin σ A :=
  match m.theoryStack with
  | _ :: current :: rest =>
    { theoryStack :=
        { current with decisionLiteral := none, univariateVariables := [] } :: rest
      undecidedVariables := m.undecidedVariables ++ current.univariateVariables
      backend :=
        match current.decisionLiteral, m.variableAt rest.length with
        | some _, some x => m.backend.popAssignment x
        | _, _ => m.backend }
  | _ => m

/-- The number of levels above the topmost level with this decision literal; the level of the
non-theory variables is not looked at. -/
def levelsAbove (literal : Lit) (stack : List (TheoryLevel σ)) : Option ℕ :=
  stack.dropLast.findIdx? fun l => l.decisionLiteral = some literal

/-- `backtrackTo`; without such a level, or at the current level, nothing happens. -/
def backtrackTo (literal : Lit) : Mixin σ A :=
  match levelsAbove literal m.theoryStack with
  | none => m
  | some n => retractLevel^[n] m

/-- `carl::representingFormula` -/
def representingFormula (value : σ × Number A) : Formula σ A := .varassign value.1 value.2 false

/-- `makeTheoryDecision`: all values are pushed to the backend. -/
def makeTheoryDecision (values : List (σ × Number A)) : Mixin σ A :=
  { m with
    backend := values.foldl
      (fun b value => b.pushAssignment value.1 value.2 (representingFormula value)) m.backend }

end Mixin

end Smtrat.Mcsat
