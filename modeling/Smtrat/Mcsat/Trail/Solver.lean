import Smtrat.Mcsat.Trail.Mixin

/-!
# The Boolean trail of an MCSAT solver

The part of `SATModule` that keeps the trail and the theory levels together: literals are enqueued,
theory decisions are made, and the trail is cancelled from its end.  The trail and the decision levels
are lists with the newest entry in front.
-/

namespace Smtrat.Mcsat

open SAT

variable {σ A : Type*} [DecidableEq σ]

/-- `SATModule`, as far as the trail is concerned. -/
structure Solver (σ A : Type*) where
  /-- `mBooleanConstraintMap`, the abstractions of the variables; `none` for Boolean variables. -/
  booleanConstraintMap : List (Option (Formula σ A × Formula σ A))
  mcsat : Mixin σ A
  trail : List Lit
  trailLim : List ℕ
  assumptions : List Lit

namespace Solver

def init (assumptions : List Lit) : Solver σ A where
  booleanConstraintMap := []
  mcsat := ⟨[TheoryLevel.empty], [], ⟨fun _ => none, [], [], [], [], []⟩⟩
  trail := []
  trailLim := []
  assumptions := assumptions

/-! ## Abstractions -/

/-- `reabstractVariable`, if the variable is a theory abstraction. -/
def reabstractVariable (s : Solver σ A) (v : Var) : Option (Formula σ A) :=
  ((s.booleanConstraintMap[v]?).join).map Prod.fst

/-- `reabstractLiteral`, if the variable is a theory abstraction. -/
def reabstractLiteral (s : Solver σ A) (l : Lit) : Option (Formula σ A) :=
  ((s.booleanConstraintMap[l.var]?).join).map fun abstr => if l.sign then abstr.2 else abstr.1

/-- The variable does not abstract an assignment of a theory variable. -/
def isAdded : Option (Formula σ A × Formula σ A) → Bool
  | some (.varassign _ _ _, _) => false
  | _ => true

variable (evaluates : Mixin.Evaluates σ A)

/-- The new variable of `createLiteral`; variables that abstract assignments are not added to the
theory levels. -/
def newVariable (s : Solver σ A) (abstraction : Option (Formula σ A × Formula σ A)) : Solver σ A :=
  let v := s.booleanConstraintMap.length
  { s with
    booleanConstraintMap := s.booleanConstraintMap ++ [abstraction]
    mcsat :=
      if isAdded abstraction then s.mcsat.addVariable evaluates (abstraction.map Prod.fst) v
      else s.mcsat }

section Create

variable [DecidableEq A]

/-- `createLiteral` for the formula of a theory decision. -/
def createLiteral (s : Solver σ A) (f : Formula σ A) : Lit × Solver σ A :=
  match s.booleanConstraintMap.findIdx? fun abstraction => abstraction = some (f, f.negated) with
  | some v => (mkLit v false, s)
  | none => (mkLit s.booleanConstraintMap.length false,
      s.newVariable evaluates (some (f, f.negated)))

end Create

/-! ## Enqueueing -/

def decisionLevel (s : Solver σ A) : ℕ := s.trailLim.length

def newDecisionLevel (s : Solver σ A) : Solver σ A :=
  { s with trailLim := s.trail.length :: s.trailLim }

def uncheckedEnqueue (s : Solver σ A) (p : Lit) : Solver σ A :=
  { s with
    mcsat := s.mcsat.doAssignment (s.reabstractLiteral p)
    trail := p :: s.trail }

section Decide

variable [DecidableEq A]

/-- One round of the loop over the values of a theory decision. -/
def insertAssignment (s : Solver σ A) (f : Formula σ A) : Solver σ A :=
  let created := s.createLiteral evaluates f
  let s := created.2
  let mcsat := s.mcsat.makeDecision evaluates s.reabstractVariable created.1
  ({ s with mcsat := mcsat.pickTheoryBranchLit }).newDecisionLevel.uncheckedEnqueue created.1

/-- The theory decision of `search`.  All values are pushed to the backend, and the first ones, at most
`mcsat_num_insert_assignments` many, are inserted. -/
def theoryDecision (numInsert : ℕ) (s : Solver σ A) (values : List (σ × Number A)) : Solver σ A :=
  (values.take numInsert).foldl
    (fun s value => s.insertAssignment evaluates (Mixin.representingFormula value))
    { s with mcsat := s.mcsat.makeTheoryDecision values }

end Decide

/-! ## Cancelling -/

/-- What is undone for one literal of the trail. -/
def cancelLiteral (s : Solver σ A) (l : Lit) : Solver σ A :=
  { s with mcsat := (s.mcsat.backtrackTo l).undoAssignment (s.reabstractLiteral l) }

/-- `cancelAssignmentUntil`: the literals above a position of the trail are undone. -/
def cancelAssignmentUntil (s : Solver σ A) (position : ℕ) : Solver σ A :=
  (s.trail.take (s.trail.length - position)).foldl cancelLiteral s

def cancelUntil (s : Solver σ A) (level : ℕ) (force : Bool) : Solver σ A :=
  let level := if level < s.assumptions.length && !force then s.assumptions.length else level
  if level < s.decisionLevel then
    let position := s.trailLim.reverse.getD level 0
    { s.cancelAssignmentUntil position with
      trail := s.trail.drop (s.trail.length - position)
      trailLim := s.trailLim.drop (s.trailLim.length - level) }
  else s

/-- The loop of `cancelIncludingLiteral`. -/
def cancelLoop (lit : Lit) : List Lit → Solver σ A → Solver σ A
  | [], s => s
  | l :: rest, s =>
    let s := s.cancelLiteral l
    let s := { s with
      trailLim := if s.trailLim.head? = some rest.length then s.trailLim.tail else s.trailLim
      trail := rest }
    if l = lit then s else cancelLoop lit rest s

def cancelIncludingLiteral (s : Solver σ A) (lit : Lit) : Solver σ A := cancelLoop lit s.trail s

/-- What is undone for the decisions of a theory decision that led to a conflict. -/
def revertAssignments (s : Solver σ A) (theoryDecisions : List Lit) : Solver σ A :=
  { s with
    mcsat := theoryDecisions.reverse.foldl
      (fun m l => m.undoAssignment (s.reabstractLiteral l)) s.mcsat }

/-- The start of `checkCore`: the variable order is computed once, and the next level is pushed. -/
def startCheck (s : Solver σ A) (order : List σ) : Solver σ A :=
  let backend := s.mcsat.backend
  let mcsat := { s.mcsat with
    backend := { backend with
      variableOrder := if backend.variableOrder = [] then order else backend.variableOrder } }
  { s with mcsat := mcsat.pickTheoryBranchLit }

end Solver

/-! ## Runs -/

inductive Event (σ A : Type*) where
  /-- A check starts; the variable order is computed at the first one. -/
  | startCheck (order : List σ)
  /-- A literal is created for a Boolean variable or for a theory atom. -/
  | newVariable (abstraction : Option (Formula σ A × Formula σ A))
  /-- An assumption that holds already opens a level of its own. -/
  | newDecisionLevel
  /-- A literal is propagated or decided. -/
  | enqueue (l : Lit) (decision : Bool)
  /-- The assignment finder returned these values for the current variable. -/
  | theoryDecision (values : List (σ × Number A))
  | cancelUntil (level : ℕ) (force : Bool)
  | cancelIncludingLiteral (l : Lit)
  /-- After a conflict the assignments of a theory decision are reverted. -/
  | revertAssignments (theoryDecisions : List Lit)

namespace Event

/-- What the search and the assignment finders promise: at most one level is open when a check starts,
literals have a variable, values are given for the current variable and those behind it in the
variable order, and only assignments are reverted. -/
def Possible (s : Solver σ A) : Event σ A → Prop
  | .startCheck order => s.mcsat.level ≤ 1 ∧ order.Nodup
  | .newVariable _ | .newDecisionLevel | .cancelUntil _ _ => True
  | .enqueue l _ => l.var < s.booleanConstraintMap.length
  | .theoryDecision values => s.mcsat.mayDoAssignment ∧ values ≠ [] ∧
      values.map (·.1) <+: s.mcsat.backend.variableOrder.drop (s.mcsat.level - 1)
  | .cancelIncludingLiteral l => l ∈ s.trail
  | .revertAssignments theoryDecisions =>
    ∀ l ∈ theoryDecisions, Mixin.theoryConstraint (s.reabstractLiteral l) = none

variable [DecidableEq A]

instance (s : Solver σ A) (e : Event σ A) : Decidable (e.Possible s) :=
  match e with
  | .startCheck _ => inferInstanceAs (Decidable (_ ∧ _))
  | .newVariable _ => inferInstanceAs (Decidable True)
  | .newDecisionLevel => inferInstanceAs (Decidable True)
  | .cancelUntil _ _ => inferInstanceAs (Decidable True)
  | .enqueue _ _ => inferInstanceAs (Decidable (_ < _))
  | .theoryDecision _ => inferInstanceAs (Decidable (_ ∧ _ ∧ _))
  | .cancelIncludingLiteral _ => inferInstanceAs (Decidable (_ ∈ _))
  | .revertAssignments _ => inferInstanceAs (Decidable (∀ _ ∈ _, _))

end Event

variable [DecidableEq A]

/-- The solver after an event. -/
def Solver.after (evaluates : Mixin.Evaluates σ A) (numInsert : ℕ) (s : Solver σ A) :
    Event σ A → Solver σ A
  | .startCheck order => s.startCheck order
  | .newVariable abstraction => s.newVariable evaluates abstraction
  | .newDecisionLevel => s.newDecisionLevel
  | .enqueue l decision => (if decision then s.newDecisionLevel else s).uncheckedEnqueue l
  | .theoryDecision values => s.theoryDecision evaluates numInsert values
  | .cancelUntil level force => s.cancelUntil level force
  | .cancelIncludingLiteral l => s.cancelIncludingLiteral l
  | .revertAssignments theoryDecisions => s.revertAssignments theoryDecisions

/-- The steps of the search. -/
def Solver.step (evaluates : Mixin.Evaluates σ A) (numInsert : ℕ) (s : Solver σ A)
    (e : Event σ A) : Option (Solver σ A) :=
  if e.Possible s then some (s.after evaluates numInsert e) else none

end Smtrat.Mcsat
