import Smtrat.FPP.Models
import Smtrat.Solver.Backtracking

/-!
# The module for repeated preprocessing

Preprocessing is applied until it does not change the formula any more, and the backends get what
is left.  The preprocessing is a solver of its own: each formula is asserted above a backtrack
point, but an objective is added without one.
-/

namespace Smtrat.FPP

open PropFormula SparsePoly

universe u v w x y

variable {U : Type u} {B : Type v} {β : Type w} {γ : Type x} {M : Type y}
  {adm : Set (Assignment (SolverVariable U) B)}

/-- The primary backend of the preprocessing. -/
structure Preprocessor (U : Type u) (B : Type v) (β : Type w)
    {adm : Set (Assignment (SolverVariable U) B)} (lib : ModelLibrary M adm) where
  backend : Backend U B β
  getReceivedFormulaSimplified : β → Bool × Formula (Atom (SolverVariable U) B)
  /-- The symbolic model. -/
  model : β → M
  checkCore_sat : ∀ fs x full s s', backend.checkCore fs x full false s = (.sat, s') →
    Satisfiable adm fs
  checkCore_unsat : ∀ fs x full s s', backend.checkCore fs x full false s = (.unsat, s') →
    ¬ Satisfiable adm fs
  checkCore_simplified : ∀ fs x full s s', backend.checkCore fs x full false s = (.unknown, s') →
    (getReceivedFormulaSimplified s').1 = true →
      (Satisfiable adm fs → Satisfiable adm [(getReceivedFormulaSimplified s').2]) ∧
        Extends lib fs (getReceivedFormulaSimplified s').2 (model s')
  checkCore_unchanged : ∀ fs x full s s', backend.checkCore fs x full false s = (.unknown, s') →
    (getReceivedFormulaSimplified s').1 = false → Extends lib fs (.app .and fs) (model s')

/-- The backends of the module; the flags are `_final`, `_full` and `_minimize`. -/
structure Backends (B : Type v) (γ : Type x) {adm : Set (Assignment (SolverVariable U) B)}
    (lib : ModelLibrary M adm) where
  run : List (Formula (Atom (SolverVariable U) B)) → Bool → Bool → Bool → γ → Answer × γ
  getBackendsModel : γ → M
  run_sat : ∀ fs final full minimize s s', run fs final full minimize s = (.sat, s') →
    IsModel lib (getBackendsModel s') fs ∧
      ∀ v ∈ lib.assigned (getBackendsModel s') ∪ lib.mentions (getBackendsModel s'),
        v ∈ fs.flatMap variablesOf
  run_unsat : ∀ fs final full minimize s s', run fs final full minimize s = (.unsat, s') →
    ¬ Satisfiable adm fs

/-- What the module is built with. -/
structure Configuration (U : Type u) (B : Type v) (β : Type w) (γ : Type x)
    {adm : Set (Assignment (SolverVariable U) B)} (lib : ModelLibrary M adm) where
  max_iterations : ℤ
  pool : FormulaPool (Atom (SolverVariable U) B)
  constraints : ConstraintPool (SolverVariable U) B
  int : U → Bool
  preprocessor : Preprocessor U B β lib
  backends : Backends B γ lib
  admissible : adm.Nonempty

structure FPPModule (U : Type u) (B : Type v) (β : Type w) (γ : Type x) (M : Type y) where
  mFormulaAfterPreprocessing : Formula (Atom (SolverVariable U) B)
  mPartialModel : M
  mPreprocessor : Manager U B β
  mpPassedFormula : ModuleInput (Atom (SolverVariable U) B)
  mSolverState : Answer
  mInfeasibleSubsets : List (List (Formula (Atom (SolverVariable U) B)))
  backends : γ

/-- What the loop of `checkCore` changes. -/
structure Loop (U : Type u) (B : Type v) (β : Type w) (M : Type y) where
  answer : Answer
  formulaBeforePreprocessing : Formula (Atom (SolverVariable U) B)
  mFormulaAfterPreprocessing : Formula (Atom (SolverVariable U) B)
  mPartialModel : M
  mPreprocessor : Manager U B β

variable {lib : ModelLibrary M adm} [DecidableEq U] [DecidableEq B]
  (cfg : Configuration U B β γ lib)

/-! ## Preprocessing -/

namespace Loop

/-- The preprocessing is called on the current formula, above a backtrack point. -/
def callPreprocessor (full : Bool) (l : Loop U B β M) : Option (Answer × Manager U B β) :=
  (l.mPreprocessor.push.add cfg.preprocessor.backend l.formulaBeforePreprocessing true).2.check
    cfg.preprocessor.backend cfg.constraints cfg.int full

/-- The part of an iteration after the call, and whether it is the last one. -/
def useResult (answer : Answer) (manager : Manager U B β) (l : Loop U B β M) :
    Bool × Loop U B β M :=
  let pre := cfg.preprocessor
  if answer ≠ .unknown then
    (true, { l with
      answer := answer
      mPreprocessor := (manager.pop pre.backend cfg.int).2 })
  else
    let res := pre.getReceivedFormulaSimplified manager.mpPrimaryBackend.state
    let manager := manager.updateModel pre.backend
    let l := { l with
      answer := answer
      mPartialModel := lib.update l.mPartialModel (pre.model manager.mpPrimaryBackend.state)
      mPreprocessor := (manager.pop pre.backend cfg.int).2 }
    if res.1 ∧ l.formulaBeforePreprocessing ≠ res.2 then
      (false, { l with
        formulaBeforePreprocessing := res.2
        mFormulaAfterPreprocessing := res.2 })
    else (true, { l with mFormulaAfterPreprocessing := l.formulaBeforePreprocessing })

/-- There is a further iteration. -/
def Continues (iterations : ℕ) : Prop :=
  cfg.max_iterations < 0 ∨ (iterations : ℤ) < cfg.max_iterations

instance (iterations : ℕ) : Decidable (Continues cfg iterations) :=
  inferInstanceAs (Decidable (_ ∨ _))

/-- The loop of `checkCore`.  The number of iterations may be unlimited; the first argument limits
it here. -/
def preprocess (full : Bool) : ℕ → ℕ → Loop U B β M → Option (Loop U B β M)
  | 0, _, _ => none
  | n + 1, iterations, l =>
    if Continues cfg iterations then
      match l.callPreprocessor cfg full with
      | none => none
      | some (answer, manager) =>
        match l.useResult cfg answer manager with
        | (true, l) => some l
        | (false, l) => preprocess full n (iterations + 1) l
    else some l

end Loop

/-! ## The module -/

/-- `Module::clearPassedFormula` -/
def clearPassedFormula (m : ModuleInput (Atom (SolverVariable U) B)) :
    ModuleInput (Atom (SolverVariable U) B) :=
  (m.elements.map (·.position)).foldl ModuleInput.erase m

namespace FPPModule

/-- The module at the beginning; formulas and parts of the model have some default. -/
def initial (f : Formula (Atom (SolverVariable U) B)) (m : M) (s : β) (b : γ) :
    FPPModule U B β γ M :=
  ⟨f, m, .initial s, .empty, .unknown, [], b⟩

def informCore (constraint : Atom (SolverVariable U) B) (m : FPPModule U B β γ M) :
    FPPModule U B β γ M :=
  { m with
    mPreprocessor := m.mPreprocessor.withBackend <|
      cfg.preprocessor.backend.inform (.atom constraint) m.mPreprocessor.mpPrimaryBackend.state }

/-- `Module::remove`; neither `addCore` nor `removeCore` does anything. -/
def remove (f : Formula (Atom (SolverVariable U) B)) (m : FPPModule U B β γ M) :
    FPPModule U B β γ M :=
  let subsets := m.mInfeasibleSubsets.filter (f ∉ ·)
  { m with
    mpPassedFormula := m.mpPassedFormula.removeReceived f
    mInfeasibleSubsets := subsets
    mSolverState := if subsets.isEmpty then .unknown else m.mSolverState }

/-- The backends get the formula that is left. -/
def runBackends (final full minimize : Bool) (m : FPPModule U B β γ M) :
    Answer × FPPModule U B β γ M :=
  let passed := (ModuleInput.add (.shared none) m.mFormulaAfterPreprocessing true
    (clearPassedFormula m.mpPassedFormula)).2
  let (answer, b) := cfg.backends.run passed.formulas final full minimize m.backends
  (answer, { m with mpPassedFormula := passed, backends := b })

/-- An objective is added to the preprocessing if the check is a minimizing one. -/
def addObjective (objective : Option (SolverVariable U)) (m : Manager U B β) : Manager U B β :=
  match objective with
  | some x => m.addObjective cfg.int (Poly.var x) true
  | none => m

/-- The state of the loop at the beginning of a check. -/
def enter (received : List (Formula (Atom (SolverVariable U) B)))
    (objective : Option (SolverVariable U)) (m : FPPModule U B β γ M) : Loop U B β M where
  answer := .unknown
  formulaBeforePreprocessing := cfg.pool.create .and received
  mFormulaAfterPreprocessing := m.mFormulaAfterPreprocessing
  mPartialModel := lib.empty
  mPreprocessor := addObjective cfg objective m.mPreprocessor

/-- What is done after the loop. -/
def leave (received : List (Formula (Atom (SolverVariable U) B))) (final full minimize : Bool)
    (l : Loop U B β M) (m : FPPModule U B β γ M) : Answer × FPPModule U B β γ M :=
  let m := { m with
    mFormulaAfterPreprocessing := l.mFormulaAfterPreprocessing
    mPartialModel := l.mPartialModel
    mPreprocessor := l.mPreprocessor }
  let (answer, m) :=
    if l.answer = .unknown then m.runBackends cfg final full minimize else (l.answer, m)
  if answer = .unsat then
    (answer, { m with mInfeasibleSubsets := m.mInfeasibleSubsets ++ [received] })
  else (answer, m)

/-- The check of the received formulas, a minimizing one if there is an objective. -/
def checkCore (fuel : ℕ) (received : List (Formula (Atom (SolverVariable U) B)))
    (final full : Bool) (objective : Option (SolverVariable U)) (m : FPPModule U B β γ M) :
    Option (Answer × FPPModule U B β γ M) :=
  ((m.enter cfg received objective).preprocess cfg full fuel 0).map fun l =>
    m.leave cfg received final full objective.isSome l

/-- `Module::check` -/
def check (fuel : ℕ) (received : List (Formula (Atom (SolverVariable U) B)))
    (final full : Bool) (objective : Option (SolverVariable U)) (m : FPPModule U B β γ M) :
    Option (Answer × FPPModule U B β γ M) :=
  if received.isEmpty then some (.sat, { m with mSolverState := .sat })
  else
    (m.checkCore cfg fuel received final full objective).map fun (answer, m) =>
      (answer, { m with mSolverState := answer })

/-- `FPPModule::updateModel` -/
def updateModel (received : List (Formula (Atom (SolverVariable U) B)))
    (m : FPPModule U B β γ M) : M :=
  if m.mSolverState = .unsat then lib.empty
  else lib.exclude (received.flatMap variablesOf)
    (lib.update (cfg.backends.getBackendsModel m.backends) m.mPartialModel)

end FPPModule

end Smtrat.FPP
