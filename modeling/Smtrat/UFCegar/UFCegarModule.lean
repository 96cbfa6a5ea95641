import Smtrat.Common.Atom
import Smtrat.Curry.Terms
import Smtrat.Logic.Visitor
import Smtrat.Modules.ModuleInput

/-!
# The module for uninterpreted functions

The module replaces the sides of equalities by fresh variables and adds constraints which say that
functions are functional: for all pairs of applications before the backends are asked, or as long
as the model they find is not one of the received formulas.
-/

namespace Smtrat.UFCegar

open PropFormula ModuleInput
open Curry (UTerm UEquality Signature Interpretation)

universe u v

variable {Var F S : Type u} {β : Type v}

/-- An application of a function. -/
structure UFInstance (Var F : Type u) where
  uninterpretedFunction : F
  args : List (UTerm Var F)

deriving instance DecidableEq for UFInstance

def UFInstance.term (i : UFInstance Var F) : UTerm Var F := .inst i.uninterpretedFunction i.args

/-- An equality of fresh variables, which are numbered. -/
structure FlatEquality where
  lhs : ℕ
  rhs : ℕ
  negated : Bool
deriving DecidableEq, Repr

/-- Two applications of one function. -/
abbrev InstancePair (Var F : Type u) := UFInstance Var F × UFInstance Var F

instance InstancePair.lawfulBEq [DecidableEq Var] [DecidableEq F] :
    LawfulBEq (InstancePair Var F) := inferInstance

/-- The stores of the module; the applications of all functions are in one list. -/
structure Stores (Var F : Type u) where
  formulaStore : UEquality Var F → Option FlatEquality
  termStore : UTerm Var F → Option ℕ
  instances : List (UFInstance Var F)
  refined : List (InstancePair Var F)
  pending : List (UFInstance Var F)
  nextVariable : ℕ

/-- The orders in which hash maps and sets are enumerated. -/
structure Library (Var F : Type u) where
  functions : List F → List F
  functions_perm : ∀ l, (functions l).Perm l
  sorted : List (UFInstance Var F) → List (UFInstance Var F)
  sorted_perm : ∀ l, (sorted l).Perm l

namespace Stores

def initial : Stores Var F := ⟨fun _ => none, fun _ => none, [], [], [], 0⟩

variable [DecidableEq Var] [DecidableEq F]

/-- `emplace` on a set. -/
def emplace (i : UFInstance Var F) (l : List (UFInstance Var F)) : List (UFInstance Var F) :=
  if i ∈ l then l else l ++ [i]

/-! ## Flattening -/

/-- The applications when a term gets a name. -/
def emplaceTerm (l : List (UFInstance Var F)) : UTerm Var F → List (UFInstance Var F)
  | .var _ => l
  | .inst f args => emplace ⟨f, args⟩ l

/-- Fresh variables are names of themselves, so they are no keys here. -/
def flattenTerm (term : UTerm Var F) (s : Stores Var F) : ℕ × Stores Var F :=
  match s.termStore term with
  | some res => (res, s)
  | none =>
    (s.nextVariable, { s with
      instances := emplaceTerm s.instances term
      termStore := Function.update s.termStore term (some s.nextVariable)
      nextVariable := s.nextVariable + 1 })

def flatten (formula : UEquality Var F) (s : Stores Var F) : FlatEquality × Stores Var F :=
  match s.formulaStore formula with
  | some res => (res, s)
  | none =>
    let (lhs, s) := flattenTerm formula.lhs s
    let (rhs, s) := flattenTerm formula.rhs s
    let eq : FlatEquality := ⟨lhs, rhs, formula.negated⟩
    (eq, { s with formulaStore := Function.update s.formulaStore formula (some eq) })

/-! ## Functional constraints -/

/-- `record_instance` of `refine`. -/
def recordInstance : UTerm Var F → Stores Var F → Stores Var F
  | .var _, s => s
  | .inst f args, s =>
    if ⟨f, args⟩ ∈ s.instances then s else { s with pending := emplace ⟨f, args⟩ s.pending }

/-- The equalities of the arguments. -/
def flattenArgs (record : UTerm Var F → Stores Var F → Stores Var F) :
    List (UTerm Var F × UTerm Var F) → Stores Var F → List (Formula FlatEquality) × Stores Var F
  | [], s => ([], s)
  | (x, y) :: args, s =>
    let s := record y (record x s)
    let (lhs, s) := flattenTerm x s
    let (rhs, s) := flattenTerm y s
    let (eqs, s) := flattenArgs record args s
    (.atom ⟨lhs, rhs, false⟩ :: eqs, s)

def createFunctionalConstraint (pool : FormulaPool FlatEquality) (eqs : List (Formula FlatEquality))
    (lhs rhs : UTerm Var F) (s : Stores Var F) : Formula FlatEquality × Stores Var F :=
  let (l, s) := flattenTerm lhs s
  let (r, s) := flattenTerm rhs s
  (pool.create .implies [pool.create .and eqs, .atom ⟨l, r, false⟩], s)

/-- The applications of a function, in the order of the set. -/
def instancesOf (lib : Library Var F) (s : Stores Var F) (f : F) : List (UFInstance Var F) :=
  lib.sorted (s.instances.filter fun i => i.uninterpretedFunction = f)

/-- The pairs that `ackermanize` and `refine` enumerate: `i` runs to the last but one application
and `j` from the second one. -/
def pairs (lib : Library Var F) (s : Stores Var F) : List (InstancePair Var F) :=
  (lib.functions (s.instances.map (·.uninterpretedFunction)).dedup).flatMap fun f =>
    (instancesOf lib s f).dropLast.flatMap fun i => (instancesOf lib s f).tail.map fun j => (i, j)

def isVariable : UTerm Var F → Bool
  | .var _ => true
  | .inst _ _ => false

omit [DecidableEq Var] [DecidableEq F] in
/-- No argument of an application is an application. -/
def flattenedFunctionCalls (s : Stores Var F) : Bool :=
  s.instances.all fun i => i.args.all isVariable

end Stores

/-! ## The module -/

/-- The equalities of received and of passed formulas. -/
abbrev Atom (Var F : Type u) := UEquality Var F ⊕ FlatEquality

structure UFCegarModule (Var F : Type u) where
  stores : Stores Var F
  mpPassedFormula : ModuleInput (Atom Var F)

/-! ### Satisfiability -/

/-- Values of the fresh variables. -/
structure FlatModel where
  Carrier : Type u
  value : ℕ → Carrier

def FlatModel.Holds (M : FlatModel.{u}) (e : FlatEquality) : Prop :=
  if e.negated then M.value e.lhs ≠ M.value e.rhs else M.value e.lhs = M.value e.rhs

/-- The formulas are satisfiable in the theory of uninterpreted functions. -/
def Satisfiable (sig : Signature Var F S) (fs : List (Formula (UEquality Var F))) : Prop :=
  ∃ I : Interpretation sig, ∃ α : UEquality Var F → Bool, (∀ e, α e = true ↔ I.Holds e) ∧
    ∀ f ∈ fs, f.eval α = true

/-- Passed formulas are satisfiable in the theory of equality. -/
def PassedSatisfiable (fs : List (Formula (Atom Var F))) : Prop :=
  ∃ M : FlatModel.{u}, ∃ α : FlatEquality → Bool, (∀ e, α e = true ↔ M.Holds e) ∧
    ∀ g ∈ fs, g.eval (Sum.elim (fun _ => false) α) = true

/-- What the evaluation of formulas under a model says. -/
inductive Verdict where
  | violated
  | satisfied
  | undetermined
deriving DecidableEq, Repr

/-- The backends and the evaluation of the received formulas under the model they found. -/
structure Backends (sig : Signature Var F S) (β : Type v) where
  check : List (Formula (Atom Var F)) → β → Answer × β
  check_sat : ∀ fs b, (check fs b).1 = .sat → PassedSatisfiable fs
  check_unsat : ∀ fs b, (check fs b).1 = .unsat → ¬ PassedSatisfiable fs
  satisfiedBy : List (Formula (UEquality Var F)) → β → Verdict
  satisfied_sound : ∀ fs b, satisfiedBy fs b = .satisfied → Satisfiable sig fs

namespace UFCegarModule

open Stores

def initial : UFCegarModule Var F := ⟨.initial, .empty⟩

variable [DecidableEq Var] [DecidableEq F] (pool : FormulaPool FlatEquality)

def addCore (m : UFCegarModule Var F) (formula : Formula (UEquality Var F)) :
    UFCegarModule Var F :=
  let (flattened, stores) := formula.visitAtoms pool (fun e s =>
    let (eq, s) := s.flatten e
    (.atom eq, s)) m.stores
  ⟨stores, (add (.single (formula.map .inl)) (flattened.map .inr) true m.mpPassedFormula).2⟩

/-- `Module::remove`; `removeCore` itself does nothing. -/
def remove (m : UFCegarModule Var F) (formula : Formula (UEquality Var F)) : UFCegarModule Var F :=
  { m with mpPassedFormula := m.mpPassedFormula.removeReceived (formula.map .inl) }

/-- The functional constraint of a pair is passed, without an origin. -/
def constrain (record : UTerm Var F → Stores Var F → Stores Var F) (m : UFCegarModule Var F)
    (p : InstancePair Var F) : UFCegarModule Var F :=
  let (eqs, stores) := flattenArgs record (p.1.args.zip p.2.args) m.stores
  let (formula, stores) := createFunctionalConstraint pool eqs p.1.term p.2.term stores
  ⟨{ stores with refined := p :: stores.refined },
    (add (.shared none) (formula.map .inr) true m.mpPassedFormula).2⟩

/-- The loops of `ackermanize`, which are left at the first pair that has been treated before. -/
def ackermanizePairs : List (InstancePair Var F) → Bool → UFCegarModule Var F →
    Bool × UFCegarModule Var F
  | [], constrained, m => (constrained, m)
  | p :: ps, _, m =>
    if p ∈ m.stores.refined then (false, m)
    else ackermanizePairs ps true (m.constrain pool (fun _ s => s) p)

def ackermanize (lib : Library Var F) (m : UFCegarModule Var F) : Bool × UFCegarModule Var F :=
  ackermanizePairs pool (m.stores.pairs lib) false m

def refinePair (m : UFCegarModule Var F) (p : InstancePair Var F) : Bool × UFCegarModule Var F :=
  if p ∈ m.stores.refined then (false, m) else (true, m.constrain pool recordInstance p)

/-- The loops of `refine`. -/
def refinePairs : List (InstancePair Var F) → Bool → UFCegarModule Var F →
    Bool × UFCegarModule Var F
  | [], addedConstraint, m => (addedConstraint, m)
  | p :: ps, addedConstraint, m =>
    let (added, m) := m.refinePair pool p
    refinePairs ps (addedConstraint || added) m

def refine (lib : Library Var F) (m : UFCegarModule Var F) : Bool × UFCegarModule Var F :=
  let (addedConstraint, m) := refinePairs pool (m.stores.pairs lib) false m
  (addedConstraint, { m with stores := { m.stores with
    instances := m.stores.pending.foldl (fun l i => emplace i l) m.stores.instances
    pending := [] } })

variable {sig : Signature Var F S} (lib : Library Var F) (bk : Backends sig β)

/-- The loop of the refinement, after a call of the backends; `n` bounds the number of turns. -/
def cegarLoop (received : List (Formula (UEquality Var F))) :
    ℕ → Answer → UFCegarModule Var F → β → Option (Answer × UFCegarModule Var F × β)
  | 0, _, _, _ => none
  | n + 1, result, m, b =>
    if result ≠ .sat then some (result, m, b)
    -- every verdict but 0 converts to true
    else if bk.satisfiedBy received b ≠ .violated then some (result, m, b)
    else
      let (refinable, m) := m.refine pool lib
      if refinable then
        let (result, b) := bk.check m.mpPassedFormula.formulas b
        cegarLoop received n result m b
      else some (result, m, b)

/-- There is no result where the assertion fails. -/
def checkCore (cegar : Bool) (received : List (Formula (UEquality Var F)))
    (m : UFCegarModule Var F) (b : β) : Option (Answer × UFCegarModule Var F × β) :=
  if m.stores.flattenedFunctionCalls then
    if cegar then
      let (result, b) := bk.check m.mpPassedFormula.formulas b
      cegarLoop pool lib bk received
        (((m.stores.pairs lib).filter fun p => p ∉ m.stores.refined).length + 1) result m b
    else
      let (_, m) := m.ackermanize pool lib
      let (result, b) := bk.check m.mpPassedFormula.formulas b
      some (result, m, b)
  else none

end UFCegarModule

/-! ## Runs -/

inductive Action (Var F : Type u) where
  | add (f : Formula (UEquality Var F))
  | remove (f : Formula (UEquality Var F))
  | check

/-- The module with its received formulas and what the backends keep. -/
structure State (Var F : Type u) (β : Type v) where
  module : UFCegarModule Var F
  received : List (Formula (UEquality Var F))
  backends : β

/-- Variables, and functions that are applied to variables. -/
def Simple : UTerm Var F → Prop
  | .var _ => True
  | .inst _ args => ∀ t ∈ args, ∃ v, t = .var v

namespace State

def initial (b : β) : State Var F β := ⟨.initial, [], b⟩

variable [DecidableEq Var] [DecidableEq F] (pool : FormulaPool FlatEquality)
  {sig : Signature Var F S} (lib : Library Var F) (bk : Backends sig β) (cegar : Bool)

/-- `Module::check`. -/
def check (s : State Var F β) : Option (Answer × State Var F β) :=
  if s.received = [] then some (.sat, s)
  else (s.module.checkCore pool lib bk cegar s.received s.backends).map fun (answer, m, b) =>
    (answer, ⟨m, s.received, b⟩)

def step (s : State Var F β) : Action Var F → Option (State Var F β)
  | .add f => some { s with module := s.module.addCore pool f, received := f :: s.received }
  | .remove f => some { s with module := s.module.remove f, received := s.received.erase f }
  | .check => (s.check pool lib bk cegar).map (·.2)

variable (sig) in
/-- Formulas over well-formed equalities of variables and applications to variables are received
at most once at a time. -/
def Permitted (s : State Var F β) : Action Var F → Prop
  | .add f => f ∉ s.received ∧ ∀ e, f.Mentions e → e.WellFormed sig ∧ Simple e.lhs ∧ Simple e.rhs
  | .remove f => f ∈ s.received
  | .check => True

end State

end Smtrat.UFCegar
