import Smtrat.Curry.Terms
import Smtrat.Logic.Visitor
import Smtrat.Modules.ModuleInput

/-!
# The curry module

The module curries the equalities of the received formulas to one binary function, names each
application by a fresh variable, and puts the conjunction of the defining equalities and the
equality of the names in the place of the equality.
-/

namespace Smtrat.Curry

open PropFormula ModuleInput Function

universe u

variable {Var F S : Type u}

/-- The stores of the module; fresh variables are numbered. -/
structure Stores (Var F : Type u) where
  formulaStore : UEquality Var F → Option CurryEquality
  termStore : UTerm Var F → Option CurryTerm
  constantsStore : F → Option CurryTerm
  flattenedStore : CurryEquality → Option (List CurryEquality)
  flattenedTerms : CurryTerm → Option ℕ
  flatSubstitution : ℕ → Option (List CurryEquality)
  nextVariable : ℕ

namespace Stores

def initial : Stores Var F :=
  ⟨fun _ => none, fun _ => none, fun _ => none, fun _ => none, fun _ => none, fun _ => none, 0⟩

variable [DecidableEq Var] [DecidableEq F]

/-! ## Currying -/

/-- The constant for a function. -/
def constant (f : F) (s : Stores Var F) : CurryTerm × Stores Var F :=
  match s.constantsStore f with
  | some sub => (sub, s)
  | none =>
    (.var s.nextVariable, { s with
      constantsStore := update s.constantsStore f (some (.var s.nextVariable))
      nextVariable := s.nextVariable + 1 })

mutual

def curryTerm : UTerm Var F → Stores Var F → CurryTerm × Stores Var F
  | .var v, s =>
    match s.termStore (.var v) with
    | some res => (res, s)
    | none =>
      (.var s.nextVariable, { s with
        termStore := update s.termStore (.var v) (some (.var s.nextVariable))
        nextVariable := s.nextVariable + 1 })
  | .inst f args, s =>
    match s.termStore (.inst f args) with
    | some res => (res, s)
    | none =>
      let (sub, s) := s.constant f
      let (res, s) := curryArgs sub args s
      (res, { s with termStore := update s.termStore (.inst f args) (some res) })

/-- The curry function is applied to the arguments one after the other. -/
def curryArgs : CurryTerm → List (UTerm Var F) → Stores Var F → CurryTerm × Stores Var F
  | sub, [], s => (sub, s)
  | sub, arg :: args, s =>
    let (res, s) := curryTerm arg s
    curryArgs (.app sub res) args s

end

def curry (formula : UEquality Var F) (s : Stores Var F) : CurryEquality × Stores Var F :=
  match s.formulaStore formula with
  | some res => (res, s)
  | none =>
    let (lhs, s) := curryTerm formula.lhs s
    let (rhs, s) := curryTerm formula.rhs s
    let eq : CurryEquality := ⟨lhs, rhs, formula.negated⟩
    (eq, { s with formulaStore := update s.formulaStore formula (some eq) })

/-! ## Flattening -/

/-- The variable of a term and the equalities that are appended to `flat`. -/
def flattenTerm : CurryTerm → Stores Var F → (ℕ × List CurryEquality) × Stores Var F
  | .var n, s => ((n, []), s)
  | .app l r, s =>
    match s.flattenedTerms (.app l r) with
    | some n => ((n, (s.flatSubstitution n).getD []), s)
    | none =>
      let ((lhs, defsl), s) := flattenTerm l s
      let ((rhs, defsr), s) := flattenTerm r s
      let newVar := s.nextVariable
      let substitution := defsl ++ defsr ++ [⟨.app (.var lhs) (.var rhs), .var newVar, false⟩]
      ((newVar, substitution), { s with
        flattenedTerms := update s.flattenedTerms (.app l r) (some newVar)
        flatSubstitution := update s.flatSubstitution newVar (some substitution)
        nextVariable := newVar + 1 })

def flatten (formula : CurryEquality) (s : Stores Var F) : List CurryEquality × Stores Var F :=
  match s.flattenedStore formula with
  | some res => (res, s)
  | none =>
    let ((lhs, defsl), s) := flattenTerm formula.lhs s
    let ((rhs, defsr), s) := flattenTerm formula.rhs s
    let substitution := defsl ++ defsr ++ [⟨.var lhs, .var rhs, formula.negated⟩]
    (substitution, { s with
      flattenedStore := update s.flattenedStore formula (some substitution) })

end Stores

/-! ## The module -/

/-- The equalities of received and of passed formulas. -/
abbrev Atom (Var F : Type u) := UEquality Var F ⊕ CurryEquality

structure CurryModule (Var F : Type u) where
  stores : Stores Var F
  mpPassedFormula : ModuleInput (Atom Var F)

namespace CurryModule

def initial : CurryModule Var F := ⟨.initial, .empty⟩

variable [DecidableEq Var] [DecidableEq F] (pool : FormulaPool CurryEquality)

/-- The two visits of `addCore`. -/
def transform (formula : Formula (UEquality Var F)) (s : Stores Var F) :
    Formula CurryEquality × Stores Var F :=
  let (curryfied, s) := formula.visitAtoms pool (fun e s =>
    let (eq, s) := s.curry e
    (.atom eq, s)) s
  curryfied.visitAtoms pool (fun e s =>
    let (eqs, s) := s.flatten e
    (pool.create .and (eqs.map .atom), s)) s

def addCore (m : CurryModule Var F) (formula : Formula (UEquality Var F)) : CurryModule Var F :=
  let (flattened, stores) := transform pool formula m.stores
  ⟨stores, (add (.single (formula.map .inl)) (flattened.map .inr) true m.mpPassedFormula).2⟩

/-- `Module::remove`; `removeCore` itself does nothing. -/
def remove (m : CurryModule Var F) (formula : Formula (UEquality Var F)) : CurryModule Var F :=
  { m with mpPassedFormula := m.mpPassedFormula.removeReceived (formula.map .inl) }

end CurryModule

/-! ## Runs -/

inductive Action (Var F : Type u) where
  | add (f : Formula (UEquality Var F))
  | remove (f : Formula (UEquality Var F))

/-- The module with its received formulas. -/
structure State (Var F : Type u) where
  module : CurryModule Var F
  received : List (Formula (UEquality Var F))

namespace State

def initial : State Var F := ⟨.initial, []⟩

variable [DecidableEq Var] [DecidableEq F] (pool : FormulaPool CurryEquality)

def step (s : State Var F) : Action Var F → Option (State Var F)
  | .add f => some ⟨s.module.addCore pool f, f :: s.received⟩
  | .remove f => some ⟨s.module.remove f, s.received.erase f⟩

/-- The received formulas are satisfiable in the theory of uninterpreted functions. -/
def ReceivedSatisfiable (sig : Signature Var F S) (s : State Var F) : Prop :=
  ∃ I : Interpretation sig, ∃ α : UEquality Var F → Bool, (∀ e, α e = true ↔ I.Holds e) ∧
    ∀ f ∈ s.received, f.eval α = true

/-- The passed formulas are satisfiable in the theory of uninterpreted functions. -/
def PassedSatisfiable (s : State Var F) : Prop :=
  ∃ M : CurryModel.{u}, ∃ β : CurryEquality → Bool, (∀ e, β e = true ↔ M.Holds e) ∧
    ∀ g ∈ s.module.mpPassedFormula.formulas, g.eval (Sum.elim (fun _ => false) β) = true

/-- What the callers of a module keep to: formulas are well-formed, and received at most once at a
time. -/
def Permitted (sig : Signature Var F S) (s : State Var F) : Action Var F → Prop
  | .add f => f ∉ s.received ∧ ∀ e, f.Mentions e → e.WellFormed sig
  | .remove f => f ∈ s.received

end State

end Smtrat.Curry
