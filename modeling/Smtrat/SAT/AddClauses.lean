import Smtrat.SAT.Encoding

/-!
# The clauses of received formulas

The clauses that a formula has become are kept with it, together with a literal that stands for it
and a counter of its uses.  The literal is a Tseitin variable, which is the same whenever the formula
is created.  A disjunction that is received needs no such literal; should it occur in another formula
later, its literal becomes an assumption.

`createLiteral` numbers the variables as it meets them; any numbering will do here.  The positions of
the clauses in the clause database and the origins of the clauses are left out.
-/

namespace Smtrat.SAT

open PropFormula Function

universe u

variable {A : Type u}

/-- What a variable of the solver stands for. -/
inductive Content (A : Type u) where
  | original (a : A)
  | tseitin (f : Formula A)

/-! ## Formulas -/

def isLiteral : Formula A → Bool
  | .atom _ => true
  | .app .not [.atom _] => true
  | _ => false

def removeNegations : Formula A → Formula A
  | .app .not [f] => removeNegations f
  | f => f

/-- Formulas that become clauses. -/
def isCompound : Formula A → Bool
  | .app .not _ => false
  | .app _ _ => true
  | _ => false

def isNegation : Formula A → Bool
  | .app .not _ => true
  | _ => false

mutual

/-- The formulas that a formula pool returns: without constants and double negations. -/
def wellFormed : Formula A → Bool
  | .const _ => false
  | .atom _ => true
  | .app c fs => hasArity c fs.length && wellFormedAll fs && !(c = .not && fs.any isNegation)

def wellFormedAll : List (Formula A) → Bool
  | [] => true
  | f :: fs => wellFormed f && wellFormedAll fs

end

mutual

/-- All subformulas, the formula itself included. -/
def parts : Formula A → List (Formula A)
  | .const b => [.const b]
  | .atom a => [.atom a]
  | .app c fs => .app c fs :: partsAll fs

def partsAll : List (Formula A) → List (Formula A)
  | [] => []
  | f :: fs => parts f ++ partsAll fs

end

/-! ## The state -/

/-- The clauses of a formula and the literal that stands for it. -/
structure CNFInfos where
  mLiteral : Lit
  mCounter : Nat
  mClauses : List Clause
deriving DecidableEq

structure CnfState (A : Type u) where
  mFormulaCNFInfosMap : Formula A → Option CNFInfos
  assumptions : List Lit
  mFormulaAssumptionMap : Formula A → Option Lit
  mNonassumedTseitinVariable : Var → Bool
  mAssumedTseitinVariable : Var → Bool

namespace CnfState

def init : CnfState A where
  mFormulaCNFInfosMap := fun _ => none
  assumptions := []
  mFormulaAssumptionMap := fun _ => none
  mNonassumedTseitinVariable := fun _ => false
  mAssumedTseitinVariable := fun _ => false

end CnfState

/-- The literal of a formula, where `var` numbers the variables. -/
def createLiteral (var : Content A ↪ Var) : Formula A → Lit
  | .atom a => mkLit (var (.original a)) false
  | .app .not [f] => (createLiteral var f).neg
  | f => mkLit (var (.tseitin f)) false

namespace CNFInfos

/-- One use more, or one less; without a use there are no clauses. -/
def count (increment : Bool) (i : CNFInfos) : CNFInfos :=
  if increment then { i with mCounter := i.mCounter + 1 }
  else if i.mCounter - 1 = 0 then { i with mCounter := 0, mClauses := [] }
  else { i with mCounter := i.mCounter - 1 }

end CNFInfos

namespace CnfState

variable [DecidableEq A] (var : Content A ↪ Var) (isNary : Connective → Bool) (s : CnfState A)

def info (f : Formula A) : Option CNFInfos := s.mFormulaCNFInfosMap f

def setInfo (f : Formula A) (i : Option CNFInfos) : CnfState A :=
  { s with mFormulaCNFInfosMap := update s.mFormulaCNFInfosMap f i }

/-- A clause is stored. -/
def Stored (c : Clause) : Prop := ∃ f i, s.info f = some i ∧ c ∈ i.mClauses

/-- `FormulaT::isNary`; a negation is not n-ary. -/
def isNaryFormula : Formula A → Bool
  | .app .not _ => false
  | .app c _ => isNary c
  | _ => false

mutual

/-- Counts the uses of a formula, and those of its subformulas as long as all are n-ary.  An entry
without clauses is erased. -/
def updateCNFInfoCounter (increment : Bool) : Formula A → CnfState A → CnfState A
  | .app c fs, s =>
    match s.info (.app c fs) with
    | none => s
    | some i =>
      let s := s.setInfo (.app c fs) (some (i.count increment))
      let s := if isNary c then updateAll increment fs s else s
      if !increment && (i.count increment).mClauses.isEmpty then s.setInfo (.app c fs) none
      else s
  | _, s => s

def updateAll (increment : Bool) : List (Formula A) → CnfState A → CnfState A
  | [], s => s
  | f :: fs, s =>
    updateAll increment fs
      (if isNaryFormula isNary f then updateCNFInfoCounter increment f s else s)

end

/-- The literal of a formula becomes an assumption. -/
def assume (f : Formula A) (l : Lit) : CnfState A :=
  { s with
    assumptions := s.assumptions ++ [l]
    mFormulaAssumptionMap := update s.mFormulaAssumptionMap f (some l)
    mNonassumedTseitinVariable := update s.mNonassumedTseitinVariable l.var false
    mAssumedTseitinVariable := update s.mAssumedTseitinVariable l.var true }

/-- The literal of a formula that has clauses already. -/
def reuse (top : Bool) (f : Formula A) (i : CNFInfos) : Option (Lit × CnfState A) :=
  let l := i.mLiteral
  let s := s.updateCNFInfoCounter isNary true f
  if s.mAssumedTseitinVariable l.var then some (l, s)
  else if top && 1 < i.mCounter + 1 || s.mNonassumedTseitinVariable l.var then
    if (s.mFormulaAssumptionMap f).isSome then none else some (l, s.assume f l)
  else some (l, s)

/-- The clauses of a formula with the literals of its arguments. -/
def create (top : Bool) (c : Connective) (fs : List (Formula A)) (ls : List Lit) :
    Option (Lit × CnfState A) :=
  let tsLit := createLiteral var (.app c fs)
  if top then
    match c with
    | .and => none
    | .or =>
      if s.mAssumedTseitinVariable tsLit.var then none
      else some (tsLit, { s.setInfo (.app c fs) (some ⟨tsLit, 1, topClauses c ls⟩) with
        mNonassumedTseitinVariable :=
          update s.mNonassumedTseitinVariable tsLit.var true })
    | c => some (tsLit, s.setInfo (.app c fs) (some ⟨tsLit, 1, topClauses c ls⟩))
  else some (tsLit, s.setInfo (.app c fs) (some ⟨tsLit, 1, tseitinClauses tsLit c ls⟩))

mutual

/-- The literal of a formula, which is not used on the top.  The entry of the formula is made after
those of its arguments, which do not look it up. -/
def addClauses (top : Bool) : Formula A → CnfState A → Option (Lit × CnfState A)
  | .const _, _ => none
  | .atom a, s => some (createLiteral var (.atom a), s)
  | .app .not fs, s =>
    (addClausesAll fs s).bind fun (ls, s) =>
      match ls with
      | [l] =>
        if top then some (l.neg, { s with assumptions := s.assumptions ++ [l.neg] })
        else some (l.neg, s)
      | _ => none
  | .app c fs, s =>
    match s.info (.app c fs) with
    | some i => s.reuse isNary top (.app c fs) i
    | none => (addClausesAll fs s).bind fun (ls, s) => s.create var top c fs ls

def addClausesAll : List (Formula A) → CnfState A → Option (List Lit × CnfState A)
  | [], s => some ([], s)
  | f :: fs, s =>
    (addClauses false f s).bind fun (l, s) =>
      (addClausesAll fs s).map fun (ls, s) => (l :: ls, s)

end

def addCore : Formula A → Option (CnfState A)
  | .const _ => some s
  | f =>
    if isLiteral f then
      if (s.mFormulaAssumptionMap f).isSome then none
      else some { s with
        assumptions := s.assumptions ++ [createLiteral var f]
        mFormulaAssumptionMap :=
          update s.mFormulaAssumptionMap f (some (createLiteral var f)) }
    else (addClauses var isNary true f s).map (·.2)

def removeCore : Formula A → Option (CnfState A)
  | .const _ => some s
  | f =>
    if isLiteral f then
      (s.mFormulaAssumptionMap f).map fun l => { s with
        assumptions := s.assumptions.erase l
        mFormulaAssumptionMap := update s.mFormulaAssumptionMap f none }
    else
      (s.info (removeNegations f)).map fun _ =>
        s.updateCNFInfoCounter isNary false (removeNegations f)

end CnfState

/-! ## Calls -/

/-- A solver and the formulas that it has received. -/
structure Receiver (A : Type u) where
  received : List (Formula A)
  cnf : CnfState A

namespace Receiver

inductive Action (A : Type u) where
  | add (f : Formula A)
  | remove (f : Formula A)

def init : Receiver A := ⟨[], .init⟩

variable [DecidableEq A] (var : Content A ↪ Var) (isNary : Connective → Bool)

/-- The module input passes on formulas that it did not contain, and removes those that it
contains; conjunctions are split there. -/
def step (s : Receiver A) : Action A → Option (Receiver A)
  | .add f =>
    if f ∉ s.received ∧ (f.isAtom || wellFormed f && !f.isConjunction) = true then
      (s.cnf.addCore var isNary f).map fun cnf => ⟨s.received ++ [f], cnf⟩
    else none
  | .remove f =>
    if f ∈ s.received then
      (s.cnf.removeCore isNary f).map fun cnf => ⟨s.received.erase f, cnf⟩
    else none

end Receiver

end Smtrat.SAT
