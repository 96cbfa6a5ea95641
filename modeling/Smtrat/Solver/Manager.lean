import Smtrat.Common.Atom
import Smtrat.Modules.ModuleInput

/-!
# The solver interface

The manager keeps the asserted formulas, the backtrack points and the objectives, and hands the
formulas to its primary backend.  A backtrack point refers to the last formula and the last
objective to be kept; nothing is copied when one is pushed.
-/

namespace Smtrat

open SparsePoly PropFormula

universe u v w

/-- The variables of the input, and those that were made afterwards. -/
inductive SolverVariable (U : Type u) where
  | user (x : U)
  | fresh (n : Nat) (int : Bool)
deriving DecidableEq

instance SolverVariable.lawfulBEq {U : Type u} {B : Type v} [DecidableEq U] [DecidableEq B] :
    LawfulBEq (Formula (Atom (SolverVariable U) B)) := inferInstance

/-- How a formula pool stores a constraint: some constraints are constant, the others are kept in
a normal form. -/
structure ConstraintPool (V : Type u) (B : Type v) where
  create : Constraint V → Bool ⊕ Constraint V
  create_inl : ∀ c b, create c = .inl b → ∀ α : V → ℝ, c.Sat α ↔ b = true
  create_inr : ∀ c c', create c = .inr c' → ∀ α : V → ℝ, c.Sat α ↔ c'.Sat α
  variables_inr : ∀ c c', create c = .inr c' → ∀ x ∈ Poly.variables c'.lhs, x ∈ Poly.variables c.lhs

/-- The pool that keeps constraints as written. -/
def ConstraintPool.verbatim (V : Type u) (B : Type v) : ConstraintPool V B where
  create := .inr
  create_inl := nofun
  create_inr := fun _ _ h _ => by rw [Sum.inr.inj h]
  variables_inr := fun _ _ h _ => by rw [Sum.inr.inj h]; exact id

def ConstraintPool.formula {V : Type u} {B : Type v} (pool : ConstraintPool V B)
    (c : Constraint V) : Formula (Atom V B) :=
  match pool.create c with
  | .inl b => .const b
  | .inr c => .atom (.constraint c)

variable {U : Type u} {B : Type v} {β : Type w}

/-- What the primary backend is to the manager, with `β` for everything it keeps. -/
structure Backend (U : Type u) (B : Type v) (β : Type w) where
  inform : Formula (Atom (SolverVariable U) B) → β → β
  add : Formula (Atom (SolverVariable U) B) → β → Bool × β
  remove : Formula (Atom (SolverVariable U) B) → β → β
  /-- The check of the received formulas for an objective; the flags are `_full` and
  `_minimize`. -/
  checkCore : List (Formula (Atom (SolverVariable U) B)) → Option (SolverVariable U) → Bool → Bool →
    β → Answer × β
  getBackendsModel : β → Model (SolverVariable U)

/-- The primary backend: its base class keeps the objective variable and the model. -/
structure PrimaryBackend (U : Type u) (β : Type w) where
  state : β
  mObjective : Option (SolverVariable U)
  mModel : Model (SolverVariable U)
  mModelComputed : Bool

/-- An element of `mObjectives`. -/
structure Objective (U : Type u) where
  function : Poly (SolverVariable U) ℚ
  objVar : SolverVariable U
  minimize : Bool
deriving DecidableEq

structure Manager (U : Type u) (B : Type v) (β : Type w) where
  mpPassedFormula : ModuleInput (Atom (SolverVariable U) B)
  /-- The last formula to be kept, if there is one, and the index of the last objective; the
  point pushed last comes first. -/
  mBacktrackPoints : List (Option Nat × Int)
  mObjectives : List (Objective U)
  mReusableRealObjectiveVars : List (SolverVariable U)
  mReusableIntObjectiveVars : List (SolverVariable U)
  /-- The number of variables made so far. -/
  freshVariables : Nat
  mNumberOfPops : Nat
  mpPrimaryBackend : PrimaryBackend U β

namespace Manager

/-- A manager that was just constructed, around a backend. -/
def initial (s : β) : Manager U B β where
  mpPassedFormula := .empty
  mBacktrackPoints := []
  mObjectives := []
  mReusableRealObjectiveVars := []
  mReusableIntObjectiveVars := []
  freshVariables := 0
  mNumberOfPops := 0
  mpPrimaryBackend := ⟨s, none, fun _ => none, false⟩

/-- The formulas the primary backend has received. -/
def received (m : Manager U B β) : List (Formula (Atom (SolverVariable U) B)) :=
  m.mpPassedFormula.formulas

/-- Changes what the primary backend keeps. -/
def withBackend (m : Manager U B β) (s : β) : Manager U B β :=
  { m with mpPrimaryBackend := { m.mpPrimaryBackend with state := s } }

def push (m : Manager U B β) : Manager U B β :=
  { m with
    mBacktrackPoints := (m.mpPassedFormula.elements.getLast?.map (·.position),
      (m.mObjectives.length : Int) - 1) :: m.mBacktrackPoints }

section Objectives

/-- Variables whose values are integers. -/
def isInt (int : U → Bool) : SolverVariable U → Bool
  | .user x => int x
  | .fresh _ b => b

/-- `Poly::integerValued`. -/
def integerValued (int : U → Bool) (p : Poly (SolverVariable U) ℚ) : Bool :=
  p.all fun t => t.coeff.den = 1 && t.monomial.all fun q => isInt int q.1

/-- A new objective gets a variable of its own, one that is no longer used if possible. -/
def addObjective (int : U → Bool) (m : Manager U B β) (objective : Poly (SolverVariable U) ℚ)
    (minimize : Bool) : Manager U B β :=
  if integerValued int objective then
    match m.mReusableIntObjectiveVars with
    | [] =>
      { m with
        mObjectives := m.mObjectives ++ [⟨objective, .fresh m.freshVariables true, minimize⟩]
        freshVariables := m.freshVariables + 1 }
    | x :: xs =>
      { m with
        mObjectives := m.mObjectives ++ [⟨objective, x, minimize⟩]
        mReusableIntObjectiveVars := xs }
  else
    match m.mReusableRealObjectiveVars with
    | [] =>
      { m with
        mObjectives := m.mObjectives ++ [⟨objective, .fresh m.freshVariables false, minimize⟩]
        freshVariables := m.freshVariables + 1 }
    | x :: xs =>
      { m with
        mObjectives := m.mObjectives ++ [⟨objective, x, minimize⟩]
        mReusableRealObjectiveVars := xs }

variable [DecidableEq U]

/-- The last objective with this function is removed. -/
def removeObjective (m : Manager U B β) (objective : Poly (SolverVariable U) ℚ) : Manager U B β :=
  { m with
    mObjectives := (m.mObjectives.reverse.eraseP fun o => o.function = objective).reverse }

/-- Puts the variable of an objective that is removed by `pop` back. -/
def reuse (int : U → Bool) (m : Manager U B β) (x : SolverVariable U) : Manager U B β :=
  if isInt int x then
    { m with mReusableIntObjectiveVars := x :: m.mReusableIntObjectiveVars }
  else
    { m with mReusableRealObjectiveVars := x :: m.mReusableRealObjectiveVars }

/-- The second loop of `Manager::pop`; `n` bounds the number of objectives. -/
def popObjectives (int : U → Bool) (mark : Int) : Nat → Int → Manager U B β → Manager U B β
  | 0, _, m => m
  | n + 1, pos, m =>
    match m.mObjectives.getLast? with
    | none => m
    | some o =>
      if pos - 1 = mark then m
      else
        popObjectives int mark n (pos - 1)
          { reuse int m o.objVar with mObjectives := m.mObjectives.dropLast }

end Objectives

section Formulas

variable [DecidableEq U] [DecidableEq B] (bk : Backend U B β)

/-- The formulas `Manager::add` informs about. -/
def informs : Atom (SolverVariable U) B → Bool
  | .bool _ => false
  | .constraint _ => true
  | .theory _ => true

/-- The backend gets formulas as long as it does not find a conflict. -/
def addToBackend (bk : Backend U B β) :
    List (Formula (Atom (SolverVariable U) B)) → Bool → β → Bool × β
  | [], r, s => (r, s)
  | f :: fs, true, s =>
    let (r, s) := bk.add f s
    addToBackend bk fs r s
  | _ :: fs, false, s => addToBackend bk fs false s

def add (m : Manager U B β) (f : Formula (Atom (SolverVariable U) B))
    (containsUnknownConstraints : Bool) : Bool × Manager U B β :=
  let m := if containsUnknownConstraints then
      m.withBackend <| (f.atoms.filter informs).foldl
        (fun s p => bk.inform (.atom p) s) m.mpPrimaryBackend.state
    else m
  let (res, passed) := ModuleInput.add (.shared none) f true m.mpPassedFormula
  let m := { m with mpPassedFormula := passed }
  match res with
  | (some it, true) =>
    let new := passed.elements.dropWhile (·.position ≠ it)
    let (r, s) := addToBackend bk (new.map (·.mFormula)) true m.mpPrimaryBackend.state
    (r, m.withBackend s)
  | _ => (true, m)

def remove (m : Manager U B β) (it : Nat) : Manager U B β :=
  match m.mpPassedFormula.element it with
  | none => m
  | some e =>
    { m.withBackend (bk.remove e.mFormula m.mpPrimaryBackend.state) with
      mpPassedFormula := m.mpPassedFormula.erase it }

/-- The first loop of `Manager::pop`; `n` bounds the number of formulas. -/
def popFormulas (point : Option Nat) : Nat → Manager U B β → Manager U B β
  | 0, m => m
  | n + 1, m =>
    match m.mpPassedFormula.elements.getLast? with
    | none => m
    | some e =>
      if some e.position = point then m else popFormulas point n (m.remove bk e.position)

def pop (int : U → Bool) (m : Manager U B β) : Bool × Manager U B β :=
  match m.mBacktrackPoints with
  | [] => (false, m)
  | (point, mark) :: points =>
    let m := popFormulas bk point m.mpPassedFormula.elements.length m
    let m := popObjectives int mark m.mObjectives.length m.mObjectives.length m
    (true, { m with
      mBacktrackPoints := points
      mNumberOfPops := m.mNumberOfPops + 1 })

/-- `Manager::pop` for several levels. -/
def popLevels (int : U → Bool) : Nat → Manager U B β → Manager U B β
  | 0, m => m
  | n + 1, m =>
    match m.pop bk int with
    | (true, m) => popLevels int n m
    | (false, m) => m

end Formulas

section Check

variable [DecidableEq U] [DecidableEq B] (bk : Backend U B β) (m : Manager U B β)

def setObjective (x : SolverVariable U) : Manager U B β :=
  { m with mpPrimaryBackend := { m.mpPrimaryBackend with mObjective := some x } }

/-- `Module::check` of the primary backend.  The model is outdated after every answer but
`UNSAT`. -/
def backendCheck (full minimize : Bool) : Answer × Manager U B β :=
  let b := m.mpPrimaryBackend
  let (answer, s) :=
    if m.received.isEmpty then (.sat, b.state)
    else bk.checkCore m.received b.mObjective full minimize b.state
  let computed := b.mModelComputed && answer ≠ .sat && answer ≠ .unknown
  (answer, { m with mpPrimaryBackend := { b with state := s, mModelComputed := computed } })

/-- `Module::excludeNotReceivedVariablesFromModel`. -/
def excludeNotReceived (received : List (Formula (Atom (SolverVariable U) B)))
    (model : Model (SolverVariable U)) : Model (SolverVariable U) :=
  fun x => if x ∈ received.flatMap gatherVariables then model x else none

/-- `Module::updateModel` of the primary backend. -/
def updateModel : Manager U B β :=
  let b := m.mpPrimaryBackend
  if b.mModelComputed then m
  else
    { m with
      mpPrimaryBackend := { b with
        mModel := excludeNotReceived m.received (bk.getBackendsModel b.state)
        mModelComputed := true } }

def model : Model (SolverVariable U) :=
  (m.updateModel bk).mpPrimaryBackend.mModel

/-- The objective as a function to minimize. -/
def Objective.minimized (o : Objective U) : Poly (SolverVariable U) ℚ :=
  if o.minimize then o.function else Poly.neg o.function

/-- The equation between an objective and its variable. -/
def objectiveEquation (pool : ConstraintPool (SolverVariable U) B) (o : Objective U) :
    Formula (Atom (SolverVariable U) B) :=
  pool.formula ⟨Poly.sub (Objective.minimized o) (Poly.var o.objVar), .eq⟩

/-- The bound on an objective for the value found. -/
def minimumUpperBound (pool : ConstraintPool (SolverVariable U) B) (o : Objective U) (r : ℚ) :
    Formula (Atom (SolverVariable U) B) :=
  pool.formula ⟨Poly.sub (Objective.minimized o) (SparsePoly.Poly.const r), .less⟩

/-- The check for one objective, in a new level that contains its equation. -/
def checkObjective (pool : ConstraintPool (SolverVariable U) B) (full : Bool) (o : Objective U)
    (m : Manager U B β) : Answer × Manager U B β :=
  let m := (m.push.add bk (objectiveEquation pool o) true).2
  (m.setObjective o.objVar).backendCheck bk full true

/-- The loop of `Manager::check` from an objective on.  There is no result where an assertion
fails. -/
def checkObjectives (pool : ConstraintPool (SolverVariable U) B) (int : U → Bool) (full : Bool) :
    List (Objective U) → Manager U B β → Option (Answer × Manager U B β)
  | [], _ => none
  | o :: rest, m =>
    let (result, m) := checkObjective bk pool full o m
    if result ≠ .sat then some (result, m.popLevels bk int 2)
    else
      match rest with
      | [] => some (result, (m.updateModel bk).popLevels bk int 2)
      | next :: _ =>
        let m := m.updateModel bk
        match m.mpPrimaryBackend.mModel next.objVar with
        | some (.rational r) =>
          let m := (m.pop bk int).2
          checkObjectives pool int full rest (m.add bk (minimumUpperBound pool next r) true).2
        | _ => none

def check (pool : ConstraintPool (SolverVariable U) B) (int : U → Bool) (m : Manager U B β)
    (full : Bool) : Option (Answer × Manager U B β) :=
  match m.mObjectives with
  | [] => some (m.backendCheck bk full false)
  | os => checkObjectives bk pool int full os m.push

/-- The value of an objective, from the value of its variable. -/
def signedValue (o : Objective U) (r : ℚ) : ModelValue := .rational (if o.minimize then r else -r)

/-- `Manager::optimum`; there is no result where an assertion fails. -/
def optimum (objFct : Poly (SolverVariable U) ℚ) : Option ModelValue :=
  match m.mObjectives with
  | [o] =>
    if o.function = objFct then
      match m.model bk o.objVar with
      | some (.infinity false) => some (.infinity (!o.minimize))
      | some (.rational r) => some (signedValue o r)
      | _ => none
    else none
  | os =>
    match os.find? fun o => o.function = objFct with
    | none => none
    | some o =>
      match m.model bk o.objVar with
      | some (.rational r) => some (signedValue o r)
      | _ => none

end Check

end Manager

end Smtrat
