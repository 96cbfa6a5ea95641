import Smtrat.Common.Atom
import Smtrat.Logic.Visitor

/-!
# Multiple-choice blasting

A disjunction of equations of a variable with constants gives the variable a number of choices.
The equations are replaced by new Boolean variables, at most one of which may be true for each
variable.  If the variable has disappeared, a model substitution chooses its value; otherwise the
Boolean variables are equivalent to the equations.
-/

namespace Smtrat

open SparsePoly PropFormula

universe u v

/-! ## Model substitutions -/

/-- The value of a variable, by the Boolean variable of the choice. -/
structure MCBModelSubstitution (B : Type v) where
  mAssignments : List (B × ℚ)
  mDefault : ℚ
deriving DecidableEq

namespace MCBModelSubstitution

variable {B : Type v}

/-- The default value for one more choice. -/
def raiseDefault (d : ℚ) (a : B × ℚ) : ℚ := if d ≤ a.2 then ⌈a.2⌉ + 1 else d

def create (assignments : List (B × ℚ)) : MCBModelSubstitution B where
  mAssignments := assignments
  mDefault := assignments.foldl raiseDefault 0

/-- The value for the first Boolean variable that is true. -/
def evaluateSubstitution (s : MCBModelSubstitution B) (model : B → Bool) : ℚ :=
  match s.mAssignments.find? fun a => model a.1 with
  | some a => a.2
  | none => s.mDefault

end MCBModelSubstitution

variable {V : Type u} {B : Type v}

/-! ## Collecting choices -/

/-- The bounds of polynomials, each with the formula that stands for it. -/
abbrev ConstraintBounds (V : Type u) (B : Type v) :=
  List (Poly V ℚ × List (ℚ × Relation × Formula (Atom V B)))

/-- A bound with an equality stands for the equation of the polynomial with the value. -/
def ConstraintBounds.Correct (cb : ConstraintBounds V B) : Prop :=
  ∀ p ∈ cb, ∀ e ∈ p.2, e.2.1 = .eq →
    ∀ a : Assignment V B, a.Satisfies e.2.2 ↔ Poly.eval a.arith p.1 = algebraMap ℚ ℝ e.1

/-- Constraints and negated constraints. -/
def isConstraintLiteral : Formula (Atom V B) → Bool
  | .atom (.constraint _) => true
  | .app .not [.atom (.constraint _)] => true
  | _ => false

/-- What is used of the formula library. -/
structure FormulaLibrary (V : Type u) (B : Type v) where
  /-- The formulas a `FormulaVisitor` visits. -/
  visit : Formula (Atom V B) → List (Formula (Atom V B))
  addConstraintBound : ConstraintBounds V B → Formula (Atom V B) → Bool → ConstraintBounds V B
  addConstraintBound_correct : ∀ cb f, isConstraintLiteral f → ConstraintBounds.Correct cb →
    ConstraintBounds.Correct (addConstraintBound cb f false)
  substitutor : FormulaSubstitutor (Atom V B)
  pool : FormulaPool (Atom V B)
  /-- The Boolean variable that is made after some others. -/
  freshBooleanVariable : Nat → B
  fresh_injective : Function.Injective freshBooleanVariable

/-- An entry of `mChoices`, for a variable and a value. -/
structure Choice (V : Type u) (B : Type v) where
  var : V
  value : ℚ
  choice : B
  formula : Formula (Atom V B)
deriving DecidableEq

/-- The module between checks.  The map of maps `mChoices` is the list of its entries in the order
they were made, which is the order of their Boolean variables. -/
structure MCBModule (V : Type u) (B : Type v) where
  mChoices : List (Choice V B)
  mAssignments : List (V × MCBModelSubstitution B)
  /-- How many Boolean variables have been made. -/
  created : Nat
deriving DecidableEq

namespace MCBModule

variable (lib : FormulaLibrary V B)

def collectBounds (cb : ConstraintBounds V B) (f : Formula (Atom V B)) (conjunction : Bool) :
    ConstraintBounds V B :=
  f.subformulas.foldl
    (fun cb g => if isConstraintLiteral g then lib.addConstraintBound cb g conjunction else cb) cb

/-- The variable that a polynomial consists of. -/
def getSingleVariable : Poly V ℚ → Option V
  | [⟨c, [(x, 1)]⟩] => if c = 1 then some x else none
  | _ => none

/-- The equations up to the first bound that is none. -/
def choicesOf (bounds : List (ℚ × Relation × Formula (Atom V B))) : List (ℚ × Formula (Atom V B)) :=
  (bounds.takeWhile fun e => e.2.1 = .eq).map fun e => (e.1, e.2.2)

variable [DecidableEq V]

/-- A value that is no choice of the variable yet gets a new Boolean variable. -/
def addChoice (x : V) (m : MCBModule V B) (c : ℚ × Formula (Atom V B)) : MCBModule V B :=
  if m.mChoices.any fun d => d.var = x ∧ d.value = c.1 then m
  else { m with
    mChoices := m.mChoices ++ [⟨x, c.1, lib.freshBooleanVariable m.created, c.2⟩]
    created := m.created + 1 }

variable (m : MCBModule V B)

/-- The bounds of one polynomial of a disjunction. -/
def addChoices (poly : Poly V ℚ × List (ℚ × Relation × Formula (Atom V B))) : MCBModule V B :=
  match getSingleVariable poly.1 with
  | none => m
  | some x =>
    let choices := choicesOf poly.2
    if choices.length ≠ poly.2.length then m else choices.foldl (addChoice lib x) m

def collectChoices (f : Formula (Atom V B)) : MCBModule V B :=
  match f with
  | .app .or _ => (collectBounds lib [] f false).foldl (addChoices lib) m
  | _ => m

/-! ## Replacing the equations -/

/-- `std::map::emplace`, which keeps the value of a key that is present. -/
def emplace {K W : Type*} [DecidableEq K] (m : List (K × W)) (k : K) (w : W) : List (K × W) :=
  if m.any fun e => e.1 = k then m else m ++ [(k, w)]

/-- The choices of a variable. -/
def choicesAt (x : V) : List (Choice V B) :=
  m.mChoices.filter fun c => c.var = x

/-- The variables that have choices. -/
def vars : List V := (m.mChoices.map (·.var)).dedup

/-- The Boolean variables are equivalent to the equations. -/
def equivalences (x : V) : List (Formula (Atom V B)) :=
  (m.choicesAt x).map fun c => lib.pool.create .iff [.atom (.bool c.choice), c.formula]

/-- No two of the Boolean variables of a variable are true. -/
def exclusions [LinearOrder B] (m : MCBModule V B) (x : V) : List (Formula (Atom V B)) :=
  (m.choicesAt x).flatMap fun c₁ =>
    ((m.choicesAt x).filter fun c₂ => ¬ c₂.choice ≤ c₁.choice).map fun c₂ =>
      lib.pool.create .or [lib.pool.create .not [.atom (.bool c₁.choice)],
        lib.pool.create .not [.atom (.bool c₂.choice)]]

/-- The substitution for a variable that has been eliminated. -/
def substitution (x : V) : MCBModelSubstitution B :=
  .create ((m.choicesAt x).map fun c => (c.choice, c.value))

def applyReplacements [LinearOrder B] (m : MCBModule V B) (f : Formula (Atom V B)) :
    Formula (Atom V B) × MCBModule V B :=
  if m.mChoices.isEmpty then (f, m)
  else
    let repl := m.mChoices.foldl
      (fun repl c => emplace repl c.formula (Formula.atom (.bool c.choice))) []
    let res := lib.substitutor.substitute f repl
    let mRemaining := gatherVariables res
    let equiv := m.vars.flatMap fun x =>
      (if x ∈ mRemaining then equivalences lib m x else []) ++ exclusions lib m x
    let mAssignments := (m.vars.filter fun x => x ∉ mRemaining).foldl
      (fun as x => emplace as x (m.substitution x)) m.mAssignments
    (if equiv.isEmpty then res else lib.pool.create .and (equiv ++ [res]),
      { m with mAssignments := mAssignments })

/-- The formula that is passed in a check, with some formulas received since the last one. -/
def checkCore [LinearOrder B] (m : MCBModule V B)
    (unchecked received : List (Formula (Atom V B))) : Formula (Atom V B) × MCBModule V B :=
  let m := unchecked.foldl (fun m f => (lib.visit f).foldl (collectChoices lib) m)
    { m with mChoices := [] }
  applyReplacements lib m (lib.pool.create .and received)

end MCBModule

end Smtrat
