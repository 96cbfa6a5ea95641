import Smtrat.Mcsat.Arithmetic.Covering
import Smtrat.Mcsat.Arithmetic.RootIndexer

/-!
# The arithmetic assignment finder

Given the literals on the trail and a partial model, the finder looks for a value of one more
variable.  Literals that are univariate in it contribute their roots; all roots together cut the line
into cells, every literal refutes some cells, and either a cell is left for a sample or a core of the
literals refutes all cells.
-/

namespace Smtrat.Mcsat

open RealAlgebraicNumber SparsePoly

variable {σ A : Type*} [DecidableEq σ]

/-! ## Categories -/

inductive ConstraintType where
  /-- The constraint contains no variables. -/
  | constant
  /-- The constraint is fully assigned. -/
  | assigned
  /-- The constraint has a single unassigned variable being the next one. -/
  | univariate
  /-- The constraint has an unassigned variable that is not the next one. -/
  | unassigned
deriving DecidableEq

def categorize (f : Formula σ A) (model : Model σ A) (next : σ) : ConstraintType :=
  if f.variables = [] then .constant
  else if f.variables.any fun y => y ≠ next ∧ (model y).isNone then .unassigned
  else if next ∈ f.variables then .univariate
  else .assigned

/-! ## The finder -/

/-- `AssignmentFinder_detail` -/
structure AssignmentFinder (σ A : Type*) where
  var : σ
  model : Model σ A
  ri : RootIndexer A
  /-- The literals with their real roots and the literal where the model was substituted. -/
  rootMap : List (Formula σ A × (List A × Formula σ A))
  mvBounds : List (Formula σ A)

/-- `AssignmentOrConflict` -/
inductive AssignmentOrConflict (σ A : Type*) where
  | values (values : List (σ × Number A))
  | conflict (conflict : List (Formula σ A))

namespace AssignmentFinder

def init (var : σ) (model : Model σ A) : AssignmentFinder σ A := ⟨var, model, ⟨[], [], []⟩, [], []⟩

variable [RealAlgebraicNumber A] (carl : Evaluation σ A) (af : AssignmentFinder σ A)

/-- An inconclusive evaluation counts as satisfied. -/
def satisfies (f : Formula σ A) (r : A) : Bool :=
  (carl.evaluate f (af.model.assign af.var (.ran r))).getD true

def compare_assignments (lhs rhs : ℕ) : Bool :=
  let l := af.ri.sampleFrom lhs
  let r := af.ri.sampleFrom rhs
  if isIntegral l != isIntegral r then isIntegral l
  else if isNumeric l != isNumeric r then isNumeric l
  else if size l ≠ size r then decide (size l < size r)
  else if abs l ≠ abs r then decide (abs l < abs r)
  else decide (l < r)

/-- Without samples there is no minimum. -/
def selectAssignment (cover : Covering (Formula σ A)) : Option A :=
  match cover.satisfyingSamples with
  | [] => none
  | first :: rest =>
    some (af.ri.sampleFrom
      (rest.foldl (fun min s => if af.compare_assignments s min then s else min) first))

section Add

variable [LinearOrder (Formula σ A)]

/-- Adds the roots of the literal `f`, which became `fnew`. -/
def addRoots (f fnew : Formula σ A) (list : List A) : AssignmentFinder σ A :=
  { af with
    ri := af.ri.add list
    rootMap := OrderedMap.emplace f (list, fnew) af.rootMap }

/-- The part of `addConstraint` behind the switch. -/
def addUnivariate (f : Formula σ A) : Bool × AssignmentFinder σ A :=
  match carl.substitute f af.model with
  | .constraint c =>
    match carl.tryRealRoots c.lhs af.var af.model with
    | some list => (true, af.addRoots f (.constraint c) list)
    | none => (true, { af with mvBounds := af.mvBounds ++ [f] })
  | .true => (true, af)
  | _ => (false, af)

/-- The literal is handled, or it is false under the model. -/
def addConstraint (f : Formula σ A) : Bool × AssignmentFinder σ A :=
  match categorize f af.model af.var with
  | .constant =>
    match f with
    | .false => (false, af)
    | _ => af.addUnivariate carl f
  | .assigned =>
    match carl.substitute f af.model with
    | .true => (true, af)
    | _ => (false, af)
  | .univariate => af.addUnivariate carl f
  | .unassigned => (true, af)

def addMVBound (f : Formula σ A) : Bool × AssignmentFinder σ A :=
  match categorize f af.model af.var with
  | .univariate =>
    match carl.substitute f af.model with
    | .true => (true, af)
    | .varcompare v =>
      let value := match v.value with
        | .substitution r => carl.evaluateSubstitution r af.model
        | value => value
      match value with
      | .number (.rational q) => (true, af.addRoots f (.varcompare v) [ofRational q])
      | .number (.ran a) => (true, af.addRoots f (.varcompare v) [a])
      | .substitution _ => (true, { af with mvBounds := af.mvBounds ++ [.varcompare v] })
    | _ => (false, af)
  | _ => (true, af)

end Add

/-! ## The cover -/

/-- The loop over the roots of one literal; `last` is the first cell behind the previous root. -/
def refutedCells (satisfies : A → Bool) (ri : RootIndexer A) :
    List A → ℕ → Finset ℕ → Finset ℕ
  | [], last, b =>
    if satisfies (ri.sampleFrom last) then b else b ∪ Finset.Icc last (ri.size * 2)
  | r :: roots, last, b =>
    let cur := ri.index r
    let b := if satisfies (ri.sampleFrom (2 * cur)) then b else b ∪ Finset.Icc last (2 * cur)
    -- the second argument of `set` is the value of the bit, which is true for any nonzero number
    let b := if satisfies r then b else insert (2 * cur + 1) b
    refutedCells satisfies ri roots (2 * cur + 2) b

/-- The cells a literal refutes one by one. -/
def refutedSamples (c : Formula σ A) : Finset ℕ :=
  (Finset.range (af.ri.size * 2 + 1)).filter fun i =>
    carl.evaluate c (af.model.assign af.var (.ran (af.ri.sampleFrom i))) = some false

section Cover

variable [LinearOrder (Formula σ A)]

/-- `cover.add`, unless no bit is set. -/
def addAny (cover : Covering (Formula σ A)) (d : Formula σ A × Finset ℕ) : Covering (Formula σ A) :=
  if d.2 = ∅ then cover else cover.add d.1 d.2

def processed : AssignmentFinder σ A := { af with ri := af.ri.process }

/-- `computeCover`, after the roots were processed. -/
def computeCover : Covering (Formula σ A) :=
  let cover := (af.rootMap.map fun c =>
      (c.1, refutedCells (af.satisfies carl c.2.2) af.ri c.2.1 0 ∅)).foldl addAny
    (Covering.ofIntervals (af.ri.size * 2 + 1))
  (af.mvBounds.map fun c => (c, af.refutedSamples carl c)).foldl addAny cover

def findAssignment : Option (AssignmentOrConflict σ A) :=
  let af := af.processed
  let cover := af.computeCover carl
  if cover.conflicts then cover.buildConflictingCore.map .conflict
  else (af.selectAssignment cover).map fun assignment =>
    .values [(af.var, if isNumeric assignment then .rational (value assignment) else .ran assignment)]

end Cover

/-- Adds literals until one of them is false under the model. -/
def addAll (add : AssignmentFinder σ A → Formula σ A → Bool × AssignmentFinder σ A) :
    List (Formula σ A) → AssignmentFinder σ A → Except (Formula σ A) (AssignmentFinder σ A)
  | [], af => .ok af
  | c :: cs, af =>
    match add af c with
    | (true, af) => addAll add cs af
    | (false, _) => .error c

end AssignmentFinder

/-- `AssignmentFinder::operator()` -/
def findAssignment [RealAlgebraicNumber A] [LinearOrder (Formula σ A)] (carl : Evaluation σ A)
    (data : Bookkeeping σ A) (var : σ) : Option (AssignmentOrConflict σ A) :=
  match AssignmentFinder.addAll (fun af f => af.addConstraint carl f) data.constraints
      (AssignmentFinder.init var data.model) with
  | .error c => some (.conflict [c])
  | .ok af =>
    match AssignmentFinder.addAll (fun af f => af.addMVBound carl f) data.mvBounds af with
    | .error b => some (.conflict [b])
    | .ok af => af.findAssignment carl

end Smtrat.Mcsat
