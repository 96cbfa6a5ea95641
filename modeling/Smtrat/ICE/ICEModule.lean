import Smtrat.Datastructures.BoundConflict
import Smtrat.Datastructures.OrderedSet
import Smtrat.ICE.ForwardHyperGraph

/-!
# Inequalities as hyperedges

A constraint `src + r >= d_1 + ... + d_n` with terms that are not negative, as the bounds of the
variables show, is a hyperedge from `src` to the `d_i`.  The constants along a cycle say whether the
constraints on it contradict each other or hold with equality.
-/

namespace Smtrat.ICE

open SparsePoly PropFormula ForwardHyperGraph CycleEnumerator VB

universe u v w

/-- `TermT` -/
abbrev TermT (V : Type u) := Term V ℚ

structure Coefficient where
  r : ℚ
  strict : Bool
deriving DecidableEq

namespace Coefficient

def zero : Coefficient := ⟨0, false⟩

/-- `operator+=` -/
def add (c d : Coefficient) : Coefficient := ⟨c.r + d.r, c.strict || d.strict⟩

end Coefficient

structure EdgeProperty (F : Type w) where
  coeff : Coefficient
  constraint : F

/-- `FHG` -/
abbrev FHG (V : Type u) (F : Type w) := ForwardHyperGraph (TermT V) (EdgeProperty F)

/-- The term of a vertex; there is one for every vertex of an edge. -/
def term {V : Type u} {F : Type w} (graph : FHG V F) (v : ℕ) : TermT V :=
  graph.mVertexProperties.getD v ⟨0, []⟩

/-! ## The collector -/

/-- `CycleCollector` -/
structure CycleCollector (V : Type u) (B : Type v) (F : Type w) where
  mInfeasibleSubset : List F
  mLemmas : List (Formula (Atom V B) × Formula (Atom V B))

namespace CycleCollector

variable {V : Type u} {B : Type v} {F : Type w} (content : F → Formula (Atom V B))

def new : CycleCollector V B F := ⟨[], []⟩

def buildFormula (edges : List (Edge (EdgeProperty F))) : Formula (Atom V B) :=
  .app .and (edges.map fun edge => content edge.mProperty.constraint)

/-- The vertices after those of a cycle, the first one at the end. -/
def nextVertices (vertices : List ℕ) : List ℕ := vertices.tail ++ vertices.take 1

/-- The heads of the edges that are not on the cycle. -/
def collectAdjacent (cycle : Circuit (EdgeProperty F)) : List ℕ :=
  (cycle.edges.zip (nextVertices cycle.vertices)).flatMap fun p => p.1.mOut.filter (· ≠ p.2)

/-- The sum of the coefficients along the cycle. -/
def sum (cycle : Circuit (EdgeProperty F)) : Coefficient :=
  cycle.edges.foldl (fun sum edge => sum.add edge.mProperty.coeff) .zero

/-- A term that has to vanish. -/
def zeroLemma (t : TermT V) : Formula (Atom V B) := .atom (.constraint ⟨[t], .eq⟩)

/-- `a - b + r = 0` -/
def stepLemma (a b : TermT V) (r : ℚ) : Formula (Atom V B) :=
  .atom (.constraint ⟨a :: ⟨-b.coeff, b.monomial⟩ :: SparsePoly.Poly.const r, .eq⟩)

/-- What is deduced where all constraints on a cycle hold with equality. -/
def lemmas (graph : FHG V F) (cycle : Circuit (EdgeProperty F)) : List (Formula (Atom V B)) :=
  ((collectAdjacent cycle).map fun v => zeroLemma (term graph v)) ++
    ((cycle.vertices.zip cycle.vertices.tail).zip cycle.edges).map fun p =>
      stepLemma (term graph p.1.1) (term graph p.1.2) p.2.mProperty.coeff.r

/-- `operator()`: whether the search is aborted. -/
def call (graph : FHG V F) (c : CycleCollector V B F) (cycle : Circuit (EdgeProperty F)) :
    Bool × CycleCollector V B F :=
  let constraints := cycle.edges.map fun edge => edge.mProperty.constraint
  if (sum cycle).r = 0 then
    if (sum cycle).strict then (true, { c with mInfeasibleSubset := constraints })
    else
      let origin := buildFormula content cycle.edges
      (false, { c with mLemmas := c.mLemmas ++ (lemmas graph cycle).map (·, origin) })
  else if 0 < (sum cycle).r then (false, c)
  else (true, { c with mInfeasibleSubset := constraints })

end CycleCollector

/-! ## Bounds on terms -/

/-- `carl::Interval` -/
structure IntervalLibrary where
  point : ℚ → Interval
  mul : Interval → Interval → Interval
  pow : Interval → ℕ → Interval
  scale : Interval → ℚ → Interval
  isZero : Interval → Bool
  isSemiPositive : Interval → Bool
  isSemiNegative : Interval → Bool

/-- `VariableBounds::getInterval` of a term.  That the intervals of the variables are recorded on the
way does not change them. -/
def getIntervalTerm {V : Type u} {F : Type w} [DecidableEq V] (lib : IntervalLibrary)
    (bounds : VariableBounds V F) (t : TermT V) : Interval :=
  if t.monomial = [] then lib.point t.coeff
  else lib.scale (t.monomial.foldl (fun res vexp =>
    lib.mul res (lib.pow (bounds.getInterval vexp.1).1 vexp.2)) (lib.point 1)) t.coeff

/-- `ICEModule`.  The map is in the order of the formulas. -/
structure ICEModule (V : Type u) (F : Type w) where
  mBounds : VariableBounds V F
  mConstraints : List (F × Constraint V)

/-- What `isSuitable` finds in a constraint. -/
structure Hyperedge (V : Type u) where
  src : TermT V
  dest : List (TermT V)
  coeff : Coefficient

/-- What one run adds to the infeasible subsets and to the passed formula. -/
structure Outcome (V : Type u) (B : Type v) (F : Type w) where
  answer : Answer
  mInfeasibleSubsets : List (List F)
  passed : List (Formula (Atom V B) × Formula (Atom V B))

namespace ICEModule

variable {V : Type u} {B : Type v} {F : Type w} [DecidableEq V]

def initial : ICEModule V F := ⟨.initial, []⟩

section Suitable

variable (lib : IntervalLibrary) (bounds : VariableBounds V F)

def isZero (t : TermT V) : Bool := lib.isZero (getIntervalTerm lib bounds t)

def isSemiPositive (t : TermT V) : Bool := lib.isSemiPositive (getIntervalTerm lib bounds t)

def isSemiNegative (t : TermT V) : Bool := lib.isSemiNegative (getIntervalTerm lib bounds t)

/-- The loop of `isSuitable` over the terms. -/
def addTerms : List (TermT V) → Hyperedge V → Option (Hyperedge V)
  | [], e => some e
  | t :: rest, e =>
    if t.monomial = [] then
      addTerms rest { e with coeff := { e.coeff with r := e.coeff.r + t.coeff } }
    else if isZero lib bounds t then addTerms rest e
    else if isSemiPositive lib bounds t then
      -- there is a source already
      if e.src.coeff ≠ 0 then none else addTerms rest { e with src := t }
    else if isSemiNegative lib bounds t then
      addTerms rest { e with dest := e.dest ++ [⟨-t.coeff, t.monomial⟩] }
    else none

/-- The left-hand side, so that it is not to be negative, and whether it is not to be zero. -/
def direction (c : Constraint V) : Option (Poly V ℚ × Bool) :=
  match c.relation with
  | .eq => some (c.lhs, false)
  | .neq => none
  | .less => some (Poly.neg c.lhs, true)
  | .leq => some (Poly.neg c.lhs, false)
  | .greater => some (c.lhs, true)
  | .geq => some (c.lhs, false)

def isSuitable (c : Constraint V) : Option (Hyperedge V) :=
  (direction c).bind fun (p, strict) =>
    (addTerms lib bounds p ⟨⟨0, []⟩, [], ⟨0, strict⟩⟩).bind fun e =>
      if e.dest.isEmpty then none else some e

/-- The vertices of a hyperedge are made, and the edge itself. -/
def addEdge (f : F) (e : Hyperedge V) (graph : FHG V F) : FHG V F :=
  let (source, graph) := newVertex e.src graph
  let (heads, graph) := newVertices e.dest graph
  graph.newEdge source ⟨⟨e.coeff, f⟩, heads⟩

/-- The graph of some constraints. -/
def buildGraph (constraints : List (F × Constraint V)) : FHG V F :=
  constraints.foldl (fun graph p =>
    match isSuitable lib bounds p.2 with
    | some e => addEdge p.1 e graph
    | none => graph) .empty

end Suitable

variable [LinearOrder F] (content : F → Formula (Atom V B))

/-- `addFormula`; literals that are bounds only change the bounds. -/
def addFormula (s : ICEModule V F) (f : F) : Option (ICEModule V F) :=
  match literal (content f) with
  | some c => (s.mBounds.addBound c f).map fun p =>
    ⟨p.2, if (boundOf c).isSome then s.mConstraints else OrderedMap.emplace f c s.mConstraints⟩
  | none => some s

/-- `removeFormula` -/
def removeFormula (s : ICEModule V F) (f : F) : Option (ICEModule V F) :=
  match literal (content f) with
  | some c => (s.mBounds.removeBound c f).map fun p =>
    ⟨p.2, if (boundOf c).isSome then s.mConstraints else OrderedMap.erase f s.mConstraints⟩
  | none => some s

/-- `processConstraints` -/
def processConstraints (lib : IntervalLibrary) (fuel : ℕ) (s : ICEModule V F) :
    Option (Outcome V B F) :=
  if s.mBounds.isConflicting then some ⟨.unsat, [s.mBounds.getConflict], []⟩
  else
    let graph := buildGraph lib s.mBounds s.mConstraints
    (findAll graph (CycleCollector.call content graph) fuel .new).map fun enumerator =>
      let collector := enumerator.mCollector
      if !collector.mInfeasibleSubset.isEmpty then ⟨.unsat, [collector.mInfeasibleSubset], []⟩
      else ⟨.sat, [], collector.mLemmas⟩

end ICEModule

/-! ## Runs -/

/-- The module together with the received formulas. -/
structure State (V : Type u) (F : Type w) where
  received : List F
  module : ICEModule V F

inductive Action (F : Type w) where
  | addCore (f : F)
  | removeCore (f : F)

namespace State

variable {V : Type u} {B : Type v} {F : Type w} [DecidableEq V]

def initial : State V F := ⟨[], .initial⟩

variable [LinearOrder F] (content : F → Formula (Atom V B))

/-- Only formulas that are not received yet are added, and only received ones are removed. -/
def step (s : State V F) : Action F → Option (State V F)
  | .addCore f =>
    if f ∈ s.received then none
    else (s.module.addFormula content f).map fun module => ⟨f :: s.received, module⟩
  | .removeCore f =>
    if f ∈ s.received then
      (s.module.removeFormula content f).map fun module =>
        ⟨s.received.filter (· ≠ f), module⟩
    else none

end State

end Smtrat.ICE
