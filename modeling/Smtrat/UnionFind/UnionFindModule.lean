import Smtrat.Common.Atom
import Smtrat.UnionFind.EQGraph
import Smtrat.UnionFind.UnionFind

/-!
# The union-find module

The module receives equalities and disequalities between uninterpreted variables.  The equalities
are merged in a backtrackable union-find structure and are the edges of a graph, from which the
explanations of conflicts and lemmas are read.
-/

namespace Smtrat.UnionFind

open ParentForest

universe u v

structure UEquality (Var : Type u) where
  lhs : Var
  rhs : Var
  negated : Bool
deriving DecidableEq, Repr

variable {Var : Type u}

namespace UEquality

/-- The meaning under an assignment of the variables. -/
def Holds {D : Type v} (val : Var → D) (ueq : UEquality Var) : Prop :=
  if ueq.negated then val ueq.lhs ≠ val ueq.rhs else val ueq.lhs = val ueq.rhs

/-- The equality with its sides exchanged. -/
def mirror (ueq : UEquality Var) : UEquality Var := ⟨ueq.rhs, ueq.lhs, ueq.negated⟩

end UEquality

/-- The pairs of variables that formulas make equal. -/
def equalities (fs : List (UEquality Var)) : List (Var × Var) :=
  (fs.filter fun f => !f.negated).map fun f => (f.lhs, f.rhs)

/-- What the code takes from its libraries: the order in which it sees the elements of a hash set,
and the sides of the formula for the equality of two variables. -/
structure Library (Var : Type u) where
  iterate : {α : Type u} → List α → List α
  iterate_perm : ∀ {α : Type u} (l : List α), (iterate l).Perm l
  sides : Var → Var → Var × Var
  sides_eq : ∀ u v, sides u v = (u, v) ∨ sides u v = (v, u)

/-- `FormulaT(u, v, negated)` -/
def Library.formula (lib : Library Var) (u v : Var) (negated : Bool) : UEquality Var :=
  ⟨(lib.sides u v).1, (lib.sides u v).2, negated⟩

structure Settings where
  useTheoryPropagation : Bool
  lemmaLengthBound : ℕ

def settings1 : Settings := ⟨false, 5⟩

/-- The result of a check, with the infeasible subsets and the lemmas that it adds. -/
structure Result (Var : Type u) where
  answer : Answer
  infeasibleSubsets : List (List (UEquality Var))
  lemmas : List (List (UEquality Var))
deriving DecidableEq, Repr

structure UnionFindModule (Var : Type u) where
  /-- The received formulas, the latest one first. -/
  history : List (UEquality Var)
  graph : EQGraph Var
  classes : Backtrackable
  /-- The variables in the order of their values. -/
  translate : List Var
  needToUpdate : Bool
  variableSet : List Var
  informed : List (UEquality Var)
deriving DecidableEq, Repr

namespace UnionFindModule

def initial : UnionFindModule Var := ⟨[], ⟨[], []⟩, .initial, [], false, [], []⟩

variable [DecidableEq Var]

/-- `translate.at` -/
def value (m : UnionFindModule Var) (var : Var) : Option ℕ :=
  if var ∈ m.translate then some (m.translate.idxOf var) else none

/-- `classes.init` for the variables, each of which gets the next value if it has none. -/
def initClasses (lib : Library Var) (m : UnionFindModule Var) : UnionFindModule Var :=
  let translate := (lib.iterate m.variableSet).foldl
    (fun translate var => if var ∈ translate then translate else translate ++ [var]) m.translate
  { m with translate := translate, classes := m.classes.initSize translate.length }

/-- `classes.find` -/
def find (m : UnionFindModule Var) (var : Var) : Option (UnionFindModule Var × ℕ) :=
  (m.value var).bind fun i =>
    (m.classes.find i).map fun p => ({ m with classes := p.1 }, p.2)

/-- `classes.merge` -/
def merge (m : UnionFindModule Var) (a b : Var) : Option (UnionFindModule Var) :=
  (m.value a).bind fun i => (m.value b).bind fun j =>
    (m.classes.merge i j).map fun classes => { m with classes := classes }

/-- `classes.backtrack` -/
def backtrack (m : UnionFindModule Var) (a b : Var) : Option (UnionFindModule Var) :=
  (m.value a).bind fun i => (m.value b).bind fun j =>
    (m.classes.backtrack i j).map fun classes => { m with classes := classes }

/-! ## Informing, adding and removing -/

def process (m : UnionFindModule Var) (var : Var) : UnionFindModule Var :=
  if var ∈ m.variableSet then m
  else
    { m with
      variableSet := m.variableSet ++ [var], needToUpdate := true, graph := m.graph.addVertex var }

def informCore (settings : Settings) (m : UnionFindModule Var) (ueq : UEquality Var) :
    UnionFindModule Var × Bool :=
  let m := (m.process ueq.lhs).process ueq.rhs
  let m :=
    if settings.useTheoryPropagation then
      { m with informed := m.informed.insert ⟨ueq.lhs, ueq.rhs, false⟩ }
    else m
  (m, !(ueq.negated && ueq.lhs = ueq.rhs))

def addCore (lib : Library Var) (settings : Settings) (m : UnionFindModule Var)
    (ueq : UEquality Var) : Option (UnionFindModule Var) := do
  let m := if m.needToUpdate then { m.initClasses lib with needToUpdate := false } else m
  let m ←
    if ueq.negated then some m
    else do
      let m ← m.merge ueq.lhs ueq.rhs
      let graph ← m.graph.addEdge ueq.lhs ueq.rhs
      let informed := if settings.useTheoryPropagation then m.informed.erase ueq else m.informed
      some { m with graph := graph, informed := informed }
  some { m with history := ueq :: m.history }

/-- The equalities of the list are merged again, one after the other. -/
def reinsert (m : UnionFindModule Var) : List (UEquality Var) → Option (UnionFindModule Var)
  | [] => some m
  | eq :: tail => do
    let m ← if eq.negated then some m else m.merge eq.lhs eq.rhs
    m.reinsert tail

/-- The tail of the history are the formulas after the latest occurrence of the removed one. -/
def removeCore (m : UnionFindModule Var) (ueq : UEquality Var) : Option (UnionFindModule Var) :=
  if ueq ∈ m.history then do
    let m ←
      if ueq.negated then some m
      else do
        let m ← m.backtrack ueq.lhs ueq.rhs
        let graph ← m.graph.removeEdge ueq.lhs ueq.rhs
        reinsert { m with graph := graph } (m.history.takeWhile (· ≠ ueq)).reverse
    some { m with history := m.history.erase ueq }
  else none

/-! ## Checking -/

def generateInfeasibleSubset (lib : Library Var) (m : UnionFindModule Var)
    (inequality : UEquality Var) : Option (List (UEquality Var)) := do
  let path? ← m.graph.getPath inequality.lhs inequality.rhs none
  let path ← path?
  some (inequality :: path.map fun e => lib.formula e.1 e.2 false)

/-- Whether both sides are known and equal. -/
def induced (m : UnionFindModule Var) (lhs rhs : Var) : Option (UnionFindModule Var × Bool) :=
  if lhs ∈ m.translate ∧ rhs ∈ m.translate then do
    let (m, l) ← m.find lhs
    let (m, r) ← m.find rhs
    some (m, l = r)
  else some (m, false)

/-- The lemma for an informed equality that is induced by the received ones. -/
def propagateEquality (lib : Library Var) (settings : Settings) (m : UnionFindModule Var)
    (ueq : UEquality Var) : Option (UnionFindModule Var × List (List (UEquality Var))) :=
  if ueq.lhs ∈ m.variableSet ∧ ueq.rhs ∈ m.variableSet then do
    let (m, equal) ← m.induced ueq.lhs ueq.rhs
    if equal then
      let path? ← m.graph.getPath ueq.lhs ueq.rhs (some settings.lemmaLengthBound)
      match path? with
      | none => some (m, [])
      | some path => some (m, [(path.map fun e => lib.formula e.1 e.2 true) ++ [ueq]])
    else some (m, [])
  else some (m, [])

def propagateInducesEqualities (lib : Library Var) (settings : Settings) :
    UnionFindModule Var → List (UEquality Var) →
      Option (UnionFindModule Var × List (List (UEquality Var)))
  | m, [] => some (m, [])
  | m, ueq :: informed => do
    let (m, lemmas) ← m.propagateEquality lib settings ueq
    let (m, lemmas') ← propagateInducesEqualities lib settings m informed
    some (m, lemmas ++ lemmas')

/-- The loop of the check over the history, from its start. -/
def checkHistory (lib : Library Var) :
    UnionFindModule Var → List (UEquality Var) →
      Option (UnionFindModule Var × Answer × List (List (UEquality Var)))
  | m, [] => some (m, .sat, [])
  | m, ueq :: history =>
    if ueq.negated then do
      let (m, lhs) ← m.find ueq.lhs
      let (m, rhs) ← m.find ueq.rhs
      if lhs = rhs then
        let infeasible ← m.generateInfeasibleSubset lib ueq
        some (m, .unsat, [infeasible])
      else checkHistory lib m history
    else checkHistory lib m history

def checkCore (lib : Library Var) (settings : Settings) (m : UnionFindModule Var) :
    Option (UnionFindModule Var × Result Var) := do
  let (m, lemmas) ←
    if settings.useTheoryPropagation then
      m.propagateInducesEqualities lib settings (lib.iterate m.informed)
    else some (m, [])
  let (m, answer, subsets) ← m.checkHistory lib m.history.reverse
  some (m, ⟨answer, subsets, lemmas⟩)

end UnionFindModule

/-! ## Runs -/

inductive Action (Var : Type u) where
  | inform (f : UEquality Var)
  | add (f : UEquality Var)
  | remove (f : UEquality Var)
  | check
deriving DecidableEq, Repr

/-- The module together with what it has been informed about, what it has received and not lost
again, and the result of the latest check. -/
structure State (Var : Type u) where
  module : UnionFindModule Var
  announced : List (UEquality Var)
  received : List (UEquality Var)
deriving DecidableEq, Repr

namespace State

def initial : State Var := ⟨.initial, [], []⟩

variable [DecidableEq Var] (lib : Library Var) (settings : Settings)

def step (s : State Var) : Action Var → Option (State Var)
  | .inform f =>
    some { s with module := (s.module.informCore settings f).1, announced := f :: s.announced }
  | .add f =>
    (s.module.addCore lib settings f).map fun m =>
      { s with module := m, received := f :: s.received }
  | .remove f =>
    (s.module.removeCore f).map fun m => { s with module := m, received := s.received.erase f }
  | .check => (s.module.checkCore lib settings).map fun p => { s with module := p.1 }

/-- What the callers of a module keep to: formulas are announced before they are added, and are
received at most once at a time. -/
def Permitted (s : State Var) : Action Var → Prop
  | .inform _ => True
  | .add f => f ∈ s.announced ∧ f ∉ s.received
  | .remove f => f ∈ s.received
  | .check => True

/-- The variable has a parent entry in the current version. -/
def HasEntry (m : UnionFindModule Var) (var : Var) : Prop :=
  ∃ i, m.value var = some i ∧ i < m.classes.size

/-- Received variables have entries, representatives and the graph describe the received
equalities. -/
structure Consistent (s : State Var) : Prop where
  entries : ∀ f ∈ s.received, HasEntry s.module f.lhs ∧ HasEntry s.module f.rhs
  classes : ∀ u v, HasEntry s.module u → HasEntry s.module v →
    ∃ m r m' r', s.module.find u = some (m, r) ∧ s.module.find v = some (m', r') ∧
      (r = r' ↔ Connected (equalities s.received) u v)
  graph : ∀ u v, Connected s.module.graph.edges u v ↔ Connected (equalities s.received) u v

/-- The result of a check is right: unsatisfiable exactly if a received disequality contradicts
the received equalities, with an unsatisfiable subset of them, and the lemmas are valid. -/
structure Decides (s : State Var) (result : Result Var) : Prop where
  answer : result.answer = .sat ∨ result.answer = .unsat
  unsat_iff : result.answer = .unsat ↔
    ∃ f ∈ s.received, f.negated = true ∧ Connected (equalities s.received) f.lhs f.rhs
  infeasible : result.answer = .unsat → ∃ subset, result.infeasibleSubsets = [subset] ∧
    subset ⊆ s.received ∧ ∀ (D : Type v) (val : Var → D), ∃ f ∈ subset, ¬ f.Holds val
  valid : ∀ clause ∈ result.lemmas, ∀ (D : Type v) (val : Var → D), ∃ f ∈ clause, f.Holds val

end State

end Smtrat.UnionFind
