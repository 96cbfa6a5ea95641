import Smtrat.SAT.Solver

/-!
# Conflict analysis and the steps of the search

An assertion that fails, a read outside of the trail and a missing reason stop the program; such a
step has no result here.  Which clause is propagated or is in conflict and which literal is decided
next is left open, so that the order of the watches and of the decisions does not matter.
-/

namespace Smtrat.SAT

/-- The state of `analyze`; the first literal of `out_learnt` is found last and left out. -/
structure Analysis where
  seen : Var → Bool
  pathC : Int
  out_learnt : List Lit
  resolutionSteps : Int

namespace Analysis

def init : Analysis := ⟨fun _ => false, 0, [], -1⟩

def setSeen (a : Analysis) (x : Var) (b : Bool) : Analysis :=
  { a with seen := Function.update a.seen x b }

def push (a : Analysis) (q : Lit) : Analysis := { a with out_learnt := a.out_learnt ++ [q] }

/-- The literal `p` on the trail is selected. -/
def select (a : Analysis) (p : Lit) : Analysis :=
  { a.setSeen p.var false with
    pathC := a.pathC - 1
    resolutionSteps := a.resolutionSteps + 1 }

/-- `out_learnt` with the asserting literal at its front. -/
def learnt (a : Analysis) (p : Lit) : Clause :=
  if p.neg ∈ a.out_learnt then (a.out_learnt.getLast?).toList ++ a.out_learnt.dropLast
  else p.neg :: a.out_learnt

end Analysis

namespace Solver

variable (T : Theory)

/-- The literal `q` of a clause that explains `p`. -/
def lookAt (s : Solver) (p : Option Lit) (a : Analysis) (q : Lit) : Option Analysis :=
  if p = some q then some a
  else if s.value T q ≠ some false then none
  else if a.seen q.var = false ∧ 0 < s.theory_level T q.var then
    let a := a.setSeen q.var true
    if s.boolValue q = none then some (a.push q)
    else if s.level q.var = some (s.theory_level T q.var) ∧
        s.decisionLevel ≤ s.theory_level T q.var then
      some { a with pathC := a.pathC + 1 }
    else some (a.push q)
  else some a

def lookAtClause (s : Solver) (p : Option Lit) (c : Clause) (a : Analysis) : Option Analysis :=
  c.foldlM (s.lookAt T p) a

/-- `explainTheoryPropagation`, after the entry of the literal has been removed. -/
def explain (s : Solver) (p : Lit) : Clause :=
  T.explain (s.trail.map (·.lit)) (theoryDecisions s.trail) p

def backtrackIncluding (s : Solver) (p : Lit) : Solver :=
  { s with
    trail := (cancelIncludingLiteral p s.trail s.decisionLevel).1
    decisionLevel := (cancelIncludingLiteral p s.trail s.decisionLevel).2 }

def pushAssumption (s : Solver) (l : Lit) : Solver :=
  { s with assumptions := s.assumptions ++ [l] }

/-- The loop of `analyze`: the first argument is what is left of the trail below `index`. -/
def resolve : List Entry → Solver → Analysis → Option (Solver × Analysis × Lit)
  | [], _, _ => none
  | e :: rest, s, a =>
    if a.seen e.lit.var = false then resolve rest s a
    else
      let a := a.select e.lit
      if a.pathC ≤ 0 then some (s, a, e.lit)
      else
        match e.reason with
        | .undef => none
        | .clause c => (s.lookAtClause T (some e.lit) c a).bind fun a => resolve rest s a
        | .tPropagation =>
          let s := s.backtrackIncluding e.lit
          match s.explain T e.lit with
          | [] => none
          | [l] => resolve rest (s.pushAssumption l) (a.push l)
          | c => (s.lookAtClause T (some e.lit) c a).bind fun a => resolve rest s a

/-- The levels on which the literals of a clause got their values, the highest first. -/
def levels (s : Solver) (c : Clause) : List Nat :=
  ((c.map fun l => s.min_theory_level T l.var).dedup).insertionSort (· ≥ ·)

/-- The level to backtrack to.  It is not negative. -/
def backtrackLevel (s : Solver) (learnt : Clause) : Option Nat :=
  if learnt.length = 1 then some 0
  else
    match s.levels T learnt with
    | _ :: level :: _ => some level
    | [level] => if 0 < level then some (level - 1) else none
    | [] => none

/-- What `analyze` returns. -/
structure Analyzed where
  solver : Solver
  learnt : Clause
  btlevel : Nat
  newClause : Bool

def analyze (s : Solver) (confl : Clause) : Option Analyzed := do
  let a ← s.lookAtClause T none confl .init
  let (s, a, p) ← resolve T s.trail s a
  let learnt := s.sortLemma T (a.learnt p)
  let btlevel ← s.backtrackLevel T learnt
  return ⟨s, learnt, btlevel, 0 < a.resolutionSteps⟩

/-- The clause that has been learnt is stored, unless it is the conflict itself, and propagates its
first literal if the others are false. -/
def learn (s : Solver) (confl learnt : Clause) (newClause : Bool) : Option Solver :=
  match s.sortLemma T learnt with
  | [] => none
  | l :: rest =>
    if s.value T l ≠ none then none
    else
      match rest with
      | [] => some (s.uncheckedEnqueue l .undef)
      | k :: _ =>
        let confl := if newClause then l :: rest else confl
        let s := if newClause then { s with clauses := s.clauses ++ [confl] } else s
        if s.value T k = some false then some (s.uncheckedEnqueue l (.clause confl)) else some s

def handleConflict (s : Solver) (confl : Clause) : Option Solver :=
  (s.analyze T confl).bind fun r =>
    (r.solver.cancelUntil r.btlevel true).learn T confl r.learnt r.newClause

/-! ## Lemmas -/

/-- `addClause` for a clause of type `LEMMA_CLAUSE` while the solver is busy. -/
def addClause (s : Solver) (c : Clause) : Solver :=
  if c.any (fun l => c.contains l.neg || s.value T l = some true && s.level l.var = some 0) then s
  else
    { s with
      mLemmas := s.mLemmas ++ [(c.insertionSort (toInt · ≤ toInt ·)).dedup.filter fun l =>
          !(s.value T l = some false && s.level l.var = some 0)] }

/-- The first phase of `storeLemmas`. -/
def lemmaLevel (s : Solver) : List Clause → Nat → Nat
  | [], level => level
  | c :: cs, level =>
    match s.sortLemma T c with
    | [] => 0
    | [l] => if s.value T l ≠ some true ∨ 0 < (s.level l.var).getD 0 then 0
        else lemmaLevel s cs level
    | l :: k :: _ =>
      if s.value T l = some false then lemmaLevel s cs (min level (s.min_theory_level T k.var))
      else if s.value T l = none ∧ s.value T k = some false then
        lemmaLevel s cs (min level (s.theory_level T k.var))
      else lemmaLevel s cs level

/-- What `storeLemmas` leaves: the flag `ok`, and a clause that is in conflict if there is one. -/
structure Stored where
  solver : Solver
  ok : Bool
  conflict : Option Clause

/-- The second phase of `storeLemmas`, with the lemma that is stored next at the front. -/
def storeAll : List Clause → Solver → Option Clause → Option Stored
  | [], s, conflict => some ⟨s, true, conflict⟩
  | c :: cs, s, conflict =>
    match s.sortLemma T c with
    | [] => some ⟨{ s with mLemmas := cs.reverse }, false, none⟩
    | [l] =>
      if s.decisionLevel ≠ 0 then none
      else
        match s.value T l with
        | some false => some ⟨{ s with mLemmas := cs.reverse }, false, none⟩
        | none => storeAll cs (s.pushAssumption l) conflict
        | some true => storeAll cs s conflict
    | l :: k :: rest =>
      let s := { s with clauses := s.clauses ++ [l :: k :: rest] }
      if s.value T l = none ∧ s.value T k = some false then
        storeAll cs (s.uncheckedEnqueue l (.clause (l :: k :: rest))) conflict
      else if s.value T l = some false then storeAll cs s (some (l :: k :: rest))
      else storeAll cs s conflict

def storeLemmas (s : Solver) : Option Stored :=
  storeAll T s.mLemmas.reverse
    { s.cancelUntil (s.lemmaLevel T s.mLemmas s.decisionLevel) true with mLemmas := [] } none

end Solver

/-! ## The search -/

/-- A search that goes on or has returned `l_False`. -/
structure Search where
  solver : Solver
  returnedFalse : Bool

/-- What happens in `search`. -/
inductive Search.Action where
  /-- A clause becomes unit. -/
  | propagate (c : Clause) (l : Lit)
  /-- All literals of a clause are false. -/
  | conflict (c : Clause)
  /-- A lemma is added while the solver is busy. -/
  | addClause (c : Clause)
  | storeLemmas
  /-- The assumption of the next level. -/
  | assumption
  /-- `pickBranchLit`, or a literal whose constraint is assigned. -/
  | decide (l : Lit)
  /-- A literal that cannot be decided is made false; it is explained when that is needed. -/
  | propagateTheory (l : Lit)
  | theoryDecision (l : Lit)
  | handleTheoryConflict (explanation : List Clause)
  | restart
  | reduceDB (kept : Clause → Bool)

namespace Solver

variable (T : Theory)

def continues (s : Solver) : Search := ⟨s, false⟩

def returnFalse (s : Solver) : Search := ⟨s, true⟩

/-- A conflict in `search`. -/
def conflictFound (s : Solver) (confl : Clause) : Option Search :=
  if s.decisionLevel ≤ s.assumptions.length then some s.returnFalse
  else (s.handleConflict T confl).map continues

/-- The lemmas that explain a conflict of the theory. -/
def addExplanation (s : Solver) (explanation : List Clause) : Solver :=
  explanation.foldl (addClause T) s

/-- `search` returns if the lemmas cannot be stored, and else a conflict is handled. -/
def afterLemmas (r : Stored) (handle : Solver → Clause → Option Search) : Option Search :=
  if r.ok then
    match r.conflict with
    | none => some r.solver.continues
    | some c => handle r.solver c
  else some r.solver.returnFalse

def step (s : Solver) : Search.Action → Option Search
  | .propagate c l =>
    if c ∈ s.clauses ∧ l ∈ c ∧ s.value T l = none ∧
        ∀ q ∈ c, q ≠ l → s.value T q = some false then
      some (s.uncheckedEnqueue l (.clause c)).continues
    else none
  | .conflict c =>
    if c ∈ s.clauses ∧ ∀ q ∈ c, s.value T q = some false then s.conflictFound T c else none
  | .addClause c => if T.explanation c then some (s.addClause T c).continues else none
  | .storeLemmas => (s.storeLemmas T).bind fun r => afterLemmas r (conflictFound T)
  | .assumption =>
    match s.assumptions[s.decisionLevel]? with
    | none => none
    | some p =>
      match s.value T p with
      | some true => some s.newDecisionLevel.continues
      | some false => some s.returnFalse
      | none => some (s.newDecisionLevel.uncheckedEnqueue p .undef).continues
  | .decide l =>
    if s.assumptions.length ≤ s.decisionLevel ∧ s.boolValue l = none ∧
        s.value T l ≠ some false then
      some (s.newDecisionLevel.uncheckedEnqueue l .undef).continues
    else none
  | .propagateTheory l =>
    if s.assumptions.length ≤ s.decisionLevel ∧ s.value T l = none ∧
        T.explanation (s.explain T l.neg) ∧ l.neg ∈ s.explain T l.neg ∧
        ∀ q ∈ s.explain T l.neg, q ≠ l.neg → s.value T q = some false then
      some (s.uncheckedEnqueue l.neg .tPropagation).continues
    else none
  | .theoryDecision l =>
    if s.assumptions.length ≤ s.decisionLevel ∧ s.boolValue l = none then
      some (s.newDecisionLevel.enqueueEntry l .undef true).continues
    else none
  | .handleTheoryConflict explanation =>
    if explanation.all T.explanation then
      (storeLemmas T (s.addExplanation T explanation)).bind fun r =>
        afterLemmas r fun s c => (s.handleConflict T c).map continues
    else none
  | .restart => some (s.cancelUntil 0 false).continues
  | .reduceDB kept => some { s with clauses := s.clauses.filter kept }.continues

end Solver

/-- A step of a search that has not returned yet. -/
def Search.step (T : Theory) (s : Search) (action : Search.Action) : Option Search :=
  if s.returnedFalse then none else s.solver.step T action

/-- The begin of a search for a set of clauses under assumptions. -/
def Search.init (clauses : List Clause) (assumptions : List Lit) : Search :=
  ⟨.init clauses assumptions, false⟩

end Smtrat.SAT
