import Smtrat.SAT.Literal

/-!
# The trail of the MCSAT core

A variable is assigned by a literal on the trail, or its value follows from the theory decisions on
the trail.  The trail is a list with the newest entry first; every entry has the decision level on
which it was made.
-/

namespace Smtrat.SAT
open List Function

/-- `std::numeric_limits<int>::max()`. -/
def intMax : Nat := 2147483647

def mTrueVar : Var := 0

/-- What the theory contributes to the search. -/
structure Theory where
  /-- The valuations that are possible in the theory. -/
  Models : Set Valuation
  mTrueVar_eq : ∀ α ∈ Models, α mTrueVar = true
  /-- The value of the constraint of a variable under theory decisions, the newest first. -/
  evaluate : List Lit → Var → Option Bool
  evaluate_sound : ∀ ds v b, evaluate ds v = some b → ∀ α ∈ Models, (∀ d ∈ ds, d.Holds α) → α v = b
  evaluate_cons : ∀ d ds v, evaluate (d :: ds) v = none → evaluate ds v = none
  /-- The clauses that may explain a conflict. -/
  explanation : Clause → Bool
  explanation_follows : ∀ c, explanation c = true → c.Follows Models
  /-- `explainTheoryPropagation`: why a literal is true after a trail and its theory decisions. -/
  explain : List Lit → List Lit → Lit → Clause

/-- Why a literal was made true: `CRef_Undef`, a clause, or `CRef_TPropagation`. -/
inductive Reason where
  | undef
  | clause (c : Clause)
  | tPropagation
deriving DecidableEq

structure Entry where
  lit : Lit
  reason : Reason
  level : Nat
  theoryDecision : Bool
deriving DecidableEq

/-- The values that are assigned by the trail itself. -/
def boolAssigns (trail : List Entry) : Assigns :=
  fun x => (trail.find? (·.lit.var = x)).map (!·.lit.sign)

/-- The literals of the theory decisions on a trail. -/
def theoryDecisions (trail : List Entry) : List Lit :=
  (trail.filter (·.theoryDecision)).map (·.lit)

/-- The values that are assigned by the trail or follow from its theory decisions. -/
def Theory.assigns (T : Theory) (trail : List Entry) : Assigns :=
  fun x => (boolAssigns trail x).or (T.evaluate (theoryDecisions trail) x)

/-- The state of the search. -/
structure Solver where
  /-- The clauses, the learnt ones included. -/
  clauses : List Clause
  trail : List Entry
  decisionLevel : Nat
  /-- `vardata[x].level`, which stays when `x` is unassigned; `none` is the initial -1. -/
  level : Var → Option Nat
  assumptions : List Lit
  mLemmas : List Clause

namespace Solver

/-- The state before a search for a set of clauses under assumptions. -/
def init (clauses : List Clause) (assumptions : List Lit) : Solver where
  clauses := clauses
  trail := [⟨mkLit mTrueVar false, .undef, 0, false⟩]
  decisionLevel := 0
  level := update (fun _ => none) mTrueVar (some 0)
  assumptions := assumptions
  mLemmas := []

def boolValue (s : Solver) (l : Lit) : Option Bool := (boolAssigns s.trail).value l

def newDecisionLevel (s : Solver) : Solver := { s with decisionLevel := s.decisionLevel + 1 }

def enqueueEntry (s : Solver) (l : Lit) (reason : Reason) (theoryDecision : Bool) : Solver :=
  { s with
    trail := ⟨l, reason, s.decisionLevel, theoryDecision⟩ :: s.trail
    level := update s.level l.var (some s.decisionLevel) }

def uncheckedEnqueue (s : Solver) (l : Lit) (reason : Reason) : Solver :=
  s.enqueueEntry l reason false

/-- The flag `ok`, which is true while the search goes on, is left out. -/
def cancelUntil (s : Solver) (level : Nat) (force : Bool) : Solver :=
  let level := if level < s.assumptions.length ∧ force = false then s.assumptions.length else level
  if level < s.decisionLevel then
    { s with
      trail := s.trail.dropWhile (level < ·.level)
      decisionLevel := level }
  else s

/-- Backtracks until the literal is removed.  A decision level ends with its first entry. -/
def cancelIncludingLiteral (lit : Lit) : List Entry → Nat → List Entry × Nat
  | [], level => ([], level)
  | e :: rest, level =>
    let level := if rest.all (·.level < level) then level - 1 else level
    if e.lit = lit then (rest, level) else cancelIncludingLiteral lit rest level

variable (T : Theory)

def value (s : Solver) (l : Lit) : Option Bool := (T.assigns s.trail).value l

/-- `getDecisionLiteral`: the theory decision that gave the constraint of a variable its value. -/
def getDecisionLiteral (x : Var) : List Lit → Option Lit
  | [] => none
  | d :: ds =>
    if (T.evaluate ds x).isSome then getDecisionLiteral x ds
    else if (T.evaluate (d :: ds) x).isSome then some d
    else none

/-- The level on which a theory decision gave a value to the constraint of a variable. -/
def theoryDecisionLevel (s : Solver) (x : Var) : Nat :=
  match getDecisionLiteral T x (theoryDecisions s.trail) with
  | none => intMax
  | some d => (s.level d.var).getD intMax

def theory_level (s : Solver) (x : Var) : Nat := (s.level x).getD (s.theoryDecisionLevel T x)

def min_theory_level (s : Solver) (x : Var) : Nat :=
  match s.level x with
  | none => s.theoryDecisionLevel T x
  | some n => min n (s.theoryDecisionLevel T x)

/-- The position of the entry of a variable, counted from the oldest entry. -/
def trailIndex (x : Var) : List Entry → Nat
  | [] => 0
  | e :: rest => if e.lit.var = x then rest.length else trailIndex x rest

/-- `lemma_lt::levelOf`. -/
def levelOf (s : Solver) (x : Var) : Nat :=
  if (boolAssigns s.trail x).isSome then trailIndex x s.trail
  else
    match getDecisionLiteral T x (theoryDecisions s.trail) with
    | none => intMax
    | some d => trailIndex d.var s.trail

def toInt (l : Lit) : Nat := 2 * l.var + l.sign.toNat

/-- The order of `lemma_lt`: first the unassigned literals, then the true and then the false ones,
and of these first the one that was assigned last. -/
def lemmaKey (s : Solver) (l : Lit) : Nat ×ₗ Nat :=
  match s.value T l with
  | none => toLex (0, toInt l)
  | some true => toLex (1, intMax - s.levelOf T l.var)
  | some false => toLex (2, intMax - s.levelOf T l.var)

def sortLemma (s : Solver) (c : Clause) : Clause :=
  c.insertionSort (fun x y => s.lemmaKey T x ≤ s.lemmaKey T y)

theorem mem_sortLemma {T : Theory} {s : Solver} {c : Clause} {l : Lit} :
    l ∈ s.sortLemma T c ↔ l ∈ c := mem_insertionSort _

/-- If the second literal of a sorted clause is false, all but the first are. -/
theorem value_of_sortLemma {T : Theory} {s : Solver} {c rest : Clause} {l k : Lit}
    (h : s.sortLemma T c = l :: rest) (hl : s.value T l = some false) (hk : k ∈ rest) :
    s.value T k = some false := by
  have hp : (l :: rest).Pairwise (fun x y => s.lemmaKey T x ≤ s.lemmaKey T y) := by
    rw [← h]
    exact pairwise_insertionSort _ _
  have hle := rel_of_pairwise_cons hp hk
  rw [lemmaKey, hl, lemmaKey, Prod.Lex.le_iff] at hle
  cases hv : s.value T k with
  | none => simp [hv] at hle
  | some b =>
    cases b with
    | false => rfl
    | true => simp [hv] at hle

theorem value_of_sortLemma_tail {T : Theory} {s : Solver} {c rest : Clause} {l k j : Lit}
    (h : s.sortLemma T c = l :: k :: rest) (hk : s.value T k = some false)
    (hj : j ∈ k :: rest) : s.value T j = some false := by
  have hp : (l :: k :: rest).Pairwise (fun x y => s.lemmaKey T x ≤ s.lemmaKey T y) := by
    rw [← h]
    exact pairwise_insertionSort _ _
  obtain rfl | hj := mem_cons.mp hj
  · exact hk
  · have hle := rel_of_pairwise_cons (pairwise_cons.mp hp).2 hj
    rw [lemmaKey, hk, lemmaKey, Prod.Lex.le_iff] at hle
    cases hv : s.value T j with
    | none => simp [hv] at hle
    | some b =>
      cases b with
      | false => rfl
      | true => simp [hv] at hle

end Solver

end Smtrat.SAT
