import Smtrat.Common.Run
import Smtrat.SAT.Literal

/-!
# Lazy theory propagations

The theory propagations of the backends wait in a table until their explanations are asked for.
A variable assigned by one has the reason `CRef_Lazy` and stores the position of its entry.
-/

namespace Smtrat.SAT

open Run Function List

structure TheoryPropagation where
  mPremise : List Lit
  mConclusion : Lit

inductive CRef where
  | undef
  | lazy
  | clause (c : Nat)
deriving DecidableEq

/-- The position of the explanation is `-1` if there is none. -/
structure VarData where
  reason : CRef
  level : Int
  mTrailIndex : Int
  mExpPos : Int
deriving DecidableEq

/-- The last assigned literal comes first on the trail, the first level first in `trail_lim`. -/
structure LazySolver where
  assigns : Assigns
  vardata : Var → VarData
  trail : List Lit
  trail_lim : List Nat
  mTheoryPropagations : List TheoryPropagation

inductive LazyAction where
  | propagateTheory (collected : List TheoryPropagation)
  | reason (x : Var) (real_reason : Nat)
  | cancelUntil (level : Nat)
  | cancelIncludingLiteral (lit : Lit)
  | uncheckedEnqueue (p : Lit) (from' : CRef)
  | newDecisionLevel
  | removeClause (x : Var)

/-- The last entry is moved to the position of the removed one. -/
def swapRemove {α : Type*} (xs : List α) (position : Nat) : List α :=
  match xs.getLast? with
  | none => xs
  | some last => if position ≠ xs.length - 1 then (xs.set position last).dropLast else xs.dropLast

theorem length_swapRemove {α : Type*} (xs : List α) (position : Nat) :
    (swapRemove xs position).length = xs.length - 1 := by
  grind [swapRemove]

theorem getElem?_swapRemove {α : Type*} {xs : List α} {position i : Nat} (hi : i < xs.length - 1) :
    (swapRemove xs position)[i]? = if i = position then xs[xs.length - 1]? else xs[i]? := by
  grind [swapRemove]

namespace LazySolver

def init : LazySolver where
  assigns := fun _ => none
  vardata := fun _ => ⟨.undef, -1, -1, -1⟩
  trail := []
  trail_lim := []
  mTheoryPropagations := []

def uncheckedEnqueue (s : LazySolver) (p : Lit) (from' : CRef) : LazySolver :=
  { s with
    assigns := s.assigns.enqueue p
    vardata := update s.vardata p.var ⟨from', s.trail_lim.length, s.trail.length, -1⟩
    trail := p :: s.trail }

def setExpPos (s : LazySolver) (x : Var) (position : Int) : LazySolver :=
  { s with vardata := update s.vardata x { s.vardata x with mExpPos := position } }

/-- The loop of `propagateTheory` from a position on.  Each iteration passes an entry or drops it.
A conclusion that is false already also becomes a lemma. -/
def propagateFrom (s : LazySolver) (pos : Nat) : Nat → LazySolver
  | 0 => s
  | n + 1 =>
    match s.mTheoryPropagations[pos]? with
    | none => s
    | some tp =>
      let conclLit := tp.mConclusion
      if s.assigns.value conclLit = none then
        propagateFrom ((s.uncheckedEnqueue conclLit .lazy).setExpPos conclLit.var pos) (pos + 1) n
      else
        propagateFrom { s with mTheoryPropagations := swapRemove s.mTheoryPropagations pos } pos n

def propagateTheory (s : LazySolver) (collected : List TheoryPropagation) : LazySolver :=
  propagateFrom { s with mTheoryPropagations := s.mTheoryPropagations ++ collected }
    s.mTheoryPropagations.length collected.length

def removeTheoryPropagation (s : LazySolver) (position : Nat) : LazySolver :=
  let s' := match s.mTheoryPropagations.getLast? with
    | none => s
    | some tp =>
      if position ≠ s.mTheoryPropagations.length - 1 then
        s.setExpPos tp.mConclusion.var position
      else s
  { s' with mTheoryPropagations := swapRemove s.mTheoryPropagations position }

/-- The clause that explains the assignment is built from the entry and stored as `real_reason`. -/
def reason (s : LazySolver) (x : Var) (real_reason : Nat) : LazySolver :=
  if (s.vardata x).reason ≠ .lazy then s
  else
    let s' := s.removeTheoryPropagation (s.vardata x).mExpPos.toNat
    let vd := ⟨.clause real_reason, (s.vardata x).level, (s.vardata x).mTrailIndex, -1⟩
    { s' with vardata := update s'.vardata x vd }

/-- One step of the loops that undo assignments. -/
def cancelAssignment (s : LazySolver) (l : Lit) : LazySolver :=
  let x := l.var
  let s := { s with assigns := s.assigns.reset x }
  let s :=
    if (s.vardata x).mExpPos > 0 then
      (s.removeTheoryPropagation (s.vardata x).mExpPos.toNat).setExpPos x (-1)
    else s
  { s with vardata := update s.vardata x { s.vardata x with reason := .undef, mTrailIndex := -1 } }

/-- The number of assignments above a decision level, if it is left. -/
def above (s : LazySolver) (level : Nat) : Nat :=
  s.trail.length - (s.trail_lim[level]?).getD s.trail.length

/-- The level has been raised to that of the assumptions. -/
def cancelUntil (s : LazySolver) (level : Nat) : LazySolver :=
  { (s.trail.take (s.above level)).foldl cancelAssignment s with
    trail := s.trail.drop (s.above level)
    trail_lim := s.trail_lim.take level }

/-- The loop goes down the trail, which is passed along. -/
def cancelIncludingLiteral (lit : Lit) : List Lit → LazySolver → LazySolver
  | [], s => s
  | curlit :: trail, s =>
    let s := s.cancelAssignment curlit
    let s := { s with
      trail := trail
      trail_lim :=
        if s.trail_lim.getLast? = some trail.length then s.trail_lim.dropLast else s.trail_lim }
    if curlit = lit then s else cancelIncludingLiteral lit trail s

/-- A literal can be assigned if it has no value; only `propagateTheory` uses the reason
`CRef_Lazy`.  The clause that is removed is the reason of a variable. -/
def step (s : LazySolver) : LazyAction → Option LazySolver
  | .propagateTheory collected => some (s.propagateTheory collected)
  | .reason x real_reason => some (s.reason x real_reason)
  | .cancelUntil level => some (s.cancelUntil level)
  | .cancelIncludingLiteral lit => some (cancelIncludingLiteral lit s.trail s)
  | .uncheckedEnqueue p from' =>
    if s.assigns.value p = none ∧ from' ≠ .lazy then some (s.uncheckedEnqueue p from') else none
  | .newDecisionLevel => some { s with trail_lim := s.trail_lim ++ [s.trail.length] }
  | .removeClause x =>
    if (s.vardata x).reason ≠ .lazy then
      some { s with vardata := update s.vardata x { s.vardata x with reason := .undef } }
    else none

/-- The literals a step of backtracking unassigns. -/
def unassigned (s : LazySolver) : LazyAction → List Lit
  | .cancelUntil level => s.trail.take (s.above level)
  | .cancelIncludingLiteral lit => s.trail.take (s.trail.idxOf lit + 1)
  | _ => []

/-- No variable whose explanation is the first entry is unassigned. -/
def SparesFirst (s : LazySolver) (a : LazyAction) : Prop :=
  ∀ l ∈ s.unassigned a, (s.vardata l.var).mExpPos ≠ 0

instance (s : LazySolver) (a : LazyAction) : Decidable (SparesFirst s a) :=
  inferInstanceAs (Decidable (∀ l ∈ s.unassigned a, _))

/-! ## The entries of the lazily propagated variables -/

/-- The entries are those of the variables with the reason `CRef_Lazy`: they conclude their
literals, and these variables, and no others, store the positions. -/
structure Matched (assigns : Assigns) (vardata : Var → VarData) (tps : List TheoryPropagation) :
    Prop where
  entry : ∀ {i : Nat} {tp}, tps[i]? = some tp →
    assigns.value tp.mConclusion = some true ∧
      (vardata tp.mConclusion.var).reason = .lazy ∧
      (vardata tp.mConclusion.var).mExpPos = i
  lazy : ∀ {x}, (vardata x).reason = .lazy →
    ∃ (i : Nat) (tp : TheoryPropagation), tps[i]? = some tp ∧ tp.mConclusion.var = x
  unset : ∀ {x}, (vardata x).reason ≠ .lazy → (vardata x).mExpPos = -1

namespace Matched

variable {assigns assigns' : Assigns} {vardata : Var → VarData} {tps : List TheoryPropagation}
  {x : Var} {d : VarData}

theorem position (h : Matched assigns vardata tps) (hx : (vardata x).reason = .lazy) :
    ∃ (i : Nat) (tp : TheoryPropagation), tps[i]? = some tp ∧ tp.mConclusion.var = x ∧
      (vardata x).mExpPos = i := by
  obtain ⟨i, tp, htp, rfl⟩ := h.lazy hx
  exact ⟨i, tp, htp, rfl, (h.entry htp).2.2⟩

theorem assigned (h : Matched assigns vardata tps) (hx : (vardata x).reason = .lazy) :
    assigns x ≠ none := by
  obtain ⟨i, tp, htp, rfl⟩ := h.lazy hx
  simp [Assigns.value_eq_true.mp (h.entry htp).1]

/-- Nothing happens to the table if a variable that has no entry is assigned or unassigned. -/
theorem update (h : Matched assigns vardata tps) (hx : (vardata x).reason ≠ .lazy)
    (hd : d.reason ≠ .lazy) (hposition : d.mExpPos = -1)
    (hassigns : ∀ y ≠ x, assigns' y = assigns y) :
    Matched assigns' (update vardata x d) tps := by
  refine ⟨fun htp => ?_, fun hy => ?_, fun hy => ?_⟩
  · have := h.entry htp
    grind [Assigns.value]
  · have := @h.lazy
    grind
  · have := @h.unset
    grind

/-- A lazy propagation is added. -/
theorem push {tp : TheoryPropagation} (h : Matched assigns vardata tps)
    (hvalue : assigns.value tp.mConclusion = none) (hd : d.reason = .lazy)
    (hposition : d.mExpPos = tps.length) :
    Matched (assigns.enqueue tp.mConclusion) (Function.update vardata tp.mConclusion.var d)
      (tps ++ [tp]) := by
  have hreason : (vardata tp.mConclusion.var).reason ≠ .lazy :=
    fun hlazy => h.assigned hlazy (Assigns.value_eq_none.mp hvalue)
  refine ⟨fun {i tp'} htp' => ?_, fun {y} hy => ?_, fun hy => ?_⟩
  · obtain hlt | rfl : i < tps.length ∨ i = tps.length := by grind
    · have := h.entry (getElem?_append_left hlt ▸ htp')
      grind [Assigns.value_enqueue_of_ne]
    · obtain rfl : tp = tp' := by simpa using htp'
      exact ⟨Assigns.value_enqueue, by grind, by grind⟩
  · obtain rfl | hne := eq_or_ne y tp.mConclusion.var
    · exact ⟨tps.length, tp, by simp, rfl⟩
    · obtain ⟨j, u, hu, rfl⟩ := h.lazy (update_of_ne hne d vardata ▸ hy)
      exact ⟨j, u, by grind, rfl⟩
  · have := @h.unset
    grind

end Matched

@[simp] theorem removeTheoryPropagation_mTheoryPropagations (s : LazySolver) (position : Nat) :
    (s.removeTheoryPropagation position).mTheoryPropagations =
      swapRemove s.mTheoryPropagations position := rfl

@[simp] theorem removeTheoryPropagation_assigns (s : LazySolver) (position : Nat) :
    (s.removeTheoryPropagation position).assigns = s.assigns := by
  simp only [removeTheoryPropagation]
  grind [setExpPos]

/-- Only the variable of the last entry gets another position. -/
theorem removeTheoryPropagation_vardata (s : LazySolver) (position : Nat) {k : TheoryPropagation}
    (hk : s.mTheoryPropagations[s.mTheoryPropagations.length - 1]? = some k) (y : Var) :
    (s.removeTheoryPropagation position).vardata y =
      if position ≠ s.mTheoryPropagations.length - 1 ∧ y = k.mConclusion.var then
        { s.vardata y with mExpPos := position }
      else s.vardata y := by
  rw [← getLast?_eq_getElem?] at hk
  simp only [removeTheoryPropagation, hk, setExpPos]
  split_ifs <;> grind

/-- The variable of the removed entry may be unassigned or get another reason. -/
theorem removeTheoryPropagation_matched {s : LazySolver} {i : Nat} {tp : TheoryPropagation}
    {assigns assigns' : Assigns} {d : VarData} {x : Var}
    (h : Matched assigns s.vardata s.mTheoryPropagations)
    (htp : s.mTheoryPropagations[i]? = some tp) (hx : tp.mConclusion.var = x)
    (hd : d.reason ≠ .lazy) (hposition : d.mExpPos = -1)
    (hassigns : ∀ y ≠ x, assigns' y = assigns y) :
    Matched assigns' (update (s.removeTheoryPropagation i).vardata x d)
      (swapRemove s.mTheoryPropagations i) := by
  subst hx
  have hi := (List.getElem?_eq_some_iff.mp htp).1
  obtain ⟨k, hk⟩ : ∃ k, s.mTheoryPropagations[s.mTheoryPropagations.length - 1]? = some k :=
    ⟨_, getElem?_eq_getElem (by omega)⟩
  -- an entry is found by its variable
  have hentry : ∀ {j j' : Nat} {u u' : TheoryPropagation}, s.mTheoryPropagations[j]? = some u →
      s.mTheoryPropagations[j']? = some u' → u.mConclusion.var = u'.mConclusion.var → j = j' := by
    intro j j' u u' hu hu' hvar
    have hj := (h.entry hu).2.2
    rw [hvar] at hj
    exact Int.ofNat_inj.mp (hj.symm.trans (h.entry hu').2.2)
  have hdata := removeTheoryPropagation_vardata s i hk
  constructor
  case entry =>
    intro j u hu
    have hj : j < s.mTheoryPropagations.length - 1 :=
      length_swapRemove _ i ▸ (List.getElem?_eq_some_iff.mp hu).1
    rw [getElem?_swapRemove hj] at hu
    obtain ⟨j', hj', hne⟩ : ∃ j', s.mTheoryPropagations[j']? = some u ∧ j' ≠ i := by grind
    have hentry' := h.entry hj'
    grind [Assigns.value]
  case lazy =>
    intro y hy
    obtain rfl | hne := eq_or_ne y tp.mConclusion.var
    · grind
    · obtain ⟨j, u, hu, rfl⟩ := h.lazy (x := y) (by grind)
      have hj := (List.getElem?_eq_some_iff.mp hu).1
      have hji : j ≠ i := fun heq => hne (by rw [Option.some.inj (hu.symm.trans (heq ▸ htp))])
      obtain rfl | hlt : j = s.mTheoryPropagations.length - 1 ∨
          j < s.mTheoryPropagations.length - 1 := by omega
      · exact ⟨i, u, by rw [getElem?_swapRemove (by omega), if_pos rfl, hu], rfl⟩
      · exact ⟨j, u, by rw [getElem?_swapRemove hlt, if_neg hji, hu], rfl⟩
  case unset =>
    intro y hy
    have hlast := (h.entry hk).2.1
    have := @h.unset y
    grind

theorem take_swapRemove {α : Type*} {xs : List α} {position : Nat} (h : position < xs.length) :
    (swapRemove xs position).take position = xs.take position := by
  refine ext_getElem? fun i => ?_
  grind [getElem?_swapRemove]

/-! ## Runs -/

def MatchesTable (s : LazySolver) : Prop :=
  Matched s.assigns s.vardata s.mTheoryPropagations

variable {s : LazySolver}

theorem propagateFrom_matchesTable {n pos : Nat}
    (h : Matched s.assigns s.vardata (s.mTheoryPropagations.take pos))
    (hn : pos + n = s.mTheoryPropagations.length) : (s.propagateFrom pos n).MatchesTable := by
  induction n generalizing s pos with
  | zero =>
    rw [← Nat.add_zero pos, hn, take_length] at h
    exact h
  | succ n ih =>
    obtain ⟨tp, htp⟩ : ∃ tp, s.mTheoryPropagations[pos]? = some tp :=
      ⟨_, getElem?_eq_getElem (by omega)⟩
    rw [propagateFrom, htp]
    dsimp only
    split_ifs with hvalue
    · refine ih ?_ (hn ▸ Nat.succ_add_eq_add_succ pos n)
      have := h.push (d := { (s.uncheckedEnqueue tp.mConclusion .lazy).vardata
        tp.mConclusion.var with mExpPos := pos }) hvalue (by simp [uncheckedEnqueue])
        (by rw [length_take_of_le (by omega)])
      simpa [setExpPos, uncheckedEnqueue, take_add_one, htp] using this
    · refine ih ?_ (by rw [length_swapRemove]; omega)
      rwa [take_swapRemove (by omega)]

theorem MatchesTable.propagateTheory (h : s.MatchesTable) (collected : List TheoryPropagation) :
    (s.propagateTheory collected).MatchesTable :=
  propagateFrom_matchesTable (by rwa [take_left]) length_append.symm

theorem MatchesTable.reason (h : s.MatchesTable) (x : Var) (real_reason : Nat) :
    (s.reason x real_reason).MatchesTable := by
  unfold LazySolver.reason
  split_ifs with hlazy
  · exact h
  · obtain ⟨i, tp, htp, hvar, hexp⟩ := h.position (not_not.mp hlazy)
    rw [hexp, Int.toNat_natCast]
    exact removeTheoryPropagation_matched h htp hvar CRef.noConfusion rfl fun _ _ => by simp

/-- The loops keep the first entry, so no other variable gets its position. -/
theorem MatchesTable.cancelAssignment (h : s.MatchesTable) {l : Lit}
    (hl : (s.vardata l.var).mExpPos ≠ 0) :
    (s.cancelAssignment l).MatchesTable ∧
      ∀ y, (s.vardata y).mExpPos ≠ 0 → ((s.cancelAssignment l).vardata y).mExpPos ≠ 0 := by
  have hassigns : ∀ y ≠ l.var, s.assigns.reset l.var y = s.assigns y :=
    fun y hy => by rw [Assigns.reset, update_of_ne hy]
  unfold LazySolver.cancelAssignment MatchesTable
  dsimp only
  by_cases hlazy : (s.vardata l.var).reason = .lazy
  · obtain ⟨i, tp, htp, hvar, hexp⟩ := h.position hlazy
    rw [hexp] at hl
    rw [hexp, if_pos (by omega), Int.toNat_natCast, setExpPos]
    simp only [update_self, update_idem, removeTheoryPropagation_mTheoryPropagations,
      removeTheoryPropagation_assigns]
    refine ⟨removeTheoryPropagation_matched h htp hvar CRef.noConfusion rfl hassigns,
      fun y hy => ?_⟩
    obtain ⟨k, hk⟩ : ∃ k, s.mTheoryPropagations[s.mTheoryPropagations.length - 1]? = some k :=
      ⟨_, getElem?_eq_getElem (Nat.sub_one_lt_of_lt (List.getElem?_eq_some_iff.mp htp).1)⟩
    have hdata := removeTheoryPropagation_vardata
      { s with assigns := s.assigns.reset l.var } i hk y
    grind
  · rw [h.unset hlazy, if_neg (by decide)]
    exact ⟨h.update hlazy CRef.noConfusion (h.unset hlazy) hassigns, by grind⟩

theorem MatchesTable.foldl_cancelAssignment {ls : List Lit} (h : s.MatchesTable)
    (hls : ∀ l ∈ ls, (s.vardata l.var).mExpPos ≠ 0) :
    (ls.foldl LazySolver.cancelAssignment s).MatchesTable := by
  induction ls generalizing s with
  | nil => exact h
  | cons l ls ih =>
    obtain ⟨h', hspared⟩ := h.cancelAssignment (hls l mem_cons_self)
    exact ih h' fun k hk => hspared k.var (hls k (mem_cons_of_mem l hk))

theorem MatchesTable.cancelIncludingLiteral {lit : Lit} {trail : List Lit} (h : s.MatchesTable)
    (htrail : ∀ l ∈ trail.take (trail.idxOf lit + 1), (s.vardata l.var).mExpPos ≠ 0) :
    (cancelIncludingLiteral lit trail s).MatchesTable := by
  induction trail generalizing s with
  | nil => exact h
  | cons curlit trail ih =>
    rw [take_succ_cons] at htrail
    obtain ⟨h', hspared⟩ := h.cancelAssignment (htrail curlit mem_cons_self)
    unfold LazySolver.cancelIncludingLiteral
    dsimp only
    by_cases heq : curlit = lit
    · rw [if_pos heq]
      exact h'
    · rw [if_neg heq]
      refine ih h' fun l hl => ?_
      refine hspared l.var (htrail l (mem_cons_of_mem _ ?_))
      rwa [idxOf_cons_ne _ heq]

theorem step_matchesTable {a : LazyAction} {s' : LazySolver} (h : s.MatchesTable)
    (hspares : s.SparesFirst a) (hstep : s.step a = some s') : s'.MatchesTable := by
  cases a with
  | propagateTheory collected =>
    cases hstep
    exact h.propagateTheory collected
  | reason x real_reason =>
    cases hstep
    exact h.reason x real_reason
  | cancelUntil level =>
    cases hstep
    exact h.foldl_cancelAssignment hspares
  | cancelIncludingLiteral lit =>
    cases hstep
    exact h.cancelIncludingLiteral hspares
  | uncheckedEnqueue p from' =>
    rw [step] at hstep
    split_ifs at hstep with hp
    cases hstep
    have hreason : (s.vardata p.var).reason ≠ .lazy :=
      fun hlazy => h.assigned hlazy (Assigns.value_eq_none.mp hp.1)
    exact h.update hreason hp.2 rfl fun y hy => update_of_ne hy _ s.assigns
  | newDecisionLevel =>
    cases hstep
    exact h
  | removeClause x =>
    rw [step] at hstep
    split_ifs at hstep with hreason
    cases hstep
    exact h.update hreason CRef.noConfusion (h.unset hreason) fun _ _ => rfl

/-- As long as backtracking spares the variable of the first entry, the table matches. -/
theorem matchesTable_of_run (actions : List LazyAction) (s : LazySolver)
    (hrun : run (guarded SparesFirst step) init actions = some s) :
    s.MatchesTable := by
  have hinit : init.MatchesTable :=
    ⟨fun htp => by simp [init] at htp, CRef.noConfusion, fun _ => rfl⟩
  exact guarded_invariant (fun _ _ _ h hspares hstep => step_matchesTable h hspares hstep) hinit
    hrun

/-- The second of two lazy propagations is undone, the first one is explained. -/
private def explainingActions : List LazyAction :=
  [.newDecisionLevel, .propagateTheory [⟨[], mkLit 1 false⟩], .newDecisionLevel,
    .propagateTheory [⟨[mkLit 1 false], mkLit 2 false⟩], .cancelUntil 1, .reason 1 0]

theorem matchesTable_of_run_sample :
    ∃ s, run (guarded SparesFirst step) init explainingActions = some s ∧ MatchesTable s :=
  ⟨_, rfl, matchesTable_of_run explainingActions _ rfl⟩

/-- A variable is propagated lazily on the first decision level, which is left again. -/
private def lazyActions : List LazyAction :=
  [.newDecisionLevel, .propagateTheory [⟨[], mkLit 1 false⟩], .cancelUntil 0]

theorem not_matchesTable_of_run : ¬∀ (actions : List LazyAction) (s : LazySolver),
    run step init actions = some s → s.MatchesTable := by
  intro h
  have hentry := (h lazyActions _ rfl).entry (i := 0) rfl
  exact absurd hentry.1 (by decide)

end LazySolver

end Smtrat.SAT
