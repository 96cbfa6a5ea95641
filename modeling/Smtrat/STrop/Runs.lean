import Smtrat.Common.Run
import Smtrat.STrop.Soundness

/-!
# Runs

Whatever is added, removed and checked, the inner solver has the linearizations of the active
directions, provided that no two received constraints with the same normalization are told apart by
a removal, and that no formula is withdrawn from the inner solver that another one needs.  Under
this condition the models that a check through the linearization promises are found for problems
over the integers, and for no others.
-/

namespace Smtrat.STrop

open SparsePoly PropFormula List Function Option

universe u v

namespace STropModule

variable {V : Type u} {B : Type v} [DecidableEq V] [DecidableEq B] (lib : Library V B)

/-- New formulas are constraints or constants, removed formulas are received ones that no other one
shares its normalization with, and checks withdraw formulas apart from others. -/
def Careful (s : STropModule V B) : Action V B → Prop
  | .add f => Admissible lib f ∧ f ∉ s.received
  | .remove f => f ∈ s.received ∧ Unshared s f
  | .check _ _ => CheckedApart lib s

variable {lib}

theorem Inv.step {s : STropModule V B} (h : Inv lib s) {a : Action V B} (ha : Careful lib s a) :
    ∃ s', step lib s a = some s' ∧ Inv lib s' := by
  cases a with
  | add f => exact ⟨_, rfl, h.add ha.1 ha.2⟩
  | remove f => exact ⟨_, rfl, h.remove ha.1 ha.2⟩
  | check solver reply => exact h.checkCore ha solver reply

open Classical in
theorem Inv.run {as : List (Action V B)} {s : STropModule V B}
    (h : Run.run (Run.guarded (Careful lib) (STropModule.step lib)) STropModule.initial
      as = some s) : Inv lib s := by
  refine Run.guarded_invariant (P := Inv lib) (fun s a s' hs ha hstep => ?_) (Inv.initial lib) h
  obtain ⟨s₁, hs₁, hinv⟩ := hs.step ha
  rw [hstep, some.injEq] at hs₁
  exact hs₁ ▸ hinv

variable (lib)

open Classical in
/-- In every state of such a run the inner solver has exactly the linearizations of the active
directions, and no further such action fails; after a check through the linearization, the
assignments of `updateModel` are models for all large bases, and its loop ends with one, if and only
if all received variables are integers. -/
theorem run_modelFound {as : List (Action V B)} {s : STropModule V B}
    (h : Run.run (Run.guarded (Careful lib) (step lib)) initial as = some s) :
    s.LinearizationAsserted lib ∧ (∀ a, Careful lib s a → (step lib s a).isSome) ∧
      (s.answer = some .sat → s.mCheckedWithBackends = false →
        (s.ModelFound lib ↔ s.OnlyIntegers lib)) := by
  have hinv : Inv lib s := Inv.run h
  refine ⟨hinv.linearizationAsserted, fun a ha => ?_, fun hsat hchecked => ?_⟩
  · obtain ⟨s', hs', -⟩ := hinv.step ha
    rw [hs']
    rfl
  · exact modelFound_iff hinv (hinv.solved hsat hchecked)

end STropModule

/-! ## A positive variable -/

section Examples

open STropModule

theorem normalization_normalization {c : Constraint ℕ} (hc : lcoeff c.lhs ≠ 0) :
    normalization ⟨(normalization c).1, (normalization c).2⟩ = normalization c := by
  have hlcoeff : lcoeff (normalize c.lhs) = 1 := by
    unfold lcoeff at hc ⊢
    unfold normalize
    rw [getLast?_map]
    cases hlast : c.lhs.getLast? with
    | none => simp [hlast] at hc
    | some t =>
      rw [hlast] at hc
      rw [map_some]
      unfold lcoeff
      rw [hlast]
      exact div_self hc
  have hnormalize : normalize (normalize c.lhs) = normalize c.lhs := by
    rw [normalize, hlcoeff]
    simp
  change (normalize (normalize c.lhs),
    if lcoeff (normalize c.lhs) < 0 then _ else (normalization c).2) = _
  rw [hnormalize, hlcoeff, if_neg (by norm_num)]
  rfl

/-- Nothing is simplified but conjunctions. -/
def plainLibrary (int : ℕ → Bool) : Library ℕ Unit where
  linear :=
    { FlatPool.flattening _ with
      constraint := fun p r => .atom (.constraint ⟨p, r⟩)
      satisfies_constraint := fun a p r => satisfies_atom a _
      isConjunction_constraint := fun _ _ => rfl }
  separatorType := .strict
  int
  stored := fun c => c.lhs ≠ [] && c.lhs.all fun t => t.coeff ≠ 0
  coeff_ne_zero := by
    intro c hc
    simpa using hc
  formula := fun p r => .atom (.constraint ⟨p, r⟩)
  normalizationOf_formula := by
    intro c hc
    have hc : c.lhs ≠ [] ∧ ∀ t ∈ c.lhs, t.coeff ≠ 0 := by simpa using hc
    exact congrArg some (normalization_normalization (lcoeff_ne_zero hc.1 hc.2))
  substitute := fun f m =>
    match f with
    | .const b => some b
    | .atom (.constraint c) =>
      if ∀ x ∈ Poly.variables c.lhs, (m x).isSome then
        some (decide (c.Sat fun x => (m x).getD 0))
      else none
    | _ => none
  substitute_const := fun _ _ => rfl
  substitute_constraint := fun _ _ h => if_pos h
  separatorOrder := id
  separatorOrder_perm := List.Perm.refl
  variableOrder := id
  variableOrder_perm := List.Perm.refl

/-- The value of a formula under a model, over the rational numbers. -/
def LRAModel.eval (m : LRAModel ℕ) (f : LinearFormula ℕ) : Bool :=
  f.eval fun p =>
    match p with
    | .bool x => m.bool x
    | .constraint c => decide (c.Sat m.arith)
    | .theory _ => false

open Classical in
theorem LRAModel.satisfies_of_eval {m : LRAModel ℕ} {f : LinearFormula ℕ} (h : m.eval f = true) :
    m.toAssignment.Satisfies f := by
  rw [Assignment.Satisfies, ← h, LRAModel.eval]
  refine Formula.eval_congr fun p _ => ?_
  cases p with
  | bool x =>
    rw [Bool.eq_iff_iff, decide_eq_true_iff]
    exact Iff.rfl
  | constraint c =>
    refine decide_eq_decide.mpr ?_
    exact Constraint.sat_cast m.arith c
  | theory t =>
    rw [Bool.eq_iff_iff, decide_eq_true_iff]
    exact Iff.rfl

/-- The solver that only tries one model. -/
def LASolver.ofModel (m : LRAModel ℕ) : LASolver ℕ where
  check := fun fs => if fs.all m.eval then .sat m else .other []
  sound := by
    intro fs m' h f hf
    split at h
    · next hall =>
        cases h
        exact LRAModel.satisfies_of_eval (List.all_eq_true.mp hall f hf)
    · cases h

/-- `x > 0` -/
def positive : Formula (Atom ℕ Unit) := .atom (.constraint ⟨Poly.var 0, .greater⟩)

/-- The exponent of the variable is one, the hyperplane goes through the origin. -/
def positiveModel : LRAModel ℕ where
  arith
    | .normalVector _ => 1
    | _ => 0
  bool := fun _ => false

def checkPositive : STropModule.Action ℕ Unit := .check (.ofModel positiveModel) ⟨.unknown, []⟩

theorem exists_checkPositive (int : ℕ → Bool) (hint : int = (fun _ => true) ∨ int = fun _ => false) :
    ∃ s, step (plainLibrary int) (initial.add (plainLibrary int) positive) checkPositive = some s ∧
      s.received = [positive] ∧ s.answer = some .sat ∧ s.mCheckedWithBackends = false := by
  have hsome : ((step (plainLibrary int) (initial.add (plainLibrary int) positive)
      checkPositive).map fun s => (s.received, s.answer, s.mCheckedWithBackends)) =
        some ([positive], some .sat, false) := by
    rcases hint with rfl | rfl <;> decide +kernel
  obtain ⟨s, hs, heq⟩ := map_eq_some_iff.mp hsome
  rw [Prod.mk.injEq, Prod.mk.injEq] at heq
  exact ⟨s, hs, heq⟩

open Classical in
theorem run_checkPositive (int : ℕ → Bool) {s : STropModule ℕ Unit}
    (hs : step (plainLibrary int) (initial.add (plainLibrary int) positive) checkPositive = some s) :
    Run.run (Run.guarded (Careful (plainLibrary int)) (step (plainLibrary int))) initial
      [.add positive, checkPositive] = some s := by
  have hadd : Careful (plainLibrary int) initial (.add positive) :=
    ⟨.inr ⟨⟨Poly.var 0, .greater⟩, rfl, by simp [plainLibrary, Poly.var]⟩, not_mem_nil⟩
  have hact (p : Poly ℕ ℚ) :
      ((initial.add (plainLibrary int) positive).mSeparators p).mActiveDirection = none := by
    rw [STropModule.add, positive, addCore]
    dsimp only
    by_cases hp : p = (normalization ⟨(Poly.var 0 : Poly ℕ ℚ), .greater⟩).1
    · rw [hp, update_self]
      rfl
    · rw [update_of_ne hp]
      rfl
  have hchk : Careful (plainLibrary int) (initial.add (plainLibrary int) positive)
      checkPositive := by
    refine fun _ _ => ⟨fun ps p qs d _ hd => ?_, fun x _ hused => ?_⟩
    · rw [hact] at hd
      cases hd
    · cases hused
  exact Run.run_cons.mpr ⟨_, Run.guarded_eq_some.mpr ⟨hadd, rfl⟩,
    Run.run_cons.mpr ⟨s, Run.guarded_eq_some.mpr ⟨hchk, hs⟩, rfl⟩⟩

/-- For an integer the model is found. -/
theorem run_modelFound_integer : ∃ s : STropModule ℕ Unit, s.received = [positive] ∧
    s.ModelFound (plainLibrary fun _ => true) := by
  obtain ⟨s, hs, hrec, hsat, hchecked⟩ := exists_checkPositive (fun _ => true) (.inl rfl)
  refine ⟨s, hrec, ?_⟩
  exact ((STropModule.run_modelFound _ (run_checkPositive _ hs)).2.2 hsat hchecked).mpr
    fun _ _ _ _ => rfl

open Classical in
/-- For a real variable the check answers that there is a model, but the assignments have no value
for it. -/
theorem not_run_modelFound : ¬ ∀ (as : List (STropModule.Action ℕ Unit)) (s : STropModule ℕ Unit),
    Run.run (Run.guarded (Careful (plainLibrary fun _ => false))
      (step (plainLibrary fun _ => false))) initial as = some s →
    s.answer = some .sat → s.mCheckedWithBackends = false →
    s.ModelFound (plainLibrary fun _ => false) := by
  intro h
  obtain ⟨s, hs, hrec, hsat, hchecked⟩ := exists_checkPositive (fun _ => false) (.inr rfl)
  obtain ⟨⟨b₀, hb₀⟩, -⟩ := h _ s (run_checkPositive _ hs) hsat hchecked
  have hasgn := (hb₀ b₀ le_rfl).assigned positive (by rw [hrec]; exact .head _) 0 (by decide)
  -- no variable is in use
  have hinv : Inv (plainLibrary fun _ => false) s := Inv.run (run_checkPositive _ hs)
  have hint := (hinv.synchronised.used 0 (used_of_modelAt hasgn)).1
  cases hint

end Examples

end Smtrat.STrop
