import Smtrat.Datastructures.VariableState

/-!
# The bounds that remain

The bounds of the variables are those that were added and have not been removed since.  A formula
should be added and removed with all its bounds, which an addition does not do when there are
several of them.  After a removal there should be a conflicting variable if and only if some
variable has contradictory bounds; a removal forgets this when the conflict is that of another
variable than its own.
-/

/-!
## Constraints as bounds

A constraint that is linear in its only variable says the same as the bound it gives.
-/

namespace Smtrat.VB

open SparsePoly List Option

universe u

variable {V : Type u} [DecidableEq V]

/-- A positive factor does not matter for a comparison with zero. -/
theorem evaluate_mul_pos {a d : ℝ} (ha : 0 < a) (r : Relation) :
    r.evaluate (a * d) 0 ↔ r.evaluate d 0 := by
  have hpos : 0 < a * d ↔ 0 < d := mul_pos_iff_of_pos_left ha
  have hnonneg : 0 ≤ a * d ↔ 0 ≤ d := mul_nonneg_iff_of_pos_left ha
  have hzero : a * d = 0 ↔ d = 0 := by simp [ha.ne']
  cases r with
  | eq => exact hzero
  | neq => exact not_congr hzero
  | less => exact not_le.symm.trans ((not_congr hnonneg).trans not_le)
  | leq => exact not_lt.symm.trans ((not_congr hpos).trans not_lt)
  | greater => exact hpos
  | geq => exact hnonneg

variable {x : V}

/-- The coefficient of a power, if there is no other variable. -/
theorem eval_coefficient {p : Poly V ℚ} (h : ∀ y ∈ Poly.variables p, y = x) (k : Nat)
    (α : V → ℝ) : Poly.eval α (Poly.coefficient x k p) = (coefficientSum x k p : ℝ) := by
  induction p with
  | nil => simp [coefficientSum, Poly.coefficient]
  | cons t p ih =>
    have hp : ∀ y ∈ Poly.variables p, y = x := fun y hy =>
      h y (mem_append_right _ hy)
    have herase : monomialErase x t.monomial = [] := by
      refine filter_eq_nil_iff.mpr fun e he => ?_
      have hx := h e.1 (mem_append_left _ (List.mem_map_of_mem he))
      simpa using hx
    have hcons := ih hp
    rw [coefficientSum] at hcons ⊢
    rw [Poly.coefficient_cons]
    split_ifs
    · simp [hcons, Term.eval, herase]
    · exact hcons

variable {c : Constraint V}

theorem eval_of_boundedVariable (h : boundedVariable c = some x) (α : V → ℝ) : Poly.eval α c.lhs
      = (coefficientSum x 1 c.lhs : ℝ) * α x + (coefficientSum x 0 c.lhs : ℝ) := by
  rw [boundedVariable] at h
  split at h
  · rename_i y hy
    rw [ite_none_right_eq_some] at h
    obtain ⟨⟨hdeg, -⟩, hxy⟩ := h
    obtain rfl := some.inj hxy
    have hvars : ∀ z ∈ Poly.variables c.lhs, z = y := fun z hz => by
      have hmem := mem_dedup.mpr hz
      rw [hy] at hmem
      exact mem_singleton.mp hmem
    rw [Poly.eval_linear α y c.lhs hdeg, eval_coefficient hvars, eval_coefficient hvars]
  · cases h

theorem coefficient_ne_zero (h : boundedVariable c = some x) : coefficientSum x 1 c.lhs ≠ 0 := by
  rw [boundedVariable] at h
  split at h
  · rw [ite_none_right_eq_some] at h
    obtain ⟨⟨-, hne⟩, hxy⟩ := h
    rwa [← some.inj hxy]
  · cases h

/-- What a relation says of the distance to a limit. -/
theorem sat_of_boundType {r : Relation} {a l : ℚ} {t : BoundType} (ht : boundType r a = some t)
    (ha : a ≠ 0) (v : ℝ) : r.evaluate ((a : ℝ) * (v - l)) 0 ↔ Bound.Sat ⟨t, some l⟩ v := by
  rcases lt_or_gt_of_ne ha with hneg | hpos
  · have hflip : (a : ℝ) * (v - l) = -a * (l - v) := by ring
    have hpos : (0 : ℝ) < -a := neg_pos.mpr (Rat.cast_lt_zero.mpr hneg)
    rw [hflip, evaluate_mul_pos hpos]
    cases r <;> simp only [boundType, if_pos hneg, some.injEq, reduceCtorEq] at ht <;>
      subst ht <;>
      simp [Relation.evaluate, Bound.Sat, Bound.UpperSat, Bound.LowerSat, Bound.isUpperBound,
        Bound.isLowerBound, sub_eq_zero]
    exact eq_comm.trans le_antisymm_iff
  · rw [evaluate_mul_pos (Rat.cast_pos.mpr hpos)]
    cases r <;> simp only [boundType, if_neg hpos.not_gt, some.injEq, reduceCtorEq] at ht <;>
      subst ht <;>
      simp [Relation.evaluate, Bound.Sat, Bound.UpperSat, Bound.LowerSat, Bound.isUpperBound,
        Bound.isLowerBound, sub_eq_zero]
    exact le_antisymm_iff

/-- The bound that a constraint gives says the same as the constraint. -/
theorem sat_boundOf {b : Bound} (h : boundOf c = some (x, b))
    (α : V → ℝ) : c.Sat α ↔ b.Sat (α x) := by
  obtain ⟨y, hy, h⟩ := bind_eq_some_iff.mp h
  obtain ⟨t, ht, h⟩ := map_eq_some_iff.mp h
  obtain ⟨rfl, rfl⟩ := Prod.mk.inj h
  have ha := coefficient_ne_zero hy
  have hsplit : (coefficientSum y 1 c.lhs : ℝ) * α y + (coefficientSum y 0 c.lhs : ℝ)
      = (coefficientSum y 1 c.lhs : ℝ) * (α y -
        ((-coefficientSum y 0 c.lhs / coefficientSum y 1 c.lhs : ℚ) : ℝ)) := by
    have ha' : (coefficientSum y 1 c.lhs : ℝ) ≠ 0 := Rat.cast_ne_zero.mpr ha
    push_cast
    field_simp
    ring
  rw [Constraint.Sat, eval_of_boundedVariable hy, hsplit]
  exact sat_of_boundType ht ha (α y)

/-- A bound that a constraint gives is finite. -/
theorem boundOf_finite {b : Bound} (h : boundOf c = some (x, b)) : b.mpLimit ≠ none := by
  obtain ⟨y, hy, h⟩ := bind_eq_some_iff.mp h
  obtain ⟨t, ht, h⟩ := map_eq_some_iff.mp h
  obtain ⟨-, rfl⟩ := Prod.mk.inj h
  exact some_ne_none _

end Smtrat.VB

namespace Smtrat.VB

open SparsePoly PropFormula List

universe u v w

variable {V : Type u} {B : Type v} {T : Type w} [DecidableEq V]

/-! ## What remains -/

mutual

/-- The constraints that a formula is the conjunction of, as far as they are looked at. -/
def literals : Formula (Atom V B) → List (Constraint V)
  | .app .and fs => literalsAll fs
  | f => (literal f).toList

def literalsAll : List (Formula (Atom V B)) → List (Constraint V)
  | [] => []
  | f :: fs => literals f ++ literalsAll fs

end

omit [DecidableEq V] in
theorem literals_of_not_and {f : Formula (Atom V B)} (hf : f.isConjunction = false) :
    literals f = (literal f).toList := by
  cases f with
  | const b => rfl
  | atom a => rfl
  | app c fs =>
    cases c with
    | and => cases hf
    | _ => rfl

/-- The bounds in a formula. -/
def boundsOf (f : Formula (Atom V B)) : List (Constraint V) :=
  (literals f).filter fun c => (boundOf c).isSome

variable [DecidableEq T]

/-- A bound is removed for one origin. -/
def eraseBound (o : T) (bounds : List (Constraint V × T)) (c : Constraint V) :
    List (Constraint V × T) :=
  bounds.eraseP fun p => boundOf p.1 = boundOf c ∧ p.2 = o

variable (bounds : List (Constraint V × T))

/-- The bounds with their origins after an action. -/
def remain :
    VariableBounds.Action V B T → List (Constraint V × T)
  | .addBound f o => bounds ++ (boundsOf f).map (·, o)
  | .removeBound f o => (boundsOf f).foldl (eraseBound o) bounds
  | .getInterval _ => bounds

/-- The bounds that have been added and not been removed yet, with their origins. -/
def remaining (actions : List (VariableBounds.Action V B T)) : List (Constraint V × T) :=
  actions.foldl remain []

/-- The constraint bounds the variable `x`. -/
def Bounds (c : Constraint V) (x : V) : Prop := ∃ b, boundOf c = some (x, b)

/-- The origins of a bound among those that remain. -/
def originsOf (x : V) (b : Bound) : List T :=
  (bounds.filter fun p => boundOf p.1 = some (x, b)).map (·.2)

variable {b : Bound}

omit [DecidableEq T] in
theorem mem_originsOf {bounds : List (Constraint V × T)} {x : V} {o : T} :
    o ∈ originsOf bounds x b ↔ ∃ p ∈ bounds, boundOf p.1 = some (x, b) ∧ p.2 = o := by
  simp [originsOf, and_assoc]

omit [DecidableEq T] in
theorem originsOf_concat (c : Constraint V) (o : T) (x : V)
    (b : Bound) : originsOf (bounds ++ [(c, o)]) x b
      = originsOf bounds x b ++ if boundOf c = some (x, b) then [o] else [] := by
  rw [originsOf, filter_append, map_append]
  congr 1
  split_ifs with h <;> simp [h]

/-- One origin of the bound is gone, and nothing else. -/
theorem originsOf_eraseBound {c : Constraint V} {x : V} (hc : boundOf c = some (x, b)) (o : T) :
    originsOf (eraseBound o bounds c) x b = (originsOf bounds x b).erase o := by
  induction bounds with
  | nil => rfl
  | cons p bounds ih =>
    by_cases hp : boundOf p.1 = some (x, b)
    · by_cases ho : p.2 = o
      · have herase : eraseBound o (p :: bounds) c = bounds :=
          eraseP_cons_of_pos (by simp [hp, hc, ho])
        rw [herase]
        simp [originsOf, hp, ho]
      · have herase : eraseBound o (p :: bounds) c = p :: eraseBound o bounds c :=
          eraseP_cons_of_neg (by simp [ho])
        rw [herase]
        simp only [originsOf] at ih ⊢
        simp [hp, ih, erase_cons_tail, ho]
    · have herase : eraseBound o (p :: bounds) c = p :: eraseBound o bounds c :=
        eraseP_cons_of_neg (by simp [hp, hc])
      rw [herase]
      simp only [originsOf] at ih ⊢
      simp [hp, ih]

theorem originsOf_eraseBound_of_ne {c : Constraint V} {x : V}
    (hc : boundOf c ≠ some (x, b)) (o : T) :
    originsOf (eraseBound o bounds c) x b = originsOf bounds x b := by
  induction bounds with
  | nil => rfl
  | cons p bounds ih =>
    by_cases hp : boundOf p.1 = boundOf c ∧ p.2 = o
    · have herase : eraseBound o (p :: bounds) c = bounds :=
        eraseP_cons_of_pos (by simpa using hp)
      have hpb : boundOf p.1 ≠ some (x, b) := hp.1 ▸ hc
      rw [herase]
      simp [originsOf, hpb]
    · have herase : eraseBound o (p :: bounds) c = p :: eraseBound o bounds c :=
        eraseP_cons_of_neg (by simpa using hp)
      rw [herase]
      simp only [originsOf] at ih ⊢
      by_cases hpb : boundOf p.1 = some (x, b) <;> simp [hpb, ih]

theorem mem_of_mem_eraseBound {o : T} {bounds : List (Constraint V × T)} {c : Constraint V}
    {p : Constraint V × T} (h : p ∈ eraseBound o bounds c) : p ∈ bounds :=
  mem_of_mem_eraseP h

end Smtrat.VB
