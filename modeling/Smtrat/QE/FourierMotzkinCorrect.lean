import Smtrat.Math.LineCells
import Smtrat.QE.FourierMotzkin

/-!
# Correctness of Fourier-Motzkin elimination

A lower and an upper bound are compatible if the lower one is not greater.  The elimination compares
them without regard to their coefficients and to their strictness, and it keeps equations as they
are; where this does not matter, the variable is eliminated.
-/

namespace Smtrat.QE

open PropFormula Line List Function

universe u

variable {V : Type u}

/-! ## Formulas -/

section Satisfies

variable {α : V → ℝ}

@[simp] theorem satisfies_atom (c : LinearConstraint V) : Satisfies α (.atom c) ↔ c.Sat α := by
  simp [Satisfies]

@[simp] theorem satisfies_const (b : Bool) : Satisfies α (.const b) ↔ b = true := by
  simp [Satisfies]

@[simp] theorem satisfies_and (fs : List (Formula (LinearConstraint V))) :
    Satisfies α (.app .and fs) ↔ ∀ f ∈ fs, Satisfies α f := by
  simp [Satisfies]

@[simp] theorem satisfies_create_and (pool : Pool V) (fs : List (Formula (LinearConstraint V))) :
    Satisfies α (pool.connectives.create .and fs) ↔ ∀ f ∈ fs, Satisfies α f := by
  simp [Satisfies]

@[simp] theorem satisfies_constraint (pool : Pool V) (c : LinearConstraint V) :
    Satisfies α (pool.constraint c) ↔ c.Sat α := by
  rw [Pool.constraint]
  cases h : pool.create c with
  | inl b => exact (satisfies_const b).trans (pool.create_inl c b h α).symm
  | inr c' => exact (satisfies_atom c').trans (pool.create_inr c c' h α).symm

end Satisfies

/-- The variable occurs in the formula. -/
def Occurs (x : V) (f : Formula (LinearConstraint V)) : Prop :=
  ∃ c, f.Mentions c ∧ x ∈ c.lhs.vars

variable {fs : List (Formula (LinearConstraint V))}

theorem occurs_create_and {pool : Pool V} {x : V}
    (h : Occurs x (pool.connectives.create .and fs)) : ∃ f ∈ fs, Occurs x f := by
  obtain ⟨c, hc, hx⟩ := h
  obtain ⟨f, hf, hc⟩ := pool.connectives.mentions_create hc
  exact ⟨f, hf, c, hc, hx⟩

theorem occurs_constraint {pool : Pool V} {c : LinearConstraint V} {x : V}
    (h : Occurs x (pool.constraint c)) : x ∈ c.lhs.vars := by
  obtain ⟨d, hd, hx⟩ := h
  rw [Pool.constraint] at hd
  cases hc : pool.create c with
  | inl b =>
    rw [hc] at hd
    exact absurd hd (Formula.mentions_const d b)
  | inr c' =>
    rw [hc] at hd
    rw [← (Formula.mentions_atom d c').mp hd] at hx
    exact pool.vars_inr c c' hc x hx

@[simp] theorem occurs_atom {c : LinearConstraint V} {x : V} :
    Occurs x (.atom c) ↔ x ∈ c.lhs.vars := by
  simp [Occurs]

@[simp] theorem occurs_and {x : V} : Occurs x (.app .and fs) ↔ ∃ f ∈ fs, Occurs x f := by
  simp only [Occurs, Formula.mentions_app]
  constructor
  · rintro ⟨c, ⟨f, hf, hc⟩, hx⟩
    exact ⟨f, hf, c, hc, hx⟩
  · rintro ⟨f, hf, c, hc, hx⟩
    exact ⟨c, ⟨f, hf, hc⟩, hx⟩

/-- A constraint does not depend on the other variables. -/
theorem LinearConstraint.sat_congr {c : LinearConstraint V} {α β : V → ℝ}
    (h : ∀ x ∈ c.lhs.vars, α x = β x) : c.Sat α ↔ c.Sat β := by
  rw [Sat, Sat, LinearPolynomial.eval_congr h]

namespace FourierMotzkinQE

variable [DecidableEq V]

/-! ## Bounds -/

/-- The value that a constraint compares the variable with. -/
noncomputable def limit (x : V) (α : V → ℝ) (c : LinearConstraint V) : Limit ℝ :=
  ⟨-(c.lhs.erase x).eval α / c.lhs.coefficient x, c.relation.isStrict⟩

theorem sat_update {c : LinearConstraint V} {x : V} (α : V → ℝ) (r : ℝ) :
    c.Sat (update α x r) ↔
      c.relation.evaluate (c.lhs.coefficient x * r + (c.lhs.erase x).eval α) 0 := by
  have hrest : (c.lhs.erase x).eval (update α x r) = (c.lhs.erase x).eval α :=
    LinearPolynomial.eval_congr fun y hy =>
      update_of_ne (LinearPolynomial.mem_vars_erase.mp hy).2 _ _
  rw [LinearConstraint.Sat, LinearPolynomial.eval_split x, hrest, update_self]

section Bounds

variable {c : LinearConstraint V} {x : V} (hx : c.lhs.hasVariable x)

include hx

theorem cast_coefficient_ne_zero : (c.lhs.coefficient x : ℝ) ≠ 0 :=
  Rat.cast_ne_zero.mpr (LinearPolynomial.hasVariable_iff.mp hx)

/-- The distance to the limit, multiplied by the coefficient. -/
theorem eval_eq_distance (α : V → ℝ) (r : ℝ) :
    (c.lhs.coefficient x : ℝ) * r + (c.lhs.erase x).eval α
      = c.lhs.coefficient x * (r - (limit x α c).value) := by
  have hne := cast_coefficient_ne_zero hx
  rw [limit]
  field_simp
  ring

/-- The coefficients of the two kinds of bounds. -/
theorem coefficient_cases (heq : c.relation ≠ .eq) (hneq : c.relation ≠ .neq) :
    (isLinearLowerBound c x ∧ ((c.relation = .leq ∨ c.relation = .less) ∧
        (c.lhs.coefficient x : ℝ) < 0 ∨
      (c.relation = .geq ∨ c.relation = .greater) ∧ (0 : ℝ) < c.lhs.coefficient x)) ∨
    (¬ isLinearLowerBound c x ∧ ((c.relation = .leq ∨ c.relation = .less) ∧
        (0 : ℝ) < c.lhs.coefficient x ∨
      (c.relation = .geq ∨ c.relation = .greater) ∧ (c.lhs.coefficient x : ℝ) < 0)) := by
  rw [Rat.cast_lt_zero, Rat.cast_pos]
  rcases lt_or_gt_of_ne (LinearPolynomial.hasVariable_iff.mp hx) with h | h <;>
    cases hr : c.relation <;>
    simp_all [isLinearLowerBound, h.not_gt]

theorem sat_bound (heq : c.relation ≠ .eq) (hneq : c.relation ≠ .neq) (α : V → ℝ) (r : ℝ) :
    c.Sat (update α x r) ↔
      if isLinearLowerBound c x then (limit x α c).Above r else (limit x α c).Below r := by
  rw [sat_update, eval_eq_distance hx, Relation.evaluate_mul_zero _ (cast_coefficient_ne_zero hx),
    Relation.evaluate_sub_zero]
  have hstr : (limit x α c).strict = c.relation.isStrict := rfl
  rw [Limit.Above, Limit.Below, hstr]
  rcases coefficient_cases hx heq hneq with ⟨hl, h⟩ | ⟨hl, h⟩
  · rw [if_pos hl]
    rcases h with ⟨hr | hr, ha⟩ | ⟨hr | hr, ha⟩ <;>
      simp [hr, ha, ha.not_gt, Relation.evaluate, Relation.isStrict, Relation.turnAroundRelation]
  · rw [if_neg hl]
    rcases h with ⟨hr | hr, ha⟩ | ⟨hr | hr, ha⟩ <;>
      simp [hr, ha, ha.not_gt, Relation.evaluate, Relation.isStrict, Relation.turnAroundRelation]

/-- The remainder of a bound is its limit, but for the absolute value of the coefficient. -/
theorem eval_getRemainder (heq : c.relation ≠ .eq) (hneq : c.relation ≠ .neq) (α : V → ℝ) :
    (getRemainder c x (isLinearLowerBound c x)).eval α
      = |(c.lhs.coefficient x : ℝ)| * (limit x α c).value := by
  have hne := cast_coefficient_ne_zero hx
  have hval : (c.lhs.coefficient x : ℝ) * (limit x α c).value = -(c.lhs.erase x).eval α := by
    rw [limit]
    field_simp
  rw [getRemainder]
  rcases coefficient_cases hx heq hneq with ⟨hl, h⟩ | ⟨hl, h⟩
  · rw [if_pos hl]
    rcases h with ⟨hr, ha⟩ | ⟨hr, ha⟩
    · have hr' : c.relation = .less ∨ c.relation = .leq := hr.symm
      rw [if_pos (by simpa using hr'), abs_of_neg ha, neg_mul, hval, neg_neg]
    · have hr' : ¬ (c.relation = .less ∨ c.relation = .leq) := by
        rcases hr with hr | hr <;> rw [hr] <;> simp
      rw [if_neg (by simpa using hr'), abs_of_pos ha, hval, LinearPolynomial.eval_neg]
  · rw [if_neg hl]
    rcases h with ⟨hr, ha⟩ | ⟨hr, ha⟩
    · have hr' : c.relation = .less ∨ c.relation = .leq := hr.symm
      rw [if_pos (by simpa using hr'), abs_of_pos ha, hval, LinearPolynomial.eval_neg]
    · have hr' : ¬ (c.relation = .less ∨ c.relation = .leq) := by
        rcases hr with hr | hr <;> rw [hr] <;> simp
      rw [if_neg (by simpa using hr'), abs_of_neg ha, neg_mul, hval, neg_neg]

end Bounds

/-! ## The partition -/

/-- Conjuncts that are put into the subset of the equations. -/
def isEquation (x : V) (c : LinearConstraint V) : Bool := c.relation = .eq || !c.lhs.hasVariable x

/-- The partition of a conjunction. -/
def partition (x : V) (cs : List (LinearConstraint V)) : FormulaPartition V where
  lowerBounds := cs.filter fun c => !isEquation x c && isLinearLowerBound c x
  upperBounds := cs.filter fun c => !isEquation x c && !isLinearLowerBound c x
  equations := cs.filter (isEquation x)
  unrelated := []

theorem foldl_insertConjunct (x : V) (cs : List (LinearConstraint V)) (res : FormulaPartition V) :
    cs.foldl (insertConjunct x) res =
      { lowerBounds := res.lowerBounds ++ (partition x cs).lowerBounds
        upperBounds := res.upperBounds ++ (partition x cs).upperBounds
        equations := res.equations ++ (partition x cs).equations
        unrelated := res.unrelated } := by
  induction cs generalizing res with
  | nil => simp [partition]
  | cons c cs ih =>
    rw [foldl_cons, ih, insertConjunct, insertRelated]
    split_ifs with hx heq hlow <;> simp_all [partition, isEquation]

variable {cs : List (LinearConstraint V)}

theorem findBounds_and {x : V} (h : fs.mapM asConstraint = some cs) :
    findBounds x (.app .and fs) = some (partition x cs) := by
  rw [findBounds, h, Option.map_some, foldl_insertConjunct]
  simp [FormulaPartition.empty, partition]

omit [DecidableEq V] in
theorem eq_map_atom (h : fs.mapM asConstraint = some cs) : fs = cs.map .atom := by
  induction fs generalizing cs with
  | nil =>
    cases h
    rfl
  | cons f fs ih =>
    rw [mapM_cons] at h
    obtain ⟨c, hc, h⟩ := Option.bind_eq_some_iff.mp h
    obtain ⟨cs', hcs, h⟩ := Option.bind_eq_some_iff.mp h
    cases h
    cases f with
    | atom d =>
      cases hc
      rw [ih hcs, map_cons]
    | const b => cases hc
    | app k gs => cases hc

/-! ## When a variable is eliminated -/

/-- All the conjuncts are bounds, and any two to be combined are weak and have coefficients of the
same size. -/
def Comparable (x : V) (cs : List (LinearConstraint V)) : Prop :=
  (∀ c ∈ cs, ¬ isEquation x c) ∧
    ∀ l ∈ cs, ∀ u ∈ cs, isLinearLowerBound l x → ¬ isLinearLowerBound u x →
      l.relation.isStrict = false ∧ u.relation.isStrict = false ∧
        |l.lhs.coefficient x| = |u.lhs.coefficient x|

/-- Two conjuncts that are taken for equations contradict each other as such, and the conjunction is
unsatisfiable. -/
def Refuted (pool : Pool V) (x : V) (cs : List (LinearConstraint V)) : Prop :=
  (∃ f ∈ cs, isEquation x f ∧ ∃ g ∈ cs, isEquation x g ∧ contradictory pool f g) ∧
    ∀ α, ∃ c ∈ cs, ¬ c.Sat α

/-- The variable does not occur, and no two conjuncts contradict each other as equations. -/
def Unrelated (pool : Pool V) (x : V) (cs : List (LinearConstraint V)) : Prop :=
  (∀ c ∈ cs, ¬ c.lhs.hasVariable x) ∧ ∀ f ∈ cs, ∀ g ∈ cs, ¬ contradictory pool f g

/-- The elimination of the variable takes none of the branches that go wrong. -/
def Eliminable (pool : Pool V) (x : V) : Formula (LinearConstraint V) → Prop
  | .atom c => c.lhs.hasVariable x ∧ c.relation ≠ .eq ∧ c.relation ≠ .neq
  | .app .and fs => ∃ cs, fs.mapM asConstraint = some cs ∧ (∀ c ∈ cs, c.relation ≠ .neq) ∧
      (Comparable x cs ∨ Refuted pool x cs ∨ Unrelated pool x cs)
  | _ => False

/-- The result has the solutions of the formula for some value of the variable, which does not occur
in it any more. -/
structure Eliminates (x : V) (f res : Formula (LinearConstraint V)) : Prop where
  occurs : ∀ y, Occurs y res → y ≠ x ∧ Occurs y f
  satisfies : ∀ α, Satisfies α res ↔ ∃ r, Satisfies (update α x r) f

/-! ### Constraints -/

theorem eliminates_atom (pool : Pool V) {x : V} {c : LinearConstraint V}
    (hx : c.lhs.hasVariable x) (heq : c.relation ≠ .eq) (hneq : c.relation ≠ .neq) :
    ∃ res, eliminateVariable pool (.atom c) x = some res ∧ Eliminates x (.atom c) res := by
  have hbds : eliminateVariable pool (.atom c) x = some (pool.connectives.create .and []) := by
    rw [eliminateVariable, findBounds, if_pos hx, Option.map_some, insertRelated, if_neg heq]
    by_cases hlow : isLinearLowerBound c x <;>
      simp [hlow, createNewConstraints, FormulaPartition.empty]
  refine ⟨_, hbds, fun y hy => ?_, fun α => ?_⟩
  · obtain ⟨f, hf, -⟩ := occurs_create_and hy
    cases hf
  · rw [satisfies_create_and]
    refine iff_of_true nofun ?_
    -- A value on the right side of the limit meets the constraint.
    by_cases hlow : isLinearLowerBound c x
    · refine ⟨(limit x α c).value + 1, (satisfies_atom c).mpr ?_⟩
      rw [sat_bound hx heq hneq, if_pos hlow]
      exact Limit.above_of_lt (lt_add_one _)
    · refine ⟨(limit x α c).value - 1, (satisfies_atom c).mpr ?_⟩
      rw [sat_bound hx heq hneq, if_neg hlow]
      exact Limit.below_of_lt (sub_one_lt _)

/-! ### Conjunctions -/

theorem eliminateVariable_and (pool : Pool V) {x : V} (h : fs.mapM asConstraint = some cs) :
    eliminateVariable pool (.app .and fs) x = some (pool.connectives.create .and
      ((if (partition x cs).equations.isEmpty then createNewConstraints pool (partition x cs) x
        else substituteEquations pool (partition x cs) x)
        ++ (partition x cs).equations.map .atom)) := by
  rw [eliminateVariable, findBounds_and h, Option.map_some]

omit [DecidableEq V] in
theorem satisfies_conjunction {α : V → ℝ} :
    Satisfies α (.app .and (cs.map .atom)) ↔ ∀ c ∈ cs, c.Sat α := by
  rw [satisfies_and]
  simp

theorem vars_getRemainder {c : LinearConstraint V} {x y : V} {b : Bool}
    (h : y ∈ (getRemainder c x b).vars) : y ≠ x ∧ y ∈ c.lhs.vars := by
  have hmem : y ∈ (c.lhs.erase x).vars := by
    rw [getRemainder] at h
    split_ifs at h
    · exact h
    · rwa [LinearPolynomial.vars_neg] at h
    · rwa [LinearPolynomial.vars_neg] at h
    · exact h
  exact (LinearPolynomial.mem_vars_erase.mp hmem).symm

/-- Limits leave a value between them if any two of them do. -/
theorem exists_between_iff (lower upper : List (Limit ℝ)) :
    (∃ v, (∀ l ∈ lower, l.Above v) ∧ ∀ u ∈ upper, u.Below v) ↔
      ∀ l ∈ lower, ∀ u ∈ upper, Limit.Compatible l u := by
  have h := @exists_solution_iff ℝ _ _ _ _ _ lower upper []
  simpa using h

theorem eliminates_comparable (pool : Pool V) {x : V} (h : fs.mapM asConstraint = some cs)
    (hneq : ∀ c ∈ cs, c.relation ≠ .neq) (hcs : Comparable x cs) :
    ∃ res, eliminateVariable pool (.app .and fs) x = some res ∧
      Eliminates x (.app .and fs) res := by
  obtain ⟨hrel, hpair⟩ := hcs
  have heqs : (partition x cs).equations = [] := filter_eq_nil_iff.mpr hrel
  have hlower : (partition x cs).lowerBounds = cs.filter fun c => isLinearLowerBound c x :=
    filter_congr fun c hc => by simp [hrel c hc]
  have hup : (partition x cs).upperBounds = cs.filter fun c => !isLinearLowerBound c x :=
    filter_congr fun c hc => by simp [hrel c hc]
  have hvar : ∀ c ∈ cs, c.lhs.hasVariable x := fun c hc => by
    have := hrel c hc
    simp only [isEquation, Bool.or_eq_true, not_or] at this
    simpa using this.2
  have heq : ∀ c ∈ cs, c.relation ≠ .eq := fun c hc heq => hrel c hc (by simp [isEquation, heq])
  refine ⟨_, eliminateVariable_and pool h, ?_⟩
  rw [heqs, isEmpty_nil, if_pos rfl, map_nil, append_nil, createNewConstraints, hlower, hup]
  constructor
  · intro y hy
    obtain ⟨f, hf, hy⟩ := occurs_create_and hy
    obtain ⟨l, hl, hf⟩ := mem_flatMap.mp hf
    obtain ⟨u, hu, rfl⟩ := mem_map.mp hf
    have hocc : ∀ c ∈ cs, y ∈ c.lhs.vars → Occurs y (.app .and fs) := fun c hc hmem => by
      rw [eq_map_atom h]
      exact occurs_and.mpr ⟨.atom c, mem_map_of_mem hc, occurs_atom.mpr hmem⟩
    rcases LinearPolynomial.vars_sub (occurs_constraint hy) with hmem | hmem
    · obtain ⟨hne, hmem⟩ := vars_getRemainder hmem
      exact ⟨hne, hocc l (mem_filter.mp hl).1 hmem⟩
    · obtain ⟨hne, hmem⟩ := vars_getRemainder hmem
      exact ⟨hne, hocc u (mem_filter.mp hu).1 hmem⟩
  · intro α
    -- The combined constraints say that the limits are compatible.
    have hcompat : ∀ l ∈ cs, ∀ u ∈ cs, isLinearLowerBound l x → ¬ isLinearLowerBound u x →
        ((LinearConstraint.Sat α
            ⟨(getRemainder l x true).sub (getRemainder u x false), .leq⟩) ↔
          Limit.Compatible (limit x α l) (limit x α u)) := by
      intro l hl u hu hll huu
      obtain ⟨hls, hus, habs⟩ := hpair l hl u hu hll huu
      have hle := eval_getRemainder (hvar l hl) (heq l hl) (hneq l hl) α
      have hue := eval_getRemainder (hvar u hu) (heq u hu) (hneq u hu) α
      rw [hll] at hle
      rw [Bool.eq_false_iff.mpr huu] at hue
      have habs' : |(l.lhs.coefficient x : ℝ)| = |(u.lhs.coefficient x : ℝ)| := by
        exact_mod_cast habs
      have hpos : 0 < |(u.lhs.coefficient x : ℝ)| :=
        abs_pos.mpr (cast_coefficient_ne_zero (hvar u hu))
      rw [LinearConstraint.Sat, LinearPolynomial.eval_sub, hle, hue, habs', ← mul_sub]
      have htouch : Limit.Touch (limit x α l) (limit x α u) ↔
          (limit x α l).value = (limit x α u).value :=
        ⟨fun ht => ht.1, fun heq => ⟨heq, hls, hus⟩⟩
      rw [Limit.Compatible, htouch, ← le_iff_lt_or_eq, ← sub_nonpos]
      exact ⟨fun hle => nonpos_of_mul_nonpos_right hle hpos,
        fun hle => mul_nonpos_of_nonneg_of_nonpos hpos.le hle⟩
    have hval : (∃ r, Satisfies (update α x r) (.app .and fs)) ↔
        ∃ r, (∀ l ∈ (cs.filter fun c => isLinearLowerBound c x).map (limit x α), l.Above r) ∧
          ∀ u ∈ (cs.filter fun c => !isLinearLowerBound c x).map (limit x α), u.Below r := by
      refine exists_congr fun r => ?_
      rw [eq_map_atom h, satisfies_conjunction]
      have hbd := fun c hc => sat_bound (hvar c hc) (heq c hc) (hneq c hc) α r
      constructor
      · intro hsat
        refine ⟨fun l hl => ?_, fun u hu => ?_⟩
        · obtain ⟨c, hc, rfl⟩ := mem_map.mp hl
          obtain ⟨hc, hl⟩ := mem_filter.mp hc
          simpa only [if_pos hl] using (hbd c hc).mp (hsat c hc)
        · obtain ⟨c, hc, rfl⟩ := mem_map.mp hu
          obtain ⟨hc, hu⟩ := mem_filter.mp hc
          rw [Bool.not_eq_true'] at hu
          simpa [hu] using (hbd c hc).mp (hsat c hc)
      · rintro ⟨hl, hu⟩ c hc
        rw [hbd c hc]
        split_ifs with hlow
        · exact hl _ (mem_map_of_mem (mem_filter.mpr ⟨hc, hlow⟩))
        · exact hu _ (mem_map_of_mem (mem_filter.mpr ⟨hc, by simpa using hlow⟩))
    rw [hval, exists_between_iff, satisfies_create_and]
    constructor
    · intro hsat l hl u hu
      obtain ⟨c, hc, rfl⟩ := mem_map.mp hl
      obtain ⟨d, hd, rfl⟩ := mem_map.mp hu
      have hpairs := hsat _ (mem_flatMap.mpr ⟨c, hc, mem_map_of_mem hd⟩)
      rw [satisfies_constraint] at hpairs
      obtain ⟨hc, hcl⟩ := mem_filter.mp hc
      obtain ⟨hd, hdu⟩ := mem_filter.mp hd
      exact (hcompat c hc d hd hcl (by simpa using hdu)).mp hpairs
    · intro hcomp f hf
      obtain ⟨c, hc, hf⟩ := mem_flatMap.mp hf
      obtain ⟨d, hd, rfl⟩ := mem_map.mp hf
      rw [satisfies_constraint]
      have hlim := hcomp _ (mem_map_of_mem hc) _ (mem_map_of_mem hd)
      obtain ⟨hc, hcl⟩ := mem_filter.mp hc
      obtain ⟨hd, hdu⟩ := mem_filter.mp hd
      exact (hcompat c hc d hd hcl (by simpa using hdu)).mpr hlim

/-- Two of the equations contradict each other, so that the result is `FALSE`. -/
theorem eliminates_refuted (pool : Pool V) {x : V} (h : fs.mapM asConstraint = some cs)
    (hcs : Refuted pool x cs) :
    ∃ res, eliminateVariable pool (.app .and fs) x = some res ∧
      Eliminates x (.app .and fs) res := by
  obtain ⟨⟨f, hf, hfe, g, hg, hge, hfg⟩, hunsat⟩ := hcs
  have hf' : f ∈ (partition x cs).equations := mem_filter.mpr ⟨hf, hfe⟩
  have hg' : g ∈ (partition x cs).equations := mem_filter.mpr ⟨hg, hge⟩
  have hfires : (partition x cs).equations.any fun f =>
      (partition x cs).equations.any fun g => contradictory pool f g :=
    any_eq_true.mpr ⟨f, hf', any_eq_true.mpr ⟨g, hg', hfg⟩⟩
  refine ⟨.const false, ?_, ?_⟩
  · rw [eliminateVariable_and pool h, if_neg (fun hnil => by
      rw [List.isEmpty_iff.mp hnil] at hf'
      cases hf'), substituteEquations, if_pos hfires]
    exact congrArg some (pool.and_false _ (mem_append_left _ mem_cons_self))
  · refine ⟨fun y hy => ?_, fun α => ?_⟩
    · obtain ⟨c, hc, -⟩ := hy
      exact absurd hc (Formula.mentions_const c false)
    · rw [satisfies_const]
      refine iff_of_false Bool.false_ne_true ?_
      rintro ⟨r, hr⟩
      rw [eq_map_atom h, satisfies_conjunction] at hr
      obtain ⟨c, hc, hnot⟩ := hunsat (update α x r)
      exact hnot (hr c hc)

theorem eliminates_unrelated (pool : Pool V) {x : V} (h : fs.mapM asConstraint = some cs)
    (hcs : Unrelated pool x cs) :
    ∃ res, eliminateVariable pool (.app .and fs) x = some res ∧
      Eliminates x (.app .and fs) res := by
  obtain ⟨hvar, hcontra⟩ := hcs
  have heq : ∀ c ∈ cs, isEquation x c := fun c hc => by simp [isEquation, hvar c hc]
  have heqs : (partition x cs).equations = cs := filter_eq_self.mpr heq
  have hlow : (partition x cs).lowerBounds = [] :=
    filter_eq_nil_iff.mpr fun c hc => by simp [heq c hc]
  have hup : (partition x cs).upperBounds = [] :=
    filter_eq_nil_iff.mpr fun c hc => by simp [heq c hc]
  have hnew : (if (partition x cs).equations.isEmpty then
      createNewConstraints pool (partition x cs) x
      else substituteEquations pool (partition x cs) x) = [] := by
    have hquiet : ¬ cs.any fun f => cs.any fun g => contradictory pool f g := by
      intro hany
      obtain ⟨f, hf, hany⟩ := any_eq_true.mp hany
      obtain ⟨g, hg, hfg⟩ := any_eq_true.mp hany
      exact hcontra f hf g hg hfg
    rw [createNewConstraints, substituteEquations, heqs, hlow, hup, if_neg hquiet]
    cases cs <;> rfl
  refine ⟨_, eliminateVariable_and pool h, ?_⟩
  rw [hnew, heqs, nil_append]
  constructor
  · intro y hy
    obtain ⟨f, hf, hy⟩ := occurs_create_and hy
    obtain ⟨c, hc, rfl⟩ := mem_map.mp hf
    refine ⟨?_, ?_⟩
    · rintro rfl
      exact hvar c hc (decide_eq_true (occurs_atom.mp hy))
    · rw [eq_map_atom h]
      exact occurs_and.mpr ⟨_, hf, hy⟩
  · intro α
    have hsame : ∀ r, Satisfies (update α x r) (.app .and fs) ↔ ∀ c ∈ cs, c.Sat α := by
      intro r
      rw [eq_map_atom h, satisfies_conjunction]
      refine forall₂_congr fun c hc => LinearConstraint.sat_congr fun y hy => ?_
      refine update_of_ne ?_ _ _
      rintro rfl
      exact hvar c hc (decide_eq_true hy)
    simp only [hsame, exists_const, satisfies_create_and]
    simp

variable {f : Formula (LinearConstraint V)}

/-- Where none of the branches that go wrong is taken, the variable is eliminated. -/
theorem eliminateVariable_eliminates (pool : Pool V) {x : V} (hf : Eliminable pool x f) :
    ∃ res, eliminateVariable pool f x = some res ∧ Eliminates x f res := by
  cases f with
  | const b => exact hf.elim
  | atom c => exact eliminates_atom pool hf.1 hf.2.1 hf.2.2
  | app k fs =>
    cases k with
    | and =>
      obtain ⟨cs, h, hneq, hcs | hcs | hcs⟩ := hf
      · exact eliminates_comparable pool h hneq hcs
      · exact eliminates_refuted pool h hcs
      · exact eliminates_unrelated pool h hcs
    | _ => exact hf.elim

/-! ## Prefixes -/

/-- Each variable is eliminated from the formula the ones before it have left. -/
def Admissible (pool : Pool V) : List V → Formula (LinearConstraint V) → Prop
  | [], _ => True
  | x :: xs, f => Eliminable pool x f ∧
      ∀ res, eliminateVariable pool f x = some res → Admissible pool xs res

/-- The result has the solutions of the formula for some values of the variables, none of which
occurs in it any more. -/
structure EliminatesAll (xs : List V) (f res : Formula (LinearConstraint V)) : Prop where
  occurs : ∀ y, Occurs y res → y ∉ xs ∧ Occurs y f
  satisfies : ∀ α, Satisfies α res ↔ ∃ β, (∀ y, y ∉ xs → β y = α y) ∧ Satisfies β f

omit [DecidableEq V] in
theorem eliminatesAll_nil (f : Formula (LinearConstraint V)) : EliminatesAll [] f f where
  occurs := fun _ hy => ⟨not_mem_nil, hy⟩
  satisfies := fun α => by
    constructor
    · exact fun h => ⟨α, fun _ _ => rfl, h⟩
    · rintro ⟨β, hβ, h⟩
      obtain rfl : β = α := funext fun y => hβ y not_mem_nil
      exact h

theorem Eliminates.cons {x : V} {xs : List V} {g res : Formula (LinearConstraint V)}
    (hx : Eliminates x f g) (hxs : EliminatesAll xs g res) : EliminatesAll (x :: xs) f res where
  occurs := by
    intro y hy
    obtain ⟨hyxs, hyg⟩ := hxs.occurs y hy
    obtain ⟨hyx, hyf⟩ := hx.occurs y hyg
    exact ⟨fun hmem => (mem_cons.mp hmem).elim hyx hyxs, hyf⟩
  satisfies := by
    intro α
    rw [hxs.satisfies]
    constructor
    · rintro ⟨β, hβ, hsat⟩
      obtain ⟨r, hr⟩ := (hx.satisfies β).mp hsat
      refine ⟨update β x r, fun y hy => ?_, hr⟩
      obtain ⟨hyx, hyxs⟩ := not_or.mp (mt mem_cons.mpr hy)
      rw [update_of_ne hyx]
      exact hβ y hyxs
    · rintro ⟨γ, hγ, hsat⟩
      refine ⟨update γ x (α x), fun y hy => ?_, (hx.satisfies _).mpr ⟨γ x, ?_⟩⟩
      · by_cases hyx : y = x
        · rw [hyx, update_self]
        · rw [update_of_ne hyx]
          exact hγ y fun hmem => (mem_cons.mp hmem).elim hyx hy
      · rwa [update_idem, update_eq_self]

theorem foldlM_eliminates (pool : Pool V) {xs : List V} (hf : Admissible pool xs f) :
    ∃ res, xs.foldlM (eliminateVariable pool) f = some res ∧ EliminatesAll xs f res := by
  induction xs generalizing f with
  | nil => exact ⟨f, rfl, eliminatesAll_nil f⟩
  | cons x xs ih =>
    obtain ⟨hx, hrest⟩ := hf
    obtain ⟨g, hg, helim⟩ := eliminateVariable_eliminates pool hx
    obtain ⟨res, hres, hall⟩ := ih (hrest g hg)
    refine ⟨res, ?_, helim.cons hall⟩
    rw [foldlM_cons, hg]
    exact hres

/-- The variables of a query are eliminated one after the other. -/
theorem eliminateQuantifiers_eq (pool : Pool V) {mQuery : List (QuantifierType × List V)}
    (hquery : ∀ q ∈ mQuery, q.1 = .exists) (f : Formula (LinearConstraint V)) :
    eliminateQuantifiers pool mQuery f
      = (mQuery.flatMap (·.2)).foldlM (eliminateVariable pool) f := by
  induction mQuery generalizing f with
  | nil => rfl
  | cons q qs ih =>
    have hqs := ih fun p hp => hquery p (mem_cons_of_mem q hp)
    rw [flatMap_cons, foldlM_append, eliminateQuantifiers, foldlM_cons,
      if_pos (hquery q mem_cons_self)]
    exact congrArg _ (funext hqs)

/-- A prefix of existential quantifiers is eliminated if no elimination of one of its variables takes
a branch that goes wrong. -/
theorem eliminateQuantifiers_eliminates (pool : Pool V)
    (mQuery : List (QuantifierType × List V)) (hquery : ∀ q ∈ mQuery, q.1 = .exists)
    (f : Formula (LinearConstraint V)) (hf : Admissible pool (mQuery.flatMap (·.2)) f) :
    ∃ res, eliminateQuantifiers pool mQuery f = some res ∧
      EliminatesAll (mQuery.flatMap (·.2)) f res := by
  rw [eliminateQuantifiers_eq pool hquery]
  exact foldlM_eliminates pool hf

/-- `x0 - x1 + x2 >= 0`. -/
private def lowerExample : LinearConstraint Nat :=
  ⟨⟨[(0, 1), (1, -1), (2, 1)], 0, by decide, by decide⟩, .geq⟩

/-- `x0 + x1 - 5 <= 0`. -/
private def upperExample : LinearConstraint Nat :=
  ⟨⟨[(0, 1), (1, 1)], -5, by decide, by decide⟩, .leq⟩

theorem eliminateQuantifiers_eliminates_two_bounds :
    ∃ res, eliminateQuantifiers (Pool.simplifying Nat) [(.exists, [0, 1])]
        (.app .and [.atom lowerExample, .atom upperExample]) = some res ∧
      EliminatesAll [0, 1] (.app .and [.atom lowerExample, .atom upperExample]) res := by
  have hfst : Eliminable (Pool.simplifying Nat) 0
      (.app .and [.atom lowerExample, .atom upperExample]) := by
    refine ⟨[lowerExample, upperExample], rfl, by decide, .inl ?_⟩
    unfold Comparable
    decide +kernel
  have hres : eliminateVariable (Pool.simplifying Nat)
      (.app .and [.atom lowerExample, .atom upperExample]) 0
      = some (.atom ⟨⟨[(1, 2), (2, -1)], -5, by decide, by decide⟩, .leq⟩) := by
    decide +kernel
  refine eliminateQuantifiers_eliminates (Pool.simplifying Nat) [(.exists, [0, 1])] (by decide) _
    ⟨hfst, fun g hg => ⟨?_, fun _ _ => trivial⟩⟩
  cases hres.symm.trans hg
  exact ⟨by decide, by decide, by decide⟩

/-- `2 * x0 - x1 >= 0`. -/
private def scaledBound : LinearConstraint Nat :=
  ⟨⟨[(0, 2), (1, -1)], 0, by decide, by decide⟩, .geq⟩

/-- `x0 - x2 <= 0`. -/
private def unscaledBound : LinearConstraint Nat :=
  ⟨⟨[(0, 1), (2, -1)], 0, by decide, by decide⟩, .leq⟩

/-- The bounds are compared without division by their coefficients, so that a conjunction of weak
bounds may get too strong. -/
theorem not_eliminatesAll_coefficients :
    ¬ ∀ (pool : Pool Nat) (cs : List (LinearConstraint Nat)) (x : Nat),
        (∀ c ∈ cs, c.relation ≠ .neq) →
        ∃ res, eliminateQuantifiers pool [(.exists, [x])] (.app .and (cs.map .atom)) = some res ∧
          EliminatesAll [x] (.app .and (cs.map .atom)) res := by
  intro hall
  obtain ⟨res, hres, helim⟩ :=
    hall (Pool.simplifying Nat) [scaledBound, unscaledBound] 0 (by decide)
  have heval : eliminateQuantifiers (Pool.simplifying Nat) [(.exists, [0])]
      (.app .and ([scaledBound, unscaledBound].map .atom))
      = some (.atom ⟨⟨[(1, 1), (2, -1)], 0, by decide, by decide⟩, .leq⟩) := by
    decide +kernel
  cases heval.symm.trans hres
  -- With `x1 = 2` and `x2 = 1` the variable may be 1.
  have hsat := (helim.satisfies fun y => if y = 1 then 2 else 1).mpr
    ⟨fun y => if y = 1 then 2 else 1, fun _ _ => rfl, by
      simp [scaledBound, unscaledBound, LinearConstraint.Sat, LinearPolynomial.eval,
        Relation.evaluate]⟩
  norm_num [LinearConstraint.Sat, LinearPolynomial.eval, Relation.evaluate] at hsat

end FourierMotzkinQE

end Smtrat.QE
