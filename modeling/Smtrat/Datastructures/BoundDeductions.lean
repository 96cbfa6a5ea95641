import Smtrat.Datastructures.VariableBoundsRun

/-!
# Bound deductions

Where all variables of a constraint but one have bounds, interval arithmetic gives bounds on the
remaining one.  They follow from the constraint and the bounds, unless an equation is divided by an
interval around zero.
-/

namespace Smtrat.VB

open SparsePoly PropFormula List

universe u v w

/-- `carl::Sign` -/
inductive Sign where
  | negative | zero | positive
deriving DecidableEq

/-- What is used of `carl::Interval` and `carl::IntervalEvaluation`. -/
structure IntervalArithmetic (V : Type u) where
  evaluate : Poly V ℚ → (V → Interval) → Interval
  inverse : Interval → Interval
  /-- Whether the quotient is split into two intervals, and these. -/
  div_ext : Interval → Interval → Bool × Interval × Interval
  contains : Interval → ℚ → Bool
  sgn : Interval → Sign

/-- The results are not too small. -/
structure IntervalArithmetic.Sound {V : Type u} (lib : IntervalArithmetic V) : Prop where
  evaluate : ∀ (p : Poly V ℚ) map (α : V → ℝ), (∀ x ∈ Poly.variables p, (map x).Contains (α x)) →
    (lib.evaluate p map).Contains (Poly.eval α p)
  inverse : ∀ i r, i.Contains r → (lib.inverse i).Contains (-r)
  div_ext : ∀ i j r q, j.Contains r → i.Contains (q * r) → (lib.div_ext i j).2.1.Contains q ∨
    (lib.div_ext i j).1 = true ∧ (lib.div_ext i j).2.2.Contains q
  contains : ∀ i, lib.contains i 0 = false → ¬ i.Contains 0
  sgn : ∀ i r, i.Contains r → ¬ i.Contains 0 → (lib.sgn i = .negative ↔ r < 0)

namespace VariableBounds

variable {V : Type u} {B : Type v} {T : Type w}

/-! ## Deduced bounds -/

/-- The constraint `x ~ limit`. -/
def limitConstraint (x : V) (limit : ℚ) (relation : Relation) : Constraint V :=
  ⟨Poly.sub (Poly.var x) (SparsePoly.Poly.const limit), relation⟩

/-- The bounds from the two quotients of an equation. -/
def splitBounds (x : V) (newBoundsA newBoundsB : Interval) : List (Constraint V) :=
  (match newBoundsA.lower with
    | none => []
    | some (lower, strict) => [limitConstraint x lower (if strict then .leq else .less)]) ++
  match newBoundsB.upper with
  | none => []
  | some (upper, _) =>
    [limitConstraint x upper (if newBoundsA.upper.any (·.2) then .leq else .less)]

/-- The bounds from one quotient. -/
def quotientBounds (x : V) (rel : Relation) (newBoundsA : Interval) : List (Constraint V) :=
  (match newBoundsA.lower with
    | none => []
    | some (lower, strict) =>
      if rel = .eq ∨ rel = .geq ∨ rel = .greater then
        [limitConstraint x lower (if strict ∨ rel = .greater then .greater else .geq)]
      else []) ++
  match newBoundsA.upper with
  | none => []
  | some (upper, strict) =>
    if rel = .eq ∨ rel = .leq ∨ rel = .less then
      [limitConstraint x upper (if strict ∨ rel = .less then .less else .leq)]
    else []

variable [DecidableEq V] (lib : IntervalArithmetic V)

/-- The quotient of the remainder and the coefficient of `x`. -/
def quotient (bounds : V → Interval) (c : Constraint V) (x : V) : Bool × Interval × Interval :=
  lib.div_ext (lib.inverse (lib.evaluate (Poly.coefficient x 0 c.lhs) bounds))
    (lib.evaluate (Poly.coefficient x 1 c.lhs) bounds)

/-- The bounds on `x` that a constraint gives. -/
def deducedBounds (bounds : V → Interval) (c : Constraint V) (x : V) : List (Constraint V) :=
  let varCoeffEvaluated := lib.evaluate (Poly.coefficient x 1 c.lhs) bounds
  match quotient lib bounds c x with
  | (true, newBoundsA, newBoundsB) =>
    if c.relation = .eq then splitBounds x newBoundsA newBoundsB else []
  | (false, newBoundsA, _) =>
    if !lib.contains varCoeffEvaluated 0 || c.relation = .eq then
      quotientBounds x (if lib.sgn varCoeffEvaluated = .negative then c.relation.turnAroundRelation
        else c.relation) newBoundsA
    else []

/-! ## The constraints -/

variable (constraintOf : T → Constraint V)

/-- The loop over the variables of a constraint: those with and without bounds, and the constraints
of the bounds.  It is left with the second variable without bounds. -/
def classify (s : VariableBounds V T) : List V → List V → List V → List (Constraint V) →
    Option (List V × List V × List (Constraint V))
  | [], boundedVars, notBoundedVars, boundConstraints =>
    some (boundedVars, notBoundedVars, boundConstraints)
  | x :: xs, boundedVars, notBoundedVars, boundConstraints =>
    (s.mpVariableMap.lookup x).bind fun var =>
      if !var.mpInfimum.isInfinite || !var.mpSupremum.isInfinite then
        classify s xs (x :: boundedVars) notBoundedVars
          (boundConstraints ++ (s.getOriginsOfBounds x).map constraintOf)
      else if notBoundedVars = [] then classify s xs boundedVars [x] boundConstraints
      else some (boundedVars, x :: notBoundedVars, boundConstraints)

/-- The loop over the constraints: those that are projected to a variable, with the bounds they are
used with.  Where all variables have bounds, the degree that is asked for is not defined; it does not
matter to the deductions. -/
def examine (s : VariableBounds V T) (undefined : Constraint V → Bool) : List (Constraint V) →
    List (List (Constraint V)) →
    Option (List (List (Constraint V) × Constraint V × V) × List (List (Constraint V)))
  | [], mBoundDeductions => some ([], mBoundDeductions)
  | c :: cs, mBoundDeductions =>
    (classify constraintOf s (Poly.variables c.lhs).dedup [] [] []).bind
      fun (boundedVars, notBoundedVars, boundConstraints) =>
        let boundConstraints := boundConstraints ++ [c]
        if boundedVars = [] ∨ 1 < notBoundedVars.length ∨
            (notBoundedVars.head?.elim (undefined c) fun x => 1 < Poly.maxDegree x c.lhs) ∨
            boundConstraints ∈ mBoundDeductions then
          examine s undefined cs mBoundDeductions
        else (examine s undefined cs (boundConstraints :: mBoundDeductions)).map fun r =>
          (notBoundedVars.map (boundConstraints, c, ·) ++ r.1, r.2)

/-- That the intervals of the variables are recorded on the way does not change them. -/
def getBoundDeductions (s : VariableBounds V T) (undefined : Constraint V → Bool)
    (mBoundDeductions : List (List (Constraint V))) :
    Option (List (List (Constraint V) × Constraint V) × List (List (Constraint V))) :=
  (examine constraintOf s undefined s.mNonBoundConstraints mBoundDeductions).map
    fun (examined, mBoundDeductions) =>
      (examined.flatMap fun (boundConstraints, c, x) =>
        (deducedBounds lib (fun y => (s.getInterval y).1) c x).map (boundConstraints, ·),
        mBoundDeductions)

/-! ## One constraint -/

variable {lib} {constraintOf} {x : V} {α : V → ℝ}

omit [DecidableEq V] in
theorem sat_limitConstraint (x : V) (limit : ℚ) (relation : Relation) (α : V → ℝ) :
    (limitConstraint x limit relation).Sat α ↔ relation.evaluate (α x) (limit : ℝ) := by
  rw [Constraint.Sat, limitConstraint, Poly.eval_sub, Poly.eval_var, Poly.eval_const,
    Relation.evaluate_sub_zero, eq_ratCast]

omit [DecidableEq V] in
/-- A value that is related to one in the quotient is within the bounds. -/
theorem sat_quotientBounds {rel : Relation} {a : Interval} {q : ℝ} (hq : a.Contains q)
    (hrel : rel.evaluate (α x) q) : ∀ d ∈ quotientBounds x rel a, d.Sat α := by
  intro d hd
  rcases mem_append.mp hd with hd | hd
  · cases hlower : a.lower with
    | none => simp [hlower] at hd
    | some l =>
      obtain ⟨lower, strict⟩ := l
      have hle := hq.1 lower strict hlower
      simp only [hlower, mem_ite_nil_right, mem_singleton] at hd
      obtain ⟨hlow, rfl⟩ := hd
      rw [sat_limitConstraint]
      cases strict <;> rcases hlow with rfl | rfl | rfl <;>
        simp [Relation.evaluate] at hle hrel ⊢ <;> linarith
  · cases hup : a.upper with
    | none => simp [hup] at hd
    | some u =>
      obtain ⟨upper, strict⟩ := u
      have hle := hq.2 upper strict hup
      simp only [hup, mem_ite_nil_right, mem_singleton] at hd
      obtain ⟨hlow, rfl⟩ := hd
      rw [sat_limitConstraint]
      cases strict <;> rcases hlow with rfl | rfl | rfl <;>
        simp [Relation.evaluate] at hle hrel ⊢ <;> linarith

/-- The value of the variable is related to a quotient of the values of the remainder and the
coefficient. -/
theorem sat_deducedBounds (hlib : lib.Sound) {bounds : V → Interval} {c : Constraint V}
    (hdeg : Poly.maxDegree x c.lhs ≤ 1)
    (hbds : ∀ y ∈ Poly.variables c.lhs, y ≠ x → (bounds y).Contains (α y)) (hc : c.Sat α)
    (hsplit : (quotient lib bounds c x).1 = false) : ∀ d ∈ deducedBounds lib bounds c x, d.Sat α := by
  have hcoeff (k : ℕ) : (lib.evaluate (Poly.coefficient x k c.lhs) bounds).Contains
      (Poly.eval α (Poly.coefficient x k c.lhs)) := by
    refine hlib.evaluate _ _ _ fun y hy => ?_
    obtain ⟨hmem, hne⟩ := Poly.mem_variables_coefficient hy
    exact hbds y hmem hne
  have hone := hcoeff 1
  have hzero := hlib.inverse _ _ (hcoeff 0)
  rw [Constraint.Sat, Poly.eval_linear α x c.lhs hdeg] at hc
  generalize Poly.eval α (Poly.coefficient x 1 c.lhs) = r at hone hc
  generalize Poly.eval α (Poly.coefficient x 0 c.lhs) = t at hzero hc
  -- every quotient is in the first interval
  have hquot (q : ℝ) (hq : q * r = -t) : (quotient lib bounds c x).2.1.Contains q := by
    have hdiv := hlib.div_ext _ _ r q hone (hq ▸ hzero)
    refine hdiv.resolve_right fun hright => ?_
    rw [quotient, hright.1] at hsplit
    cases hsplit
  intro d hd
  rw [deducedBounds] at hd
  generalize hres : quotient lib bounds c x = result at hd hsplit hquot
  obtain ⟨_, a, b⟩ := result
  obtain rfl : _ = false := hsplit
  simp only [mem_ite_nil_right] at hd
  obtain ⟨hcase, hd⟩ := hd
  by_cases heq : c.relation = .eq
  · rw [heq] at hc hd
    have hq : α x * r = -t := by
      have hc : r * α x + t = 0 := hc
      linarith
    refine sat_quotientBounds (hquot _ hq) ?_ d hd
    split_ifs <;> rfl
  · have hnot : lib.contains (lib.evaluate (Poly.coefficient x 1 c.lhs) bounds) 0 = false := by
      simpa [heq] using hcase
    have hnonzero := hlib.contains _ hnot
    have hr : r ≠ 0 := fun hr => hnonzero (hr ▸ hone)
    have hsign := hlib.sgn _ r hone hnonzero
    refine sat_quotientBounds (hquot (-t / r) (div_mul_cancel₀ _ hr)) ?_ d hd
    have hfac : r * α x + t = r * (α x - -t / r) := by
      field_simp
      ring
    rw [hfac, Relation.evaluate_mul_zero _ hr, Relation.evaluate_sub_zero] at hc
    simpa only [hsign] using hc

/-! ## The bounds that are used -/

variable {s : VariableBounds V T} {bounds : List (Constraint V × T)}

/-- The constraints of the first origins of its bounds confine a variable to its interval. -/
theorem Stores.contains_of_origins (h : s.Stores bounds)
    (hagree : ∀ p ∈ bounds, constraintOf p.2 = p.1)
    (hsat : ∀ o ∈ s.getOriginsOfBounds x, (constraintOf o).Sat α) :
    (s.getInterval x).1.Contains (α x) := by
  obtain ⟨lower, upper, horigs, hlow, hup⟩ := h.sound_origins x
  rw [horigs] at hsat
  constructor
  · intro l strict hl
    obtain ⟨p, hp, rfl, b, hb, hbd, hlim⟩ := hlow.2 _ hl
    have hp := hsat p.2 (mem_append_left _ (by simp))
    rw [hagree p ‹_›, sat_boundOf hb] at hp
    obtain ⟨l', hl', heq⟩ := Option.map_eq_some_iff.mp hlim
    obtain ⟨rfl, rfl⟩ := Prod.mk.inj heq
    simpa using hp.2 hbd _ hl'
  · intro u strict hu
    obtain ⟨p, hp, rfl, b, hb, hbd, hlim⟩ := hup.2 _ hu
    have hp := hsat p.2 (mem_append_right _ (by simp))
    rw [hagree p ‹_›, sat_boundOf hb] at hp
    obtain ⟨u', hu', heq⟩ := Option.map_eq_some_iff.mp hlim
    obtain ⟨rfl, rfl⟩ := Prod.mk.inj heq
    simpa using hp.1 hbd _ hu'

/-- All variables are classified if at most one has no bounds, and those with bounds add theirs. -/
theorem classify_spec {xs boundedVars notBoundedVars bounded notBounded : List V}
    {boundConstraints cs : List (Constraint V)}
    (hclass : classify constraintOf s xs boundedVars notBoundedVars boundConstraints
      = some (bounded, notBounded, cs)) (hlen : notBounded.length ≤ 1)
    (horigs : ∀ y ∈ boundedVars, ∀ o ∈ s.getOriginsOfBounds y, constraintOf o ∈ boundConstraints) :
    (∀ y, y ∈ xs ∨ y ∈ boundedVars ∨ y ∈ notBoundedVars → y ∈ bounded ∨ y ∈ notBounded) ∧
      ∀ y ∈ bounded, ∀ o ∈ s.getOriginsOfBounds y, constraintOf o ∈ cs := by
  induction xs generalizing boundedVars notBoundedVars boundConstraints with
  | nil =>
    obtain ⟨rfl, rfl, rfl⟩ := by simpa [classify] using hclass
    exact ⟨fun y hy => hy.resolve_left not_mem_nil, horigs⟩
  | cons x xs ih =>
    obtain ⟨var, -, h⟩ := Option.bind_eq_some_iff.mp hclass
    split_ifs at h with hbounded hnone
    · obtain ⟨hall, horigs'⟩ := ih h (by
        intro y hy o ho
        rcases mem_cons.mp hy with rfl | hy
        · exact mem_append_right _ (mem_map_of_mem ho)
        · exact mem_append_left _ (horigs y hy o ho))
      refine ⟨fun y hy => hall y ?_, horigs'⟩
      simp only [mem_cons] at hy ⊢
      tauto
    · subst hnone
      obtain ⟨hall, horigs'⟩ := ih h horigs
      refine ⟨fun y hy => hall y ?_, horigs'⟩
      simp only [mem_cons, not_mem_nil, or_false] at hy ⊢
      tauto
    · obtain ⟨-, rfl, -⟩ := by simpa using h
      have hpos := length_pos_iff.mpr hnone
      rw [length_cons] at hlen
      omega

/-- The constraint is projected to `x`, the only one of its variables without bounds. -/
def ProjectedTo (constraintOf : T → Constraint V) (s : VariableBounds V T)
    (mBoundDeductions : List (List (Constraint V))) (boundConstraints : List (Constraint V))
    (c : Constraint V) (x : V) : Prop :=
  ∃ boundedVars cs, classify constraintOf s (Poly.variables c.lhs).dedup [] [] [] =
      some (boundedVars, [x], cs) ∧ boundedVars ≠ [] ∧ Poly.maxDegree x c.lhs ≤ 1 ∧
    boundConstraints = cs ++ [c] ∧ boundConstraints ∉ mBoundDeductions

theorem mem_examine_iff {undefined : Constraint V → Bool} {cs : List (Constraint V)}
    {memo memo' : List (List (Constraint V))}
    {examined : List (List (Constraint V) × Constraint V × V)}
    (h : examine constraintOf s undefined cs memo = some (examined, memo'))
    (e : List (Constraint V) × Constraint V × V) : e ∈ examined ↔
      e.2.1 ∈ cs ∧ ProjectedTo constraintOf s memo e.1 e.2.1 e.2.2 := by
  obtain ⟨boundConstraints, c, x⟩ := e
  induction cs generalizing memo memo' examined with
  | nil =>
    obtain ⟨rfl, -⟩ := by simpa [examine] using h
    simp
  | cons c' cs ih =>
    obtain ⟨⟨bounded, notBounded, bs⟩, hclass, h⟩ := Option.bind_eq_some_iff.mp h
    dsimp only at h ih ⊢
    -- what it means for this constraint to be projected
    have hprojected : ProjectedTo constraintOf s memo boundConstraints c' x ↔
        bounded ≠ [] ∧ notBounded = [x] ∧ Poly.maxDegree x c'.lhs ≤ 1 ∧
          boundConstraints = bs ++ [c'] ∧ bs ++ [c'] ∉ memo := by
      simp only [ProjectedTo, hclass, Option.some.injEq, Prod.mk.injEq]
      constructor
      · rintro ⟨_, _, ⟨rfl, rfl, rfl⟩, hne, hdeg, rfl, hmemo⟩
        exact ⟨hne, rfl, hdeg, rfl, hmemo⟩
      · rintro ⟨hne, rfl, hdeg, rfl, hmemo⟩
        exact ⟨_, _, ⟨rfl, rfl, rfl⟩, hne, hdeg, rfl, hmemo⟩
    split_ifs at h with hskip
    · rw [ih h, mem_cons, or_and_right, eq_comm (a := c)]
      refine (or_iff_right ?_).symm
      rintro ⟨rfl, hproj⟩
      obtain ⟨hne, rfl, hdeg, rfl, hmemo⟩ := hprojected.mp hproj
      simp only [hne, hmemo, length_singleton, lt_irrefl, head?_cons, Option.elim_some,
        decide_eq_true_eq, hdeg.not_gt, or_self] at hskip
    · simp only [not_or, not_lt] at hskip
      obtain ⟨hne, hlen, hdeg, hmemo⟩ := hskip
      obtain ⟨⟨rest, memo''⟩, hrest, h⟩ := Option.map_eq_some_iff.mp h
      obtain ⟨rfl, -⟩ := Prod.mk.inj h
      rw [mem_append, ih hrest, mem_map, mem_cons]
      constructor
      · rintro (⟨a, ha, heq⟩ | ⟨hmem, bounded', cs', hclass', hne', hdeg', heq, hmemo'⟩)
        · obtain ⟨rfl, rfl, rfl⟩ := by simpa using heq
          obtain ⟨b, rfl⟩ := length_eq_one_iff.mp (hlen.antisymm (length_pos_of_mem ha))
          obtain rfl := mem_singleton.mp ha
          exact ⟨.inl rfl, hprojected.mpr ⟨hne, rfl, by simpa using hdeg, rfl, hmemo⟩⟩
        · exact ⟨.inr hmem, bounded', cs', hclass', hne', hdeg', heq,
            fun hmem => hmemo' (mem_cons_of_mem _ hmem)⟩
      · rintro ⟨hmem, hproj⟩
        by_cases hsame : c = c'
        · subst hsame
          obtain ⟨-, rfl, -, rfl, -⟩ := hprojected.mp hproj
          exact .inl ⟨x, mem_singleton_self x, rfl⟩
        · obtain ⟨bounded', cs', hclass', hne', hdeg', heq, hmemo'⟩ := hproj
          refine .inr ⟨hmem.resolve_left hsame, bounded', cs', hclass', hne', hdeg', heq, ?_⟩
          -- the constraint is the last of those that are remembered
          rw [mem_cons, not_or, heq]
          exact ⟨fun hlast => hsame (append_inj_right' hlast rfl |> singleton_inj.mp), heq ▸ hmemo'⟩

/-! ## Runs -/

/-- Every assignment that meets the premises meets the bound. -/
def ValidDeduction (d : List (Constraint V) × Constraint V) : Prop :=
  ∀ α : V → ℝ, (∀ p ∈ d.1, p.Sat α) → d.2.Sat α

/-- A value that the two quotients of an equation do not put below the ends taken for bounds. -/
def NotBelow (newBoundsA newBoundsB : Interval) (r : ℝ) : Prop :=
  (∃ lower strict, newBoundsA.lower = some (lower, strict) ∧
    if strict then (lower : ℝ) < r else (lower : ℝ) ≤ r) ∨
  ∃ upper strict, newBoundsB.upper = some (upper, strict) ∧
    if newBoundsA.upper.any (·.2) then (upper : ℝ) < r else (upper : ℝ) ≤ r

omit [DecidableEq V] in
theorem sat_splitBounds_iff (a b : Interval) (x : V) (α : V → ℝ) :
    (∀ d ∈ splitBounds x a b, d.Sat α) ↔ ¬ NotBelow a b (α x) := by
  rw [splitBounds, forall_mem_append, NotBelow, not_or]
  refine and_congr ?_ ?_
  · rcases a.lower with _ | ⟨lower, strict⟩
    · simp
    · cases strict <;> simp [sat_limitConstraint, Relation.evaluate]
  · rcases b.upper with _ | ⟨upper, strict⟩
    · simp
    · cases hstr : a.upper.any (·.2) <;> simp [sat_limitConstraint, Relation.evaluate]

theorem deducedBounds_of_split {bounds : V → Interval} {c : Constraint V}
    (hsplit : (quotient lib bounds c x).1 = true) : deducedBounds lib bounds c x =
      if c.relation = .eq then
        splitBounds x (quotient lib bounds c x).2.1 (quotient lib bounds c x).2.2 else [] := by
  rw [deducedBounds]
  generalize quotient lib bounds c x = result at hsplit ⊢
  obtain ⟨_, a, b⟩ := result
  obtain rfl : _ = true := hsplit
  rfl

variable [LinearOrder T]

/-- The origins of the bounds that remain are those they were added with. -/
theorem run_stores {actions : List (Action V B T)} (hadd : ∀ f o, .addBound f o ∈ actions →
      f = .atom (.constraint (constraintOf o))) {s' : VariableBounds V T} (h : s.Stores bounds)
    (hagree : ∀ p ∈ bounds, constraintOf p.2 = p.1) (hs : Run.run step s actions = some s') :
    ∃ bounds', s'.Stores bounds' ∧ ∀ p ∈ bounds', constraintOf p.2 = p.1 := by
  induction actions generalizing s bounds with
  | nil =>
    cases hs
    exact ⟨bounds, h, hagree⟩
  | cons a as ih =>
    obtain ⟨s₁, hstep, hrun⟩ := Run.run_cons.mp hs
    have hadd' : ∀ f o, .addBound f o ∈ as → f = .atom (.constraint (constraintOf o)) :=
      fun f o hmem => hadd f o (mem_cons_of_mem a hmem)
    cases a with
    | addBound f o =>
      obtain rfl := hadd f o mem_cons_self
      obtain ⟨⟨r, s₂⟩, hform, rfl⟩ := Option.map_eq_some_iff.mp hstep
      have hlen : (boundsOf (.atom (.constraint (constraintOf o)) : Formula (Atom V B))).length ≤ 1 :=
        length_filter_le _ _
      obtain ⟨-, hadds⟩ := addFormula_spec hlen s bounds h r s₂ hform
      refine ih hadd' hadds.stores (fun p hp => ?_) hrun
      rcases mem_append.mp hp with hp | hp
      · exact hagree p hp
      · obtain ⟨c, hc, rfl⟩ := mem_map.mp hp
        exact (mem_singleton.mp (mem_filter.mp hc).1).symm
    | removeBound f o =>
      rw [step, removeFormula_eq] at hstep
      refine ih hadd' (removeAll_spec h hstep).1 (fun p hp => hagree p ?_) hrun
      exact List.foldlRecOn (motive := fun bs => p ∈ bs → p ∈ bounds) _ _ id
        (fun bs hbs c _ hp => hbs (mem_of_mem_eraseBound hp)) hp
    | getInterval x =>
      cases hstep
      exact ih hadd' (h.getInterval x) hagree hrun

/-- Where the division of an equation gives two quotients, no solution is above the ends that are
taken for bounds. -/
def SplitsAvoided (lib : IntervalArithmetic V) (constraintOf : T → Constraint V)
    (s : VariableBounds V T) (mBoundDeductions : List (List (Constraint V))) : Prop :=
  ∀ c ∈ s.mNonBoundConstraints, ∀ x boundConstraints,
    ProjectedTo constraintOf s mBoundDeductions boundConstraints c x → c.relation = .eq →
    (quotient lib (fun y => (s.getInterval y).1) c x).1 = true →
    ∀ α : V → ℝ, (∀ p ∈ boundConstraints, p.Sat α) →
      ¬ NotBelow (quotient lib (fun y => (s.getInterval y).1) c x).2.1
        (quotient lib (fun y => (s.getInterval y).1) c x).2.2 (α x)

/-- Intervals of constants and variables, and the quotient of `-1` and `[-1, 1]`. -/
def exampleArithmetic : IntervalArithmetic ℕ where
  evaluate p map :=
    match p with
    | [⟨q, []⟩] => ⟨some (q, false), some (q, false)⟩
    | [⟨1, [(y, 1)]⟩] => map y
    | _ => ⟨none, none⟩
  inverse i := ⟨i.upper.map fun u => (-u.1, u.2), i.lower.map fun l => (-l.1, l.2)⟩
  div_ext i j :=
    if i = ⟨some (-1, false), some (-1, false)⟩ ∧ j = ⟨some (-1, false), some (1, false)⟩ then
      (true, ⟨some (1, false), none⟩, ⟨none, some (-1, false)⟩)
    else (false, ⟨none, none⟩, ⟨none, none⟩)
  contains i q := i.lower.all (fun l => if l.2 then l.1 < q else l.1 ≤ q) &&
    i.upper.all fun u => if u.2 then q < u.1 else q ≤ u.1
  sgn i := if i.upper.any (·.1 ≤ 0) then .negative else .positive

theorem exampleArithmetic_sound : exampleArithmetic.Sound where
  evaluate p map α h := by
    dsimp only [exampleArithmetic]
    split
    · simp [Interval.Contains, Term.eval]
    · simpa [Term.eval] using h _ (by simp [Poly.variables])
    · simp [Interval.Contains]
  inverse i r h := by
    refine ⟨fun l strict hl => ?_, fun u strict hu => ?_⟩
    · obtain ⟨u, hu, heq⟩ := Option.map_eq_some_iff.mp hl
      obtain ⟨rfl, rfl⟩ := Prod.mk.inj heq
      simpa using h.2 _ _ hu
    · obtain ⟨l, hl, heq⟩ := Option.map_eq_some_iff.mp hu
      obtain ⟨rfl, rfl⟩ := Prod.mk.inj heq
      simpa using h.1 _ _ hl
  div_ext i j r q hr hq := by
    dsimp only [exampleArithmetic]
    split_ifs with hij
    · obtain ⟨rfl, rfl⟩ := hij
      obtain ⟨hlower, hupper⟩ : -1 ≤ q * r ∧ q * r ≤ -1 := by simpa [Interval.Contains] using hq
      obtain ⟨hlow, hup⟩ : -1 ≤ r ∧ r ≤ 1 := by simpa [Interval.Contains] using hr
      have hone : 1 ≤ q ∨ q ≤ -1 := by
        by_contra! hlt
        have habs : |q * r| < 1 := by
          rw [abs_mul]
          exact mul_lt_one_of_nonneg_of_lt_one_left (abs_nonneg q) (abs_lt.mpr ⟨hlt.2, hlt.1⟩)
            (abs_le.mpr ⟨hlow, hup⟩)
        exact absurd hupper (not_le.mpr (abs_lt.mp habs).1)
      simpa [Interval.Contains] using hone
    · simp [Interval.Contains]
  contains i h hzero := by
    have hcont : exampleArithmetic.contains i 0 = true := by
      rw [exampleArithmetic, Bool.and_eq_true, Option.all_eq_true, Option.all_eq_true]
      refine ⟨fun l hl => ?_, fun u hu => ?_⟩
      · have hle := hzero.1 l.1 l.2 hl
        cases hstr : l.2 <;> simpa [hstr] using hle
      · have hle := hzero.2 u.1 u.2 hu
        cases hstr : u.2 <;> simpa [hstr] using hle
    rw [hcont] at h
    cases h
  sgn i r hr hzero := by
    have hne : r ≠ 0 := fun h => hzero (h ▸ hr)
    have hsgn : exampleArithmetic.sgn i = .negative ↔ i.upper.any (·.1 ≤ 0) := by
      simp [exampleArithmetic]
    rw [hsgn, Option.any_eq_true]
    constructor
    · rintro ⟨⟨u, strict⟩, hu, hle⟩
      have hupper := hr.2 u strict hu
      have hle : (u : ℝ) ≤ 0 := by simpa using hle
      refine lt_of_le_of_ne ?_ hne
      cases strict <;> simp at hupper <;> linarith
    · intro hneg
      by_contra! hnot
      refine hzero ⟨fun l strict hl => ?_, fun u strict hu => ?_⟩
      · have hlower := hr.1 l strict hl
        have hcast : (l : ℝ) < 0 := by cases strict <;> simp at hlower <;> linarith
        have hlt : l < 0 := Rat.cast_lt_zero.mp hcast
        cases strict <;> simp [hlt, hlt.le]
      · have hpos : 0 < u := by simpa using hnot (u, strict) hu
        cases strict <;> simp [hpos, hpos.le]

/-- `y + 1 ≥ 0`, `y - 1 ≤ 0` and `y * x + 1 = 0` -/
def exampleConstraints : ℕ → Constraint ℕ
  | 1 => ⟨[⟨1, [(0, 1)]⟩, ⟨1, []⟩], .geq⟩
  | 2 => ⟨[⟨1, [(0, 1)]⟩, ⟨-1, []⟩], .leq⟩
  | _ => ⟨[⟨1, [(0, 1), (1, 1)]⟩, ⟨1, []⟩], .eq⟩

def exampleActions : List (Action ℕ ℕ ℕ) :=
  [1, 2, 3].map fun o => .addBound (.atom (.constraint (exampleConstraints o))) o

theorem exampleActions_origins (f : Formula (Atom ℕ ℕ)) (o : ℕ)
    (h : .addBound f o ∈ exampleActions) : f = .atom (.constraint (exampleConstraints o)) := by
  obtain ⟨_, -, heq⟩ := mem_map.mp h
  cases heq
  rfl

theorem exists_example : ∃ s, Run.run step initial exampleActions = some s ∧ ∃ memo,
    getBoundDeductions exampleArithmetic exampleConstraints s (fun _ => false) [] =
      some ([([1, 2, 3].map exampleConstraints, limitConstraint 1 1 .less),
        ([1, 2, 3].map exampleConstraints, limitConstraint 1 (-1) .less)], memo) := by
  have hsome : (Run.run step initial exampleActions).any fun s =>
      (getBoundDeductions exampleArithmetic exampleConstraints s (fun _ => false) []).any fun r =>
        r.1 = [([1, 2, 3].map exampleConstraints, limitConstraint 1 1 .less),
          ([1, 2, 3].map exampleConstraints, limitConstraint 1 (-1) .less)] := by decide +kernel
  obtain ⟨s, hs, h⟩ := (Option.any_eq_true _ _).mp hsome
  obtain ⟨⟨_, memo⟩, hr, heq⟩ := (Option.any_eq_true _ _).mp h
  obtain rfl := of_decide_eq_true heq
  exact ⟨s, hs, memo, hr⟩

end VariableBounds

end Smtrat.VB
