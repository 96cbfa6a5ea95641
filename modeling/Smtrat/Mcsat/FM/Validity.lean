import Smtrat.Mcsat.FM.Explanation

/-!
# Fourier-Motzkin explanations are valid and exclude the current assignment

A bound `p * x ~ q` with `p ≠ 0` says where `x` lies relative to `q / p`, in the direction given
by the relation and the sign of `p`.  The literal about the cross product of two bounds compares
`l.q / l.p` with `u.q / u.p` once the sign of `l.p * u.p` is known
(`evaluate_crossProduct`); everything else is read off these two facts, once over `ℝ` for the
validity of a clause and once over `ℚ` for its value under the model.
-/

namespace Smtrat.Mcsat.FM

open SparsePoly List

universe u v

variable {σ : Type u} [DecidableEq σ]

/-! ## What a collected bound is -/

/-- The bound was computed from its constraint under the model. -/
structure Bound.WF (mModel : σ → ℚ) (x : σ) (b : Bound σ) : Prop where
  degree : b.constr.lhs.maxDegree x ≤ 1
  p_eq : b.p = b.constr.lhs.coefficient x 1
  q_eq : b.q = remainder x b.constr
  p_ne : b.p.eval mModel ≠ 0
  r_eq : b.r = b.q.eval mModel / b.p.eval mModel
  neg_eq : b.neg = decide (b.p.eval mModel < 0)

/-- The bound restricts `x` from below. -/
def Bound.IsLower (b : Bound σ) : Prop :=
  match b.constr.relation with
  | .less | .leq => b.neg = true
  | .eq => True
  | .neq => False
  | .geq | .greater => b.neg = false

/-- The bound restricts `x` from above. -/
def Bound.IsUpper (b : Bound σ) : Prop :=
  match b.constr.relation with
  | .less | .leq => b.neg = false
  | .eq => True
  | .neq => False
  | .geq | .greater => b.neg = true

variable {b : Bound σ}

section Field

variable {K : Type v} [Field K] [LinearOrder K] [IsStrictOrderedRing K] [Algebra ℚ K]

omit [LinearOrder K] [IsStrictOrderedRing K] in
theorem eval_remainder (α : σ → K) (x : σ) (c : Constraint σ) :
    (remainder x c).eval α = (c.lhs.coefficient x 1).eval α * α x - c.lhs.eval α := by
  simp [remainder]

variable {mModel : σ → ℚ} {x : σ}

/-- The constraint of a bound says `p * x ~ q`. -/
theorem Bound.sat_iff (hb : b.WF mModel x) (α : σ → K) :
    b.constr.Sat α ↔ b.constr.relation.evaluate (b.p.eval α * α x) (b.q.eval α) := by
  have hlhs : b.constr.lhs.eval α = b.p.eval α * α x - b.q.eval α := by
    rw [hb.p_eq, hb.q_eq, eval_remainder]
    ring
  unfold Constraint.Sat
  rw [hlhs, Relation.evaluate_sub_zero]

/-- The sign of `p` at `α` is the one it has under the model. -/
def Bound.SignOk (α : σ → K) (b : Bound σ) : Prop :=
  if b.neg then b.p.eval α < 0 else 0 < b.p.eval α

omit [DecidableEq σ] [IsStrictOrderedRing K] in
theorem sat_sideConditionLoUp (α : σ → K) (b : Bound σ) :
    (sideConditionLoUp b).Sat α ↔ b.SignOk α := by
  unfold sideConditionLoUp Bound.SignOk Constraint.Sat
  cases b.neg <;> simp [Relation.evaluate]

omit [DecidableEq σ] [IsStrictOrderedRing K] in
theorem sat_sideCondition (α : σ → K) (b : Bound σ) :
    (sideCondition b).Sat α ↔ b.p.eval α ≠ 0 := Iff.rfl

variable {α : σ → K}

omit [DecidableEq σ] [IsStrictOrderedRing K] in
theorem Bound.SignOk.ne (h : b.SignOk α) : b.p.eval α ≠ 0 := by
  unfold Bound.SignOk at h
  split at h
  · exact h.ne
  · exact h.ne'

/-- A bound with the right sign compares `x` with `q / p`. -/
theorem Bound.SignOk.sat_iff (hs : b.SignOk α) (hb : b.WF mModel x) : b.constr.Sat α ↔
    (if b.neg then b.constr.relation.turnAroundRelation else b.constr.relation).evaluate (α x)
      (b.q.eval α / b.p.eval α) := by
  have hneg : b.p.eval α < 0 ↔ b.neg = true := by
    unfold Bound.SignOk at hs
    split_ifs at hs with hneg
    · exact iff_of_true hs hneg
    · exact iff_of_false hs.not_gt hneg
  rw [Bound.sat_iff hb, Relation.evaluate_mul _ hs.ne]
  simp only [hneg]

/-- A lower bound that holds puts `q / p` below `x`, strictly if its relation is strict. -/
theorem Bound.IsLower.le (hl : b.IsLower)
    (hb : b.WF mModel x) (hs : b.SignOk α) (h : b.constr.Sat α) :
    b.q.eval α / b.p.eval α ≤ α x ∧
      (b.constr.relation.isStrict → b.q.eval α / b.p.eval α < α x) := by
  rw [hs.sat_iff hb] at h
  unfold Bound.IsLower at hl
  cases hrel : b.constr.relation <;> rw [hrel] at h hl <;>
    simp_all [Relation.evaluate, Relation.turnAroundRelation, Relation.isStrict, le_of_lt]

/-- An upper bound that holds puts `q / p` above `x`, strictly if its relation is strict. -/
theorem Bound.IsUpper.le (hu : b.IsUpper)
    (hb : b.WF mModel x) (hs : b.SignOk α) (h : b.constr.Sat α) :
    α x ≤ b.q.eval α / b.p.eval α ∧
      (b.constr.relation.isStrict → α x < b.q.eval α / b.p.eval α) := by
  rw [hs.sat_iff hb] at h
  unfold Bound.IsUpper at hu
  cases hrel : b.constr.relation <;> rw [hrel] at h hu <;>
    simp_all [Relation.evaluate, Relation.turnAroundRelation, Relation.isStrict, le_of_lt]

/-! ## The literal about the cross product -/

variable {l u : Bound σ}

omit [DecidableEq σ] [LinearOrder K] [IsStrictOrderedRing K] in
theorem eval_crossProduct (α : σ → K) (hl : l.p.eval α ≠ 0) (hu : u.p.eval α ≠ 0) :
    (crossProduct l u).eval α =
      l.p.eval α * u.p.eval α * (l.q.eval α / l.p.eval α - u.q.eval α / u.p.eval α) := by
  simp only [crossProduct, Poly.eval_sub, Poly.eval_mul]
  field_simp

/-- The relation chosen by `conflictLowerAndUpperBound`. -/
def loUpRelation (l u : Bound σ) : Relation :=
  if xor l.neg u.neg then (if strict l u then .greater else .geq)
  else (if strict l u then .less else .leq)

omit [DecidableEq σ] in
/-- The product of the two coefficients is negative exactly if one of them is. -/
theorem Bound.SignOk.mul (hl : l.SignOk α) (hu : u.SignOk α) :
    if xor l.neg u.neg then l.p.eval α * u.p.eval α < 0 else 0 < l.p.eval α * u.p.eval α := by
  unfold Bound.SignOk at hl hu
  cases hln : l.neg <;> cases hun : u.neg <;>
    simp only [hln, hun, if_true, if_false, Bool.false_eq_true, Bool.xor_false, Bool.xor_true,
      Bool.not_true, Bool.not_false] at hl hu ⊢
  · exact mul_pos hl hu
  · exact mul_neg_of_pos_of_neg hl hu
  · exact mul_neg_of_neg_of_pos hl hu
  · exact mul_pos_of_neg_of_neg hl hu

omit [DecidableEq σ] in
/-- With the signs of the model, the literal compares the two quotients. -/
theorem evaluate_crossProduct (hl : l.SignOk α) (hu : u.SignOk α) :
    (loUpRelation l u).evaluate ((crossProduct l u).eval α) 0 ↔
      (if strict l u then l.q.eval α / l.p.eval α < u.q.eval α / u.p.eval α
        else l.q.eval α / l.p.eval α ≤ u.q.eval α / u.p.eval α) := by
  rw [eval_crossProduct α hl.ne hu.ne]
  have hmul := hl.mul hu
  unfold loUpRelation
  generalize l.p.eval α * u.p.eval α = s at hmul
  rw [← sub_neg, ← sub_nonpos]
  generalize l.q.eval α / l.p.eval α - u.q.eval α / u.p.eval α = d
  by_cases hx : xor l.neg u.neg = true <;> by_cases hst : strict l u = true <;>
    simp only [hx, hst, if_true, if_false, Bool.false_eq_true, Relation.evaluate] at hmul ⊢
  · exact smul_pos_iff_of_neg_left hmul
  · exact not_lt.symm.trans ((not_congr (smul_neg_iff_of_neg_left hmul)).trans not_lt)
  · exact smul_neg_iff_of_pos_left hmul
  · exact not_lt.symm.trans ((not_congr (smul_pos_iff_of_pos_left hmul)).trans not_lt)

omit [DecidableEq σ] [LinearOrder K] [IsStrictOrderedRing K] in
/-- The cross product vanishes exactly if the two quotients agree. -/
theorem crossProduct_eq_zero_iff (hl : l.p.eval α ≠ 0) (hu : u.p.eval α ≠ 0) :
    (crossProduct l u).eval α = 0 ↔ l.q.eval α / l.p.eval α = u.q.eval α / u.p.eval α := by
  rw [eval_crossProduct α hl hu, mul_eq_zero, sub_eq_zero]
  exact or_iff_right (mul_ne_zero hl hu)

/-- A disequality that holds keeps `x` off `q / p`. -/
theorem Bound.ne_of_sat_neq (hb : b.WF mModel x)
    (hrel : b.constr.relation = .neq) (hp : b.p.eval α ≠ 0) (h : b.constr.Sat α) :
    b.q.eval α / b.p.eval α ≠ α x := by
  rw [Bound.sat_iff hb, hrel, Relation.evaluate_mul _ hp] at h
  exact Ne.symm (by simpa [Relation.turnAroundRelation, Relation.evaluate] using h)

/-- An equality that holds puts `x` on `q / p`. -/
theorem Bound.eq_of_sat_eq (hb : b.WF mModel x)
    (hrel : b.constr.relation = .eq) (hp : b.p.eval α ≠ 0) (h : b.constr.Sat α) :
    b.q.eval α / b.p.eval α = α x := by
  rw [Bound.sat_iff hb, hrel, Relation.evaluate_mul _ hp] at h
  exact Eq.symm (by simpa [Relation.turnAroundRelation, Relation.evaluate] using h)

/-! ## Validity of the clauses -/

/-- Some literal of the clause holds at `α`. -/
def Clause.Sat (α : σ → K) (c : Clause σ) : Prop := ∃ l ∈ c, l.Sat α

theorem conflictLowerAndUpperBound_sat
    (hl : l.WF mModel x) (hll : l.IsLower) (hu : u.WF mModel x) (huu : u.IsUpper) (α : σ → K) :
    (conflictLowerAndUpperBound l u).Sat α := by
  by_contra hno
  have hfalse : ∀ lit ∈ conflictLowerAndUpperBound l u, ¬ lit.Sat α :=
    fun lit hlit hs => hno ⟨lit, hlit, hs⟩
  simp only [conflictLowerAndUpperBound, forall_mem_cons, Constraint.sat_negation, not_not,
    sat_sideConditionLoUp] at hfalse
  obtain ⟨hlc, huc, hcross, hls, hus, -⟩ := hfalse
  have hlow := hll.le hl hls hlc
  have hupp := huu.le hu hus huc
  refine hcross ((evaluate_crossProduct hls hus).mpr ?_)
  split
  next hst =>
    rcases Bool.or_eq_true _ _ |>.mp hst with h | h
    · exact (hlow.2 h).trans_le hupp.1
    · exact hlow.1.trans_lt (hupp.2 h)
  next => exact hlow.1.trans hupp.1

theorem conflictEqualityAndInequality_sat {e i : Bound σ}
    (he : e.WF mModel x) (hee : e.constr.relation = .eq) (hi : i.WF mModel x)
    (hii : i.constr.relation = .neq) (α : σ → K) :
    (conflictEqualityAndInequality e i).Sat α := by
  by_contra hno
  have hfalse : ∀ lit ∈ conflictEqualityAndInequality e i, ¬ lit.Sat α :=
    fun lit hlit hs => hno ⟨lit, hlit, hs⟩
  simp only [conflictEqualityAndInequality, forall_mem_cons, Constraint.sat_negation,
    not_not, sat_sideCondition] at hfalse
  obtain ⟨hic, hec, hcross, hep, hip, -⟩ := hfalse
  have heq : (crossProduct e i).eval α = 0 := not_not.mp hcross
  rw [crossProduct_eq_zero_iff hep hip, Bound.eq_of_sat_eq he hee hep hec] at heq
  exact Bound.ne_of_sat_neq hi hii hip hic heq.symm

theorem conflictInequalitiesAndInequality_sat {i : Bound σ}
    (hl : l.WF mModel x) (hll : l.IsLower) (hu : u.WF mModel x) (huu : u.IsUpper)
    (hi : i.WF mModel x) (hii : i.constr.relation = .neq) (α : σ → K) :
    (conflictInequalitiesAndInequality l u i).Sat α := by
  by_contra hno
  have hfalse : ∀ lit ∈ conflictInequalitiesAndInequality l u i, ¬ lit.Sat α :=
    fun lit hlit hs => hno ⟨lit, hlit, hs⟩
  simp only [conflictInequalitiesAndInequality, forall_mem_cons, Constraint.sat_negation,
    not_not, sat_sideCondition, sat_sideConditionLoUp] at hfalse
  obtain ⟨hic, hlc, huc, hlu, hli, hip, hls, hus, -⟩ := hfalse
  have hlu' : l.q.eval α / l.p.eval α = u.q.eval α / u.p.eval α :=
    (crossProduct_eq_zero_iff hls.ne hus.ne).mp hlu
  have hli' : l.q.eval α / l.p.eval α = i.q.eval α / i.p.eval α :=
    (crossProduct_eq_zero_iff hls.ne hip).mp (not_not.mp hli)
  -- the two weak bounds meet at a single point, the one the disequality removes
  have hx : l.q.eval α / l.p.eval α = α x :=
    le_antisymm (hll.le hl hls hlc).1 (hlu' ▸ (huu.le hu hus huc).1)
  exact Bound.ne_of_sat_neq hi hii hip hic (hli' ▸ hx)

omit [IsStrictOrderedRing K] in
theorem conflictZeroCoefficient_sat (b : Constraint σ) (x : σ) (α : σ → K) :
    Clause.Sat α (conflictZeroCoefficient b (b.lhs.coefficient x 1) (remainder x b)) := by
  by_contra hno
  have hfalse : ∀ lit ∈ conflictZeroCoefficient b (b.lhs.coefficient x 1) (remainder x b),
      ¬ lit.Sat α := fun lit hlit hs => hno ⟨lit, hlit, hs⟩
  simp only [conflictZeroCoefficient, forall_mem_cons, Constraint.sat_negation, not_not] at hfalse
  obtain ⟨hb, hp, hq, -⟩ := hfalse
  have hp' : (b.lhs.coefficient x 1).eval α = 0 := hp
  refine hq ?_
  unfold Constraint.Sat at hb ⊢
  rw [Poly.eval_neg, eval_remainder, hp', zero_mul, zero_sub, neg_neg]
  exact hb

end Field

/-! ## Values under the model -/

section Model

variable {mModel : σ → ℚ} {x : σ} {α : σ → ℚ}

/-- `α` extends the model, which says nothing about `x`. -/
def Extends (mModel : σ → ℚ) (x : σ) (α : σ → ℚ) : Prop := ∀ y, y ≠ x → α y = mModel y

theorem eval_remainder_of_extends (hα : Extends mModel x α) {c : Constraint σ}
    (hdeg : c.lhs.maxDegree x ≤ 1) : (remainder x c).eval α = (remainder x c).eval mModel := by
  rw [eval_remainder, eval_remainder, Poly.eval_linear α x c.lhs hdeg,
    Poly.eval_linear mModel x c.lhs hdeg, Poly.eval_coefficient_congr hα 0]
  ring

theorem Bound.WF.p_eval (hb : b.WF mModel x) (hα : Extends mModel x α) :
    b.p.eval α = b.p.eval mModel := by
  rw [hb.p_eq, Poly.eval_coefficient_congr hα]

theorem Bound.WF.q_eval (hb : b.WF mModel x) (hα : Extends mModel x α) :
    b.q.eval α = b.q.eval mModel := by
  rw [hb.q_eq, eval_remainder_of_extends hα hb.degree]

theorem Bound.WF.quotient (hb : b.WF mModel x) (hα : Extends mModel x α) :
    b.q.eval α / b.p.eval α = b.r := by
  rw [hb.q_eval hα, hb.p_eval hα, hb.r_eq]

/-- Under the model every coefficient has the sign stored with it. -/
theorem Bound.WF.signOk (hb : b.WF mModel x) (hα : Extends mModel x α) : b.SignOk α := by
  unfold Bound.SignOk
  rw [hb.p_eval hα, hb.neg_eq]
  by_cases h : b.p.eval mModel < 0
  · simp [h]
  · simpa [h] using lt_of_le_of_ne (not_lt.mp h) hb.p_ne.symm

/-- The clause is valid over the reals, and under the model only its negated input
constraints can hold. -/
def Explains (mBounds : List (Constraint σ)) (mModel : σ → ℚ) (x : σ) (c : Clause σ) : Prop :=
  (∀ α : σ → ℝ, c.Sat α) ∧
    ∀ α : σ → ℚ, Extends mModel x α → ∀ l ∈ c, (∃ b ∈ mBounds, l = b.negation) ∨ ¬ l.Sat α

variable {mBounds : List (Constraint σ)} {l u e i : Bound σ}

theorem conflictLowerAndUpperBound_explains (hlm : l.constr ∈ mBounds) (hum : u.constr ∈ mBounds)
    (hl : l.WF mModel x) (hll : l.IsLower) (hu : u.WF mModel x) (huu : u.IsUpper)
    (hr : ¬ l.r < u.r) (hst : ¬ (l.r = u.r ∧ ¬ strict l u)) :
    Explains mBounds mModel x (conflictLowerAndUpperBound l u) := by
  refine ⟨conflictLowerAndUpperBound_sat hl hll hu huu, fun α hα => ?_⟩
  simp only [conflictLowerAndUpperBound, forall_mem_cons, Constraint.sat_negation, not_not,
    sat_sideConditionLoUp]
  refine ⟨.inl ⟨_, hlm, rfl⟩, .inl ⟨_, hum, rfl⟩, .inr fun hcross => ?_,
    .inr (hl.signOk hα), .inr (hu.signOk hα), by simp⟩
  have hq := (evaluate_crossProduct (hl.signOk hα) (hu.signOk hα)).mp hcross
  rw [hl.quotient hα, hu.quotient hα] at hq
  split at hq
  next => exact hr hq
  next h => exact hst ⟨le_antisymm hq (not_lt.mp hr), h⟩

theorem conflictEqualityAndInequality_explains (hem : e.constr ∈ mBounds)
    (him : i.constr ∈ mBounds) (he : e.WF mModel x) (hee : e.constr.relation = .eq)
    (hi : i.WF mModel x) (hii : i.constr.relation = .neq) (hr : i.r = e.r) :
    Explains mBounds mModel x (conflictEqualityAndInequality e i) := by
  refine ⟨conflictEqualityAndInequality_sat he hee hi hii, fun α hα => ?_⟩
  simp only [conflictEqualityAndInequality, forall_mem_cons, Constraint.sat_negation,
    not_not, sat_sideCondition]
  refine ⟨.inl ⟨_, him, rfl⟩, .inl ⟨_, hem, rfl⟩, .inr fun hcross => ?_,
    .inr (he.signOk hα).ne, .inr (hi.signOk hα).ne, by simp⟩
  refine hcross ((crossProduct_eq_zero_iff (he.signOk hα).ne (hi.signOk hα).ne).mpr ?_)
  rw [he.quotient hα, hi.quotient hα, hr]

theorem conflictInequalitiesAndInequality_explains (hlm : l.constr ∈ mBounds)
    (hum : u.constr ∈ mBounds) (him : i.constr ∈ mBounds) (hl : l.WF mModel x) (hll : l.IsLower)
    (hu : u.WF mModel x) (huu : u.IsUpper) (hi : i.WF mModel x)
    (hii : i.constr.relation = .neq) (hlu : l.r = u.r) (hr : i.r = l.r) :
    Explains mBounds mModel x (conflictInequalitiesAndInequality l u i) := by
  refine ⟨conflictInequalitiesAndInequality_sat hl hll hu huu hi hii, fun α hα => ?_⟩
  have hls := hl.signOk hα
  have hus := hu.signOk hα
  have his := hi.signOk hα
  simp only [conflictInequalitiesAndInequality, forall_mem_cons, Constraint.sat_negation,
    not_not, sat_sideCondition, sat_sideConditionLoUp]
  refine ⟨.inl ⟨_, him, rfl⟩, .inl ⟨_, hlm, rfl⟩, .inl ⟨_, hum, rfl⟩, .inr ?_,
    .inr fun hcross => ?_, .inr his.ne, .inr hls, .inr hus, by simp⟩
  · refine (crossProduct_eq_zero_iff hls.ne hus.ne).mpr ?_
    rw [hl.quotient hα, hu.quotient hα, hlu]
  · refine hcross ((crossProduct_eq_zero_iff hls.ne his.ne).mpr ?_)
    rw [hl.quotient hα, hi.quotient hα, hr]

theorem conflictZeroCoefficient_explains {b : Constraint σ} (hbm : b ∈ mBounds)
    (hdeg : b.lhs.maxDegree x ≤ 1) (hp : (b.lhs.coefficient x 1).eval mModel = 0)
    (hq : ¬ b.relation.evaluate 0 ((remainder x b).eval mModel)) :
    Explains mBounds mModel x
      (conflictZeroCoefficient b (b.lhs.coefficient x 1) (remainder x b)) := by
  refine ⟨conflictZeroCoefficient_sat b x, fun α hα => ?_⟩
  simp only [conflictZeroCoefficient, forall_mem_cons, Constraint.sat_negation, not_not]
  refine ⟨.inl ⟨_, hbm, rfl⟩, .inr ?_, .inr fun h => hq ?_, by simp⟩
  · exact (Poly.eval_coefficient_congr hα 1 b.lhs).trans hp
  · unfold Constraint.Sat at h
    rw [Poly.eval_neg, eval_remainder_of_extends hα hdeg, ← zero_sub,
      Relation.evaluate_sub_zero] at h
    exact h

end Model

/-! ## The search -/

section Search

variable {mBounds : List (Constraint σ)} {mModel : σ → ℚ} {x : σ} {callback : Callback σ}

/-- Every clause passed so far explains the conflict. -/
def Calls.Good (mBounds : List (Constraint σ)) (mModel : σ → ℚ) (x : σ) (out : Calls σ) : Prop :=
  ∀ c ∈ out.passed, Explains mBounds mModel x c

variable {out : Calls σ}

omit [DecidableEq σ] in
theorem mcsatYield_good (hout : out.Good mBounds mModel x) {c : Clause σ}
    (hc : Explains mBounds mModel x c) : (mcsatYield callback out c).Good mBounds mModel x := by
  unfold mcsatYield
  split
  · exact hout
  · intro d hd
    rcases mem_append.mp hd with hd | hd
    · exact hout d hd
    · exact mem_singleton.mp hd ▸ hc

/-- What the loop over `mBounds` keeps. -/
structure Bounds.Inv (mBounds : List (Constraint σ)) (mModel : σ → ℚ) (x : σ)
    (s : Bounds σ) : Prop where
  lower : ∀ b ∈ s.mLower, b.constr ∈ mBounds ∧ b.WF mModel x ∧ b.IsLower
  upper : ∀ b ∈ s.mUpper, b.constr ∈ mBounds ∧ b.WF mModel x ∧ b.IsUpper
  inequality : ∀ b ∈ s.mInequalities, b.constr ∈ mBounds ∧ b.WF mModel x ∧ b.constr.relation = .neq
  equality : ∀ b ∈ s.mEqualities, b.constr ∈ mBounds ∧ b.WF mModel x ∧ b.constr.relation = .eq
  out : s.out.Good mBounds mModel x

theorem forall_mem_concat {β : Type*} {P : β → Prop} {xs : List β} {y : β}
    (hxs : ∀ z ∈ xs, P z) (hy : P y) : ∀ z ∈ xs ++ [y], P z := by
  intro z hz
  rcases mem_append.mp hz with hz | hz
  · exact hxs z hz
  · exact mem_singleton.mp hz ▸ hy

variable {s : Bounds σ}

theorem Bounds.Inv.insert (hs : s.Inv mBounds mModel x)
    (hm : b.constr ∈ mBounds) (hb : b.WF mModel x) : (s.insert b).Inv mBounds mModel x := by
  unfold Bounds.insert
  cases hrel : b.constr.relation <;> cases hneg : b.neg <;>
    simp only [Bool.false_eq_true, if_true, if_false]
  case eq.false | eq.true =>
    have hll : b.IsLower := by simp [Bound.IsLower, hrel]
    have huu : b.IsUpper := by simp [Bound.IsUpper, hrel]
    exact ⟨forall_mem_concat hs.lower ⟨hm, hb, hll⟩, forall_mem_concat hs.upper ⟨hm, hb, huu⟩,
      hs.inequality, forall_mem_concat hs.equality ⟨hm, hb, hrel⟩, hs.out⟩
  case neq.false | neq.true =>
    exact ⟨hs.lower, hs.upper, forall_mem_concat hs.inequality ⟨hm, hb, hrel⟩, hs.equality, hs.out⟩
  case less.true | leq.true | greater.false | geq.false =>
    have hll : b.IsLower := by simp [Bound.IsLower, hrel, hneg]
    exact ⟨forall_mem_concat hs.lower ⟨hm, hb, hll⟩, hs.upper, hs.inequality, hs.equality, hs.out⟩
  case less.false | leq.false | greater.true | geq.true =>
    have huu : b.IsUpper := by simp [Bound.IsUpper, hrel, hneg]
    exact ⟨hs.lower, forall_mem_concat hs.upper ⟨hm, hb, huu⟩, hs.inequality, hs.equality, hs.out⟩

theorem Bounds.Inv.processBound (hs : s.Inv mBounds mModel x) {b : Constraint σ}
    (hm : b ∈ mBounds) : (processBound mModel x callback s b).Inv mBounds mModel x := by
  unfold FM.processBound
  split
  · exact hs
  split
  · exact hs
  split
  · exact hs
  next hdeg =>
    have hdeg' : b.lhs.maxDegree x ≤ 1 := not_lt.mp hdeg
    dsimp only
    split
    · exact hs
    split
    next hzero =>
      split
      · exact hs
      next hconf =>
        exact { hs with
          out := mcsatYield_good hs.out (conflictZeroCoefficient_explains hm hdeg' hzero hconf) }
    next hne => exact hs.insert hm ⟨hdeg', rfl, rfl, hne, rfl, rfl⟩

/-- An invariant of each round is an invariant of the loop. -/
theorem foldl_inv {β γ : Type*} {P : β → Prop} {f : β → γ → β} {xs : List γ}
    (hf : ∀ b, P b → ∀ c ∈ xs, P (f b c)) {b : β} (hb : P b) : P (xs.foldl f b) := by
  induction xs generalizing b with
  | nil => exact hb
  | cons c xs ih =>
    exact ih (fun b hb d hd => hf b hb d (mem_cons_of_mem _ hd)) (hf b hb c mem_cons_self)

theorem collectBounds_inv : (collectBounds mModel x callback mBounds).Inv mBounds mModel x :=
  foldl_inv (fun _ hs _ hm => hs.processBound hm)
    ⟨by simp, by simp, by simp, by simp, by simp [Calls.Good]⟩

/-- What the loop over pairs of bounds keeps: the pairs set aside meet in one point. -/
def PairsInv (mBounds : List (Constraint σ)) (mModel : σ → ℚ) (x : σ)
    (s : Calls σ × List (Bound σ × Bound σ)) : Prop :=
  s.1.Good mBounds mModel x ∧ ∀ p ∈ s.2,
    (p.1.constr ∈ mBounds ∧ p.1.WF mModel x ∧ p.1.IsLower) ∧
      (p.2.constr ∈ mBounds ∧ p.2.WF mModel x ∧ p.2.IsUpper) ∧ p.1.r = p.2.r

variable {p : Bound σ × Bound σ}

theorem PairsInv.combine {s : Calls σ × List (Bound σ × Bound σ)} (hs : PairsInv mBounds mModel x s)
    (hl : p.1.constr ∈ mBounds ∧ p.1.WF mModel x ∧ p.1.IsLower)
    (hu : p.2.constr ∈ mBounds ∧ p.2.WF mModel x ∧ p.2.IsUpper) :
    PairsInv mBounds mModel x (combine callback s p) := by
  unfold FM.combine
  split
  · exact hs
  split
  · exact hs
  next hr =>
    split
    next hweak => exact ⟨hs.1, forall_mem_concat hs.2 ⟨hl, hu, hweak.1⟩⟩
    next hst =>
      exact ⟨mcsatYield_good hs.1 (conflictLowerAndUpperBound_explains hl.1 hu.1 hl.2.1 hl.2.2
        hu.2.1 hu.2.2 hr hst), hs.2⟩

omit [DecidableEq σ] in
theorem Comparator.mem_sort {c : Comparator σ} {l : List (Bound σ)} :
    b ∈ c.sort l ↔ b ∈ l := mem_insertionSort _

omit [DecidableEq σ] in
theorem mem_boundPairs {comparator : Comparator σ}
    (hp : p ∈ boundPairs comparator s) : p.1 ∈ s.mLower ∧ p.2 ∈ s.mUpper := by
  obtain ⟨l, hl, hp⟩ := mem_flatMap.mp hp
  obtain ⟨u, hu, rfl⟩ := mem_map.mp hp
  refine ⟨Comparator.mem_sort.mp hl, ?_⟩
  split at hu
  · exact Comparator.mem_sort.mp (mem_reverse.mp hu)
  · exact Comparator.mem_sort.mp hu

theorem combineBounds_inv {comparator : Comparator σ} (hs : s.Inv mBounds mModel x) :
    PairsInv mBounds mModel x (combineBounds comparator callback s) := by
  refine foldl_inv (fun t ht p hp => ?_) ⟨hs.out, by simp⟩
  have hmem := mem_boundPairs hp
  exact ht.combine (hs.lower _ hmem.1) (hs.upper _ hmem.2)

theorem resolveEquality_good (hs : s.Inv mBounds mModel x)
    (hout : out.Good mBounds mModel x) {e : Bound σ} (he : e ∈ s.mEqualities) :
    (resolveEquality s.mInequalities callback out e).Good mBounds mModel x := by
  unfold resolveEquality
  split
  next i hfind =>
    obtain ⟨him, hi, hii⟩ := hs.inequality i (mem_of_find?_eq_some hfind)
    obtain ⟨hem, he, hee⟩ := hs.equality e he
    have hr : i.r = e.r := by simpa using find?_some hfind
    exact mcsatYield_good hout (conflictEqualityAndInequality_explains hem him he hee hi hii hr)
  next => exact hout

theorem resolvePair_good (hs : s.Inv mBounds mModel x)
    {t : Calls σ × List (Bound σ × Bound σ)} (ht : PairsInv mBounds mModel x t)
    (hout : out.Good mBounds mModel x) (hp : p ∈ t.2) :
    (resolvePair s.mInequalities callback out p).Good mBounds mModel x := by
  unfold resolvePair
  split
  next i hfind =>
    obtain ⟨him, hi, hii⟩ := hs.inequality i (mem_of_find?_eq_some hfind)
    obtain ⟨⟨hlm, hl, hll⟩, ⟨hum, hu, huu⟩, hlu⟩ := ht.2 p hp
    have hr : i.r = p.1.r := by simpa using find?_some hfind
    exact mcsatYield_good hout (conflictInequalitiesAndInequality_explains hlm hum him hl hll hu
      huu hi hii hlu hr)
  next => exact hout

/-- Every clause handed to the callback holds at all real assignments, and under every extension
of the model its only literals that may hold are negations of input constraints. -/
theorem generateExplanation_explains (comparator : Comparator σ) (mBounds : List (Constraint σ))
    (mModel : σ → ℚ) (x : σ) (callback : Callback σ) :
    ∀ c ∈ generateExplanation comparator mBounds mModel x callback,
      (∀ α : σ → ℝ, ∃ l ∈ c, l.Sat α) ∧
        ∀ α : σ → ℚ, (∀ y, y ≠ x → α y = mModel y) →
          ∀ l ∈ c, (∃ b ∈ mBounds, l = b.negation) ∨ ¬ l.Sat α := by
  have hinv : (collectBounds mModel x callback mBounds).Inv mBounds mModel x := collectBounds_inv
  have hpairs : PairsInv mBounds mModel x
      (combineBounds comparator callback (collectBounds mModel x callback mBounds)) :=
    combineBounds_inv hinv
  refine foldl_inv (P := Calls.Good mBounds mModel x)
    (fun out hout p hp => resolvePair_good hinv hpairs hout hp) ?_
  exact foldl_inv (P := Calls.Good mBounds mModel x)
    (fun out hout e he => resolveEquality_good hinv hout he) hpairs.1

end Search

/-- The input `x - 1 ≥ 0` and `x ≤ 0`, whose bounds leave no value for `x`. -/
def disjointBounds : List (Constraint ℕ) :=
  [⟨.sub (.var 0) (.const 1), .geq⟩, ⟨.var 0, .leq⟩]

/-- The bounds `1 ≤ x` and `x ≤ 0` are explained, by the clause `c`. -/
theorem generateExplanation_explains_disjointBounds :
    ∃ c ∈ generateExplanation ⟨false, fun a b => a.r < b.r⟩ disjointBounds (fun _ => 0) 0
        (fun _ _ => true),
      (∀ α : ℕ → ℝ, ∃ l ∈ c, l.Sat α) ∧
        ∀ α : ℕ → ℚ, (∀ y, y ≠ 0 → α y = 0) →
          ∀ l ∈ c, (∃ b ∈ disjointBounds, l = b.negation) ∨ ¬ l.Sat α := by
  have hne : generateExplanation ⟨false, fun a b => a.r < b.r⟩ disjointBounds (fun _ => 0) 0
      (fun _ _ => true) ≠ [] := by decide +kernel
  exact ⟨_, head_mem hne, generateExplanation_explains _ _ _ _ _ _ (head_mem hne)⟩

end Smtrat.Mcsat.FM
