import Smtrat.Math.LineCells
import Smtrat.Mcsat.FM.Validity

/-!
# Fourier-Motzkin explanations are complete

Under the model every constraint that contains `x` is a limit for `x`, a hole, or says nothing of
`x`.  The search passes a clause as soon as a constraint without `x` fails, a lower limit conflicts
with an upper one, or a hole is the only point two limits leave; by `Line.exists_solution_iff`
these are all the ways in which the constraints have no common real solution.
-/

namespace Smtrat.Mcsat.FM

open SparsePoly List

universe u

variable {σ : Type u} [DecidableEq σ] {mModel : σ → ℚ} {x : σ} {callback : Callback σ}

/-! ## Constraints under the model -/

/-- The real assignment of the model with the value `v` for `x`. -/
def extend (mModel : σ → ℚ) (x : σ) (v : ℝ) : σ → ℝ := fun y => if y = x then v else mModel y

omit [DecidableEq σ] in
theorem eval_cast (p : Poly σ ℚ) : p.eval (fun y => (mModel y : ℝ)) = ((p.eval mModel : ℚ) : ℝ) := by
  exact Poly.eval_algebraMap (K := ℝ) mModel p

theorem eval_coefficient_extend (v : ℝ) (k : ℕ) (p : Poly σ ℚ) :
    (p.coefficient x k).eval (extend mModel x v) = (((p.coefficient x k).eval mModel : ℚ) : ℝ) := by
  rw [← eval_cast]
  exact Poly.eval_coefficient_congr (fun y hy => if_neg hy) k p

variable {c : Constraint σ}

theorem eval_remainder_extend (v : ℝ) (hdeg : c.lhs.maxDegree x ≤ 1) :
    (remainder x c).eval (extend mModel x v) = (((remainder x c).eval mModel : ℚ) : ℝ) := by
  have hreal : ∀ α : σ → ℝ, (remainder x c).eval α = -(c.lhs.coefficient x 0).eval α := by
    intro α
    rw [eval_remainder, Poly.eval_linear α x c.lhs hdeg]
    ring
  rw [← eval_cast, hreal, hreal, eval_coefficient_extend, eval_cast]

/-- Under the model a constraint compares a multiple of `x` with a number. -/
theorem sat_extend_iff (v : ℝ) (hdeg : c.lhs.maxDegree x ≤ 1) :
    c.Sat (extend mModel x v) ↔ c.relation.evaluate
      ((((c.lhs.coefficient x 1).eval mModel : ℚ) : ℝ) * v)
        (((remainder x c).eval mModel : ℚ) : ℝ) := by
  have hlhs : c.lhs.eval (extend mModel x v) =
      (c.lhs.coefficient x 1).eval (extend mModel x v) * v -
        (remainder x c).eval (extend mModel x v) := by
    rw [eval_remainder, extend, if_pos rfl]
    ring
  rw [Constraint.Sat, hlhs, Relation.evaluate_sub_zero, eval_coefficient_extend,
    eval_remainder_extend v hdeg]

theorem evaluate_zero_cast (r : Relation) (q : ℚ) :
    r.evaluate (0 : ℝ) (q : ℝ) ↔ r.evaluate 0 q := by
  cases r <;> simp [Relation.evaluate, eq_comm (a := (0 : ℝ)), eq_comm (a := (0 : ℚ))]

/-- The limit a bound is for `x`. -/
def Bound.limit (b : Bound σ) : Line.Limit ℝ := ⟨b.r, b.constr.relation.isStrict⟩

/-- What a bound says of the value of `x`. -/
def Bound.Allows (b : Bound σ) (v : ℝ) : Prop :=
  (b.IsLower → b.limit.Above v) ∧ (b.IsUpper → b.limit.Below v) ∧
    (b.constr.relation = .neq → v ≠ b.r)

/-- Under the model a bound says of `x` what its constraint does. -/
theorem Bound.allows_iff {b : Bound σ} (hb : b.WF mModel x) (v : ℝ) :
    b.constr.Sat (extend mModel x v) ↔ b.Allows v := by
  have hp : ((b.p.eval mModel : ℚ) : ℝ) ≠ 0 := Rat.cast_ne_zero.mpr hb.p_ne
  have hr : (b.r : ℝ) = (b.q.eval mModel : ℚ) / (b.p.eval mModel : ℚ) := by
    rw [hb.r_eq, Rat.cast_div]
  have hneg : ((b.p.eval mModel : ℚ) : ℝ) < 0 ↔ b.neg = true := by
    rw [hb.neg_eq, decide_eq_true_eq, Rat.cast_lt_zero]
  rw [sat_extend_iff v hb.degree, ← hb.p_eq, ← hb.q_eq, Relation.evaluate_mul _ hp, ← hr]
  simp only [hneg, Bound.Allows, Line.Limit.Above, Line.Limit.Below, Bound.limit]
  obtain ⟨r, hrel⟩ : ∃ r, b.constr.relation = r := ⟨_, rfl⟩
  cases r <;> cases hneg' : b.neg <;>
    simp [Bound.IsLower, Bound.IsUpper, hrel, hneg', Relation.isStrict, Relation.evaluate,
      Relation.turnAroundRelation]
  all_goals exact le_antisymm_iff.trans and_comm

/-! ## The loops -/

/-- Nothing was passed to the callback. -/
def Calls.Quiet (out : Calls σ) : Prop := out.passed = [] ∧ out.returned = false

/-- Something was passed to the callback. -/
def Calls.Loud (out : Calls σ) : Prop := out.passed ≠ []

omit [DecidableEq σ] in
theorem Calls.Quiet.yield {out : Calls σ} (h : out.Quiet) (c : Clause σ) :
    (mcsatYield callback out c).Loud := by
  rw [mcsatYield, if_neg (by simp [h.2])]
  exact append_ne_nil_of_right_ne_nil _ (cons_ne_nil _ _)

omit [DecidableEq σ] in
theorem Calls.Loud.yield {out : Calls σ} (h : out.Loud) (c : Clause σ) :
    (mcsatYield callback out c).Loud := by
  rw [mcsatYield]
  split_ifs
  · exact h
  · exact append_ne_nil_of_left_ne_nil h _

theorem foldl_loud {β γ : Type*} {f : β → γ → β} (loud : β → Prop)
    (hstable : ∀ s c, loud s → loud (f s c)) (xs : List γ) {s : β} (hs : loud s) :
    loud (xs.foldl f s) := by
  induction xs generalizing s with
  | nil => exact hs
  | cons c xs ih => exact ih (hstable s c hs)

/-- A loop whose rounds are quiet except for conflicts. -/
theorem foldl_quiet_or_loud {β γ : Type*} (f : β → γ → β) (quiet loud : β → Prop)
    (conflict : γ → Prop) (hstable : ∀ s c, loud s → loud (f s c))
    (hloud : ∀ s c, quiet s → conflict c → loud (f s c))
    (hquiet : ∀ s c, quiet s → ¬ conflict c → quiet (f s c)) (xs : List γ) {s : β} (hs : quiet s) :
    ((∃ c ∈ xs, conflict c) → loud (xs.foldl f s)) ∧
      ((∀ c ∈ xs, ¬ conflict c) → quiet (xs.foldl f s)) := by
  induction xs generalizing s with
  | nil => exact ⟨fun ⟨c, hc, _⟩ => absurd hc not_mem_nil, fun _ => hs⟩
  | cons c xs ih =>
    by_cases hc : conflict c
    · refine ⟨fun _ => foldl_loud loud hstable xs (hloud s c hs hc), fun hno => ?_⟩
      exact absurd hc (hno c mem_cons_self)
    · obtain ⟨hloud', hquiet'⟩ := ih (hquiet s c hs hc)
      constructor
      · rintro ⟨d, hd, hconf⟩
        rcases mem_cons.mp hd with rfl | hd
        · exact absurd hconf hc
        · exact hloud' ⟨d, hd, hconf⟩
      · exact fun hno => hquiet' fun d hd => hno d (mem_cons_of_mem _ hd)

/-! ### Collecting the bounds -/

/-- The bound a constraint is filed as. -/
def boundOf (mModel : σ → ℚ) (x : σ) (c : Constraint σ) : Bound σ :=
  ⟨c, c.lhs.coefficient x 1, remainder x c,
    (remainder x c).eval mModel / (c.lhs.coefficient x 1).eval mModel,
    (c.lhs.coefficient x 1).eval mModel < 0⟩

/-- The coefficient of `x` vanishes under the model and the constraint fails. -/
def ZeroConflict (mModel : σ → ℚ) (x : σ) (c : Constraint σ) : Prop :=
  c.lhs.hasVariable x = true ∧ c.lhs.maxDegree x ≤ 1 ∧
    (c.lhs.coefficient x 1).eval mModel = 0 ∧
    ¬ c.relation.evaluate 0 ((remainder x c).eval mModel)

/-- The constraint is a bound on `x` under the model. -/
def Files (mModel : σ → ℚ) (x : σ) (c : Constraint σ) : Prop :=
  c.lhs.hasVariable x = true ∧ c.lhs.maxDegree x ≤ 1 ∧ (c.lhs.coefficient x 1).eval mModel ≠ 0

theorem Files.wf (h : Files mModel x c) : (boundOf mModel x c).WF mModel x :=
  ⟨h.2.1, rfl, rfl, h.2.2, rfl, rfl⟩

/-- A constraint in which `x` occurs linearly has a coefficient. -/
theorem coefficient_ne_nil {p : Poly σ ℚ} (hvar : p.hasVariable x = true)
    (hdeg : p.maxDegree x ≤ 1) : (p.coefficient x 1).isEmpty = false := by
  obtain ⟨t, ht, hpos⟩ := any_eq_true.mp hvar
  have hle : monomialDegree x t.monomial ≤ p.maxDegree x := by
    clear hvar hdeg
    induction p with
    | nil => cases ht
    | cons s p ih =>
      rw [Poly.maxDegree_cons]
      rcases mem_cons.mp ht with rfl | ht
      · exact le_max_left _ _
      · exact (ih ht).trans (le_max_right _ _)
  have hone : monomialDegree x t.monomial = 1 :=
    le_antisymm (hle.trans hdeg) (Nat.succ_le_of_lt (of_decide_eq_true hpos))
  rw [isEmpty_eq_false_iff, Poly.coefficient, Ne, map_eq_nil_iff]
  exact ne_nil_of_mem (mem_filter.mpr ⟨ht, by simpa using hone⟩)

variable {s : Bounds σ}

theorem processBound_of_zeroConflict (hs : s.out.Quiet)
    (hc : ZeroConflict mModel x c) : (processBound mModel x callback s c).out.Loud := by
  obtain ⟨hvar, hdeg, hzero, hrel⟩ := hc
  simp only [processBound, hs.2, hvar, coefficient_ne_nil hvar hdeg, hzero, hrel,
    not_lt.mpr hdeg, Bool.false_eq_true, not_true_eq_false, if_true, if_false]
  exact hs.yield _

open Classical in
theorem processBound_of_not_zeroConflict (hs : s.out.Quiet)
    (hc : ¬ ZeroConflict mModel x c) : processBound mModel x callback s c =
      if Files mModel x c then s.insert (boundOf mModel x c) else s := by
  by_cases hvar : c.lhs.hasVariable x = true
  · by_cases hdeg : c.lhs.maxDegree x ≤ 1
    · by_cases hzero : (c.lhs.coefficient x 1).eval mModel = 0
      · have hrel : c.relation.evaluate 0 ((remainder x c).eval mModel) :=
          not_not.mp fun hrel => hc ⟨hvar, hdeg, hzero, hrel⟩
        rw [if_neg fun h : Files mModel x c => h.2.2 hzero]
        simp only [processBound, hs.2, hvar, coefficient_ne_nil hvar hdeg, hzero, hrel,
          not_lt.mpr hdeg, Bool.false_eq_true, not_true_eq_false, if_true, if_false]
      · rw [if_pos ⟨hvar, hdeg, hzero⟩]
        simp only [processBound, hs.2, hvar, coefficient_ne_nil hvar hdeg, hzero,
          not_lt.mpr hdeg, Bool.false_eq_true, not_true_eq_false, if_false]
        rfl
    · rw [if_neg fun h : Files mModel x c => hdeg h.2.1]
      simp only [processBound, hs.2, hvar, not_le.mp hdeg, Bool.false_eq_true, not_true_eq_false,
        if_true, if_false]
  · rw [if_neg fun h : Files mModel x c => hvar h.1]
    simp only [processBound, hs.2, hvar, Bool.false_eq_true, not_false_eq_true, if_true, if_false]

omit [DecidableEq σ] in
theorem insert_out (s : Bounds σ) (b : Bound σ) : (s.insert b).out = s.out := by
  rw [Bounds.insert]
  cases b.constr.relation <;> cases b.neg <;> rfl

theorem processBound_loud (s : Bounds σ) (c : Constraint σ) (hs : s.out.Loud) :
    (processBound mModel x callback s c).out.Loud := by
  simp only [processBound]
  split
  · exact hs
  split
  · exact hs
  split
  · exact hs
  split
  · exact hs
  split
  · split
    · exact hs
    · exact hs.yield _
  · rwa [insert_out]

omit [DecidableEq σ] in
/-- The lists a bound is put in. -/
theorem mem_insert (s : Bounds σ) (b b' : Bound σ) :
    (b' ∈ (s.insert b).mLower ↔ b' ∈ s.mLower ∨ b' = b ∧ b.IsLower) ∧
      (b' ∈ (s.insert b).mUpper ↔ b' ∈ s.mUpper ∨ b' = b ∧ b.IsUpper) ∧
      (b' ∈ (s.insert b).mInequalities ↔ b' ∈ s.mInequalities ∨ b' = b ∧ b.constr.relation = .neq) ∧
      (b' ∈ (s.insert b).mEqualities ↔ b' ∈ s.mEqualities ∨ b' = b ∧ b.constr.relation = .eq) := by
  rw [Bounds.insert]
  cases hrel : b.constr.relation <;> cases hneg : b.neg <;>
    simp [Bound.IsLower, Bound.IsUpper, hrel, hneg]

/-- What the loop over `mBounds` collects when no constraint without `x` fails. -/
structure Collects (mModel : σ → ℚ) (x : σ) (mBounds : List (Constraint σ)) (s s' : Bounds σ) :
    Prop where
  quiet : s'.out.Quiet
  lower : ∀ b, b ∈ s'.mLower ↔ b ∈ s.mLower ∨
    ∃ c ∈ mBounds, Files mModel x c ∧ b = boundOf mModel x c ∧ (boundOf mModel x c).IsLower
  upper : ∀ b, b ∈ s'.mUpper ↔ b ∈ s.mUpper ∨
    ∃ c ∈ mBounds, Files mModel x c ∧ b = boundOf mModel x c ∧ (boundOf mModel x c).IsUpper
  inequality : ∀ b, b ∈ s'.mInequalities ↔ b ∈ s.mInequalities ∨
    ∃ c ∈ mBounds, Files mModel x c ∧ b = boundOf mModel x c ∧ c.relation = .neq
  equality : ∀ b, b ∈ s'.mEqualities ↔ b ∈ s.mEqualities ∨
    ∃ c ∈ mBounds, Files mModel x c ∧ b = boundOf mModel x c ∧ c.relation = .eq

theorem foldl_processBound_collects (mBounds : List (Constraint σ))
    (hs : s.out.Quiet) (h : ∀ c ∈ mBounds, ¬ ZeroConflict mModel x c) :
    Collects mModel x mBounds s (mBounds.foldl (processBound mModel x callback) s) := by
  induction mBounds generalizing s with
  | nil => exact ⟨hs, by simp, by simp, by simp, by simp⟩
  | cons c cs ih =>
    rw [foldl_cons, processBound_of_not_zeroConflict hs (h c mem_cons_self)]
    have hcs := fun d hd => h d (mem_cons_of_mem c hd)
    by_cases hc : Files mModel x c
    · rw [if_pos hc]
      have hrec := ih ((insert_out s (boundOf mModel x c)).symm ▸ hs) hcs
      have hmem := mem_insert s (boundOf mModel x c)
      refine ⟨hrec.quiet, ?_, ?_, ?_, ?_⟩ <;> intro b
      · rw [hrec.lower, (hmem b).1, exists_mem_cons_iff, or_assoc, and_iff_right hc]
      · rw [hrec.upper, (hmem b).2.1, exists_mem_cons_iff, or_assoc, and_iff_right hc]
      · rw [hrec.inequality, (hmem b).2.2.1, exists_mem_cons_iff, or_assoc, and_iff_right hc]
        rfl
      · rw [hrec.equality, (hmem b).2.2.2, exists_mem_cons_iff, or_assoc, and_iff_right hc]
        rfl
    · rw [if_neg hc]
      have hrec := ih hs hcs
      refine ⟨hrec.quiet, ?_, ?_, ?_, ?_⟩ <;> intro b
      · simp only [hrec.lower, exists_mem_cons_iff, hc, false_and, false_or]
      · simp only [hrec.upper, exists_mem_cons_iff, hc, false_and, false_or]
      · simp only [hrec.inequality, exists_mem_cons_iff, hc, false_and, false_or]
      · simp only [hrec.equality, exists_mem_cons_iff, hc, false_and, false_or]

/-! ### Combining the bounds -/

/-- A lower and an upper bound in conflict. -/
def PairConflict (pair : Bound σ × Bound σ) : Prop :=
  ¬ pair.1.r < pair.2.r ∧ ¬ (pair.1.r = pair.2.r ∧ ¬ strict pair.1 pair.2)

omit [DecidableEq σ] in
theorem pairConflict_iff (pair : Bound σ × Bound σ) :
    PairConflict pair ↔ ¬ Line.Limit.Compatible pair.1.limit pair.2.limit := by
  rw [PairConflict, Line.Limit.Compatible, Line.Limit.Touch, not_or, Bound.limit, Bound.limit,
    Rat.cast_lt, Rat.cast_inj, strict, Bool.or_eq_true, not_or, Bool.not_eq_true,
    Bool.not_eq_true]

omit [DecidableEq σ] in
/-- The pairs that are remembered. -/
theorem foldl_combine_pairs (pairs : List (Bound σ × Bound σ))
    {s : Calls σ × List (Bound σ × Bound σ)} (hs : s.1.Quiet)
    (h : ∀ pair ∈ pairs, ¬ PairConflict pair) :
    (pairs.foldl (combine callback) s).1.Quiet ∧
      ∀ p, p ∈ (pairs.foldl (combine callback) s).2 ↔
        p ∈ s.2 ∨ p ∈ pairs ∧ p.1.r = p.2.r ∧ ¬ strict p.1 p.2 := by
  induction pairs generalizing s with
  | nil => exact ⟨hs, by simp⟩
  | cons pair pairs ih =>
    have hpairs := fun q hq => h q (mem_cons_of_mem pair hq)
    have hno := h pair mem_cons_self
    rw [foldl_cons, combine, if_neg (by simp [hs.2])]
    by_cases hlt : pair.1.r < pair.2.r
    · rw [if_pos hlt]
      obtain ⟨hquiet, hmem⟩ := ih hs hpairs
      refine ⟨hquiet, fun p => ?_⟩
      rw [hmem, mem_cons]
      constructor
      · rintro (hp | ⟨hp, hr⟩)
        · exact .inl hp
        · exact .inr ⟨.inr hp, hr⟩
      · rintro (hp | ⟨rfl | hp, hr⟩)
        · exact .inl hp
        · exact absurd hr.1 hlt.ne
        · exact .inr ⟨hp, hr⟩
    · have htouch : pair.1.r = pair.2.r ∧ ¬ strict pair.1 pair.2 :=
        not_not.mp fun ht => hno ⟨hlt, ht⟩
      rw [if_neg hlt, if_pos htouch]
      obtain ⟨hquiet, hmem⟩ := ih (s := (s.1, s.2 ++ [pair])) hs hpairs
      refine ⟨hquiet, fun p => ?_⟩
      rw [hmem, mem_append, mem_singleton, mem_cons]
      constructor
      · rintro ((hp | rfl) | ⟨hp, hr⟩)
        · exact .inl hp
        · exact .inr ⟨.inl rfl, htouch⟩
        · exact .inr ⟨.inr hp, hr⟩
      · rintro (hp | ⟨rfl | hp, hr⟩)
        · exact .inl (.inl hp)
        · exact .inl (.inr rfl)
        · exact .inr ⟨hp, hr⟩

omit [DecidableEq σ] in
theorem combine_loud (s : Calls σ × List (Bound σ × Bound σ)) (pair : Bound σ × Bound σ)
    (hs : s.1.Loud) : (combine callback s pair).1.Loud := by
  rw [combine]
  split_ifs
  · exact hs
  · exact hs
  · exact hs
  · exact hs.yield _

omit [DecidableEq σ] in
theorem combine_of_conflict {s : Calls σ × List (Bound σ × Bound σ)} {pair : Bound σ × Bound σ}
    (hs : s.1.Quiet) (h : PairConflict pair) : (combine callback s pair).1.Loud := by
  rw [combine, if_neg (by simp [hs.2]), if_neg h.1, if_neg h.2]
  exact hs.yield _

omit [DecidableEq σ] in
theorem mem_boundPairs_iff {comparator : Comparator σ} {p : Bound σ × Bound σ} :
    p ∈ boundPairs comparator s ↔ p.1 ∈ s.mLower ∧ p.2 ∈ s.mUpper := by
  refine ⟨mem_boundPairs, ?_⟩
  rintro ⟨hl, hu⟩
  refine mem_flatMap.mpr ⟨p.1, Comparator.mem_sort.mpr hl, mem_map.mpr ⟨p.2, ?_, rfl⟩⟩
  split_ifs
  · exact mem_reverse.mpr (Comparator.mem_sort.mpr hu)
  · exact Comparator.mem_sort.mpr hu

/-! ### Holes -/

variable {mInequalities : List (Bound σ)}

omit [DecidableEq σ] in
theorem find_hole_iff {r : ℚ} :
    (∃ i ∈ mInequalities, i.r = r) ↔ ∃ i, mInequalities.find? (fun i => i.r = r) = some i := by
  rw [← Option.isSome_iff_exists, find?_isSome]
  simp only [decide_eq_true_eq]

omit [DecidableEq σ] in
theorem resolveEquality_cases (out : Calls σ) (eq : Bound σ) :
    (out.Loud → (resolveEquality mInequalities callback out eq).Loud) ∧
      (out.Quiet → (∃ i ∈ mInequalities, i.r = eq.r) →
        (resolveEquality mInequalities callback out eq).Loud) ∧
      (out.Quiet → (¬ ∃ i ∈ mInequalities, i.r = eq.r) →
        (resolveEquality mInequalities callback out eq).Quiet) := by
  rw [find_hole_iff, resolveEquality]
  split
  · next i hi =>
      exact ⟨fun h => h.yield _, fun h _ => h.yield _, fun _ hno => absurd ⟨i, hi⟩ hno⟩
  · next hnone =>
      refine ⟨id, fun _ ⟨i, hi⟩ => ?_, fun h _ => h⟩
      rw [hnone] at hi
      cases hi

omit [DecidableEq σ] in
theorem resolvePair_cases (out : Calls σ) (pair : Bound σ × Bound σ) :
    (out.Loud → (resolvePair mInequalities callback out pair).Loud) ∧
      (out.Quiet → (∃ i ∈ mInequalities, i.r = pair.1.r) →
        (resolvePair mInequalities callback out pair).Loud) ∧
      (out.Quiet → (¬ ∃ i ∈ mInequalities, i.r = pair.1.r) →
        (resolvePair mInequalities callback out pair).Quiet) := by
  rw [find_hole_iff, resolvePair]
  split
  · next i hi =>
      exact ⟨fun h => h.yield _, fun h _ => h.yield _, fun _ hno => absurd ⟨i, hi⟩ hno⟩
  · next hnone =>
      refine ⟨id, fun _ ⟨i, hi⟩ => ?_, fun h _ => h⟩
      rw [hnone] at hi
      cases hi

/-! ## The search as a whole -/

section Search

variable {comparator : Comparator σ} {mBounds : List (Constraint σ)}

/-- A remembered pair or an equality whose point is a hole. -/
def HoleConflict (s : Bounds σ) : Prop :=
  ∃ l ∈ s.mLower, ∃ u ∈ s.mUpper, l.r = u.r ∧ ¬ strict l u ∧ ∃ i ∈ s.mInequalities, i.r = l.r

omit [DecidableEq σ] in
theorem combineBounds_cases (comparator : Comparator σ) (callback : Callback σ) (hs : s.out.Quiet) :
    ((∃ pair, pair.1 ∈ s.mLower ∧ pair.2 ∈ s.mUpper ∧ PairConflict pair) →
        (combineBounds comparator callback s).1.Loud) ∧
      ((¬ ∃ pair, pair.1 ∈ s.mLower ∧ pair.2 ∈ s.mUpper ∧ PairConflict pair) →
        (combineBounds comparator callback s).1.Quiet ∧
          ∀ p, p ∈ (combineBounds comparator callback s).2 ↔
            p.1 ∈ s.mLower ∧ p.2 ∈ s.mUpper ∧ p.1.r = p.2.r ∧ ¬ strict p.1 p.2) := by
  have hstep : ∀ (t : Calls σ × List (Bound σ × Bound σ)) pair, t.1.Quiet → ¬ PairConflict pair →
      (combine callback t pair).1.Quiet :=
    fun t pair ht hpair => (foldl_combine_pairs [pair] ht (by simpa using hpair)).1
  have hloop := foldl_quiet_or_loud (combine callback) (fun s => s.1.Quiet) (fun s => s.1.Loud)
    PairConflict combine_loud (fun _ _ => combine_of_conflict) hstep (boundPairs comparator s)
    (s := (s.out, [])) hs
  constructor
  · rintro ⟨pair, hl, hu, hconf⟩
    exact hloop.1 ⟨pair, mem_boundPairs_iff.mpr ⟨hl, hu⟩, hconf⟩
  · intro hno
    have hpairs : ∀ pair ∈ boundPairs comparator s, ¬ PairConflict pair := fun pair hpair hconf =>
      hno ⟨pair, (mem_boundPairs_iff.mp hpair).1, (mem_boundPairs_iff.mp hpair).2, hconf⟩
    obtain ⟨hquiet, hmem⟩ := foldl_combine_pairs (boundPairs comparator s) (s := (s.out, [])) hs
      hpairs
    refine ⟨hquiet, fun p => (hmem p).trans ?_⟩
    rw [or_iff_right not_mem_nil, mem_boundPairs_iff, and_assoc]

/-- The loops after the first one pass something exactly if there is a conflict. -/
theorem generateExplanation_of_collects (hs : Collects mModel x mBounds {} s)
    (heq : collectBounds mModel x callback mBounds = s) :
    generateExplanation comparator mBounds mModel x callback ≠ [] ↔
      (∃ pair, pair.1 ∈ s.mLower ∧ pair.2 ∈ s.mUpper ∧ PairConflict pair) ∨ HoleConflict s := by
  have hcombine := combineBounds_cases comparator callback hs.quiet
  rw [generateExplanation, heq]
  by_cases hpair : ∃ pair, pair.1 ∈ s.mLower ∧ pair.2 ∈ s.mUpper ∧ PairConflict pair
  · refine iff_of_true ?_ (.inl hpair)
    have hloud : (s.mEqualities.foldl (resolveEquality s.mInequalities callback)
        (combineBounds comparator callback s).1).Loud :=
      foldl_loud Calls.Loud (fun out eq => (resolveEquality_cases out eq).1) _ (hcombine.1 hpair)
    exact foldl_loud Calls.Loud (fun out p => (resolvePair_cases out p).1) _ hloud
  · obtain ⟨hquiet, hpairs⟩ := hcombine.2 hpair
    rw [or_iff_right hpair]
    have heqs := foldl_quiet_or_loud (resolveEquality s.mInequalities callback) Calls.Quiet
      Calls.Loud (fun eq => ∃ i ∈ s.mInequalities, i.r = eq.r)
      (fun out eq => (resolveEquality_cases out eq).1)
      (fun out eq => (resolveEquality_cases out eq).2.1)
      (fun out eq => (resolveEquality_cases out eq).2.2) s.mEqualities hquiet
    have hresol := fun {out : Calls σ} (hout : out.Quiet) =>
      foldl_quiet_or_loud (resolvePair s.mInequalities callback) Calls.Quiet Calls.Loud
        (fun p => ∃ i ∈ s.mInequalities, i.r = p.1.r)
        (fun out p => (resolvePair_cases out p).1)
        (fun out p => (resolvePair_cases out p).2.1)
        (fun out p => (resolvePair_cases out p).2.2) (combineBounds comparator callback s).2 hout
    by_cases heqhole : ∃ eq ∈ s.mEqualities, ∃ i ∈ s.mInequalities, i.r = eq.r
    · refine iff_of_true (foldl_loud Calls.Loud (fun out p => (resolvePair_cases out p).1) _
        (heqs.1 heqhole)) ?_
      -- an equality touches itself
      obtain ⟨eq, heqm, i, hi, hr⟩ := heqhole
      obtain ⟨c, hc, hfiles, rfl, hrel⟩ := ((hs.equality eq).mp heqm).resolve_left not_mem_nil
      have hrel' : (boundOf mModel x c).constr.relation = .eq := hrel
      refine ⟨_, (hs.lower _).mpr (.inr ⟨c, hc, hfiles, rfl, ?_⟩), _,
        (hs.upper _).mpr (.inr ⟨c, hc, hfiles, rfl, ?_⟩), rfl, ?_, i, hi, hr⟩
      · simp [Bound.IsLower, hrel']
      · simp [Bound.IsUpper, hrel']
      · simp [strict, hrel', Relation.isStrict]
    · have hout := heqs.2 fun eq heqm hhole => heqhole ⟨eq, heqm, hhole⟩
      by_cases hhole : HoleConflict s
      · refine iff_of_true ?_ hhole
        obtain ⟨l, hl, u, hu, hr, hweak, hi⟩ := hhole
        exact (hresol hout).1 ⟨(l, u), (hpairs _).mpr ⟨hl, hu, hr, hweak⟩, hi⟩
      · refine iff_of_false ?_ hhole
        have hend := (hresol hout).2 fun p hp hi => by
          obtain ⟨hl, hu, hr, hweak⟩ := (hpairs p).mp hp
          exact hhole ⟨p.1, hl, p.2, hu, hr, hweak, hi⟩
        exact not_not.mpr hend.1

/-- The constraints that contain `x` have a common real solution under the model. -/
def Satisfiable (mBounds : List (Constraint σ)) (mModel : σ → ℚ) (x : σ) : Prop :=
  ∃ v : ℝ, ∀ c ∈ mBounds, c.lhs.hasVariable x = true → c.Sat (extend mModel x v)

theorem satisfiable_iff_of_collects (hs : Collects mModel x mBounds {} s)
    (hlin : ∀ c ∈ mBounds, c.lhs.maxDegree x ≤ 1)
    (hzero : ∀ c ∈ mBounds, ¬ ZeroConflict mModel x c) :
    Satisfiable mBounds mModel x ↔
      ¬ ((∃ pair, pair.1 ∈ s.mLower ∧ pair.2 ∈ s.mUpper ∧ PairConflict pair) ∨ HoleConflict s) := by
  -- the constraints as limits and holes
  have hline : Satisfiable mBounds mModel x ↔ ∃ v : ℝ,
      (∀ l ∈ s.mLower.map Bound.limit, l.Above v) ∧ (∀ u ∈ s.mUpper.map Bound.limit, u.Below v) ∧
        v ∉ s.mInequalities.map fun i => (i.r : ℝ) := by
    constructor
    · rintro ⟨v, hv⟩
      have hallows : ∀ c ∈ mBounds, Files mModel x c → (boundOf mModel x c).Allows v :=
        fun c hc hfiles => ((boundOf mModel x c).allows_iff hfiles.wf v).mp (hv c hc hfiles.1)
      refine ⟨v, ?_, ?_, ?_⟩
      · intro l hl
        obtain ⟨b, hb, rfl⟩ := mem_map.mp hl
        obtain ⟨c, hc, hfiles, rfl, hlow⟩ := ((hs.lower b).mp hb).resolve_left not_mem_nil
        exact (hallows c hc hfiles).1 hlow
      · intro u hu
        obtain ⟨b, hb, rfl⟩ := mem_map.mp hu
        obtain ⟨c, hc, hfiles, rfl, hup⟩ := ((hs.upper b).mp hb).resolve_left not_mem_nil
        exact (hallows c hc hfiles).2.1 hup
      · intro hmem
        obtain ⟨b, hb, hbv⟩ := mem_map.mp hmem
        obtain ⟨c, hc, hfiles, rfl, hrel⟩ :=
          ((hs.inequality b).mp hb).resolve_left not_mem_nil
        exact (hallows c hc hfiles).2.2 hrel hbv.symm
    · rintro ⟨v, hlow, hup, hhole⟩
      refine ⟨v, fun c hc hvar => ?_⟩
      by_cases hp : (c.lhs.coefficient x 1).eval mModel = 0
      · rw [sat_extend_iff v (hlin c hc), hp, Rat.cast_zero, zero_mul]
        have hrel : c.relation.evaluate 0 ((remainder x c).eval mModel) :=
          not_not.mp fun hrel => hzero c hc ⟨hvar, hlin c hc, hp, hrel⟩
        exact (evaluate_zero_cast c.relation _).mpr hrel
      · have hfiles : Files mModel x c := ⟨hvar, hlin c hc, hp⟩
        refine ((boundOf mModel x c).allows_iff hfiles.wf v).mpr ⟨fun hl => ?_, fun hu => ?_, ?_⟩
        · exact hlow _ (mem_map_of_mem ((hs.lower _).mpr (.inr ⟨c, hc, hfiles, rfl, hl⟩)))
        · exact hup _ (mem_map_of_mem ((hs.upper _).mpr (.inr ⟨c, hc, hfiles, rfl, hu⟩)))
        · intro hrel hv
          exact hhole (mem_map.mpr
            ⟨_, (hs.inequality _).mpr (.inr ⟨c, hc, hfiles, rfl, hrel⟩), hv.symm⟩)
  rw [hline, Line.exists_solution_iff, not_or]
  apply and_congr
  · constructor
    · rintro h ⟨pair, hl, hu, hconf⟩
      exact (pairConflict_iff pair).mp hconf (h _ (mem_map_of_mem hl) _ (mem_map_of_mem hu))
    · intro hno l hl u hu
      obtain ⟨b, hb, rfl⟩ := mem_map.mp hl
      obtain ⟨b', hb', rfl⟩ := mem_map.mp hu
      exact not_not.mp fun h => hno ⟨(b, b'), hb, hb', (pairConflict_iff (b, b')).mpr h⟩
  · have htouch : ∀ l u : Bound σ, Line.Limit.Touch l.limit u.limit ↔ l.r = u.r ∧ ¬ strict l u := by
      intro l u
      rw [Line.Limit.Touch, Bound.limit, Bound.limit, Rat.cast_inj, strict, Bool.or_eq_true,
        not_or, Bool.not_eq_true, Bool.not_eq_true]
    constructor
    · rintro h ⟨l, hl, u, hu, hr, hweak, i, hi, hir⟩
      refine h _ (mem_map_of_mem hl) _ (mem_map_of_mem hu)
        ((htouch l u).mpr ⟨hr, hweak⟩) (mem_map.mpr ⟨i, hi, ?_⟩)
      rw [hir]
      rfl
    · intro hno l hl u hu ht hmem
      obtain ⟨b, hb, rfl⟩ := mem_map.mp hl
      obtain ⟨b', hb', rfl⟩ := mem_map.mp hu
      obtain ⟨i, hi, hir⟩ := mem_map.mp hmem
      obtain ⟨hr, hweak⟩ := (htouch b b').mp ht
      exact hno ⟨b, hb, b', hb', hr, hweak, i, hi, Rat.cast_inj.mp hir⟩

/-- If every constraint is at most linear in `x`, something is passed to the callback exactly if no
real value of `x` satisfies the constraints that contain `x` under the model. -/
theorem generateExplanation_complete (comparator : Comparator σ) (mBounds : List (Constraint σ))
    (mModel : σ → ℚ) (x : σ) (callback : Callback σ)
    (hlinear : ∀ c ∈ mBounds, c.lhs.maxDegree x ≤ 1) :
    generateExplanation comparator mBounds mModel x callback ≠ [] ↔
      ¬ ∃ v : ℝ, ∀ c ∈ mBounds, c.lhs.hasVariable x = true →
        c.Sat (fun y => if y = x then v else (mModel y : ℝ)) := by
  have hstart : ({} : Bounds σ).out.Quiet := ⟨rfl, rfl⟩
  by_cases hzero : ∃ c ∈ mBounds, ZeroConflict mModel x c
  · have hstep : ∀ (s : Bounds σ) c, s.out.Quiet → ¬ ZeroConflict mModel x c →
        (processBound mModel x callback s c).out.Quiet :=
      fun s c hs hc => (foldl_processBound_collects [c] hs (by simpa using hc)).quiet
    have hloop := foldl_quiet_or_loud (processBound mModel x callback) (fun s => s.out.Quiet)
      (fun s => s.out.Loud) (ZeroConflict mModel x) processBound_loud
      (fun _ _ => processBound_of_zeroConflict) hstep mBounds hstart
    refine iff_of_true ?_ ?_
    · have hcombine : (combineBounds comparator callback
          (collectBounds mModel x callback mBounds)).1.Loud :=
        foldl_loud (fun s : Calls σ × List (Bound σ × Bound σ) => s.1.Loud)
          combine_loud _ (hloop.1 hzero)
      refine foldl_loud Calls.Loud (fun out p => (resolvePair_cases out p).1) _ ?_
      exact foldl_loud Calls.Loud (fun out eq => (resolveEquality_cases out eq).1) _ hcombine
    · rintro ⟨v, hv⟩
      obtain ⟨c, hc, hvar, hdeg, hp, hrel⟩ := hzero
      have hsat := (sat_extend_iff v hdeg).mp (hv c hc hvar)
      rw [hp, Rat.cast_zero, zero_mul] at hsat
      exact hrel ((evaluate_zero_cast c.relation _).mp hsat)
  · have hno : ∀ c ∈ mBounds, ¬ ZeroConflict mModel x c := fun c hc h => hzero ⟨c, hc, h⟩
    have hs : Collects mModel x mBounds {} (collectBounds mModel x callback mBounds) :=
      foldl_processBound_collects mBounds hstart hno
    rw [generateExplanation_of_collects hs rfl]
    exact (not_iff_comm.mp (satisfiable_iff_of_collects hs hlinear hno).symm).symm

end Search

/-- The bounds `1 ≤ x` and `x ≤ 0` leave no value for `x`, and a clause is passed. -/
theorem generateExplanation_complete_disjointBounds :
    generateExplanation ⟨false, fun a b => a.r < b.r⟩ disjointBounds (fun _ => 0) 0
        (fun _ _ => true) ≠ [] ∧
      ¬ ∃ v : ℝ, ∀ c ∈ disjointBounds, c.lhs.hasVariable 0 = true →
        c.Sat (fun y => if y = 0 then v else (((fun _ => 0 : ℕ → ℚ) y : ℚ) : ℝ)) := by
  have hpass : generateExplanation ⟨false, fun a b => a.r < b.r⟩ disjointBounds (fun _ => 0) 0
      (fun _ _ => true) ≠ [] := by decide +kernel
  exact ⟨hpass, (generateExplanation_complete _ disjointBounds _ 0 _ (by decide +kernel)).mp hpass⟩

end Smtrat.Mcsat.FM
