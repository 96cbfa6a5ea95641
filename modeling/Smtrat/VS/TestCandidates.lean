import Smtrat.VS.Substitute

/-!
# Test candidates

A condition provides test candidates for a variable: the zeros of its factors, if they are linear or
quadratic in the variable, plus an infinitesimal if the condition is strict.
-/

namespace Smtrat.VS

open SparsePoly List

universe u

/-- What is used of polynomials and constraints. -/
structure EliminationLibrary (V : Type u) [DecidableEq V] where
  /-- The constraint that is stored for a polynomial and a relation. -/
  constraint : Poly V ℚ → Relation → ConstraintT V
  sat_constraint : ∀ p r (α : V → ℝ), (constraint p r).Sat α ↔ r.evaluate (Poly.eval α p) 0
  /-- The factors of a polynomial with their exponents, if it has a factorization. -/
  factorization : Poly V ℚ → Option (List (Poly V ℚ × ℕ))
  factorization_pos : ∀ p fs, factorization p = some fs → ∀ f ∈ fs, 0 < f.2
  factorization_eval : ∀ p fs, factorization p = some fs → ∃ q : ℚ, q ≠ 0 ∧ ∀ α : V → ℝ,
    Poly.eval α p = q * (fs.map fun f => Poly.eval α f.1 ^ f.2).prod
  /-- The constructor of square root expressions normalizes them. -/
  sqrtEx : SqrtEx V → SqrtEx V
  sqrtEx_defined : ∀ t (α : V → ℝ), t.Defined α → (sqrtEx t).Defined α
  sqrtEx_value : ∀ t (α : V → ℝ), t.Defined α → (sqrtEx t).value α = t.value α

theorem EliminationLibrary.defined_id {V : Type u} (t : SqrtEx V) (α : V → ℝ) (h : t.Defined α) :
    (id t).Defined α := h

theorem EliminationLibrary.value_id {V : Type u} (t : SqrtEx V) (α : V → ℝ) (_ : t.Defined α) :
    (id t).value α = t.value α := rfl

/-- A substitution with its side conditions. -/
structure TestCandidate (V : Type u) where
  substitution : Substitution V
  sideCondition : Finset (ConstraintT V)
deriving DecidableEq

section Candidates

variable {V : Type u} [DecidableEq V] (lib : EliminationLibrary V)

/-- Adds a side condition, unless it always holds. -/
def insertCondition (cons : ConstraintT V) (sideCond : Finset (ConstraintT V)) :
    Finset (ConstraintT V) :=
  if cons = .constant true then sideCond else insert cons sideCond

/-- Normal or plus an infinitesimal. -/
def subType (relation : Relation) (term : SqrtEx V) : SubstitutionType V :=
  if relation.isStrict then .plusEpsilon term else .normal term

/-- The factors of a polynomial; without factorization it is its only factor. -/
def allFactors (elimination_with_factorization : Bool) (lhs : Poly V ℚ) : List (Poly V ℚ) :=
  match if elimination_with_factorization then lib.factorization lhs else none with
  | some factors => factors.map (·.1)
  | none => [lhs]

/-- The factors with the variable. -/
def factorsOf (elimination_with_factorization : Bool) (x : V) (lhs : Poly V ℚ) : List (Poly V ℚ) :=
  (allFactors lib elimination_with_factorization lhs).filter (Poly.hasVariable x)

/-- The other factors must not be zero. -/
def sideConditionsOf (elimination_with_factorization : Bool) (x : V) (lhs : Poly V ℚ) :
    Finset (ConstraintT V) :=
  ((allFactors lib elimination_with_factorization lhs).filter fun f => ¬ Poly.hasVariable x f).foldl
    (fun sideConditions f => insertCondition (lib.constraint f .neq) sideConditions) ∅

/-- The zeros of a factor; the candidates of a factor of higher degree are not generated. -/
def testCandidates (x : V) (relation : Relation) (sideConditions : Finset (ConstraintT V))
    (factor : Poly V ℚ) : List (TestCandidate V) :=
  let candidate (term : SqrtEx V) (sideCond : Finset (ConstraintT V)) : TestCandidate V :=
    ⟨⟨x, subType relation (lib.sqrtEx term)⟩, sideCond⟩
  let constantCoeff := Poly.coefficient x 0 factor
  let linearCoeff := Poly.coefficient x 1 factor
  match Poly.maxDegree x factor with
  | 1 =>
    -- ({b!=0} + oldConditions, [x -> -c/b])
    let cons := lib.constraint linearCoeff .neq
    if cons = .constant false then []
    else [candidate ⟨Poly.neg constantCoeff, [], [], linearCoeff⟩
      (insertCondition cons sideConditions)]
  | 2 =>
    let leadingCoeff := Poly.coefficient x 2 factor
    let radicand := Poly.sub (Poly.mul linearCoeff linearCoeff)
      (Poly.mul (SparsePoly.Poly.const 4) (Poly.mul leadingCoeff constantCoeff))
    let cons11 := lib.constraint leadingCoeff .eq
    let cons12 := lib.constraint linearCoeff .neq
    let cons21 := lib.constraint radicand .geq
    let cons22 := lib.constraint leadingCoeff .neq
    let sideCond := insertCondition cons22 (insertCondition cons21 sideConditions)
    -- ({a==0, b!=0} + oldConditions, [x -> -c/b])
    (if cons11 = .constant false ∨ cons12 = .constant false then []
      else [candidate ⟨Poly.neg constantCoeff, [], [], linearCoeff⟩
        (insertCondition cons12 (insertCondition cons11 sideConditions))]) ++
    -- ({a!=0, b^2-4ac>=0} + oldConditions, [x -> (-b-sqrt(b^2-4ac))/2a]) and the other zero
    (if cons21 = .constant false ∨ cons22 = .constant false then []
      else [candidate ⟨Poly.neg linearCoeff, SparsePoly.Poly.const (-1), radicand,
          Poly.mul (SparsePoly.Poly.const 2) leadingCoeff⟩ sideCond,
        candidate ⟨Poly.neg linearCoeff, SparsePoly.Poly.const 1, radicand,
          Poly.mul (SparsePoly.Poly.const 2) leadingCoeff⟩ sideCond])
  | _ => []

/-- The test candidates of all factors of a polynomial. -/
def allTestCandidates (elimination_with_factorization : Bool) (x : V) (c : Constraint V) :
    List (TestCandidate V) :=
  (factorsOf lib elimination_with_factorization x c.lhs).flatMap
    (testCandidates lib x c.relation (sideConditionsOf lib elimination_with_factorization x c.lhs))

variable {lib}

theorem testCandidates_of_lt {x : V} {relation : Relation} {sideConditions : Finset (ConstraintT V)}
    {factor : Poly V ℚ} (h : 2 < Poly.maxDegree x factor) :
    testCandidates lib x relation sideConditions factor = [] := by
  rw [testCandidates]
  dsimp only
  split
  · omega
  · omega
  · rfl

/-- The side conditions of a candidate contain those of its condition. -/
theorem subset_insertCondition (cons : ConstraintT V) (sideCond : Finset (ConstraintT V)) :
    sideCond ⊆ insertCondition cons sideCond := by
  rw [insertCondition]
  split_ifs
  · exact subset_rfl
  · exact Finset.subset_insert ..

theorem subset_sideCondition {x : V} {relation : Relation} {sideConditions : Finset (ConstraintT V)}
    {factor : Poly V ℚ} {candidate : TestCandidate V}
    (h : candidate ∈ testCandidates lib x relation sideConditions factor) :
    sideConditions ⊆ candidate.sideCondition := by
  have hsub (cons cons' : ConstraintT V) :
      sideConditions ⊆ insertCondition cons' (insertCondition cons sideConditions) :=
    (subset_insertCondition cons sideConditions).trans (subset_insertCondition cons' _)
  rw [testCandidates] at h
  dsimp only at h
  split at h
  · split_ifs at h
    · exact absurd h not_mem_nil
    · rw [mem_singleton.mp h]
      exact subset_insertCondition ..
  · rcases mem_append.mp h with h | h
    · split_ifs at h
      · exact absurd h not_mem_nil
      · rw [mem_singleton.mp h]
        exact hsub ..
    · split_ifs at h
      · exact absurd h not_mem_nil
      · rcases mem_cons.mp h with rfl | h
        · exact hsub ..
        · rw [mem_singleton.mp h]
          exact hsub ..
  · exact absurd h not_mem_nil

end Candidates

/-! ## The zeros -/

section Zeros

variable {V : Type u} {α : V → ℝ} {z : ℝ}

theorem ne_false_of_sat {cons : ConstraintT V} (h : cons.Sat α) : cons ≠ .constant false := by
  rintro rfl
  exact Bool.false_ne_true h

/-- A linear equation has the zero `-c/b`. -/
theorem linear_term {b c : Poly V ℚ} (hb : Poly.eval α b ≠ 0)
    (hz : Poly.eval α b * z + Poly.eval α c = 0) :
    (SqrtEx.mk (Poly.neg c) [] [] b).Defined α ∧ (SqrtEx.mk (Poly.neg c) [] [] b).value α = z := by
  refine ⟨⟨by simp, hb⟩, ?_⟩
  rw [SqrtEx.value]
  simp only [Poly.eval_neg, Poly.eval_nil, zero_mul, add_zero]
  rw [div_eq_iff hb]
  linarith

/-- A quadratic equation has the zeros `(-b-sqrt(b^2-4ac))/2a` and `(-b+sqrt(b^2-4ac))/2a`. -/
theorem quadratic_zero {a b c : ℝ} (ha : a ≠ 0) (hz : a * z ^ 2 + b * z + c = 0) :
    0 ≤ b * b - 4 * (a * c) ∧ ((-b + -1 * √(b * b - 4 * (a * c))) / (2 * a) = z ∨
      (-b + 1 * √(b * b - 4 * (a * c))) / (2 * a) = z) := by
  have hsq : b * b - 4 * (a * c) = (2 * a * z + b) ^ 2 := by
    have hc : c = -(a * z ^ 2 + b * z) := by linarith
    rw [hc]
    ring
  rw [hsq, Real.sqrt_sq_eq_abs]
  refine ⟨sq_nonneg _, ?_⟩
  have hden : 2 * a ≠ 0 := mul_ne_zero two_ne_zero ha
  rcases le_total 0 (2 * a * z + b) with h | h
  · refine .inr ?_
    rw [abs_of_nonneg h, div_eq_iff hden]
    ring
  · refine .inl ?_
    rw [abs_of_nonpos h, div_eq_iff hden]
    ring

variable [DecidableEq V] {lib : EliminationLibrary V} {x : V}

theorem sat_insertCondition {cons : ConstraintT V} {sideCond : Finset (ConstraintT V)}
    (hcons : cons.Sat α) (h : ∀ sc ∈ sideCond, sc.Sat α) :
    ∀ sc ∈ insertCondition cons sideCond, sc.Sat α := by
  intro sc hsc
  rw [insertCondition] at hsc
  split_ifs at hsc
  · exact h sc hsc
  · rcases Finset.mem_insert.mp hsc with rfl | hsc
    · exact hcons
    · exact h sc hsc

theorem sat_neq {p : Poly V ℚ} (h : Poly.eval α p ≠ 0) : (lib.constraint p .neq).Sat α :=
  (lib.sat_constraint p .neq α).mpr h

/-- The candidate is a zero, and its side conditions hold. -/
structure TestCandidate.IsZero (candidate : TestCandidate V) (α : V → ℝ) (x : V)
    (relation : Relation) (z : ℝ) : Prop where
  sideCondition : ∀ sc ∈ candidate.sideCondition, sc.Sat α
  substitution : ∃ term : SqrtEx V, candidate.substitution = ⟨x, subType relation term⟩ ∧
    term.Defined α ∧ term.value α = z

theorem isZero_of_term {relation : Relation} {sideCond : Finset (ConstraintT V)} {term : SqrtEx V}
    (hside : ∀ sc ∈ sideCond, sc.Sat α) (hdfn : term.Defined α) (hval : term.value α = z) :
    (TestCandidate.mk ⟨x, subType relation (lib.sqrtEx term)⟩ sideCond).IsZero α x relation z where
  sideCondition := hside
  substitution := ⟨lib.sqrtEx term, rfl, lib.sqrtEx_defined term α hdfn,
    (lib.sqrtEx_value term α hdfn).trans hval⟩

/-- The value of a polynomial of degree at most two. -/
theorem eval_univariate_quadratic {f : Poly V ℚ} (hdeg : Poly.maxDegree x f ≤ 2) :
    (Poly.univariate x α f).eval z = Poly.eval α (Poly.coefficient x 2 f) * z ^ 2 +
      Poly.eval α (Poly.coefficient x 1 f) * z + Poly.eval α (Poly.coefficient x 0 f) := by
  have hlt : (Poly.univariate x α f).natDegree < 3 :=
    Nat.lt_succ_of_le ((Poly.natDegree_univariate_le x α f).trans hdeg)
  rw [Polynomial.eval_eq_sum_range' hlt, Finset.sum_range_succ, Finset.sum_range_succ,
    Finset.sum_range_one, Poly.coeff_univariate, Poly.coeff_univariate, Poly.coeff_univariate]
  ring

/-- The coefficients above the degree are zero. -/
theorem eval_coefficient_of_lt {f : Poly V ℚ} {k : ℕ} (hk : Poly.maxDegree x f < k) :
    Poly.eval α (Poly.coefficient x k f) = 0 := by
  rw [← Poly.coeff_univariate]
  exact Polynomial.coeff_eq_zero_of_natDegree_lt ((Poly.natDegree_univariate_le x α f).trans_lt hk)

/-- Every zero of a factor of degree at most two is a candidate, if the factor does not vanish. -/
theorem exists_testCandidate (relation : Relation) {sideConditions : Finset (ConstraintT V)}
    {f : Poly V ℚ} (hside : ∀ sc ∈ sideConditions, sc.Sat α) (hdeg : Poly.maxDegree x f ≤ 2)
    (hne : Poly.univariate x α f ≠ 0) (hzero : (Poly.univariate x α f).eval z = 0) :
    ∃ candidate ∈ testCandidates lib x relation sideConditions f,
      candidate.IsZero α x relation z := by
  rw [eval_univariate_quadratic hdeg] at hzero
  have hvanish (h₂ : Poly.eval α (Poly.coefficient x 2 f) = 0)
      (h₁ : Poly.eval α (Poly.coefficient x 1 f) = 0) : False := by
    refine hne (Polynomial.funext fun r => ?_)
    rw [h₂, h₁] at hzero
    rw [eval_univariate_quadratic hdeg, h₂, h₁, Polynomial.eval_zero]
    linarith
  interval_cases hd : Poly.maxDegree x f
  · exact (hvanish (eval_coefficient_of_lt (by omega)) (eval_coefficient_of_lt (by omega))).elim
  · have h₂ : Poly.eval α (Poly.coefficient x 2 f) = 0 := eval_coefficient_of_lt (by omega)
    have hb : Poly.eval α (Poly.coefficient x 1 f) ≠ 0 := hvanish h₂
    rw [h₂, zero_mul, zero_add] at hzero
    obtain ⟨hdfn, hval⟩ := linear_term hb hzero
    have hcons : (lib.constraint (Poly.coefficient x 1 f) .neq).Sat α := sat_neq hb
    rw [testCandidates, hd]
    dsimp only
    rw [if_neg (ne_false_of_sat hcons)]
    exact ⟨_, mem_cons_self, isZero_of_term (sat_insertCondition hcons hside) hdfn hval⟩
  · rw [testCandidates, hd]
    dsimp only
    by_cases ha : Poly.eval α (Poly.coefficient x 2 f) = 0
    · have hb : Poly.eval α (Poly.coefficient x 1 f) ≠ 0 := hvanish ha
      rw [ha, zero_mul, zero_add] at hzero
      obtain ⟨hdfn, hval⟩ := linear_term hb hzero
      have hcons11 : (lib.constraint (Poly.coefficient x 2 f) .eq).Sat α :=
        (lib.sat_constraint _ .eq α).mpr ha
      have hcons12 : (lib.constraint (Poly.coefficient x 1 f) .neq).Sat α := sat_neq hb
      rw [if_neg (not_or.mpr ⟨ne_false_of_sat hcons11, ne_false_of_sat hcons12⟩)]
      exact ⟨_, mem_append_left _ mem_cons_self, isZero_of_term
        (sat_insertCondition hcons12 (sat_insertCondition hcons11 hside)) hdfn hval⟩
    · obtain ⟨hrad, hval⟩ := quadratic_zero ha hzero
      set radicand := Poly.sub
        (Poly.mul (Poly.coefficient x 1 f) (Poly.coefficient x 1 f))
        (Poly.mul (SparsePoly.Poly.const 4)
          (Poly.mul (Poly.coefficient x 2 f) (Poly.coefficient x 0 f))) with hdef
      have heval : Poly.eval α radicand = Poly.eval α (Poly.coefficient x 1 f) *
          Poly.eval α (Poly.coefficient x 1 f) - 4 * (Poly.eval α (Poly.coefficient x 2 f) *
            Poly.eval α (Poly.coefficient x 0 f)) := by
        simp [hdef]
      rw [← heval] at hrad hval
      have hcons21 : (lib.constraint radicand .geq).Sat α :=
        (lib.sat_constraint _ .geq α).mpr hrad
      have hcons22 : (lib.constraint (Poly.coefficient x 2 f) .neq).Sat α := sat_neq ha
      have hsideCond := sat_insertCondition hcons22 (sat_insertCondition hcons21 hside)
      have hdfn (factor : ℚ) : (SqrtEx.mk (Poly.neg (Poly.coefficient x 1 f))
          (SparsePoly.Poly.const factor) radicand
          (Poly.mul (SparsePoly.Poly.const 2) (Poly.coefficient x 2 f))).Defined α :=
        ⟨hrad, by simpa using ha⟩
      rw [if_neg (not_or.mpr ⟨ne_false_of_sat hcons21, ne_false_of_sat hcons22⟩)]
      rcases hval with hval | hval
      · exact ⟨_, mem_append_right _ mem_cons_self,
          isZero_of_term hsideCond (hdfn (-1)) (by simpa [SqrtEx.value] using hval)⟩
      · exact ⟨_, mem_append_right _ (mem_cons_of_mem _ mem_cons_self),
          isZero_of_term hsideCond (hdfn 1) (by simpa [SqrtEx.value] using hval)⟩

/-! ## The factors -/

variable {lhs : Poly V ℚ}

/-- A polynomial is zero where one of its factors is. -/
theorem eval_eq_zero_iff_factor (lib : EliminationLibrary V) (elimination_with_factorization : Bool) :
    Poly.eval α lhs = 0 ↔
    ∃ f ∈ allFactors lib elimination_with_factorization lhs, Poly.eval α f = 0 := by
  rw [allFactors]
  cases hfacs : if elimination_with_factorization then lib.factorization lhs else none with
  | none => simp
  | some fs =>
    have hfs : lib.factorization lhs = some fs := by
      split_ifs at hfacs
      exact hfacs
    obtain ⟨q, hq, heval⟩ := lib.factorization_eval lhs fs hfs
    have hq : (q : ℝ) ≠ 0 := Rat.cast_ne_zero.mpr hq
    rw [heval, mul_eq_zero, or_iff_right hq, prod_eq_zero_iff]
    simp only [mem_map, exists_exists_and_eq_and]
    refine exists_congr fun f => and_congr_right fun hf => ?_
    exact pow_eq_zero_iff (lib.factorization_pos lhs fs hfs f hf).ne'

variable {elimination_with_factorization : Bool}

/-- If a polynomial does not vanish then its factors do not. -/
theorem univariate_factor_ne_zero (hne : Poly.univariate x α lhs ≠ 0) {f : Poly V ℚ}
    (hf : f ∈ allFactors lib elimination_with_factorization lhs) : Poly.univariate x α f ≠ 0 := by
  intro hzero
  refine hne (Polynomial.funext fun r => ?_)
  rw [Poly.eval_univariate, Polynomial.eval_zero, eval_eq_zero_iff_factor lib elimination_with_factorization]
  refine ⟨f, hf, ?_⟩
  rw [← Poly.eval_univariate, hzero, Polynomial.eval_zero]

/-- The side conditions hold where the factors without the variable are not zero. -/
theorem sat_sideConditionsOf (h : ∀ f ∈ allFactors lib elimination_with_factorization lhs,
    ¬ Poly.hasVariable x f → Poly.eval α f ≠ 0) :
    ∀ sc ∈ sideConditionsOf lib elimination_with_factorization x lhs, sc.Sat α := by
  rw [sideConditionsOf]
  refine List.foldlRecOn (motive := fun sideConditions : Finset (ConstraintT V) =>
    ∀ sc ∈ sideConditions, sc.Sat α) _ _
    (fun sc hsc => absurd hsc (Finset.notMem_empty sc)) ?_
  intro sideConditions hside f hf
  obtain ⟨hf, hvar⟩ := mem_filter.mp hf
  exact sat_insertCondition (sat_neq (h f hf (of_decide_eq_true hvar))) hside

/-- Without side conditions the factors without the variable are nowhere zero. -/
theorem eval_ne_zero_of_sideConditionsOf
    (h : sideConditionsOf lib elimination_with_factorization x lhs = ∅) {f : Poly V ℚ}
    (hf : f ∈ allFactors lib elimination_with_factorization lhs) (hvar : ¬ Poly.hasVariable x f)
    (α : V → ℝ) : Poly.eval α f ≠ 0 := by
  have hkept (fs : List (Poly V ℚ)) (sideConditions : Finset (ConstraintT V)) :
      fs.foldl (fun sideConditions f => insertCondition (lib.constraint f .neq) sideConditions)
        sideConditions = ∅ → sideConditions = ∅ ∧ ∀ f ∈ fs, lib.constraint f .neq = .constant true := by
    induction fs generalizing sideConditions with
    | nil => exact fun h => ⟨h, fun f hf => absurd hf not_mem_nil⟩
    | cons g fs ih =>
      intro hempty
      obtain ⟨hins, hrest⟩ := ih _ hempty
      have hins : insertCondition (lib.constraint g .neq) sideConditions = ∅ := hins
      rw [insertCondition] at hins
      split_ifs at hins with htrue
      · exact ⟨hins, forall_mem_cons.mpr ⟨htrue, hrest⟩⟩
      · exact absurd hins (Finset.insert_ne_empty _ _)
  have htrue := (hkept _ _ h).2 f (mem_filter.mpr ⟨hf, decide_eq_true hvar⟩)
  refine (lib.sat_constraint f .neq α).mp ?_
  rw [htrue]
  rfl

end Zeros

end Smtrat.VS
