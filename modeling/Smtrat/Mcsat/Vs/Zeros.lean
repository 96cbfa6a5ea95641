import Smtrat.Mcsat.Vs.Helper

/-!
# The zeros of a literal

The zeros that are generated are zeros of the polynomial where their side conditions hold, and all
zeros are generated.  The zero of a real algebraic number has its value everywhere.
-/

namespace Smtrat.Mcsat.Vs

open SparsePoly Smtrat.VS List Function Option

universe u v

/-! ## Variables of polynomials -/

section Variables

variable {σ : Type u} {x y : σ} {p q : Poly σ ℚ}

theorem variables_neg : Poly.variables (Poly.neg p) = Poly.variables p := by
  rw [Poly.variables, Poly.neg, flatMap_map]
  rfl

theorem mem_variables_mul (h : y ∈ Poly.variables (Poly.mul p q)) :
    y ∈ Poly.variables p ∨ y ∈ Poly.variables q := by
  obtain ⟨t, ht, n, hn⟩ := Poly.mem_variables.mp h
  obtain ⟨s, hs, ht⟩ := mem_flatMap.mp ht
  obtain ⟨r, hr, rfl⟩ := List.mem_map.mp ht
  rcases mem_append.mp hn with hn | hn
  · exact .inl (Poly.mem_variables.mpr ⟨s, hs, n, hn⟩)
  · exact .inr (Poly.mem_variables.mpr ⟨r, hr, n, hn⟩)

theorem mem_variables_sub (h : y ∈ Poly.variables (Poly.sub p q)) :
    y ∈ Poly.variables p ∨ y ∈ Poly.variables q := by
  rw [Poly.sub, Poly.variables, flatMap_append, mem_append] at h
  exact h.imp_right fun h => variables_neg (p := q) ▸ h

theorem not_mem_variables_const (c : ℚ) : y ∉ Poly.variables (SparsePoly.Poly.const c) := by
  simp [Poly.variables, SparsePoly.Poly.const]

theorem isConstant_iff : isConstant p ↔ ∀ y, y ∉ Poly.variables p := by
  rw [isConstant, List.isEmpty_iff, eq_nil_iff_forall_not_mem]

theorem cast_constantValue (h : isConstant p) (α : σ → ℝ) :
    ((constantValue p : ℚ) : ℝ) = Poly.eval α p := by
  induction p with
  | nil => simp [constantValue]
  | cons t p ih =>
    have hvars : t.monomial = [] ∧ isConstant p := by
      simpa [isConstant, Poly.variables] using h
    have ih := ih hvars.2
    rw [constantValue] at ih ⊢
    rw [Poly.eval_cons, Poly.eval_cons, Rat.cast_add, ih, Term.eval, Term.eval, hvars.1]
    simp

theorem isConstant_of_variables {t : SqrtEx σ} (h : ∀ y, y ∉ SqrtEx.variables t) :
    isConstant t.constantPart ∧ isConstant t.factor ∧ isConstant t.radicand ∧
      isConstant t.denominator := by
  simp only [SqrtEx.variables, mem_append, not_or] at h
  exact ⟨isConstant_iff.mpr fun y => (h y).1.1.1, isConstant_iff.mpr fun y => (h y).1.1.2,
    isConstant_iff.mpr fun y => (h y).1.2, isConstant_iff.mpr fun y => (h y).2⟩

end Variables

/-! ## Comparisons with rationals -/

section Comparison

/-- The comparisons of a square root. -/
theorem lt_sqrt_iff_or {a r : ℝ} : a < √r ↔ a < 0 ∨ a * a < r := by
  rcases lt_or_ge a 0 with ha | ha
  · exact iff_of_true (ha.trans_le (Real.sqrt_nonneg r)) (.inl ha)
  · rw [Real.lt_sqrt ha, or_iff_right ha.not_gt, sq]

theorem sqrt_lt_iff_and {a r : ℝ} : √r < a ↔ 0 < a ∧ r < a * a := by
  constructor
  · intro h
    have ha := (Real.sqrt_nonneg r).trans_lt h
    refine ⟨ha, ?_⟩
    rwa [Real.sqrt_lt' ha, sq] at h
  · rintro ⟨ha, h⟩
    rwa [Real.sqrt_lt' ha, sq]

/-- How far a square root expression is from a rational. -/
theorem sqrtEx_sub {c f r d q : ℝ} (hd : d ≠ 0) (hf : f ≠ 0) :
    (c + f * √r) / d - q = (d * f) * (√r - (q * d - c) / f) / (d * d) := by
  field_simp
  ring

/-- How a rational compares with a square root expression of rationals. -/
theorem lt_sqrtEx_iff {c f r d : ℚ} (hd : (d : ℝ) ≠ 0) (q : ℚ) :
    (q : ℝ) < (c + f * √(r : ℝ)) / d ↔
      f = 0 ∧ q < c / d ∨
      0 < d * f ∧ ((q * d - c) / f < 0 ∨ (q * d - c) / f * ((q * d - c) / f) < r) ∨
      d * f < 0 ∧ 0 < (q * d - c) / f ∧ r < (q * d - c) / f * ((q * d - c) / f) := by
  by_cases hf : f = 0
  · rw [hf, Rat.cast_zero, zero_mul, add_zero, mul_zero]
    simp only [lt_irrefl, true_and, false_and, or_false]
    exact_mod_cast Iff.rfl
  · rw [or_iff_right fun h : f = 0 ∧ q < c / d => hf h.1, ← sub_pos,
      sqrtEx_sub hd (Rat.cast_ne_zero.mpr hf), div_pos_iff_of_pos_right (mul_self_pos.mpr hd),
      mul_pos_iff, sub_pos, sub_neg, lt_sqrt_iff_or, sqrt_lt_iff_and]
    exact_mod_cast Iff.rfl

variable {σ : Type u} {α : σ → ℝ} {t : SqrtEx σ} (hvariables : ∀ y, y ∉ SqrtEx.variables t) (hdfn : t.Defined α) (q : ℚ)

include hvariables hdfn

theorem value_of_constants : ((constantValue t.denominator : ℚ) : ℝ) ≠ 0 ∧
    t.value α = ((constantValue t.constantPart : ℚ) + (constantValue t.factor : ℚ) *
      √((constantValue t.radicand : ℚ) : ℝ)) / (constantValue t.denominator : ℚ) := by
  obtain ⟨hconstantPart, hfac, hrad, hden⟩ := isConstant_of_variables hvariables
  rw [SqrtEx.value, cast_constantValue hconstantPart α, cast_constantValue hfac α,
    cast_constantValue hrad α, cast_constantValue hden α]
  exact ⟨hdfn.denominator_ne_zero, rfl⟩

theorem rationalLessThanSqrtEx_iff : rationalLessThanSqrtEx q t = true ↔ (q : ℝ) < t.value α := by
  obtain ⟨hd, hval⟩ := value_of_constants hvariables hdfn
  rw [hval, lt_sqrtEx_iff hd, rationalLessThanSqrtEx]
  dsimp only
  split_ifs with hf hpos hneg
  · simp [hf]
  · simp [hf, hpos, hpos.not_gt]
  · simp [hf, hneg, hpos]
  · simp [hf, hneg, hpos]

theorem sqrtExLessThanRational_iff : sqrtExLessThanRational t q = true ↔ t.value α < (q : ℝ) := by
  obtain ⟨hd, hval⟩ := value_of_constants hvariables hdfn
  have hiff := lt_sqrtEx_iff (c := -constantValue t.constantPart) (f := -constantValue t.factor)
    (r := constantValue t.radicand) hd (-q)
  rw [neg_mul, ← neg_sub', neg_div_neg_eq] at hiff
  push_cast at hiff
  simp only [neg_mul, ← neg_add, neg_div, neg_lt_neg_iff, neg_eq_zero, mul_neg, neg_pos,
    neg_neg_iff_pos] at hiff
  rw [hval, hiff, sqrtExLessThanRational]
  dsimp only
  split_ifs with hf hpos hneg
  · simp [hf]
  · simp [hf, hpos, hpos.not_gt]
  · simp [hf, hneg, hpos]
  · simp [hf, hneg, hpos]

end Comparison

/-! ## The zeros of a factor -/

variable {σ : Type u} {A : Type v} [DecidableEq σ] [RealAlgebraicNumber A]
  {lib : ExplanationLibrary σ A} {x : σ} {α : σ → ℝ} {z : ℝ}

/-- The zero exists and has the value. -/
structure HasValue (zero : Zero σ) (α : σ → ℝ) (z : ℝ) : Prop where
  sideCondition : ∀ sc ∈ zero.2, sc.Sat α
  defined : zero.1.Defined α
  value : zero.1.value α = z

theorem of_insertCondition {cons : ConstraintT σ} {sideCond : Finset (ConstraintT σ)}
    (h : ∀ sc ∈ insertCondition cons sideCond, sc.Sat α) :
    cons.Sat α ∧ ∀ sc ∈ sideCond, sc.Sat α := by
  rw [insertCondition] at h
  split_ifs at h with htrue
  · rw [htrue]
    exact ⟨rfl, h⟩
  · exact ⟨h cons (Finset.mem_insert_self ..), fun sc hsc => h sc (Finset.mem_insert_of_mem hsc)⟩

section Factor

variable {sideConditions : Finset (ConstraintT σ)} {f : Poly σ ℚ} {zeros : List (Zero σ)}

/-- A linear and a quadratic term, and the conditions under which they are zeros. -/
def linearTerm (x : σ) (f : Poly σ ℚ) : SqrtEx σ :=
  ⟨Poly.neg (Poly.coefficient x 0 f), [], [], Poly.coefficient x 1 f⟩

def radicand (x : σ) (f : Poly σ ℚ) : Poly σ ℚ :=
  Poly.sub (Poly.mul (Poly.coefficient x 1 f) (Poly.coefficient x 1 f))
    (Poly.mul (SparsePoly.Poly.const 4) (Poly.mul (Poly.coefficient x 2 f) (Poly.coefficient x 0 f)))

def quadraticTerm (x : σ) (f : Poly σ ℚ) (factor : ℚ) : SqrtEx σ :=
  ⟨Poly.neg (Poly.coefficient x 1 f), SparsePoly.Poly.const factor, radicand x f,
    Poly.mul (SparsePoly.Poly.const 2) (Poly.coefficient x 2 f)⟩

/-- What a zero of a factor looks like. -/
inductive ZeroOf (lib : ExplanationLibrary σ A) (x : σ) (sideConditions : Finset (ConstraintT σ))
    (f : Poly σ ℚ) : Zero σ → Prop where
  | linear : Poly.maxDegree x f = 1 →
      lib.constraint (Poly.coefficient x 1 f) .neq ≠ .constant false →
      ZeroOf lib x sideConditions f (lib.sqrtEx (linearTerm x f),
        insertCondition (lib.constraint (Poly.coefficient x 1 f) .neq) sideConditions)
  | degenerate : Poly.maxDegree x f = 2 →
      lib.constraint (Poly.coefficient x 2 f) .eq ≠ .constant false →
      lib.constraint (Poly.coefficient x 1 f) .neq ≠ .constant false →
      ZeroOf lib x sideConditions f (lib.sqrtEx (linearTerm x f),
        insertCondition (lib.constraint (Poly.coefficient x 1 f) .neq)
          (insertCondition (lib.constraint (Poly.coefficient x 2 f) .eq) sideConditions))
  | quadratic (factor : ℚ) : factor * factor = 1 → Poly.maxDegree x f = 2 →
      lib.constraint (radicand x f) .geq ≠ .constant false →
      lib.constraint (Poly.coefficient x 2 f) .neq ≠ .constant false →
      ZeroOf lib x sideConditions f (lib.sqrtEx (quadraticTerm x f factor),
        insertCondition (lib.constraint (Poly.coefficient x 2 f) .neq)
          (insertCondition (lib.constraint (radicand x f) .geq) sideConditions))

theorem zeroOf_of_mem (h : zerosOfFactor lib x sideConditions f = some zeros) {zero : Zero σ}
    (hzero : zero ∈ zeros) : ZeroOf lib x sideConditions f zero := by
  rw [zerosOfFactor] at h
  dsimp only at h
  split at h
  · rw [← some.inj h] at hzero
    exact absurd hzero not_mem_nil
  · rename_i hdeg
    rw [← some.inj h] at hzero
    split_ifs at hzero with hfalse
    · exact absurd hzero not_mem_nil
    · rw [mem_singleton.mp hzero]
      exact .linear hdeg hfalse
  · rename_i hdeg
    rw [← some.inj h] at hzero
    rcases mem_append.mp hzero with hzero | hzero
    · split_ifs at hzero with hfalse
      · exact absurd hzero not_mem_nil
      · rw [mem_singleton.mp hzero]
        exact .degenerate hdeg (fun h => hfalse (.inl h)) fun h => hfalse (.inr h)
    · split_ifs at hzero with hfalse
      · exact absurd hzero not_mem_nil
      · have hrad := fun h => hfalse (.inl h)
        have hlead := fun h => hfalse (.inr h)
        rcases mem_cons.mp hzero with rfl | hzero
        · exact .quadratic (-1) (by norm_num) hdeg hrad hlead
        · rw [mem_singleton.mp hzero]
          exact .quadratic 1 (by norm_num) hdeg hrad hlead
  · exact nomatch h

/-- The zeros are the test candidates of an equation. -/
theorem testCandidates_eq_map (h : zerosOfFactor lib x sideConditions f = some zeros) :
    testCandidates lib.toEliminationLibrary x .eq sideConditions f
      = zeros.map fun zero => ⟨⟨x, .normal zero.1⟩, zero.2⟩ := by
  rw [zerosOfFactor] at h
  rw [testCandidates]
  dsimp only at h ⊢
  split at h
  · rename_i hdeg
    rw [← some.inj h]
    simp only [hdeg]
    rfl
  · rename_i hdeg
    rw [← some.inj h]
    simp only [hdeg]
    split_ifs
    · rfl
    · rfl
  · rename_i hdeg
    rw [← some.inj h]
    simp only [hdeg]
    split_ifs
    · rfl
    · rfl
    · rfl
    · rfl
  · cases h

theorem maxDegree_le_of_zerosOfFactor (h : zerosOfFactor lib x sideConditions f = some zeros) :
    Poly.maxDegree x f ≤ 2 := by
  rw [zerosOfFactor] at h
  dsimp only at h
  split at h
  · omega
  · omega
  · omega
  · cases h

/-- All zeros of a factor are generated. -/
theorem exists_zeroOfFactor (h : zerosOfFactor lib x sideConditions f = some zeros)
    (hside : ∀ sc ∈ sideConditions, sc.Sat α) (hne : Poly.univariate x α f ≠ 0)
    (hzero : (Poly.univariate x α f).eval z = 0) : ∃ zero ∈ zeros, HasValue zero α z := by
  have hexists : ∃ candidate ∈ testCandidates lib.toEliminationLibrary x .eq sideConditions f,
      candidate.IsZero α x .eq z :=
    exists_testCandidate .eq hside (maxDegree_le_of_zerosOfFactor h) hne hzero
  obtain ⟨candidate, hcand, hsat, term, hsubst, hdfn, hval⟩ := hexists
  rw [testCandidates_eq_map h] at hcand
  obtain ⟨zero, hmem, rfl⟩ := List.mem_map.mp hcand
  have hterm : zero.1 = term := by
    have htype := congrArg Substitution.type hsubst
    exact SubstitutionType.normal.inj htype
  exact ⟨zero, hmem, hsat, hterm ▸ hdfn, hterm ▸ hval⟩

/-- Where its side conditions hold, a zero is defined and a zero of the factor. -/
theorem ZeroOf.isRoot {zero : Zero σ} (h : ZeroOf lib x sideConditions f zero)
    (hside : ∀ sc ∈ zero.2, sc.Sat α) : (∀ sc ∈ sideConditions, sc.Sat α) ∧ zero.1.Defined α ∧
      (Poly.univariate x α f).eval (zero.1.value α) = 0 := by
  have hlin (hb : (lib.constraint (Poly.coefficient x 1 f) .neq).Sat α)
      (ha : Poly.eval α (Poly.coefficient x 2 f) = 0) (hdeg : Poly.maxDegree x f ≤ 2) :
      (lib.sqrtEx (linearTerm x f)).Defined α ∧
        (Poly.univariate x α f).eval ((lib.sqrtEx (linearTerm x f)).value α) = 0 := by
    have hb : Poly.eval α (Poly.coefficient x 1 f) ≠ 0 := (lib.sat_constraint _ .neq α).mp hb
    have hdfn : (linearTerm x f).Defined α := ⟨by simp [linearTerm], hb⟩
    refine ⟨lib.sqrtEx_defined _ α hdfn, ?_⟩
    rw [lib.sqrtEx_value _ α hdfn, eval_univariate_quadratic hdeg, ha, SqrtEx.value, linearTerm]
    simp only [Poly.eval_neg, Poly.eval_nil, zero_mul, add_zero, zero_add]
    field_simp
    ring
  cases h with
  | linear hdeg hne =>
    obtain ⟨hb, hside⟩ := of_insertCondition hside
    exact ⟨hside, hlin hb (eval_coefficient_of_lt (by omega)) (by omega)⟩
  | degenerate hdeg hne hne' =>
    obtain ⟨hb, hside⟩ := of_insertCondition hside
    obtain ⟨ha, hside⟩ := of_insertCondition hside
    exact ⟨hside, hlin hb ((lib.sat_constraint _ .eq α).mp ha) (by omega)⟩
  | quadratic factor hfac hdeg hne hne' =>
    obtain ⟨ha, hside⟩ := of_insertCondition hside
    obtain ⟨hrad, hside⟩ := of_insertCondition hside
    have ha : Poly.eval α (Poly.coefficient x 2 f) ≠ 0 := (lib.sat_constraint _ .neq α).mp ha
    have hrad : 0 ≤ Poly.eval α (radicand x f) := (lib.sat_constraint _ .geq α).mp hrad
    have hdfn : (quadraticTerm x f factor).Defined α :=
      ⟨hrad, by simpa [quadraticTerm] using ha⟩
    refine ⟨hside, lib.sqrtEx_defined _ α hdfn, ?_⟩
    rw [lib.sqrtEx_value _ α hdfn, eval_univariate_quadratic (by omega), SqrtEx.value]
    have hsqrt := Real.mul_self_sqrt hrad
    have hradicandEval : Poly.eval α (radicand x f) = Poly.eval α (Poly.coefficient x 1 f) *
        Poly.eval α (Poly.coefficient x 1 f) - 4 * (Poly.eval α (Poly.coefficient x 2 f) *
          Poly.eval α (Poly.coefficient x 0 f)) := by
      simp [radicand]
    have hfac : (factor : ℝ) * factor = 1 := by exact_mod_cast hfac
    simp only [quadraticTerm, Poly.eval_neg, Poly.eval_const, Poly.eval_mul, eq_ratCast,
      Rat.cast_ofNat]
    set s := √(Poly.eval α (radicand x f))
    set a := Poly.eval α (Poly.coefficient x 2 f)
    set b := Poly.eval α (Poly.coefficient x 1 f)
    set c := Poly.eval α (Poly.coefficient x 0 f)
    field_simp
    linear_combination hsqrt + s * s * hfac + hradicandEval

end Factor

/-! ## The zeros of a constraint -/

/-- Results of all elements of a list. -/
theorem mapM_eq_some {β γ : Type*} {g : β → Option γ} {bs : List β} {cs : List γ} :
    bs.mapM g = some cs ↔ List.Forall₂ (fun b c => g b = some c) bs cs := by
  induction bs generalizing cs with
  | nil =>
    rw [mapM_nil, List.forall₂_nil_left_iff]
    exact ⟨fun h => (some.inj h).symm, fun h => h ▸ rfl⟩
  | cons b bs ih =>
    rw [mapM_cons, List.forall₂_cons_left_iff]
    constructor
    · intro h
      obtain ⟨c, hc, h⟩ := bind_eq_some_iff.mp h
      obtain ⟨rest, hrest, h⟩ := bind_eq_some_iff.mp h
      exact ⟨c, rest, hc, ih.mp hrest, (some.inj h).symm⟩
    · rintro ⟨c, rest, hc, hrest, rfl⟩
      exact bind_eq_some_iff.mpr ⟨c, hc, bind_eq_some_iff.mpr ⟨rest, ih.mpr hrest, rfl⟩⟩

theorem exists_result {β γ : Type*} {g : β → Option γ} {bs : List β} {cs : List γ}
    (h : bs.mapM g = some cs) {b : β} (hb : b ∈ bs) : ∃ c ∈ cs, g b = some c := by
  have hall := mapM_eq_some.mp h
  obtain ⟨i, hi, rfl⟩ := getElem_of_mem hb
  have hi' : i < cs.length := hall.length_eq ▸ hi
  exact ⟨cs[i], getElem_mem hi', List.Forall₂.get hall hi hi'⟩

theorem exists_argument {β γ : Type*} {g : β → Option γ} {bs : List β} {cs : List γ}
    (h : bs.mapM g = some cs) {c : γ} (hc : c ∈ cs) : ∃ b ∈ bs, g b = some c := by
  have hall := mapM_eq_some.mp h
  obtain ⟨i, hi, rfl⟩ := getElem_of_mem hc
  have hi' : i < bs.length := hall.length_eq ▸ hi
  exact ⟨bs[i], getElem_mem hi', List.Forall₂.get hall hi' hi⟩

theorem isSome_mapM {β γ : Type*} {g : β → Option γ} {bs : List β} (h : ∀ b ∈ bs, (g b).isSome) :
    (bs.mapM g).isSome := by
  induction bs with
  | nil => rfl
  | cons b bs ih =>
    obtain ⟨c, hc⟩ := isSome_iff_exists.mp (h b mem_cons_self)
    obtain ⟨cs, hcs⟩ :=
      isSome_iff_exists.mp (ih fun b hb => h b (mem_cons_of_mem _ hb))
    rw [mapM_cons, hc, hcs]
    rfl

section Constraint

variable {c : Constraint σ} {zeros : List (Zero σ)}

theorem exists_zero (h : generateZeros lib c x = some zeros)
    (hne : Poly.univariate x α c.lhs ≠ 0) (hzero : (Poly.univariate x α c.lhs).eval z = 0) :
    ∃ zero ∈ zeros, HasValue zero α z := by
  have hvanish {f : Poly σ ℚ} (hf : f ∈ allFactors lib.toEliminationLibrary true c.lhs)
      (hvar : ¬ Poly.hasVariable x f) : Poly.eval α f ≠ 0 := by
    have hfac := univariate_factor_ne_zero hne hf
    rw [Poly.univariate_of_not_hasVariable x α hvar] at hfac
    exact fun h => hfac (by rw [h, Polynomial.C_0])
  have heval : Poly.eval (update α x z) c.lhs = 0 := by
    rw [← Poly.eval_univariate]
    exact hzero
  obtain ⟨f, hf, hfzero⟩ := (eval_eq_zero_iff_factor lib.toEliminationLibrary true).mp heval
  have hvar : Poly.hasVariable x f := by
    by_contra hvar
    refine hvanish hf hvar ?_
    rw [← Poly.eval_update_of_not_hasVariable x α hvar z]
    exact hfzero
  have hfac : f ∈ factorsOf lib.toEliminationLibrary true x c.lhs :=
    mem_filter.mpr ⟨hf, hvar⟩
  rw [generateZeros] at h
  split_ifs at h with hlhs
  · obtain ⟨lists, hlists, rfl⟩ := map_eq_some_iff.mp h
    obtain ⟨zeros, hzeros, hfzeros⟩ := exists_result hlists hfac
    obtain ⟨zero, hmem, hval⟩ := exists_zeroOfFactor hfzeros
      (sat_sideConditionsOf fun g hg hgvariable => hvanish hg hgvariable)
      (univariate_factor_ne_zero hne hf) (by rw [Poly.eval_univariate]; exact hfzero)
    exact ⟨zero, mem_flatten.mpr ⟨zeros, hzeros, hmem⟩, hval⟩
  · rw [Poly.univariate_of_not_hasVariable x α hlhs] at hne hzero
    rw [Polynomial.eval_C] at hzero
    exact absurd (by rw [hzero, Polynomial.C_0]) hne

theorem exists_factor (h : generateZeros lib c x = some zeros) {zero : Zero σ}
    (hzero : zero ∈ zeros) : ∃ f ∈ factorsOf lib.toEliminationLibrary true x c.lhs,
      ZeroOf lib x (sideConditionsOf lib.toEliminationLibrary true x c.lhs) f zero := by
  rw [generateZeros] at h
  split_ifs at h with hlhs
  · obtain ⟨lists, hlists, rfl⟩ := map_eq_some_iff.mp h
    obtain ⟨list, hlist, hmem⟩ := mem_flatten.mp hzero
    obtain ⟨f, hf, hfzeros⟩ := exists_argument hlists hlist
    exact ⟨f, hf, zeroOf_of_mem hfzeros hmem⟩
  · rw [← some.inj h] at hzero
    exact absurd hzero not_mem_nil

/-- A zero whose side conditions hold is a zero of the polynomial. -/
theorem isRoot_of_generateZeros (h : generateZeros lib c x = some zeros) {zero : Zero σ}
    (hzero : zero ∈ zeros) (hside : ∀ sc ∈ zero.2, sc.Sat α) :
    zero.1.Defined α ∧ (Poly.univariate x α c.lhs).eval (zero.1.value α) = 0 := by
  obtain ⟨f, hf, hof⟩ := exists_factor h hzero
  obtain ⟨-, hdfn, hroot⟩ := hof.isRoot hside
  refine ⟨hdfn, ?_⟩
  rw [Poly.eval_univariate] at hroot ⊢
  exact (eval_eq_zero_iff_factor lib.toEliminationLibrary true).mpr ⟨f, (mem_filter.mp hf).1, hroot⟩

theorem mem_variables_factor {f : Poly σ ℚ} {p : Poly σ ℚ} {b : Bool}
    (hf : f ∈ allFactors lib.toEliminationLibrary b p) {y : σ} (hy : y ∈ Poly.variables f) :
    y ∈ Poly.variables p := by
  rw [allFactors] at hf
  cases hfacs : if b then lib.factorization p else none with
  | none =>
    rw [hfacs] at hf
    rwa [mem_singleton.mp hf] at hy
  | some fs =>
    rw [hfacs] at hf
    split_ifs at hfacs
    obtain ⟨g, hg, rfl⟩ := List.mem_map.mp hf
    exact lib.factorization_variables p fs hfacs g hg hy

/-- A zero has variables of the polynomial, but not the one it is a value of. -/
theorem ZeroOf.variables {sideConditions : Finset (ConstraintT σ)} {f : Poly σ ℚ} {zero : Zero σ}
    (h : ZeroOf lib x sideConditions f zero) {y : σ} (hy : y ∈ SqrtEx.variables zero.1) :
    y ∈ Poly.variables f ∧ y ≠ x := by
  have hlin (hy : y ∈ SqrtEx.variables (linearTerm x f)) : y ∈ Poly.variables f ∧ y ≠ x := by
    simp only [SqrtEx.variables, linearTerm, variables_neg, mem_append] at hy
    rcases hy with ((hy | hy) | hy) | hy
    · exact Poly.mem_variables_coefficient hy
    · exact absurd hy not_mem_nil
    · exact absurd hy not_mem_nil
    · exact Poly.mem_variables_coefficient hy
  cases h with
  | linear => exact hlin (lib.sqrtEx_variables _ hy)
  | degenerate => exact hlin (lib.sqrtEx_variables _ hy)
  | quadratic factor =>
    have hy := lib.sqrtEx_variables _ hy
    simp only [SqrtEx.variables, quadraticTerm, variables_neg, mem_append] at hy
    rcases hy with ((hy | hy) | hy) | hy
    · exact Poly.mem_variables_coefficient hy
    · exact absurd hy (not_mem_variables_const factor)
    · rcases mem_variables_sub hy with hy | hy
      · rcases mem_variables_mul hy with hy | hy
        · exact Poly.mem_variables_coefficient hy
        · exact Poly.mem_variables_coefficient hy
      · rcases mem_variables_mul hy with hy | hy
        · exact absurd hy (not_mem_variables_const 4)
        · rcases mem_variables_mul hy with hy | hy
          · exact Poly.mem_variables_coefficient hy
          · exact Poly.mem_variables_coefficient hy
    · rcases mem_variables_mul hy with hy | hy
      · exact absurd hy (not_mem_variables_const 2)
      · exact Poly.mem_variables_coefficient hy

theorem variables_of_generateZeros (h : generateZeros lib c x = some zeros) {zero : Zero σ}
    (hzero : zero ∈ zeros) {y : σ} (hy : y ∈ SqrtEx.variables zero.1) :
    y ∈ Poly.variables c.lhs ∧ y ≠ x := by
  obtain ⟨f, hf, hof⟩ := exists_factor h hzero
  obtain ⟨hyf, hne⟩ := hof.variables hy
  exact ⟨mem_variables_factor (mem_filter.mp hf).1 hyf, hne⟩

end Constraint

/-! ## The zero of a number -/

section Number

variable {ran : A} {zero : Zero σ}

/-- The side conditions of a zero of a polynomial in one variable hold. -/
theorem ZeroOf.sat {sideConditions : Finset (ConstraintT σ)} {f : Poly σ ℚ}
    (h : ZeroOf lib x sideConditions f zero) (hvariables : ∀ y ∈ Poly.variables f, y = x)
    (hside : ∀ sc ∈ sideConditions, sc.Sat α) : ∀ sc ∈ zero.2, sc.Sat α := by
  have hcoef (k : ℕ) (y : σ) : y ∉ Poly.variables (Poly.coefficient x k f) := fun hy =>
    (Poly.mem_variables_coefficient hy).2 (hvariables y (Poly.mem_variables_coefficient hy).1)
  have hrad (y : σ) : y ∉ Poly.variables (radicand x f) := by
    intro hy
    rcases mem_variables_sub hy with hy | hy
    · exact (mem_variables_mul hy).elim (hcoef 1 y) (hcoef 1 y)
    · rcases mem_variables_mul hy with hy | hy
      · exact not_mem_variables_const 4 hy
      · exact (mem_variables_mul hy).elim (hcoef 2 y) (hcoef 0 y)
  have hsat {p : Poly σ ℚ} {r : Relation} (hp : ∀ y, y ∉ Poly.variables p)
      (hne : lib.constraint p r ≠ .constant false) : (lib.constraint p r).Sat α := by
    obtain ⟨b, hb⟩ := lib.constraint_constant p r (isConstant_iff.mpr hp)
    rw [hb] at hne ⊢
    cases b with
    | false => exact absurd rfl hne
    | true => rfl
  cases h with
  | linear _ hne => exact sat_insertCondition (hsat (hcoef 1) hne) hside
  | degenerate _ hne hne' =>
    exact sat_insertCondition (hsat (hcoef 1) hne') (sat_insertCondition (hsat (hcoef 2) hne) hside)
  | quadratic _ _ _ hne hne' =>
    exact sat_insertCondition (hsat (hcoef 2) hne') (sat_insertCondition (hsat hrad hne) hside)

/-- The zero of a number has its value under every assignment. -/
theorem hasValue_of_generateZerosNumber (h : generateZerosNumber lib ran = some zero) (α : σ → ℝ) :
    HasValue zero α (RealAlgebraicNumber.toReal ran) ∧ ∀ y, y ∉ SqrtEx.variables zero.1 := by
  rw [generateZerosNumber] at h
  split_ifs at h with hnumeric hival
  dsimp only at h
  obtain ⟨zeros, hzeros, hfind⟩ := bind_eq_some_iff.mp h
  cases hcons : lib.constraint (lib.getIRPolynomial ran) .eq with
  | constant b =>
    rw [hcons] at hzeros
    rw [← some.inj hzeros] at hfind
    exact nomatch hfind
  | proper c =>
    rw [hcons] at hzeros
    have hmem := mem_of_find?_eq_some hfind
    have htest := find?_some hfind
    rw [Bool.and_eq_true] at htest
    have heval (z : ℝ) : (Poly.univariate (lib.mainVar ran) α c.lhs).eval z = 0 ↔
        (Poly.univariate (lib.mainVar ran) α (lib.getIRPolynomial ran)).eval z = 0 := by
      have hsat := lib.sat_constraint (lib.getIRPolynomial ran) .eq (update α (lib.mainVar ran) z)
      rw [hcons, ConstraintT.Sat, Constraint.Sat, lib.constraint_eq _ c hcons] at hsat
      rw [Poly.eval_univariate, Poly.eval_univariate]
      exact hsat
    have hlhs (y : σ) (hy : y ∈ Poly.variables c.lhs) : y = lib.mainVar ran := by
      refine lib.irPolynomial_variables ran hival y (lib.constraint_variables _ .eq ?_)
      rw [hcons]
      exact hy
    have hvariables (y : σ) : y ∉ SqrtEx.variables zero.1 := fun hy =>
      (variables_of_generateZeros hzeros hmem hy).2
        (hlhs y (variables_of_generateZeros hzeros hmem hy).1)
    -- the polynomial does not vanish between the number and the end of the interval
    have hne : Poly.univariate (lib.mainVar ran) α c.lhs ≠ 0 := by
      intro hzero
      obtain ⟨z, hlow, hup⟩ := exists_between (lib.lower_lt ran hival)
      have hroot := (lib.irPolynomial_root ran hival α z hlow
        (hup.trans (lib.lt_upper ran hival))).mp ((heval z).mp (by
          rw [hzero, Polynomial.eval_zero]))
      exact hup.ne hroot
    obtain ⟨f, hf, hof⟩ := exists_factor hzeros hmem
    have hsides : ∀ sc ∈ zero.2, sc.Sat α := by
      refine hof.sat (fun y hy => hlhs y (mem_variables_factor (mem_filter.mp hf).1 hy))
        (sat_sideConditionsOf fun g hg hvar => ?_)
      have hfac := univariate_factor_ne_zero hne hg
      rw [Poly.univariate_of_not_hasVariable _ α hvar] at hfac
      exact fun hgzero => hfac (by rw [hgzero, Polynomial.C_0])
    obtain ⟨hdfn, hroot⟩ := isRoot_of_generateZeros hzeros hmem hsides
    have hlow := (rationalLessThanSqrtEx_iff hvariables hdfn _).mp htest.1
    have hup := (sqrtExLessThanRational_iff hvariables hdfn _).mp htest.2
    exact ⟨⟨hsides, hdfn, (lib.irPolynomial_root ran hival α _ hlow hup).mp
      ((heval _).mp hroot)⟩, hvariables⟩

end Number

end Smtrat.Mcsat.Vs
