import Smtrat.Math.Arrangements
import Smtrat.PBPP.PseudoBoolEncoder

/-!
# The cardinality encoder

A constraint all of whose coefficients are `1`, or all `-1`, bounds the number of variables that are
true.  That exactly so many are true is said by listing which ones; the other bounds are made of this from
below or from above, whichever is shorter.
-/

namespace Smtrat.PBPP

open PropFormula Arrangement List

universe u

variable {V : Type u}

/-- How many of the variables are true. -/
def trueCount (σ : V → Bool) (vars : List V) : ℕ := (vars.map σ).count true

theorem trueCount_le (σ : V → Bool) (vars : List V) : trueCount σ vars ≤ vars.length := by
  rw [trueCount]
  exact count_le_length.trans_eq (length_map σ)

variable {vars : List V}

theorem trueCount_pos {σ : V → Bool} : 0 < trueCount σ vars ↔ ∃ x ∈ vars, σ x = true := by
  rw [trueCount, count_pos_iff, mem_map]

variable {terms : List (V × ℚ)}

theorem selected_of_coeff (σ : V → Bool) {a : ℚ} (h : ∀ t ∈ terms, t.2 = a) :
    Combination.selected σ terms = a * trueCount σ (terms.map Prod.fst) := by
  induction terms with
  | nil => simp [trueCount]
  | cons t ts ih =>
    rw [Combination.selected_cons, ih fun s hs => h s (mem_cons_of_mem t hs), h t mem_cons_self]
    cases ht : σ t.1 with
    | false => simp [trueCount, ht]
    | true =>
      simp only [trueCount, map_cons, ht, count_cons_self, cond_true]
      push_cast
      ring

theorem value_of_coeff (σ : V → Bool) {a : ℚ} {p : LinearPolynomial V} (h : ∀ t ∈ p.terms, t.2 = a) :
    value σ p = a * trueCount σ p.vars + p.constantPart := by
  rw [value, selected_of_coeff σ h, LinearPolynomial.vars]

/-! ## Loops over rational numbers -/

/-- The values of `for (i = start; i > stop; i--)`. -/
def countDown (start stop : ℚ) : List ℚ :=
  if stop < start then start :: countDown (start - 1) stop else []
termination_by ⌈start - stop⌉₊
decreasing_by
  rename_i h
  rw [sub_right_comm, Nat.ceil_sub_one]
  have hpos : 0 < ⌈start - stop⌉₊ := Nat.ceil_pos.mpr (sub_pos.mpr h)
  omega

/-- The values of `for (i = start; i <= stop; i++)`. -/
def countUp (start stop : ℚ) : List ℚ :=
  if start ≤ stop then start :: countUp (start + 1) stop else []
termination_by ⌊stop - start + 1⌋₊
decreasing_by
  rename_i h
  have heq : stop - (start + 1) + 1 = stop - start + 1 - 1 := by ring
  rw [heq, Nat.floor_sub_one]
  have hpos : 0 < ⌊stop - start + 1⌋₊ := Nat.floor_pos.mpr (by linarith)
  omega

theorem mem_countDown {start stop i : ℚ} :
    i ∈ countDown start stop ↔ stop < i ∧ ∃ j : ℕ, i = start - j := by
  induction start using countDown.induct stop with
  | case1 start h ih =>
    rw [countDown, if_pos h, mem_cons, ih]
    constructor
    · rintro (rfl | ⟨hlt, j, rfl⟩)
      · exact ⟨h, 0, by simp⟩
      · exact ⟨hlt, j + 1, by push_cast; ring⟩
    · rintro ⟨hlt, j, rfl⟩
      cases j with
      | zero => exact .inl (by simp)
      | succ j => exact .inr ⟨hlt, j, by push_cast; ring⟩
  | case2 start h =>
    rw [countDown, if_neg h]
    refine iff_of_false not_mem_nil ?_
    rintro ⟨hlt, j, rfl⟩
    have hj : (0 : ℚ) ≤ j := Nat.cast_nonneg j
    exact h (by linarith)

theorem mem_countUp {start stop i : ℚ} :
    i ∈ countUp start stop ↔ i ≤ stop ∧ ∃ j : ℕ, i = start + j := by
  induction start using countUp.induct stop with
  | case1 start h ih =>
    rw [countUp, if_pos h, mem_cons, ih]
    constructor
    · rintro (rfl | ⟨hle, j, rfl⟩)
      · exact ⟨h, 0, by simp⟩
      · exact ⟨hle, j + 1, by push_cast; ring⟩
    · rintro ⟨hle, j, rfl⟩
      cases j with
      | zero => exact .inl (by simp)
      | succ j => exact .inr ⟨hle, j, by push_cast; ring⟩
  | case2 start h =>
    rw [countUp, if_neg h]
    refine iff_of_false not_mem_nil ?_
    rintro ⟨hle, j, rfl⟩
    have hj : (0 : ℚ) ≤ j := Nat.cast_nonneg j
    exact h (by linarith)

/-! ## The encoder -/

namespace CardinalityEncoder

variable (pool : FormulaPool (Atom V))

/-- `encodeExactly` for a set of variables -/
def encodeExactlyOf (vars : List V) (constant : ℚ) : FormulaT V :=
  let signs := (List.range vars.length).foldl (fun signs (i : ℕ) => decide ((i : ℚ) < constant) :: signs) []
  pool.create .or ((arrangements signs).map fun signs =>
    pool.create .and (List.zipWith (fun sign x =>
      if sign then .atom (.bool x) else pool.create .not [.atom (.bool x)]) signs vars))

/-- `encodeExactly` -/
def encodeExactly (c : ConstraintT V) : FormulaT V := encodeExactlyOf pool c.vars (-c.constantPart)

def encodeAtLeast (c : ConstraintT V) : FormulaT V :=
  let constant := c.constantPart
  if constant ≤ (c.vars.length / 2 : ℕ) then
    let result := (countDown (constant - 1) 0).map fun i =>
      pool.create .not [encodeExactlyOf pool c.vars i]
    let orSet := c.vars.map fun x => .atom (.bool x)
    pool.create .and [pool.create .or orSet, pool.create .and result]
  else
    pool.create .or ((countUp constant c.vars.length).map fun i => encodeExactlyOf pool c.vars i)

def encodeAtMost (c : ConstraintT V) : FormulaT V :=
  let constant := -c.constantPart
  if constant < (c.vars.length / 2 : ℕ) then
    pool.create .or ((countUp 0 constant).map fun i => encodeExactlyOf pool c.vars i)
  else
    pool.create .and ((countDown c.vars.length constant).map fun i =>
      pool.create .not [encodeExactlyOf pool c.vars i])

def doEncode (c : ConstraintT V) : Option (FormulaT V) :=
  let allCoeffPositive := c.lhs.terms.all fun t => ¬ t.2 < 0
  let allCoeffNegative := c.lhs.terms.all fun t => ¬ 0 < t.2
  let numberOfTerms := c.lhs.terms.length
  let mixedCoeff := !allCoeffNegative && !allCoeffPositive
  let constant := -c.constantPart
  if c.relation = .eq ∧ !mixedCoeff then
    -- for equality `-x1 - x2 - x3 ~ -2` and `x1 + x2 + x3 ~ 2` are the same
    let normalizedConstraint := if allCoeffNegative then ⟨c.lhs.neg, c.relation⟩ else c
    let constant := if allCoeffNegative then -constant else constant
    if constant < 0 then some (.const false)
    else if numberOfTerms < constant then some (.const false)
    else some (encodeExactly pool normalizedConstraint)
  else if !mixedCoeff then
    if allCoeffNegative ∧ |constant| > c.vars.length then some (.const false)
    else if allCoeffPositive ∧ constant ≥ c.vars.length then some (.const true)
    else if allCoeffNegative ∧ constant ≥ 0 then some (.const true)
    else if allCoeffNegative then some (encodeAtLeast pool c)
    else some (encodeAtMost pool c)
  else none

def canEncode (c : ConstraintT V) : Bool :=
  let allCoeffPositive := c.lhs.terms.all fun t => ¬ t.2 < 0
  let allCoeffNegative := c.lhs.terms.all fun t => ¬ 0 < t.2
  (c.lhs.terms.all fun t => t.2 = 1 ∨ t.2 = -1) && allCoeffNegative != allCoeffPositive

end CardinalityEncoder

/-- `CardinalityEncoder` -/
def CardinalityEncoder (pool : FormulaPool (Atom V)) : PseudoBoolEncoder V :=
  ⟨CardinalityEncoder.canEncode, CardinalityEncoder.doEncode pool⟩

namespace CardinalityEncoder

variable {pool : FormulaPool (Atom V)} {σ : V → Bool}

/-! ## Exact counts -/

/-- The signs are sorted before the first permutation is taken. -/
theorem signs_eq (n : ℕ) (k : ℚ) :
    (List.range n).foldl (fun signs (i : ℕ) => decide ((i : ℚ) < k) :: signs) [] =
      least (n - min n ⌈k⌉₊) (min n ⌈k⌉₊) := by
  induction n with
  | zero => simp [least]
  | succ n ih =>
    rw [range_succ, foldl_append, ih, foldl_cons, foldl_nil]
    by_cases hlt : (n : ℚ) < k
    · have hle : n + 1 ≤ ⌈k⌉₊ := Nat.lt_ceil.mpr hlt
      rw [decide_eq_true hlt, min_eq_left hle, min_eq_left (by omega)]
      simp [least, replicate_succ]
    · have hle : ⌈k⌉₊ ≤ n := Nat.ceil_le.mpr (not_lt.mp hlt)
      rw [decide_eq_false hlt, min_eq_right hle, min_eq_right (by omega), Nat.succ_sub hle]
      rfl

/-- One arrangement of the signs says which variables are true. -/
theorem satisfies_signs {signs : List Bool} (hlen : signs.length = vars.length) :
    (∀ f ∈ List.zipWith (fun sign x =>
      if sign then .atom (.bool x) else pool.create .not [.atom (.bool x)]) signs vars, Satisfies σ f) ↔
      vars.map σ = signs := by
  induction signs generalizing vars with
  | nil =>
    rw [eq_nil_of_length_eq_zero hlen.symm]
    simp
  | cons sign signs ih =>
    cases vars with
    | nil => simp at hlen
    | cons x xs =>
      rw [zipWith_cons_cons, forall_mem_cons, ih (Nat.succ.inj hlen), map_cons, List.cons.injEq]
      cases sign <;> simp

theorem satisfies_encodeExactlyOf {k : ℚ} :
    Satisfies σ (encodeExactlyOf pool vars k) ↔ trueCount σ vars = min vars.length ⌈k⌉₊ := by
  have hlen : vars.length - min vars.length ⌈k⌉₊ + min vars.length ⌈k⌉₊ = vars.length := by omega
  rw [encodeExactlyOf, satisfies_or, signs_eq, trueCount]
  simp only [mem_map, exists_exists_and_eq_and]
  constructor
  · rintro ⟨signs, hsigns, h⟩
    obtain ⟨hlen', hcnt⟩ := mem_arrangements_least.mp hsigns
    rw [satisfies_and, satisfies_signs (hlen'.trans hlen)] at h
    rw [h, hcnt]
  · intro h
    refine ⟨vars.map σ, mem_arrangements_least.mpr ⟨?_, h⟩, ?_⟩
    · rw [hlen, length_map]
    · rw [satisfies_and, satisfies_signs (length_map σ)]

/-- For counts between zero and the number of variables. -/
theorem satisfies_encodeExactlyOf_of_le {k : ℚ} (hle : k ≤ vars.length) :
    Satisfies σ (encodeExactlyOf pool vars k) ↔ trueCount σ vars = ⌈k⌉₊ := by
  rw [satisfies_encodeExactlyOf, min_eq_right (Nat.ceil_le.mpr hle)]

/-! ## Bounds -/

/-- A number less than a bound is the least integer above some value of the loop that counts down from the
bound. -/
theorem exists_ceil_sub_eq {q : ℚ} {n : ℕ} (h : (n : ℚ) < q) :
    ∃ j : ℕ, (n : ℚ) - 1 < q - 1 - j ∧ ⌈q - 1 - j⌉₊ = n := by
  have hlt : n < ⌈q⌉₊ := Nat.lt_ceil.mpr h
  obtain ⟨j, hj⟩ := Nat.exists_eq_add_of_lt hlt
  have hceil : (⌈q⌉₊ : ℚ) = n + j + 1 := by exact_mod_cast hj
  have hge : q ≤ ⌈q⌉₊ := Nat.le_ceil q
  have hlt' : (⌈q⌉₊ : ℚ) < q + 1 := Nat.ceil_lt_add_one ((Nat.cast_nonneg n).trans h.le)
  have hj0 : (0 : ℚ) ≤ j := Nat.cast_nonneg j
  have hbelow : (n : ℚ) - 1 < q - 1 - j := by linarith
  refine ⟨j, hbelow, ?_⟩
  refine le_antisymm (Nat.ceil_le.mpr (by linarith)) ?_
  by_contra hlt
  have hle : ⌈q - 1 - j⌉₊ + 1 ≤ n := by omega
  have hle' : (⌈q - 1 - j⌉₊ : ℚ) + 1 ≤ n := by exact_mod_cast hle
  have := Nat.le_ceil (q - 1 - j)
  linarith

theorem satisfies_encodeAtLeast {c : ConstraintT V} (hpos : 0 < c.constantPart)
    (hle : c.constantPart ≤ c.vars.length) :
    Satisfies σ (encodeAtLeast pool c) ↔ c.constantPart ≤ trueCount σ c.vars := by
  have hcnt : (trueCount σ c.vars : ℚ) ≤ c.vars.length := by exact_mod_cast trueCount_le σ c.vars
  simp only [encodeAtLeast]
  split
  next hhalf =>
    simp only [satisfies_and, forall_mem_cons, not_mem_nil, false_imp_iff, forall_true_iff,
      and_true, satisfies_or, mem_map, exists_exists_and_eq_and, satisfies_bool,
      forall_exists_index, and_imp, forall_apply_eq_imp_iff₂, satisfies_not, ← trueCount_pos]
    constructor
    · rintro ⟨htrue, hnot⟩
      -- a smaller count would be one of those that are excluded
      by_contra hlt
      obtain ⟨j, hbelow, hceil⟩ := exists_ceil_sub_eq (not_le.mp hlt)
      have hone : (1 : ℚ) ≤ trueCount σ c.vars := by exact_mod_cast htrue
      refine hnot _ (mem_countDown.mpr ⟨by linarith, j, rfl⟩) ?_
      have hj : (0 : ℚ) ≤ j := Nat.cast_nonneg j
      rw [satisfies_encodeExactlyOf_of_le (by linarith), hceil]
    · intro h
      refine ⟨?_, fun i hi => ?_⟩
      · exact_mod_cast hpos.trans_le h
      · obtain ⟨-, j, rfl⟩ := mem_countDown.mp hi
        have hj : (0 : ℚ) ≤ j := Nat.cast_nonneg j
        rw [satisfies_encodeExactlyOf_of_le (by linarith)]
        intro heq
        have hceil : ⌈c.constantPart - 1 - j⌉₊ < trueCount σ c.vars := by
          refine Nat.lt_of_succ_le ?_
          have hle' : ⌈c.constantPart - 1 - j⌉₊ ≤ trueCount σ c.vars - 1 := by
            refine Nat.ceil_le.mpr ?_
            have hone : 1 ≤ trueCount σ c.vars := by exact_mod_cast hpos.trans_le h
            push_cast [hone]
            linarith
          have hone : 1 ≤ trueCount σ c.vars := by exact_mod_cast hpos.trans_le h
          omega
        omega
  next hhalf =>
    simp only [satisfies_or, mem_map, exists_exists_and_eq_and]
    constructor
    · rintro ⟨i, hi, h⟩
      obtain ⟨hile, j, rfl⟩ := mem_countUp.mp hi
      rw [satisfies_encodeExactlyOf_of_le hile] at h
      have hj : (0 : ℚ) ≤ j := Nat.cast_nonneg j
      have := Nat.le_ceil (c.constantPart + j)
      rw [← h] at this
      linarith
    · intro h
      have hceil : ⌈c.constantPart⌉₊ ≤ trueCount σ c.vars := Nat.ceil_le.mpr h
      obtain ⟨j, hj⟩ := Nat.exists_eq_add_of_le hceil
      have hsum : ⌈c.constantPart + j⌉₊ = trueCount σ c.vars := by
        rw [Nat.ceil_add_natCast hpos.le, hj]
      have hle' : c.constantPart + j ≤ c.vars.length := by
        have := Nat.le_ceil (c.constantPart + j)
        rw [hsum] at this
        linarith
      refine ⟨_, mem_countUp.mpr ⟨hle', j, rfl⟩, ?_⟩
      rw [satisfies_encodeExactlyOf_of_le hle', hsum]

theorem satisfies_encodeAtMost {c : ConstraintT V} (hlt : -c.constantPart < c.vars.length) :
    Satisfies σ (encodeAtMost pool c) ↔ (trueCount σ c.vars : ℚ) ≤ -c.constantPart := by
  have hcnt := trueCount_le σ c.vars
  simp only [encodeAtMost]
  split
  next hhalf =>
    simp only [satisfies_or, mem_map, exists_exists_and_eq_and]
    constructor
    · rintro ⟨i, hi, h⟩
      obtain ⟨hile, j, rfl⟩ := mem_countUp.mp hi
      rw [satisfies_encodeExactlyOf_of_le (hile.trans hlt.le), zero_add, Nat.ceil_natCast] at h
      rw [h]
      simpa using hile
    · intro h
      refine ⟨trueCount σ c.vars, mem_countUp.mpr ⟨h, _, (zero_add _).symm⟩, ?_⟩
      rw [satisfies_encodeExactlyOf_of_le (h.trans hlt.le), Nat.ceil_natCast]
  next hhalf =>
    have hnonneg : (0 : ℚ) ≤ -c.constantPart := (Nat.cast_nonneg _).trans (not_lt.mp hhalf)
    simp only [satisfies_and, mem_map, forall_exists_index, and_imp, forall_apply_eq_imp_iff₂,
      satisfies_not]
    constructor
    · intro h
      by_contra hgt
      obtain ⟨j, hj⟩ := Nat.exists_eq_add_of_le hcnt
      have hi : (trueCount σ c.vars : ℚ) = c.vars.length - j := by
        rw [hj]
        push_cast
        ring
      refine h _ (mem_countDown.mpr ⟨not_le.mp hgt, j, hi⟩) ?_
      rw [satisfies_encodeExactlyOf_of_le (by exact_mod_cast hcnt), Nat.ceil_natCast]
    · intro h i hi
      obtain ⟨hlti, j, rfl⟩ := mem_countDown.mp hi
      have hj : (0 : ℚ) ≤ j := Nat.cast_nonneg j
      rw [satisfies_encodeExactlyOf_of_le (by linarith)]
      intro heq
      have := Nat.le_ceil ((c.vars.length : ℚ) - j)
      rw [← heq] at this
      linarith

/-! ## The cases of the encoder -/

variable {c : ConstraintT V}

theorem vars_length (c : ConstraintT V) : c.vars.length = c.lhs.terms.length := by
  rw [ConstraintT.vars, LinearPolynomial.vars, length_map]

/-- With coefficients `1` a constraint bounds the count from above. -/
theorem value_of_ones (h : ∀ t ∈ c.lhs.terms, t.2 = 1) :
    value σ c.lhs = trueCount σ c.vars + c.constantPart := by
  rw [value_of_coeff σ h, one_mul]
  rfl

theorem value_of_neg_ones (h : ∀ t ∈ c.lhs.terms, t.2 = -1) :
    value σ c.lhs = -trueCount σ c.vars + c.constantPart := by
  rw [value_of_coeff σ h, neg_one_mul]
  rfl

theorem allCoeffPositive_of_ones (h : ∀ t ∈ terms, t.2 = 1) :
    (terms.all fun t => ¬ t.2 < 0) = true := by
  rw [all_eq_true]
  intro t ht
  simp [h t ht]

theorem allCoeffNegative_of_neg_ones (h : ∀ t ∈ terms, t.2 = -1) :
    (terms.all fun t => ¬ 0 < t.2) = true := by
  rw [all_eq_true]
  intro t ht
  simp [h t ht]

theorem allCoeffNegative_of_ones (h : ∀ t ∈ terms, t.2 = 1) (hne : terms ≠ []) :
    (terms.all fun t => ¬ 0 < t.2) = false := by
  obtain ⟨t, ht⟩ := exists_mem_of_ne_nil terms hne
  rw [all_eq_false]
  exact ⟨t, ht, by simp [h t ht]⟩

variable (pool)

/-- An upper bound on the count is always encoded. -/
theorem doEncode_of_ones (h : ∀ t ∈ c.lhs.terms, t.2 = 1) (hne : c.lhs.terms ≠ [])
    (hrel : c.relation ≠ .eq) :
    ∃ f, doEncode pool c = some f ∧ ∀ σ, Satisfies σ f ↔ value σ c.lhs ≤ 0 := by
  simp only [doEncode, allCoeffPositive_of_ones h, allCoeffNegative_of_ones h hne, hrel]
  by_cases hge : -c.constantPart ≥ c.vars.length
  · refine ⟨.const true, by simp [hge], fun σ => ?_⟩
    have hcnt : (trueCount σ c.vars : ℚ) ≤ c.vars.length := by exact_mod_cast trueCount_le σ c.vars
    rw [value_of_ones h, satisfies_const]
    exact iff_of_true rfl (by linarith)
  · refine ⟨encodeAtMost pool c, by simp [hge], fun σ => ?_⟩
    rw [satisfies_encodeAtMost (not_le.mp hge), value_of_ones h, le_neg_iff_add_nonpos_right]

/-- A lower bound on the count is encoded unless it is less than what no assignment can reach. -/
theorem doEncode_of_neg_ones (h : ∀ t ∈ c.lhs.terms, t.2 = -1) (hrel : c.relation ≠ .eq)
    (hle : -c.constantPart ≤ c.vars.length) :
    ∃ f, doEncode pool c = some f ∧ ∀ σ, Satisfies σ f ↔ value σ c.lhs ≤ 0 := by
  simp only [doEncode, allCoeffNegative_of_neg_ones h, hrel, abs_neg]
  by_cases habs : |c.constantPart| > c.vars.length
  · refine ⟨.const false, by simp [habs], fun σ => ?_⟩
    have hcnt : (trueCount σ c.vars : ℚ) ≤ c.vars.length := by exact_mod_cast trueCount_le σ c.vars
    have hgt : (c.vars.length : ℚ) < c.constantPart := by
      rcases lt_abs.mp habs with hlt | hlt
      · exact hlt
      · exact absurd hle (not_le.mpr hlt)
    rw [value_of_neg_ones h, satisfies_const]
    exact iff_of_false Bool.false_ne_true (by linarith)
  · by_cases hnonneg : -c.constantPart ≥ 0
    · refine ⟨.const true, by simp [habs, hnonneg], fun σ => ?_⟩
      have hcnt : (0 : ℚ) ≤ trueCount σ c.vars := Nat.cast_nonneg _
      rw [value_of_neg_ones h, satisfies_const]
      exact iff_of_true rfl (by linarith)
    · have hpos : 0 < c.constantPart := neg_lt_zero.mp (not_le.mp hnonneg)
      have hle' : c.constantPart ≤ c.vars.length := by
        have hle' := not_lt.mp habs
        rwa [abs_of_pos hpos] at hle'
      have hnotge : ¬ -c.constantPart ≥ c.vars.length :=
        fun hge => hnonneg ((Nat.cast_nonneg _).trans hge)
      refine ⟨encodeAtLeast pool c, by simp [habs, hnonneg, hnotge], fun σ => ?_⟩
      rw [satisfies_encodeAtLeast hpos hle', value_of_neg_ones h, neg_add_nonpos_iff]

/-- A bound below zero is taken for one that cannot be reached. -/
theorem doEncode_of_neg_ones_of_lt (h : ∀ t ∈ c.lhs.terms, t.2 = -1) (hrel : c.relation ≠ .eq)
    (hlt : c.vars.length < -c.constantPart) : doEncode pool c = some (.const false) := by
  have habs : |(-c.constantPart)| > c.vars.length := hlt.trans_le (le_abs_self _)
  simp only [doEncode, allCoeffNegative_of_neg_ones h, hrel]
  simp only [false_and, Bool.not_true, Bool.false_and, Bool.not_false, habs, and_self, if_true, if_false]

/-- The count of variables in an equation. -/
theorem encodeExactly_spec {k : ℤ} (hk : c.constantPart = -k) (hnonneg : 0 ≤ k)
    (hle : k ≤ c.vars.length) :
    Satisfies σ (encodeExactly pool c) ↔ (trueCount σ c.vars : ℚ) = k := by
  lift k to ℕ using hnonneg
  rw [encodeExactly, hk, neg_neg, Int.cast_natCast,
    satisfies_encodeExactlyOf_of_le (by exact_mod_cast hle), Nat.ceil_natCast, Nat.cast_inj]

/-- An equation asks for a certain count, whatever the sign of its coefficients is. -/
theorem doEncode_eq_cases (hcoeff : (∀ t ∈ c.lhs.terms, t.2 = 1) ∨ ∀ t ∈ c.lhs.terms, t.2 = -1)
    (hint : ∃ k : ℤ, c.constantPart = k) (hrel : c.relation = .eq) :
    ∃ (d : ConstraintT V) (k : ℤ), d.vars = c.vars ∧ d.constantPart = -k ∧
      (∀ σ, value σ c.lhs = 0 ↔ (trueCount σ c.vars : ℚ) = k) ∧
      doEncode pool c = if (k : ℚ) < 0 then some (.const false)
        else if c.lhs.terms.length < (k : ℚ) then some (.const false)
        else some (encodeExactly pool d) := by
  obtain ⟨k, hk⟩ := hint
  by_cases hneg : ∀ t ∈ c.lhs.terms, t.2 = -1
  · refine ⟨⟨c.lhs.neg, c.relation⟩, k, LinearPolynomial.vars_neg c.lhs, congrArg Neg.neg hk,
      fun σ => ?_, ?_⟩
    · rw [value_of_neg_ones hneg, hk, neg_add_eq_zero]
    · simp only [doEncode, allCoeffNegative_of_neg_ones hneg, hrel, hk]
      simp
  · have hones : ∀ t ∈ c.lhs.terms, t.2 = 1 := hcoeff.resolve_right hneg
    have hne : c.lhs.terms ≠ [] := by
      intro hnil
      exact hneg (by simp [hnil])
    refine ⟨c, -k, rfl, by rw [hk, Int.cast_neg, neg_neg], fun σ => ?_, ?_⟩
    · rw [value_of_ones hones, hk, Int.cast_neg, eq_neg_iff_add_eq_zero]
    · simp only [doEncode, allCoeffPositive_of_ones hones, allCoeffNegative_of_ones hones hne, hrel, hk]
      simp

/-- An equation is encoded for all integer constants. -/
theorem doEncode_eq (hcoeff : (∀ t ∈ c.lhs.terms, t.2 = 1) ∨ ∀ t ∈ c.lhs.terms, t.2 = -1)
    (hint : ∃ k : ℤ, c.constantPart = k) (hrel : c.relation = .eq) :
    ∃ f, doEncode pool c = some f ∧ ∀ σ, Satisfies σ f ↔ value σ c.lhs = 0 := by
  obtain ⟨d, k, hvars, hk, hval, hdo⟩ := doEncode_eq_cases pool hcoeff hint hrel
  have hcnt : ∀ σ, (trueCount σ c.vars : ℚ) ≤ c.lhs.terms.length := fun σ => by
    rw [← vars_length]
    exact_mod_cast trueCount_le σ c.vars
  rw [hdo]
  by_cases hlt : (k : ℚ) < 0
  · refine ⟨.const false, if_pos hlt, fun σ => ?_⟩
    have hnonneg : (0 : ℚ) ≤ trueCount σ c.vars := Nat.cast_nonneg _
    rw [hval, satisfies_const]
    exact iff_of_false Bool.false_ne_true fun heq => by linarith
  · by_cases hgt : (c.lhs.terms.length : ℚ) < k
    · refine ⟨.const false, by rw [if_neg hlt, if_pos hgt], fun σ => ?_⟩
      have hle := hcnt σ
      rw [hval, satisfies_const]
      exact iff_of_false Bool.false_ne_true fun heq => by linarith
    · refine ⟨encodeExactly pool d, by rw [if_neg hlt, if_neg hgt], fun σ => ?_⟩
      rw [hval, encodeExactly_spec pool hk (by exact_mod_cast not_lt.mp hlt), hvars]
      rw [hvars, vars_length]
      exact_mod_cast not_lt.mp hgt

/-! ## Correctness -/

/-- An inequality is encoded unless its right-hand side lies above the number of variables and all
coefficients are `-1`. -/
theorem doEncode_leq_iff (hcoeff : (∀ t ∈ c.lhs.terms, t.2 = 1) ∨ ∀ t ∈ c.lhs.terms, t.2 = -1)
    (hrel : c.relation = .leq) :
    (∃ f, doEncode pool c = some f ∧ c.EncodedBy f) ↔
      ¬ ((∀ t ∈ c.lhs.terms, t.2 = -1) ∧ c.vars.length < -c.constantPart) := by
  have hne : c.relation ≠ .eq := by simp [hrel]
  have hsat : ∀ σ, c.Sat σ ↔ value σ c.lhs ≤ 0 := fun σ => by
    rw [ConstraintT.Sat, hrel]
    rfl
  simp only [ConstraintT.EncodedBy, hsat]
  by_cases hneg : ∀ t ∈ c.lhs.terms, t.2 = -1
  · by_cases hlt : c.vars.length < -c.constantPart
    · refine iff_of_false ?_ (not_not.mpr ⟨hneg, hlt⟩)
      rintro ⟨f, hf, h⟩
      rw [doEncode_of_neg_ones_of_lt pool hneg hne hlt, Option.some.injEq] at hf
      -- no assignment satisfies the formula, the one that is false everywhere meets the constraint
      have hfalse := (h fun _ => false).mpr (by
        have hcnt : (0 : ℚ) ≤ trueCount (fun _ => false) c.vars := Nat.cast_nonneg _
        have hlen : (0 : ℚ) ≤ c.vars.length := Nat.cast_nonneg _
        rw [value_of_neg_ones hneg]
        linarith)
      rw [← hf, satisfies_const] at hfalse
      exact Bool.false_ne_true hfalse
    · exact iff_of_true (doEncode_of_neg_ones pool hneg hne (not_lt.mp hlt)) fun h => hlt h.2
  · have hones := hcoeff.resolve_right hneg
    have hnil : c.lhs.terms ≠ [] := by
      intro hnil
      exact hneg (by simp [hnil])
    exact iff_of_true (doEncode_of_ones pool hones hnil hne) fun h => hneg h.1

/-- A cardinality constraint is encoded correctly unless it is an inequality with coefficients `-1` whose
right-hand side is greater than the number of variables. -/
theorem encode_correct_iff (pool : FormulaPool (Atom V)) (c : ConstraintT V)
    (hcoeff : (∀ t ∈ c.lhs.terms, t.2 = 1) ∨ ∀ t ∈ c.lhs.terms, t.2 = -1)
    (hconst : ∃ k : ℤ, c.constantPart = k)
    (hrel : c.relation = .eq ∨ c.relation = .leq ∨ c.relation = .less) :
    (∃ f, (CardinalityEncoder pool).encode c = some f ∧ c.EncodedBy f) ↔
      ¬ (c.relation ≠ .eq ∧ (∀ t ∈ c.lhs.terms, t.2 = -1) ∧ c.vars.length < c.rightHandSide) := by
  rw [PseudoBoolEncoder.encode, ConstraintT.rightHandSide]
  rcases hrel with hrel | hrel | hrel
  · have hsat : ∀ σ, c.Sat σ ↔ value σ c.lhs = 0 := fun σ => by
      rw [ConstraintT.Sat, hrel]
      rfl
    simp only [ConstraintT.EncodedBy, hsat, hrel]
    exact iff_of_true (doEncode_eq pool hcoeff hconst hrel) fun h => h.1 rfl
  · rw [if_neg (by simp [hrel]), if_neg (by simp [hrel])]
    exact (doEncode_leq_iff pool hcoeff hrel).trans (not_congr (by simp [hrel]))
  · have hterms : ∀ t ∈ c.lhs.terms, ∃ z : ℤ, t.2 = z := by
      intro t ht
      rcases hcoeff with h | h
      · exact ⟨1, by rw [h t ht, Int.cast_one]⟩
      · exact ⟨-1, by rw [h t ht, Int.cast_neg, Int.cast_one]⟩
    have henc : ∀ f, c.EncodedBy f ↔ (normalizeLessConstraint c).EncodedBy f := fun f =>
      forall_congr' fun σ => by
        rw [sat_normalizeLess_iff hrel (exists_value_eq_intCast σ hterms hconst)]
    have hrhs : -(normalizeLessConstraint c).constantPart = -c.constantPart - 1 := neg_add' _ _
    rw [if_pos hrel, if_pos hrel]
    simp only [henc]
    refine (doEncode_leq_iff pool (c := normalizeLessConstraint c) hcoeff rfl).trans (not_congr ?_)
    rw [hrhs]
    exact ⟨fun h => ⟨by simp [hrel], h⟩, And.right⟩

/-- `-x - y <= -1` over two variables -/
def atLeastOneOfTwo : ConstraintT (Fin 2) :=
  ⟨⟨[(0, -1), (1, -1)], 1, by decide, by simp⟩, .leq⟩

theorem encode_correct_iff_atLeastOne :
    ∃ f, (CardinalityEncoder (.verbatim _)).encode atLeastOneOfTwo = some f ∧
      atLeastOneOfTwo.EncodedBy f :=
  (encode_correct_iff (.verbatim _) atLeastOneOfTwo (.inr (by simp [atLeastOneOfTwo])) ⟨1, by
    simp [atLeastOneOfTwo, ConstraintT.constantPart]⟩ (.inr (.inl rfl))).mpr (by
      simp [atLeastOneOfTwo, ConstraintT.rightHandSide, ConstraintT.constantPart, ConstraintT.vars,
        LinearPolynomial.vars]
      norm_num)

/-- `-x - y <= 3` over two variables -/
def belowThree : ConstraintT (Fin 2) :=
  ⟨⟨[(0, -1), (1, -1)], -3, by decide, by simp⟩, .leq⟩

/-- A constraint that always holds is encoded as one that never does. -/
theorem not_encode_correct_all :
    ¬ ∀ c : ConstraintT (Fin 2), ((∀ t ∈ c.lhs.terms, t.2 = 1) ∨ ∀ t ∈ c.lhs.terms, t.2 = -1) →
      (∃ k : ℤ, c.constantPart = k) → (c.relation = .eq ∨ c.relation = .leq ∨ c.relation = .less) →
      ∀ f, (CardinalityEncoder (.verbatim _)).encode c = some f → c.EncodedBy f := by
  intro h
  have hneg : ∀ t ∈ belowThree.lhs.terms, t.2 = -1 := by simp [belowThree]
  have hlt : belowThree.vars.length < -belowThree.constantPart := by
    simp [belowThree, ConstraintT.constantPart, ConstraintT.vars, LinearPolynomial.vars]
    norm_num
  have hencode : (CardinalityEncoder (.verbatim _)).encode belowThree = some (.const false) :=
    (if_neg (by simp [belowThree])).trans
      (doEncode_of_neg_ones_of_lt (.verbatim _) hneg (by simp [belowThree]) hlt)
  have henc := h belowThree (.inr hneg) ⟨-3, by simp [belowThree, ConstraintT.constantPart]⟩
    (.inr (.inl rfl)) _ hencode
  have hsat : belowThree.Sat fun _ => false := by
    simp [belowThree, ConstraintT.Sat, value, Relation.evaluate]
  have hfalse := (henc fun _ => false).mpr hsat
  rw [satisfies_const] at hfalse
  exact Bool.false_ne_true hfalse

end CardinalityEncoder

end Smtrat.PBPP
