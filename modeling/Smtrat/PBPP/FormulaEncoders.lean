import Smtrat.PBPP.PseudoBoolEncoder

/-!
# The encoders for short and long formulas

A constraint with one variable is that variable, its negation or a constant.  With more variables, whose
coefficients all have the same sign, a constraint is encoded if its bound is one of the two extreme values
of the left-hand side, or lies beyond them.
-/

namespace Smtrat.PBPP

open PropFormula Combination List

universe u

variable {V : Type u}

namespace ShortFormulaEncoder

/-- `lhsCoeff` and `lhsVar`, as the loop over the terms leaves them. -/
def lhsTerm (c : ConstraintT V) : ℚ × FormulaT V :=
  match c.lhs.terms.getLast? with
  | some (x, a) => (a, .atom (.bool x))
  | none => (0, .const false)

def doEncode (pool : FormulaPool (Atom V)) (c : ConstraintT V) : Option (FormulaT V) :=
  let (lhsCoeff, lhsVar) := lhsTerm c
  let cRHS := -c.constantPart
  match c.relation with
  | .leq =>
    if lhsCoeff > 0 then
      -- `10 x1 <= 3` is `not x1`
      if cRHS < lhsCoeff ∧ cRHS > 0 then some (pool.create .not [lhsVar])
      else if cRHS < lhsCoeff ∧ cRHS < 0 then some (.const false)
      else if cRHS = 0 then some (pool.create .not [lhsVar])
      else if cRHS ≥ lhsCoeff then some (.const true)
      else none
    else if lhsCoeff < 0 then
      -- `-30 x1 <= -5` is `x1`
      if cRHS < lhsCoeff then some (.const false)
      else if cRHS ≥ 0 then some (.const true)
      else if cRHS ≥ lhsCoeff ∧ cRHS < 0 then some lhsVar
      else none
    else if cRHS ≥ 0 then some (.const true)
    else if cRHS < 0 then some (.const false)
    else none
  | .eq =>
    if lhsCoeff ≠ 0 then
      if lhsCoeff = cRHS then some lhsVar
      else if cRHS = 0 then some (pool.create .not [lhsVar])
      else some (.const false)
    else if cRHS = 0 then some (.const true)
    else some (.const false)
  | .neq =>
    if lhsCoeff ≠ 0 then
      if lhsCoeff = cRHS then some (pool.create .not [lhsVar])
      else if cRHS = 0 then some lhsVar
      else some (.const true)
    else if cRHS = 0 then some (.const false)
    else some (.const true)
  | _ => none

def canEncode (c : ConstraintT V) : Bool := c.vars.length = 1

end ShortFormulaEncoder

/-- `ShortFormulaEncoder` -/
def ShortFormulaEncoder (pool : FormulaPool (Atom V)) : PseudoBoolEncoder V :=
  ⟨ShortFormulaEncoder.canEncode, ShortFormulaEncoder.doEncode pool⟩

namespace LongFormulaEncoder

def doEncode (pool : FormulaPool (Atom V)) (c : ConstraintT V) : Option (FormulaT V) :=
  let cRel := c.relation
  let cVars := c.vars
  let cRHS := -c.constantPart
  let positive := c.lhs.terms.all fun t => ¬ t.2 < 0
  let negative := c.lhs.terms.all fun t => ¬ t.2 > 0
  let sum := total c.lhs.terms
  if positive ∧ cRel = .leq then
    if cRHS < 0 then some (.const false)
    else if cRHS = 0 then
      -- `5 x1 + 2 x2 + 3 x3 <= 0` is `(x1 or x2 or x3) -> false`
      if cRel = .leq then some (pool.create .not [generateVarChain pool cVars .or])
      else some (.const false)
    else if sum = cRHS ∧ cRel = .leq then some (.const true)
    else if sum = cRHS ∧ cRel = .less then some (pool.create .not [generateVarChain pool cVars .and])
    else if sum < cRHS then some (.const true)
    else none
  else if negative ∧ cRel = .leq then
    if cRHS > 0 then some (.const true)
    else if cRHS = 0 then
      if cRel = .leq then some (.const true) else some (generateVarChain pool cVars .or)
    else if sum > cRHS then some (.const false)
    else if sum = cRHS ∧ cRel = .leq then
      -- `-5 x1 - 2 x2 - 3 x3 <= -10` is taken for `x1 and x2 and x3 -> false`
      some (pool.create .not [generateVarChain pool cVars .and])
    else if sum = cRHS ∧ cRel = .less then some (.const false)
    else none
  else if cRel = .eq then
    if sum = cRHS then some (generateVarChain pool cVars .and)
    else if sum ≠ cRHS ∧ cRHS = 0 then some (pool.create .not [generateVarChain pool cVars .or])
    else none
  else if cRel = .neq then
    if sum ≠ cRHS ∧ cRHS = 0 then some (pool.create .not [generateVarChain pool cVars .and])
    else none
  else none

def canEncode (c : ConstraintT V) : Bool :=
  let positive := c.lhs.terms.all fun t => ¬ t.2 < 0
  let negative := c.lhs.terms.all fun t => ¬ t.2 > 0
  let onlyOnes := c.lhs.terms.all fun t => ¬ |t.2| > 1
  positive != negative && !onlyOnes

end LongFormulaEncoder

/-- `LongFormulaEncoder` -/
def LongFormulaEncoder (pool : FormulaPool (Atom V)) : PseudoBoolEncoder V :=
  ⟨LongFormulaEncoder.canEncode, LongFormulaEncoder.doEncode pool⟩

variable (pool : FormulaPool (Atom V)) {c : ConstraintT V}

/-! ## Short formulas -/

namespace ShortFormulaEncoder

/-- The encoder finds a formula for every constraint with one variable. -/
theorem doEncode_spec (hcan : canEncode c)
    (hrel : c.relation = .leq ∨ c.relation = .eq ∨ c.relation = .neq) :
    ∃ f, doEncode pool c = some f ∧ c.EncodedBy f := by
  have hlen : c.lhs.terms.length = 1 := by
    rw [canEncode, decide_eq_true_eq, ConstraintT.vars, LinearPolynomial.vars, length_map] at hcan
    exact hcan
  obtain ⟨⟨x, a⟩, hterm⟩ := length_eq_one_iff.mp hlen
  have hne : a ≠ 0 := c.lhs.coeff_ne_zero (x, a) (by rw [hterm]; exact mem_singleton_self _)
  have hlast : lhsTerm c = (a, .atom (.bool x)) := by rw [lhsTerm, hterm]; rfl
  have hsat : ∀ σ, c.Sat σ ↔ c.relation.evaluate ((bif σ x then a else 0) + c.constantPart) 0 := fun σ => by
    simp [ConstraintT.Sat, value, hterm, ConstraintT.constantPart]
  simp only [doEncode, hlast, ConstraintT.EncodedBy, hsat]
  rcases hrel with hrel | hrel | hrel <;> simp only [hrel, Relation.evaluate] <;> split_ifs <;>
    first
    | (refine ⟨_, rfl, fun σ => ?_⟩
       -- what is left compares the two values of the left-hand side with zero
       cases h : σ x <;>
         simp only [satisfies_const, satisfies_not, satisfies_bool, h, cond_true, cond_false] <;> grind)
    | grind

end ShortFormulaEncoder

/-! ## Long formulas -/

namespace LongFormulaEncoder

theorem value_eq (σ : V → Bool) (c : ConstraintT V) :
    value σ c.lhs = selected σ c.lhs.terms + c.constantPart := rfl

theorem flag_of_pos (h : ∀ t ∈ c.lhs.terms, 0 < t.2) : (c.lhs.terms.all fun t => ¬ t.2 < 0) = true :=
  all_eq_true.mpr fun t ht => by simp [(h t ht).le]

theorem flag_of_neg (h : ∀ t ∈ c.lhs.terms, t.2 < 0) : (c.lhs.terms.all fun t => ¬ t.2 > 0) = true :=
  all_eq_true.mpr fun t ht => by simp [(h t ht).le]

theorem flag_of_neg' (h : ∀ t ∈ c.lhs.terms, t.2 < 0) (hne : c.lhs.terms ≠ []) :
    (c.lhs.terms.all fun t => ¬ t.2 < 0) = false := by
  obtain ⟨t, ht⟩ := exists_mem_of_ne_nil _ hne
  exact all_eq_false.mpr ⟨t, ht, by simp [h t ht]⟩

/-- The accepted constraints have a variable, and coefficients of one sign. -/
theorem sign_of_canEncode (hcan : canEncode c) :
    c.lhs.terms ≠ [] ∧ ((∀ t ∈ c.lhs.terms, 0 < t.2) ∨ ∀ t ∈ c.lhs.terms, t.2 < 0) := by
  simp only [canEncode, Bool.and_eq_true, bne_iff_ne, ne_eq] at hcan
  refine ⟨fun hnil => hcan.1 (by simp [hnil]), ?_⟩
  by_cases hpos : (c.lhs.terms.all fun t => ¬ t.2 < 0) = true
  · left
    intro t ht
    have hnot := not_lt.mp (of_decide_eq_true (all_eq_true.mp hpos t ht))
    exact lt_of_le_of_ne hnot (c.lhs.coeff_ne_zero t ht).symm
  · right
    have hneg : (c.lhs.terms.all fun t => ¬ t.2 > 0) = true := by
      cases hn : c.lhs.terms.all fun t => ¬ t.2 > 0 with
      | true => rfl
      | false => exact absurd ((Bool.not_eq_true _).mp hpos ▸ hn.symm) hcan.1
    intro t ht
    have hnot := not_lt.mp (of_decide_eq_true (all_eq_true.mp hneg t ht))
    exact lt_of_le_of_ne hnot (c.lhs.coeff_ne_zero t ht)

theorem sat_leq (hrel : c.relation = .leq) (σ : V → Bool) :
    c.Sat σ ↔ selected σ c.lhs.terms ≤ -c.constantPart := by
  rw [ConstraintT.Sat, hrel, Relation.evaluate, value_eq, le_neg_iff_add_nonpos_right]

theorem sat_eq (hrel : c.relation = .eq) (σ : V → Bool) :
    c.Sat σ ↔ selected σ c.lhs.terms = -c.constantPart := by
  rw [ConstraintT.Sat, hrel, Relation.evaluate, value_eq, eq_neg_iff_add_eq_zero]

/-- With positive coefficients an inequality is encoded correctly. -/
theorem encodedBy_of_pos (h : ∀ t ∈ c.lhs.terms, 0 < t.2) (hrel : c.relation = .leq) {f : FormulaT V}
    (hf : doEncode pool c = some f) : c.EncodedBy f := by
  intro σ
  have hnonneg := selected_nonneg (σ := σ) h
  have hle := selected_le_total (σ := σ) h
  rw [sat_leq hrel]
  simp only [doEncode, flag_of_pos h, hrel, and_true, if_true, reduceCtorEq, and_false, if_false] at hf
  split_ifs at hf with hlt hzero hsum hbelow <;> cases hf
  · rw [satisfies_const]
    exact iff_of_false Bool.false_ne_true (by linarith)
  · rw [satisfies_not, satisfies_varChain_or, hzero]
    exact (selected_eq_zero_iff h).symm.trans ⟨fun heq => heq.le, fun hle => le_antisymm hle hnonneg⟩
  · rw [satisfies_const]
    exact iff_of_true rfl (by linarith)
  · rw [satisfies_const]
    exact iff_of_true rfl (by linarith)

/-- With negative coefficients an inequality is encoded correctly unless its bound is the least value. -/
theorem encodedBy_of_neg (h : ∀ t ∈ c.lhs.terms, t.2 < 0) (hne : c.lhs.terms ≠ [])
    (hrel : c.relation = .leq) (hsum : total c.lhs.terms ≠ -c.constantPart) {f : FormulaT V}
    (hf : doEncode pool c = some f) : c.EncodedBy f := by
  intro σ
  have hnonpos := selected_nonpos (σ := σ) h
  have hle := total_le_selected (σ := σ) h
  rw [sat_leq hrel]
  simp only [doEncode, flag_of_neg h, flag_of_neg' h hne, hrel, and_true, if_true, hsum,
    Bool.false_eq_true, false_and, if_false] at hf
  split_ifs at hf with hgt hzero hbelow <;> cases hf
  · rw [satisfies_const]
    exact iff_of_true rfl (by linarith)
  · rw [satisfies_const]
    exact iff_of_true rfl (by linarith)
  · rw [satisfies_const]
    exact iff_of_false Bool.false_ne_true (by linarith)

/-- There the formula says the opposite of the constraint. -/
theorem doEncode_of_total (h : ∀ t ∈ c.lhs.terms, t.2 < 0) (hne : c.lhs.terms ≠ [])
    (hrel : c.relation = .leq) (hsum : total c.lhs.terms = -c.constantPart) :
    doEncode pool c = some (pool.create .not [generateVarChain pool c.vars .and]) := by
  have hneg : -c.constantPart < 0 := hsum ▸ total_neg h hne
  simp only [doEncode, flag_of_neg h, flag_of_neg' h hne, hrel, hsum]
  simp [hneg.not_gt, hneg.ne]

theorem encodedBy_eq (h : (∀ t ∈ c.lhs.terms, 0 < t.2) ∨ ∀ t ∈ c.lhs.terms, t.2 < 0)
    (hrel : c.relation = .eq) {f : FormulaT V} (hf : doEncode pool c = some f) : c.EncodedBy f := by
  intro σ
  have hzero : selected σ c.lhs.terms = 0 ↔ ¬ ∃ x ∈ c.vars, σ x = true :=
    h.elim selected_eq_zero_iff selected_eq_zero_iff_of_neg
  have htot : selected σ c.lhs.terms = total c.lhs.terms ↔ ∀ x ∈ c.vars, σ x = true :=
    h.elim selected_eq_total_iff selected_eq_total_iff_of_neg
  rw [sat_eq hrel]
  simp only [doEncode, hrel, reduceCtorEq, and_false, if_false, if_true] at hf
  split_ifs at hf with hsum hrhs <;> cases hf
  · rw [satisfies_varChain_and, ← hsum, htot]
  · rw [satisfies_not, satisfies_varChain_or, hrhs.2, hzero]

/-- The bound lies strictly between the two extreme values of the left-hand side. -/
def Between (c : ConstraintT V) (bound : ℚ) : Prop :=
  0 < bound ∧ bound < total c.lhs.terms ∨ total c.lhs.terms < bound ∧ bound < 0

/-- Nothing is returned for bounds in between. -/
theorem doEncode_eq_none_iff (hcan : canEncode c) (hrel : c.relation = .leq) :
    doEncode pool c = none ↔ Between c (-c.constantPart) := by
  obtain ⟨hne, hpos | hneg⟩ := sign_of_canEncode hcan
  · have htot := total_pos hpos hne
    simp only [doEncode, flag_of_pos hpos, hrel, and_true, if_true, reduceCtorEq, and_false, if_false,
      Between]
    split_ifs <;> grind
  · have htot := total_neg hneg hne
    simp only [doEncode, flag_of_neg hneg, flag_of_neg' hneg hne, hrel, and_true, if_true,
      Bool.false_eq_true, if_false, reduceCtorEq, and_false, Between]
    split_ifs <;> grind

/-- At the least value of the left-hand side the formula is false and the constraint holds. -/
theorem not_encodedBy_of_total (h : ∀ t ∈ c.lhs.terms, t.2 < 0) (hne : c.lhs.terms ≠ [])
    (hrel : c.relation = .leq) (hsum : total c.lhs.terms = -c.constantPart) {d : ConstraintT V}
    (hd : ∀ σ, c.Sat σ → d.Sat σ) :
    ∃ f, doEncode pool c = some f ∧ ¬ d.EncodedBy f := by
  refine ⟨_, doEncode_of_total pool h hne hrel hsum, fun henc => ?_⟩
  have hall : selected (fun _ => true) c.lhs.terms = total c.lhs.terms :=
    (selected_eq_total_iff_of_neg h).mpr fun _ _ => rfl
  have hsat : c.Sat fun _ => true := (sat_leq hrel _).mpr (by rw [hall, hsum])
  have hnot := (henc fun _ => true).mpr (hd _ hsat)
  rw [satisfies_not, satisfies_varChain_and] at hnot
  exact hnot fun _ _ => rfl

/-- Where a formula is returned it is right, unless all coefficients are negative and the bound of an
inequality is their sum.  Constraints with `<` are meant for integers: they need that the left-hand side
skips the values between `-1` and `0`. -/
theorem returned_correct_iff (pool : FormulaPool (Atom V)) (c : ConstraintT V)
    (hcan : (LongFormulaEncoder pool).canEncode c)
    (hrel : c.relation = .eq ∨ c.relation = .leq ∨ c.relation = .less) :
    (∀ f, (LongFormulaEncoder pool).encode c = some f → c.EncodedBy f) ↔
      ¬ (c.relation ≠ .eq ∧ (∀ t ∈ c.lhs.terms, t.2 < 0) ∧ total c.lhs.terms = c.rightHandSide) ∧
      (c.relation = .less → ¬ Between c c.rightHandSide →
        ∀ σ, ¬ (-1 < value σ c.lhs ∧ value σ c.lhs < 0)) := by
  obtain ⟨hne, hsign⟩ := sign_of_canEncode hcan
  rw [PseudoBoolEncoder.encode, ConstraintT.rightHandSide]
  rcases hrel with hrel | hrel | hrel
  · simp only [hrel, reduceCtorEq, if_false, ne_eq, not_true_eq_false, false_and, not_false_eq_true,
      false_imp_iff, and_self, iff_true]
    exact fun f hf => encodedBy_eq pool hsign hrel hf
  · simp only [hrel, reduceCtorEq, if_false, ne_eq, not_false_eq_true, true_and, false_imp_iff, and_true]
    constructor
    · rintro h ⟨hneg, hsum⟩
      obtain ⟨f, hf, hnot⟩ := not_encodedBy_of_total pool hneg hne hrel hsum fun _ => id
      exact hnot (h f hf)
    · intro hnot f hf
      rcases hsign with hpos | hneg
      · exact encodedBy_of_pos pool hpos hrel hf
      · exact encodedBy_of_neg pool hneg hne hrel (fun hsum => hnot ⟨hneg, hsum⟩) hf
  · have hrhs : -(normalizeLessConstraint c).constantPart = -c.constantPart - 1 := neg_add' _ _
    have hright : ¬ ((∀ t ∈ c.lhs.terms, t.2 < 0) ∧ total c.lhs.terms = -c.constantPart - 1) → ∀ f,
        doEncode pool (normalizeLessConstraint c) = some f → (normalizeLessConstraint c).EncodedBy f := by
      intro hnot f hf
      rcases hsign with hpos | hneg
      · exact encodedBy_of_pos pool (c := normalizeLessConstraint c) hpos rfl hf
      · refine encodedBy_of_neg pool (c := normalizeLessConstraint c) hneg hne rfl (fun hsum => ?_) hf
        exact hnot ⟨hneg, hsum.trans hrhs⟩
    have hbetw : ¬ Between c (-c.constantPart - 1) ↔
        doEncode pool (normalizeLessConstraint c) ≠ none := by
      rw [Ne, doEncode_eq_none_iff pool (c := normalizeLessConstraint c) hcan rfl, hrhs]
      rfl
    have hweaker : ∀ σ, (normalizeLessConstraint c).Sat σ → c.Sat σ := by
      intro σ hσ
      rw [sat_normalizeLess] at hσ
      rw [ConstraintT.Sat, hrel, Relation.evaluate]
      linarith
    simp only [hrel, if_true, ne_eq, reduceCtorEq, not_false_eq_true, true_and, true_imp_iff, hbetw]
    constructor
    · intro h
      have hnot : ¬ ((∀ t ∈ c.lhs.terms, t.2 < 0) ∧ total c.lhs.terms = -c.constantPart - 1) := by
        rintro ⟨hneg, hsum⟩
        obtain ⟨f, hf, hnot⟩ := not_encodedBy_of_total pool (c := normalizeLessConstraint c) hneg hne rfl
          (hsum.trans hrhs.symm) hweaker
        exact hnot (h f hf)
      refine ⟨hnot, fun hsome => ?_⟩
      obtain ⟨f, hf⟩ := Option.ne_none_iff_exists'.mp hsome
      exact (ConstraintT.encodedBy_less_iff hrel (hright hnot f hf)).mp (h f hf)
    · rintro ⟨hnot, hgap⟩ f hf
      exact (ConstraintT.encodedBy_less_iff hrel (hright hnot f hf)).mpr
        (hgap (Option.ne_none_iff_exists'.mpr ⟨f, hf⟩))

/-- `-2 x - y <= b` over two variables -/
def weighted (b : ℚ) : ConstraintT (Fin 2) :=
  ⟨⟨[(0, -2), (1, -1)], -b, by decide, by simp⟩, .leq⟩

theorem canEncode_weighted (b : ℚ) : canEncode (weighted b) := by
  simp [canEncode, weighted]

theorem returned_correct_iff_weighted :
    canEncode (weighted 0) ∧
      ∀ f, (LongFormulaEncoder (.verbatim _)).encode (weighted 0) = some f →
        (weighted 0).EncodedBy f := by
  refine ⟨canEncode_weighted 0, ?_⟩
  refine (returned_correct_iff (.verbatim _) (weighted 0) (canEncode_weighted 0)
    (.inr (.inl rfl))).mpr ⟨?_, ?_⟩
  · rintro ⟨-, -, hsum⟩
    rw [ConstraintT.rightHandSide, if_neg (by simp [weighted])] at hsum
    norm_num [weighted, ConstraintT.constantPart] at hsum
  · intro hless
    exact absurd hless (by simp [weighted])

/-- The bound that only `x = y = 1` meets. -/
theorem not_returned_correct_all :
    ¬ ∀ c : ConstraintT (Fin 2), (LongFormulaEncoder (.verbatim _)).canEncode c →
      (c.relation = .eq ∨ c.relation = .leq ∨ c.relation = .less) →
      ∀ f, (LongFormulaEncoder (.verbatim _)).encode c = some f → c.EncodedBy f := by
  intro h
  have hneg : ∀ t ∈ (weighted (-3)).lhs.terms, t.2 < 0 := by simp [weighted]
  have hsum : total (weighted (-3)).lhs.terms = -(weighted (-3)).constantPart := by
    norm_num [weighted, ConstraintT.constantPart]
  obtain ⟨f, hf, hnot⟩ := not_encodedBy_of_total (.verbatim _) hneg (by simp [weighted]) rfl hsum fun _ => id
  have hencode : (LongFormulaEncoder (.verbatim _)).encode (weighted (-3)) = some f :=
    (if_neg (by simp [weighted])).trans hf
  exact hnot (h (weighted (-3)) (canEncode_weighted (-3)) (.inr (.inl rfl)) f hencode)

end LongFormulaEncoder

end Smtrat.PBPP
