import Smtrat.PBPP.CardinalityEncoder
import Smtrat.PBPP.FormulaEncoders

/-!
# The encoder for mixed signs

The positive terms of a constraint are compared with the negative ones.  For every value the positive terms
can take, an implication says what follows for the negative terms; its two sides are constraints with
coefficients of one sign, which the other encoders turn into formulas.
-/

namespace Smtrat.PBPP

open PropFormula Combination List Function

universe u

variable {V : Type u}

namespace PseudoBoolNormalizer

/-- A coefficient that is larger than the constant is as good as the constant. -/
def trimTerm (constant : ℚ) (t : V × ℚ) : V × ℚ :=
  if constant ≥ 1 ∧ t.2 < 0 ∧ |t.2| > constant then (t.1, -constant) else t

theorem trimTerm_fst (constant : ℚ) (t : V × ℚ) : (trimTerm constant t).1 = t.1 := by
  rw [trimTerm]
  split <;> rfl

/-- `PseudoBoolNormalizer::trim`, which makes every constraint an inequality. -/
def trim (c : ConstraintT V) : ConstraintT V :=
  let constant := c.constantPart
  let result : LinearPolynomial V :=
    { terms := c.lhs.terms.map (trimTerm constant)
      constantPart := constant
      keys_nodup := by
        rw [map_map, show Prod.fst ∘ trimTerm constant = Prod.fst from funext (trimTerm_fst constant)]
        exact c.lhs.keys_nodup
      coeff_ne_zero := by
        intro t ht
        obtain ⟨s, hs, rfl⟩ := mem_map.mp ht
        rw [trimTerm]
        split
        next h => exact neg_ne_zero.mpr (zero_lt_one.trans_le h.1).ne'
        next => exact c.lhs.coeff_ne_zero s hs }
  .create result .leq

end PseudoBoolNormalizer

namespace MixedSignEncoder

/-- The insertion in a `std::set`. -/
def insertSum (sum : ℚ) (result : List ℚ) : List ℚ :=
  if sum ∈ result then result else result.orderedInsert (· ≤ ·) sum

/-- The recursion of `calculateSubsetsums`. -/
def calculateSubsetsumsFrom : List (V × ℚ) → List ℚ → ℚ → List ℚ
  | [], result, sum => insertSum sum result
  | t :: terms, result, sum =>
    calculateSubsetsumsFrom terms (calculateSubsetsumsFrom terms result (sum + t.2)) sum

def calculateSubsetsums (terms : List (V × ℚ)) : List ℚ := calculateSubsetsumsFrom terms [] 0

variable (pool : FormulaPool (Atom V))

/-- What an encoder returns; the constraint itself if it returns nothing. -/
def encodeOr (e : PseudoBoolEncoder V) (c : ConstraintT V) : FormulaT V :=
  (e.encode c).getD (.atom (.constraint c))

def findSubEncoding (c : ConstraintT V) : FormulaT V :=
  if (ShortFormulaEncoder pool).canEncode c then encodeOr (ShortFormulaEncoder pool) c
  else if (CardinalityEncoder pool).canEncode c then encodeOr (CardinalityEncoder pool) c
  else if (LongFormulaEncoder pool).canEncode c then encodeOr (LongFormulaEncoder pool) c
  else .atom (.constraint c)

/-- The sum of the positive terms. -/
def lhs (c : ConstraintT V) : LinearPolynomial V := c.lhs.filterTerms fun t => t.2 > 0

/-- The other terms, with their signs changed. -/
def rhs (c : ConstraintT V) : LinearPolynomial V := (c.lhs.filterTerms fun t => !decide (t.2 > 0)).neg

def doEncode (c : ConstraintT V) : Option (FormulaT V) :=
  let positiveTerms := c.lhs.terms.filter fun t => t.2 > 0
  let negativeTerms := c.lhs.terms.filter fun t => !decide (t.2 > 0)
  let lhs := lhs c
  let rhs := rhs c
  let encode (p : LinearPolynomial V) (relation : Relation) : FormulaT V :=
    findSubEncoding pool (PseudoBoolNormalizer.trim (.create p relation))
  match c.relation with
  | .leq =>
    -- all values of the positive terms bound the negative terms from below
    some (pool.create .and ((calculateSubsetsums positiveTerms).map fun sum =>
      pool.create .implies [encode (lhs.addConstant (-sum)) .geq,
        encode ((rhs.addConstant (-sum)).addConstant (-c.constantPart)) .geq]))
  | .eq =>
    some (pool.create .and ( ((calculateSubsetsums positiveTerms).map fun sum =>
        pool.create .implies [encode (lhs.addConstant (-sum)) .eq,
          encode ((rhs.addConstant (-sum)).addConstant (-c.constantPart)) .eq]) ++
      ((calculateSubsetsums negativeTerms).map fun sum =>
        pool.create .implies [encode (rhs.addConstant (-sum)) .eq,
          encode ((lhs.addConstant (-c.constantPart)).addConstant (-sum)) .eq])))
  | _ => none

def canEncode (c : ConstraintT V) : Bool :=
  (c.lhs.terms.any fun t => t.2 > 0) && c.lhs.terms.any fun t => t.2 < 0

end MixedSignEncoder

/-- `MixedSignEncoder` -/
def MixedSignEncoder (pool : FormulaPool (Atom V)) : PseudoBoolEncoder V :=
  ⟨MixedSignEncoder.canEncode, MixedSignEncoder.doEncode pool⟩

namespace MixedSignEncoder

variable {pool : FormulaPool (Atom V)} {σ : V → Bool} {c : ConstraintT V}

/-! ## Sums of subsets -/

theorem mem_insertSum {sum x : ℚ} {result : List ℚ} : x ∈ insertSum sum result ↔ x = sum ∨ x ∈ result := by
  rw [insertSum]
  split
  next h => exact ⟨.inr, fun hx => hx.elim (fun heq => heq ▸ h) id⟩
  next h => exact mem_orderedInsert _

theorem mem_calculateSubsetsumsFrom {terms : List (V × ℚ)} {result : List ℚ} {sum x : ℚ} :
    x ∈ calculateSubsetsumsFrom terms result sum ↔
      x ∈ result ∨ ∃ sub : List (V × ℚ), sub.Sublist terms ∧ x = sum + total sub := by
  induction terms generalizing result sum with
  | nil => simp [calculateSubsetsumsFrom, mem_insertSum, or_comm]
  | cons t terms ih =>
    rw [calculateSubsetsumsFrom, ih, ih, or_assoc]
    refine or_congr_right ?_
    constructor
    · rintro (⟨sub, hsub, rfl⟩ | ⟨sub, hsub, rfl⟩)
      · exact ⟨t :: sub, hsub.cons_cons t, by rw [total_cons, add_assoc]⟩
      · exact ⟨sub, hsub.cons t, rfl⟩
    · rintro ⟨sub, hsub, rfl⟩
      cases hsub with
      | cons _ hsub => exact .inr ⟨sub, hsub, rfl⟩
      | @cons_cons sub _ _ hsub => exact .inl ⟨sub, hsub, by rw [total_cons, add_assoc]⟩

/-- The sums are the values of the terms. -/
theorem mem_calculateSubsetsums {terms : List (V × ℚ)} (hnd : (terms.map Prod.fst).Nodup) {x : ℚ} :
    x ∈ calculateSubsetsums terms ↔ ∃ σ : V → Bool, selected σ terms = x := by
  rw [calculateSubsetsums, mem_calculateSubsetsumsFrom]
  simp only [not_mem_nil, false_or, zero_add]
  constructor
  · rintro ⟨sub, hsub, rfl⟩
    exact exists_selected_eq_total hnd hsub
  · rintro ⟨σ, rfl⟩
    obtain ⟨sub, hsub, htot⟩ := exists_total_eq_selected σ terms
    exact ⟨sub, hsub, htot.symm⟩

/-! ## The chosen encodings -/

theorem encodedBy_encodeOr {e : PseudoBoolEncoder V} (hrel : c.relation = .leq)
    (h : ∀ f, e.doEncode c = some f → c.EncodedBy f) : c.EncodedBy (encodeOr e c) := by
  rw [encodeOr, PseudoBoolEncoder.encode, if_neg (by simp [hrel])]
  cases hf : e.doEncode c with
  | some f => exact h f hf
  | none => exact fun σ => satisfies_constraint σ c

theorem encodeOr_of_doEncode {e : PseudoBoolEncoder V} (hrel : c.relation = .leq) {f : FormulaT V}
    (h : e.doEncode c = some f) : encodeOr e c = f := by
  rw [encodeOr, PseudoBoolEncoder.encode, if_neg (by simp [hrel]), h, Option.getD_some]

theorem encodedBy_of_leq (hrel : c.relation = .leq) {f : FormulaT V}
    (h : ∀ σ, Satisfies σ f ↔ value σ c.lhs ≤ 0) : c.EncodedBy f := by
  intro σ
  rw [h, ConstraintT.Sat, hrel]
  rfl

/-- A formula that is the only one returned. -/
theorem encodedBy_of_exists {o : Option (FormulaT V)} (h : ∃ f, o = some f ∧ c.EncodedBy f) :
    ∀ f, o = some f → c.EncodedBy f := by
  obtain ⟨g, hg, henc⟩ := h
  intro f hf
  rw [hg, Option.some.injEq] at hf
  exact hf ▸ henc

theorem two_le_of_not_short (hne : c.lhs.terms ≠ []) (h : ¬ (ShortFormulaEncoder pool).canEncode c) :
    2 ≤ c.lhs.terms.length := by
  have hpos := length_pos_iff.mpr hne
  have hone : c.lhs.terms.length ≠ 1 := by
    rw [← CardinalityEncoder.vars_length]
    exact fun heq => h (decide_eq_true heq)
  omega

theorem not_short_of_two_le (h : 2 ≤ c.lhs.terms.length) : ¬ (ShortFormulaEncoder pool).canEncode c := by
  intro hcan
  have hone : c.vars.length = 1 := of_decide_eq_true hcan
  rw [CardinalityEncoder.vars_length] at hone
  omega

theorem short_encodedBy (hrel : c.relation = .leq) (h : (ShortFormulaEncoder pool).canEncode c) :
    c.EncodedBy (encodeOr (ShortFormulaEncoder pool) c) :=
  encodedBy_encodeOr hrel (encodedBy_of_exists (ShortFormulaEncoder.doEncode_spec pool h (.inl hrel)))

theorem cardinality_coeff (h : (CardinalityEncoder pool).canEncode c) :
    ∀ t ∈ c.lhs.terms, t.2 = 1 ∨ t.2 = -1 := by
  intro t ht
  have hall := ((Bool.and_eq_true _ _).mp h).1
  exact of_decide_eq_true (all_eq_true.mp hall t ht)

variable (pool) in
/-- With positive coefficients all encoders are right. -/
theorem findSubEncoding_of_pos (hrel : c.relation = .leq) (hne : c.lhs.terms ≠ [])
    (hpos : ∀ t ∈ c.lhs.terms, 0 < t.2) : c.EncodedBy (findSubEncoding pool c) := by
  rw [findSubEncoding]
  split_ifs with hshort hcard hlong
  · exact short_encodedBy hrel hshort
  · have hones : ∀ t ∈ c.lhs.terms, t.2 = 1 := fun t ht =>
      (cardinality_coeff hcard t ht).resolve_right fun heq => by linarith [hpos t ht]
    obtain ⟨f, hf, hsat⟩ := CardinalityEncoder.doEncode_of_ones pool hones hne (by simp [hrel])
    exact encodedBy_encodeOr hrel (encodedBy_of_exists ⟨f, hf, encodedBy_of_leq hrel hsat⟩)
  · exact encodedBy_encodeOr hrel fun f hf => LongFormulaEncoder.encodedBy_of_pos pool hpos hrel hf
  · exact fun σ => satisfies_constraint σ c

/-- With negative coefficients they are right unless one of the two cases is met that the encoders for
cardinality and for long formulas get wrong. -/
theorem findSubEncoding_of_neg (hrel : c.relation = .leq) (hne : c.lhs.terms ≠ [])
    (hneg : ∀ t ∈ c.lhs.terms, t.2 < 0)
    (hcnt : ¬ (2 ≤ c.lhs.terms.length ∧ (∀ t ∈ c.lhs.terms, t.2 = -1) ∧
      c.lhs.terms.length < -c.constantPart))
    (hsum : ¬ (2 ≤ c.lhs.terms.length ∧ (∃ t ∈ c.lhs.terms, t.2 < -1) ∧
      total c.lhs.terms = -c.constantPart)) : c.EncodedBy (findSubEncoding pool c) := by
  rw [findSubEncoding]
  split_ifs with hshort hcard hlong
  · exact short_encodedBy hrel hshort
  · have hones : ∀ t ∈ c.lhs.terms, t.2 = -1 := fun t ht =>
      (cardinality_coeff hcard t ht).resolve_left fun heq => by linarith [hneg t ht]
    have hle : -c.constantPart ≤ c.vars.length := by
      rw [CardinalityEncoder.vars_length]
      exact not_lt.mp fun hlt => hcnt ⟨two_le_of_not_short hne hshort, hones, hlt⟩
    obtain ⟨f, hf, hsat⟩ := CardinalityEncoder.doEncode_of_neg_ones pool hones (by simp [hrel]) hle
    exact encodedBy_encodeOr hrel (encodedBy_of_exists ⟨f, hf, encodedBy_of_leq hrel hsat⟩)
  · refine encodedBy_encodeOr hrel fun f hf => LongFormulaEncoder.encodedBy_of_neg pool hneg hne hrel
      (fun heq => hsum ⟨two_le_of_not_short hne hshort, ?_, heq⟩) hf
    -- the coefficients are not all of absolute value one
    have honly : (c.lhs.terms.all fun t => ¬ |t.2| > 1) = false := by
      simpa using ((Bool.and_eq_true _ _).mp hlong).2
    obtain ⟨t, ht, hgt⟩ := all_eq_false.mp honly
    have hgt' : |t.2| > 1 := by simpa using hgt
    rw [abs_of_neg (hneg t ht)] at hgt'
    exact ⟨t, ht, by linarith⟩
  · exact fun σ => satisfies_constraint σ c

theorem findSubEncoding_of_count (hrel : c.relation = .leq) (hlen : 2 ≤ c.lhs.terms.length)
    (hones : ∀ t ∈ c.lhs.terms, t.2 = -1) (hlt : c.lhs.terms.length < -c.constantPart) :
    ¬ Satisfies σ (findSubEncoding pool c) := by
  have hcard : (CardinalityEncoder pool).canEncode c := by
    have hne : c.lhs.terms ≠ [] := ne_nil_of_length_pos (by omega)
    obtain ⟨t, ht⟩ := exists_mem_of_ne_nil _ hne
    have hall : (c.lhs.terms.all fun t => t.2 = 1 ∨ t.2 = -1) = true :=
      all_eq_true.mpr fun t ht => by simp [hones t ht]
    have hpos : (c.lhs.terms.all fun t => ¬ t.2 < 0) = false :=
      all_eq_false.mpr ⟨t, ht, by simp [hones t ht]⟩
    simp only [CardinalityEncoder, CardinalityEncoder.canEncode, hall, hpos,
      CardinalityEncoder.allCoeffNegative_of_neg_ones hones]
    rfl
  rw [findSubEncoding, if_neg (not_short_of_two_le hlen), if_pos hcard, encodeOr_of_doEncode hrel
    (CardinalityEncoder.doEncode_of_neg_ones_of_lt pool hones (by simp [hrel])
      (by rwa [CardinalityEncoder.vars_length])), satisfies_const]
  exact Bool.false_ne_true

theorem findSubEncoding_of_total (hrel : c.relation = .leq) (hlen : 2 ≤ c.lhs.terms.length)
    (hneg : ∀ t ∈ c.lhs.terms, t.2 < 0) (hlt : ∃ t ∈ c.lhs.terms, t.2 < -1)
    (hsum : total c.lhs.terms = -c.constantPart) :
    Satisfies σ (findSubEncoding pool c) ↔ selected σ c.lhs.terms ≠ total c.lhs.terms := by
  obtain ⟨t, ht, htlt⟩ := hlt
  have hne : c.lhs.terms ≠ [] := ne_nil_of_length_pos (by omega)
  have hcard : ¬ (CardinalityEncoder pool).canEncode c := by
    intro hcan
    rcases cardinality_coeff hcan t ht with heq | heq <;> linarith
  have hlong : (LongFormulaEncoder pool).canEncode c := by
    have hgt : |t.2| > 1 := by
      rw [abs_of_neg (hneg t ht)]
      linarith
    have honly : (c.lhs.terms.all fun t => ¬ |t.2| > 1) = false :=
      all_eq_false.mpr ⟨t, ht, by simpa using hgt⟩
    simp only [LongFormulaEncoder, LongFormulaEncoder.canEncode, honly,
      LongFormulaEncoder.flag_of_neg hneg, LongFormulaEncoder.flag_of_neg' hneg hne]
    rfl
  rw [findSubEncoding, if_neg (not_short_of_two_le hlen), if_neg hcard, if_pos hlong,
    encodeOr_of_doEncode hrel (LongFormulaEncoder.doEncode_of_total pool hneg hne hrel hsum),
    satisfies_not, satisfies_varChain_and]
  exact not_congr (selected_eq_total_iff_of_neg hneg).symm

/-! ## Trimmed constraints -/

open PseudoBoolNormalizer

variable {p : LinearPolynomial V}

/-- The weights after trimming a lower bound. -/
def trimmed (b : ℚ) (terms : List (V × ℚ)) : List (V × ℚ) := if 1 ≤ b then capped b terms else terms

theorem trimmed_pos {b : ℚ} {terms : List (V × ℚ)} (h : ∀ t ∈ terms, 0 < t.2) :
    ∀ t ∈ trimmed b terms, 0 < t.2 := by
  rw [trimmed]
  split
  next hb => exact capped_pos (by linarith) h
  next => exact h

theorem length_trimmed (b : ℚ) (terms : List (V × ℚ)) : (trimmed b terms).length = terms.length := by
  rw [trimmed]
  split
  · rw [capped, length_map]
  · rfl

theorem le_selected_trimmed_iff {b : ℚ} {terms : List (V × ℚ)} (h : ∀ t ∈ terms, 0 < t.2) :
    b ≤ selected σ (trimmed b terms) ↔ b ≤ selected σ terms := by
  rw [trimmed]
  split
  next hb => exact le_selected_capped_iff (by linarith) h
  next => rfl

/-- If the weights add up to the bound, none is trimmed. -/
theorem trimmed_eq_self {b : ℚ} {terms : List (V × ℚ)} (h : ∀ t ∈ terms, 0 < t.2)
    (hlen : 2 ≤ terms.length) (htot : total terms = b) : trimmed b terms = terms := by
  rw [trimmed]
  split
  · exact capped_eq_self fun t ht => htot ▸ (lt_total_of_mem h hlen ht).le
  · rfl

theorem total_trimmed_eq_iff {b : ℚ} {terms : List (V × ℚ)} (h : ∀ t ∈ terms, 0 < t.2)
    (hlen : 2 ≤ terms.length) : total (trimmed b terms) = b ↔ total terms = b := by
  rw [trimmed]
  split
  next hb => exact total_capped_eq_iff (by linarith) h hlen
  next => rfl

theorem trim_create_geq (hpos : ∀ t ∈ p.terms, 0 < t.2) :
    (trim (.create p .geq)).lhs.terms = scale (-1) (trimmed (-p.constantPart) p.terms) := by
  rw [trim, trimmed]
  simp only [ConstraintT.create, LinearPolynomial.neg, ConstraintT.constantPart, scale, map_map]
  split
  next hb =>
    rw [capped, map_map]
    refine map_congr_left fun t ht => ?_
    have hneg : -t.2 < 0 := neg_lt_zero.mpr (hpos t ht)
    simp only [comp_apply, trimTerm, ge_iff_le, hb, neg_one_mul, hneg, true_and, abs_of_neg hneg,
      neg_neg, gt_iff_lt]
    split
    next hlt => rw [min_eq_right hlt.le, neg_neg]
    next hle => rw [min_eq_left (not_lt.mp hle)]
  next hb =>
    refine map_congr_left fun t _ => ?_
    rw [comp_apply, trimTerm, if_neg fun h => hb h.1]

theorem constantPart_trim (c : ConstraintT V) : (trim c).constantPart = c.constantPart := rfl

theorem constantPart_create_geq : (ConstraintT.create p .geq).constantPart = -p.constantPart := rfl

theorem sat_trim_geq (hpos : ∀ t ∈ p.terms, 0 < t.2) (σ : V → Bool) :
    (trim (.create p .geq)).Sat σ ↔ -p.constantPart ≤ selected σ p.terms := by
  rw [LongFormulaEncoder.sat_leq rfl, trim_create_geq hpos, selected_scale, constantPart_trim,
    constantPart_create_geq, ← le_selected_trimmed_iff hpos, neg_one_mul, neg_le_neg_iff]

theorem forall_trim_geq (hpos : ∀ t ∈ p.terms, 0 < t.2) :
    ∀ t ∈ (trim (.create p .geq)).lhs.terms, t.2 < 0 := by
  rw [trim_create_geq hpos]
  intro t ht
  obtain ⟨s, hs, rfl⟩ := mem_map.mp ht
  have hs := trimmed_pos hpos s hs
  simp only
  linarith

theorem length_trim_geq (hpos : ∀ t ∈ p.terms, 0 < t.2) :
    (trim (.create p .geq)).lhs.terms.length = p.terms.length := by
  rw [trim_create_geq hpos, scale, length_map, length_trimmed]

variable (pool) in
/-- A lower bound is encoded correctly unless its encoder gets it wrong. -/
theorem satisfies_geq (hpos : ∀ t ∈ p.terms, 0 < t.2) (hne : p.terms ≠ [])
    (hcnt : ¬ (2 ≤ p.terms.length ∧ (∀ t ∈ p.terms, t.2 = 1) ∧ -p.constantPart < -p.terms.length))
    (hsum : ¬ (2 ≤ p.terms.length ∧ (∃ t ∈ p.terms, 1 < t.2) ∧ total p.terms = -p.constantPart)) :
    Satisfies σ (findSubEncoding pool (trim (.create p .geq))) ↔
      -p.constantPart ≤ selected σ p.terms := by
  rw [← sat_trim_geq hpos]
  refine findSubEncoding_of_neg rfl ?_ (forall_trim_geq hpos) ?_ ?_ σ
  · have hlen := length_trim_geq hpos
    exact ne_nil_of_length_pos (hlen ▸ length_pos_iff.mpr hne)
  · rw [length_trim_geq hpos, trim_create_geq hpos, constantPart_trim, constantPart_create_geq]
    rintro ⟨hlen, hones, hlt⟩
    have hnonneg : (0 : ℚ) ≤ p.terms.length := Nat.cast_nonneg _
    refine hcnt ⟨hlen, fun t ht => ?_, by linarith⟩
    rw [trimmed, if_neg (by linarith)] at hones
    have hone := hones (t.1, -1 * t.2) (mem_map_of_mem ht)
    linarith
  · rw [length_trim_geq hpos, trim_create_geq hpos, constantPart_trim, constantPart_create_geq, total_scale,
      neg_one_mul, neg_inj]
    rintro ⟨hlen, ⟨t, ht, hlt⟩, htot⟩
    rw [total_trimmed_eq_iff hpos hlen] at htot
    rw [trimmed_eq_self hpos hlen htot] at ht
    obtain ⟨s, hs, rfl⟩ := mem_map.mp ht
    exact hsum ⟨hlen, ⟨s, hs, by linarith⟩, htot⟩

theorem not_satisfies_geq_of_count (hlen : 2 ≤ p.terms.length) (hones : ∀ t ∈ p.terms, t.2 = 1)
    (hlt : -p.constantPart < -p.terms.length) :
    ¬ Satisfies σ (findSubEncoding pool (trim (.create p .geq))) := by
  have hpos : ∀ t ∈ p.terms, 0 < t.2 := fun t ht => (hones t ht).symm ▸ one_pos
  have hnonneg : (0 : ℚ) ≤ p.terms.length := Nat.cast_nonneg _
  refine findSubEncoding_of_count rfl (by rwa [length_trim_geq hpos]) ?_ ?_
  · rw [trim_create_geq hpos, trimmed, if_neg (by linarith)]
    intro t ht
    obtain ⟨s, hs, rfl⟩ := mem_map.mp ht
    rw [hones s hs, mul_one]
  · rw [length_trim_geq hpos, constantPart_trim, constantPart_create_geq]
    linarith

theorem satisfies_geq_of_total (hpos : ∀ t ∈ p.terms, 0 < t.2) (hlen : 2 ≤ p.terms.length)
    (hgt : ∃ t ∈ p.terms, 1 < t.2) (htot : total p.terms = -p.constantPart) :
    Satisfies σ (findSubEncoding pool (trim (.create p .geq))) ↔ selected σ p.terms ≠ total p.terms := by
  have hterms : (trim (.create p .geq)).lhs.terms = scale (-1) p.terms := by
    rw [trim_create_geq hpos, trimmed_eq_self hpos hlen htot]
  obtain ⟨t, ht, hgt⟩ := hgt
  rw [findSubEncoding_of_total rfl (by rwa [length_trim_geq hpos]) (forall_trim_geq hpos) ?_ ?_, hterms,
    selected_scale, total_scale, neg_one_mul, neg_one_mul, ne_eq, neg_inj]
  · rw [hterms]
    exact ⟨(t.1, -1 * t.2), mem_map_of_mem ht, by linarith⟩
  · rw [hterms, total_scale, htot, constantPart_trim, constantPart_create_geq, neg_one_mul]

/-- An equation with positive coefficients is made an upper bound. -/
theorem satisfies_eq (hpos : ∀ t ∈ p.terms, 0 < t.2) (hne : p.terms ≠ []) :
    Satisfies σ (findSubEncoding pool (trim (.create p .eq))) ↔
      selected σ p.terms + p.constantPart ≤ 0 := by
  have hterms : (trim (.create p .eq)).lhs.terms = p.terms := by
    rw [trim]
    refine (map_congr_left fun t ht => ?_).trans (map_id _)
    rw [trimTerm, if_neg fun h => h.2.1.not_gt (hpos t ht)]
    rfl
  have henc := findSubEncoding_of_pos pool (c := trim (.create p .eq)) rfl
    (by rwa [hterms]) (by rwa [hterms]) σ
  rw [henc, LongFormulaEncoder.sat_leq rfl, hterms, le_neg_iff_add_nonpos_right]
  rfl

/-! ## The two sides -/

theorem lhs_pos : ∀ t ∈ (lhs c).terms, 0 < t.2 := fun _ ht => of_decide_eq_true (mem_filter.mp ht).2

theorem rhs_pos : ∀ t ∈ (rhs c).terms, 0 < t.2 := by
  intro t ht
  obtain ⟨s, hs, rfl⟩ := mem_map.mp ht
  have hmem := mem_filter.mp hs
  have hle : s.2 ≤ 0 := by simpa using hmem.2
  have hlt : s.2 < 0 := lt_of_le_of_ne hle (c.lhs.coeff_ne_zero s hmem.1)
  simp only
  linarith

theorem lhs_ne_nil (h : ∃ t ∈ c.lhs.terms, 0 < t.2) : (lhs c).terms ≠ [] := by
  obtain ⟨t, ht, hpos⟩ := h
  exact ne_nil_of_mem (mem_filter.mpr ⟨ht, decide_eq_true hpos⟩)

theorem rhs_ne_nil (h : ∃ t ∈ c.lhs.terms, t.2 < 0) : (rhs c).terms ≠ [] := by
  obtain ⟨t, ht, hneg⟩ := h
  exact ne_nil_of_mem (mem_map_of_mem (mem_filter.mpr ⟨ht, by simpa using hneg.le⟩))

/-- A constraint compares its two sides. -/
theorem value_eq_sub (σ : V → Bool) (c : ConstraintT V) :
    value σ c.lhs = selected σ (lhs c).terms - selected σ (rhs c).terms + c.constantPart := by
  have hsplit := selected_filter_add σ (fun t => decide (t.2 > 0)) c.lhs.terms
  rw [value, ← hsplit, rhs, LinearPolynomial.neg, selected_scale]
  simp only [lhs, LinearPolynomial.filterTerms, ConstraintT.constantPart]
  ring

/-- The sides have no variable in common, so they take their values independently. -/
theorem exists_independent (c : ConstraintT V) (σ τ : V → Bool) :
    ∃ ρ : V → Bool, selected ρ (lhs c).terms = selected σ (lhs c).terms ∧
      selected ρ (rhs c).terms = selected τ (rhs c).terms := by
  classical
  refine ⟨fun x => if x ∈ (lhs c).vars then σ x else τ x, selected_congr fun t ht => ?_,
    selected_congr fun t ht => ?_⟩
  · exact if_pos (mem_map_of_mem ht)
  · refine if_neg fun hmem => ?_
    obtain ⟨s, hs, hst⟩ := mem_map.mp hmem
    obtain ⟨r, hr, rfl⟩ := mem_map.mp ht
    have hs := mem_filter.mp hs
    have hr := mem_filter.mp hr
    obtain rfl : s = r := inj_on_of_nodup_map c.lhs.keys_nodup hs.1 hr.1 hst
    simp [of_decide_eq_true hs.2] at hr

theorem mem_sums_lhs {x : ℚ} :
    x ∈ calculateSubsetsums (c.lhs.terms.filter fun t => t.2 > 0) ↔
      ∃ τ : V → Bool, selected τ (lhs c).terms = x :=
  mem_calculateSubsetsums (lhs c).keys_nodup

theorem mem_sums_rhs {x : ℚ} :
    x ∈ calculateSubsetsums (c.lhs.terms.filter fun t => !decide (t.2 > 0)) ↔
      ∃ τ : V → Bool, -selected τ (rhs c).terms = x := by
  refine (mem_calculateSubsetsums (c.lhs.filterTerms fun t => !decide (t.2 > 0)).keys_nodup).trans ?_
  simp only [rhs, LinearPolynomial.neg, selected_scale, neg_one_mul, neg_neg]

/-! ## Inequalities -/

/-- When an inequality `lhs - rhs + k <= 0` is encoded correctly.  The first two conditions exclude what the
encoders for cardinality and long formulas get wrong on the negative terms; if they get the sum of the
positive terms wrong, it must not matter. -/
structure LeqCondition (c : ConstraintT V) (k : ℚ) : Prop where
  count : ¬ (2 ≤ (rhs c).terms.length ∧ (∀ t ∈ (rhs c).terms, t.2 = 1) ∧ k < -(rhs c).terms.length)
  sum : ¬ (2 ≤ (rhs c).terms.length ∧ (∃ t ∈ (rhs c).terms, 1 < t.2) ∧
    ∃ τ : V → Bool, total (rhs c).terms = selected τ (lhs c).terms + k)
  independent : 2 ≤ (lhs c).terms.length → (∃ t ∈ (lhs c).terms, 1 < t.2) → ∀ τ : V → Bool,
    selected τ (rhs c).terms < k ∨ total (lhs c).terms + k ≤ selected τ (rhs c).terms

section Leq

/-- The left side of the implication for a value of the positive terms. -/
def premise (pool : FormulaPool (Atom V)) (c : ConstraintT V) (sum : ℚ) : FormulaT V :=
  findSubEncoding pool (trim (.create ((lhs c).addConstant (-sum)) .geq))

def conclusion (pool : FormulaPool (Atom V)) (c : ConstraintT V) (sum : ℚ) : FormulaT V :=
  findSubEncoding pool (trim (.create (((rhs c).addConstant (-sum)).addConstant (-c.constantPart)) .geq))

variable (pool) in
/-- The implications hold for the values of the variables. -/
def Implications (c : ConstraintT V) (σ : V → Bool) : Prop :=
  ∀ τ : V → Bool, Satisfies σ (premise pool c (selected τ (lhs c).terms)) →
    Satisfies σ (conclusion pool c (selected τ (lhs c).terms))

variable (pool) in
theorem doEncode_leq (hrel : c.relation = .leq) :
    ∃ f, doEncode pool c = some f ∧ ∀ σ, Satisfies σ f ↔ Implications pool c σ := by
  simp only [doEncode, hrel, Option.some.injEq, exists_eq_left', satisfies_and, mem_map,
    mem_sums_lhs, exists_exists_eq_and, forall_exists_index, forall_apply_eq_imp_iff, satisfies_implies]
  exact fun σ => Iff.rfl

variable {τ : V → Bool}

theorem constant_premise (s : ℚ) : -((lhs c).addConstant (-s)).constantPart = s := by
  simp [LinearPolynomial.addConstant, lhs, LinearPolynomial.filterTerms]

theorem constant_conclusion (s : ℚ) :
    -(((rhs c).addConstant (-s)).addConstant (-c.constantPart)).constantPart = s + c.constantPart := by
  simp [LinearPolynomial.addConstant, rhs, LinearPolynomial.neg, LinearPolynomial.filterTerms]
  ring

theorem satisfies_premise (hpos : (lhs c).terms ≠ [])
    (h : ¬ (2 ≤ (lhs c).terms.length ∧ (∃ t ∈ (lhs c).terms, 1 < t.2) ∧
      total (lhs c).terms = selected τ (lhs c).terms)) :
    Satisfies σ (premise pool c (selected τ (lhs c).terms)) ↔
      selected τ (lhs c).terms ≤ selected σ (lhs c).terms := by
  have hnonneg := selected_nonneg (σ := τ) (lhs_pos (c := c))
  have hlen : (0 : ℚ) ≤ (lhs c).terms.length := Nat.cast_nonneg _
  have hgeq := satisfies_geq pool (σ := σ)
    (p := (lhs c).addConstant (-selected τ (lhs c).terms)) lhs_pos hpos
  rw [constant_premise] at hgeq
  exact hgeq (fun hcnt => not_lt.mpr hnonneg (hcnt.2.2.trans_le (neg_nonpos.mpr hlen))) h

theorem satisfies_premise_total (hlen : 2 ≤ (lhs c).terms.length) (hgt : ∃ t ∈ (lhs c).terms, 1 < t.2) :
    Satisfies σ (premise pool c (total (lhs c).terms)) ↔
      selected σ (lhs c).terms ≠ total (lhs c).terms :=
  satisfies_geq_of_total (p := (lhs c).addConstant (-total (lhs c).terms)) lhs_pos hlen hgt
    (constant_premise _).symm

variable (pool) in
theorem satisfies_conclusion_of_not (hneg : (rhs c).terms ≠ []) {s : ℚ}
    (hcnt : ¬ (2 ≤ (rhs c).terms.length ∧ (∀ t ∈ (rhs c).terms, t.2 = 1) ∧
      s + c.constantPart < -(rhs c).terms.length))
    (hsum : ¬ (2 ≤ (rhs c).terms.length ∧ (∃ t ∈ (rhs c).terms, 1 < t.2) ∧
      total (rhs c).terms = s + c.constantPart)) :
    Satisfies σ (conclusion pool c s) ↔ s + c.constantPart ≤ selected σ (rhs c).terms := by
  have hgeq := satisfies_geq pool (σ := σ)
    (p := ((rhs c).addConstant (-s)).addConstant (-c.constantPart)) rhs_pos hneg
  rw [constant_conclusion] at hgeq
  exact hgeq hcnt hsum

theorem not_satisfies_conclusion {s : ℚ} (hlen : 2 ≤ (rhs c).terms.length)
    (hones : ∀ t ∈ (rhs c).terms, t.2 = 1) (hlt : s + c.constantPart < -(rhs c).terms.length) :
    ¬ Satisfies σ (conclusion pool c s) :=
  not_satisfies_geq_of_count (p := ((rhs c).addConstant (-s)).addConstant (-c.constantPart)) hlen hones
    (by rw [constant_conclusion]; exact hlt)

theorem satisfies_conclusion_total {s : ℚ} (hlen : 2 ≤ (rhs c).terms.length)
    (hgt : ∃ t ∈ (rhs c).terms, 1 < t.2) (htot : total (rhs c).terms = s + c.constantPart) :
    Satisfies σ (conclusion pool c s) ↔ selected σ (rhs c).terms ≠ total (rhs c).terms :=
  satisfies_geq_of_total (p := ((rhs c).addConstant (-s)).addConstant (-c.constantPart)) rhs_pos hlen hgt
    (by rw [constant_conclusion]; exact htot)

theorem satisfies_conclusion (hneg : (rhs c).terms ≠ []) (h : LeqCondition c c.constantPart) :
    Satisfies σ (conclusion pool c (selected τ (lhs c).terms)) ↔
      selected τ (lhs c).terms + c.constantPart ≤ selected σ (rhs c).terms := by
  have hnonneg := selected_nonneg (σ := τ) (lhs_pos (c := c))
  refine satisfies_conclusion_of_not pool hneg (fun hcnt => h.count ⟨hcnt.1, hcnt.2.1, ?_⟩)
    (fun hsum => h.sum ⟨hsum.1, hsum.2.1, τ, hsum.2.2⟩)
  exact lt_of_le_of_lt (by linarith) hcnt.2.2

/-- All values are taken, by selecting nothing, everything, or what is selected already. -/
theorem selected_none (terms : List (V × ℚ)) : selected (fun _ => false) terms = 0 := by
  induction terms with
  | nil => rfl
  | cons t terms ih => rw [selected_cons, ih, cond_false, add_zero]

theorem selected_all (terms : List (V × ℚ)) : selected (fun _ => true) terms = total terms := by
  induction terms with
  | nil => rfl
  | cons t terms ih => rw [selected_cons, ih, cond_true, total_cons]

/-- Under the condition the implications say what the constraint says. -/
theorem implications_iff (hpos : (lhs c).terms ≠ []) (hneg : (rhs c).terms ≠ [])
    (h : LeqCondition c c.constantPart) :
    Implications pool c σ ↔
      selected σ (lhs c).terms + c.constantPart ≤ selected σ (rhs c).terms := by
  have htot := total_pos lhs_pos hpos
  have hle : ∀ τ : V → Bool, selected τ (lhs c).terms ≤ total (lhs c).terms := fun τ =>
    selected_le_total lhs_pos
  simp only [Implications, satisfies_conclusion hneg h]
  by_cases hwrong : 2 ≤ (lhs c).terms.length ∧ ∃ t ∈ (lhs c).terms, 1 < t.2
  · have hnone : selected (fun _ => false) (lhs c).terms = 0 := selected_none _
    rcases h.independent hwrong.1 hwrong.2 σ with hlow | hhigh
    · -- the constraint fails whatever the positive terms are
      have hnonneg := selected_nonneg (σ := σ) (lhs_pos (c := c))
      refine iff_of_false (fun hall => ?_) (by linarith)
      have hzero := hall fun _ => false
      rw [satisfies_premise hpos (by rw [hnone]; exact fun hsum => htot.ne' hsum.2.2), hnone] at hzero
      linarith [hzero hnonneg]
    · refine iff_of_true (fun τ _ => ?_) ?_
      · linarith [hle τ]
      · linarith [hle σ]
  · have hpremise : ∀ τ : V → Bool, Satisfies σ (premise pool c (selected τ (lhs c).terms)) ↔
        selected τ (lhs c).terms ≤ selected σ (lhs c).terms := fun τ =>
      satisfies_premise hpos fun hsum => hwrong ⟨hsum.1, hsum.2.1⟩
    simp only [hpremise]
    constructor
    · intro hall
      exact hall σ le_rfl
    · intro hσ τ hτ
      linarith

theorem exists_of_count (hpos : (lhs c).terms ≠ []) (hlen : 2 ≤ (rhs c).terms.length)
    (hones : ∀ t ∈ (rhs c).terms, t.2 = 1) (hlt : c.constantPart < -(rhs c).terms.length) :
    ∃ σ, ¬ Implications pool c σ ∧
      selected σ (lhs c).terms + c.constantPart ≤ selected σ (rhs c).terms := by
  have htot := total_pos lhs_pos hpos
  have hnone : selected (fun _ => false) (lhs c).terms = 0 := selected_none _
  have hlen' : (0 : ℚ) ≤ (rhs c).terms.length := Nat.cast_nonneg _
  refine ⟨fun _ => false, fun himp => ?_, by rw [hnone, selected_none]; linarith⟩
  -- the conclusion for the least value is never true
  refine not_satisfies_conclusion hlen hones ?_ (himp (fun _ => false) ?_)
  · rwa [hnone, zero_add]
  · rw [satisfies_premise hpos (by rw [hnone]; exact fun hsum => htot.ne' hsum.2.2)]

theorem exists_of_sum (hpos : (lhs c).terms ≠ []) (hlen : 2 ≤ (rhs c).terms.length)
    (hgt : ∃ t ∈ (rhs c).terms, 1 < t.2)
    (hτ : total (rhs c).terms = selected τ (lhs c).terms + c.constantPart) :
    ∃ σ, ¬ Implications pool c σ ∧
      selected σ (lhs c).terms + c.constantPart ≤ selected σ (rhs c).terms := by
  have htot := total_pos lhs_pos hpos
  -- the conclusion excludes the greatest value of the negative terms
  have hconcl : ∀ σ, selected σ (rhs c).terms = total (rhs c).terms →
      ¬ Satisfies σ (conclusion pool c (selected τ (lhs c).terms)) := by
    intro σ hσ hsat
    exact (satisfies_conclusion_total hlen hgt hτ).mp hsat hσ
  by_cases hwrong : (2 ≤ (lhs c).terms.length ∧ (∃ t ∈ (lhs c).terms, 1 < t.2) ∧
      total (lhs c).terms = selected τ (lhs c).terms)
  · obtain ⟨ρ, hρ, hρ'⟩ := exists_independent c (fun _ => false) fun _ => true
    rw [selected_none] at hρ
    rw [selected_all] at hρ'
    refine ⟨ρ, fun himp => hconcl ρ hρ' (himp τ ?_), by rw [hρ, hρ', hτ]; linarith [hwrong.2.2]⟩
    rw [← hwrong.2.2, satisfies_premise_total hwrong.1 hwrong.2.1, hρ]
    exact htot.ne
  · obtain ⟨ρ, hρ, hρ'⟩ := exists_independent c τ fun _ => true
    rw [selected_all] at hρ'
    refine ⟨ρ, fun himp => hconcl ρ hρ' (himp τ ?_), by rw [hρ, hρ', hτ]⟩
    rw [satisfies_premise hpos hwrong, hρ]

variable (pool) in
/-- Without the condition the constraint holds somewhere where the implications do not. -/
theorem exists_not_implications (hpos : (lhs c).terms ≠ []) (hneg : (rhs c).terms ≠ [])
    (h : ¬ LeqCondition c c.constantPart) :
    ∃ σ, ¬ Implications pool c σ ∧
      selected σ (lhs c).terms + c.constantPart ≤ selected σ (rhs c).terms := by
  have htot := total_pos lhs_pos hpos
  by_cases hcnt : 2 ≤ (rhs c).terms.length ∧ (∀ t ∈ (rhs c).terms, t.2 = 1) ∧
      c.constantPart < -(rhs c).terms.length
  · exact exists_of_count hpos hcnt.1 hcnt.2.1 hcnt.2.2
  by_cases hsum : 2 ≤ (rhs c).terms.length ∧ (∃ t ∈ (rhs c).terms, 1 < t.2) ∧
      ∃ τ : V → Bool, total (rhs c).terms = selected τ (lhs c).terms + c.constantPart
  · obtain ⟨hlen, hgt, τ, hτ⟩ := hsum
    exact exists_of_sum hpos hlen hgt hτ
  have hdep : ¬ (2 ≤ (lhs c).terms.length → (∃ t ∈ (lhs c).terms, 1 < t.2) → ∀ τ : V → Bool,
      selected τ (rhs c).terms < c.constantPart ∨
        total (lhs c).terms + c.constantPart ≤ selected τ (rhs c).terms) := fun hind =>
    h ⟨hcnt, hsum, hind⟩
  push Not at hdep
  obtain ⟨hlen, hgt, τ, hle, hlt⟩ := hdep
  have hall : selected (fun _ => true) (lhs c).terms = total (lhs c).terms := selected_all _
  -- the premise for the greatest value holds below it
  obtain ⟨ρ, hρ, hρ'⟩ := exists_independent c (fun _ => false) τ
  rw [selected_none] at hρ
  refine ⟨ρ, fun himp => ?_, by rw [hρ, hρ']; linarith⟩
  have hconcl := himp fun _ => true
  rw [hall, satisfies_premise_total hlen hgt, hρ, satisfies_conclusion_of_not pool hneg] at hconcl
  · exact absurd (hconcl htot.ne) (by rw [hρ']; exact not_le.mpr hlt)
  · exact fun hc => hcnt ⟨hc.1, hc.2.1, lt_of_le_of_lt (by linarith) hc.2.2⟩
  · exact fun hs => hsum ⟨hs.1, hs.2.1, fun _ => true, by rw [hall]; exact hs.2.2⟩

end Leq

variable (pool) in
/-- The inequality is encoded correctly under the condition only. -/
theorem encodedBy_doEncode_leq (hrel : c.relation = .leq) (hpos : (lhs c).terms ≠ [])
    (hneg : (rhs c).terms ≠ []) :
    ∃ f, doEncode pool c = some f ∧ (LeqCondition c c.constantPart → c.EncodedBy f) ∧
      (¬ LeqCondition c c.constantPart → ∃ σ, ¬ Satisfies σ f ∧ c.Sat σ) := by
  obtain ⟨f, hf, hsat⟩ := doEncode_leq pool hrel
  have hc : ∀ σ, c.Sat σ ↔
      selected σ (lhs c).terms + c.constantPart ≤ selected σ (rhs c).terms := by
    intro σ
    rw [ConstraintT.Sat, hrel, Relation.evaluate, value_eq_sub]
    constructor <;> intro h <;> linarith
  refine ⟨f, hf, fun h σ => ?_, fun h => ?_⟩
  · rw [hsat, hc, implications_iff hpos hneg h]
  · obtain ⟨σ, hnot, hle⟩ := exists_not_implications pool hpos hneg h
    exact ⟨σ, fun hs => hnot ((hsat σ).mp hs), (hc σ).mpr hle⟩

/-! ## Equations -/

/-- When an equation `lhs - rhs + k = 0` is encoded correctly: only `rhs <= lhs + k` is said of it, and
`lhs <= k` if `rhs` is zero. -/
structure EqCondition (c : ConstraintT V) (k : ℚ) : Prop where
  nonpos : k ≤ 0
  gap : ∀ τ : V → Bool, selected τ (rhs c).terms = 0 ∨
    total (lhs c).terms + k ≤ selected τ (rhs c).terms
  avoids : k ≠ 0 → ∀ τ : V → Bool, selected τ (lhs c).terms ≠ -k

theorem constantPart_lhs : (lhs c).constantPart = 0 := rfl

theorem constantPart_rhs : (rhs c).constantPart = 0 := neg_zero

/-- An equation over the positive terms, after trimming. -/
theorem satisfies_eq_of_terms {q : LinearPolynomial V} (hpos : ∀ t ∈ q.terms, 0 < t.2) (hne : q.terms ≠ [])
    {k : ℚ} (hterms : p.terms = q.terms) (hk : p.constantPart = k) :
    Satisfies σ (findSubEncoding pool (trim (.create p .eq))) ↔ selected σ q.terms + k ≤ 0 := by
  rw [satisfies_eq (by rwa [hterms]) (by rwa [hterms]), hterms, hk]

variable (pool) in
/-- What is left of the implications once every equation in them has been trimmed to an inequality. -/
theorem doEncode_eq (hrel : c.relation = .eq) (hpos : (lhs c).terms ≠ []) (hneg : (rhs c).terms ≠ []) :
    ∃ f, doEncode pool c = some f ∧ ∀ σ, Satisfies σ f ↔
      selected σ (rhs c).terms ≤ selected σ (lhs c).terms + c.constantPart ∧
      (selected σ (rhs c).terms = 0 → selected σ (lhs c).terms ≤ c.constantPart) := by
  simp only [doEncode, hrel, Option.some.injEq, exists_eq_left']
  intro σ
  have hnonneg : ∀ τ : V → Bool, 0 ≤ selected τ (rhs c).terms := fun τ => selected_nonneg rhs_pos
  rw [satisfies_and, forall_mem_append]
  refine and_congr ?_ ?_
  · -- the implications for the values of the positive terms
    simp only [mem_map, mem_sums_lhs, exists_exists_eq_and, forall_exists_index,
      forall_apply_eq_imp_iff, satisfies_implies]
    have hpremise : ∀ s : ℚ, Satisfies σ (findSubEncoding pool
        (trim (.create ((lhs c).addConstant (-s)) .eq))) ↔ selected σ (lhs c).terms + -s ≤ 0 := fun s =>
      satisfies_eq_of_terms lhs_pos hpos rfl (by rw [LinearPolynomial.addConstant, constantPart_lhs, zero_add])
    have hconcl : ∀ s : ℚ, Satisfies σ (findSubEncoding pool
        (trim (.create (((rhs c).addConstant (-s)).addConstant (-c.constantPart)) .eq))) ↔
          selected σ (rhs c).terms + (-s + -c.constantPart) ≤ 0 := fun s =>
      satisfies_eq_of_terms rhs_pos hneg rfl (by
        rw [LinearPolynomial.addConstant, LinearPolynomial.addConstant, constantPart_rhs, zero_add])
    simp only [hpremise, hconcl]
    constructor
    · intro h
      linarith [h σ (by linarith)]
    · intro h τ hτ
      linarith
  · -- only the value zero of the negative terms says anything
    simp only [mem_map, mem_sums_rhs, exists_exists_eq_and, forall_exists_index,
      forall_apply_eq_imp_iff, satisfies_implies, neg_neg]
    have hpremise : ∀ s : ℚ, Satisfies σ (findSubEncoding pool
        (trim (.create ((rhs c).addConstant s) .eq))) ↔ selected σ (rhs c).terms + s ≤ 0 := fun s =>
      satisfies_eq_of_terms rhs_pos hneg rfl (by rw [LinearPolynomial.addConstant, constantPart_rhs, zero_add])
    have hconcl : ∀ s : ℚ, Satisfies σ (findSubEncoding pool
        (trim (.create (((lhs c).addConstant (-c.constantPart)).addConstant s) .eq))) ↔
          selected σ (lhs c).terms + (-c.constantPart + s) ≤ 0 := fun s =>
      satisfies_eq_of_terms lhs_pos hpos rfl (by
        rw [LinearPolynomial.addConstant, LinearPolynomial.addConstant, constantPart_lhs, zero_add])
    simp only [hpremise, hconcl]
    constructor
    · intro h hzero
      have hnone : selected (fun _ => false) (rhs c).terms = 0 := selected_none _
      have hle := h (fun _ => false) (by rw [hnone, hzero, zero_add])
      rw [hnone] at hle
      linarith
    · intro h τ hτ
      have hσ := hnonneg σ
      have hτ' := hnonneg τ
      have hle := h (by linarith)
      linarith

/-- What is said of an equation is the equation under the condition only. -/
theorem eqCondition_iff :
    (∀ σ, selected σ (rhs c).terms ≤ selected σ (lhs c).terms + c.constantPart ∧
        (selected σ (rhs c).terms = 0 → selected σ (lhs c).terms ≤ c.constantPart) ↔
      selected σ (lhs c).terms + c.constantPart = selected σ (rhs c).terms) ↔
      EqCondition c c.constantPart := by
  have hlhs : ∀ τ : V → Bool, 0 ≤ selected τ (lhs c).terms := fun τ => selected_nonneg lhs_pos
  have hrhs : ∀ τ : V → Bool, 0 ≤ selected τ (rhs c).terms := fun τ => selected_nonneg rhs_pos
  constructor
  · intro h
    have hk : c.constantPart ≤ 0 := by
      by_contra hgt
      have hlt := not_le.mp hgt
      have hiff := h fun _ => false
      rw [selected_none, selected_none, zero_add] at hiff
      exact hlt.ne' (hiff.mp ⟨hlt.le, fun _ => hlt.le⟩)
    refine ⟨hk, fun τ => ?_, fun hne τ hτ => ?_⟩
    · -- everything is selected on the left
      by_contra hnot
      push Not at hnot
      obtain ⟨ρ, hρ, hρ'⟩ := exists_independent c (fun _ => true) τ
      rw [selected_all] at hρ
      have heq := (h ρ).mp ⟨by rw [hρ, hρ']; exact hnot.2.le, fun hzero => absurd (hρ'.symm.trans hzero) hnot.1⟩
      rw [hρ, hρ'] at heq
      linarith [hnot.2]
    · -- nothing is selected on the right
      obtain ⟨ρ, hρ, hρ'⟩ := exists_independent c τ fun _ => false
      rw [selected_none] at hρ'
      have hle := ((h ρ).mpr (by rw [hρ, hρ', hτ, neg_add_cancel])).2 hρ'
      rw [hρ, hτ] at hle
      exact hne (by linarith)
  · rintro ⟨hk, hgap, havoids⟩ σ
    have hle : selected σ (lhs c).terms ≤ total (lhs c).terms := selected_le_total lhs_pos
    constructor
    · rintro ⟨hbd, hzero⟩
      rcases hgap σ with heq | hge
      · have := hzero heq
        linarith [hlhs σ]
      · linarith
    · intro heq
      refine ⟨heq.ge, fun hzero => ?_⟩
      by_cases hne : c.constantPart = 0
      · linarith
      · exact absurd (by linarith) (havoids hne σ)

/-! ## Correctness -/

/-- A constraint with both signs is encoded correctly exactly under the conditions for its relation.  For
`<` it is also needed, and true of integers, that the left-hand side skips the values between `-1` and
`0`. -/
theorem mixedSign_correct_iff (pool : FormulaPool (Atom V)) (c : ConstraintT V)
    (hpos : ∃ t ∈ c.lhs.terms, 0 < t.2) (hneg : ∃ t ∈ c.lhs.terms, t.2 < 0)
    (hrel : c.relation = .leq ∨ c.relation = .less ∨ c.relation = .eq) :
    (∃ f, (MixedSignEncoder pool).encode c = some f ∧ c.EncodedBy f) ↔
      (c.relation = .leq → LeqCondition c c.constantPart) ∧
      (c.relation = .less → LeqCondition c (c.constantPart + 1) ∧
        ∀ σ, ¬ (-1 < value σ c.lhs ∧ value σ c.lhs < 0)) ∧
      (c.relation = .eq → EqCondition c c.constantPart) := by
  have hpos := lhs_ne_nil hpos
  have hneg := rhs_ne_nil hneg
  rw [PseudoBoolEncoder.encode]
  rcases hrel with hrel | hrel | hrel
  · obtain ⟨f, hf, hright, hwrong⟩ := encodedBy_doEncode_leq pool hrel hpos hneg
    have hf' : (MixedSignEncoder pool).doEncode c = some f := hf
    simp only [hrel, reduceCtorEq, if_false, hf', Option.some.injEq, exists_eq_left', true_imp_iff,
      false_imp_iff, and_true]
    refine ⟨fun h => ?_, hright⟩
    by_contra hnot
    obtain ⟨σ, hfalse, hsat⟩ := hwrong hnot
    exact hfalse ((h σ).mpr hsat)
  · obtain ⟨f, hf, hright, hwrong⟩ :=
      encodedBy_doEncode_leq pool (c := normalizeLessConstraint c) rfl hpos hneg
    have hf' : (MixedSignEncoder pool).doEncode (normalizeLessConstraint c) = some f := hf
    have hcond : LeqCondition (normalizeLessConstraint c) (normalizeLessConstraint c).constantPart ↔
        LeqCondition c (c.constantPart + 1) := ⟨fun h => ⟨h.1, h.2, h.3⟩, fun h => ⟨h.1, h.2, h.3⟩⟩
    rw [hcond] at hright hwrong
    simp only [hrel, reduceCtorEq, if_true, hf', Option.some.injEq, exists_eq_left', true_imp_iff,
      false_imp_iff, and_true, true_and]
    constructor
    · intro h
      have hleq : LeqCondition c (c.constantPart + 1) := by
        by_contra hnot
        obtain ⟨σ, hfalse, hsat⟩ := hwrong hnot
        rw [sat_normalizeLess] at hsat
        refine hfalse ((h σ).mpr ?_)
        rw [ConstraintT.Sat, hrel, Relation.evaluate]
        linarith
      exact ⟨hleq, (ConstraintT.encodedBy_less_iff hrel (hright hleq)).mp h⟩
    · rintro ⟨hleq, hgap⟩
      exact (ConstraintT.encodedBy_less_iff hrel (hright hleq)).mpr hgap
  · obtain ⟨f, hf, hsat⟩ := doEncode_eq pool hrel hpos hneg
    have hf' : (MixedSignEncoder pool).doEncode c = some f := hf
    simp only [hrel, reduceCtorEq, if_false, hf', Option.some.injEq, exists_eq_left', true_imp_iff,
      false_imp_iff, true_and]
    rw [← eqCondition_iff]
    refine forall_congr' fun σ => ?_
    have hc : c.Sat σ ↔ selected σ (lhs c).terms + c.constantPart = selected σ (rhs c).terms := by
      rw [ConstraintT.Sat, hrel, Relation.evaluate, value_eq_sub]
      constructor <;> intro h <;> linarith
    rw [hsat, hc]

/-- `x - y <= 0` -/
def oneOfEach : ConstraintT (Fin 2) := ⟨⟨[(0, 1), (1, -1)], 0, by decide, by simp⟩, .leq⟩

theorem mixedSign_correct_iff_oneOfEach :
    ∃ f, (MixedSignEncoder (.verbatim _)).encode oneOfEach = some f ∧ oneOfEach.EncodedBy f :=
  (mixedSign_correct_iff (.verbatim _) oneOfEach ⟨(0, 1), by simp [oneOfEach]⟩
    ⟨(1, -1), by simp [oneOfEach]⟩ (.inl rfl)).mpr (by
      have hlhs : (lhs oneOfEach).terms.length = 1 := by
        simp [lhs, oneOfEach, LinearPolynomial.filterTerms]
      have hrhs : (rhs oneOfEach).terms.length = 1 := by
        simp [rhs, oneOfEach, LinearPolynomial.filterTerms, LinearPolynomial.neg, scale]
      refine ⟨fun _ => ⟨?_, ?_, ?_⟩, fun h => ?_, fun h => ?_⟩
      · rintro ⟨hlen, -⟩
        omega
      · rintro ⟨hlen, -⟩
        omega
      · intro hlen
        omega
      · simp [oneOfEach] at h
      · simp [oneOfEach] at h)

/-- `x + y - z = 0` -/
def twoAndOne : ConstraintT (Fin 3) := ⟨⟨[(0, 1), (1, 1), (2, -1)], 0, by decide, by simp⟩, .eq⟩

/-- The equation is encoded as an inequality. -/
theorem not_mixedSign_correct_all :
    ¬ ∀ c : ConstraintT (Fin 3), (∃ t ∈ c.lhs.terms, 0 < t.2) → (∃ t ∈ c.lhs.terms, t.2 < 0) →
      (∀ t ∈ c.lhs.terms, ∃ z : ℤ, t.2 = z) →
      (c.relation = .leq ∨ c.relation = .less ∨ c.relation = .eq) →
      ∃ f, (MixedSignEncoder (.verbatim _)).encode c = some f ∧ c.EncodedBy f := by
  intro h
  have hpos : ∃ t ∈ twoAndOne.lhs.terms, 0 < t.2 := ⟨(0, 1), by simp [twoAndOne]⟩
  have hneg : ∃ t ∈ twoAndOne.lhs.terms, t.2 < 0 := ⟨(2, -1), by simp [twoAndOne]⟩
  have hint : ∀ t ∈ twoAndOne.lhs.terms, ∃ z : ℤ, t.2 = z := by
    intro t ht
    have ht : t = (0, 1) ∨ t = (1, 1) ∨ t = (2, -1) := by simpa [twoAndOne] using ht
    rcases ht with rfl | rfl | rfl
    · exact ⟨1, by simp⟩
    · exact ⟨1, by simp⟩
    · exact ⟨-1, by simp⟩
  obtain ⟨f, hf, henc⟩ := h twoAndOne hpos hneg hint (.inr (.inr rfl))
  obtain ⟨g, hg, hsat⟩ := doEncode_eq (.verbatim _) (c := twoAndOne) rfl (lhs_ne_nil hpos) (rhs_ne_nil hneg)
  obtain rfl : f = g := by
    rw [PseudoBoolEncoder.encode, if_neg (by simp [twoAndOne])] at hf
    exact Option.some.inj (hf.symm.trans hg)
  have hlhs : selected (fun _ => true) (lhs twoAndOne).terms = 2 := by
    rw [selected_all]
    norm_num [lhs, twoAndOne, LinearPolynomial.filterTerms, total]
  have hrhs : selected (fun _ => true) (rhs twoAndOne).terms = 1 := by
    rw [selected_all]
    norm_num [rhs, twoAndOne, LinearPolynomial.filterTerms, LinearPolynomial.neg, scale, total]
  have hc : twoAndOne.constantPart = 0 := rfl
  have htrue := (henc fun _ => true).mp ((hsat fun _ => true).mpr (by rw [hlhs, hrhs, hc]; norm_num))
  rw [ConstraintT.Sat, value_eq_sub, hlhs, hrhs, hc] at htrue
  norm_num [twoAndOne, Relation.evaluate] at htrue

end MixedSignEncoder

end Smtrat.PBPP
