import Smtrat.Common.Atom
import Smtrat.Solver.Assertions

/-!
# Linearizations

The sign of a polynomial at a point with large powers of a base as coordinates is that of the terms
whose exponents are extremal in the direction the powers are taken from.  The linearization of a
polynomial asks for such a direction, together with a sign for each variable: a hyperplane, given by
a bias and a normal vector, that separates a positive term from all negative ones.
-/

namespace Smtrat.STrop

open SparsePoly PropFormula List

universe u

/-- The arithmetic variables of the linearizations. -/
inductive InnerVariable (V : Type u) where
  | bias (normalization : Poly V ℚ)
  | normalVector (x : V)
  /-- The rating of a term, by its position. -/
  | rating (normalization : Poly V ℚ) (index : ℕ)
deriving DecidableEq

/-- The formulas of the inner solver; the sign variants are its Boolean variables. -/
abbrev LinearFormula (V : Type u) := Formula (Atom (InnerVariable V) V)

inductive SeparatorType where
  | strict | weak
deriving DecidableEq, Repr

inductive Direction where
  | both | negative | positive
deriving DecidableEq, Repr

/-- A term with its rating; the monomial of a constant term is empty. -/
structure Vertex (V : Type u) where
  mCoefficient : ℚ
  mMonomial : List (V × ℕ)
  mRating : InnerVariable V

/-- How the formulas of the inner solver are stored. -/
structure LinearPool (V : Type u) extends FlatPool (Atom (InnerVariable V) V) where
  constraint : Poly (InnerVariable V) ℚ → Relation → LinearFormula V
  satisfies_constraint : ∀ (a : Assignment (InnerVariable V) V) p r,
    a.Satisfies (constraint p r) ↔ r.evaluate (Poly.eval a.arith p) 0
  isConjunction_constraint : ∀ p r, (constraint p r).isConjunction = false

variable {V : Type u}

/-- `Separator::mVertices` -/
def vertices (p : Poly V ℚ) : List (Vertex V) :=
  p.zipIdx.map fun q => ⟨q.1.coeff, q.1.monomial, .rating p q.2⟩

/-! ## Separators -/

section Separator

variable (pool : LinearPool V) (type : SeparatorType) (p : Poly V ℚ) (negated : Bool) (v : Vertex V)

def hyperplane (m : List (V × ℕ)) : Poly (InnerVariable V) ℚ :=
  Poly.var (.bias p) ++ m.map fun e => ⟨(e.2 : ℚ), [(.normalVector e.1, 1)]⟩

/-- The signs of the variables make the monomial negative. -/
def signChangeFormula (m : List (V × ℕ)) : LinearFormula V :=
  if m = [] then .const false
  else pool.create .xor ((m.filter fun e => e.2 % 2 = 1).map fun e => .atom (.bool e.1))

def not (f : LinearFormula V) : LinearFormula V := pool.create .not [f]

def implies (f g : LinearFormula V) : LinearFormula V := pool.create .implies [f, g]

/-- The rating case distinction formula of a weak separator. -/
def ratingFormulas : List (LinearFormula V) :=
  let signChange := signChangeFormula pool v.mMonomial
  let coefficient := if negated then -v.mCoefficient else v.mCoefficient
  [implies pool (pool.constraint (hyperplane p v.mMonomial) .less)
      (pool.constraint (Poly.var v.mRating) .eq),
    implies pool (pool.constraint (hyperplane p v.mMonomial) .eq)
      (pool.create .and
        [implies pool signChange (pool.constraint
            (Poly.add (Poly.var v.mRating) (SparsePoly.Poly.const coefficient)) .eq),
          implies pool (not pool signChange) (pool.constraint
            (Poly.sub (Poly.var v.mRating) (SparsePoly.Poly.const coefficient)) .eq)])]

def isPositive : Bool := decide (0 < v.mCoefficient) != negated

/-- The term is positive and above the hyperplane. -/
def disjunction : LinearFormula V :=
  let signChange := signChangeFormula pool v.mMonomial
  not pool (implies pool (if isPositive negated v then not pool signChange else signChange)
    (pool.constraint (hyperplane p v.mMonomial) (if type = .strict then .leq else .less)))

/-- If the term is negative, it is below the hyperplane. -/
def conjunction : LinearFormula V :=
  let signChange := signChangeFormula pool v.mMonomial
  implies pool (if isPositive negated v then signChange else not pool signChange)
    (pool.constraint (hyperplane p v.mMonomial) (if type = .strict then .less else .leq))

def totalRating : Poly (InnerVariable V) ℚ := (vertices p).flatMap fun v => Poly.var v.mRating

def conjunctions : List (LinearFormula V) :=
  ((vertices p).flatMap fun v =>
      (if type = .weak then ratingFormulas pool p negated v else []) ++
        [conjunction pool type p negated v]) ++
    if type = .weak then [pool.constraint (totalRating p) .greater] else []

def createSeparator : LinearFormula V :=
  pool.create .and
    [pool.create .or ((vertices p).map (disjunction pool type p negated)),
      pool.create .and (conjunctions pool type p negated)]

def createLinearization (direction : Direction) : LinearFormula V :=
  match direction with
  | .positive => createSeparator pool type p false
  | .negative => createSeparator pool type p true
  | .both => pool.create .xor [createSeparator pool type p false, createSeparator pool type p true]

end Separator

/-! ## What a model says -/

section Semantics

variable (a : Assignment (InnerVariable V) V) (p : Poly V ℚ) (negated : Bool)

/-- The sign of a variable. -/
noncomputable def signOf (x : V) : ℝ := if a.bool x then -1 else 1

/-- The exponent of a monomial in the direction of the normal vector. -/
noncomputable def degree (m : List (V × ℕ)) : ℝ :=
  (m.map fun e => (e.2 : ℝ) * a.arith (.normalVector e.1)).sum

noncomputable def height (m : List (V × ℕ)) : ℝ := a.arith (.bias p) + degree a m

/-- The coefficient of a term for the signs of the variables. -/
noncomputable def variant (v : Vertex V) : ℝ :=
  (if negated then -(v.mCoefficient : ℝ) else v.mCoefficient) * monomialEval (signOf a) v.mMonomial

theorem eval_hyperplane (m : List (V × ℕ)) : Poly.eval a.arith (hyperplane p m) = height a p m := by
  rw [hyperplane, Poly.eval_append, Poly.eval_var, height, degree]
  refine congrArg (_ + ·) ?_
  induction m with
  | nil => rfl
  | cons e m ih =>
    rw [map_cons, map_cons, Poly.eval_cons, ih, sum_cons]
    simp [Term.eval]

/-- The signs of the variables with an odd exponent are multiplied. -/
theorem monomialEval_signOf (m : List (V × ℕ)) :
    monomialEval (signOf a) m =
      if ((m.filter fun e => e.2 % 2 = 1).map fun e => a.bool e.1).foldr Bool.xor false
      then -1 else 1 := by
  induction m with
  | nil => simp
  | cons e m ih =>
    rw [monomialEval_cons, ih]
    rcases Nat.even_or_odd e.2 with he | he
    · have hmod : e.2 % 2 ≠ 1 := by
        have := Nat.even_iff.mp he
        omega
      have hone : signOf a e.1 ^ e.2 = 1 := by
        unfold signOf
        split
        · exact he.neg_one_pow
        · exact one_pow _
      rw [filter_cons_of_neg (by simpa using hmod), hone, one_mul]
    · have hpow : signOf a e.1 ^ e.2 = signOf a e.1 := by
        unfold signOf
        split
        · exact he.neg_one_pow
        · exact one_pow _
      rw [filter_cons_of_pos (by simpa using Nat.odd_iff.mp he), hpow, map_cons, foldr_cons, signOf]
      generalize List.foldr Bool.xor false _ = b
      cases a.bool e.1 <;> cases b <;> simp

theorem monomialEval_signOf_eq_or (m : List (V × ℕ)) :
    monomialEval (signOf a) m = -1 ∨ monomialEval (signOf a) m = 1 := by
  rw [monomialEval_signOf]
  split
  · exact .inl rfl
  · exact .inr rfl

variable (pool : LinearPool V)

@[simp] theorem satisfies_not (f : LinearFormula V) :
    a.Satisfies (not pool f) ↔ ¬ a.Satisfies f := by
  rw [not, satisfies_create, satisfies_app_not]

@[simp] theorem satisfies_implies (f g : LinearFormula V) :
    a.Satisfies (implies pool f g) ↔ (a.Satisfies f → a.Satisfies g) := by
  rw [implies, satisfies_create, satisfies_app_implies]

theorem satisfies_signChangeFormula (m : List (V × ℕ)) :
    a.Satisfies (signChangeFormula pool m) ↔ monomialEval (signOf a) m = -1 := by
  unfold signChangeFormula
  by_cases hm : m = []
  · rw [if_pos hm, hm, satisfies_const, monomialEval_nil]
    norm_num
  · have heval : a.Satisfies (.app .xor
        ((m.filter fun e => e.2 % 2 = 1).map fun e => .atom (.bool e.1)) : LinearFormula V) ↔
        ((m.filter fun e => e.2 % 2 = 1).map fun e => a.bool e.1).foldr Bool.xor false = true := by
      rw [Assignment.Satisfies, Formula.eval_app, map_map, Connective.eval]
      refine Iff.of_eq (congrArg (fun bs => List.foldr Bool.xor false bs = true) ?_)
      refine map_congr_left fun e _ => ?_
      rw [Function.comp_apply, Formula.eval_atom, Atom.Holds]
      by_cases he : a.bool e.1 = true <;> simp [he]
    rw [if_neg hm, satisfies_create, heval, monomialEval_signOf]
    split
    · next h => simp [h]
    · next h =>
        simp only [h]
        norm_num

variable {v : Vertex V}

/-- Terms are positive if their sign is changed exactly if their coefficient is not positive. -/
theorem variant_pos_iff (hv : v.mCoefficient ≠ 0) :
    0 < variant a negated v ↔
      if isPositive negated v then monomialEval (signOf a) v.mMonomial ≠ -1
      else monomialEval (signOf a) v.mMonomial = -1 := by
  unfold variant isPositive
  have hcast : (0 : ℝ) < v.mCoefficient ↔ 0 < v.mCoefficient := Rat.cast_pos
  have hcast' : (v.mCoefficient : ℝ) < 0 ↔ v.mCoefficient < 0 := Rat.cast_lt_zero
  rcases lt_or_gt_of_ne hv with hneg | hpos
  · have hnot : ¬ 0 < v.mCoefficient := hneg.not_gt
    have hreal := hcast'.mpr hneg
    rcases monomialEval_signOf_eq_or a v.mMonomial with hm | hm <;>
      cases negated <;> norm_num [hm, hnot, hreal, hreal.le]
  · have hreal := hcast.mpr hpos
    rcases monomialEval_signOf_eq_or a v.mMonomial with hm | hm <;>
      cases negated <;> norm_num [hm, hpos, hpos.le, hreal, hreal.le]

theorem variant_ne_zero (hv : v.mCoefficient ≠ 0) : variant a negated v ≠ 0 := by
  have hcast : (v.mCoefficient : ℝ) ≠ 0 := Rat.cast_ne_zero.mpr hv
  refine mul_ne_zero ?_ ?_
  · cases negated <;> simpa using hcast
  · rcases monomialEval_signOf_eq_or a v.mMonomial with hm | hm <;> rw [hm] <;> norm_num

theorem variant_neg_iff (hv : v.mCoefficient ≠ 0) :
    variant a negated v < 0 ↔
      if isPositive negated v then monomialEval (signOf a) v.mMonomial = -1
      else monomialEval (signOf a) v.mMonomial ≠ -1 := by
  have hne := variant_ne_zero a negated hv
  have hpos := variant_pos_iff a negated hv
  rw [← not_le, hne.symm.le_iff_lt, hpos]
  split <;> simp

/-! ## What a separator says -/

variable (type : SeparatorType)

theorem satisfies_disjunction (hv : v.mCoefficient ≠ 0) :
    a.Satisfies (disjunction pool type p negated v) ↔ 0 < variant a negated v ∧
      if type = .strict then 0 < height a p v.mMonomial else 0 ≤ height a p v.mMonomial := by
  have hsign := satisfies_signChangeFormula a pool v.mMonomial
  rw [disjunction, satisfies_not, satisfies_implies, Classical.not_imp, variant_pos_iff a negated hv,
    pool.satisfies_constraint, eval_hyperplane]
  refine and_congr ?_ ?_
  · by_cases hpos : isPositive negated v = true
    · rw [if_pos hpos, if_pos hpos, satisfies_not, hsign]
    · rw [if_neg hpos, if_neg hpos, hsign]
  · by_cases htype : type = .strict
    · rw [if_pos htype, if_pos htype]
      exact not_le
    · rw [if_neg htype, if_neg htype]
      exact not_lt

theorem satisfies_conjunction (hv : v.mCoefficient ≠ 0) :
    a.Satisfies (conjunction pool type p negated v) ↔ (variant a negated v < 0 →
      if type = .strict then height a p v.mMonomial < 0 else height a p v.mMonomial ≤ 0) := by
  have hsign := satisfies_signChangeFormula a pool v.mMonomial
  rw [conjunction, satisfies_implies, variant_neg_iff a negated hv, pool.satisfies_constraint,
    eval_hyperplane]
  refine imp_congr ?_ ?_
  · by_cases hpos : isPositive negated v = true
    · rw [if_pos hpos, if_pos hpos, hsign]
    · rw [if_neg hpos, if_neg hpos, satisfies_not, hsign]
  · by_cases htype : type = .strict
    · rw [if_pos htype, if_pos htype]
      rfl
    · rw [if_neg htype, if_neg htype]
      rfl

/-- Terms below the hyperplane have the rating zero, those on it are rated by themselves. -/
theorem rating_of_satisfies (h : ∀ f ∈ ratingFormulas pool p negated v, a.Satisfies f) :
    (height a p v.mMonomial < 0 → a.arith v.mRating = 0) ∧
      (height a p v.mMonomial = 0 → a.arith v.mRating = variant a negated v) := by
  have hsign := satisfies_signChangeFormula a pool v.mMonomial
  obtain ⟨hbelow, hon⟩ : _ ∧ _ := by
    simpa only [ratingFormulas, forall_mem_cons, not_mem_nil, false_implies,
      implies_true, and_true] using h
  rw [satisfies_implies, pool.satisfies_constraint, pool.satisfies_constraint, eval_hyperplane,
    Poly.eval_var] at hbelow
  rw [satisfies_implies, pool.satisfies_constraint, eval_hyperplane, satisfies_create,
    satisfies_app_and] at hon
  refine ⟨hbelow, fun hzero => ?_⟩
  obtain ⟨hchg, hkept⟩ : _ ∧ _ := by
    simpa only [forall_mem_cons, not_mem_nil, false_implies, implies_true, and_true] using hon hzero
  rw [satisfies_implies, pool.satisfies_constraint, hsign, Poly.eval_add, Poly.eval_var,
    Poly.eval_const] at hchg
  rw [satisfies_implies, pool.satisfies_constraint, satisfies_not, hsign, Poly.eval_sub,
    Poly.eval_var, Poly.eval_const] at hkept
  have hcast : algebraMap ℚ ℝ (if negated then -v.mCoefficient else v.mCoefficient) =
      if negated then -(v.mCoefficient : ℝ) else v.mCoefficient := by
    cases negated <;> simp
  rw [hcast] at hchg hkept
  unfold variant
  rcases monomialEval_signOf_eq_or a v.mMonomial with hm | hm
  · have := hchg hm
    rw [Relation.evaluate] at this
    rw [hm]
    linarith
  · have := hkept (by rw [hm]; norm_num)
    rw [Relation.evaluate] at this
    rw [hm]
    linarith

theorem eval_totalRating :
    Poly.eval a.arith (totalRating p) = ((vertices p).map fun v => a.arith v.mRating).sum := by
  unfold totalRating
  induction vertices p with
  | nil => rfl
  | cons v vs ih => rw [flatMap_cons, Poly.eval_append, ih, Poly.eval_var, map_cons, sum_cons]

/-- A separator has a positive term above the hyperplane and all negative ones below. -/
theorem separates_of_satisfies (hp : ∀ v ∈ vertices p, v.mCoefficient ≠ 0)
    (h : a.Satisfies (createSeparator pool type p negated)) :
    (∃ v ∈ vertices p, 0 < variant a negated v ∧
      if type = .strict then 0 < height a p v.mMonomial else 0 ≤ height a p v.mMonomial) ∧
    (∀ v ∈ vertices p, variant a negated v < 0 →
      if type = .strict then height a p v.mMonomial < 0 else height a p v.mMonomial ≤ 0) ∧
    (type = .weak → (∀ v ∈ vertices p,
      (height a p v.mMonomial < 0 → a.arith v.mRating = 0) ∧
        (height a p v.mMonomial = 0 → a.arith v.mRating = variant a negated v)) ∧
      0 < ((vertices p).map fun v => a.arith v.mRating).sum) := by
  obtain ⟨hor, hand⟩ : _ ∧ _ := by
    simpa only [createSeparator, satisfies_create, satisfies_app_and, forall_mem_cons,
      not_mem_nil, false_implies, implies_true, and_true] using h
  have hmem {f : LinearFormula V} (hf : f ∈ conjunctions pool type p negated) : a.Satisfies f :=
    hand f hf
  refine ⟨?_, fun v hv => ?_, fun htype => ⟨fun v hv => ?_, ?_⟩⟩
  · obtain ⟨f, hf, hsat⟩ := (satisfies_app_or _ _).mp hor
    obtain ⟨v, hv, rfl⟩ := mem_map.mp hf
    exact ⟨v, hv, (satisfies_disjunction a p negated pool type (hp v hv)).mp hsat⟩
  · refine (satisfies_conjunction a p negated pool type (hp v hv)).mp (hmem ?_)
    refine mem_append_left _ (mem_flatMap.mpr ⟨v, hv, ?_⟩)
    exact mem_append_right _ (mem_singleton.mpr rfl)
  · refine rating_of_satisfies a p negated pool fun f hf => hmem ?_
    refine mem_append_left _ (mem_flatMap.mpr ⟨v, hv, ?_⟩)
    exact mem_append_left _ (by rwa [if_pos htype])
  · have htot : a.Satisfies (pool.constraint (totalRating p) .greater) := by
      refine hmem (mem_append_right _ ?_)
      rw [if_pos htype]
      exact mem_singleton.mpr rfl
    rwa [pool.satisfies_constraint, eval_totalRating] at htot

end Semantics

/-! ## How linearizations are stored -/

section Flat

variable (pool : LinearPool V) (type : SeparatorType) (p : Poly V ℚ)

theorem LinearPool.flat_constraint (p : Poly (InnerVariable V) ℚ) (r : Relation) :
    (pool.constraint p r).Flat := Formula.flat_of_not_isConjunction (pool.isConjunction_constraint p r)

theorem LinearPool.flat {c : Connective} {fs : List (LinearFormula V)} (h : ∀ f ∈ fs, f.Flat) :
    (pool.create c fs).Flat := pool.flat_create c fs h

theorem flat_signChangeFormula (m : List (V × ℕ)) : (signChangeFormula pool m).Flat := by
  unfold signChangeFormula
  split
  · exact trivial
  · refine pool.flat fun f hf => ?_
    obtain ⟨e, -, rfl⟩ := mem_map.mp hf
    exact trivial

theorem flat_not {f : LinearFormula V} (hf : f.Flat) : (not pool f).Flat :=
  pool.flat (by simpa using hf)

theorem flat_implies {f g : LinearFormula V} (hf : f.Flat) (hg : g.Flat) :
    (implies pool f g).Flat := pool.flat (by simpa using ⟨hf, hg⟩)

theorem flat_createSeparator (negated : Bool) : (createSeparator pool type p negated).Flat := by
  have hsign (v : Vertex V) := flat_signChangeFormula pool v.mMonomial
  have hvariant (b : Bool) (v : Vertex V) : (if b then not pool (signChangeFormula pool v.mMonomial)
      else signChangeFormula pool v.mMonomial).Flat := by
    cases b
    · exact hsign v
    · exact flat_not pool (hsign v)
  have hcon := pool.flat_constraint
  have hratings (v : Vertex V) : ∀ f ∈ ratingFormulas pool p negated v, f.Flat := by
    simp only [ratingFormulas, forall_mem_cons, not_mem_nil, false_implies, implies_true, and_true]
    refine ⟨flat_implies pool (hcon _ _) (hcon _ _), flat_implies pool (hcon _ _) (pool.flat ?_)⟩
    simp only [forall_mem_cons, not_mem_nil, false_implies, implies_true, and_true]
    exact ⟨flat_implies pool (hsign v) (hcon _ _),
      flat_implies pool (flat_not pool (hsign v)) (hcon _ _)⟩
  refine pool.flat ?_
  simp only [forall_mem_cons, not_mem_nil, false_implies, implies_true, and_true]
  constructor
  · refine pool.flat fun f hf => ?_
    obtain ⟨v, -, rfl⟩ := mem_map.mp hf
    exact flat_not pool (flat_implies pool (hvariant _ v) (hcon _ _))
  · refine pool.flat fun f hf => ?_
    rcases mem_append.mp hf with hf | hf
    · obtain ⟨v, -, hf⟩ := mem_flatMap.mp hf
      rcases mem_append.mp hf with hf | hf
      · split at hf
        · exact hratings v f hf
        · exact absurd hf not_mem_nil
      · rw [mem_singleton.mp hf]
        refine flat_implies pool ?_ (hcon _ _)
        split
        · exact hsign v
        · exact flat_not pool (hsign v)
    · split at hf
      · rw [mem_singleton.mp hf]
        exact hcon _ _
      · exact absurd hf not_mem_nil

theorem flat_createLinearization (direction : Direction) :
    (createLinearization pool type p direction).Flat := by
  have hsep := flat_createSeparator pool type p
  cases direction with
  | both => exact pool.flat (by simpa using ⟨hsep false, hsep true⟩)
  | negative => exact hsep true
  | positive => exact hsep false

end Flat

end Smtrat.STrop
