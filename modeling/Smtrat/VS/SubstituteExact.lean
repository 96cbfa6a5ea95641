import Smtrat.VS.SubstituteInf
import Smtrat.VS.SumOfSquares

/-!
# Exactness of virtual substitution

The disjunction that is returned says of the other variables that the constraint holds at the term,
to the right of it, or towards infinity, wherever no case goes wrong.
-/

/-!
## Substituting a square root expression in a polynomial

The powers of `q + r * sqrt(d)` have the same form.  The polynomial at the term is their sum with the
coefficients, brought to a common denominator that is an even power.
-/

namespace Smtrat.VS

open SparsePoly

universe u

variable {V : Type u}

def polyPow (p : Poly V ℚ) : Nat → Poly V ℚ
  | 0 => SparsePoly.Poly.const 1
  | n + 1 => Poly.mul (polyPow p n) p

@[simp] theorem eval_polyPow (α : V → ℝ) (p : Poly V ℚ) (n : Nat) :
    Poly.eval α (polyPow p n) = Poly.eval α p ^ n := by
  induction n with
  | zero => simp [polyPow]
  | succ n ih => rw [polyPow, Poly.eval_mul, ih, pow_succ]

/-- The power `(q + r * sqrt(d))^n`, as its rational part and the factor of the root. -/
def sqrtPow (t : SqrtEx V) : Nat → Poly V ℚ × Poly V ℚ
  | 0 => (SparsePoly.Poly.const 1, [])
  | n + 1 =>
    let (q, r) := sqrtPow t n
    (Poly.add (Poly.mul q t.constantPart) (Poly.mul (Poly.mul r t.factor) t.radicand),
      Poly.add (Poly.mul q t.factor) (Poly.mul r t.constantPart))

theorem eval_sqrtPow {α : V → ℝ} {t : SqrtEx V} (hd : 0 ≤ Poly.eval α t.radicand) (n : Nat) :
    Poly.eval α (sqrtPow t n).1 + Poly.eval α (sqrtPow t n).2 * √(Poly.eval α t.radicand) =
      (Poly.eval α t.constantPart + Poly.eval α t.factor * √(Poly.eval α t.radicand)) ^ n := by
  have hsq : √(Poly.eval α t.radicand) * √(Poly.eval α t.radicand) = Poly.eval α t.radicand :=
    Real.mul_self_sqrt hd
  induction n with
  | zero => simp [sqrtPow]
  | succ n ih =>
    rw [pow_succ, ← ih, sqrtPow]
    simp only [Poly.eval_add, Poly.eval_mul]
    linear_combination -(Poly.eval α (sqrtPow t n).2 * Poly.eval α t.factor) * hsq

variable [DecidableEq V]

/-- The sum of the coefficients with a part of the powers. -/
def sumPowers (p : Poly V ℚ) (x : V) (s : Poly V ℚ) (part : Nat → Poly V ℚ) : Poly V ℚ :=
  (List.range (Poly.maxDegree x p + 1)).flatMap fun i =>
    Poly.mul (Poly.mul (Poly.coefficient x i p) (part i)) (polyPow s (2 * Poly.maxDegree x p - i))

theorem eval_sumPowers (α : V → ℝ) (p : Poly V ℚ) (x : V) (s : Poly V ℚ)
    (part : Nat → Poly V ℚ) : Poly.eval α (sumPowers p x s part) =
      ∑ i ∈ Finset.range (Poly.maxDegree x p + 1), Poly.eval α (Poly.coefficient x i p) *
        Poly.eval α (part i) * Poly.eval α s ^ (2 * Poly.maxDegree x p - i) := by
  rw [sumPowers]
  generalize 2 * Poly.maxDegree x p = m
  generalize Poly.maxDegree x p + 1 = n
  induction n with
  | zero => simp
  | succ n ih =>
    rw [List.range_succ, List.flatMap_append, Poly.eval_append, ih, Finset.sum_range_succ]
    simp

def subBySqrtEx (p : Poly V ℚ) (x : V) (t : SqrtEx V) : SqrtEx V where
  constantPart := sumPowers p x t.denominator fun i => (sqrtPow t i).1
  factor := sumPowers p x t.denominator fun i => (sqrtPow t i).2
  radicand := t.radicand
  denominator := polyPow t.denominator (2 * Poly.maxDegree x p)

section Correct

variable {p : Poly V ℚ} {x : V} {t : SqrtEx V} {α : V → ℝ} (ht : t.Defined α)

include ht

theorem subBySqrtEx_defined : (subBySqrtEx p x t).Defined α where
  radicand_nonneg := ht.radicand_nonneg
  denominator_ne_zero := by
    rw [subBySqrtEx, eval_polyPow]
    exact pow_ne_zero _ ht.denominator_ne_zero

theorem denominator_subBySqrtEx_pos : 0 < Poly.eval α (subBySqrtEx p x t).denominator := by
  rw [subBySqrtEx, eval_polyPow, pow_mul]
  have hs := ht.denominator_ne_zero
  positivity

theorem value_subBySqrtEx :
    (subBySqrtEx p x t).value α = Poly.eval (Function.update α x (t.value α)) p := by
  have hs := ht.denominator_ne_zero
  rw [← Poly.eval_univariate, Polynomial.eval_eq_sum_range'
    (Nat.lt_succ_of_le (Poly.natDegree_univariate_le x α p)), SqrtEx.value, subBySqrtEx]
  simp only [eval_sumPowers, eval_polyPow, Poly.coeff_univariate]
  rw [Finset.sum_mul, ← Finset.sum_add_distrib, Finset.sum_div]
  refine Finset.sum_congr rfl fun i hi => ?_
  have hle : i ≤ 2 * Poly.maxDegree x p := by
    have := Finset.mem_range.mp hi
    omega
  have hpow : Poly.eval α t.denominator ^ (2 * Poly.maxDegree x p) =
      Poly.eval α t.denominator ^ (2 * Poly.maxDegree x p - i) * Poly.eval α t.denominator ^ i :=
    (pow_sub_mul_pow _ hle).symm
  rw [SqrtEx.value, div_pow, ← eval_sqrtPow ht.radicand_nonneg i, hpow]
  field_simp

end Correct

end Smtrat.VS

namespace Smtrat.VS

open SparsePoly PolynomialSign Filter Topology List Function Option

universe u

variable {V : Type u} [DecidableEq V]

/-! ## Meaning of a substitution -/

/-- The terms are defined. -/
def SideConditions (α : V → ℝ) : SubstitutionType V → Prop
  | .normal term | .plusEpsilon term => term.Defined α
  | .minusInfinity | .plusInfinity => True

/-- The constraint holds at the term, for all slightly greater values, or for all values that are
small or large enough. -/
def Meets (α : V → ℝ) (cons : ConstraintT V) (x : V) : SubstitutionType V → Prop
  | .normal term => cons.Sat (update α x (term.value α))
  | .plusEpsilon term => ∃ ε > 0, ∀ r, term.value α < r → r < term.value α + ε →
      cons.Sat (update α x r)
  | .minusInfinity => ∃ m, ∀ r ≤ m, cons.Sat (update α x r)
  | .plusInfinity => ∃ m, ∀ r ≥ m, cons.Sat (update α x r)

def ConstraintT.isConstant : ConstraintT V → Bool
  | constant _ => true
  | proper c => VS.isConstant c.lhs

/-- No case of the substitution goes wrong. -/
def Exact (lib : PolynomialLibrary V) (α : V → ℝ) (cons : ConstraintT V) (subs : Substitution V)
    (accordingPaper : Bool) : Prop :=
  match subs.type with
  | .normal term => Faithful lib α cons subs.var term accordingPaper
  | .plusEpsilon term => (cons.isConstant → ¬ cons.Sat α) ∧
      ∀ c, cons = .proper c → c.relation ≠ .eq → c.relation ≠ .neq →
        FaithfulDerivatives lib α c.lhs subs.var term (gradientRelation c.relation) accordingPaper
  | .minusInfinity => cons.isConstant → ¬ cons.Sat α
  | .plusInfinity => (cons.isConstant → ¬ cons.Sat α) ∧
      ∀ c, cons = .proper c → Poly.hasVariable subs.var c.lhs → c.relation ≠ .eq →
        c.relation ≠ .neq → (Poly.univariate subs.var α c.lhs).natDegree = 0 ∨
          (Poly.univariate subs.var α c.lhs).natDegree % 2 = 1

section Meets

variable {α : V → ℝ} {c : Constraint V} {x : V}

theorem sat_update_iff (r : ℝ) : (ConstraintT.proper c).Sat (update α x r) ↔
    c.relation.evaluate ((Poly.univariate x α c.lhs).eval r) 0 := by
  rw [Poly.eval_univariate]
  rfl

theorem meets_plusEpsilon {term : SqrtEx V} : Meets α (.proper c) x (.plusEpsilon term) ↔
    RightOf c.relation (Poly.univariate x α c.lhs) (term.value α) := by
  rw [Meets, RightOf, Along, Filter.Eventually, mem_nhdsGT_iff_exists_Ioo_subset]
  constructor
  · rintro ⟨ε, hε, h⟩
    refine ⟨term.value α + ε, lt_add_of_pos_right _ hε, fun r hr => ?_⟩
    exact (sat_update_iff r).mp (h r hr.1 hr.2)
  · rintro ⟨u, hu, h⟩
    refine ⟨u - term.value α, sub_pos.mpr hu, fun r hlt hr => (sat_update_iff r).mpr ?_⟩
    exact h ⟨hlt, by linarith⟩

theorem meets_minusInfinity : Meets α (.proper c) x .minusInfinity ↔
    Along atBot c.relation (Poly.univariate x α c.lhs) := by
  rw [Meets, Along, eventually_atBot]
  exact exists_congr fun m => forall_congr' fun r => imp_congr_right fun _ => sat_update_iff r

theorem meets_plusInfinity : Meets α (.proper c) x .plusInfinity ↔
    Along atTop c.relation (Poly.univariate x α c.lhs) := by
  rw [Meets, Along, eventually_atTop]
  exact exists_congr fun m => forall_congr' fun r => imp_congr_right fun _ => sat_update_iff r

/-- A constraint without variables holds everywhere or nowhere. -/
theorem sat_update_of_isConstant {cons : ConstraintT V} (h : cons.isConstant) (r : ℝ) :
    cons.Sat (update α x r) ↔ cons.Sat α := by
  cases cons with
  | constant b => rfl
  | proper c =>
    have hvars : Poly.variables c.lhs = [] := by simpa [ConstraintT.isConstant, isConstant] using h
    rw [ConstraintT.Sat, ConstraintT.Sat, Constraint.Sat, Constraint.Sat,
      Poly.eval_congr fun y hy => ?_]
    rw [hvars] at hy
    cases hy

theorem meets_of_isConstant {cons : ConstraintT V} (h : cons.isConstant)
    {type : SubstitutionType V} : Meets α cons x type ↔ cons.Sat α := by
  cases type with
  | normal term => exact sat_update_of_isConstant h _
  | plusEpsilon term =>
    simp only [Meets, sat_update_of_isConstant h]
    constructor
    · rintro ⟨ε, hε, hall⟩
      exact hall (term.value α + ε / 2) (by linarith) (by linarith)
    · exact fun hsat => ⟨1, one_pos, fun _ _ _ => hsat⟩
  | minusInfinity =>
    simp only [Meets, sat_update_of_isConstant h]
    exact ⟨fun ⟨m, hall⟩ => hall m le_rfl, fun hsat => ⟨0, fun _ _ => hsat⟩⟩
  | plusInfinity =>
    simp only [Meets, sat_update_of_isConstant h]
    exact ⟨fun ⟨m, hall⟩ => hall m le_rfl, fun hsat => ⟨0, fun _ _ => hsat⟩⟩

end Meets

/-! ## The substitution by its type -/

section ByType

variable (lib : PolynomialLibrary V) {α : V → ℝ} {cons : ConstraintT V} {subs : Substitution V}
  {accordingPaper : Bool}

/-- Without variables the result is empty, except for a term. -/
theorem substituteByType_of_isConstant (h : cons.isConstant)
    (htype : ∀ t, subs.type ≠ .normal t) :
    (substituteByType lib cons subs accordingPaper).2 = [] := by
  rw [substituteByType]
  cases hsubs : subs.type with
  | normal t => exact absurd hsubs (htype t)
  | _ =>
    cases cons with
    | constant b => rfl
    | proper c =>
      have hconst : isConstant c.lhs = true := h
      simp [substitutePlusEps, substituteInf, hconst]

omit lib in
theorem not_hasVariable_of_isConstant {p : Poly V ℚ} (h : isConstant p) (x : V) :
    ¬ Poly.hasVariable x p := by
  intro hvar
  obtain ⟨t, ht, hdeg⟩ := List.any_eq_true.mp hvar
  have hvars : Poly.variables p = [] := by simpa [isConstant] using h
  have hmonomial : t.monomial = [] := by
    rw [eq_nil_iff_forall_not_mem]
    intro e he
    have hmem : e.1 ∈ Poly.variables p := Poly.mem_variables.mpr ⟨t, ht, e.2, he⟩
    rw [hvars] at hmem
    cases hmem
  simp [hmonomial, monomialDegree] at hdeg

theorem exact_iff_of_isConstant (h : cons.isConstant) (htype : ∀ t, subs.type ≠ .normal t)
    (heps : ∀ t, subs.type ≠ .plusEpsilon t) :
    Exact lib α cons subs accordingPaper ↔ ¬ cons.Sat α := by
  rw [Exact]
  cases hsubs : subs.type with
  | normal t => exact absurd hsubs (htype t)
  | plusEpsilon t => exact absurd hsubs (heps t)
  | minusInfinity => exact ⟨fun hexact => hexact h, fun hsat _ => hsat⟩
  | plusInfinity =>
    refine ⟨fun hexact => hexact.1 h, fun hsat => ⟨fun _ => hsat, fun c hc hvar => ?_⟩⟩
    subst hc
    exact absurd hvar (not_hasVariable_of_isConstant h _)

/-- The substitution of an infinitesimal is exact if no case goes wrong. -/
theorem holds_substituteByType_plusEpsilon {term : SqrtEx V} (htype : subs.type = .plusEpsilon term)
    (h : (substituteByType lib cons subs accordingPaper).1 = true) (hterm : term.Defined α)
    (hexact : Exact lib α cons subs accordingPaper) :
    Holds α (substituteByType lib cons subs accordingPaper).2 ↔
      Meets α cons subs.var subs.type := by
  rw [Exact, htype] at hexact
  by_cases hconst : cons.isConstant
  · rw [substituteByType_of_isConstant lib hconst (by simp [htype]), meets_of_isConstant hconst]
    exact iff_of_false not_holds_nil (hexact.1 hconst)
  · cases cons with
    | constant b => exact absurd rfl hconst
    | proper c =>
      rw [substituteByType, htype] at h ⊢
      rw [meets_plusEpsilon]
      exact holds_substitutePlusEps lib hterm (Bool.eq_false_iff.mpr hconst) (hexact.2 c rfl) h

/-- The other substitutions are exact if and only if no case goes wrong. -/
theorem holds_substituteByType (heps : ∀ t, subs.type ≠ .plusEpsilon t)
    (h : (substituteByType lib cons subs accordingPaper).1 = true)
    (hside : SideConditions α subs.type) :
    (Holds α (substituteByType lib cons subs accordingPaper).2 ↔
        Meets α cons subs.var subs.type) ↔ Exact lib α cons subs accordingPaper := by
  by_cases hnorm : ∃ t, subs.type = .normal t
  · obtain ⟨t, htype⟩ := hnorm
    rw [Exact, htype]
    rw [htype] at hside
    rw [substituteByType, htype] at h ⊢
    exact substituteNormal_exact_iff lib hside h
  · have hnorm : ∀ t, subs.type ≠ .normal t := fun t ht => hnorm ⟨t, ht⟩
    by_cases hconst : cons.isConstant
    · rw [substituteByType_of_isConstant lib hconst hnorm, meets_of_isConstant hconst,
        exact_iff_of_isConstant lib hconst hnorm heps, iff_false_left not_holds_nil]
    · cases cons with
      | constant b => exact absurd rfl hconst
      | proper c =>
        have hlhs : isConstant c.lhs = false := Bool.eq_false_iff.mpr hconst
        rw [Exact, substituteByType]
        cases htype : subs.type with
        | normal t => exact absurd htype (hnorm t)
        | plusEpsilon t => exact absurd htype (heps t)
        | minusInfinity =>
          dsimp only
          rw [holds_substituteInf_minusInfinity lib hlhs, meets_minusInfinity]
          exact iff_of_true Iff.rfl fun hcons => absurd hcons hconst
        | plusInfinity =>
          dsimp only
          rw [meets_plusInfinity, holds_substituteInf_plusInfinity lib hlhs]
          constructor
          · rintro hdeg
            refine ⟨fun hcons => absurd hcons hconst, fun d hd => ?_⟩
            cases hd
            exact hdeg
          · exact fun hexact => hexact.2 c rfl

end ByType

/-! ## Exactness -/

section Example

omit [DecidableEq V] in
theorem eval_of_isConstant {p : Poly V ℚ} (h : isConstant p) (α : V → ℝ) :
    Poly.eval α p = ((p.map (·.coeff)).sum : ℚ) := by
  induction p with
  | nil => simp
  | cons t p ih =>
    have hvars : t.monomial = [] ∧ isConstant p := by
      simpa [isConstant, Poly.variables] using h
    rw [Poly.eval_cons, ih hvars.2, Term.eval, hvars.1, map_cons, sum_cons]
    simp

theorem evaluate_cast (r : Relation) (q : ℚ) : r.evaluate (q : ℝ) 0 ↔ r.evaluate q 0 := by
  cases r <;> simp [Relation.evaluate]

/-- Constant constraints are evaluated, and no decomposition into squares is found. -/
def plainLibrary : PolynomialLibrary Nat where
  constraint := fun p r =>
    if isConstant p then .constant (decide (r.evaluate (p.map (·.coeff)).sum 0)) else .proper ⟨p, r⟩
  sat_constraint := by
    intro p r α
    split_ifs with h
    · rw [eval_of_isConstant h, evaluate_cast]
      exact decide_eq_true_iff
    · rfl
  subBySqrtEx := subBySqrtEx
  subBySqrtEx_defined := fun _ _ _ _ ht => subBySqrtEx_defined ht
  subBySqrtEx_value := fun _ _ _ _ ht => value_subBySqrtEx ht
  denominator_pos := fun _ _ _ _ ht _ => denominator_subBySqrtEx_pos ht
  lcoeffNegative := fun p => p.head?.elim false fun t => t.coeff < 0
  sosDecomposition := fun _ => []
  sosDecomposition_pos := nofun
  sosDecomposition_eval := fun _ h => absurd rfl h

/-- `x0 - x1 <= 0`, where `x2` is substituted for `x0`. -/
private def orderConstraint : Constraint Nat := ⟨[⟨1, [(0, 1)]⟩, ⟨-1, [(1, 1)]⟩], .leq⟩

private def variableTerm : SqrtEx Nat := ⟨[⟨1, [(2, 1)]⟩], [], [], [⟨1, []⟩]⟩

/-- `x0 != 0`, where the root of `x1` is substituted for `x0`. -/
private def rootTerm : SqrtEx Nat := ⟨[], [⟨1, []⟩], [⟨1, [(1, 1)]⟩], [⟨1, []⟩]⟩

end Example

end Smtrat.VS

/-!
## The points of a substitution

A substitution stands for all points near enough to a value or to infinity.  Each of finitely many
constraints is met by the substitution exactly if it holds at one such point, which is the same for all
of them.
-/

namespace Smtrat.VS

open SparsePoly PolynomialSign Filter Topology

universe u

variable {V : Type u} {α : V → ℝ}

/-- The points near a substitution. -/
noncomputable def points (α : V → ℝ) : SubstitutionType V → Filter ℝ
  | .normal term => pure (term.value α)
  | .plusEpsilon term => 𝓝[>] (term.value α)
  | .minusInfinity => atBot
  | .plusInfinity => atTop

instance neBot_points (type : SubstitutionType V) : (points α type).NeBot := by
  cases type with
  | normal term => exact pure_neBot
  | plusEpsilon term => exact (decides_right _).neBot
  | minusInfinity => exact decides_atBot.neBot
  | plusInfinity => exact decides_atTop.neBot

/-- Right behind a value. -/
theorem eventually_right_iff {P : ℝ → Prop} {v : ℝ} :
    (∃ ε > 0, ∀ r, v < r → r < v + ε → P r) ↔ ∀ᶠ r in 𝓝[>] v, P r := by
  rw [Filter.Eventually, mem_nhdsGT_iff_exists_Ioo_subset]
  constructor
  · rintro ⟨ε, hε, h⟩
    exact ⟨v + ε, lt_add_of_pos_right v hε, fun r hr => h r hr.1 hr.2⟩
  · rintro ⟨u, hu, h⟩
    exact ⟨u - v, sub_pos.mpr hu, fun r hlt hr => h ⟨hlt, by linarith⟩⟩

theorem meets_iff_points [DecidableEq V] {cons : ConstraintT V} {x : V} {type : SubstitutionType V} :
    Meets α cons x type ↔ ∀ᶠ r in points α type, cons.Sat (Function.update α x r) := by
  cases type with
  | normal term => exact eventually_pure.symm
  | plusEpsilon term => exact eventually_right_iff
  | minusInfinity => exact eventually_atBot.symm
  | plusInfinity => exact eventually_atTop.symm

/-- Along the points the sign of a polynomial is decided. -/
theorem eventually_or_not (relation : Relation) (P : Polynomial ℝ) (type : SubstitutionType V) :
    (∀ᶠ r in points α type, relation.evaluate (P.eval r) 0) ∨
      ∀ᶠ r in points α type, ¬ relation.evaluate (P.eval r) 0 := by
  have hdec (l : Filter ℝ) (hl : Decides l) :
      (∀ᶠ r in l, relation.evaluate (P.eval r) 0) ∨ ∀ᶠ r in l, ¬ relation.evaluate (P.eval r) 0 := by
    have := hl.neBot
    rcases hl.cases P with rfl | hneg | hpos
    · simp only [Polynomial.eval_zero, eventually_const]
      exact em _
    · by_cases h : relation.evaluate (-1 : ℝ) 0
      · refine .inl (hneg.mono fun r hr => ?_)
        cases relation <;> simp [Relation.evaluate] at h ⊢ <;> linarith
      · refine .inr (hneg.mono fun r hr => ?_)
        cases relation <;> simp [Relation.evaluate] at h ⊢ <;> linarith
    · by_cases h : relation.evaluate (1 : ℝ) 0
      · refine .inl (hpos.mono fun r hr => ?_)
        cases relation <;> simp [Relation.evaluate] at h ⊢ <;> linarith
      · refine .inr (hpos.mono fun r hr => ?_)
        cases relation <;> simp [Relation.evaluate] at h ⊢ <;> linarith
  cases type with
  | normal term => exact (em _).imp eventually_pure.mpr eventually_pure.mpr
  | plusEpsilon term => exact hdec _ (decides_right _)
  | minusInfinity => exact hdec _ decides_atBot
  | plusInfinity => exact hdec _ decides_atTop

/-- One point represents a filter for finitely many properties that are decided along it. -/
theorem exists_representative {ι : Type*} {l : Filter ℝ} [l.NeBot] (is : List ι) {P : ι → ℝ → Prop}
    (h : ∀ i ∈ is, (∀ᶠ r in l, P i r) ∨ ∀ᶠ r in l, ¬ P i r) :
    ∃ r, ∀ i ∈ is, (P i r ↔ ∀ᶠ s in l, P i s) := by
  have hagree : ∀ᶠ r in l, ∀ i ∈ is, (P i r ↔ ∀ᶠ s in l, P i s) := by
    induction is with
    | nil => exact Eventually.of_forall fun r i hi => absurd hi List.not_mem_nil
    | cons i is ih =>
      have htail := ih fun j hj => h j (List.mem_cons_of_mem i hj)
      have hhead : ∀ᶠ r in l, (P i r ↔ ∀ᶠ s in l, P i s) := by
        rcases h i List.mem_cons_self with hall | hnone
        · exact hall.mono fun r hr => iff_of_true hr hall
        · refine hnone.mono fun r hr => iff_of_false hr fun hall => ?_
          obtain ⟨s, hs, hns⟩ := (hall.and hnone).exists
          exact hns hs
      filter_upwards [hhead, htail] with r hr hrest j hj
      rcases List.mem_cons.mp hj with rfl | hj
      · exact hr
      · exact hrest j hj
  exact hagree.exists

end Smtrat.VS
