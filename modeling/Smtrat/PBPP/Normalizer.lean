import Smtrat.LRA.RowSystem
import Smtrat.PBPP.MixedSignEncoder

/-!
# The normalization of pseudo-Boolean constraints

Every variable with a positive coefficient is replaced by a fresh one that stands for its complement, and
the equation that links the two is returned once.  Coefficients above the constant are cut down to it, and
the others are divided by their greatest common divisor, where the constant is rounded down.
-/

namespace Smtrat.PBPP

open PropFormula Combination List Function

universe u

/-- A Boolean variable of the input, or one that `carl::freshBooleanVariable` returned. -/
inductive Variable (V : Type u) where
  | original (x : V)
  | fresh (n : ℕ)
deriving DecidableEq

/-- The constraint has variables of the input only. -/
def ConstraintT.Original {V : Type u} (c : ConstraintT (Variable V)) : Prop :=
  ∀ x ∈ c.vars, ∃ y, x = .original y

/-- The cache of the normalizer, and how many variables the pool has created. -/
structure PseudoBoolNormalizer (V : Type u) where
  mVariablesCache : Variable V → Option (Variable V)
  created : ℕ

namespace PseudoBoolNormalizer

section Coefficients

variable {V : Type u}

/-- Some coefficient is larger than the constant. -/
def trimmable (c : ConstraintT V) : Bool :=
  c.lhs.terms.any fun t => |t.2| > c.constantPart && c.constantPart ≥ 1

/-- The loop of `PseudoBoolNormalizer::gcd`. -/
def gcdOfCoeffs : List ℚ → ℚ
  | [] => 0
  | coeff :: coeffs => (coeff :: coeffs).foldl (fun g a => LRA.gcd a g) coeff

/-- `PseudoBoolNormalizer::gcd` -/
def gcd (c : ConstraintT V) : ConstraintT V :=
  let coeffs := c.lhs.terms.map Prod.snd
  if coeffs.length = 0 then c
  else
    let gcd := gcdOfCoeffs coeffs
    if gcd = 1 then c
    else .create (((c.lhs.addConstant (-c.constantPart)).divide gcd).addConstant
      ⌊c.constantPart / gcd⌋) c.relation

end Coefficients

variable {V : Type u} [DecidableEq V] (pool : FormulaPool (Atom (Variable V)))

/-- `b1 = 1 - b2 iff b1 + b2 - 1 = 0` -/
def linkConstraint (b1 b2 : Variable V) : ConstraintT (Variable V) :=
  .create ((((LinearPolynomial.const 0).addTerm 1 b1).addTerm 1 b2).addConstant (-1)) .eq

/-- The variable that replaces `x`, with its equation if it is new. -/
def substituted (n : PseudoBoolNormalizer V) (x : Variable V) :
    Variable V × List (FormulaT (Variable V)) × PseudoBoolNormalizer V :=
  match n.mVariablesCache x with
  | some y => (y, [], n)
  | none =>
    (.fresh n.created, [.atom (.constraint (linkConstraint x (.fresh n.created)))],
      { mVariablesCache := update n.mVariablesCache x (some (.fresh n.created))
        created := n.created + 1 })

/-- The loop of `removePositiveCoeff` over the terms with variables. -/
def removeFrom : List (Variable V × ℚ) → LinearPolynomial (Variable V) → PseudoBoolNormalizer V →
    LinearPolynomial (Variable V) × List (FormulaT (Variable V)) × PseudoBoolNormalizer V
  | [], result, n => (result, [], n)
  | t :: ts, result, n =>
    if t.2 > 0 then
      let (y, link, n) := n.substituted t.1
      let (result, links, n) := removeFrom ts ((result.addTerm (-t.2) y).addConstant t.2) n
      (result, link ++ links, n)
    else removeFrom ts (result.addTerm t.2 t.1) n

def removePositiveCoeff (n : PseudoBoolNormalizer V) (c : ConstraintT (Variable V)) :
    (FormulaT (Variable V) × ConstraintT (Variable V)) × PseudoBoolNormalizer V :=
  let (result, additionalBoolPart, n) := removeFrom c.lhs.terms (.const c.constantPart) n
  ((pool.create .and additionalBoolPart, .create result c.relation), n)

/-- `PseudoBoolNormalizer::normalize`.  Its assertion on the relation, which fails for `<` since it is
about the input, is left out. -/
def normalize (n : PseudoBoolNormalizer V) (c : ConstraintT (Variable V)) :
    (Option (FormulaT (Variable V)) × ConstraintT (Variable V)) × PseudoBoolNormalizer V :=
  let hasPositiveCoeff := c.lhs.terms.any fun t => t.2 > 0
  let normalizedConstraint := if c.relation = .less then normalizeLessConstraint c else c
  let ((booleanPart, normalizedConstraint), n) :=
    if hasPositiveCoeff then
      let r := removePositiveCoeff pool n normalizedConstraint
      ((some r.1.1, r.1.2), r.2)
    else ((none, normalizedConstraint), n)
  let normalizedConstraint :=
    if trimmable normalizedConstraint then trim normalizedConstraint else normalizedConstraint
  ((booleanPart, gcd normalizedConstraint), n)

/-- The states of a normalizer, with the formulas its calls have returned.  The pool also creates variables
for others. -/
inductive Reachable : PseudoBoolNormalizer V → List (FormulaT (Variable V)) → Prop
  | init (created : ℕ) : Reachable ⟨fun _ => none, created⟩ []
  | freshBooleanVariable {n : PseudoBoolNormalizer V} {links : List (FormulaT (Variable V))}
      (h : Reachable n links) : Reachable { n with created := n.created + 1 } links
  | normalize {n : PseudoBoolNormalizer V} {links : List (FormulaT (Variable V))} (h : Reachable n links)
      (c : ConstraintT (Variable V)) (hc : c.Original) :
      Reachable (n.normalize pool c).2 (links ++ (n.normalize pool c).1.1.toList)

/-! ## Greatest common divisors -/

variable {g : ℚ}

section Divisors

theorem gcd_comm (a b : ℚ) : LRA.gcd a b = LRA.gcd b a := by
  rw [LRA.gcd, LRA.gcd, Nat.gcd_comm, Nat.lcm_comm]

theorem gcd_nonneg (a b : ℚ) : 0 ≤ LRA.gcd a b := div_nonneg (Nat.cast_nonneg _) (Nat.cast_nonneg _)

theorem gcd_ne_zero_right (a : ℚ) {b : ℚ} (hb : b ≠ 0) : LRA.gcd a b ≠ 0 := by
  apply div_ne_zero
  · rw [Nat.cast_ne_zero]
    exact (Nat.gcd_pos_of_pos_right _ (Int.natAbs_pos.mpr (Rat.num_ne_zero.mpr hb))).ne'
  · rw [Nat.cast_ne_zero]
    exact (Nat.lcm_pos a.pos b.pos).ne'

/-- The greatest common divisor of rational numbers divides them. -/
theorem exists_eq_mul_gcd_right (a : ℚ) {b : ℚ} (hb : b ≠ 0) : ∃ z : ℤ, b = z * LRA.gcd a b := by
  obtain ⟨m, hm⟩ : ((a.num.natAbs.gcd b.num.natAbs : ℕ) : ℤ) ∣ b.num :=
    Int.natCast_dvd.mpr (Nat.gcd_dvd_right _ _)
  obtain ⟨k, hk⟩ := Nat.dvd_lcm_right a.den b.den
  have hgcd : ((a.num.natAbs.gcd b.num.natAbs : ℕ) : ℚ) ≠ 0 := by
    rw [Nat.cast_ne_zero]
    exact (Nat.gcd_pos_of_pos_right _ (Int.natAbs_pos.mpr (Rat.num_ne_zero.mpr hb))).ne'
  have hlcm : ((a.den.lcm b.den : ℕ) : ℚ) ≠ 0 := Nat.cast_ne_zero.mpr (Nat.lcm_pos a.pos b.pos).ne'
  have hden : (b.den : ℚ) ≠ 0 := Nat.cast_ne_zero.mpr b.den_nz
  refine ⟨m * k, ?_⟩
  have hnum : (b.num : ℚ) = (a.num.natAbs.gcd b.num.natAbs : ℕ) * m := by exact_mod_cast hm
  have hmul : ((a.den.lcm b.den : ℕ) : ℚ) = b.den * k := by exact_mod_cast hk
  rw [LRA.gcd, ← mul_div_assoc, eq_div_iff hlcm]
  push_cast
  calc b * ((a.den.lcm b.den : ℕ) : ℚ) = (b * b.den) * k := by rw [hmul, mul_assoc]
    _ = m * k * (a.num.natAbs.gcd b.num.natAbs : ℕ) := by
      rw [Rat.mul_den_eq_num, hnum]
      ring

variable {as : List ℚ}

/-- A number that divides the result of the loop divides all coefficients. -/
theorem exists_eq_mul_foldl_gcd (hg : g ≠ 0) (has : ∀ a ∈ as, a ≠ 0) :
    (∃ z : ℤ, g = z * as.foldl (fun g a => LRA.gcd a g) g) ∧
      ∀ a ∈ as, ∃ z : ℤ, a = z * as.foldl (fun g a => LRA.gcd a g) g := by
  induction as generalizing g with
  | nil => exact ⟨⟨1, by simp⟩, fun a ha => nomatch ha⟩
  | cons b as ih =>
    rw [foldl_cons]
    have hb := has b mem_cons_self
    obtain ⟨⟨z, hz⟩, hall⟩ := ih (gcd_ne_zero_right b hg) fun a ha => has a (mem_cons_of_mem b ha)
    obtain ⟨y, hy⟩ := exists_eq_mul_gcd_right b hg
    obtain ⟨x, hx⟩ := exists_eq_mul_gcd_right g hb
    rw [gcd_comm] at hx
    have hmul : ∀ w : ℤ, (w : ℚ) * LRA.gcd b g =
        ((w * z : ℤ) : ℚ) * as.foldl (fun g a => LRA.gcd a g) (LRA.gcd b g) := by
      intro w
      rw [Int.cast_mul, mul_assoc, ← hz]
    refine ⟨⟨y * z, hy.trans (hmul y)⟩, fun a ha => ?_⟩
    rcases mem_cons.mp ha with rfl | ha
    · exact ⟨x * z, hx.trans (hmul x)⟩
    · exact hall a ha

theorem foldl_gcd_ne_zero (hg : g ≠ 0) (as : List ℚ) : as.foldl (fun g a => LRA.gcd a g) g ≠ 0 := by
  induction as generalizing g with
  | nil => exact hg
  | cons b as ih => exact ih (gcd_ne_zero_right b hg)

theorem foldl_gcd_nonneg (hg : 0 ≤ g) (as : List ℚ) : 0 ≤ as.foldl (fun g a => LRA.gcd a g) g := by
  induction as generalizing g with
  | nil => exact hg
  | cons b as ih => exact ih (gcd_nonneg b g)

theorem gcdOfCoeffs_pos (has : ∀ a ∈ as, a ≠ 0) (hne : as ≠ []) : 0 < gcdOfCoeffs as := by
  cases as with
  | nil => exact absurd rfl hne
  | cons a as =>
    rw [gcdOfCoeffs]
    refine lt_of_le_of_ne ?_ (foldl_gcd_ne_zero (has a mem_cons_self) _).symm
    rw [foldl_cons]
    exact foldl_gcd_nonneg (gcd_nonneg a a) as

theorem exists_eq_mul_gcdOfCoeffs (has : ∀ a ∈ as, a ≠ 0) :
    ∀ a ∈ as, ∃ z : ℤ, a = z * gcdOfCoeffs as := by
  cases as with
  | nil => exact fun a ha => nomatch ha
  | cons a as => exact (exists_eq_mul_foldl_gcd (has a mem_cons_self) has).2

/-- The greatest common divisor of integer coefficients. -/
def integerGcd (as : List ℚ) : ℕ := as.foldr (fun a g => a.num.natAbs.gcd g) 0

theorem dvd_integerGcd {d : ℕ} : d ∣ integerGcd as ↔ ∀ a ∈ as, d ∣ a.num.natAbs := by
  induction as with
  | nil => simp [integerGcd]
  | cons a as ih =>
    rw [forall_mem_cons, ← ih]
    exact Nat.dvd_gcd_iff

theorem gcd_natCast {a : ℚ} (ha : ∃ z : ℤ, a = z) (k : ℕ) :
    LRA.gcd a (k : ℚ) = (a.num.natAbs.gcd k : ℕ) := by
  obtain ⟨z, rfl⟩ := ha
  simp [LRA.gcd]

theorem foldl_gcd_natCast (k : ℕ) (has : ∀ a ∈ as, ∃ z : ℤ, a = z) :
    as.foldl (fun g a => LRA.gcd a g) (k : ℚ) = (k.gcd (integerGcd as) : ℕ) := by
  induction as generalizing k with
  | nil => simp [integerGcd]
  | cons a as ih =>
    rw [foldl_cons, gcd_natCast (has a mem_cons_self),
      ih _ fun b hb => has b (mem_cons_of_mem a hb), Nat.gcd_comm a.num.natAbs, Nat.gcd_assoc]
    rfl

theorem gcdOfCoeffs_eq (has : ∀ a ∈ as, ∃ z : ℤ, a = z) : gcdOfCoeffs as = (integerGcd as : ℕ) := by
  cases as with
  | nil => rfl
  | cons a as =>
    have hself : LRA.gcd a a = (a.num.natAbs : ℕ) := by
      obtain ⟨z, rfl⟩ := has a mem_cons_self
      simp [LRA.gcd]
    rw [gcdOfCoeffs, foldl_cons, hself,
      foldl_gcd_natCast _ fun b hb => has b (mem_cons_of_mem a hb)]
    rfl

/-- The greatest common divisor depends on which numbers occur up to the sign. -/
theorem integerGcd_congr {bs : List ℚ} (h : (as.map fun a => |a|).Perm (bs.map fun b => |b|)) :
    integerGcd as = integerGcd bs := by
  have habs : ∀ a : ℚ, |a|.num.natAbs = a.num.natAbs := by
    intro a
    rcases abs_choice a with ha | ha
    · rw [ha]
    · rw [ha, Rat.neg_num, Int.natAbs_neg]
  have hdvd : ∀ {cs : List ℚ} {d : ℕ}, d ∣ integerGcd cs ↔
      ∀ x ∈ cs.map fun a => |a|, d ∣ x.num.natAbs := by
    intro cs d
    rw [dvd_integerGcd, forall_mem_map]
    simp only [habs]
  apply Nat.dvd_antisymm
  · exact hdvd.mpr fun x hx => hdvd.mp dvd_rfl x (h.mem_iff.mpr hx)
  · exact hdvd.mpr fun x hx => hdvd.mp dvd_rfl x (h.mem_iff.mp hx)

end Divisors

/-! ## Links -/

section Links

variable {V : Type u} [DecidableEq V] {n : PseudoBoolNormalizer V} {σ : Variable V → Bool}

theorem value_addTerm (σ : Variable V → Bool) (k : ℚ) (x : Variable V) (p : LinearPolynomial (Variable V)) :
    value σ (p.addTerm k x) = value σ p + bif σ x then k else 0 := by
  by_cases hk : k = 0
  · have hterms : (p.addTerm k x).terms = p.terms := if_pos hk
    rw [value, value, hterms, hk]
    cases σ x <;> simp [LinearPolynomial.addTerm]
  · have hterms : (p.addTerm k x).terms = addToEntry (fun _ _ => true) x k p.terms := if_neg hk
    rw [value, value, hterms, selected_eq_eval, eval_addToEntry, ← selected_eq_eval]
    cases σ x <;> simp [LinearPolynomial.addTerm, add_right_comm]

omit [DecidableEq V] in
theorem value_const (σ : Variable V → Bool) (c : ℚ) : value σ (.const c) = c := zero_add c

/-- The link says that the variables are complementary. -/
theorem sat_linkConstraint (x y : Variable V) : (linkConstraint x y).Sat σ ↔ σ y = !σ x := by
  rw [linkConstraint, sat_create, Relation.evaluate, value_addConstant, value_addTerm, value_addTerm,
    value_const]
  cases σ x <;> cases σ y <;> simp

/-- The fresh variables are the complements of those they replace. -/
def Complements (n : PseudoBoolNormalizer V) (σ : Variable V → Bool) : Prop :=
  ∀ x y, n.mVariablesCache x = some y → σ y = !σ x

/-- Variables of the input are replaced by different variables that were created. -/
structure CacheInv (n : PseudoBoolNormalizer V) : Prop where
  original : ∀ x y, n.mVariablesCache x = some y → ∃ z, x = .original z
  created : ∀ x y, n.mVariablesCache x = some y → ∃ k < n.created, y = .fresh k
  injective : ∀ x x' y, n.mVariablesCache x = some y → n.mVariablesCache x' = some y → x = x'

/-- What the replacement of a variable by `y` does to the normalizer. -/
structure Replaces (n : PseudoBoolNormalizer V) (x y : Variable V) (links : List (FormulaT (Variable V)))
    (n' : PseudoBoolNormalizer V) : Prop where
  inv : n'.CacheInv
  cached : n'.mVariablesCache x = some y
  others : ∀ x', x' ≠ x → n'.mVariablesCache x' = n.mVariablesCache x'
  created_le : n.created ≤ n'.created
  known_or_new : n.mVariablesCache x = some y ∨ y = .fresh n.created
  complements : ∀ σ, (∀ f ∈ links, Satisfies σ f) ∧ n.Complements σ ↔ n'.Complements σ

variable {x : Variable V}

/-- The normalizer after a replacement has one more entry, unless it was there. -/
theorem substituted_spec (h : n.CacheInv) (hx : ∃ z, x = .original z) :
    Replaces n x (n.substituted x).1 (n.substituted x).2.1 (n.substituted x).2.2 := by
  rw [substituted]
  cases hcache : n.mVariablesCache x with
  | some y => exact ⟨h, hcache, fun _ _ => rfl, le_rfl, .inl hcache, fun σ => by simp⟩
  | none =>
    have hself : ∀ {x' y}, update n.mVariablesCache x (some (.fresh n.created)) x' = some y →
        x' = x ∧ y = .fresh n.created ∨ x' ≠ x ∧ n.mVariablesCache x' = some y := by
      intro x' y hy
      by_cases heq : x' = x
      · rw [heq, update_self] at hy
        exact .inl ⟨heq, (Option.some.inj hy).symm⟩
      · rw [update_of_ne heq] at hy
        exact .inr ⟨heq, hy⟩
    refine ⟨⟨?_, ?_, ?_⟩, update_self _ _ _, fun x' hne => update_of_ne hne _ _,
      Nat.le_succ _, .inr rfl, ?_⟩
    · intro x' y hy
      rcases hself hy with ⟨rfl, -⟩ | ⟨-, hy⟩
      · exact hx
      · exact h.original x' y hy
    · intro x' y hy
      rcases hself hy with ⟨-, rfl⟩ | ⟨-, hy⟩
      · exact ⟨_, Nat.lt_succ_self _, rfl⟩
      · obtain ⟨k, hk, heq⟩ := h.created x' y hy
        exact ⟨k, Nat.lt_succ_of_lt hk, heq⟩
    · intro x₁ x₂ y h₁ h₂
      have hold : ∀ x', n.mVariablesCache x' ≠ some (.fresh n.created) := by
        intro x' hx'
        obtain ⟨k, hk, heq⟩ := h.created x' _ hx'
        exact absurd (Variable.fresh.inj heq) hk.ne'
      rcases hself h₁ with ⟨rfl, rfl⟩ | ⟨-, h₁⟩
      · rcases hself h₂ with ⟨rfl, -⟩ | ⟨-, h₂⟩
        · rfl
        · exact absurd h₂ (hold _)
      · rcases hself h₂ with ⟨-, rfl⟩ | ⟨-, h₂⟩
        · exact absurd h₁ (hold _)
        · exact h.injective x₁ x₂ y h₁ h₂
    · intro σ
      simp only [mem_singleton, forall_eq, satisfies_constraint, sat_linkConstraint]
      constructor
      · rintro ⟨hlink, hcomp⟩ x' y hy
        rcases hself hy with ⟨rfl, rfl⟩ | ⟨-, hy⟩
        · exact hlink
        · exact hcomp x' y hy
      · intro hcomp
        refine ⟨hcomp x _ (update_self _ _ _), fun x' y hy => hcomp x' y ?_⟩
        refine (update_of_ne ?_ _ _).trans hy
        rintro rfl
        exact Option.some_ne_none y (hy.symm.trans hcache)

/-- A variable that does not occur among the terms to come and does not replace one of them. -/
def Settled (n : PseudoBoolNormalizer V) (ts : List (Variable V × ℚ)) (x : Variable V) : Prop :=
  (∀ t ∈ ts, x ≠ t.1 ∧ n.mVariablesCache t.1 ≠ some x) ∧ ∀ k, x = .fresh k → k < n.created

/-- What the loop makes of the terms `ts` when it has arrived at `result`. -/
structure Removes (n : PseudoBoolNormalizer V) (ts : List (Variable V × ℚ))
    (result : LinearPolynomial (Variable V))
    (r : LinearPolynomial (Variable V) × List (FormulaT (Variable V)) × PseudoBoolNormalizer V) : Prop where
  inv : r.2.2.CacheInv
  complements : ∀ σ, (∀ f ∈ r.2.1, Satisfies σ f) ∧ n.Complements σ ↔ r.2.2.Complements σ
  value : ∀ σ, r.2.2.Complements σ → value σ r.1 = value σ result + selected σ ts
  coeffs : (r.1.terms.map Prod.snd).Perm (ts.map (fun t => -|t.2|) ++ result.terms.map Prod.snd)
  constantPart : r.1.constantPart = result.constantPart + total (ts.filter fun t => t.2 > 0)

theorem mem_vars_addTerm {k : ℚ} (hk : k ≠ 0) {p : LinearPolynomial (Variable V)}
    (hx : x ∉ p.vars) {y : Variable V} : y ∈ (p.addTerm k x).vars ↔ y = x ∨ y ∈ p.vars := by
  rw [LinearPolynomial.vars, ((LinearPolynomial.addTerm_perm hk hx).map Prod.fst).mem_iff, map_cons,
    mem_cons, LinearPolynomial.vars]

theorem coeffs_addTerm {k : ℚ} (hk : k ≠ 0) {p : LinearPolynomial (Variable V)}
    (hx : x ∉ p.vars) (as : List ℚ) :
    (as ++ (p.addTerm k x).terms.map Prod.snd).Perm (k :: as ++ p.terms.map Prod.snd) :=
  (((LinearPolynomial.addTerm_perm hk hx).map Prod.snd).append_left as).trans perm_middle

theorem removeFrom_spec {ts : List (Variable V × ℚ)} {result : LinearPolynomial (Variable V)}
    (h : n.CacheInv) (hne : ∀ t ∈ ts, t.2 ≠ 0) (horig : ∀ t ∈ ts, ∃ z, t.1 = .original z)
    (hnodup : (ts.map Prod.fst).Nodup) (hsettled : ∀ x ∈ result.vars, n.Settled ts x) :
    Removes n ts result (removeFrom ts result n) := by
  induction ts generalizing result n with
  | nil => exact ⟨h, fun σ => by simp [removeFrom], fun σ _ => by simp [removeFrom], by simp [removeFrom],
      by simp [removeFrom]⟩
  | cons t ts ih =>
    obtain ⟨x, a⟩ := t
    obtain ⟨hx, hnodup⟩ := nodup_cons.mp hnodup
    have ha : a ≠ 0 := hne (x, a) mem_cons_self
    obtain ⟨z, hz⟩ : ∃ z, x = .original z := horig (x, a) mem_cons_self
    have hne' : ∀ t ∈ ts, t.2 ≠ 0 := fun t ht => hne t (mem_cons_of_mem _ ht)
    have horig' : ∀ t ∈ ts, ∃ z, t.1 = .original z :=
      fun t ht => horig t (mem_cons_of_mem _ ht)
    have hxts : ∀ t ∈ ts, t.1 ≠ x := by
      rintro t ht rfl
      exact hx (mem_map.mpr ⟨t, ht, rfl⟩)
    rw [removeFrom]
    by_cases hpos : a > 0
    · -- the variable is replaced by its complement
      have hspec := substituted_spec h ⟨z, hz⟩
      generalize n.substituted x = s at hspec
      obtain ⟨y, link, n₁⟩ := s
      simp only at hspec
      obtain ⟨k, hk, hy⟩ := hspec.inv.created x y hspec.cached
      have hyresult : y ∉ result.vars := by
        intro hmem
        have hset := hsettled y hmem
        rcases hspec.known_or_new with hcache | hnew
        · exact (hset.1 (x, a) mem_cons_self).2 hcache
        · exact absurd (hset.2 _ hnew) (lt_irrefl _)
      have hsettled' : ∀ v ∈ ((result.addTerm (-a) y).addConstant a).vars, n₁.Settled ts v := by
        intro v hv
        rcases (mem_vars_addTerm (neg_ne_zero.mpr ha) hyresult).mp hv with rfl | hv
        · refine ⟨fun t ht => ⟨?_, fun hcache => ?_⟩, fun k' hk' => ?_⟩
          · obtain ⟨z', hz'⟩ := horig' t ht
            rw [hy, hz']
            exact fun heq => nomatch heq
          · exact hxts t ht (hspec.inv.injective _ _ _ hcache hspec.cached)
          · exact Variable.fresh.inj (hy.symm.trans hk') ▸ hk
        · have hset := hsettled v hv
          refine ⟨fun t ht => ?_, fun k' hk' => (hset.2 k' hk').trans_le hspec.created_le⟩
          rw [hspec.others t.1 (hxts t ht)]
          exact hset.1 t (mem_cons_of_mem _ ht)
      have hrec := ih hspec.inv hne' horig' hnodup hsettled'
      simp only [if_pos hpos]
      generalize removeFrom ts ((result.addTerm (-a) y).addConstant a) n₁ = r at hrec
      obtain ⟨result', links, n'⟩ := r
      have hcomp := hrec.complements
      constructor
      case inv => exact hrec.inv
      case complements =>
        intro σ
        rw [← hcomp σ, ← hspec.complements σ]
        simp only [mem_append, or_imp, forall_and]
        tauto
      case value =>
        intro σ hσ
        have hyx := ((hcomp σ).mpr hσ).2 x y hspec.cached
        have hval := hrec.value σ hσ
        rw [hval, value_addConstant, value_addTerm, selected_cons, hyx]
        cases σ x <;> simp [add_assoc]
      case coeffs =>
        rw [map_cons, abs_of_pos hpos]
        exact hrec.coeffs.trans (coeffs_addTerm (neg_ne_zero.mpr ha) hyresult _)
      case constantPart =>
        rw [hrec.constantPart, filter_cons_of_pos (by simpa using hpos), total_cons, ← add_assoc]
        rfl
    · have hneg : a < 0 := lt_of_le_of_ne (not_lt.mp hpos) ha
      have hxresult : x ∉ result.vars := fun hmem =>
        ((hsettled x hmem).1 (x, a) mem_cons_self).1 rfl
      have hsettled' : ∀ v ∈ (result.addTerm a x).vars, n.Settled ts v := by
        intro v hv
        rcases (mem_vars_addTerm ha hxresult).mp hv with rfl | hv
        · refine ⟨fun t ht => ⟨(hxts t ht).symm, fun hcache => ?_⟩, fun k hk => ?_⟩
          · obtain ⟨k, -, hk⟩ := h.created _ _ hcache
            exact nomatch hz.symm.trans hk
          · exact nomatch hz.symm.trans hk
        · have hset := hsettled v hv
          exact ⟨fun t ht => hset.1 t (mem_cons_of_mem _ ht), hset.2⟩
      have hrec := ih h hne' horig' hnodup hsettled'
      simp only [if_neg hpos]
      constructor
      case inv => exact hrec.inv
      case complements => exact hrec.complements
      case value =>
        intro σ hσ
        rw [hrec.value σ hσ, value_addTerm, selected_cons, add_assoc]
      case coeffs =>
        rw [map_cons, abs_of_neg hneg, neg_neg]
        exact hrec.coeffs.trans (coeffs_addTerm ha hxresult _)
      case constantPart =>
        rw [hrec.constantPart, filter_cons_of_neg (by simpa using not_lt.mp hpos)]
        rfl

end Links

/-! ## Trimming and division -/

section Division

variable {V : Type u} {c : ConstraintT V} {σ : V → Bool}

theorem neg_neg_polynomial (p : LinearPolynomial V) : p.neg.neg = p := by
  have hterms : scale (-1) (scale (-1) p.terms) = p.terms := by
    rw [scale, scale, map_map]
    refine (map_congr_left fun t _ => ?_).trans (map_id _)
    simp
  cases p
  simpa [LinearPolynomial.neg] using hterms

/-- Trimming keeps the solutions of an inequality whose coefficients are negative. -/
theorem sat_trim (hneg : ∀ t ∈ c.lhs.terms, t.2 < 0) (σ : V → Bool) :
    (trim c).Sat σ ↔ value σ c.lhs ≤ 0 := by
  have hpos : ∀ t ∈ c.lhs.neg.terms, 0 < t.2 := scale_pos_of_neg hneg
  have htrim : trim c = trim (.create c.lhs.neg .geq) := by
    have hlhs : (ConstraintT.create c.lhs.neg .geq).lhs = c.lhs := neg_neg_polynomial c.lhs
    rw [trim, trim]
    simp only [ConstraintT.constantPart, hlhs]
  rw [htrim, MixedSignEncoder.sat_trim_geq hpos, LinearPolynomial.neg, selected_scale, value]
  constructor <;> intro h <;> linarith

/-- The divisor divides every sum of terms. -/
theorem exists_selected_eq_mul (hne : c.lhs.terms ≠ []) (σ : V → Bool) :
    ∃ z : ℤ, selected σ c.lhs.terms = z * gcdOfCoeffs (c.lhs.terms.map Prod.snd) := by
  have hcoeffs : ∀ a ∈ c.lhs.terms.map Prod.snd, a ≠ 0 := forall_mem_map.mpr c.lhs.coeff_ne_zero
  have hpos := gcdOfCoeffs_pos hcoeffs (by simpa using hne)
  have hint : ∀ e ∈ scale (gcdOfCoeffs (c.lhs.terms.map Prod.snd))⁻¹ c.lhs.terms, ∃ z : ℤ, e.2 = z := by
    intro e he
    obtain ⟨t, ht, rfl⟩ := mem_map.mp he
    obtain ⟨z, hz⟩ := exists_eq_mul_gcdOfCoeffs hcoeffs t.2 (mem_map_of_mem ht)
    exact ⟨z, by rw [mul_comm, ← div_eq_mul_inv, div_eq_iff hpos.ne', ← hz]⟩
  obtain ⟨z, hz⟩ := exists_selected_eq_intCast σ hint
  rw [selected_scale] at hz
  exact ⟨z, by rw [← hz, mul_comm, mul_inv_cancel_left₀ hpos.ne']⟩

/-- The division rounds the value of the left-hand side down. -/
theorem sat_gcd (hrel : c.relation = .leq ∨ c.relation = .eq) (σ : V → Bool) :
    (gcd c).Sat σ ↔
      if c.lhs.terms = [] ∨ gcdOfCoeffs (c.lhs.terms.map Prod.snd) = 1 then c.Sat σ
      else c.relation.evaluate ⌊value σ c.lhs / gcdOfCoeffs (c.lhs.terms.map Prod.snd)⌋ 0 := by
  rw [gcd]
  simp only [length_map, length_eq_zero_iff]
  by_cases hnil : c.lhs.terms = []
  · rw [if_pos hnil, if_pos (.inl hnil)]
  by_cases hone : gcdOfCoeffs (c.lhs.terms.map Prod.snd) = 1
  · rw [if_neg hnil, if_pos hone, if_pos (.inr hone)]
  rw [if_neg hnil, if_neg hone, if_neg (not_or.mpr ⟨hnil, hone⟩), sat_create, value_addConstant]
  obtain ⟨z, hz⟩ := exists_selected_eq_mul hnil σ
  have hpos : 0 < gcdOfCoeffs (c.lhs.terms.map Prod.snd) := gcdOfCoeffs_pos
    (forall_mem_map.mpr c.lhs.coeff_ne_zero) (by simpa using hnil)
  generalize gcdOfCoeffs (c.lhs.terms.map Prod.snd) = g at hz hpos
  have hdivided : value σ ((c.lhs.addConstant (-c.constantPart)).divide g) = z := by
    rw [value, LinearPolynomial.divide]
    simp only [if_neg hpos.ne', LinearPolynomial.addConstant]
    rw [selected_scale, hz, mul_comm, mul_inv_cancel_right₀ hpos.ne', ConstraintT.constantPart,
      add_neg_cancel, zero_div, add_zero]
  have hval : value σ c.lhs / g = z + c.constantPart / g := by
    rw [value, hz, add_div, mul_div_cancel_right₀ _ hpos.ne', ConstraintT.constantPart]
  rw [hdivided, hval, Int.floor_intCast_add]
  rcases hrel with hrel | hrel <;> rw [hrel] <;> simp only [Relation.evaluate] <;> norm_cast

theorem floor_div_nonpos_iff {v : ℚ} (hg : 0 < g) : ⌊v / g⌋ ≤ 0 ↔ v < g := by
  rw [← Int.lt_add_one_iff, Int.floor_lt, zero_add, Int.cast_one, div_lt_one hg]

theorem floor_div_eq_zero_iff {v : ℚ} (hg : 0 < g) : ⌊v / g⌋ = 0 ↔ 0 ≤ v ∧ v < g := by
  rw [Int.floor_eq_iff, Int.cast_zero, zero_add, div_lt_one hg, le_div_iff₀ hg, zero_mul]

/-- A trimmed constraint is divided without rounding, since one of its coefficients is the constant. -/
theorem sat_gcd_trim (hneg : ∀ t ∈ c.lhs.terms, t.2 < 0) (htrim : trimmable c = true) (σ : V → Bool) :
    (gcd (trim c)).Sat σ ↔ value σ c.lhs ≤ 0 := by
  obtain ⟨t, ht, hlarge⟩ := any_eq_true.mp htrim
  simp only [gt_iff_lt, ge_iff_le, Bool.and_eq_true, decide_eq_true_eq] at hlarge
  rw [← sat_trim hneg, sat_gcd (.inl rfl)]
  split_ifs with hsame
  · rfl
  rw [not_or] at hsame
  have hcoeffs : ∀ a ∈ (trim c).lhs.terms.map Prod.snd, a ≠ 0 :=
    forall_mem_map.mpr (trim c).lhs.coeff_ne_zero
  have hpos := gcdOfCoeffs_pos hcoeffs (by simpa using hsame.1)
  have hmem : -c.constantPart ∈ (trim c).lhs.terms.map Prod.snd := by
    have hterm : trimTerm c.constantPart t = (t.1, -c.constantPart) :=
      if_pos ⟨hlarge.2, hneg t ht, hlarge.1⟩
    exact mem_map.mpr ⟨_, mem_map_of_mem ht, congrArg Prod.snd hterm⟩
  obtain ⟨k, hk⟩ := exists_eq_mul_gcdOfCoeffs hcoeffs _ hmem
  obtain ⟨z, hz⟩ := exists_selected_eq_mul hsame.1 σ
  have hval : value σ (trim c).lhs = ((z - k : ℤ) : ℚ) * gcdOfCoeffs ((trim c).lhs.terms.map Prod.snd) := by
    have hconst : (trim c).lhs.constantPart = c.constantPart := rfl
    rw [value, hz, hconst, Int.cast_sub, sub_mul, ← hk]
    ring
  rw [hval, mul_div_cancel_right₀ _ hpos.ne', Int.floor_intCast]
  show z - k ≤ 0 ↔ (trim c).relation.evaluate (value σ (trim c).lhs) 0
  rw [hval]
  show z - k ≤ 0 ↔ ((z - k : ℤ) : ℚ) * _ ≤ 0
  rw [← not_lt, ← not_lt, mul_pos_iff_of_pos_right hpos]
  norm_cast

end Division

/-! ## The normalized constraint -/

section Normalize

variable {V : Type u} {c : ConstraintT V}

/-- The left-hand side that is compared with zero by `≤` or `=`. -/
def shifted (c : ConstraintT V) : LinearPolynomial V :=
  c.lhs.addConstant (if c.relation = .less then 1 else 0)

/-- The constant once no coefficient is positive any more. -/
def limit (c : ConstraintT V) : ℚ := (shifted c).constantPart + total (c.lhs.terms.filter fun t => t.2 > 0)

/-- Some coefficient will be larger than the constant. -/
def Trimmed (c : ConstraintT V) : Prop := 1 ≤ limit c ∧ ∃ t ∈ c.lhs.terms, limit c < |t.2|

instance (c : ConstraintT V) : Decidable (Trimmed c) := inferInstanceAs (Decidable (_ ∧ _))

/-- The greatest common divisor of the coefficients of the input. -/
def coefficientGcd (c : ConstraintT V) : ℕ := integerGcd (c.lhs.terms.map Prod.snd)

/-- The left-hand side has a value that violates the constraint and is rounded to zero; or it has one that
satisfies a constraint with `<` although it is not an integer. -/
def Overlooked (σ : V → Bool) (c : ConstraintT V) : Prop :=
  if ¬ Trimmed c ∧ 1 < coefficientGcd c then
    (if c.relation = .less then 1 ≤ value σ (shifted c) else 0 < value σ (shifted c)) ∧
      value σ (shifted c) < coefficientGcd c
  else c.relation = .less ∧ 0 < value σ (shifted c) ∧ value σ (shifted c) < 1

/-- An equation is not trimmed, and no value is overlooked. -/
def ExactlyNormalized (c : ConstraintT V) : Prop :=
  (c.relation = .eq → ¬ Trimmed c) ∧ ∀ σ, ¬ Overlooked σ c

/-- What the removal of positive coefficients leaves, seen from an assignment of all variables. -/
structure WithoutPositive (c : ConstraintT V) (σ : V → Bool) (d : ConstraintT V) : Prop where
  relation : d.relation = if c.relation = .less then .leq else c.relation
  value_eq : value σ d.lhs = value σ (shifted c)
  coeffs : (d.lhs.terms.map Prod.snd).Perm (c.lhs.terms.map fun t => -|t.2|)
  constantPart : d.constantPart = limit c

variable {σ : V → Bool} {d : ConstraintT V}

theorem WithoutPositive.neg (h : WithoutPositive c σ d) : ∀ t ∈ d.lhs.terms, t.2 < 0 := by
  intro t ht
  obtain ⟨s, hs, heq⟩ := mem_map.mp (h.coeffs.mem_iff.mp (mem_map_of_mem ht))
  rw [← heq, neg_lt_zero, abs_pos]
  exact c.lhs.coeff_ne_zero s hs

theorem WithoutPositive.nil_iff (h : WithoutPositive c σ d) : d.lhs.terms = [] ↔ c.lhs.terms = [] := by
  have hlen := h.coeffs.length_eq
  rw [length_map, length_map] at hlen
  rw [← length_eq_zero_iff, hlen, length_eq_zero_iff]

theorem WithoutPositive.trimmable_iff (h : WithoutPositive c σ d) : trimmable d = true ↔ Trimmed c := by
  have habs : ∀ a, a ∈ d.lhs.terms.map Prod.snd ↔ ∃ t ∈ c.lhs.terms, -|t.2| = a := by
    intro a
    rw [h.coeffs.mem_iff, mem_map]
  rw [trimmable, h.constantPart, any_eq_true]
  simp only [gt_iff_lt, ge_iff_le, Bool.and_eq_true, decide_eq_true_eq]
  constructor
  · rintro ⟨t, ht, hlarge, hone⟩
    obtain ⟨s, hs, heq⟩ := (habs t.2).mp (mem_map_of_mem ht)
    refine ⟨hone, s, hs, ?_⟩
    rwa [← heq, abs_neg, abs_abs] at hlarge
  · rintro ⟨hone, s, hs, hlarge⟩
    obtain ⟨t, ht, heq⟩ := mem_map.mp ((habs (-|s.2|)).mpr ⟨s, hs, rfl⟩)
    exact ⟨t, ht, by rwa [heq, abs_neg, abs_abs], hone⟩

theorem WithoutPositive.gcd_eq (h : WithoutPositive c σ d) (hint : ∀ t ∈ c.lhs.terms, ∃ z : ℤ, t.2 = z) :
    gcdOfCoeffs (d.lhs.terms.map Prod.snd) = (coefficientGcd c : ℕ) := by
  have habs : ((d.lhs.terms.map Prod.snd).map fun a => |a|).Perm
      ((c.lhs.terms.map Prod.snd).map fun a => |a|) := by
    refine (h.coeffs.map fun a => |a|).trans (List.Perm.of_eq ?_)
    rw [map_map, map_map]
    refine map_congr_left fun t _ => ?_
    rw [comp_apply, abs_neg, abs_abs]
    rfl
  rw [gcdOfCoeffs_eq, integerGcd_congr habs]
  · rfl
  · intro a ha
    obtain ⟨t, ht, rfl⟩ := mem_map.mp (h.coeffs.mem_iff.mp ha)
    obtain ⟨z, hz⟩ := hint t ht
    exact ⟨-|z|, by rw [hz]; push_cast; rfl⟩

/-- The meaning of the input in terms of the shifted left-hand side. -/
theorem sat_iff_shifted (hrel : c.relation = .leq ∨ c.relation = .less ∨ c.relation = .eq) :
    c.Sat σ ↔ if c.relation = .eq then value σ (shifted c) = 0
      else if c.relation = .less then value σ (shifted c) < 1 else value σ (shifted c) ≤ 0 := by
  rw [ConstraintT.Sat, shifted, value_addConstant]
  rcases hrel with hrel | hrel | hrel
  · simp [hrel, Relation.evaluate]
  · simp only [hrel, Relation.evaluate, reduceCtorEq, if_false, if_true]
    constructor <;> intro h <;> linarith
  · simp [hrel, Relation.evaluate]

/-- The meaning of the result. -/
theorem WithoutPositive.sat_iff (h : WithoutPositive c σ d)
    (hrel : c.relation = .leq ∨ c.relation = .less ∨ c.relation = .eq)
    (hint : ∀ t ∈ c.lhs.terms, ∃ z : ℤ, t.2 = z) :
    (gcd (if trimmable d then trim d else d)).Sat σ ↔
      if Trimmed c then value σ (shifted c) ≤ 0
      else if 1 < coefficientGcd c then
        (c.relation = .eq → 0 ≤ value σ (shifted c)) ∧ value σ (shifted c) < coefficientGcd c
      else if c.relation = .eq then value σ (shifted c) = 0 else value σ (shifted c) ≤ 0 := by
  have hrel' : d.relation = .leq ∨ d.relation = .eq := by
    rw [h.relation]
    rcases hrel with hrel | hrel | hrel <;> simp [hrel]
  by_cases htrim : Trimmed c
  · rw [if_pos htrim, if_pos (h.trimmable_iff.mpr htrim), sat_gcd_trim h.neg (h.trimmable_iff.mpr htrim),
      h.value_eq]
  · have hgcd := h.gcd_eq hint
    have hnil := h.nil_iff
    have hdeq : d.relation = if c.relation = .eq then .eq else .leq := by
      rw [h.relation]
      rcases hrel with hrel | hrel | hrel <;> simp [hrel]
    rw [if_neg htrim, if_neg (mt h.trimmable_iff.mp htrim), sat_gcd hrel', hgcd, h.value_eq]
    by_cases hlarge : 1 < coefficientGcd c
    · have hpos : (0 : ℚ) < coefficientGcd c := Nat.cast_pos.mpr (zero_lt_one.trans hlarge)
      have hkeep : ¬ (d.lhs.terms = [] ∨ (coefficientGcd c : ℚ) = 1) := by
        rintro (hempty | hone)
        · simp [coefficientGcd, hnil.mp hempty, integerGcd] at hlarge
        · exact hlarge.ne' (Nat.cast_eq_one.mp hone)
      rw [if_neg hkeep, if_pos hlarge, hdeq]
      split_ifs with heq
      · simp only [Relation.evaluate, floor_div_eq_zero_iff hpos, heq, true_imp_iff]
      · simp only [Relation.evaluate, floor_div_nonpos_iff hpos, heq, false_imp_iff, true_and]
    · have hsame : d.lhs.terms = [] ∨ (coefficientGcd c : ℚ) = 1 := by
        rcases Nat.lt_or_ge 0 (coefficientGcd c) with hpos | hzero
        · exact .inr (Nat.cast_eq_one.mpr (le_antisymm (not_lt.mp hlarge) hpos))
        · left
          rw [hnil, eq_nil_iff_forall_not_mem]
          intro t ht
          obtain ⟨z, hz⟩ := hint t ht
          have hdvd := dvd_integerGcd.mp (dvd_of_eq (Nat.le_zero.mp hzero).symm) t.2 (mem_map_of_mem ht)
          rw [zero_dvd_iff, Int.natAbs_eq_zero, Rat.num_eq_zero] at hdvd
          exact c.lhs.coeff_ne_zero t ht hdvd
      rw [if_pos hsame, if_neg hlarge, ConstraintT.Sat, hdeq, h.value_eq]
      split_ifs <;> rfl

/-- Where no equation is trimmed, the two constraints differ exactly at overlooked values. -/
theorem WithoutPositive.agrees_iff (h : WithoutPositive c σ d)
    (hrel : c.relation = .leq ∨ c.relation = .less ∨ c.relation = .eq)
    (hint : ∀ t ∈ c.lhs.terms, ∃ z : ℤ, t.2 = z) (htrim : c.relation = .eq → ¬ Trimmed c) :
    ((gcd (if trimmable d then trim d else d)).Sat σ ↔ c.Sat σ) ↔ ¬ Overlooked σ c := by
  rw [h.sat_iff hrel hint, sat_iff_shifted hrel, Overlooked]
  generalize value σ (shifted c) = v
  by_cases htrimmed : Trimmed c
  · have hne : c.relation ≠ .eq := fun heq => htrim heq htrimmed
    simp only [htrimmed, not_true_eq_false, false_and, if_false, if_true, hne]
    by_cases hless : c.relation = .less
    · simp only [hless, if_true, true_and, not_and, not_lt]
      constructor
      · exact fun hiff hpos => not_lt.mp fun hlt => absurd (hiff.mpr hlt) (not_le.mpr hpos)
      · intro hgap
        refine ⟨fun hle => by linarith, fun hlt => not_lt.mp fun hpos => ?_⟩
        exact absurd (hgap hpos) (not_le.mpr hlt)
    · simp [hless]
  · by_cases hlarge : 1 < coefficientGcd c
    · have hcast : (1 : ℚ) < coefficientGcd c := by exact_mod_cast hlarge
      generalize (coefficientGcd c : ℚ) = g at hcast
      simp only [htrimmed, hlarge, not_false_eq_true, true_and, if_true, if_false]
      rcases hrel with hrel | hrel | hrel <;>
        simp only [hrel, reduceCtorEq, if_true, if_false, false_imp_iff, true_imp_iff, true_and] <;> grind
    · simp only [htrimmed, hlarge, and_false, if_false]
      rcases hrel with hrel | hrel | hrel <;>
        simp only [hrel, reduceCtorEq, if_true, if_false, false_and, true_and] <;> grind

/-- Some assignment leaves the positive coefficients and takes off one that is larger than the limit. -/
theorem exists_value_eq_limit_sub [DecidableEq V] {t : V × ℚ} (ht : t ∈ c.lhs.terms) :
    ∃ σ, value σ (shifted c) = limit c - |t.2| := by
  have hsum : ∀ {ts : List (V × ℚ)}, (ts.map Prod.fst).Nodup → t ∈ ts →
      total (ts.filter fun e => if e = t then decide (t.2 < 0) else decide (e.2 > 0)) =
        total (ts.filter fun e => e.2 > 0) - |t.2| := by
    intro ts hnodup hmem
    induction ts with
    | nil => cases hmem
    | cons e ts ih =>
      obtain ⟨he, hnodup⟩ := nodup_cons.mp hnodup
      by_cases heq : e = t
      · subst heq
        have hrest : ts.filter (fun d => if d = e then decide (e.2 < 0) else decide (d.2 > 0)) =
            ts.filter fun d => decide (d.2 > 0) := by
          refine filter_congr fun d hd => ?_
          rw [if_neg]
          rintro rfl
          exact he (mem_map_of_mem hd)
        rw [filter_cons, filter_cons, hrest]
        rcases lt_trichotomy e.2 0 with hneg | hzero | hpos
        · simp [hneg, hneg.le.not_gt, abs_of_neg hneg, add_comm]
        · simp [hzero]
        · simp [hpos, hpos.le.not_gt, abs_of_pos hpos]
      · have hmem' := (mem_cons.mp hmem).resolve_left (Ne.symm heq)
        have hih := ih hnodup hmem'
        rw [filter_cons, filter_cons, if_neg heq]
        split_ifs
        · rw [total_cons, total_cons, hih, add_sub_assoc]
        · exact hih
  obtain ⟨σ, hσ⟩ := exists_selected_eq_total c.lhs.keys_nodup
    (filter_sublist (p := fun e => if e = t then decide (t.2 < 0) else decide (e.2 > 0)))
  refine ⟨σ, ?_⟩
  rw [limit, value, shifted]
  show selected σ c.lhs.terms + _ = _
  rw [hσ, hsum c.lhs.keys_nodup ht]
  ring

end Normalize

/-! ## Runs of the normalizer -/

section Runs

variable {V : Type u} [DecidableEq V] {pool : FormulaPool (Atom (Variable V))}
  {n : PseudoBoolNormalizer V} {c : ConstraintT (Variable V)} {links : List (FormulaT (Variable V))}

theorem removeFrom_normalized (h : n.CacheInv) (hc : c.Original) :
    Removes n c.lhs.terms (.const (shifted c).constantPart)
      (removeFrom c.lhs.terms (.const (shifted c).constantPart) n) := by
  refine removeFrom_spec h c.lhs.coeff_ne_zero (fun t ht => hc t.1 (mem_map_of_mem ht)) c.lhs.keys_nodup ?_
  intro x hx
  simp [LinearPolynomial.vars, LinearPolynomial.const] at hx

omit [DecidableEq V] in
/-- The constraint the removal starts from. -/
theorem normalizeLess_eq (c : ConstraintT (Variable V)) :
    (if c.relation = .less then normalizeLessConstraint c else c) =
      ⟨shifted c, if c.relation = .less then .leq else c.relation⟩ := by
  rw [shifted]
  split_ifs with hrel
  · rfl
  · obtain ⟨⟨terms, constantPart, _, _⟩, relation⟩ := c
    simp [LinearPolynomial.addConstant]

variable (pool) in
/-- A call adds links for the new entries of the cache. -/
theorem normalize_cache (h : n.CacheInv) (hc : c.Original) :
    (n.normalize pool c).2.CacheInv ∧
      ∀ σ, (∀ f ∈ (n.normalize pool c).1.1.toList, Satisfies σ f) ∧ n.Complements σ ↔
        (n.normalize pool c).2.Complements σ := by
  have hremoves := removeFrom_normalized h hc
  rw [normalize, normalizeLess_eq]
  by_cases hpos : (c.lhs.terms.any fun t => t.2 > 0) = true
  · simp only [hpos, if_true, removePositiveCoeff]
    refine ⟨hremoves.inv, fun σ => Iff.trans ?_ (hremoves.complements σ)⟩
    simp only [Option.toList_some, mem_singleton, forall_eq, satisfies_and]
    rfl
  · simp only [hpos, if_false, Bool.false_eq_true]
    exact ⟨h, fun σ => by simp⟩

variable (pool) in
/-- What a call does to the constraint. -/
theorem normalize_result (h : n.CacheInv) (hc : c.Original)
    (hrel : c.relation = .leq ∨ c.relation = .less ∨ c.relation = .eq) :
    ∃ d, (n.normalize pool c).1.2 = gcd (if trimmable d then trim d else d) ∧
      ∀ σ, (n.normalize pool c).2.Complements σ → WithoutPositive c σ d := by
  have hremoves := removeFrom_normalized h hc
  rw [normalize, normalizeLess_eq]
  by_cases hpos : (c.lhs.terms.any fun t => t.2 > 0) = true
  · simp only [hpos, if_true, removePositiveCoeff]
    refine ⟨_, rfl, fun σ hσ => ?_⟩
    have hcrea : ∀ p : LinearPolynomial (Variable V),
        ConstraintT.create p (if c.relation = .less then .leq else c.relation) =
          ⟨p, if c.relation = .less then .leq else c.relation⟩ := by
      intro p
      rcases hrel with hrel | hrel | hrel <;> rw [hrel] <;> rfl
    constructor
    case relation => rw [hcrea]
    case value_eq =>
      rw [hcrea]
      have hval := hremoves.value σ hσ
      rw [value_const, add_comm] at hval
      exact hval
    case coeffs =>
      rw [hcrea]
      have hcoeffs := hremoves.coeffs
      rwa [LinearPolynomial.const, map_nil, append_nil] at hcoeffs
    case constantPart =>
      rw [hcrea]
      exact hremoves.constantPart
  · simp only [hpos, if_false, Bool.false_eq_true]
    refine ⟨_, rfl, fun σ _ => ?_⟩
    have hneg : ∀ t ∈ c.lhs.terms, ¬ t.2 > 0 := by
      intro t ht hgt
      exact hpos (any_eq_true.mpr ⟨t, ht, decide_eq_true hgt⟩)
    constructor
    case relation => rfl
    case value_eq => rfl
    case coeffs =>
      refine List.Perm.of_eq (map_congr_left fun t ht => ?_)
      rw [abs_of_nonpos (not_lt.mp (hneg t ht)), neg_neg]
    case constantPart =>
      have hnone : c.lhs.terms.filter (fun t => decide (t.2 > 0)) = [] :=
        filter_eq_nil_iff.mpr fun t ht => by simpa using hneg t ht
      rw [limit, hnone, total_nil, add_zero]
      rfl

/-- The formulas that were returned say that the fresh variables are complements. -/
theorem Reachable.inv (h : Reachable pool n links) :
    n.CacheInv ∧ ∀ σ, (∀ f ∈ links, Satisfies σ f) ↔ n.Complements σ := by
  induction h with
  | init created => exact ⟨⟨nofun, nofun, nofun⟩, fun σ => by simp [Complements]⟩
  | freshBooleanVariable h ih =>
    obtain ⟨hinv, hlinks⟩ := ih
    refine ⟨⟨hinv.original, fun x y hy => ?_, hinv.injective⟩, hlinks⟩
    obtain ⟨k, hk, heq⟩ := hinv.created x y hy
    exact ⟨k, Nat.lt_succ_of_lt hk, heq⟩
  | normalize h c hc ih =>
    obtain ⟨hinv, hlinks⟩ := ih
    obtain ⟨hinv', hcomp⟩ := normalize_cache pool hinv hc
    refine ⟨hinv', fun σ => ?_⟩
    rw [← hcomp σ, ← hlinks σ]
    simp only [mem_append, or_imp, forall_and]
    exact and_comm

omit [DecidableEq V] in
/-- Every assignment of the input's variables extends to the fresh ones. -/
theorem CacheInv.exists_complements (h : n.CacheInv) (α : V → Bool) :
    ∃ σ, (∀ x, σ (.original x) = α x) ∧ n.Complements σ := by
  classical
  refine ⟨fun
    | .original x => α x
    | .fresh k => decide (∃ z, n.mVariablesCache (.original z) = some (.fresh k) ∧ α z = false),
    fun x => rfl, fun x y hy => ?_⟩
  obtain ⟨z, rfl⟩ := h.original x y hy
  obtain ⟨k, -, rfl⟩ := h.created _ _ hy
  have hunique : ∀ z', n.mVariablesCache (.original z') = some (.fresh k) → z' = z :=
    fun z' hz' => Variable.original.inj (h.injective _ _ _ hz' hy)
  rw [Bool.eq_iff_iff, decide_eq_true_eq, Bool.not_eq_true']
  constructor
  · rintro ⟨z', hz', hα⟩
    exact hunique z' hz' ▸ hα
  · exact fun hα => ⟨z, hy, hα⟩

omit [DecidableEq V] in
theorem value_shifted_congr (hc : c.Original) {σ τ : Variable V → Bool}
    (h : ∀ x, σ (.original x) = τ (.original x)) : value σ (shifted c) = value τ (shifted c) := by
  refine congrArg (· + _) (selected_congr fun t ht => ?_)
  obtain ⟨y, hy⟩ := hc t.1 (mem_map_of_mem ht)
  rw [hy, h]

/-- The links only define the fresh variables.  Under them the normalized constraint is equivalent to the
input if and only if the input is not an equation that is trimmed and none of its values is overlooked. -/
theorem normalize_preserves_iff (h : Reachable pool n links) (hc : c.Original)
    (hint : ∀ t ∈ c.lhs.terms, ∃ z : ℤ, t.2 = z)
    (hrel : c.relation = .leq ∨ c.relation = .less ∨ c.relation = .eq) :
    (∀ α : V → Bool, ∃ σ, (∀ x, σ (.original x) = α x) ∧
      ∀ f ∈ links ++ (n.normalize pool c).1.1.toList, Satisfies σ f) ∧
    ((∀ σ, (∀ f ∈ links ++ (n.normalize pool c).1.1.toList, Satisfies σ f) →
        ((n.normalize pool c).1.2.Sat σ ↔ c.Sat σ)) ↔ ExactlyNormalized c) := by
  obtain ⟨hinv, hlinks⟩ := (h.normalize c hc).inv
  simp only [hlinks]
  obtain ⟨d, hres, hd⟩ := normalize_result pool h.inv.1 hc hrel
  rw [hres]
  have hextend : ∀ σ : Variable V → Bool, ∃ τ, value τ (shifted c) = value σ (shifted c) ∧
      (n.normalize pool c).2.Complements τ := by
    intro σ
    obtain ⟨τ, hτ, hcomp⟩ := hinv.exists_complements fun x => σ (.original x)
    exact ⟨τ, value_shifted_congr hc hτ, hcomp⟩
  refine ⟨hinv.exists_complements, fun hall => ?_, fun ⟨htrim, hnot⟩ σ hσ => ?_⟩
  · have htrim : c.relation = .eq → ¬ Trimmed c := by
      rintro heq ⟨hone, t, ht, hlarge⟩
      obtain ⟨σ, hval⟩ := exists_value_eq_limit_sub ht
      obtain ⟨τ, hτ, hcomp⟩ := hextend σ
      have hsat := hall τ hcomp
      rw [(hd τ hcomp).sat_iff hrel hint, if_pos ⟨hone, t, ht, hlarge⟩, sat_iff_shifted hrel, if_pos heq, hτ,
        hval] at hsat
      have hzero := hsat.mp (by linarith)
      linarith
    refine ⟨htrim, fun σ hover => ?_⟩
    obtain ⟨τ, hτ, hcomp⟩ := hextend σ
    refine ((hd τ hcomp).agrees_iff hrel hint htrim).mp (hall τ hcomp) ?_
    rwa [Overlooked, hτ]
  · exact ((hd σ hσ).agrees_iff hrel hint htrim).mpr (hnot σ)

/-- `2x - 1 <= 0` -/
def single : ConstraintT (Variable (Fin 3)) := ⟨⟨[(.original 0, 2)], -1, by decide, by simp⟩, .leq⟩

theorem normalize_preserves_iff_single : ExactlyNormalized single ∧
    ∀ σ, (∀ f ∈ [] ++ ((⟨fun _ => none, 0⟩ : PseudoBoolNormalizer (Fin 3)).normalize (.verbatim _)
        single).1.1.toList, Satisfies σ f) →
      (((⟨fun _ => none, 0⟩ : PseudoBoolNormalizer (Fin 3)).normalize (.verbatim _) single).1.2.Sat σ ↔
        single.Sat σ) := by
  have hlim : limit single = 1 := by norm_num [limit, shifted, single, LinearPolynomial.addConstant,
    (by decide : Relation.leq ≠ .less)]
  have htrim : Trimmed single := ⟨hlim.ge, (.original 0, 2), by simp [single], by norm_num [hlim]⟩
  have hexact : ExactlyNormalized single := by
    refine ⟨fun heq => ?_, fun σ hover => ?_⟩
    · exact absurd heq (by decide)
    · rw [Overlooked, if_neg (by simp [htrim])] at hover
      exact absurd hover.1 (by decide)
  refine ⟨hexact, (normalize_preserves_iff (.init 0) ?_ ?_ (.inl rfl)).2.mpr hexact⟩
  · intro x hx
    exact ⟨0, by simpa [single, ConstraintT.vars, LinearPolynomial.vars] using hx⟩
  · intro t ht
    exact ⟨2, by rw [mem_singleton.mp ht]; norm_num⟩

/-- `-2x - 2y - 2z + 3 <= 0`, which asks for two of the three variables -/
def twoOfThree : ConstraintT (Variable (Fin 3)) :=
  ⟨⟨[(.original 0, -2), (.original 1, -2), (.original 2, -2)], 3, by decide, by simp⟩, .leq⟩

/-- The normalized constraint asks for one variable. -/
theorem not_normalize_preserves_twoOfThree :
    ¬ ∀ (n : PseudoBoolNormalizer (Fin 3)) (links : List (FormulaT (Variable (Fin 3))))
      (c : ConstraintT (Variable (Fin 3))), Reachable (.verbatim _) n links → c.Original →
      (∀ t ∈ c.lhs.terms, ∃ z : ℤ, t.2 = z) →
      (c.relation = .leq ∨ c.relation = .less ∨ c.relation = .eq) →
      ∀ σ, (∀ f ∈ links ++ (n.normalize (.verbatim _) c).1.1.toList, Satisfies σ f) →
        ((n.normalize (.verbatim _) c).1.2.Sat σ ↔ c.Sat σ) := by
  intro h
  have horig : twoOfThree.Original := by
    intro x hx
    simp only [twoOfThree, ConstraintT.vars, LinearPolynomial.vars, map_cons, map_nil,
      mem_cons, not_mem_nil, or_false] at hx
    rcases hx with rfl | rfl | rfl <;> exact ⟨_, rfl⟩
  have hint : ∀ t ∈ twoOfThree.lhs.terms, ∃ z : ℤ, t.2 = z := by
    intro t ht
    simp only [twoOfThree, mem_cons, not_mem_nil, or_false] at ht
    rcases ht with rfl | rfl | rfl <;> exact ⟨-2, by norm_num⟩
  have hreach : Reachable (.verbatim _) (⟨fun _ => none, 0⟩ : PseudoBoolNormalizer (Fin 3)) [] := .init 0
  have hlim : limit twoOfThree = 3 := by
    norm_num [limit, shifted, twoOfThree, LinearPolynomial.addConstant,
      (by decide : Relation.leq ≠ .less)]
  have htrim : ¬ Trimmed twoOfThree := by
    rintro ⟨-, t, ht, hlarge⟩
    simp only [twoOfThree, mem_cons, not_mem_nil, or_false] at ht
    rw [hlim] at hlarge
    rcases ht with rfl | rfl | rfl <;> norm_num at hlarge
  have hgcd : coefficientGcd twoOfThree = 2 := by decide +kernel
  let σ : Variable (Fin 3) → Bool := fun x => x = .original 0
  have hcall := (hreach.normalize twoOfThree horig).inv
  have hcomp : ((⟨fun _ => none, 0⟩ : PseudoBoolNormalizer (Fin 3)).normalize (.verbatim _)
      twoOfThree).2.Complements σ := by
    have hnone : ((⟨fun _ => none, 0⟩ : PseudoBoolNormalizer (Fin 3)).normalize (.verbatim _)
        twoOfThree).2 = ⟨fun _ => none, 0⟩ := by
      rw [normalize, if_neg (by norm_num [twoOfThree])]
    rw [hnone]
    intro x y hy
    cases hy
  obtain ⟨d, hres, hd⟩ := normalize_result (.verbatim _) hreach.inv.1 horig (.inl rfl)
  have hagree := h _ _ twoOfThree hreach horig hint (.inl rfl) σ ((hcall.2 σ).mpr hcomp)
  rw [hres] at hagree
  refine ((hd σ hcomp).agrees_iff (.inl rfl) hint fun heq => absurd heq (by decide)).mp hagree ?_
  have hval : value σ (shifted twoOfThree) = 1 := by decide +kernel
  rw [Overlooked, if_pos ⟨htrim, by rw [hgcd]; decide⟩, hval, hgcd]
  norm_num [twoOfThree]

end Runs

end PseudoBoolNormalizer

end Smtrat.PBPP
