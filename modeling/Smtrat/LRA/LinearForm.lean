import Smtrat.Common.Relation
import Smtrat.LRA.Value
import Smtrat.Math.Combination

/-!
# Linear forms and linear constraints

The left-hand side of a linear constraint is a linear form and a constant.  A form lists its
terms by increasing variable, without zero coefficients, so two forms are equal exactly when
they are the same polynomial: the tableau finds the slack variable of a form by comparing.
-/

namespace Smtrat.LRA

open Combination List Function

/-- `carl::Variable`, a variable of the input with its type `VT_INT` or `VT_REAL`. -/
structure Var where
  id : ℕ
  isInteger : Bool
deriving DecidableEq, Repr

/-- A non-constant linear polynomial without constant part. -/
@[ext]
structure LinearForm where
  terms : List (Var × ℚ)
  sorted : terms.Pairwise fun s t => s.1.id < t.1.id
  coeff_ne_zero : ∀ t ∈ terms, t.2 ≠ 0
  terms_ne_nil : terms ≠ []
deriving DecidableEq

variable {ts : List (Var × ℚ)}

namespace LinearForm

variable (p : LinearForm)

/-- The polynomial a form stands for, in the free module over the variables. -/
noncomputable def polynomial : Var →₀ ℚ :=
  Combination.eval (fun x => Finsupp.single x 1) p.terms

/-- The value of a form. -/
def eval {M : Type*} [AddCommMonoid M] [Module ℚ M] (α : Var → M) (p : LinearForm) : M :=
  Combination.eval α p.terms

/-- The value of a form is a linear function of its polynomial. -/
theorem eval_eq_polynomial {M : Type*} [AddCommMonoid M] [Module ℚ M] (α : Var → M)
    (p : LinearForm) : p.eval α = Finsupp.linearCombination ℚ α p.polynomial := by
  rw [polynomial, map_eval]
  apply eval_congr
  intro t _
  rw [Finsupp.linearCombination_single, one_smul]

/-- `lterm`, the term of the greatest variable. -/
def lterm : Var × ℚ := p.terms.getLast p.terms_ne_nil

/-- `integerValued`. -/
def integerValued : Bool := p.terms.all fun t => t.1.isInteger

/-- The form of a single variable. -/
def ofVar (x : Var) : LinearForm where
  terms := [(x, 1)]
  sorted := pairwise_singleton _ _
  coeff_ne_zero t ht := by
    rw [mem_singleton.mp ht]
    exact one_ne_zero
  terms_ne_nil := cons_ne_nil _ _

theorem polynomial_ofVar (x : Var) : (ofVar x).polynomial = Finsupp.single x 1 := by
  simp [polynomial, ofVar]

/-- A multiple of a form. -/
def smul (k : ℚ) (hk : k ≠ 0) (p : LinearForm) : LinearForm where
  terms := scale k p.terms
  sorted := pairwise_map.mpr p.sorted
  coeff_ne_zero := by
    rintro _ ht
    obtain ⟨t, hmem, rfl⟩ := mem_map.mp ht
    exact mul_ne_zero hk (p.coeff_ne_zero t hmem)
  terms_ne_nil := map_eq_nil_iff.not.mpr p.terms_ne_nil

theorem eval_smul {M : Type*} [AddCommMonoid M] [Module ℚ M] (α : Var → M) {k : ℚ} (hk : k ≠ 0)
    (p : LinearForm) : (p.smul k hk).eval α = k • p.eval α := eval_scale k α p.terms

theorem keys_nodup : (p.terms.map Prod.fst).Nodup := by
  rw [List.Nodup, pairwise_map]
  refine p.sorted.imp ?_
  intro s t hst heq
  exact hst.ne (congrArg Var.id heq)

/-- A form has a non-zero coefficient, so it is not the zero polynomial. -/
theorem polynomial_ne_zero : p.polynomial ≠ 0 := by
  obtain ⟨t, ht⟩ := exists_mem_of_ne_nil _ p.terms_ne_nil
  intro h
  apply p.coeff_ne_zero t ht
  have heval := congrArg (fun q : Var →₀ ℚ => q t.1) h
  simp only [polynomial, eval_of_mem p.keys_nodup ht, Finsupp.coe_add, Pi.add_apply,
    Finsupp.smul_single, smul_eq_mul, mul_one, Finsupp.single_eq_same, Finsupp.coe_zero,
    Pi.zero_apply] at heval
  have hothers : (Combination.eval (fun x => (Finsupp.single x 1 : Var →₀ ℚ))
      (others t.1 p.terms)) t.1 = 0 := by
    have hmap := map_eval (Finsupp.lapply (R := ℚ) t.1 : (Var →₀ ℚ) →ₗ[ℚ] ℚ)
      (fun x => Finsupp.single x 1) (others t.1 p.terms)
    refine hmap.trans ?_
    rw [eval_congr (g := fun _ => 0)]
    · induction others t.1 p.terms with
      | nil => rfl
      | cons e es ih => rw [Combination.eval_cons, ih, smul_zero, add_zero]
    · intro e he
      exact Finsupp.single_eq_of_ne (mem_others.mp he).2.symm
  rwa [hothers, add_zero] at heval

/-! ## Coprime integer coefficients -/

/-- The least common multiple of the denominators. -/
def denominators : List (Var × ℚ) → ℕ
  | [] => 1
  | t :: ts => t.2.den.lcm (denominators ts)

/-- The greatest common divisor of the numerators. -/
def numerators : List (Var × ℚ) → ℕ
  | [] => 0
  | t :: ts => t.2.num.natAbs.gcd (numerators ts)

theorem denominators_pos (ts : List (Var × ℚ)) : 0 < denominators ts := by
  induction ts with
  | nil => exact Nat.one_pos
  | cons t ts ih => exact Nat.lcm_pos t.2.pos ih

theorem numerators_pos (hne : ts ≠ []) (h : ∀ t ∈ ts, t.2 ≠ 0) : 0 < numerators ts := by
  obtain ⟨t, ts, rfl⟩ := exists_cons_of_ne_nil hne
  apply Nat.gcd_pos_of_pos_left
  exact Int.natAbs_pos.mpr (Rat.num_ne_zero.mpr (h t mem_cons_self))

variable {t : Var × ℚ}

theorem den_dvd_denominators (h : t ∈ ts) : t.2.den ∣ denominators ts := by
  induction ts with
  | nil => cases h
  | cons s ts ih =>
    rcases mem_cons.mp h with rfl | h
    · exact Nat.dvd_lcm_left _ _
    · exact (ih h).trans (Nat.dvd_lcm_right _ _)

theorem numerators_dvd_num (h : t ∈ ts) : (numerators ts : ℤ) ∣ t.2.num := by
  induction ts with
  | nil => cases h
  | cons s ts ih =>
    rcases mem_cons.mp h with rfl | h
    · exact Int.natCast_dvd.mpr (Nat.gcd_dvd_left _ _)
    · exact (Int.natCast_dvd_natCast.mpr (Nat.gcd_dvd_right _ _)).trans (ih h)

/-- `coprimeFactor`, the positive factor that makes the coefficients coprime integers. -/
def coprimeFactor : ℚ := denominators p.terms / numerators p.terms

theorem coprimeFactor_pos : 0 < p.coprimeFactor :=
  div_pos (Nat.cast_pos.mpr (denominators_pos _))
    (Nat.cast_pos.mpr (numerators_pos p.terms_ne_nil p.coeff_ne_zero))

theorem coprimeFactor_mul_coeff (h : t ∈ p.terms) : ∃ n : ℤ, p.coprimeFactor * t.2 = n := by
  obtain ⟨k, hk⟩ := den_dvd_denominators h
  obtain ⟨l, hl⟩ := numerators_dvd_num h
  have hnum : (numerators p.terms : ℚ) ≠ 0 :=
    Nat.cast_ne_zero.mpr (numerators_pos p.terms_ne_nil p.coeff_ne_zero).ne'
  refine ⟨k * l, ?_⟩
  have hden : (t.2.den : ℚ) ≠ 0 := Nat.cast_ne_zero.mpr t.2.den_nz
  calc p.coprimeFactor * t.2
      = (t.2.den * k : ℕ) / numerators p.terms * (t.2.num / t.2.den) := by
        rw [Rat.num_div_den, coprimeFactor, hk]
    _ = (t.2.den * k : ℕ) / numerators p.terms * ((numerators p.terms * l : ℤ) / t.2.den) := by
        rw [hl]
    _ = ((k * l : ℤ) : ℚ) := by
        push_cast
        field_simp

/-- The two numbers a coprime factor is made of are coprime themselves. -/
theorem coprime_numerators (ts : List (Var × ℚ)) : (numerators ts).Coprime (denominators ts) := by
  induction ts with
  | nil => exact Nat.coprime_one_right 0
  | cons t ts ih =>
    have hden : (numerators (t :: ts)).Coprime t.2.den :=
      t.2.reduced.coprime_dvd_left (Nat.gcd_dvd_left _ _)
    have hdens : (numerators (t :: ts)).Coprime (denominators ts) :=
      ih.coprime_dvd_left (Nat.gcd_dvd_right _ _)
    exact (hden.mul_right hdens).coprime_dvd_right (Nat.lcm_dvd_mul _ _)

/-- Fractions in lowest terms have common combinations down to the gcd of the numerators over the
lcm of the denominators. -/
theorem exists_combination_eq {a b n d : ℕ} (hb : 0 < b) (hd : 0 < d) (hab : a.Coprime b)
    (hnd : n.Coprime d) :
    ∃ u w : ℤ, (u : ℚ) * (a / b) + w * (n / d) = (a.gcd n : ℕ) / (b.lcm d : ℕ) := by
  have hgcd : (a * d).gcd (n * b) = a.gcd n * b.gcd d := by
    obtain ⟨g, a', n', hg, han, ha, hn⟩ : ∃ g a' n', g = a.gcd n ∧ a'.Coprime n' ∧ a = g * a' ∧
        n = g * n' := by
      rcases Nat.eq_zero_or_pos (a.gcd n) with hzero | hpos
      · obtain ⟨rfl, rfl⟩ := Nat.gcd_eq_zero_iff.mp hzero
        exact ⟨0, 1, 1, rfl, Nat.coprime_one_right 1, rfl, rfl⟩
      · obtain ⟨a', n', hco, ha, hn⟩ := Nat.exists_coprime a n
        exact ⟨_, a', n', rfl, hco, ha.trans (Nat.mul_comm _ _), hn.trans (Nat.mul_comm _ _)⟩
    obtain ⟨b', d', hbd, hb', hd'⟩ := Nat.exists_coprime b d
    set h := b.gcd d with hh
    have hrest : (a' * d').Coprime (n' * b') := by
      refine Nat.Coprime.mul_left (han.mul_right ?_) (Nat.Coprime.mul_right ?_ hbd.symm)
      · exact (hab.coprime_dvd_left ⟨g, ha.trans (Nat.mul_comm _ _)⟩).coprime_dvd_right ⟨h, hb'⟩
      · exact ((hnd.coprime_dvd_left ⟨g, hn.trans (Nat.mul_comm _ _)⟩).coprime_dvd_right
          ⟨h, hd'⟩).symm
    calc (a * d).gcd (n * b) = (g * h * (a' * d')).gcd (g * h * (n' * b')) := by
          rw [ha, hn, hb', hd']
          ring_nf
      _ = g * h * (a' * d').gcd (n' * b') := Nat.gcd_mul_left _ _ _
      _ = a.gcd n * h := by rw [hrest.gcd_eq_one, Nat.mul_one, hg]
  have hbezout := Nat.gcd_eq_gcd_ab (a * d) (n * b)
  rw [hgcd] at hbezout
  refine ⟨(a * d).gcdA (n * b), (a * d).gcdB (n * b), ?_⟩
  have hcast := congrArg (Int.cast : ℤ → ℚ) hbezout
  push_cast at hcast
  have hlcm : ((b.gcd d : ℕ) : ℚ) * (b.lcm d : ℕ) = b * d := by
    rw [← Nat.cast_mul, Nat.gcd_mul_lcm, Nat.cast_mul]
  have hb₀ : (b : ℚ) ≠ 0 := Nat.cast_ne_zero.mpr hb.ne'
  have hd₀ : (d : ℚ) ≠ 0 := Nat.cast_ne_zero.mpr hd.ne'
  have hl₀ : ((b.lcm d : ℕ) : ℚ) ≠ 0 := Nat.cast_ne_zero.mpr (Nat.lcm_pos hb hd).ne'
  field_simp
  linear_combination (b.lcm d : ℕ) * -hcast + (a.gcd n : ℕ) * hlcm

/-- `lterm().coeff() < 0`. -/
def negative : Bool := p.lterm.2 < 0

/-- The factor that also makes the leading coefficient positive. -/
def slackFactor : ℚ := if p.negative then -p.coprimeFactor else p.coprimeFactor

theorem slackFactor_ne_zero : p.slackFactor ≠ 0 := by
  rw [slackFactor]
  split_ifs
  · exact neg_ne_zero.mpr p.coprimeFactor_pos.ne'
  · exact p.coprimeFactor_pos.ne'

/-- The form a slack variable stands for. -/
def slackForm : LinearForm := p.smul p.slackFactor p.slackFactor_ne_zero

/-- The coefficients of a slack variable's form are integers. -/
theorem slackForm_coeff_integer (h : t ∈ p.slackForm.terms) : ∃ n : ℤ, t.2 = n := by
  obtain ⟨s, hs, rfl⟩ := mem_map.mp h
  obtain ⟨n, hn⟩ := p.coprimeFactor_mul_coeff hs
  rw [slackFactor]
  split_ifs
  · exact ⟨-n, by rw [neg_mul, hn, Int.cast_neg]⟩
  · exact ⟨n, hn⟩

end LinearForm

/-! ## Constraints -/

/-- A linear constraint `lhs + constantPart ~ 0`.  A constraint over integer variables is kept
in a normal form in which the constant is a multiple of the content of the left-hand side: an
equation without integer solutions is `FALSE`, and the constant of an inequality is rounded. -/
structure LinearConstraint where
  lhs : LinearForm
  constantPart : ℚ
  relation : Relation
  integral : lhs.integerValued = true → (constantPart * lhs.coprimeFactor).den = 1
deriving DecidableEq

/-- An assignment of real numbers to the variables, integers to those of integer type. -/
structure Assignment where
  val : Var → ℝ
  integral : ∀ x : Var, x.isInteger = true → ∃ n : ℤ, val x = n

namespace LinearForm

/-- A form over integer variables with integer coefficients has integer values. -/
theorem exists_int_eval {p : LinearForm} (hp : p.integerValued = true)
    (hcoeff : ∀ t ∈ p.terms, ∃ n : ℤ, t.2 = n) (α : Assignment) : ∃ n : ℤ, p.eval α.val = n := by
  have hvars : ∀ t ∈ p.terms, t.1.isInteger = true := all_eq_true.mp hp
  show ∃ n : ℤ, Combination.eval α.val p.terms = n
  revert hcoeff hvars
  generalize p.terms = ts
  intro hcoeff hvars
  induction ts with
  | nil => exact ⟨0, Int.cast_zero.symm⟩
  | cons t ts ih =>
    obtain ⟨k, hk⟩ := hcoeff t mem_cons_self
    obtain ⟨l, hl⟩ := α.integral t.1 (hvars t mem_cons_self)
    obtain ⟨n, hn⟩ := ih (fun s hs => hcoeff s (mem_cons_of_mem _ hs))
      (fun s hs => hvars s (mem_cons_of_mem _ hs))
    refine ⟨k * l + n, ?_⟩
    rw [eval_cons, hn, hl, hk, Rat.smul_def]
    push_cast
    rfl

/-- Integers for the variables whose terms sum up to the inverse of the coprime factor. -/
theorem exists_int_combination (hnodup : (ts.map Prod.fst).Nodup) :
    ∃ f : Var → ℤ, Combination.eval (fun x => (f x : ℚ)) ts = numerators ts / denominators ts := by
  induction ts with
  | nil => exact ⟨fun _ => 0, by simp [numerators, denominators]⟩
  | cons t ts ih =>
    obtain ⟨hnew, hnodup⟩ := nodup_cons.mp hnodup
    obtain ⟨f, hf⟩ := ih hnodup
    obtain ⟨u, w, huw⟩ := exists_combination_eq t.2.pos (denominators_pos ts) t.2.reduced
      (coprime_numerators ts)
    have hsign : (t.2.num.sign : ℚ) * t.2 = t.2.num.natAbs / t.2.den := by
      rw [Nat.cast_natAbs, ← Int.sign_mul_self_eq_abs, Int.cast_mul, mul_div_assoc, Rat.num_div_den]
    refine ⟨update (fun x => w * f x) t.1 (u * t.2.num.sign), ?_⟩
    have hrest : Combination.eval (fun x => ((update (fun x => w * f x) t.1
        (u * t.2.num.sign) x : ℤ) : ℚ)) ts = w * Combination.eval (fun x => (f x : ℚ)) ts := by
      refine (eval_congr fun e he => ?_).trans
        (map_eval (LinearMap.mulLeft ℚ (w : ℚ)) (fun x => (f x : ℚ)) ts).symm
      have hne : e.1 ≠ t.1 := by
        intro heq
        exact hnew (heq ▸ mem_map_of_mem he)
      rw [update_of_ne hne, Int.cast_mul]
      rfl
    rw [eval_cons, hrest, hf, update_self, smul_eq_mul, numerators, denominators, ← huw, ← hsign]
    push_cast
    ring

/-- The form of a slack variable takes every integer as its value. -/
theorem exists_eval_slackForm (p : LinearForm) (n : ℤ) :
    ∃ α : Assignment, p.slackForm.eval α.val = n := by
  obtain ⟨f, hf⟩ := exists_int_combination p.keys_nodup
  have hfac : p.slackFactor * Combination.eval (fun x => (f x : ℚ)) p.terms =
      if p.negative then -1 else 1 := by
    have hn : (numerators p.terms : ℚ) ≠ 0 :=
      Nat.cast_ne_zero.mpr (numerators_pos p.terms_ne_nil p.coeff_ne_zero).ne'
    have hd : (denominators p.terms : ℚ) ≠ 0 := Nat.cast_ne_zero.mpr (denominators_pos _).ne'
    rw [hf, slackFactor, coprimeFactor]
    split_ifs
    · field_simp
    · field_simp
  let k : ℤ := if p.negative then -n else n
  refine ⟨⟨fun x => ((k * f x : ℤ) : ℝ), fun x _ => ⟨k * f x, rfl⟩⟩, ?_⟩
  have hval : Combination.eval (fun x => ((k * f x : ℤ) : ℝ)) p.terms =
      ((k * Combination.eval (fun x => (f x : ℚ)) p.terms : ℚ) : ℝ) := by
    induction p.terms with
    | nil => simp
    | cons t ts ih =>
      rw [eval_cons, eval_cons, ih, Rat.smul_def, smul_eq_mul]
      push_cast
      ring
  show (p.smul p.slackFactor _).eval _ = _
  rw [eval_smul, LinearForm.eval, hval, Rat.smul_def, ← Rat.cast_mul, mul_left_comm, hfac]
  simp only [k]
  split_ifs <;> simp

end LinearForm

namespace LinearConstraint

/-- The constraint with the same left-hand side and another relation. -/
def withRelation (c : LinearConstraint) (r : Relation) : LinearConstraint := { c with relation := r }

/-- The negated constraint. -/
def negated (c : LinearConstraint) : LinearConstraint := c.withRelation c.relation.inverse

/-- `integerValued`. -/
def integerValued (c : LinearConstraint) : Bool := c.lhs.integerValued

/-- The constraint holds. -/
def Sat (α : Assignment) (c : LinearConstraint) : Prop :=
  c.relation.evaluate (c.lhs.eval α.val + c.constantPart) 0

theorem sat_negated (α : Assignment) (c : LinearConstraint) : c.negated.Sat α ↔ ¬ c.Sat α :=
  Relation.evaluate_inverse c.relation _ _

end LinearConstraint

end Smtrat.LRA
