import Smtrat.Math.Combination
import Smtrat.Math.Instances

/-!
# Linear polynomials

A linear polynomial is a sparse combination of variables and a constant.  No variable is repeated
and no coefficient is zero, so a variable occurs if and only if the value depends on it.
-/

universe u

/-- A linear polynomial with rational coefficients. -/
structure LinearPolynomial (V : Type u) where
  terms : List (V × ℚ)
  constantPart : ℚ
  keys_nodup : (terms.map Prod.fst).Nodup
  coeff_ne_zero : ∀ t ∈ terms, t.2 ≠ 0
deriving DecidableEq

namespace LinearPolynomial

open Combination List

variable {V : Type u}

/-- The value of a polynomial. -/
noncomputable def eval (α : V → ℝ) (p : LinearPolynomial V) : ℝ :=
  Combination.eval α p.terms + p.constantPart

def vars (p : LinearPolynomial V) : List V := p.terms.map Prod.fst

variable {p : LinearPolynomial V}

/-- The value depends on the variables only. -/
theorem eval_congr {α β : V → ℝ} (h : ∀ x ∈ p.vars, α x = β x) : p.eval α = p.eval β := by
  rw [eval, eval, Combination.eval_congr fun t ht => h t.1 (mem_map_of_mem ht)]

def const (c : ℚ) : LinearPolynomial V := ⟨[], c, nodup_nil, nofun⟩

/-- A polynomial without variables. -/
def isConstant (p : LinearPolynomial V) : Bool := p.terms.isEmpty

theorem eval_of_isConstant (h : p.isConstant) (α : V → ℝ) : p.eval α = p.constantPart := by
  rw [eval, List.isEmpty_iff.mp h, Combination.eval_nil, zero_add]

def neg (p : LinearPolynomial V) : LinearPolynomial V where
  terms := scale (-1) p.terms
  constantPart := -p.constantPart
  keys_nodup := by
    rw [scale_keys]
    exact p.keys_nodup
  coeff_ne_zero := by
    rintro _ ht
    obtain ⟨t, hmem, rfl⟩ := mem_map.mp ht
    exact mul_ne_zero (neg_ne_zero.mpr one_ne_zero) (p.coeff_ne_zero t hmem)

@[simp] theorem eval_neg (α : V → ℝ) (p : LinearPolynomial V) : p.neg.eval α = -p.eval α := by
  rw [eval, eval, neg, eval_scale, neg_smul, one_smul]
  push_cast
  ring

@[simp] theorem vars_neg (p : LinearPolynomial V) : p.neg.vars = p.vars :=
  scale_keys (-1) p.terms

/-- A polynomial divided by a number other than zero. -/
def divide (k : ℚ) (p : LinearPolynomial V) : LinearPolynomial V where
  terms := if k = 0 then p.terms else scale k⁻¹ p.terms
  constantPart := p.constantPart / k
  keys_nodup := by
    split_ifs
    · exact p.keys_nodup
    · exact (scale_keys k⁻¹ p.terms).symm ▸ p.keys_nodup
  coeff_ne_zero := by
    intro t ht
    split_ifs at ht with hk
    · exact p.coeff_ne_zero t ht
    · obtain ⟨s, hs, rfl⟩ := mem_map.mp ht
      exact mul_ne_zero (inv_ne_zero hk) (p.coeff_ne_zero s hs)

/-- A constant added to a polynomial. -/
def addConstant (c : ℚ) (p : LinearPolynomial V) : LinearPolynomial V :=
  { p with constantPart := p.constantPart + c }

/-- The sum of some of the terms. -/
def filterTerms (keep : V × ℚ → Bool) (p : LinearPolynomial V) : LinearPolynomial V where
  terms := p.terms.filter keep
  constantPart := 0
  keys_nodup := p.keys_nodup.sublist (filter_sublist.map Prod.fst)
  coeff_ne_zero := fun t ht => p.coeff_ne_zero t (mem_of_mem_filter ht)

variable [DecidableEq V]

def hasVariable (x : V) (p : LinearPolynomial V) : Bool := x ∈ p.vars

/-- The coefficient of a variable, zero if it does not occur. -/
def coefficient (x : V) (p : LinearPolynomial V) : ℚ := (find x p.terms).getD 0

/-- The polynomial without the term of a variable. -/
def erase (x : V) (p : LinearPolynomial V) : LinearPolynomial V where
  terms := others x p.terms
  constantPart := p.constantPart
  keys_nodup := p.keys_nodup.sublist (others_keys_sublist x p.terms)
  coeff_ne_zero := fun t ht => p.coeff_ne_zero t (mem_others.mp ht).1

/-- A multiple of one polynomial added to another. -/
def addMultiple (k : ℚ) (hk : k ≠ 0) (q p : LinearPolynomial V) : LinearPolynomial V where
  terms := addScaled (fun _ _ => true) k q.terms p.terms
  constantPart := p.constantPart + k * q.constantPart
  keys_nodup := nodup_addScaled p.keys_nodup
  coeff_ne_zero := by
    rintro t ht
    rcases mem_of_mem_addScaled hk q.coeff_ne_zero ht with ⟨-, hne⟩ | hmem
    · exact hne
    · exact p.coeff_ne_zero t hmem

/-- A multiple of a variable added to a polynomial. -/
def addTerm (k : ℚ) (x : V) (p : LinearPolynomial V) : LinearPolynomial V where
  terms := if k = 0 then p.terms else addToEntry (fun _ _ => true) x k p.terms
  constantPart := p.constantPart
  keys_nodup := by
    split_ifs
    · exact p.keys_nodup
    · exact nodup_addToEntry p.keys_nodup
  coeff_ne_zero := by
    rintro ⟨y, a⟩ ht
    split_ifs at ht with hk
    · exact p.coeff_ne_zero _ ht
    · rcases mem_of_mem_addToEntry ht with ⟨-, rfl | hne⟩ | hmem
      · exact hk
      · exact hne
      · exact p.coeff_ne_zero _ hmem

def sub (p q : LinearPolynomial V) : LinearPolynomial V :=
  addMultiple (-1) (neg_ne_zero.mpr one_ne_zero) q p

/-- A polynomial is put in the place of a variable. -/
def substitute (x : V) (q p : LinearPolynomial V) : LinearPolynomial V :=
  if h : p.coefficient x = 0 then p else addMultiple (p.coefficient x) h q (p.erase x)

/-! ## Values -/

variable {x : V}

theorem hasVariable_iff : p.hasVariable x ↔ p.coefficient x ≠ 0 := by
  rw [hasVariable, decide_eq_true_eq, coefficient, vars]
  cases h : find x p.terms with
  | none =>
    rw [find_eq_none] at h
    exact iff_of_false h fun hne => hne rfl
  | some a =>
    have hmem := mem_of_find h
    exact iff_of_true (mem_map_of_mem hmem) (p.coeff_ne_zero _ hmem)

/-- A polynomial splits into the term of a variable and the rest. -/
theorem eval_split (x : V) (p : LinearPolynomial V) (α : V → ℝ) :
    p.eval α = p.coefficient x * α x + (p.erase x).eval α := by
  rw [eval, eval, coefficient, erase]
  dsimp only
  cases h : find x p.terms with
  | none =>
    rw [others_eq_self (find_eq_none.mp h)]
    simp
  | some a =>
    rw [eval_of_mem p.keys_nodup (mem_of_find h), Option.getD_some, Rat.smul_def]
    ring

variable {k : ℚ}

/-- A variable that does not occur yet gets a term of its own. -/
theorem addTerm_perm (hk : k ≠ 0) (hx : x ∉ p.vars) :
    (p.addTerm k x).terms.Perm ((x, k) :: p.terms) := by
  have hkey : x ∉ p.terms.map Prod.fst := hx
  simp only [addTerm, if_neg hk, addToEntry, if_neg hkey]
  exact insertEntry_perm _ _ _

theorem mem_vars_erase {y : V} : y ∈ (p.erase x).vars ↔ y ∈ p.vars ∧ y ≠ x := by
  rw [vars, vars, mem_map, mem_map]
  constructor
  · rintro ⟨t, ht, rfl⟩
    obtain ⟨hmem, hne⟩ := mem_others.mp ht
    exact ⟨⟨t, hmem, rfl⟩, hne⟩
  · rintro ⟨⟨t, ht, rfl⟩, hne⟩
    exact ⟨t, mem_others.mpr ⟨ht, hne⟩, rfl⟩

@[simp] theorem eval_addMultiple (α : V → ℝ) (hk : k ≠ 0) (q p : LinearPolynomial V) :
    (addMultiple k hk q p).eval α = p.eval α + k * q.eval α := by
  rw [eval, eval, eval, addMultiple, eval_addScaled, Rat.smul_def]
  push_cast
  ring

@[simp] theorem eval_sub (α : V → ℝ) (p q : LinearPolynomial V) :
    (p.sub q).eval α = p.eval α - q.eval α := by
  rw [sub, eval_addMultiple]
  push_cast
  ring

theorem vars_addMultiple (hk : k ≠ 0) {q : LinearPolynomial V}
    (h : x ∈ (addMultiple k hk q p).vars) : x ∈ q.vars ∨ x ∈ p.vars := by
  obtain ⟨t, ht, rfl⟩ := mem_map.mp h
  rcases mem_of_mem_addScaled hk q.coeff_ne_zero ht with ⟨hkey, -⟩ | hmem
  · exact Or.inl hkey
  · exact Or.inr (mem_map_of_mem hmem)

theorem vars_sub {q : LinearPolynomial V} (h : x ∈ (p.sub q).vars) :
    x ∈ p.vars ∨ x ∈ q.vars := (vars_addMultiple _ h).symm

end LinearPolynomial
