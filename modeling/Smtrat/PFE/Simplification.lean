import Smtrat.Datastructures.RemainingBounds
import Smtrat.Logic.Visitor

/-!
# Simplification by factors

A constraint compares a product of factors with zero.  A factor whose sign follows from the bounds
of the variables is cancelled, with the relation turned around where the factor is negative, and an
even power in a strict constraint only has to be different from zero.
-/

namespace Smtrat.PFE

open SparsePoly PropFormula VB List Option

universe u v

/-- `Factorization` -/
abbrev Factorization (V : Type u) := List (Poly V ℚ × ℕ)

/-- The value of a product of powers. -/
noncomputable def Factorization.value {V : Type u} (α : V → ℝ) (factors : Factorization V) : ℝ :=
  (factors.map fun f => Poly.eval α f.1 ^ f.2).prod

/-- What is used of the libraries of formulas, polynomials and intervals. -/
structure Library (V : Type u) (B : Type v) where
  pool : FormulaPool (Atom V B)
  /-- A constraint as it is stored; a constraint without variables is a constant. -/
  constraint : Poly V ℚ → Relation → Formula (Atom V B)
  satisfies_constraint : ∀ (a : Assignment V B) p r,
    a.Satisfies (constraint p r) ↔ r.evaluate (Poly.eval a.arith p) 0
  vars_constraint : ∀ p r q, (constraint p r).Mentions q → ∀ x ∈ q.vars, x ∈ Poly.variables p
  factorization : Constraint V → Factorization V
  value_factorization : ∀ c (α : V → ℝ), (factorization c).value α = Poly.eval α c.lhs
  exponent_pos : ∀ c, ∀ f ∈ factorization c, 0 < f.2
  vars_factorization : ∀ c, ∀ f ∈ factorization c,
    ∀ x ∈ Poly.variables f.1, x ∈ Poly.variables c.lhs
  /-- `IntervalEvaluation::evaluate` -/
  evaluate : Poly V ℚ → (V → Interval) → Interval
  contains_evaluate : ∀ p box (α : V → ℝ), (∀ x ∈ Poly.variables p, (box x).Contains (α x)) →
    (evaluate p box).Contains (Poly.eval α p)
  isPositive : Interval → Bool
  pos_of_isPositive : ∀ i, isPositive i → ∀ r, i.Contains r → 0 < r
  isSemiPositive : Interval → Bool
  nonneg_of_isSemiPositive : ∀ i, isSemiPositive i → ∀ r, i.Contains r → 0 ≤ r
  isNegative : Interval → Bool
  neg_of_isNegative : ∀ i, isNegative i → ∀ r, i.Contains r → r < 0
  isSemiNegative : Interval → Bool
  nonpos_of_isSemiNegative : ∀ i, isSemiNegative i → ∀ r, i.Contains r → r ≤ 0
  isZero : Interval → Bool
  eq_zero_of_isZero : ∀ i, isZero i → ∀ r, i.Contains r → r = 0

variable {V : Type u} {B : Type v}

def pow (p : Poly V ℚ) : ℕ → Poly V ℚ
  | 0 => SparsePoly.Poly.const 1
  | n + 1 => Poly.mul (pow p n) p

def getPoly (its : Factorization V) : Poly V ℚ :=
  its.foldl (fun res it => Poly.mul res (pow it.1 it.2)) (SparsePoly.Poly.const 1)

/-- The first part of `combine`: an even power is not negative. -/
def powerSign (rhs : Relation) (exponent : ℕ) : Relation :=
  if exponent % 2 = 0 then
    match rhs with
    | .leq => .geq
    | .less => .greater
    | rhs => rhs
  else rhs

/-- The second part of `combine`: the sign of the product of two values. -/
def productSign : Relation → Relation → Relation
  | .greater, rhs => rhs
  | .geq, .greater | .geq, .geq => .geq
  | .geq, .leq | .geq, .less => .leq
  | .eq, _ => .eq
  | .leq, .greater | .leq, .geq => .leq
  | .leq, .leq | .leq, .less => .geq
  | .less, .greater => .less
  | .less, .geq => .leq
  | .less, .leq => .geq
  | .less, .less => .greater
  | _, _ => .neq

/-- The sign of a product, from the sign `lhs` of the product of some factors and the sign `rhs` of
one more factor with an exponent. -/
def combine (lhs rhs : Relation) (exponent : ℕ) : Relation :=
  if rhs = .eq then .eq else productSign lhs (powerSign rhs exponent)

section Functions

variable (lib : Library V B) (box : V → Interval)

/-- What the intervals say of the sign of a polynomial. -/
def sign (p : Poly V ℚ) : Option Relation :=
  let i := lib.evaluate p box
  if lib.isPositive i then some .greater
  else if lib.isSemiPositive i then some .geq
  else if lib.isNegative i then some .less
  else if lib.isSemiNegative i then some .leq
  else if lib.isZero i then some .eq
  else none

/-- The sign of the product of the factors with a known sign. -/
def signs (factors : Factorization V) : Relation :=
  factors.foldl (fun qrel it =>
    match sign lib box it.1 with
    | some r => combine qrel r it.2
    | none => qrel) .greater

/-- The constraint on the product of `pq`, whose sign is `qrel`, and `pr`. -/
def cancel (formula : Formula (Atom V B)) (qrel rel : Relation) (pq pr : Poly V ℚ) :
    Formula (Atom V B) :=
  match qrel with
  | .greater => lib.constraint pr rel
  | .geq =>
    match rel with
    | .eq | .geq | .leq => lib.pool.create .or [lib.constraint pq .eq, lib.constraint pr rel]
    | .neq | .greater | .less =>
      lib.pool.create .and [lib.constraint pq .greater, lib.constraint pr rel]
  | .eq => lib.constraint [] rel
  | .leq =>
    match rel with
    | .eq => lib.pool.create .or [lib.constraint pq .eq, lib.constraint pr rel]
    | .neq => lib.pool.create .and [lib.constraint pq .less, lib.constraint pr rel]
    | .geq => lib.pool.create .or [lib.constraint pq .eq, lib.constraint pr .leq]
    | .greater => lib.pool.create .and [lib.constraint pq .less, lib.constraint pr .less]
    | .leq => lib.pool.create .or [lib.constraint pq .eq, lib.constraint pr .geq]
    | .less => lib.pool.create .and [lib.constraint pq .less, lib.constraint pr .greater]
  | .less =>
    match rel with
    | .eq | .neq => lib.constraint pr rel
    | .geq => lib.constraint pr .leq
    | .greater => lib.constraint pr .less
    | .leq => lib.constraint pr .geq
    | .less => lib.constraint pr .greater
  | .neq => formula

def removeFactors : Formula (Atom V B) → Formula (Atom V B)
  | .atom (.constraint c) =>
    let factors := lib.factorization c
    let pq := factors.filter fun it => (sign lib box it.1).isSome
    let pr := factors.filter fun it => (sign lib box it.1).isNone
    if pq.isEmpty then .atom (.constraint c)
    else cancel lib (.atom (.constraint c)) (signs lib box factors) c.relation (getPoly pq)
      (getPoly pr)
  | formula => formula

def removeSquaresFromStrict (c : Constraint V) : Formula (Atom V B) :=
  let factors := lib.factorization c
  let pq := factors.filter fun it => it.2 % 2 = 0
  let pr := factors.filter fun it => it.2 % 2 ≠ 0
  if pq.isEmpty then .atom (.constraint c)
  else lib.pool.create .and
    (pq.map (fun q => lib.constraint q.1 .neq) ++ [lib.constraint (getPoly pr) c.relation])

def removeSquares : Formula (Atom V B) → Formula (Atom V B)
  | .atom (.constraint c) =>
    match c.relation with
    | .greater | .less => removeSquaresFromStrict lib c
    | .eq | .neq | .geq | .leq => .atom (.constraint c)
  | formula => formula

variable [DecidableEq V] [DecidableEq B]

/-- What `checkCore` makes of a received formula. -/
def simplify (formula : Formula (Atom V B)) : Formula (Atom V B) :=
  Formula.visitResult lib.pool (removeSquares lib)
    (Formula.visitResult lib.pool (removeFactors lib box) formula)

end Functions

/-! ## Signs of products -/

theorem eval_pow (α : V → ℝ) (p : Poly V ℚ) (n : ℕ) :
    Poly.eval α (pow p n) = Poly.eval α p ^ n := by
  induction n with
  | zero => simp [pow]
  | succ n ih => rw [pow, Poly.eval_mul, ih, pow_succ]

theorem eval_getPoly (α : V → ℝ) (its : Factorization V) :
    Poly.eval α (getPoly its) = its.value α := by
  have hfold (p : Poly V ℚ) : Poly.eval α (its.foldl (fun res it =>
      Poly.mul res (pow it.1 it.2)) p) = Poly.eval α p * its.value α := by
    induction its generalizing p with
    | nil => simp [Factorization.value]
    | cons it its ih =>
      rw [foldl_cons, ih, Poly.eval_mul, eval_pow, Factorization.value,
        Factorization.value, map_cons, prod_cons, mul_assoc]
  rw [getPoly, hfold]
  simp

/-- A product splits into the product of the factors of one kind and that of the others. -/
theorem value_filter (α : V → ℝ) (q : Poly V ℚ × ℕ → Bool) (factors : Factorization V) :
    factors.value α = Factorization.value α (factors.filter q)
      * Factorization.value α (factors.filter fun f => !q f) := by
  induction factors with
  | nil => simp [Factorization.value]
  | cons f factors ih =>
    rw [Factorization.value] at ih ⊢
    rw [map_cons, prod_cons, ih]
    cases hq : q f with
    | true => simp [Factorization.value, hq, mul_assoc]
    | false => simp [Factorization.value, hq, mul_left_comm]

theorem evaluate_powerSign {r : Relation} {y : ℝ} (hr : r ≠ .neq) (h : r.evaluate y 0) (e : ℕ)
    (hzero : r ≠ .eq) :
    powerSign r e ≠ .neq ∧ powerSign r e ≠ .eq ∧ (powerSign r e).evaluate (y ^ e) 0 := by
  by_cases he : e % 2 = 0
  · rw [powerSign.eq_def, if_pos he]
    have heven : Even e := Nat.even_iff.mpr he
    cases r with
    | eq => exact absurd rfl hzero
    | neq => exact absurd rfl hr
    | less => exact ⟨nofun, nofun, heven.pow_pos (ne_of_lt h)⟩
    | leq => exact ⟨nofun, nofun, heven.pow_nonneg y⟩
    | greater => exact ⟨nofun, nofun, heven.pow_pos (ne_of_gt h)⟩
    | geq => exact ⟨nofun, nofun, heven.pow_nonneg y⟩
  · rw [powerSign.eq_def, if_neg he]
    have hodd : Odd e := Nat.odd_iff.mpr (Nat.mod_two_ne_zero.mp he)
    refine ⟨hr, hzero, ?_⟩
    cases r with
    | eq => exact absurd rfl hzero
    | neq => exact absurd rfl hr
    | less => exact hodd.pow_neg h
    | leq => exact hodd.pow_nonpos h
    | greater => exact pow_pos h e
    | geq => exact pow_nonneg h e

theorem evaluate_productSign {r q : Relation} {x y : ℝ} (hr : r ≠ .neq) (hq : q ≠ .neq)
    (hzero : q ≠ .eq) (hx : r.evaluate x 0) (hy : q.evaluate y 0) :
    productSign r q ≠ .neq ∧ (productSign r q).evaluate (x * y) 0 := by
  cases r with
  | neq => exact absurd rfl hr
  | eq =>
    have hx : x = 0 := hx
    exact ⟨nofun, show x * y = 0 by rw [hx, zero_mul]⟩
  | greater =>
    have hx : 0 < x := hx
    cases q with
    | neq => exact absurd rfl hq
    | eq => exact absurd rfl hzero
    | less => exact ⟨nofun, mul_neg_of_pos_of_neg hx hy⟩
    | leq => exact ⟨nofun, mul_nonpos_of_nonneg_of_nonpos hx.le hy⟩
    | greater => exact ⟨nofun, mul_pos hx hy⟩
    | geq => exact ⟨nofun, mul_nonneg hx.le hy⟩
  | geq =>
    have hx : 0 ≤ x := hx
    cases q with
    | neq => exact absurd rfl hq
    | eq => exact absurd rfl hzero
    | less => exact ⟨nofun, mul_nonpos_of_nonneg_of_nonpos hx (le_of_lt hy)⟩
    | leq => exact ⟨nofun, mul_nonpos_of_nonneg_of_nonpos hx hy⟩
    | greater => exact ⟨nofun, mul_nonneg hx (le_of_lt hy)⟩
    | geq => exact ⟨nofun, mul_nonneg hx hy⟩
  | leq =>
    have hx : x ≤ 0 := hx
    cases q with
    | neq => exact absurd rfl hq
    | eq => exact absurd rfl hzero
    | less => exact ⟨nofun, mul_nonneg_of_nonpos_of_nonpos hx (le_of_lt hy)⟩
    | leq => exact ⟨nofun, mul_nonneg_of_nonpos_of_nonpos hx hy⟩
    | greater => exact ⟨nofun, mul_nonpos_of_nonpos_of_nonneg hx (le_of_lt hy)⟩
    | geq => exact ⟨nofun, mul_nonpos_of_nonpos_of_nonneg hx hy⟩
  | less =>
    have hx : x < 0 := hx
    cases q with
    | neq => exact absurd rfl hq
    | eq => exact absurd rfl hzero
    | less => exact ⟨nofun, mul_pos_of_neg_of_neg hx hy⟩
    | leq => exact ⟨nofun, mul_nonneg_of_nonpos_of_nonpos hx.le hy⟩
    | greater => exact ⟨nofun, mul_neg_of_neg_of_pos hx hy⟩
    | geq => exact ⟨nofun, mul_nonpos_of_nonpos_of_nonneg hx.le hy⟩

theorem evaluate_combine {lhs rhs : Relation} {x y : ℝ} {e : ℕ} (hlhs : lhs ≠ .neq)
    (hrhs : rhs ≠ .neq) (hx : lhs.evaluate x 0) (hy : rhs.evaluate y 0) (he : 0 < e) :
    combine lhs rhs e ≠ .neq ∧ (combine lhs rhs e).evaluate (x * y ^ e) 0 := by
  rw [combine]
  split_ifs with hzero
  · subst hzero
    have hy : y = 0 := hy
    exact ⟨nofun, show x * y ^ e = 0 by rw [hy, zero_pow he.ne', mul_zero]⟩
  · obtain ⟨hneq, heq, hpower⟩ := evaluate_powerSign hrhs hy e hzero
    exact evaluate_productSign hlhs hneq heq hx hpower

section Correctness

variable (lib : Library V B) {box : V → Interval} {α : V → ℝ}

/-- The sign that the intervals give is the sign of the value. -/
theorem evaluate_sign {p : Poly V ℚ} {r : Relation} (h : sign lib box p = some r)
    (hbox : ∀ x ∈ Poly.variables p, (box x).Contains (α x)) :
    r ≠ .neq ∧ r.evaluate (Poly.eval α p) 0 := by
  have hval := lib.contains_evaluate p box α hbox
  rw [sign] at h
  split_ifs at h with hpos hnonneg hneg hnonpos hzero
  · obtain rfl := some.inj h
    exact ⟨nofun, lib.pos_of_isPositive _ hpos _ hval⟩
  · obtain rfl := some.inj h
    exact ⟨nofun, lib.nonneg_of_isSemiPositive _ hnonneg _ hval⟩
  · obtain rfl := some.inj h
    exact ⟨nofun, lib.neg_of_isNegative _ hneg _ hval⟩
  · obtain rfl := some.inj h
    exact ⟨nofun, lib.nonpos_of_isSemiNegative _ hnonpos _ hval⟩
  · obtain rfl := some.inj h
    exact ⟨nofun, lib.eq_zero_of_isZero _ hzero _ hval⟩

theorem evaluate_signs {factors : Factorization V} (hpos : ∀ f ∈ factors, 0 < f.2)
    (hbox : ∀ f ∈ factors, ∀ x ∈ Poly.variables f.1, (box x).Contains (α x)) :
    signs lib box factors ≠ .neq ∧ (signs lib box factors).evaluate
      (Factorization.value α (factors.filter fun it => (sign lib box it.1).isSome)) 0 := by
  have hfold (q : Relation) (x : ℝ) (hq : q ≠ .neq) (hx : q.evaluate x 0) :
      factors.foldl (fun qrel it => match sign lib box it.1 with
        | some r => combine qrel r it.2
        | none => qrel) q ≠ .neq ∧
      Relation.evaluate (factors.foldl (fun qrel it => match sign lib box it.1 with
        | some r => combine qrel r it.2
        | none => qrel) q) (x * Factorization.value α
          (factors.filter fun it => (sign lib box it.1).isSome)) 0 := by
    induction factors generalizing q x with
    | nil => exact ⟨hq, by simpa [Factorization.value] using hx⟩
    | cons f factors ih =>
      have ih := ih (fun g hg => hpos g (mem_cons_of_mem _ hg))
        fun g hg => hbox g (mem_cons_of_mem _ hg)
      rw [foldl_cons]
      cases hsign : sign lib box f.1 with
      | none =>
        rw [filter_cons_of_neg (by simp [hsign])]
        exact ih q x hq hx
      | some r =>
        obtain ⟨hr, hval⟩ := evaluate_sign lib hsign (hbox f mem_cons_self)
        obtain ⟨hq', hx'⟩ := evaluate_combine hq hr hx hval (hpos f mem_cons_self)
        rw [filter_cons_of_pos (by simp [hsign]), Factorization.value, map_cons,
          prod_cons, ← mul_assoc]
        exact ih _ _ hq' hx'
  obtain ⟨hne, hval⟩ := hfold .greater 1 nofun one_pos
  rw [one_mul] at hval
  exact ⟨hne, hval⟩

/-! ## Cancelling factors -/

variable (a : Assignment V B) (f : Formula (Atom V B))

theorem satisfies_or (g : Formula (Atom V B)) :
    a.Satisfies (lib.pool.create .or [f, g]) ↔ a.Satisfies f ∨ a.Satisfies g := by
  rw [satisfies_create, satisfies_app_or]
  simp

theorem satisfies_and (g : Formula (Atom V B)) :
    a.Satisfies (lib.pool.create .and [f, g]) ↔ a.Satisfies f ∧ a.Satisfies g := by
  rw [satisfies_create, satisfies_app_and]
  simp

/-- A factor whose sign is known is cancelled. -/
theorem satisfies_cancel {qrel rel : Relation}
    {pq pr : Poly V ℚ} (hne : qrel ≠ .neq) (h : qrel.evaluate (Poly.eval a.arith pq) 0) :
    a.Satisfies (cancel lib f qrel rel pq pr) ↔
      rel.evaluate (Poly.eval a.arith pq * Poly.eval a.arith pr) 0 := by
  have hor := satisfies_or lib a
  have hand := satisfies_and lib a
  have hcon := lib.satisfies_constraint a
  generalize hq : Poly.eval a.arith pq = q at h ⊢
  generalize hs : Poly.eval a.arith pr = s
  have hpos (hpos : 0 < q) : rel.evaluate (q * s) 0 ↔ rel.evaluate s 0 := evaluate_mul_pos hpos rel
  have hneg (hneg : q < 0) : rel.evaluate (q * s) 0 ↔ rel.evaluate (-s) 0 := by
    rw [← evaluate_mul_pos (neg_pos.mpr hneg) rel (d := -s), neg_mul_neg]
  have hzero (hzero : q = 0) : rel.evaluate (q * s) 0 ↔ rel.evaluate (0 : ℝ) 0 := by
    rw [hzero, zero_mul]
  cases qrel with
  | neq => exact absurd rfl hne
  | greater =>
    rw [cancel, hcon, hs, hpos h]
  | eq =>
    rw [cancel, hcon, hzero h, Poly.eval_nil]
  | less =>
    have h : q < 0 := h
    rw [hneg h]
    cases rel <;> simp [cancel, hcon, hs, Relation.evaluate]
  | geq =>
    rcases eq_or_lt_of_le (show 0 ≤ q from h) with h | h
    · rw [hzero h.symm]
      cases rel <;> simp [cancel, hor, hand, hcon, hq, ← h, Relation.evaluate]
    · rw [hpos h]
      cases rel <;> simp [cancel, hor, hand, hcon, hq, hs, h, h.ne', Relation.evaluate]
  | leq =>
    rcases eq_or_lt_of_le (show q ≤ 0 from h) with h | h
    · rw [hzero h]
      cases rel <;> simp [cancel, hor, hand, hcon, hq, h, Relation.evaluate]
    · rw [hneg h]
      cases rel <;> simp [cancel, hor, hand, hcon, hq, hs, h, h.ne, Relation.evaluate]

theorem satisfies_removeFactors
    (hbox : ∀ p, f.Mentions p → ∀ x ∈ p.vars, (box x).Contains (a.arith x)) :
    a.Satisfies (removeFactors lib box f) ↔ a.Satisfies f := by
  rw [removeFactors.eq_def]
  split
  · next c =>
      dsimp only
      split_ifs
      · rfl
      · have hvars : ∀ g ∈ lib.factorization c, ∀ x ∈ Poly.variables g.1,
            (box x).Contains (a.arith x) := fun g hg x hx =>
          hbox (.constraint c) ((Formula.mentions_atom _ _).mpr rfl) x
            (lib.vars_factorization c g hg x hx)
        obtain ⟨hne, hsign⟩ := evaluate_signs lib (lib.exponent_pos c) hvars
        rw [← eval_getPoly] at hsign
        have hsplit := value_filter a.arith (fun it => (sign lib box it.1).isSome)
          (lib.factorization c)
        simp only [not_isSome] at hsplit
        rw [satisfies_cancel lib a _ hne hsign, eval_getPoly, eval_getPoly, satisfies_atom,
          Atom.Holds, Constraint.Sat, ← lib.value_factorization c, hsplit]
  · rfl

/-- A product of even powers is positive if no factor vanishes, and zero otherwise. -/
theorem value_even (α : V → ℝ) (factors : Factorization V) (heven : ∀ f ∈ factors, f.2 % 2 = 0)
    (hpos : ∀ f ∈ factors, 0 < f.2) :
    (∀ f ∈ factors, Poly.eval α f.1 ≠ 0) ∧ 0 < factors.value α ∨
      ¬ (∀ f ∈ factors, Poly.eval α f.1 ≠ 0) ∧ factors.value α = 0 := by
  by_cases h : ∀ f ∈ factors, Poly.eval α f.1 ≠ 0
  · refine .inl ⟨h, prod_pos fun x hx => ?_⟩
    obtain ⟨f, hf, rfl⟩ := List.mem_map.mp hx
    exact (Nat.even_iff.mpr (heven f hf)).pow_pos (h f hf)
  · obtain ⟨f, hf⟩ := not_forall.mp h
    obtain ⟨hf, hzero⟩ := Classical.not_imp.mp hf
    refine .inr ⟨h, prod_eq_zero (List.mem_map.mpr ⟨f, hf, ?_⟩)⟩
    rw [not_not.mp hzero, zero_pow (hpos f hf).ne']

theorem satisfies_removeSquaresFromStrict {c : Constraint V}
    (hc : c.relation = .greater ∨ c.relation = .less) :
    a.Satisfies (removeSquaresFromStrict lib c) ↔ c.Sat a.arith := by
  rw [removeSquaresFromStrict]
  split_ifs
  · exact satisfies_atom a _
  · have hsplit := value_filter a.arith (fun it => it.2 % 2 = 0) (lib.factorization c)
    have hother : ((lib.factorization c).filter fun it => !decide (it.2 % 2 = 0))
        = (lib.factorization c).filter fun it => it.2 % 2 ≠ 0 :=
      filter_congr fun it _ => (decide_not (p := it.2 % 2 = 0)).symm
    rw [hother] at hsplit
    rw [satisfies_create, satisfies_app_and, forall_mem_append, List.forall_mem_map,
      forall_mem_singleton, lib.satisfies_constraint, eval_getPoly, Constraint.Sat,
      ← lib.value_factorization c, hsplit]
    simp only [lib.satisfies_constraint]
    have heven := value_even a.arith ((lib.factorization c).filter fun it => it.2 % 2 = 0)
      (fun f hf => by simpa using (mem_filter.mp hf).2)
      fun f hf => lib.exponent_pos c f (mem_filter.mp hf).1
    rcases heven with ⟨hne, hpos⟩ | ⟨hzero, hval⟩
    · rw [evaluate_mul_pos hpos]
      exact and_iff_right hne
    · rw [hval, zero_mul]
      refine iff_of_false (fun h => hzero h.1) ?_
      rcases hc with hc | hc
      · rw [hc]
        exact lt_irrefl 0
      · rw [hc]
        exact lt_irrefl 0

theorem satisfies_removeSquares : a.Satisfies (removeSquares lib f) ↔ a.Satisfies f := by
  rw [removeSquares.eq_def]
  split
  · next c =>
      rw [satisfies_atom, Atom.Holds]
      cases hc : c.relation with
      | greater => exact satisfies_removeSquaresFromStrict lib a (.inl hc)
      | less => exact satisfies_removeSquaresFromStrict lib a (.inr hc)
      | _ => exact satisfies_atom a _
  · rfl

/-! ## Variables -/

omit lib in
theorem mem_variables_mul {p q : Poly V ℚ} {x : V} (h : x ∈ Poly.variables (Poly.mul p q)) :
    x ∈ Poly.variables p ∨ x ∈ Poly.variables q := by
  obtain ⟨t, ht, hx⟩ := mem_flatMap.mp h
  obtain ⟨s, hs, ht⟩ := mem_flatMap.mp ht
  obtain ⟨u, hu, rfl⟩ := List.mem_map.mp ht
  rw [map_append] at hx
  rcases mem_append.mp hx with hx | hx
  · exact .inl (mem_flatMap.mpr ⟨s, hs, hx⟩)
  · exact .inr (mem_flatMap.mpr ⟨u, hu, hx⟩)

theorem not_mem_variables_const (r : ℚ) (x : V) :
    x ∉ Poly.variables (SparsePoly.Poly.const r : Poly V ℚ) := by
  simp [Poly.variables, SparsePoly.Poly.const]

theorem mem_variables_pow {p : Poly V ℚ} {n : ℕ} {x : V} (h : x ∈ Poly.variables (pow p n)) :
    x ∈ Poly.variables p := by
  induction n with
  | zero => exact absurd h (not_mem_variables_const 1 x)
  | succ n ih => exact (mem_variables_mul h).elim ih id

theorem mem_variables_getPoly {its : Factorization V} {x : V}
    (h : x ∈ Poly.variables (getPoly its)) : ∃ it ∈ its, x ∈ Poly.variables it.1 := by
  have hfold (its : Factorization V) (p : Poly V ℚ) (h : x ∈ Poly.variables (its.foldl (fun res it =>
      Poly.mul res (pow it.1 it.2)) p)) :
      x ∈ Poly.variables p ∨ ∃ it ∈ its, x ∈ Poly.variables it.1 := by
    induction its generalizing p with
    | nil => exact .inl h
    | cons it its ih =>
      rcases ih _ h with hx | ⟨it', hmem, hx⟩
      · rcases mem_variables_mul hx with hx | hx
        · exact .inl hx
        · exact .inr ⟨it, mem_cons_self, mem_variables_pow hx⟩
      · exact .inr ⟨it', mem_cons_of_mem _ hmem, hx⟩
  exact (hfold its _ h).resolve_left (not_mem_variables_const 1 x)

/-- The constraints after a cancellation are about the two products. -/
theorem mentions_cancel {f : Formula (Atom V B)} {qrel rel : Relation} {pq pr : Poly V ℚ}
    (hne : qrel ≠ .neq) {q : Atom V B} (h : (cancel lib f qrel rel pq pr).Mentions q) {x : V}
    (hx : x ∈ q.vars) : x ∈ Poly.variables pq ∨ x ∈ Poly.variables pr := by
  have hcon {p : Poly V ℚ} {r : Relation} (h : (lib.constraint p r).Mentions q) :
      x ∈ Poly.variables p := lib.vars_constraint p r q h x hx
  have hcrea {c : Connective} {r r' : Relation}
      (h : (lib.pool.create c [lib.constraint pq r, lib.constraint pr r']).Mentions q) :
      x ∈ Poly.variables pq ∨ x ∈ Poly.variables pr := by
    obtain ⟨g, hg, h⟩ := lib.pool.mentions_create h
    rcases mem_pair.mp hg with rfl | rfl
    · exact .inl (hcon h)
    · exact .inr (hcon h)
  cases qrel with
  | neq => exact absurd rfl hne
  | greater => exact .inr (hcon h)
  | eq => exact absurd (hcon h) (by simp [Poly.variables])
  | less => cases rel <;> exact .inr (hcon h)
  | geq => cases rel <;> exact hcrea h
  | leq => cases rel <;> exact hcrea h

theorem mentions_removeFactors {Q : V → Prop} {f : Formula (Atom V B)}
    (hf : ∀ p, f.Mentions p → ∀ x ∈ p.vars, Q x) (hbox : ∀ x, Q x → (box x).Contains (α x)) :
    ∀ p, (removeFactors lib box f).Mentions p → ∀ x ∈ p.vars, Q x := by
  rw [removeFactors.eq_def]
  split
  · next c =>
      dsimp only
      split_ifs
      · exact hf
      · intro p hp x hx
        have hfac {f} (hmem : f ∈ lib.factorization c) {x : V} (hx : x ∈ Poly.variables f.1) :
            Q x :=
          hf (.constraint c) ((Formula.mentions_atom _ _).mpr rfl) x
            (lib.vars_factorization c f hmem x hx)
        obtain ⟨hne, -⟩ := evaluate_signs lib (lib.exponent_pos c)
          fun f hmem x hx => hbox x (hfac hmem hx)
        rcases mentions_cancel lib hne hp hx with hx | hx
        · obtain ⟨f, hmem, hx⟩ := mem_variables_getPoly hx
          exact hfac (mem_filter.mp hmem).1 hx
        · obtain ⟨f, hmem, hx⟩ := mem_variables_getPoly hx
          exact hfac (mem_filter.mp hmem).1 hx
  · exact hf

/-- A simplification keeps the truth of a formula where the values of its variables are in their
intervals. -/
theorem satisfies_simplify [DecidableEq V] [DecidableEq B] (a : Assignment V B)
    (f : Formula (Atom V B)) (hbox : ∀ x ∈ gatherVariables f, (box x).Contains (a.arith x)) :
    a.Satisfies (simplify lib box f) ↔ a.Satisfies f := by
  classical
  have hfacs := Formula.visitResult_spec lib.pool (removeFactors lib box)
    (fun p => decide (p.Holds a)) (fun p => ∀ x ∈ p.vars, (box x).Contains (a.arith x))
    (fun f hf => ⟨Bool.eq_iff_iff.mpr (satisfies_removeFactors lib a f hf),
      mentions_removeFactors lib hf fun _ => id⟩) f
    fun p hp x hx => hbox x (mem_flatMap.mpr ⟨p, (Formula.mem_atoms p f).mpr hp, hx⟩)
  have hsqs := Formula.visitResult_spec lib.pool (removeSquares lib)
    (fun p => decide (p.Holds a)) (fun _ => True)
    (fun f _ => ⟨Bool.eq_iff_iff.mpr (satisfies_removeSquares lib a f), fun _ _ => trivial⟩)
    (Formula.visitResult lib.pool (removeFactors lib box) f) fun _ _ => trivial
  exact Bool.eq_iff_iff.mp (hsqs.1.trans hfacs.1)

end Correctness

end Smtrat.PFE
