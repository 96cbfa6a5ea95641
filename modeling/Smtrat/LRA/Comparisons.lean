import Smtrat.LRA.Variables

/-!
# The bounds of a constraint

A constraint compares the variable of its left-hand side with a number, and the comparison is
turned around when the left-hand side is a negative multiple of the variable's form.  The bounds
that are created for a constraint and for its negation are described by the relation they stand
for.
-/

namespace Smtrat
open List

/-- The relation of an inequality. -/
def Relation.IsInequality (r : Relation) : Prop := r ≠ .eq ∧ r ≠ .neq

theorem Relation.IsInequality.inverse {r : Relation} (h : r.IsInequality) :
    r.inverse.IsInequality := by
  obtain ⟨heq, hneq⟩ := h
  cases r with
  | eq => exact absurd rfl heq
  | neq => exact absurd rfl hneq
  | leq | geq | less | greater => constructor <;> decide

namespace LRA

open Combination

/-! ## Bounds for comparisons -/

namespace Bound

/-- An upper or a lower bound. -/
def directed (upper : Bool) (v : VarId) (limit : Value ℚ) : Bound :=
  ⟨v, if upper then .upper else .lower, some limit⟩

/-- The limits next to `x` that exclude it. -/
def strictLimit (upper integerValued : Bool) (x : ℚ) : Value ℚ :=
  if upper then Tableau.strictlyBelow integerValued x else Tableau.strictlyAbove integerValued x

variable {upper integerValued : Bool} {v : VarId} {x : ℚ} {y : ℝ}

theorem strictLimit_not : strictLimit (!upper) integerValued x =
    if upper then Tableau.strictlyAbove integerValued x
    else Tableau.strictlyBelow integerValued x := by
  cases upper <;> rfl

theorem holds_weak : (directed upper v ⟨x, 0⟩).Holds (Value.ofReal y) ↔
    (if upper then Relation.leq else .geq).evaluate y x := by
  cases upper with
  | true =>
    show Value.ofReal y ≤ Value.toReal ⟨x, 0⟩ ↔ y ≤ x
    rw [Value.le_def, le_iff_lt_or_eq (a := y)]
    simp
  | false =>
    show Value.toReal ⟨x, 0⟩ ≤ Value.ofReal y ↔ x ≤ y
    rw [Value.le_def, le_iff_lt_or_eq (b := y)]
    simp

/-- Between integers, a bound moved by one is strict. -/
theorem holds_strict (hint : integerValued = true → (∃ m : ℤ, x = m) ∧ ∃ n : ℤ, y = n) :
    (directed upper v (strictLimit upper integerValued x)).Holds (Value.ofReal y) ↔
      (if upper then Relation.less else .greater).evaluate y x := by
  cases integerValued with
  | false =>
    cases upper with
    | true => exact holds_upper_strict
    | false => exact holds_lower_strict
  | true =>
    obtain ⟨⟨m, rfl⟩, n, rfl⟩ := hint rfl
    cases upper with
    | true =>
      have hweak : (directed true v ⟨m - 1, 0⟩).Holds (Value.ofReal n) ↔ _ := holds_weak
      refine hweak.trans ?_
      show (n : ℝ) ≤ ((m - 1 : ℚ) : ℝ) ↔ (n : ℝ) < ((m : ℚ) : ℝ)
      norm_cast
      exact Int.le_sub_one_iff
    | false =>
      have hweak : (directed false v ⟨m + 1, 0⟩).Holds (Value.ofReal n) ↔ _ := holds_weak
      refine hweak.trans ?_
      show ((m + 1 : ℚ) : ℝ) ≤ (n : ℝ) ↔ ((m : ℚ) : ℝ) < (n : ℝ)
      norm_cast

end Bound

namespace RowSystem.Reference

/-- The bound which says that the left-hand side is related to zero. -/
def bound (ref : Reference) (integerValued : Bool) : Relation → Bound
  | .eq | .neq => ⟨ref.var, .equal, some ⟨ref.boundValue, 0⟩⟩
  | .leq => .directed (!ref.negative) ref.var ⟨ref.boundValue, 0⟩
  | .geq => .directed ref.negative ref.var ⟨ref.boundValue, 0⟩
  | .less => .directed (!ref.negative) ref.var
      (Bound.strictLimit (!ref.negative) integerValued ref.boundValue)
  | .greater => .directed ref.negative ref.var
      (Bound.strictLimit ref.negative integerValued ref.boundValue)

variable {ref : Reference} {integerValued : Bool} {r : Relation} {y : ℝ}

theorem bound_var : (ref.bound integerValued r).var = ref.var := by
  cases r <;> rfl

theorem holds_bound (hr : r ≠ .neq)
    (hint : integerValued = true → (∃ m : ℤ, ref.boundValue = m) ∧ ∃ n : ℤ, y = n) :
    (ref.bound integerValued r).Holds (Value.ofReal y) ↔
      (if ref.negative then r.turnAroundRelation else r).evaluate y ref.boundValue := by
  cases r with
  | eq =>
    have hturn : (if ref.negative then Relation.eq.turnAroundRelation else .eq) = .eq :=
      ite_self _
    rw [hturn]
    show Value.ofReal y = Value.toReal ⟨ref.boundValue, 0⟩ ↔ y = ref.boundValue
    simp [Value.ext_iff]
  | neq => exact absurd rfl hr
  | leq =>
    refine Bound.holds_weak.trans ?_
    cases ref.negative <;> rfl
  | geq =>
    refine Bound.holds_weak.trans ?_
    cases ref.negative <;> rfl
  | less =>
    refine (Bound.holds_strict hint).trans ?_
    cases ref.negative <;> rfl
  | greater =>
    refine (Bound.holds_strict hint).trans ?_
    cases ref.negative <;> rfl

end RowSystem.Reference

/-! ## Constraints as comparisons -/

namespace LinearConstraint

/-- A constraint compares the value of the slack form with a number. -/
theorem sat_iff_slackForm (c : LinearConstraint) (α : Assignment) : c.Sat α ↔
    (if c.lhs.negative then c.relation.turnAroundRelation else c.relation).evaluate
      (c.lhs.slackForm.eval α.val) ((-(c.constantPart * c.lhs.slackFactor) : ℚ) : ℝ) := by
  have hne : ((c.lhs.slackFactor⁻¹ : ℚ) : ℝ) ≠ 0 :=
    Rat.cast_ne_zero.mpr (inv_ne_zero c.lhs.slackFactor_ne_zero)
  have hlhs : c.lhs.eval α.val + c.constantPart = ((c.lhs.slackFactor⁻¹ : ℚ) : ℝ) *
      (c.lhs.slackForm.eval α.val - ((-(c.constantPart * c.lhs.slackFactor) : ℚ) : ℝ)) := by
    have hfac : (c.lhs.slackFactor : ℝ) ≠ 0 :=
      Rat.cast_ne_zero.mpr c.lhs.slackFactor_ne_zero
    rw [LinearForm.slackForm, LinearForm.eval_smul, Rat.smul_def]
    push_cast
    field_simp
    ring
  have hsign : ((c.lhs.slackFactor⁻¹ : ℚ) : ℝ) < 0 ↔ c.lhs.negative = true := by
    rw [Rat.cast_lt_zero, inv_lt_zero, LinearForm.slackFactor]
    split_ifs with hneg
    · simpa [hneg] using c.lhs.coprimeFactor_pos
    · simpa [hneg] using c.lhs.coprimeFactor_pos.le
  rw [Sat, hlhs, Relation.evaluate_mul_zero _ hne, Relation.evaluate_sub_zero]
  simp only [hsign]

/-- A disequality is satisfied in one of its strict halves. -/
theorem sat_neq_iff {c : LinearConstraint} (hc : c.relation = .neq) {α : Assignment} :
    c.Sat α ↔ (c.withRelation .less).Sat α ∨ (c.withRelation .greater).Sat α := by
  rw [Sat, hc]
  exact ne_iff_lt_or_gt

/-- The numbers that are compared are integers if the left-hand side is integer-valued. -/
theorem integral_slackForm {c : LinearConstraint} (hc : c.integerValued = true) (α : Assignment) :
    (∃ m : ℤ, -(c.constantPart * c.lhs.slackFactor) = m) ∧
      ∃ n : ℤ, c.lhs.slackForm.eval α.val = n := by
  constructor
  · have hden := Rat.coe_int_num_of_den_eq_one (c.integral hc)
    rw [LinearForm.slackFactor]
    split_ifs
    · exact ⟨_, by rw [mul_neg, neg_neg, ← hden]⟩
    · exact ⟨-(c.constantPart * c.lhs.coprimeFactor).num, by rw [Int.cast_neg, hden]⟩
  · have hvars : c.lhs.slackForm.integerValued = true := by
      rw [LinearForm.integerValued, all_eq_true]
      intro t ht
      obtain ⟨s, hs, rfl⟩ := mem_map.mp ht
      exact all_eq_true.mp hc s hs
    exact LinearForm.exists_int_eval hvars (fun t ht => c.lhs.slackForm_coeff_integer ht) α

end LinearConstraint

/-! ## What is registered for a constraint -/

namespace RowSystem.Reference

/-- The bound of a disequality for one of its strict halves.  The limit of an integer-valued
left-hand side does not depend on the sign of the factor. -/
def neqBound (ref : Reference) (integerValued upper : Bool) : Bound :=
  .directed (if upper then !ref.negative else ref.negative) ref.var
    (Bound.strictLimit (if integerValued then upper
      else if upper then !ref.negative else ref.negative) integerValued ref.boundValue)

/-- The four bounds of a disequality. -/
def neqBounds (ref : Reference) (integerValued : Bool) : List Bound :=
  [ref.neqBound integerValued true, ref.bound false .leq, ref.bound false .geq,
    ref.neqBound integerValued false]

/-- The constraints that are registered with a new one, with their bounds. -/
def entries (ref : Reference) (c : LinearConstraint) : List (LinearConstraint × List Bound) :=
  match c.relation with
  | .eq => [(c, [ref.bound false .eq])]
  | .neq => [(c, ref.neqBounds c.integerValued),
      (c.withRelation .less, [ref.neqBound c.integerValued true]),
      (c.withRelation .leq, [ref.bound false .leq]),
      (c.withRelation .geq, [ref.bound false .geq]),
      (c.withRelation .greater, [ref.neqBound c.integerValued false])]
  | r => [(c, [ref.bound false r]), (c.negated, [ref.bound c.integerValued r.inverse])]

/-- The bounds that get a complement. -/
def complements (ref : Reference) (c : LinearConstraint) : List (Bound × Bound) :=
  match c.relation with
  | .eq => []
  | .neq => [(ref.neqBound c.integerValued true, ref.bound false .geq),
      (ref.bound false .leq, ref.neqBound c.integerValued false),
      (ref.bound false .geq, ref.neqBound c.integerValued true),
      (ref.neqBound c.integerValued false, ref.bound false .leq)]
  | r => [(ref.bound false r, ref.bound c.integerValued r.inverse),
      (ref.bound c.integerValued r.inverse, ref.bound false r)]

theorem entries_of_inequality (ref : Reference) {c : LinearConstraint}
    (hc : c.relation.IsInequality) : ref.entries c = [(c, [ref.bound false c.relation]),
      (c.negated, [ref.bound c.integerValued c.relation.inverse])] := by
  obtain ⟨heq, hneq⟩ := hc
  rw [entries]
  cases hrel : c.relation with
  | eq => exact absurd hrel heq
  | neq => exact absurd hrel hneq
  | leq | geq | less | greater => rfl

theorem complements_of_inequality (ref : Reference) {c : LinearConstraint}
    (hc : c.relation.IsInequality) : ref.complements c =
      [(ref.bound false c.relation, ref.bound c.integerValued c.relation.inverse),
        (ref.bound c.integerValued c.relation.inverse, ref.bound false c.relation)] := by
  obtain ⟨heq, hneq⟩ := hc
  rw [complements]
  cases hrel : c.relation with
  | eq => exact absurd hrel heq
  | neq => exact absurd hrel hneq
  | leq | geq | less | greater => rfl

section Entries

variable {ref : Reference} {c d : LinearConstraint} {bs : List Bound}

theorem entries_self (ref : Reference) (c : LinearConstraint) : ∃ bs, (c, bs) ∈ ref.entries c := by
  rw [entries]
  split <;> exact ⟨_, mem_cons_self⟩

/-- The only disequality that is entered is the new one. -/
theorem entries_neq (hmem : (d, bs) ∈ ref.entries c) (hd : d.relation = .neq) :
    d = c ∧ bs = ref.neqBounds c.integerValued := by
  have hother : ∀ r, r ≠ .neq → d ≠ c.withRelation r := by
    rintro r hr rfl
    exact hr hd
  have hself : c.withRelation c.relation = c := rfl
  cases hrel : c.relation with
  | eq =>
    rw [entries, hrel, mem_singleton, Prod.mk.injEq, ← hself, hrel] at hmem
    exact absurd hmem.1 (hother .eq (by decide))
  | neq =>
    rw [entries, hrel] at hmem
    simp only [mem_cons, not_mem_nil, or_false, Prod.mk.injEq] at hmem
    rcases hmem with h | h | h | h | h
    · exact h
    · exact absurd h.1 (hother .less (by decide))
    · exact absurd h.1 (hother .leq (by decide))
    · exact absurd h.1 (hother .geq (by decide))
    · exact absurd h.1 (hother .greater (by decide))
  | leq | geq | less | greater =>
    have hineq : c.relation.IsInequality := by
      constructor <;> simp [hrel]
    rw [ref.entries_of_inequality hineq] at hmem
    simp only [mem_cons, not_mem_nil, or_false, Prod.mk.injEq] at hmem
    rcases hmem with ⟨rfl, -⟩ | ⟨rfl, -⟩
    · exact absurd hd hineq.2
    · exact absurd rfl (hother _ (by rw [hrel]; decide))

/-- An inequality is entered together with its negation. -/
theorem entries_negated (hmem : (d, bs) ∈ ref.entries c) (hd : d.relation.IsInequality) :
    ∃ bs', (d.negated, bs') ∈ ref.entries c := by
  cases hrel : c.relation with
  | eq =>
    rw [entries, hrel, mem_singleton, Prod.mk.injEq] at hmem
    exact absurd (hmem.1 ▸ hrel) hd.1
  | neq =>
    rw [entries, hrel] at hmem ⊢
    simp only [mem_cons, not_mem_nil, or_false, Prod.mk.injEq] at hmem ⊢
    rcases hmem with ⟨rfl, -⟩ | ⟨rfl, -⟩ | ⟨rfl, -⟩ | ⟨rfl, -⟩ | ⟨rfl, -⟩
    · exact absurd hrel hd.2
    · exact ⟨_, .inr (.inr (.inr (.inl ⟨rfl, rfl⟩)))⟩
    · exact ⟨_, .inr (.inr (.inr (.inr ⟨rfl, rfl⟩)))⟩
    · exact ⟨_, .inr (.inl ⟨rfl, rfl⟩)⟩
    · exact ⟨_, .inr (.inr (.inl ⟨rfl, rfl⟩))⟩
  | leq | geq | less | greater =>
    have hineq : c.relation.IsInequality := by
      constructor <;> simp [hrel]
    rw [ref.entries_of_inequality hineq] at hmem ⊢
    simp only [mem_cons, not_mem_nil, or_false, Prod.mk.injEq] at hmem ⊢
    rcases hmem with ⟨rfl, -⟩ | ⟨rfl, -⟩
    · exact ⟨_, .inr ⟨rfl, rfl⟩⟩
    · refine ⟨_, .inl ⟨?_, rfl⟩⟩
      rw [LinearConstraint.negated, LinearConstraint.negated]
      simp [LinearConstraint.withRelation]

theorem neqBounds_var {integerValued : Bool} {b : Bound} (hb : b ∈ ref.neqBounds integerValued) :
    b.var = ref.var := by
  simp only [neqBounds, mem_cons, not_mem_nil, or_false] at hb
  rcases hb with rfl | rfl | rfl | rfl <;> rfl

/-- The bounds of a constraint limit its variable. -/
theorem entries_var (hmem : (d, bs) ∈ ref.entries c) {b : Bound} (hb : b ∈ bs) :
    b.var = ref.var := by
  cases hrel : c.relation with
  | eq =>
    rw [entries, hrel, mem_singleton, Prod.mk.injEq] at hmem
    rw [hmem.2, mem_singleton] at hb
    exact hb ▸ bound_var
  | neq =>
    rw [entries, hrel] at hmem
    simp only [mem_cons, not_mem_nil, or_false, Prod.mk.injEq] at hmem
    rcases hmem with ⟨-, rfl⟩ | ⟨-, rfl⟩ | ⟨-, rfl⟩ | ⟨-, rfl⟩ | ⟨-, rfl⟩
    · exact neqBounds_var hb
    all_goals
      rw [mem_singleton.mp hb]
      rfl
  | leq | geq | less | greater =>
    have hineq : c.relation.IsInequality := by
      constructor <;> simp [hrel]
    rw [ref.entries_of_inequality hineq] at hmem
    simp only [mem_cons, not_mem_nil, or_false, Prod.mk.injEq] at hmem
    rcases hmem with ⟨-, rfl⟩ | ⟨-, rfl⟩
    all_goals
      rw [mem_singleton.mp hb]
      exact bound_var

theorem complements_var {q : Bound × Bound} (hmem : q ∈ ref.complements c) :
    q.1.var = ref.var ∧ q.2.var = ref.var := by
  cases hrel : c.relation with
  | eq =>
    rw [complements, hrel] at hmem
    cases hmem
  | neq =>
    rw [complements, hrel] at hmem
    simp only [mem_cons, not_mem_nil, or_false] at hmem
    rcases hmem with rfl | rfl | rfl | rfl <;> exact ⟨rfl, rfl⟩
  | leq | geq | less | greater =>
    have hineq : c.relation.IsInequality := by
      constructor <;> simp [hrel]
    rw [ref.complements_of_inequality hineq] at hmem
    simp only [mem_cons, not_mem_nil, or_false] at hmem
    rcases hmem with rfl | rfl <;> exact ⟨bound_var, bound_var⟩

end Entries

end RowSystem.Reference

end LRA

end Smtrat
