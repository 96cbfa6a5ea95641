import Smtrat.Math.LineCells
import Smtrat.Mcsat.Arithmetic.RealAlgebraicNumber

/-!
# The truth of a literal along the line

The truth of a literal depends on its variables only.  If all of them but `x` have values, it is a
property of the value of `x`, and it respects the cells between the roots of the literal.
-/

namespace Smtrat.Mcsat

open SparsePoly LineCells List Function Option

variable {σ A : Type*}

/-- The assignment of a model, zero elsewhere. -/
def Model.valuation [RealAlgebraicNumber A] (m : Model σ A) (y : σ) : ℝ :=
  (m y).elim 0 Number.toReal

theorem Model.agrees_valuation [RealAlgebraicNumber A] (m : Model σ A) : m.Agrees m.valuation := by
  intro y n hy
  rw [Model.valuation, hy, elim_some]

variable [DecidableEq σ]

/-! ## Dependence on the variables -/

variable {f : Formula σ A}

section Congruence

variable {α β : σ → ℝ}

theorem MultivariateRoot.isValue_congr {r : MultivariateRoot σ}
    (h : ∀ y ∈ r.variables, α y = β y) (t : ℝ) : r.IsValue α t ↔ r.IsValue β t := by
  have heq : Poly.univariate none (fun o : Option σ => o.elim 0 α) r.poly
      = Poly.univariate none (fun o : Option σ => o.elim 0 β) r.poly := by
    refine Polynomial.funext fun s => ?_
    rw [Poly.eval_univariate, Poly.eval_univariate]
    refine Poly.eval_congr fun o ho => ?_
    cases o with
    | none => rw [update_self, update_self]
    | some y =>
      rw [update_of_ne (some_ne_none y), update_of_ne (some_ne_none y)]
      exact h y (mem_filterMap.mpr ⟨some y, ho, rfl⟩)
  rw [IsValue, IsValue, heq]

/-- There is at most one `k`-th root. -/
theorem MultivariateRoot.IsValue.unique {r : MultivariateRoot σ} {s t : ℝ} (hs : r.IsValue α s)
    (ht : r.IsValue α t) : s = t := by
  obtain ⟨hsroot, hne, hscard⟩ := hs
  obtain ⟨htroot, -, htcard⟩ := ht
  by_contra hst
  wlog hlt : s < t generalizing s t with hwlog
  · exact hwlog htroot htcard hsroot hscard (Ne.symm hst) (lt_of_le_of_ne (not_lt.mp hlt) (Ne.symm hst))
  set roots := (Poly.univariate none (fun o : Option σ => o.elim 0 α) r.poly).roots.toFinset
  have hsmem : s ∈ roots := Multiset.mem_toFinset.mpr ((Polynomial.mem_roots hne).mpr hsroot)
  have hsub : roots.filter (· < s) ⊂ roots.filter (· < t) := by
    refine Finset.ssubset_iff_of_subset (fun c hc => ?_) |>.mpr ⟨s, ?_, ?_⟩
    · obtain ⟨hmem, hcs⟩ := Finset.mem_filter.mp hc
      exact Finset.mem_filter.mpr ⟨hmem, hcs.trans hlt⟩
    · exact Finset.mem_filter.mpr ⟨hsmem, hlt⟩
    · exact fun hmem => lt_irrefl s (Finset.mem_filter.mp hmem).2
  have hcard := Finset.card_lt_card hsub
  omega

variable [RealAlgebraicNumber A]

theorem ModelValue.isValue_congr {value : ModelValue σ A} (h : ∀ y ∈ value.variables, α y = β y)
    (t : ℝ) : value.IsValue α t ↔ value.IsValue β t := by
  cases value with
  | number n => exact Iff.rfl
  | substitution r => exact r.isValue_congr h t

theorem Formula.sat_congr (h : ∀ y ∈ f.variables, α y = β y) : f.Sat α ↔ f.Sat β := by
  cases f with
  | true | false => exact Iff.rfl
  | constraint c =>
    show c.relation.evaluate _ _ ↔ c.relation.evaluate _ _
    rw [Poly.eval_congr h]
  | varcompare v =>
    obtain ⟨hvar, hval⟩ := forall_mem_cons.mp h
    show (∀ t, _ → _) ↔ (∀ t, _ → _)
    simp only [ModelValue.isValue_congr hval, hvar]
  | varassign y n negated =>
    show (α y = _ ↔ _) ↔ (β y = _ ↔ _)
    rw [forall_mem_singleton.mp h]

/-- A comparison with a root that does not exist counts as true. -/
theorem Formula.sat_of_not_defined (h : ¬ f.Defined α) : f.Sat α := by
  cases f with
  | true | false | constraint | varassign => exact absurd trivial h
  | varcompare v => exact fun t ht => absurd ⟨t, ht⟩ h

end Congruence

/-! ## Models and assignments -/

variable {c : Constraint σ}

section Covers

variable {m : Model σ A} {x : σ}

/-- All variables of the literal but `x` have values. -/
def Model.CoversBut (m : Model σ A) (x : σ) (f : Formula σ A) : Prop :=
  ∀ y ∈ f.variables, y = x ∨ (m y).isSome

theorem Model.CoversBut.covers_assign (hf : m.CoversBut x f) (n : Number A) :
    (m.assign x n).Covers f.variables := by
  intro y hy
  by_cases hyx : y = x
  · rw [hyx, Model.assign, update_self]
    rfl
  · rw [Model.assign, update_of_ne hyx]
    exact (hf y hy).resolve_left hyx

theorem Model.CoversBut.covers_filter (hf : m.CoversBut x (.constraint c : Formula σ A)) :
    m.Covers ((Poly.variables c.lhs).filter (· ≠ x)) := by
  intro y hy
  obtain ⟨hmem, hyx⟩ := mem_filter.mp hy
  exact (hf y hmem).resolve_left (of_decide_eq_true hyx)

end Covers

section Models

variable [RealAlgebraicNumber A] {m : Model σ A} {x : σ} {α : σ → ℝ}

theorem Model.Agrees.assign (h : m.Agrees α) (x : σ) (n : Number A) :
    (m.assign x n).Agrees (update α x n.toReal) := by
  intro y k hy
  by_cases hyx : y = x
  · subst hyx
    rw [Model.assign, update_self, some_inj] at hy
    rw [update_self, hy]
  · rw [Model.assign, update_of_ne hyx] at hy
    rw [update_of_ne hyx, h y k hy]

theorem Model.Agrees.update (h : m.Agrees α) (hx : m x = none) (t : ℝ) :
    m.Agrees (update α x t) := by
  intro y n hy
  have hyx : y ≠ x := by
    rintro rfl
    rw [hx] at hy
    exact some_ne_none n hy.symm
  rw [update_of_ne hyx, h y n hy]

/-- Under a model, the truth of a literal is a property of the value of `x`. -/
theorem Model.CoversBut.sat_iff (hf : m.CoversBut x f) {β : σ → ℝ}
    (hα : m.Agrees α) (hβ : m.Agrees β) : f.Sat β ↔ f.Sat (update α x (β x)) := by
  refine Formula.sat_congr fun y hy => ?_
  by_cases hyx : y = x
  · rw [hyx, update_self]
  · obtain ⟨n, hn⟩ := isSome_iff_exists.mp ((hf y hy).resolve_left hyx)
    rw [update_of_ne hyx, hα y n hn, hβ y n hn]

end Models

/-! ## Evaluation on the line -/

section Evaluation

variable [RealAlgebraicNumber A] (carl : Evaluation σ A) {m : Model σ A} {x : σ} {α : σ → ℝ}

theorem Evaluation.evaluate_eq_false_iff (hcov : m.Covers f.variables)
    (hα : m.Agrees α) : carl.evaluate f m = some false ↔ ¬ f.Sat α := by
  by_cases hdef : f.Defined α
  · obtain ⟨b, hb, hsat⟩ := carl.evaluate_defined hcov hα hdef
    rw [hb, ← hsat, some_inj, Bool.not_eq_true]
  · rw [carl.evaluate_undefined hcov hα hdef]
    exact iff_of_false (some_ne_none false).symm (not_not.mpr (Formula.sat_of_not_defined hdef))

theorem Evaluation.getD_evaluate_iff (hcov : m.Covers f.variables)
    (hα : m.Agrees α) : (carl.evaluate f m).getD true = true ↔ f.Sat α := by
  have hfalse := carl.evaluate_eq_false_iff hcov hα
  rw [← not_iff_not, ← hfalse]
  cases carl.evaluate f m with
  | none => simp
  | some b => simp

end Evaluation

/-! ## Literals respect the cells between their roots -/

section Respects

variable [RealAlgebraicNumber A] (carl : Evaluation σ A) {m : Model σ A} {x : σ} {α : σ → ℝ}

theorem Formula.sat_constraint_update (c : Constraint σ) (t : ℝ) :
    (.constraint c : Formula σ A).Sat (update α x t)
      ↔ c.relation.evaluate ((Poly.univariate x α c.lhs).eval t) 0 := by
  rw [Poly.eval_univariate]
  rfl

theorem respects_constraint {list : List A}
    (hcov : m.CoversBut x (.constraint c : Formula σ A)) (hα : m.Agrees α)
    (hroots : carl.tryRealRoots c.lhs x m = some list) :
    Respects (list.map RealAlgebraicNumber.toReal)
      (fun t => (.constraint c : Formula σ A).Sat (update α x t)) := by
  obtain ⟨-, -, hiff⟩ := carl.tryRealRoots_some hcov.covers_filter hα hroots
  intro s t hst
  show Formula.Sat _ _ ↔ Formula.Sat _ _
  rw [Formula.sat_constraint_update, Formula.sat_constraint_update]
  exact respects_sign c.relation (fun r hr => (hiff r).mp hr) s t hst

theorem constraint_const (hcov : m.CoversBut x (.constraint c : Formula σ A)) (hα : m.Agrees α)
    (hroots : carl.tryRealRoots c.lhs x m = none) (s t : ℝ) :
    (.constraint c : Formula σ A).Sat (update α x s)
      ↔ (.constraint c : Formula σ A).Sat (update α x t) := by
  rw [Formula.sat_constraint_update, Formula.sat_constraint_update,
    carl.tryRealRoots_none hcov.covers_filter hα hroots, Polynomial.eval_zero,
    Polynomial.eval_zero]

/-- A comparison of `x` with a number. -/
theorem respects_varcompare {v : VariableComparison σ A} {a : A} (hvar : v.var = x)
    (hval : ∀ s t, v.value.IsValue (update α x t) s ↔ s = RealAlgebraicNumber.toReal a) :
    Respects ([a].map RealAlgebraicNumber.toReal)
      (fun t => (.varcompare v : Formula σ A).Sat (update α x t)) := by
  have hsat (t : ℝ) : (.varcompare v : Formula σ A).Sat (update α x t)
      ↔ (v.relation.evaluate t (RealAlgebraicNumber.toReal a) ↔ ¬ v.negated) := by
    show (∀ s, _ → _) ↔ _
    simp only [hval, hvar, update_self, forall_eq]
  intro s t hst
  simp only [hsat]
  exact iff_congr (respects_relation v.relation (mem_singleton.mpr rfl) s t hst) Iff.rfl

end Respects

end Smtrat.Mcsat

/-!
## The reals as real algebraic numbers

With real numbers in place of their representations, the operations and the evaluation have the
promised properties.  Substitution only evaluates constraints without unassigned variables.
-/

namespace Smtrat.Mcsat

open SparsePoly List Function Option

namespace Reals

open Classical in
noncomputable instance realAlgebraicNumber : RealAlgebraicNumber ℝ where
  toReal := id
  toReal_strictMono := strictMono_id
  ofRational := fun q => q
  toReal_ofRational := fun _ => rfl
  isNumeric := fun a => decide (∃ q : ℚ, (q : ℝ) = a)
  value := fun a => if h : ∃ q : ℚ, (q : ℝ) = a then h.choose else 0
  ofRational_value := by
    intro a h
    have hex : ∃ q : ℚ, (q : ℝ) = a := of_decide_eq_true h
    rw [dif_pos hex]
    exact hex.choose_spec
  isIntegral := fun a => decide (∃ z : ℤ, (z : ℝ) = a)
  size := fun _ => 1
  abs := fun a => |a|
  sampleBelow := fun a => a - 1
  sampleBelow_lt := sub_one_lt
  sampleBetween := fun a b => (a + b) / 2
  lt_sampleBetween := left_lt_add_div_two.mpr
  sampleBetween_lt := add_div_two_lt_right.mpr
  sampleAbove := fun a => a + 1
  lt_sampleAbove := lt_add_one

variable {σ : Type*}

/-- Some order on the literals. -/
noncomputable instance formulaOrder : LinearOrder (Formula σ ℝ) :=
  haveI := Classical.decRel (WellOrderingRel (α := Formula σ ℝ))
  linearOrderOfSTO WellOrderingRel

/-! ## The evaluation under the assignment of the model -/

section Agreement

variable {m : Model σ ℝ} {α : σ → ℝ} {x : σ}

theorem valuation_eq (hα : m.Agrees α) {y : σ} (hy : (m y).isSome) : m.valuation y = α y := by
  obtain ⟨n, hn⟩ := isSome_iff_exists.mp hy
  rw [m.agrees_valuation y n hn, hα y n hn]

variable [DecidableEq σ]

theorem sat_valuation {f : Formula σ ℝ} (hα : m.Agrees α) (hf : m.Covers f.variables) :
    f.Sat m.valuation ↔ f.Sat α :=
  Formula.sat_congr fun y hy => valuation_eq hα (hf y hy)

theorem defined_valuation {f : Formula σ ℝ} (hα : m.Agrees α) (hf : m.Covers f.variables) :
    f.Defined m.valuation ↔ f.Defined α := by
  cases f with
  | true | false | constraint | varassign => exact Iff.rfl
  | varcompare v =>
    refine exists_congr fun t => ModelValue.isValue_congr (fun y hy => ?_) t
    exact valuation_eq hα (hf y (mem_cons_of_mem _ hy))

theorem univariate_valuation {p : Poly σ ℚ} (hα : m.Agrees α)
    (hp : m.Covers ((Poly.variables p).filter (· ≠ x))) :
    Poly.univariate x m.valuation p = Poly.univariate x α p := by
  refine Polynomial.funext fun t => ?_
  rw [Poly.eval_univariate, Poly.eval_univariate]
  refine Poly.eval_congr fun y hy => ?_
  by_cases hyx : y = x
  · rw [hyx, update_self, update_self]
  · rw [update_of_ne hyx, update_of_ne hyx]
    exact valuation_eq hα (hp y (mem_filter.mpr ⟨hy, decide_eq_true hyx⟩))

end Agreement

variable [DecidableEq σ]

open Classical in
noncomputable def substitute (f : Formula σ ℝ) (m : Model σ ℝ) : Formula σ ℝ :=
  match f with
  | .constraint c =>
    if m.Covers (Poly.variables c.lhs) then
      if c.Sat m.valuation then .true else .false
    else .constraint c
  | f => f

theorem sat_substitute (f : Formula σ ℝ) {m : Model σ ℝ} {α : σ → ℝ} (hα : m.Agrees α) :
    (substitute f m).Sat α ↔ f.Sat α := by
  cases f with
  | true | false | varcompare | varassign => exact Iff.rfl
  | constraint c =>
    rw [substitute]
    split_ifs with hcov hsat
    · exact iff_of_true trivial ((sat_valuation (f := .constraint c) hα hcov).mp hsat)
    · exact iff_of_false not_false (mt (sat_valuation (f := .constraint c) hα hcov).mpr hsat)
    · exact Iff.rfl

open Classical in
noncomputable def evaluation : Evaluation σ ℝ where
  substitute := substitute
  tryRealRoots := fun p x m =>
    if Poly.univariate x m.valuation p = 0 then none
    else some ((Poly.univariate x m.valuation p).roots.toFinset.sort (· ≤ ·))
  evaluate := fun f m =>
    if m.Covers f.variables ∧ f.Defined m.valuation then some (decide (f.Sat m.valuation)) else none
  evaluateSubstitution := fun r m =>
    if h : ∃ t, r.IsValue m.valuation t then .number (.ran h.choose) else .substitution r
  sat_substitute := fun hα => sat_substitute _ hα
  variables_substitute := by
    intro f m
    cases f with
    | true | false | varcompare | varassign => exact List.Subset.refl _
    | constraint c =>
      rw [substitute]
      split_ifs
      · exact nil_subset _
      · exact nil_subset _
      · exact List.Subset.refl _
  substitute_constraint := by
    intro c m
    rw [substitute]
    split_ifs
    · exact .inl rfl
    · exact .inr (.inl rfl)
    · exact .inr (.inr ⟨c, rfl⟩)
  substitute_assigned := by
    intro c m hcovers
    rw [substitute, if_pos hcovers]
    split_ifs
    · exact .inl rfl
    · exact .inr rfl
  substitute_varcompare := fun {v _} _ => .inr (.inr ⟨v.value, List.Subset.refl _, rfl⟩)
  tryRealRoots_some := by
    intro p x m roots α hp hα hroots
    rw [univariate_valuation hα hp] at hroots
    split_ifs at hroots with hzero
    obtain rfl := some_inj.mp hroots
    refine ⟨hzero, Finset.sortedLT_sort _ |>.pairwise, fun t => ?_⟩
    show _ ↔ t ∈ List.map id _
    rw [List.map_id, Finset.mem_sort, Multiset.mem_toFinset, Polynomial.mem_roots hzero]
  tryRealRoots_none := by
    intro p x m α hp hα hroots
    rw [univariate_valuation hα hp] at hroots
    split_ifs at hroots with hzero
    exact hzero
  evaluate_defined := by
    intro f m α hf hα hdef
    refine ⟨_, if_pos ⟨hf, (defined_valuation hα hf).mpr hdef⟩, ?_⟩
    rw [decide_eq_true_iff, sat_valuation hα hf]
  evaluate_undefined := by
    intro f m α hf hα hdef
    exact if_neg fun h => hdef ((defined_valuation hα hf).mp h.2)
  evaluateSubstitution_number := by
    intro r m α n hr hα heval
    have hiff (t : ℝ) := r.isValue_congr (fun y hy => valuation_eq hα (hr y hy)) t
    split_ifs at heval with h
    obtain rfl := ModelValue.number.inj heval
    exact (hiff _).mp h.choose_spec
  evaluateSubstitution_substitution := by
    intro r s m α hr hα heval t ht
    have hiff := r.isValue_congr (fun y hy => valuation_eq hα (hr y hy)) t
    split_ifs at heval with h
    exact h ⟨t, hiff.mpr ht⟩

end Reals

end Smtrat.Mcsat
