import Smtrat.Mcsat.Arithmetic.Truth
import Smtrat.Mcsat.Vs.Zeros

/-!
# The substitution of a test candidate is exact

The formula for a literal holds exactly if the literal holds at the points near the test candidate, and
it does not depend on the variable.
-/

namespace Smtrat.Mcsat.Vs

open SparsePoly Smtrat.VS Filter List Function Option

universe u v

variable {σ : Type u} {A : Type v}

theorem positive_ofConstraint (c : ConstraintT σ) : Positive (ofConstraint c : FormulaT σ A) := by
  cases c with
  | constant b => exact .const b
  | proper c => exact .atom _

variable [DecidableEq σ] [RealAlgebraicNumber A] {α β : σ → ℝ}

/-! ## Truth of formulas -/

@[simp] theorem holds_const (b : Bool) : Holds α (.const b : FormulaT σ A) ↔ b = true := by
  rw [Holds, PropFormula.Formula.eval_const]

@[simp] theorem holds_atom (l : Mcsat.Formula σ A) : Holds α (.atom l) ↔ l.Sat α := by
  classical
  rw [Holds, PropFormula.Formula.eval_atom]
  exact decide_eq_true_iff

theorem holds_and (fs : List (FormulaT σ A)) : Holds α (.app .and fs) ↔ ∀ f ∈ fs, Holds α f := by
  rw [Holds, PropFormula.Formula.eval_app, PropFormula.Connective.eval_and, List.all_eq_true,
    List.forall_mem_map]
  rfl

theorem holds_or (fs : List (FormulaT σ A)) : Holds α (.app .or fs) ↔ ∃ f ∈ fs, Holds α f := by
  rw [Holds, PropFormula.Formula.eval_app, PropFormula.Connective.eval_or, List.any_eq_true]
  simp only [List.mem_map, exists_exists_and_eq_and]
  rfl

variable {f : FormulaT σ A}

/-- The truth of a formula depends on its literals only. -/
theorem holds_congr (h : ∀ l, f.Mentions l → (l.Sat α ↔ l.Sat β)) : Holds α f ↔ Holds β f := by
  classical
  rw [Holds, Holds, PropFormula.Formula.eval_congr fun l hl => ?_]
  exact decide_eq_decide.mpr (h l hl)

/-- The literals of a formula do not depend on the variable. -/
def Free (x : σ) (f : FormulaT σ A) : Prop :=
  ∀ l, f.Mentions l → ∀ (α : σ → ℝ) (r : ℝ), l.Sat (update α x r) ↔ l.Sat α

theorem Free.holds_update {x : σ} (h : Free x f) (r : ℝ) : Holds (update α x r) f ↔ Holds α f :=
  holds_congr fun l hl => h l hl α r

variable (lib : ExplanationLibrary σ A)

theorem holds_create_and (fs : List (FormulaT σ A)) :
    Holds α (lib.create .and fs) ↔ ∀ f ∈ fs, Holds α f := by
  rw [lib.holds_create, holds_and]

theorem holds_create_or (fs : List (FormulaT σ A)) :
    Holds α (lib.create .or fs) ↔ ∃ f ∈ fs, Holds α f := by
  rw [lib.holds_create, holds_or]

theorem free_create {x : σ} {c : PropFormula.Connective} {fs : List (FormulaT σ A)}
    (h : ∀ f ∈ fs, Free x f) : Free x (lib.create c fs) := by
  intro l hl
  obtain ⟨f, hf, hment⟩ := lib.mentions_create l c fs hl
  exact h f hf l hment

/-! ## Constraints -/

variable {c : ConstraintT σ}

@[simp] theorem holds_ofConstraint (c : ConstraintT σ) :
    Holds α (ofConstraint c : FormulaT σ A) ↔ c.Sat α := by
  cases c with
  | constant b => exact holds_const b
  | proper c => exact holds_atom _

theorem free_ofConstraint {x : σ} (h : x ∉ ConstraintT.variables c) :
    Free x (ofConstraint c : FormulaT σ A) := by
  intro l hl α r
  cases c with
  | constant b => exact absurd hl (PropFormula.Formula.mentions_const l b)
  | proper c =>
    obtain rfl := (PropFormula.Formula.mentions_atom l _).mp hl
    refine Formula.sat_congr fun y hy => update_of_ne ?_ r α
    rintro rfl
    exact h hy

variable {docc : DisjunctionOfConstraintConjunctions σ}

theorem holds_doccToFormula : Holds α (doccToFormula lib docc) ↔ VS.Holds α docc := by
  rw [doccToFormula, holds_create_or, VS.Holds]
  simp only [List.mem_map, exists_exists_and_eq_and, holds_create_and, forall_exists_index, and_imp,
    forall_apply_eq_imp_iff₂, holds_ofConstraint]

theorem positive_doccToFormula : Positive (doccToFormula lib docc) := by
  refine lib.positive_or _ (List.forall_mem_map.mpr fun conj _ => ?_)
  exact lib.positive_and _ (List.forall_mem_map.mpr fun c _ => positive_ofConstraint c)

theorem free_doccToFormula {x : σ}
    (h : ∀ conj ∈ docc, ∀ c ∈ conj, x ∉ ConstraintT.variables c) :
    Free x (doccToFormula lib docc) := by
  refine free_create lib (List.forall_mem_map.mpr fun conj hconj => ?_)
  exact free_create lib (List.forall_mem_map.mpr fun c hc => free_ofConstraint (h conj hconj c hc))

/-- A constraint without the variable does not depend on it. -/
theorem sat_update_of_not_hasVariable {x : σ}
    (h : ¬ ConstraintT.hasVariable x c) (α : σ → ℝ) (r : ℝ) :
    c.Sat (update α x r) ↔ c.Sat α := by
  cases c with
  | constant b => rfl
  | proper c =>
    rw [ConstraintT.Sat, ConstraintT.Sat, Constraint.Sat, Constraint.Sat,
      Poly.eval_update_of_not_hasVariable x α h]

variable {lib}

/-- What the substitution into a literal or a constraint guarantees. -/
structure Substituted (x : σ) (type : SubstitutionType σ) (P : (σ → ℝ) → Prop) (f : FormulaT σ A) :
    Prop where
  positive : Positive f
  free : Free x f
  holds : ∀ α : σ → ℝ, SideConditions α type → (Holds α f ↔ ∀ᶠ r in points α type, P (update α x r))

/-- The result depends on variables of the constraint and of the term. -/
theorem free_substituteConstraint {subs : Substitution σ}
    (h : substituteConstraint lib c subs = some f) {x : σ}
    (hc : x ∈ ConstraintT.variables c → x = subs.var)
    (htype : x ∈ SubstitutionType.variables subs.type → x = subs.var) : Free x f := by
  rw [substituteConstraint] at h
  split_ifs at h with hvar
  · obtain ⟨docc, hdocc, rfl⟩ := map_eq_some_iff.mp h
    refine free_doccToFormula lib fun conj hconj d hd hmem => ?_
    obtain ⟨hne, hfrom⟩ := lib.substitute_variables c subs docc hdocc conj hconj d hd _ hmem
    exact hne (hfrom.elim hc htype)
  · obtain rfl := some.inj h
    by_cases hx : x ∈ ConstraintT.variables c
    · obtain rfl := hc hx
      intro l hl α r
      cases c with
      | constant b => exact absurd hl (PropFormula.Formula.mentions_const l b)
      | proper c =>
        obtain rfl := (PropFormula.Formula.mentions_atom l _).mp hl
        exact sat_update_of_not_hasVariable hvar α r
    · exact free_ofConstraint hx

theorem holds_substituteConstraint {subs : Substitution σ}
    (h : substituteConstraint lib c subs = some f) : Positive f ∧
      ∀ α : σ → ℝ, SideConditions α subs.type →
        (Holds α f ↔ ∀ᶠ r in points α subs.type, c.Sat (update α subs.var r)) := by
  rw [substituteConstraint] at h
  split_ifs at h with hvar
  · obtain ⟨docc, hdocc, rfl⟩ := map_eq_some_iff.mp h
    refine ⟨positive_doccToFormula lib, fun α hside => ?_⟩
    rw [holds_doccToFormula, lib.substitute_exact c subs docc hdocc α hside, meets_iff_points]
  · obtain rfl := some.inj h
    refine ⟨positive_ofConstraint c, fun α _ => ?_⟩
    simp only [sat_update_of_not_hasVariable hvar, eventually_const]
    exact holds_ofConstraint c

/-! ## Comparisons -/

section Comparison

variable {fresh : SubVars σ} (hfresh : fresh.subVar1 ≠ fresh.subVar2) {relation : Relation}

variable {type : SubstitutionType σ}

/-- The points of a substitution depend on the variables of its term only. -/
theorem points_update {y : σ} (hy : y ∉ SubstitutionType.variables type) (r : ℝ) :
    points (update α y r) type = points α type ∧
      (SideConditions (update α y r) type ↔ SideConditions α type) := by
  have hterm (term : SqrtEx σ) (hy : y ∉ SqrtEx.variables term) :
      term.value (update α y r) = term.value α ∧
        (term.Defined (update α y r) ↔ term.Defined α) := by
    simp only [SqrtEx.variables, mem_append, not_or] at hy
    have heval {p : Poly σ ℚ} (hp : y ∉ Poly.variables p) :
        Poly.eval (update α y r) p = Poly.eval α p := by
      refine Poly.eval_congr fun z hz => update_of_ne ?_ r α
      rintro rfl
      exact hp hz
    have hdfn (β : σ → ℝ) : term.Defined β ↔
        0 ≤ Poly.eval β term.radicand ∧ Poly.eval β term.denominator ≠ 0 :=
      ⟨fun h => ⟨h.1, h.2⟩, fun h => ⟨h.1, h.2⟩⟩
    rw [hdfn, hdfn, SqrtEx.value, SqrtEx.value, heval hy.1.1.1, heval hy.1.1.2,
      heval hy.1.2, heval hy.2]
    exact ⟨rfl, Iff.rfl⟩
  cases type with
  | normal term =>
    rw [points, points, (hterm term hy).1]
    exact ⟨rfl, (hterm term hy).2⟩
  | plusEpsilon term =>
    rw [points, points, (hterm term hy).1]
    exact ⟨rfl, (hterm term hy).2⟩
  | minusInfinity => exact ⟨rfl, Iff.rfl⟩
  | plusInfinity => exact ⟨rfl, Iff.rfl⟩

/-- The difference of the two variables is compared with zero. -/
theorem sat_difference (relation : Relation) (α : σ → ℝ) :
    (lib.constraint (Poly.sub (Poly.var fresh.subVar1) (Poly.var fresh.subVar2)) relation).Sat α ↔
      relation.evaluate (α fresh.subVar1) (α fresh.subVar2) := by
  rw [lib.sat_constraint, ← Relation.evaluate_sub_zero relation (α fresh.subVar1)]
  simp

include hfresh

/-- Both variables are replaced: the points near the candidate are compared with the number. -/
theorem holds_substituteBoth {zero : SqrtEx σ}
    (h : substituteBoth lib fresh relation type zero = some f) (hside : SideConditions α type)
    (htype : fresh.subVar2 ∉ SubstitutionType.variables type) (hzero : zero.Defined α) :
    Holds α f ↔ ∀ᶠ r in points α type, relation.evaluate r (zero.value α) := by
  rw [substituteBoth] at h
  obtain ⟨disjF, hdisjF, rfl⟩ := map_eq_some_iff.mp h
  obtain ⟨docc, hdocc, hdisjF⟩ := bind_eq_some_iff.mp hdisjF
  set β := update α fresh.subVar2 (zero.value α) with hβ
  obtain ⟨hpts, hsides⟩ := points_update (α := α) htype (zero.value α)
  have hexact := lib.substitute_exact _ _ docc hdocc β (hsides.mpr hside)
  rw [meets_iff_points, hpts] at hexact
  have hsat (r : ℝ) : (lib.constraint (Poly.sub (Poly.var fresh.subVar1) (Poly.var fresh.subVar2))
      relation).Sat (update β fresh.subVar1 r) ↔ relation.evaluate r (zero.value α) := by
    rw [sat_difference, update_self, update_of_ne hfresh.symm, hβ, update_self]
  simp only [hsat] at hexact
  rw [← hexact, holds_create_or]
  -- each constraint of the first result is true for the value of the zero
  have hconstr {constr : ConstraintT σ} {g : FormulaT σ A}
      (hg : (lib.substitute constr ⟨fresh.subVar2, .normal zero⟩).map (doccToFormula lib) = some g) :
      Holds α g ↔ constr.Sat β := by
    obtain ⟨docc, hdocc, rfl⟩ := map_eq_some_iff.mp hg
    rw [holds_doccToFormula]
    exact lib.substitute_exact _ _ docc hdocc α hzero
  have hconj {conj : List (ConstraintT σ)} {g : FormulaT σ A}
      (hg : (conj.mapM fun constr => (lib.substitute constr ⟨fresh.subVar2, .normal zero⟩).map
        (doccToFormula lib)).map (lib.create .and) = some g) :
      Holds α g ↔ ∀ constr ∈ conj, constr.Sat β := by
    obtain ⟨conjF, hconjF, rfl⟩ := map_eq_some_iff.mp hg
    rw [holds_create_and]
    constructor
    · intro hall constr hmem
      obtain ⟨g, hg, hres⟩ := exists_result hconjF hmem
      exact (hconstr hres).mp (hall g hg)
    · intro hall g hg
      obtain ⟨constr, hmem, hres⟩ := exists_argument hconjF hg
      exact (hconstr hres).mpr (hall constr hmem)
  constructor
  · rintro ⟨g, hg, hholds⟩
    obtain ⟨conj, hmem, hres⟩ := exists_argument hdisjF hg
    exact ⟨conj, hmem, (hconj hres).mp hholds⟩
  · rintro ⟨conj, hmem, hall⟩
    obtain ⟨g, hg, hres⟩ := exists_result hdisjF hmem
    exact ⟨g, hg, (hconj hres).mpr hall⟩

omit hfresh

/-- The parts of the formula are formulas of constraints without the fresh variables. -/
theorem shape_substituteBoth {zero : SqrtEx σ}
    (h : substituteBoth lib fresh relation type zero = some f) {x : σ}
    (htype : x ∉ SubstitutionType.variables type) (hzero : ∀ y, y ∉ SqrtEx.variables zero) :
    Positive f ∧ Free x f := by
  rw [substituteBoth] at h
  obtain ⟨disjF, hdisjF, rfl⟩ := map_eq_some_iff.mp h
  obtain ⟨docc, hdocc, hdisjF⟩ := bind_eq_some_iff.mp hdisjF
  have hparts : ∀ g ∈ disjF, Positive g ∧ Free x g := by
    intro g hg
    obtain ⟨conj, hconj, hres⟩ := exists_argument hdisjF hg
    obtain ⟨conjF, hconjF, rfl⟩ := map_eq_some_iff.mp hres
    have hinner : ∀ g ∈ conjF, Positive g ∧ Free x g := by
      intro g hg
      obtain ⟨constr, hconstr, hres⟩ := exists_argument hconjF hg
      obtain ⟨docc', hdocc', rfl⟩ := map_eq_some_iff.mp hres
      refine ⟨positive_doccToFormula lib, free_doccToFormula lib fun conj' hconj' d hd hmem => ?_⟩
      obtain ⟨hne, hfrom⟩ := lib.substitute_variables _ _ docc' hdocc' conj' hconj' d hd x hmem
      have hmem := hfrom.resolve_right (hzero x)
      obtain ⟨hne', hfrom⟩ := lib.substitute_variables _ _ docc hdocc conj hconj constr hconstr x hmem
      have hvar := lib.constraint_variables _ _ (hfrom.resolve_right htype)
      rcases mem_variables_sub hvar with hvar | hvar
      · exact hne' (by simpa [Poly.variables, Poly.var] using hvar)
      · exact hne (by simpa [Poly.variables, Poly.var] using hvar)
    exact ⟨lib.positive_and _ fun g hg => (hinner g hg).1, free_create lib fun g hg => (hinner g hg).2⟩
  exact ⟨lib.positive_or _ fun g hg => (hparts g hg).1, free_create lib fun g hg => (hparts g hg).2⟩

/-- Towards minus infinity only the relation is of importance. -/
theorem eventually_atBot_evaluate (relation : Relation) (v : ℝ) :
    (∀ᶠ r in atBot, relation.evaluate r v) ↔
      relation = .less ∨ relation = .leq ∨ relation = .neq := by
  have hnot {P : ℝ → Prop} (h : ∀ r, P r → ¬ r < v) : ¬ ∀ᶠ r in atBot, P r := fun hall => by
    obtain ⟨r, hr, hlt⟩ := (hall.and (eventually_lt_atBot v)).exists
    exact h r hr hlt
  cases relation with
  | eq => exact iff_of_false (hnot fun r hr => hr.not_lt) (by simp)
  | neq => exact iff_of_true ((eventually_lt_atBot v).mono fun r hr => hr.ne) (by simp)
  | less => exact iff_of_true (eventually_lt_atBot v) (by simp)
  | leq => exact iff_of_true (eventually_le_atBot v) (by simp)
  | greater => exact iff_of_false (hnot fun r hr => not_lt_of_gt hr) (by simp)
  | geq => exact iff_of_false (hnot fun r hr => not_lt_of_ge hr) (by simp)

end Comparison

/-! ## Literals -/

/-- Constraints, and comparisons with numbers. -/
def Supported : Mcsat.Formula σ A → Prop
  | .constraint _ => True
  | .varcompare v => ∃ n, v.value = .number n
  | .true | .false | .varassign .. => False

section Literal

variable {fresh : SubVars σ} {v : VariableComparison σ A} {n : Number A}

theorem sat_varcompare (hval : v.value = .number n) :
    (Formula.varcompare v).Sat α ↔ (varcompRelation v).evaluate (α v.var) n.toReal := by
  have hsat : (Formula.varcompare v).Sat α ↔
      (v.relation.evaluate (α v.var) n.toReal ↔ ¬ v.negated) := by
    rw [Formula.Sat, hval]
    exact ⟨fun h => h _ rfl, fun h t ht => (show t = n.toReal from ht) ▸ h⟩
  rw [hsat, varcompRelation]
  cases v.negated with
  | true =>
    rw [if_pos rfl, Relation.evaluate_inverse]
    simp
  | false =>
    rw [if_neg Bool.false_ne_true]
    simp

/-- Near a substitution a literal is true or false. -/
theorem decided_literal {l : Mcsat.Formula σ A} (hl : Supported l) (x : σ)
    (type : SubstitutionType σ) : (∀ᶠ r in points α type, l.Sat (update α x r)) ∨
      ∀ᶠ r in points α type, ¬ l.Sat (update α x r) := by
  cases l with
  | constraint c =>
    have hsat (r : ℝ) : (Formula.constraint c : Mcsat.Formula σ A).Sat (update α x r) ↔
        c.relation.evaluate ((Poly.univariate x α c.lhs).eval r) 0 := by
      rw [Poly.eval_univariate]
      exact Iff.rfl
    simp only [hsat]
    exact eventually_or_not c.relation _ type
  | varcompare v =>
    obtain ⟨n, hval⟩ := hl
    simp only [sat_varcompare hval]
    by_cases hvar : v.var = x
    · subst hvar
      have heval (r : ℝ) : (varcompRelation v).evaluate (update α v.var r v.var) n.toReal ↔
          (varcompRelation v).evaluate
            ((Polynomial.X - Polynomial.C n.toReal : Polynomial ℝ).eval r) 0 := by
        rw [update_self, Polynomial.eval_sub, Polynomial.eval_X, Polynomial.eval_C,
          Relation.evaluate_sub_zero]
      simp only [heval]
      exact eventually_or_not _ _ type
    · simp only [update_of_ne hvar, eventually_const]
      exact em _
  | true | false | varassign => exact hl.elim

/-- A comparison at minus infinity. -/
theorem substituted_minusInfinity (hval : v.value = .number n)
    (h : substituteConstraint lib (lib.constraint (Poly.var fresh.subVar1) (varcompRelation v))
      ⟨fresh.subVar1, .minusInfinity⟩ = some f) :
    Substituted v.var .minusInfinity (fun α => (Formula.varcompare v).Sat α) f where
  positive := (holds_substituteConstraint h).1
  free := by
    refine free_substituteConstraint h (fun hmem => ?_) fun hmem => absurd hmem not_mem_nil
    simpa [Poly.variables, Poly.var] using lib.constraint_variables _ _ hmem
  holds α _ := by
    rw [(holds_substituteConstraint h).2 α trivial]
    simp only [lib.sat_constraint, Poly.eval_var, sat_varcompare hval, update_self]
    exact (eventually_atBot_evaluate _ 0).trans (eventually_atBot_evaluate _ n.toReal).symm

variable (hfresh : fresh.subVar1 ≠ fresh.subVar2) {x : σ} {type : SubstitutionType σ}
  (hx : x ∉ SubstitutionType.variables type)
  (hsubVar2 : fresh.subVar2 ∉ SubstitutionType.variables type)

include hfresh hx hsubVar2

/-- A comparison at a value, or right behind it. -/
theorem substituted_value (hval : v.value = .number n)
    (h : ((generateZerosValue lib v.value).bind fun zero =>
      (substituteBoth lib fresh (varcompRelation v) type zero.1).map fun subRes =>
        lib.create .and (subRes :: (lib.elements zero.2).map ofConstraint)) = some f)
    (hvar : v.var = x) : Substituted x type (fun α => (Formula.varcompare v).Sat α) f := by
  obtain ⟨zero, hzero, h⟩ := bind_eq_some_iff.mp h
  obtain ⟨subRes, hsubRes, rfl⟩ := map_eq_some_iff.mp h
  rw [hval] at hzero
  cases n with
  | rational q => exact nomatch hzero
  | ran a =>
    have hvars := (hasValue_of_generateZerosNumber hzero (fun _ => 0)).2
    have hall (α : σ → ℝ) := (hasValue_of_generateZerosNumber hzero α).1
    obtain ⟨hpos, hfree⟩ := shape_substituteBoth hsubRes hx hvars
    refine ⟨lib.positive_and _ ?_, free_create lib ?_, fun α hside => ?_⟩
    · rw [forall_mem_cons, List.forall_mem_map]
      exact ⟨hpos, fun sc _ => positive_ofConstraint sc⟩
    · rw [forall_mem_cons, List.forall_mem_map]
      refine ⟨hfree, fun sc hsc l hl α r => ?_⟩
      -- the side conditions of the zero hold everywhere
      cases sc with
      | constant b => exact absurd hl (PropFormula.Formula.mentions_const l b)
      | proper c =>
        obtain rfl := (PropFormula.Formula.mentions_atom l _).mp hl
        have hsc := (lib.mem_elements _ _).mp hsc
        exact iff_of_true ((hall _).sideCondition _ hsc) ((hall α).sideCondition _ hsc)
    · have hsides : ∀ sc ∈ lib.elements zero.2, Holds α (ofConstraint sc : FormulaT σ A) := by
        intro sc hsc
        rw [holds_ofConstraint]
        exact (hall α).sideCondition sc ((lib.mem_elements _ _).mp hsc)
      rw [holds_create_and, forall_mem_cons, List.forall_mem_map, and_iff_left hsides,
        holds_substituteBoth hfresh hsubRes hside hsubVar2 (hall α).defined, (hall α).value]
      simp only [sat_varcompare hval, hvar, update_self]
      exact Iff.rfl

/-- The substitution into a literal is exact. -/
theorem substituteLiteral_spec {l : Mcsat.Formula σ A} (hl : Supported l)
    (h : substituteLiteral lib fresh ⟨x, type⟩ l = some f) :
    Substituted x type (fun α => l.Sat α) f := by
  cases l with
  | constraint c =>
    obtain ⟨hpos, hholds⟩ := holds_substituteConstraint h
    exact ⟨hpos, free_substituteConstraint h (fun _ => rfl) fun _ => rfl, hholds⟩
  | varcompare v =>
    obtain ⟨n, hval⟩ := hl
    rw [substituteLiteral, substituteComparison] at h
    split_ifs at h with hvar
    · cases type with
      | normal term => exact substituted_value hfresh hx hsubVar2 hval h hvar
      | plusEpsilon term => exact substituted_value hfresh hx hsubVar2 hval h hvar
      | minusInfinity =>
        have hvar : v.var = x := hvar
        exact hvar ▸ substituted_minusInfinity hval h
      | plusInfinity => exact nomatch h
    · obtain rfl := some.inj h
      have hsat (α : σ → ℝ) (r : ℝ) :
          (Formula.varcompare v).Sat (update α x r) ↔ (Formula.varcompare v).Sat α := by
        rw [sat_varcompare hval, sat_varcompare hval, update_of_ne hvar]
      refine ⟨.atom _, fun l hl α r => ?_, fun α _ => ?_⟩
      · obtain rfl := (PropFormula.Formula.mentions_atom l _).mp hl
        exact hsat α r
      · simp only [hsat, eventually_const]
        exact holds_atom _
  | true | false | varassign => exact hl.elim

end Literal

end Smtrat.Mcsat.Vs
