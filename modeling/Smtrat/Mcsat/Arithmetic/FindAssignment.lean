import Smtrat.Mcsat.Arithmetic.AssignmentFinderCorrect

/-!
# The assignment finder on a trail

What the finder returns for the literals on the trail: a value of the variable if some real value
satisfies all literals that are univariate in it or assigned, and otherwise a conflict among the
asserted literals.  Constraints that are assigned are checked, comparisons that are assigned are
ignored, which matters as soon as one of them is false.
-/

namespace Smtrat.Mcsat
open List Function

variable {σ A : Type*} [DecidableEq σ]

namespace Bookkeeping

/-- The asserted literals. -/
def asserted (data : Bookkeeping σ A) : List (Formula σ A) := data.constraints ++ data.mvBounds

/-- The literal is univariate in the variable or fully assigned. -/
def Relevant (data : Bookkeeping σ A) (x : σ) (f : Formula σ A) : Prop :=
  categorize f data.model x = .univariate ∨ categorize f data.model x = .assigned

def Before (data : Bookkeeping σ A) (y z : σ) : Prop :=
  data.variableOrder.idxOf y < data.variableOrder.idxOf z

/-- The trail as the search keeps it: constraints mention variables, the variables in front of `x` are
assigned first, and a root only mentions variables in front of the variable it is compared with. -/
structure WellFormed (data : Bookkeeping σ A) (x : σ) : Prop where
  var : data.model x = none
  constraints : ∀ f ∈ data.constraints, ∃ c, f = .constraint c ∧ f.variables ≠ []
  mvBounds : ∀ f ∈ data.mvBounds, ∃ v, f = .varcompare v ∧
    ∀ y ∈ v.value.variables, data.Before y v.var
  order : ∀ y, (data.model y).isSome → data.Before y x

variable [RealAlgebraicNumber A]

/-- The assignment satisfies the relevant asserted literals. -/
def Satisfies (data : Bookkeeping σ A) (x : σ) (α : σ → ℝ) : Prop :=
  ∀ f ∈ data.asserted, data.Relevant x f → f.Sat α

end Bookkeeping

section Literals

variable {data : Bookkeeping σ A} {x : σ}

theorem root_of_univariate (hdata : data.WellFormed x) {v : VariableComparison σ A}
    (hv : (.varcompare v) ∈ data.mvBounds)
    (hcat : categorize (.varcompare v : Formula σ A) data.model x = .univariate) :
    x ∉ v.value.variables := by
  intro hmem
  obtain ⟨w, heq, hbef⟩ := hdata.mvBounds _ hv
  obtain rfl := Formula.varcompare.inj heq
  have hxv := hbef x hmem
  have hcov := coversBut_of_categorize (f := .varcompare v) (m := data.model) (x := x)
    (by rw [hcat]; decide)
  rcases hcov v.var mem_cons_self with hvar | hasgn
  · rw [hvar] at hxv
    exact lt_irrefl _ hxv
  · exact lt_asymm hxv (hdata.order v.var hasgn)

/-- A relevant literal that is not examined is an assigned comparison. -/
theorem examined_or_assigned (hdata : data.WellFormed x) {f : Formula σ A}
    (hf : f ∈ data.asserted) (hrelevant : data.Relevant x f) :
    Examined data.model x f ∨ f ∈ data.mvBounds ∧ categorize f data.model x = .assigned := by
  rcases hrelevant with h | h
  · exact .inl (.inl h)
  · rcases mem_append.mp hf with hf | hf
    · obtain ⟨c, hc, -⟩ := hdata.constraints f hf
      exact .inl (.inr ⟨h, c, hc⟩)
    · exact .inr ⟨hf, h⟩

theorem Examined.relevant {f : Formula σ A} (h : Examined data.model x f) : data.Relevant x f :=
  h.imp_right And.left

end Literals

variable [RealAlgebraicNumber A]

/-- A value is returned iff there is one, the value satisfies the relevant literals, and otherwise the
conflict is a set of asserted literals that no value satisfies. -/
structure FindsAssignment (data : Bookkeeping σ A) (x : σ)
    (res : Option (AssignmentOrConflict σ A)) : Prop where
  value_iff : (∃ v, res = some (.values [(x, v)])) ↔ ∃ α, data.model.Agrees α ∧ data.Satisfies x α
  value : ∀ v, res = some (.values [(x, v)]) →
    ∀ α, data.model.Agrees α → α x = v.toReal → data.Satisfies x α
  conflict : (¬ ∃ v, res = some (.values [(x, v)])) →
    ∃ fs, res = some (.conflict fs) ∧ fs ⊆ data.asserted ∧
      ∀ α, data.model.Agrees α → ∃ f ∈ fs, ¬ f.Sat α

section Spec

variable {data : Bookkeeping σ A} {x : σ} [LinearOrder (Formula σ A)] (carl : Evaluation σ A)

/-- The finder decides the examined literals. -/
theorem findAssignment_examined (hdata : data.WellFormed x) :
    (∃ v : Number A, findAssignment carl data x = some (.values [(x, v)]) ∧
      ∀ f ∈ data.asserted, Examined data.model x f →
        ∀ α, data.model.Agrees α → α x = v.toReal → f.Sat α) ∨
    ∃ fs, findAssignment carl data x = some (.conflict fs) ∧
      (∀ f ∈ fs, f ∈ data.asserted ∧ Examined data.model x f) ∧
      ∀ α, data.model.Agrees α → ∃ f ∈ fs, ¬ f.Sat α := by
  set α₀ := data.model.valuation
  have hα₀ : data.model.Agrees α₀ := data.model.agrees_valuation
  have hconf {fs : List (Formula σ A)} (hexam : ∀ f ∈ fs, Examined data.model x f)
      (hnot : ∀ t, ∃ f ∈ fs, ¬ f.At α₀ x t) (α : σ → ℝ) (hα : data.model.Agrees α) :
      ∃ f ∈ fs, ¬ f.Sat α := by
    obtain ⟨f, hf, hat⟩ := hnot (α x)
    exact ⟨f, hf, mt ((hexam f hf).coversBut.sat_iff hα₀ hα).mp hat⟩
  have hcons := addAll_outcome (fun af f => af.addConstraint carl f) data.constraints (by
      intro f hf added af h
      obtain ⟨c, rfl, hvars⟩ := hdata.constraints f hf
      exact addConstraint_outcome h hα₀ hdata.var hvars) (Collected.init data.model α₀ x)
  rw [findAssignment]
  rcases hcons with ⟨af, hok, hcoll⟩ | ⟨c, hc, herror, hexam, hnot⟩
  · rw [hok]
    dsimp only
    have hbds := addAll_outcome (fun af f => af.addMVBound carl f) data.mvBounds (by
        intro f hf added af h
        obtain ⟨v, rfl, -⟩ := hdata.mvBounds f hf
        exact addMVBound_outcome h hα₀ hdata.var (root_of_univariate hdata hf)) hcoll
    rcases hbds with ⟨af', hok', hcoll'⟩ | ⟨b, hb, herror, hexam, hnot⟩
    · rw [hok']
      dsimp only
      rw [nil_append] at hcoll'
      rcases hcoll'.findAssignment carl hα₀ with
        ⟨v, hval, hsat⟩ | ⟨fs, hfs, hsub, hnot⟩
      · refine .inl ⟨v, hval, fun f hf hexam α hα hx => ?_⟩
        rw [hexam.coversBut.sat_iff hα₀ hα, hx]
        exact hsat f hf hexam
      · exact .inr ⟨fs, hfs, hsub, hconf (fun f hf => (hsub f hf).2) hnot⟩
    · rw [herror]
      refine .inr ⟨[b], rfl, ?_, hconf ?_ fun t => ⟨b, mem_singleton.mpr rfl, hnot t⟩⟩
      · exact forall_mem_singleton.mpr ⟨mem_append_right _ hb, hexam⟩
      · exact forall_mem_singleton.mpr hexam
  · rw [herror]
    refine .inr ⟨[c], rfl, ?_, hconf ?_ fun t => ⟨c, mem_singleton.mpr rfl, hnot t⟩⟩
    · exact forall_mem_singleton.mpr ⟨mem_append_left _ hc, hexam⟩
    · exact forall_mem_singleton.mpr hexam

/-- The finder is right exactly if all assigned comparisons hold, or the examined literals already
have no common solution. -/
theorem findAssignment_correct_iff (hdata : data.WellFormed x) :
    FindsAssignment data x (findAssignment carl data x) ↔
      (∀ b ∈ data.mvBounds, categorize b data.model x = .assigned →
        ∀ α, data.model.Agrees α → b.Sat α) ∨
      ¬ ∃ α, data.model.Agrees α ∧ ∀ f ∈ data.asserted, Examined data.model x f → f.Sat α := by
  have hspec := findAssignment_examined carl hdata
  constructor
  · intro h
    by_contra hnot
    obtain ⟨hfalse, hsol⟩ := not_or.mp hnot
    obtain ⟨α, hα, hexam⟩ := not_not.mp hsol
    refine hfalse fun b hb hasgn β hβ => ?_
    rcases hspec with ⟨v, hval, -⟩ | ⟨fs, -, hsub, hconf⟩
    · -- the value satisfies the comparison, whose truth does not depend on the variable
      have hβ' := hβ.update hdata.var v.toReal
      have hbsat := h.value v hval _ hβ' (update_self _ _ _) b (mem_append_right _ hb) (.inr hasgn)
      refine (Formula.sat_congr fun y hy => ?_).mpr hbsat
      obtain ⟨n, hn⟩ := Option.isSome_iff_exists.mp (covers_of_assigned hasgn y hy)
      rw [hβ y n hn, hβ' y n hn]
    · obtain ⟨f, hf, hnot⟩ := hconf α hα
      exact absurd (hexam f (hsub f hf).1 (hsub f hf).2) hnot
  · intro hcond
    have hexam {α : σ → ℝ} (h : data.Satisfies x α) :
        ∀ f ∈ data.asserted, Examined data.model x f → f.Sat α :=
      fun f hf hexam => h f hf hexam.relevant
    rcases hspec with ⟨v, hval, hsat⟩ | ⟨fs, hfs, hsub, hconf⟩
    · have hagrees := data.model.agrees_valuation.update hdata.var v.toReal
      have hasgn := hcond.resolve_right (not_not.mpr ⟨_, hagrees, fun f hf hexam =>
        hsat f hf hexam _ hagrees (update_self _ _ _)⟩)
      have hall (α : σ → ℝ) (hα : data.model.Agrees α) (hx : α x = v.toReal) :
          data.Satisfies x α := by
        intro f hf hrelevant
        rcases examined_or_assigned hdata hf hrelevant with hexam | ⟨hbd, hcat⟩
        · exact hsat f hf hexam α hα hx
        · exact hasgn f hbd hcat α hα
      refine ⟨iff_of_true ⟨v, hval⟩ ⟨_, hagrees, hall _ hagrees (update_self _ _ _)⟩,
        fun w hw => ?_, fun hnot => absurd ⟨v, hval⟩ hnot⟩
      rw [hval] at hw
      obtain rfl : v = w := by simpa using hw
      exact hall
    · have hnovalue : ¬ ∃ v, findAssignment carl data x = some (.values [(x, v)]) := by
        rintro ⟨v, hv⟩
        rw [hfs] at hv
        exact nomatch hv
      refine ⟨iff_of_false hnovalue ?_, fun v hv => absurd ⟨v, hv⟩ hnovalue,
        fun _ => ⟨fs, hfs, fun f hf => (hsub f hf).1, hconf⟩⟩
      rintro ⟨α, hα, hall⟩
      obtain ⟨f, hf, hnot⟩ := hconf α hα
      exact hnot (hexam hall f (hsub f hf).1 (hsub f hf).2)

end Spec

/-! ## A comparison that is false under the model -/

/-- The model assigns `y = 1`, and the comparison `y < 0` is asserted. -/
noncomputable def falseBound : Bookkeeping String ℝ where
  model := fun y => if y = "y" then some (.rational 1) else none
  assignedVariables := ["y"]
  assignments := [.varassign "y" (.rational 1) false]
  constraints := []
  mvBounds := [.varcompare ⟨"y", .number (.rational 0), .less, false⟩]
  variableOrder := ["y", "x"]

theorem falseBound_assigned {f : Formula String ℝ} (hf : f ∈ falseBound.mvBounds) :
    categorize f falseBound.model "x" = .assigned := by
  obtain rfl := mem_singleton.mp hf
  simp [categorize, Formula.variables, ModelValue.variables, falseBound]

theorem falseBound_not_sat {f : Formula String ℝ} (hf : f ∈ falseBound.mvBounds)
    {α : String → ℝ} (hα : falseBound.model.Agrees α) : ¬ f.Sat α := by
  obtain rfl := mem_singleton.mp hf
  intro hsat
  have hy : α "y" = (1 : ℚ) := hα "y" (.rational 1) rfl
  have hlt : α "y" < (0 : ℚ) := (hsat (0 : ℚ) rfl).mpr Bool.false_ne_true
  rw [hy] at hlt
  exact absurd (Rat.cast_lt.mp hlt) (by decide)

theorem falseBound_wellFormed : falseBound.WellFormed "x" where
  var := rfl
  constraints := fun _ hf => absurd hf not_mem_nil
  mvBounds := by
    intro f hf
    exact ⟨_, mem_singleton.mp hf, fun y hy => absurd hy not_mem_nil⟩
  order := by
    intro y hy
    by_cases heq : y = "y"
    · rw [heq]
      show List.idxOf "y" ["y", "x"] < List.idxOf "x" ["y", "x"]
      decide
    · simp [falseBound, heq] at hy

/-- The comparison is ignored, and the variable gets a value. -/
theorem findAssignment_falseBound :
    ∃ v, findAssignment Reals.evaluation falseBound "x" = some (.values [("x", v)]) := by
  rcases findAssignment_examined Reals.evaluation falseBound_wellFormed with
    ⟨v, hv, -⟩ | ⟨fs, -, hsub, hconf⟩
  · exact ⟨v, hv⟩
  · obtain ⟨f, hf, -⟩ := hconf _ falseBound.model.agrees_valuation
    obtain ⟨hmem, hexam⟩ := hsub f hf
    have hasgn := falseBound_assigned hmem
    obtain rfl := mem_singleton.mp hmem
    rcases hexam with h | ⟨-, c, hc⟩
    · rw [hasgn] at h
      exact nomatch h
    · exact nomatch hc

theorem findAssignment_falseBound_incorrect :
    ¬ FindsAssignment falseBound "x" (findAssignment Reals.evaluation falseBound "x") := by
  intro h
  obtain ⟨α, hα, hsat⟩ := h.value_iff.mp findAssignment_falseBound
  have hmem : (.varcompare ⟨"y", .number (.rational 0), .less, false⟩ : Formula String ℝ)
      ∈ falseBound.mvBounds := mem_singleton.mpr rfl
  exact falseBound_not_sat hmem hα (hsat _ hmem (.inr (falseBound_assigned hmem)))

theorem findAssignment_correct_iff_falseBound :
    FindsAssignment falseBound "x" (findAssignment Reals.evaluation falseBound "x") ↔
      (∀ b ∈ falseBound.mvBounds, categorize b falseBound.model "x" = .assigned →
        ∀ α, falseBound.model.Agrees α → b.Sat α) ∨
      ¬ ∃ α, falseBound.model.Agrees α ∧
        ∀ f ∈ falseBound.asserted, Examined falseBound.model "x" f → f.Sat α :=
  findAssignment_correct_iff Reals.evaluation falseBound_wellFormed

end Smtrat.Mcsat
