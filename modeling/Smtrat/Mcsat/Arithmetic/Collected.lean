import Smtrat.Mcsat.Arithmetic.AssignmentFinder
import Smtrat.Mcsat.Arithmetic.Truth

/-!
# Collecting the literals

While the literals are added, every univariate literal is kept with its roots, or kept to be evaluated
on the samples because its truth does not depend on the variable, or it holds for every value.
-/

namespace Smtrat.Mcsat

open SparsePoly LineCells RealAlgebraicNumber List Function

variable {σ A : Type*} [DecidableEq σ]

/-! ## Categories -/

section Categories

variable {f : Formula σ A} {m : Model σ A} {x : σ}

theorem coversBut_of_categorize (h : categorize f m x ≠ .unassigned) : m.CoversBut x f := by
  intro y hy
  have hany : ¬ f.variables.any fun y => y ≠ x ∧ (m y).isNone := by
    intro hany
    refine h ?_
    rw [categorize, if_neg (ne_nil_of_mem hy), if_pos hany]
  by_contra hnot
  obtain ⟨hyx, hnone⟩ := not_or.mp hnot
  refine hany (any_eq_true.mpr ⟨y, hy, decide_eq_true ⟨hyx, ?_⟩⟩)
  rwa [Bool.not_eq_true, Option.isSome_eq_false_iff] at hnone

theorem mem_of_univariate (h : categorize f m x = .univariate) : x ∈ f.variables := by
  unfold categorize at h
  split_ifs at h with hconst hany hnext
  exact hnext

theorem covers_of_assigned (h : categorize f m x = .assigned) : m.Covers f.variables := by
  intro y hy
  have hcov := coversBut_of_categorize (f := f) (m := m) (x := x) (by rw [h]; decide) y hy
  refine hcov.resolve_left fun hyx => ?_
  unfold categorize at h
  split_ifs at h with hconst hany hnext
  exact hnext (hyx ▸ hy)

theorem variables_of_constant (h : categorize f m x = .constant) : f.variables = [] := by
  unfold categorize at h
  split_ifs at h with hconst hany hnext
  exact hconst

/-- The literals the finder looks at: univariate literals and assigned constraints. -/
def Examined (m : Model σ A) (x : σ) (f : Formula σ A) : Prop :=
  categorize f m x = .univariate ∨ categorize f m x = .assigned ∧ ∃ c, f = .constraint c

theorem Examined.coversBut (h : Examined m x f) : m.CoversBut x f := by
  refine coversBut_of_categorize ?_
  rcases h with h | ⟨h, -⟩
  · rw [h]
    decide
  · rw [h]
    decide

end Categories

variable [RealAlgebraicNumber A]

/-- The literal at the value `t` of `x`. -/
def Formula.At (α : σ → ℝ) (x : σ) (f : Formula σ A) (t : ℝ) : Prop :=
  f.Sat (update α x t)

/-- A literal that is kept with its roots. -/
structure RootEntry (m : Model σ A) (α : σ → ℝ) (x : σ) (roots : List A)
    (e : Formula σ A × (List A × Formula σ A)) : Prop where
  examined : Examined m x e.1
  coversBut_new : m.CoversBut x e.2.2
  sat_new : ∀ t, e.2.2.At α x t ↔ e.1.At α x t
  sorted : e.2.1.Pairwise (· < ·)
  subset : e.2.1 ⊆ roots
  respects : Respects (e.2.1.map toReal) (e.1.At α x)

/-- What is known of the finder when the literals `added` were added. -/
structure Collected (m : Model σ A) (α : σ → ℝ) (x : σ) (added : List (Formula σ A))
    (af : AssignmentFinder σ A) : Prop where
  var : af.var = x
  model : af.model = m
  ri : af.ri = ⟨af.ri.roots, [], []⟩
  rootMap : ∀ e ∈ af.rootMap, e.1 ∈ added ∧ RootEntry m α x af.ri.roots e
  mvBounds : ∀ b ∈ af.mvBounds, m.CoversBut x b ∧
    (b ∈ added ∧ Examined m x b ∧ (∀ s t, b.At α x s ↔ b.At α x t) ∨ ∀ t, b.At α x t)
  handled : ∀ f ∈ added, Examined m x f →
    (∀ t, f.At α x t) ∨ (∃ w, (f, w) ∈ af.rootMap) ∨ f ∈ af.mvBounds

namespace Collected

variable {m : Model σ A} {α : σ → ℝ} {x : σ} {added : List (Formula σ A)}
  {af : AssignmentFinder σ A} {f : Formula σ A}

theorem init (m : Model σ A) (α : σ → ℝ) (x : σ) :
    Collected m α x [] (AssignmentFinder.init x m) where
  var := rfl
  model := rfl
  ri := rfl
  rootMap := fun _ he => absurd he not_mem_nil
  mvBounds := fun _ hb => absurd hb not_mem_nil
  handled := fun _ hf => absurd hf not_mem_nil

/-- A literal that holds everywhere, or is not examined, is left out. -/
theorem skip (h : Collected m α x added af) (hf : Examined m x f → ∀ t, f.At α x t) :
    Collected m α x (added ++ [f]) af where
  var := h.var
  model := h.model
  ri := h.ri
  rootMap := fun e he => ⟨mem_append_left _ (h.rootMap e he).1, (h.rootMap e he).2⟩
  mvBounds := by
    intro b hb
    obtain ⟨hcov, hconst⟩ := h.mvBounds b hb
    exact ⟨hcov, hconst.imp_left (And.imp_left (mem_append_left _))⟩
  handled := by
    intro g hg hexam
    rcases mem_append.mp hg with hg | hg
    · exact h.handled g hg hexam
    · obtain rfl := mem_singleton.mp hg
      exact .inl (hf hexam)

theorem addRoots [LinearOrder (Formula σ A)] {fnew : Formula σ A} {list : List A}
    (h : Collected m α x added af) (he : RootEntry m α x list (f, (list, fnew))) :
    Collected m α x (added ++ [f]) (af.addRoots f fnew list) where
  var := h.var
  model := h.model
  ri := by
    show RootIndexer.add af.ri list = ⟨af.ri.roots ++ list, [], []⟩
    rw [RootIndexer.add, h.ri]
  rootMap := by
    intro e hmem
    rcases OrderedMap.mem_emplace hmem with hmem | rfl
    · obtain ⟨hadded, hent⟩ := h.rootMap e hmem
      exact ⟨mem_append_left _ hadded,
        { hent with subset := List.Subset.trans hent.subset (subset_append_left _ _) }⟩
    · exact ⟨mem_append_right _ (mem_singleton.mpr rfl),
        { he with subset := subset_append_right _ _ }⟩
  mvBounds := by
    intro b hb
    obtain ⟨hcov, hconst⟩ := h.mvBounds b hb
    exact ⟨hcov, hconst.imp_left (And.imp_left (mem_append_left _))⟩
  handled := by
    intro g hg hexam
    rcases mem_append.mp hg with hg | hg
    · rcases h.handled g hg hexam with hsat | ⟨w, hw⟩ | hbd
      · exact .inl hsat
      · exact .inr (.inl ⟨w, OrderedMap.mem_emplace_of_mem hw⟩)
      · exact .inr (.inr hbd)
    · obtain rfl := mem_singleton.mp hg
      exact .inr (.inl (OrderedMap.exists_mem_emplace _ _ _))

/-- A literal that is evaluated on the samples: its own truth is constant, or it is the rest of a
literal that holds everywhere. -/
theorem addBound {b : Formula σ A} (h : Collected m α x added af) (hcov : m.CoversBut x b)
    (hb : (b = f ∧ Examined m x f ∧ ∀ s t, b.At α x s ↔ b.At α x t) ∨
      (∀ t, b.At α x t) ∧ (Examined m x f → ∀ t, f.At α x t)) :
    Collected m α x (added ++ [f]) { af with mvBounds := af.mvBounds ++ [b] } where
  var := h.var
  model := h.model
  ri := h.ri
  rootMap := fun e he => ⟨mem_append_left _ (h.rootMap e he).1, (h.rootMap e he).2⟩
  mvBounds := by
    intro c hc
    rcases mem_append.mp hc with hc | hc
    · obtain ⟨hcov, hconst⟩ := h.mvBounds c hc
      exact ⟨hcov, hconst.imp_left (And.imp_left (mem_append_left _))⟩
    · obtain rfl := mem_singleton.mp hc
      refine ⟨hcov, hb.imp (fun hb => ⟨?_, ?_, hb.2.2⟩) And.left⟩
      · exact mem_append_right _ (mem_singleton.mpr hb.1)
      · exact hb.1 ▸ hb.2.1
  handled := by
    intro g hg hexam
    rcases mem_append.mp hg with hg | hg
    · rcases h.handled g hg hexam with hsat | hroots | hbd
      · exact .inl hsat
      · exact .inr (.inl hroots)
      · exact .inr (.inr (mem_append_left _ hbd))
    · obtain rfl := mem_singleton.mp hg
      rcases hb with ⟨rfl, -⟩ | ⟨-, hsat⟩
      · exact .inr (.inr (mem_append_right _ (mem_singleton.mpr rfl)))
      · exact .inl (hsat hexam)

end Collected

/-! ## Adding a literal -/

/-- What an added literal leads to: it is collected, or it holds nowhere. -/
def Outcome (m : Model σ A) (α : σ → ℝ) (x : σ) (added : List (Formula σ A)) (f : Formula σ A)
    (res : Bool × AssignmentFinder σ A) : Prop :=
  (res.1 = true ∧ Collected m α x (added ++ [f]) res.2) ∨
    res.1 = false ∧ Examined m x f ∧ ∀ t, ¬ f.At α x t

section Add

variable {carl : Evaluation σ A} {m : Model σ A} {α : σ → ℝ} {x : σ}
  {added : List (Formula σ A)} {af : AssignmentFinder σ A} {f : Formula σ A}

theorem at_substitute (carl : Evaluation σ A) (hα : m.Agrees α) (hx : m x = none) (t : ℝ) :
    (carl.substitute f m).At α x t ↔ f.At α x t :=
  carl.sat_substitute (hα.update hx t)

theorem coversBut_substitute (carl : Evaluation σ A) (hf : m.CoversBut x f) :
    m.CoversBut x (carl.substitute f m) :=
  fun y hy => hf y (carl.variables_substitute hy)

variable [LinearOrder (Formula σ A)]

theorem addUnivariate_outcome (h : Collected m α x added af) (hα : m.Agrees α) (hx : m x = none)
    {c : Constraint σ} (hexam : Examined m x (.constraint c : Formula σ A)) :
    Outcome m α x added (.constraint c) (af.addUnivariate carl (.constraint c)) := by
  have hcov := hexam.coversBut
  have hat := at_substitute (f := .constraint c) carl hα hx
  have hnew := coversBut_substitute carl hcov
  obtain rfl := h.var
  obtain rfl := h.model
  rw [AssignmentFinder.addUnivariate]
  rcases carl.substitute_constraint c af.model with htrue | hfalse | ⟨d, hd⟩
  · rw [htrue] at hat ⊢
    exact .inl ⟨rfl, h.skip fun _ t => (hat t).mp trivial⟩
  · rw [hfalse] at hat ⊢
    exact .inr ⟨rfl, hexam, fun t => (hat t).mpr⟩
  · rw [hd] at hat hnew ⊢
    dsimp only
    cases hroots : carl.tryRealRoots d.lhs af.var af.model with
    | none =>
      have hconst := constraint_const carl hnew hα hroots
      refine .inl ⟨rfl, h.addBound hcov (.inl ⟨rfl, hexam, fun s t => ?_⟩)⟩
      rw [← hat, ← hat]
      exact hconst s t
    | some list =>
      have hrespects := respects_constraint carl hnew hα hroots
      refine .inl ⟨rfl, h.addRoots ⟨hexam, hnew, hat, ?_, List.Subset.refl _, fun s t hst => ?_⟩⟩
      · exact (carl.tryRealRoots_some hnew.covers_filter hα hroots).2.1
      · rw [← hat, ← hat]
        exact hrespects s t hst

theorem addConstraint_outcome (h : Collected m α x added af) (hα : m.Agrees α) (hx : m x = none)
    {c : Constraint σ} (hvars : Poly.variables c.lhs ≠ []) :
    Outcome m α x added (.constraint c) (af.addConstraint carl (.constraint c)) := by
  have hat := at_substitute (f := .constraint c) carl hα hx
  obtain rfl := h.var
  obtain rfl := h.model
  unfold AssignmentFinder.addConstraint
  cases hcat : categorize (.constraint c : Formula σ A) af.model af.var with
  | constant => exact absurd (variables_of_constant hcat) hvars
  | assigned =>
    have hexam : Examined af.model af.var (.constraint c) := .inr ⟨hcat, c, rfl⟩
    rcases carl.substitute_assigned (covers_of_assigned hcat) with htrue | hfalse
    · rw [htrue] at hat
      rw [htrue]
      exact .inl ⟨rfl, h.skip fun _ t => (hat t).mp trivial⟩
    · rw [hfalse] at hat
      rw [hfalse]
      exact .inr ⟨rfl, hexam, fun t => (hat t).mpr⟩
  | univariate => exact addUnivariate_outcome h hα hx (.inl hcat)
  | unassigned =>
    refine .inl ⟨rfl, h.skip fun hexam => ?_⟩
    rcases hexam with hexam | ⟨hexam, -⟩
    · rw [hcat] at hexam
      exact absurd hexam (by decide)
    · rw [hcat] at hexam
      exact absurd hexam (by decide)

theorem addMVBound_outcome (h : Collected m α x added af) (hα : m.Agrees α) (hx : m x = none)
    {v : VariableComparison σ A}
    (hroot : categorize (.varcompare v : Formula σ A) m x = .univariate → x ∉ v.value.variables) :
    Outcome m α x added (.varcompare v) (af.addMVBound carl (.varcompare v)) := by
  have hat := at_substitute (f := .varcompare v) carl hα hx
  obtain rfl := h.var
  obtain rfl := h.model
  rw [AssignmentFinder.addMVBound]
  have hskip (hcat : categorize (.varcompare v : Formula σ A) af.model af.var ≠ .univariate) :
      Outcome af.model α af.var added (.varcompare v) (true, af) := by
    refine .inl ⟨rfl, h.skip fun hexam => ?_⟩
    rcases hexam with hexam | ⟨-, c, hc⟩
    · exact absurd hexam hcat
    · exact nomatch hc
  cases hcat : categorize (.varcompare v : Formula σ A) af.model af.var with
  | constant => exact hskip (by rw [hcat]; decide)
  | assigned => exact hskip (by rw [hcat]; decide)
  | unassigned => exact hskip (by rw [hcat]; decide)
  | univariate =>
    have hexam : Examined af.model af.var (.varcompare v) := .inl hcat
    have hcov := hexam.coversBut
    have hnew := coversBut_substitute carl hcov
    have hnot := hroot hcat
    have hvar : v.var = af.var := by
      rcases mem_cons.mp (mem_of_univariate hcat) with heq | hmem
      · exact heq.symm
      · exact absurd hmem hnot
    rcases carl.substitute_varcompare (v := v) (m := af.model) (by rw [hvar, hx]) with
      htrue | hfalse | ⟨value, hsub, hval⟩
    · rw [htrue] at hat
      rw [htrue]
      exact .inl ⟨rfl, h.skip fun _ t => (hat t).mp trivial⟩
    · rw [hfalse] at hat
      rw [hfalse]
      exact .inr ⟨rfl, hexam, fun t => (hat t).mpr⟩
    · rw [hval] at hat hnew
      rw [hval]
      have hent (a : A) (ha : ∀ s t, value.IsValue (update α af.var t) s ↔ s = toReal a) :
          Outcome af.model α af.var added (.varcompare v)
            (true, af.addRoots (.varcompare v) (.varcompare { v with value := value }) [a]) := by
        have hrespects := respects_varcompare (v := { v with value := value }) hvar ha
        refine .inl ⟨rfl, h.addRoots ⟨hexam, hnew, hat, pairwise_singleton _ _,
          List.Subset.refl _, fun s t hst => ?_⟩⟩
        rw [← hat, ← hat]
        exact hrespects s t hst
      cases value with
      | number n =>
        cases n with
        | rational q =>
          refine hent (ofRational q) fun s t => ?_
          rw [toReal_ofRational]
          exact Iff.rfl
        | ran a => exact hent a fun s t => Iff.rfl
      | substitution r =>
        have hupd (s t : ℝ) : r.IsValue (update α af.var t) s ↔ r.IsValue α s := by
          refine r.isValue_congr (fun y hy => update_of_ne ?_ t α) s
          rintro rfl
          exact hnot (hsub hy)
        have hrvars : af.model.Covers r.variables := by
          intro y hy
          refine (hnew y (mem_cons_of_mem _ hy)).resolve_left ?_
          rintro rfl
          exact hnot (hsub hy)
        dsimp only
        cases heval : carl.evaluateSubstitution r af.model with
        | number n =>
          have hval := carl.evaluateSubstitution_number hrvars hα heval
          have hunique (s t : ℝ) : r.IsValue (update α af.var t) s ↔ s = n.toReal := by
            rw [hupd]
            refine ⟨fun hs => hs.unique hval, ?_⟩
            rintro rfl
            exact hval
          cases n with
          | rational q =>
            refine hent (ofRational q) fun s t => ?_
            rw [toReal_ofRational]
            exact hunique s t
          | ran a => exact hent a hunique
        | substitution r' =>
          have hnone := carl.evaluateSubstitution_substitution hrvars hα heval
          have hsat (t : ℝ) : (.varcompare { v with value := .substitution r } :
              Formula σ A).At α af.var t :=
            fun s hs => absurd ((hupd s t).mp hs) (hnone s)
          refine .inl ⟨rfl, h.addBound hnew (.inr ⟨hsat, fun _ t => (hat t).mp (hsat t)⟩)⟩

end Add

/-- Adding literals one after the other collects them all, or stops at one that holds nowhere. -/
theorem addAll_outcome {m : Model σ A} {α : σ → ℝ} {x : σ}
    (add : AssignmentFinder σ A → Formula σ A → Bool × AssignmentFinder σ A)
    (cs : List (Formula σ A)) {added : List (Formula σ A)} {af : AssignmentFinder σ A}
    (hadd : ∀ f ∈ cs, ∀ added af, Collected m α x added af → Outcome m α x added f (add af f))
    (h : Collected m α x added af) :
    (∃ af', AssignmentFinder.addAll add cs af = .ok af' ∧ Collected m α x (added ++ cs) af') ∨
      ∃ c ∈ cs, AssignmentFinder.addAll add cs af = .error c ∧ Examined m x c ∧
        ∀ t, ¬ c.At α x t := by
  induction cs generalizing added af with
  | nil => exact .inl ⟨af, rfl, by rwa [append_nil]⟩
  | cons c cs ih =>
    have hc := hadd c mem_cons_self added af h
    rw [AssignmentFinder.addAll]
    rcases hres : add af c with ⟨b, af'⟩
    rw [hres] at hc
    rcases hc with ⟨rfl, hcoll⟩ | ⟨rfl, hexam, hnot⟩
    · rcases ih (fun f hf => hadd f (mem_cons_of_mem _ hf)) hcoll with
        ⟨af'', hok, hall⟩ | ⟨d, hd, herror, hrest⟩
      · refine .inl ⟨af'', hok, ?_⟩
        rwa [append_assoc, singleton_append] at hall
      · exact .inr ⟨d, mem_cons_of_mem _ hd, herror, hrest⟩
    · exact .inr ⟨c, mem_cons_self, rfl, hexam, hnot⟩

end Smtrat.Mcsat
