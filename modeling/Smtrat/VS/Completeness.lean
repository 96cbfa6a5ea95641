import Smtrat.Math.TestPoints
import Smtrat.VS.Generation
import Smtrat.VS.SubstituteExact

/-!
# Completeness of the test candidates

If all conditions with the variable were used then their test candidates and minus infinity cover all
solutions.  If an equation without side conditions was used whose factors do not vanish then its test
candidates alone do.
-/

namespace Smtrat.VS

open SparsePoly List Function

universe u

variable {V : Type u} [DecidableEq V]

/-- All factors are linear or quadratic. -/
def LowDegree (lib : EliminationLibrary V) (elimination_with_factorization : Bool) (x : V)
    (c : Constraint V) : Prop :=
  ∀ f ∈ factorsOf lib elimination_with_factorization x c.lhs, Poly.maxDegree x f ≤ 2

/-- No factor vanishes at a solution of the conditions. -/
def NonVanishing (lib : EliminationLibrary V) (elimination_with_factorization : Bool)
    (conditions : List (Condition V)) (x : V) (c : Constraint V) : Prop :=
  ∀ α : V → ℝ, (∀ d ∈ conditions, d.constraint.Sat α) →
    ∀ f ∈ factorsOf lib elimination_with_factorization x c.lhs, Poly.univariate x α f ≠ 0

theorem NonVanishing.congr {lib : EliminationLibrary V} {elimination_with_factorization : Bool} {x : V} {c : Constraint V}
    {conditions conditions' : List (Condition V)}
    (h : NonVanishing lib elimination_with_factorization conditions x c)
    (hsub : ∀ d ∈ conditions, ∃ d' ∈ conditions', d'.constraint = d.constraint) :
    NonVanishing lib elimination_with_factorization conditions' x c := by
  intro α hα
  refine h α fun d hd => ?_
  obtain ⟨d', hd', heq⟩ := hsub d hd
  rw [← heq]
  exact hα d' hd'

def minusInfinity (x : V) : TestCandidate V := ⟨⟨x, .minusInfinity⟩, ∅⟩

namespace State

/-- A test candidate is defined and meets all conditions at the parameters. -/
structure Solves (s : State V) (α : V → ℝ) (candidate : TestCandidate V) : Prop where
  sideCondition : ∀ sc ∈ candidate.sideCondition, sc.Sat α
  defined : SideConditions α candidate.substitution.type
  meets : ∀ c ∈ s.conditions, Meets α (.proper c.constraint) s.index candidate.substitution.type

/-- If the conditions have a solution then some condition is left for the generation of test
candidates, or is of too high degree, or a test candidate leads to a solution. -/
def Complete (s : State V) : Prop :=
  ∀ α : V → ℝ, (∀ c ∈ s.conditions, c.constraint.Sat α) →
    (∃ c ∈ s.conditions, c.flag = false) ∨ s.tooHighDegreeConditions.Nonempty ∨
      ∃ child ∈ s.children, s.Solves α child.testCandidate

variable (lib : EliminationLibrary V) (elimination_with_factorization : Bool)

/-- All test candidates of the condition are there. -/
structure Used (s : State V) (c : Condition V) : Prop where
  lowDegree : LowDegree lib elimination_with_factorization s.index c.constraint
  provided : ∀ candidate ∈ allTestCandidates lib elimination_with_factorization s.index c.constraint,
    s.Provides c.id candidate
  minusInfinity : s.Provides c.id (minusInfinity s.index)

/-- The condition is an equation all of whose solutions are test candidates that are there. -/
structure Solved (s : State V) (c : Condition V) : Prop where
  relation : c.constraint.relation = .eq
  sideConditions : sideConditionsOf lib elimination_with_factorization s.index c.constraint.lhs = ∅
  lowDegree : LowDegree lib elimination_with_factorization s.index c.constraint
  nonVanishing : NonVanishing lib elimination_with_factorization s.conditions s.index c.constraint
  provided : ∀ candidate ∈ allTestCandidates lib elimination_with_factorization s.index c.constraint,
    s.Provides c.id candidate

variable {lib} {elimination_with_factorization} {s : State V} {c : Condition V} {α : V → ℝ}

/-- A factor without the variable is zero everywhere or nowhere. -/
theorem eval_of_univariate_ne_zero {f : Poly V ℚ} {x : V} (hne : Poly.univariate x α f ≠ 0)
    (hvar : ¬ Poly.hasVariable x f) : Poly.eval α f ≠ 0 := by
  rw [Poly.univariate_of_not_hasVariable x α hvar] at hne
  exact fun hzero => hne (by rw [hzero, Polynomial.C_0])

/-- A test candidate of the equation leads to the solution itself. -/
theorem Solved.complete (h : s.Solved lib elimination_with_factorization c) (hc : c ∈ s.conditions)
    (hα : ∀ d ∈ s.conditions, d.constraint.Sat α) :
    ∃ child ∈ s.children, s.Solves α child.testCandidate := by
  have hzero : Poly.eval α c.constraint.lhs = 0 := by
    have hsat := hα c hc
    rw [Constraint.Sat, h.relation] at hsat
    exact hsat
  obtain ⟨f, hf, hfzero⟩ :=
    (eval_eq_zero_iff_factor lib elimination_with_factorization).mp hzero
  have hvar : Poly.hasVariable s.index f := by
    by_contra hvar
    exact eval_ne_zero_of_sideConditionsOf h.sideConditions hf hvar α hfzero
  have hfac : f ∈ factorsOf lib elimination_with_factorization s.index c.constraint.lhs :=
    mem_filter.mpr ⟨hf, hvar⟩
  have hroot : (Poly.univariate s.index α f).eval (α s.index) = 0 := by
    rw [Poly.eval_univariate, update_eq_self]
    exact hfzero
  have hconds : ∀ sc ∈ sideConditionsOf lib elimination_with_factorization s.index
      c.constraint.lhs, sc.Sat α := by
    rw [h.sideConditions]
    exact fun sc hsc => absurd hsc (Finset.notMem_empty sc)
  obtain ⟨candidate, hmem, hside, term, hsubst, hdfn, hval⟩ :=
    exists_testCandidate c.constraint.relation hconds
      (h.lowDegree f hfac) (h.nonVanishing α hα f hfac) hroot
  obtain ⟨child, hch, hcand, -⟩ :=
    h.provided candidate (mem_flatMap.mpr ⟨f, hfac, hmem⟩)
  have hnorm : candidate.substitution.type = .normal term := by
    rw [hsubst, h.relation]
    rfl
  refine ⟨child, hch, ?_⟩
  rw [hcand]
  refine ⟨hside, ?_, fun d hd => ?_⟩
  · rw [hnorm]
    exact hdfn
  · rw [hnorm, Meets, hval, update_eq_self]
    exact hα d hd

/-- The used conditions cover all solutions. -/
theorem complete_of_used (lib : EliminationLibrary V) (elimination_with_factorization : Bool)
    (hused : ∀ d ∈ s.conditions, Poly.hasVariable s.index d.constraint.lhs →
      s.Used lib elimination_with_factorization d)
    (hc : c ∈ s.conditions) (hvar : Poly.hasVariable s.index c.constraint.lhs)
    (hα : ∀ d ∈ s.conditions, d.constraint.Sat α) :
    ∃ child ∈ s.children, s.Solves α child.testCandidate := by
  set conditions : List TestPoints.SignCondition := s.conditions.map fun d =>
    (d.constraint.relation, Poly.univariate s.index α d.constraint.lhs) with hconds
  have hhold (r : ℝ) : TestPoints.HoldAt conditions r ↔
      ∀ d ∈ s.conditions, d.constraint.Sat (update α s.index r) := by
    rw [TestPoints.HoldAt, hconds, forall_mem_map]
    exact forall₂_congr fun d _ => (sat_update_iff r).symm
  have hsol : TestPoints.HoldAt conditions (α s.index) := by
    rw [hhold, update_eq_self]
    exact hα
  rcases TestPoints.exists_testPoint hsol with ⟨m, hm⟩ | ⟨p, hp, z, hne, hzero, htest⟩
  · obtain ⟨child, hch, hcand, -⟩ := (hused c hc hvar).minusInfinity
    refine ⟨child, hch, ?_⟩
    rw [hcand]
    exact ⟨fun sc hsc => absurd hsc (Finset.notMem_empty sc), trivial,
      fun d hd => ⟨m, fun r hr => (hhold r).mp (hm r hr) d hd⟩⟩
  · obtain ⟨d, hd, rfl⟩ := mem_map.mp hp
    have hvar : Poly.hasVariable s.index d.constraint.lhs := by
      by_contra hvar
      refine eval_of_univariate_ne_zero hne hvar ?_
      rw [← Poly.eval_update_of_not_hasVariable s.index α hvar z, ← Poly.eval_univariate]
      exact hzero
    have hd' := hused d hd hvar
    -- one of the factors has the zero, and the factors without the variable are not zero
    have hzero' : Poly.eval (update α s.index z) d.constraint.lhs = 0 := by
      rw [← Poly.eval_univariate]
      exact hzero
    obtain ⟨f, hf, hfzero⟩ :=
      (eval_eq_zero_iff_factor lib elimination_with_factorization).mp hzero'
    have hfne := univariate_factor_ne_zero hne hf
    have hfvariable : Poly.hasVariable s.index f := by
      by_contra hfvariable
      refine eval_of_univariate_ne_zero hfne hfvariable ?_
      rw [← Poly.eval_update_of_not_hasVariable s.index α hfvariable z]
      exact hfzero
    have hfac : f ∈ factorsOf lib elimination_with_factorization s.index d.constraint.lhs :=
      mem_filter.mpr ⟨hf, hfvariable⟩
    obtain ⟨candidate, hmem, hside, term, hsubst, hdfn, hval⟩ :=
      exists_testCandidate d.constraint.relation
        (sat_sideConditionsOf (x := s.index) fun g hg hgvariable =>
          eval_of_univariate_ne_zero (univariate_factor_ne_zero hne hg) hgvariable)
        (hd'.lowDegree f hfac) hfne (by rw [Poly.eval_univariate]; exact hfzero)
    obtain ⟨child, hch, hcand, -⟩ :=
      hd'.provided candidate (mem_flatMap.mpr ⟨f, hfac, hmem⟩)
    refine ⟨child, hch, ?_⟩
    rw [hcand]
    rcases htest with ⟨hweak, hz⟩ | ⟨hstr, ε, hε, hz⟩
    · have htype : candidate.substitution.type = .normal term := by
        rw [hsubst]
        exact if_neg (Bool.eq_false_iff.mp hweak)
      refine ⟨hside, by rw [htype]; exact hdfn, fun e he => ?_⟩
      rw [htype, Meets, hval]
      exact (hhold z).mp hz e he
    · have htype : candidate.substitution.type = .plusEpsilon term := by
        rw [hsubst]
        exact if_pos hstr
      refine ⟨hside, by rw [htype]; exact hdfn, fun e he => ?_⟩
      rw [htype, Meets, hval]
      exact ⟨ε, hε, fun r hr hrε => (hhold r).mp (hz r hr hrε) e he⟩

end State

end Smtrat.VS
