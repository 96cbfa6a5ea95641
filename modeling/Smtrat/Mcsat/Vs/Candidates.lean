import Smtrat.Math.TestPoints
import Smtrat.Mcsat.Vs.Exactness

/-!
# The test candidates of literals

Where the side conditions of a test candidate hold, it is defined.  The test candidates cover all
solutions if each negated comparison has a comparison beside it that provides the test candidate which
the negation needs.
-/

namespace Smtrat.Mcsat.Vs

open SparsePoly Smtrat.VS Filter List Function

universe u v

variable {σ : Type u} {A : Type v} {x : σ}

/-- Beside each negated comparison there is one that provides the test candidate it needs. -/
def Provided (x : σ) (ls : List (Mcsat.Formula σ A)) : Prop :=
  ∀ v, .varcompare v ∈ ls → v.var = x → v.negated = true →
    ∃ w, .varcompare w ∈ ls ∧ w.var = x ∧ w.value = v.value ∧ w.negated = false ∧
      w.relation.isStrict = v.relation.inverse.isStrict

variable {ls : List (Mcsat.Formula σ A)}

/-- The comparison that provides the test candidate of a comparison. -/
theorem exists_provider (hprov : Provided x ls)
    {v : VariableComparison σ A} (hv : .varcompare v ∈ ls) (hvar : v.var = x) :
    ∃ w, .varcompare w ∈ ls ∧ w.var = x ∧ w.value = v.value ∧
      w.relation.isStrict = (varcompRelation v).isStrict := by
  rw [varcompRelation]
  cases hneg : v.negated with
  | true =>
    obtain ⟨w, hw, hwvar, hval, -, hstr⟩ := hprov v hv hvar hneg
    exact ⟨w, hw, hwvar, hval, hstr⟩
  | false => exact ⟨v, hv, hvar, rfl, rfl⟩

variable [DecidableEq σ]

variable {candidate : TestCandidate σ}

theorem mem_foldl_addOrMerge (new results : List (TestCandidate σ)) :
    candidate ∈ new.foldl addOrMergeTestCandidate results ↔ candidate ∈ results ∨ candidate ∈ new := by
  induction new generalizing results with
  | nil => simp
  | cons first new ih =>
    rw [foldl_cons, ih, addOrMergeTestCandidate, mem_cons]
    split_ifs with hmem
    · constructor
      · exact fun h => h.imp_right .inr
      · rintro (h | rfl | h)
        · exact .inl h
        · exact .inl hmem
        · exact .inr h
    · rw [mem_append, mem_singleton, or_assoc]

variable [RealAlgebraicNumber A] {lib : ExplanationLibrary σ A} {α : σ → ℝ}

variable {candidates : List (TestCandidate σ)}

/-- The test candidates are minus infinity and those of the literals. -/
theorem mem_generateTestCandidates (h : generateTestCandidates lib x ls = some candidates) :
    candidate ∈ candidates ↔ candidate = ⟨⟨x, .minusInfinity⟩, ∅⟩ ∨
      ∃ l ∈ ls, ∃ new, candidatesOf lib x l = some new ∧ candidate ∈ new := by
  rw [generateTestCandidates] at h
  obtain ⟨lists, hlists, rfl⟩ := Option.map_eq_some_iff.mp h
  rw [mem_foldl_addOrMerge, mem_singleton, mem_flatten]
  refine or_congr_right ⟨?_, ?_⟩
  · rintro ⟨new, hnew, hmem⟩
    obtain ⟨l, hl, hres⟩ := exists_argument hlists hnew
    exact ⟨l, hl, new, hres, hmem⟩
  · rintro ⟨l, hl, new, hres, hmem⟩
    obtain ⟨new', hnew', hres'⟩ := exists_result hlists hl
    rw [hres] at hres'
    exact ⟨new', hnew', Option.some.inj hres' ▸ hmem⟩

variable {l : Mcsat.Formula σ A}

/-- What a zero of a literal is. -/
theorem zero_of_literal {zeros : List (Zero σ)}
    (h : generateZerosLiteral lib x l = some zeros) {zero : Zero σ} (hzero : zero ∈ zeros) :
    (∀ α : σ → ℝ, (∀ sc ∈ zero.2, sc.Sat α) → zero.1.Defined α) ∧
      ∀ y ∈ SqrtEx.variables zero.1, y ∈ l.variables ∧ y ≠ x := by
  cases l with
  | constraint c =>
    exact ⟨fun α hside => (isRoot_of_generateZeros h hzero hside).1,
      fun y hy => variables_of_generateZeros h hzero hy⟩
  | varcompare v =>
    rw [generateZerosLiteral] at h
    split_ifs at h
    · obtain ⟨zero', hval, rfl⟩ := Option.map_eq_some_iff.mp h
      obtain rfl := mem_singleton.mp hzero
      cases hv : v.value with
      | substitution root =>
        rw [hv] at hval
        exact nomatch hval
      | number n =>
        rw [hv] at hval
        cases n with
        | rational q => exact nomatch hval
        | ran a =>
          exact ⟨fun α _ => (hasValue_of_generateZerosNumber hval α).1.defined,
            fun y hy => absurd hy ((hasValue_of_generateZerosNumber hval fun _ => 0).2 y)⟩
    · rw [← Option.some.inj h] at hzero
      exact absurd hzero not_mem_nil
  | true | false =>
    rw [← Option.some.inj h] at hzero
    exact absurd hzero not_mem_nil
  | varassign => exact nomatch h

/-- What a test candidate is. -/
structure IsCandidate (x : σ) (ls : List (Mcsat.Formula σ A)) (candidate : TestCandidate σ) : Prop where
  var : candidate.substitution.var = x
  defined : ∀ α : σ → ℝ, (∀ sc ∈ candidate.sideCondition, sc.Sat α) →
    SideConditions α candidate.substitution.type
  vars : ∀ y ∈ SubstitutionType.variables candidate.substitution.type,
    (∃ l ∈ ls, y ∈ l.variables) ∧ y ≠ x

theorem isCandidate_of_mem (h : generateTestCandidates lib x ls = some candidates)
    (hmem : candidate ∈ candidates) : IsCandidate x ls candidate := by
  rcases (mem_generateTestCandidates h).mp hmem with rfl | ⟨l, hl, new, hnew, hmem⟩
  · exact ⟨rfl, fun _ _ => trivial, fun y hy => absurd hy not_mem_nil⟩
  · obtain ⟨zeros, hzeros, rfl⟩ := Option.map_eq_some_iff.mp hnew
    obtain ⟨zero, hzero, rfl⟩ := mem_map.mp hmem
    obtain ⟨hdfn, hvars⟩ := zero_of_literal hzeros hzero
    refine ⟨rfl, fun α hside => ?_, fun y hy => ?_⟩
    · show SideConditions α (subType (relation l) zero.1)
      rw [subType]
      split_ifs
      · exact hdfn α hside
      · exact hdfn α hside
    · have hy : y ∈ SqrtEx.variables zero.1 := by
        have hy : y ∈ SubstitutionType.variables (subType (relation l) zero.1) := hy
        rw [subType] at hy
        split_ifs at hy
        · exact hy
        · exact hy
      obtain ⟨hyl, hne⟩ := hvars y hy
      exact ⟨⟨l, hl, hyl⟩, hne⟩

/-! ## Completeness -/

/-- The sign condition of a literal along the line. -/
noncomputable def signCondition (x : σ) (α : σ → ℝ) : Mcsat.Formula σ A → TestPoints.SignCondition
  | .constraint c => (c.relation, Poly.univariate x α c.lhs)
  | .varcompare v =>
    match v.value with
    | .number n =>
      if v.var = x then (varcompRelation v, Polynomial.X - Polynomial.C n.toReal) else (.eq, 0)
    | .substitution _ => (.eq, 0)
  | .true | .false | .varassign .. => (.eq, 0)

theorem signCondition_iff (hl : Supported l) (hα : l.Sat α) (r : ℝ) :
    (signCondition x α l).1.evaluate ((signCondition x α l).2.eval r) 0 ↔ l.Sat (update α x r) := by
  cases l with
  | constraint c =>
    rw [signCondition, Poly.eval_univariate]
    exact Iff.rfl
  | varcompare v =>
    obtain ⟨n, hval⟩ := hl
    rw [sat_varcompare hval] at hα ⊢
    rw [signCondition, hval]
    dsimp only
    split_ifs with hvar
    · rw [hvar, update_self, Polynomial.eval_sub, Polynomial.eval_X, Polynomial.eval_C,
        Relation.evaluate_sub_zero]
    · rw [update_of_ne hvar, Polynomial.eval_zero]
      exact iff_of_true rfl hα
  | true | false | varassign => exact hl.elim

/-- The zero of a literal's sign condition is the value of a test candidate of the right type. -/
theorem exists_candidate
    (h : generateTestCandidates lib x ls = some candidates) (hprov : Provided x ls) (hl : l ∈ ls) (hsupp : Supported l) {z : ℝ}
    (hne : (signCondition x α l).2 ≠ 0) (hzero : (signCondition x α l).2.eval z = 0) :
    ∃ zero : Zero σ, ∃ relation : Relation, HasValue zero α z ∧
      relation.isStrict = (signCondition x α l).1.isStrict ∧
      (⟨⟨x, subType relation zero.1⟩, zero.2⟩ : TestCandidate σ) ∈ candidates := by
  have hmem {l' : Mcsat.Formula σ A} (hl' : l' ∈ ls) {zeros : List (Zero σ)}
      (hzeros : generateZerosLiteral lib x l' = some zeros) {zero : Zero σ} (hzero : zero ∈ zeros) :
      (⟨⟨x, subType (relation l') zero.1⟩, zero.2⟩ : TestCandidate σ) ∈ candidates := by
    have hcands : candidatesOf lib x l' = some (zeros.map fun zero =>
        ⟨⟨x, subType (relation l') zero.1⟩, zero.2⟩) := by
      rw [candidatesOf, hzeros]
      rfl
    exact (mem_generateTestCandidates h).mpr (.inr ⟨l', hl', _, hcands,
      mem_map.mpr ⟨zero, hzero, rfl⟩⟩)
  obtain ⟨lists, hlists, -⟩ := Option.map_eq_some_iff.mp h
  have hgen {l' : Mcsat.Formula σ A} (hl' : l' ∈ ls) :
      ∃ zeros, generateZerosLiteral lib x l' = some zeros := by
    obtain ⟨new, -, hnew⟩ := exists_result hlists hl'
    obtain ⟨zeros, hzeros, -⟩ := Option.map_eq_some_iff.mp hnew
    exact ⟨zeros, hzeros⟩
  cases l with
  | constraint c =>
    obtain ⟨zeros, hzeros⟩ := hgen hl
    obtain ⟨zero, hzero, hval⟩ := exists_zero hzeros hne hzero
    exact ⟨zero, c.relation, hval, rfl, hmem hl hzeros hzero⟩
  | varcompare v =>
    obtain ⟨n, hn⟩ := hsupp
    rw [signCondition, hn] at hne hzero ⊢
    dsimp only at hne hzero ⊢
    split_ifs at hne hzero ⊢ with hvar
    · obtain ⟨w, hw, hwvar, hwvalue, hstr⟩ := exists_provider hprov hl hvar
      obtain ⟨zeros, hzeros⟩ := hgen hw
      have hzeros' := hzeros
      rw [generateZerosLiteral, if_pos hwvar, hwvalue, hn] at hzeros'
      obtain ⟨zero, hnumber, rfl⟩ := Option.map_eq_some_iff.mp hzeros'
      cases n with
      | rational q => cases hnumber
      | ran a =>
        have hz : z = RealAlgebraicNumber.toReal a := by
          rw [Polynomial.eval_sub, Polynomial.eval_X, Polynomial.eval_C] at hzero
          exact sub_eq_zero.mp hzero
        refine ⟨zero, w.relation, ?_, hstr, hmem hw hzeros mem_cons_self⟩
        rw [hz]
        exact (hasValue_of_generateZerosNumber hnumber α).1
    · exact absurd rfl hne
  | true | false | varassign => exact hsupp.elim

/-- Some test candidate meets all literals where they have a solution. -/
theorem exists_meeting_candidate (h : generateTestCandidates lib x ls = some candidates)
    (hprov : Provided x ls) (hsupp : ∀ l ∈ ls, Supported l) (hα : ∀ l ∈ ls, l.Sat α) :
    ∃ candidate ∈ candidates, (∀ sc ∈ candidate.sideCondition, sc.Sat α) ∧
      ∀ l ∈ ls, ∀ᶠ r in points α candidate.substitution.type, l.Sat (update α x r) := by
  have hhold (r : ℝ) : TestPoints.HoldAt (ls.map (signCondition x α)) r ↔
      ∀ l ∈ ls, l.Sat (update α x r) := by
    rw [TestPoints.HoldAt, forall_mem_map]
    exact forall₂_congr fun l hl => signCondition_iff (hsupp l hl) (hα l hl) r
  have hsol : TestPoints.HoldAt (ls.map (signCondition x α)) (α x) := by
    rw [hhold, update_eq_self]
    exact hα
  rcases TestPoints.exists_testPoint hsol with ⟨m, hm⟩ | ⟨c, hc, z, hne, hzero, htest⟩
  · refine ⟨_, (mem_generateTestCandidates h).mpr (.inl rfl),
      fun sc hsc => absurd hsc (Finset.notMem_empty sc), fun l hl => ?_⟩
    exact eventually_atBot.mpr ⟨m, fun r hr => (hhold r).mp (hm r hr) l hl⟩
  · obtain ⟨l, hl, rfl⟩ := mem_map.mp hc
    obtain ⟨zero, relation, hval, hstr, hmem⟩ :=
      exists_candidate h hprov hl (hsupp l hl) hne hzero
    refine ⟨_, hmem, hval.sideCondition, fun l' hl' => ?_⟩
    rw [← hstr] at htest
    show ∀ᶠ r in points α (subType relation zero.1), _
    rcases htest with ⟨hweak, hz⟩ | ⟨hstr, hz⟩
    · rw [subType, hweak, if_neg Bool.false_ne_true, points, eventually_pure, hval.value]
      exact (hhold z).mp hz l' hl'
    · rw [subType, hstr, if_pos rfl, points, hval.value, ← eventually_right_iff]
      obtain ⟨ε, hε, hz⟩ := hz
      exact ⟨ε, hε, fun r hr hrε => (hhold r).mp (hz r hr hrε) l' hl'⟩

end Smtrat.Mcsat.Vs
