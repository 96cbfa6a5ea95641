import Smtrat.LRA.Concretisation
import Smtrat.LRA.Termination

/-!
# The loop of the search as a decision procedure

Whether the rows have a rational solution within the active bounds is what the loop of pivoting
steps decides: the steps keep the solutions, and at its end the loop has one or a row that
contradicts the bounds.
-/

namespace Smtrat.LRA

open Combination Run List

namespace Bound

variable {b : Bound}

/-- A value that satisfies a bound whose limit is on the open side satisfies it as a real one. -/
theorem SatisfiedBy.holds {x : ℚ} (h : b.SatisfiedBy x) (hb : ∀ l, b.limit = some l → b.Signed l) :
    b.Holds (Value.ofReal x) := by
  have hx : Value.ofReal (x : ℝ) = Value.toReal ⟨x, 0⟩ := Value.ext rfl Rat.cast_zero.symm
  rw [SatisfiedBy] at h
  rw [Holds, hx]
  cases hl : b.limit with
  | none => trivial
  | some l =>
    have hsigned := hb l hl
    simp only [hl] at h ⊢
    cases htype : b.type with
    | lower =>
      have hpos := hsigned.lower (by rw [isLowerBound, htype]; rfl)
      simp only [htype] at h ⊢
      rw [Value.toReal_le, Value.le_def]
      split_ifs at h with hweak
      · exact (lt_or_eq_of_le h).imp id fun heq => ⟨heq, hweak.le⟩
      · exact .inl h
    | upper =>
      have hneg := hsigned.upper (by rw [isUpperBound, htype]; rfl)
      simp only [htype] at h ⊢
      rw [Value.toReal_le, Value.le_def]
      split_ifs at h with hweak
      · exact (lt_or_eq_of_le h).imp id fun heq => ⟨heq, hweak.ge⟩
      · exact .inl h
    | equal =>
      have hzero := le_antisymm (hsigned.upper (by rw [isUpperBound, htype]; rfl))
        (hsigned.lower (by rw [isLowerBound, htype]; rfl))
      simp only [htype] at h ⊢
      rw [h, ← hzero]

end Bound

/-- The limits of bounds that are not in conflict are within them. -/
theorem Bounds.inBounds_of_limit {s : Bounds} {v : VarId} (h : s.isConflicting v = false)
    {x : Value ℚ}
    (hx : (x : WithBot (Value ℚ)) = s.lower v ∨ (x : WithTop (Value ℚ)) = s.upper v) :
    BlandRule.InBounds s.lower s.upper v x := by
  rw [isConflicting, Bound.gt] at h
  rw [lower, upper] at hx
  rw [BlandRule.InBounds, lower, upper]
  cases hk : (s.infimum v).limit with
  | none => simp_all [Bound.lowerLimit]
  | some k =>
    cases hl : (s.supremum v).limit with
    | none => simp_all [Bound.lowerLimit, Bound.upperLimit]
    | some l =>
      simp only [hk, hl, Bool.or_eq_false_iff, decide_eq_false_iff_not, not_lt] at h
      simp only [Bound.lowerLimit, Bound.upperLimit, hk, hl, WithBot.coe_inj, WithTop.coe_inj,
        WithTop.coe_le_coe, WithBot.coe_le_coe] at hx ⊢
      rcases hx with rfl | rfl
      · exact ⟨le_rfl, h.1⟩
      · exact ⟨h.1, le_rfl⟩

namespace Bounds.Maintained

variable {known : VarId → Prop} {s : Bounds} (h : s.Maintained known)

include h

theorem wellTyped : s.WellTyped where
  upperbounds _ _ hb := h.isUpperOf hb
  lowerbounds _ _ hb := h.isLowerOf hb
  supremum v := h.isUpperOf (h.supremum_mem v)
  infimum v := h.isLowerOf (h.infimum_mem v)

theorem limits_active (v : VarId) :
    s.isActive (s.supremum v) = true ∧ s.isActive (s.infimum v) = true := by
  obtain ⟨o, rfl, ho, hrep⟩ := h.variable_ordered v
  rw [isActive, isActive, hrep.supremum, hrep.infimum, hrep.origins _ (.inl ho.supremum_mem),
    hrep.origins _ (.inr ho.infimum_mem)]
  exact ⟨ho.supremum_active, ho.infimum_active⟩

end Bounds.Maintained

namespace Tableau

variable {settings : TableauSettings} {t t' : Tableau}

/-- The values satisfy the active bounds of all variables. -/
def MeetsBounds (t : Tableau) (ρ : VarId → ℚ) : Prop :=
  ∀ v b, t.Has v b → t.isActive b = true → b.SatisfiedBy (ρ v)

/-- What the loop has of `t'` when it started from `t`. -/
structure ReachedFrom (settings : TableauSettings) (t t' : Tableau) : Prop where
  maintained : t'.Maintained settings
  bland : t'.UsesBlandsRule
  assignment : t'.AssignmentCorrect
  consistent : ∀ v, v ∈ t'.mRows ∨ v ∈ t'.mColumns → t'.isConflicting v = false
  bounds : t'.toBounds = t.toBounds
  solves : ∀ ρ : VarId → ℚ, t'.Solves ρ ↔ t.Solves ρ

theorem ReachedFrom.searching (h : ReachedFrom settings t t') : t'.Searching settings :=
  ⟨h.maintained.correct, h.maintained.bounds.wellTyped, h.bland⟩

/-- A pivoting step of the loop. -/
theorem ReachedFrom.pivot {t₁ t₂ : Tableau} {e : EntryID} (h : ReachedFrom settings t t₁)
    (hnext : t₁.nextPivotingElement settings = ((some e, true), t₂)) :
    ReachedFrom settings t (t₂.pivot settings e) := by
  have hwf := h.maintained.correct.toWellFormed
  obtain ⟨a, thetaB, lower, hstep⟩ := h.searching.blandStep hnext
  obtain ⟨hrows, hbds₂⟩ : t₂.toRowSystem = t₁.toRowSystem ∧ t₂.toBounds = t₁.toBounds := by
    obtain ⟨_, _, _, -, rfl⟩ := nextPivotingElement_bland hwf h.bland hnext
    exact ⟨rfl, rfl⟩
  have hent := hstep.entry
  have hent₂ : t₂.HasEntry e.row e.col a := hrows ▸ hent
  have hmaintained := h.maintained.congr hrows hbds₂
  have hbds := hstep.bounds
  have htyp := h.searching.wellTyped
  refine ⟨pivot_maintained hmaintained hent₂, hstep.searching.bland,
    ⟨hstep.solves _ (hstep.assignment_solves h.assignment.solves), ?_⟩, ?_,
    hbds.trans h.bounds, fun ρ => ?_⟩
  case refine_1 =>
    intro v hv
    rw [violation_eq_none_iff hstep.searching.wellTyped, hbds]
    rcases (hstep.columns v).mp hv with rfl | ⟨hv, hvc⟩
    · -- the variable that leaves its row is at the bound it violated
      have hviol := violation_eq_some htyp hstep.violated
      rw [hstep.assignment_row]
      refine Bounds.inBounds_of_limit (h.consistent _ (.inl hent.row)) ?_
      cases lower with
      | true => exact .inl hviol.1
      | false => exact .inr hviol.1
    · rw [hstep.assignment_column v hv hvc]
      exact (violation_eq_none_iff htyp).mp (h.assignment.nonbasic v hv)
  case refine_2 =>
    intro v hv
    rw [Bounds.isConflicting, hbds]
    rcases hv with hv | hv
    · rcases hstep.rows v hv with rfl | hv
      · exact h.consistent _ (.inr (hent.column hwf))
      · exact h.consistent v (.inl hv)
    · rcases (hstep.columns v).mp hv with rfl | ⟨hv, -⟩
      · exact h.consistent _ (.inl hent.row)
      · exact h.consistent v (.inr hv)
  case refine_3 =>
    rw [(pivot_solutions hmaintained.correct hent₂ ρ).1, hrows]
    exact h.solves ρ

theorem ReachedFrom.pivotLoop {t₁ : Tableau} {n : ℕ} {result : Option EntryID × Bool}
    (h : ReachedFrom settings t t₁) (hloop : t₁.pivotLoop settings n = some (result, t')) :
    ReachedFrom settings t t' := by
  induction n generalizing t₁ with
  | zero => cases hloop
  | succ n ih =>
    rw [Tableau.pivotLoop] at hloop
    split at hloop
    · next e t₂ hnext => exact ih (h.pivot hnext) hloop
    · next hnot =>
      rw [nextPivotingElement, if_neg (not_lt.mpr h.bland), findPivotBland] at hloop hnot
      split at hloop
      · cases hloop
        exact h
      · next hbest =>
        rw [hbest] at hnot
        exact absurd rfl (hnot _ _)
      · cases hloop
        exact h

/-- With Bland's rule the loop ends. -/
theorem ReachedFrom.ends (h : ReachedFrom settings t t) :
    ∃ n result t', t.pivotLoop settings n = some (result, t') := by
  by_contra hnever
  have hloop : ∀ n, t.pivotLoop settings n = none := by
    intro n
    refine Option.eq_none_iff_forall_ne_some.mpr fun r hr => hnever ⟨n, r.1, r.2, hr⟩
  -- otherwise every turn of the loop pivots
  have hturn : ∀ k, ReachedFrom settings t ((afterTurn settings)^[k] t) →
      ∃ e a thetaB lower, BlandStep settings ((afterTurn settings)^[k] t) e a thetaB lower
          ((afterTurn settings)^[k + 1] t) ∧
        ReachedFrom settings t ((afterTurn settings)^[k + 1] t) := by
    intro k hk
    obtain ⟨e, t', hnext⟩ := pivotLoop_eq_none (hloop (k + 1)) k k.lt_succ_self
    obtain ⟨a, thetaB, lower, hstep⟩ := hk.searching.blandStep hnext
    rw [Function.iterate_succ_apply', afterTurn, hnext]
    exact ⟨e, a, thetaB, lower, hstep, hk.pivot hnext⟩
  have hall : ∀ k, ReachedFrom settings t ((afterTurn settings)^[k] t) := by
    intro k
    induction k with
    | zero => exact h
    | succ k ih =>
      obtain ⟨e, a, thetaB, lower, -, hreach⟩ := hturn k ih
      exact hreach
  choose e a thetaB lower hstep using fun k => hturn k (hall k)
  exact not_pivots_forever (s := fun k => (afterTurn settings)^[k] t) h.searching h.assignment
    fun k => (hstep k).1

/-- No values within the active bounds solve a row in conflict. -/
theorem ConflictingRow.not_meets (hm : t.Maintained settings) (hassign : t.AssignmentCorrect)
    {v : VarId} (h : ConflictingRow settings t v) {ρ : VarId → ℚ} (hρ : t.Solves ρ) :
    ¬ t.MeetsBounds ρ := by
  intro hmeets
  have hholds : ∀ w b, t.Has w b → t.isActive b = true → b.Holds (Value.ofReal (ρ b.var : ℝ)) := by
    intro w b hb hact
    rw [(hm.bounds.exists_object hb).1]
    exact (hmeets w b hb hact).holds (hm.bounds.signed w b hb)
  have hsup : ∀ w, (t.supremum w).Holds (Value.ofReal (ρ (t.supremum w).var : ℝ)) :=
    fun w => hholds w _ (.inl (hm.bounds.supremum_mem w)) (hm.bounds.limits_active w).1
  have hinf : ∀ w, (t.infimum w).Holds (Value.ofReal (ρ (t.infimum w).var : ℝ)) :=
    fun w => hholds w _ (.inr (hm.bounds.infimum_mem w)) (hm.bounds.limits_active w).2
  have hreal : t.SolvesActive fun w => (ρ w : ℝ) :=
    fun w hw => (hρ w (.inl hw)).map (Algebra.linearMap ℚ ℝ)
  have hblocking : ∀ increase, ∀ b ∈ t.blockingBounds settings increase v,
      b.Holds (Value.ofReal (ρ b.var : ℝ)) := by
    intro increase b hb
    obtain ⟨d, -, rfl⟩ := mem_map.mp hb
    split_ifs
    all_goals first | exact hsup d.1 | exact hinf d.1
  have hwf := hm.correct.toWellFormed
  have htyp := hm.bounds.wellTyped
  obtain ⟨thetaB, lower, hviol, hblk⟩ := h.violated
  rw [violation] at hviol
  split_ifs at hviol with hup hlow
  · cases hviol
    exact unsatisfiable_of_upper hwf htyp hassign.solves h.row (htyp.supremum v) hup hblk _ hreal
      (forall_mem_cons.mpr ⟨hsup v, hblocking false⟩)
  · cases hviol
    exact unsatisfiable_of_lower hwf htyp hassign.solves h.row (htyp.infimum v) hlow hblk _ hreal
      (forall_mem_cons.mpr ⟨hinf v, hblocking true⟩)

/-- The rational values of a tableau in which no variable violates a bound. -/
theorem rationalValue_meetsBounds (hm : t.Maintained settings) (hassign : t.AssignmentCorrect)
    (hrows : ∀ v ∈ t.mRows, t.violation v = none) : t.MeetsBounds t.rationalValue := by
  intro v b hb hact
  cases hinf : b.isInfinite with
  | true =>
    rw [Bound.isInfinite, Option.isNone_iff_eq_none] at hinf
    rw [Bound.SatisfiedBy, hinf]
    trivial
  | false =>
    have hv := hm.bounded_active v (hm.bounds.hasBound_of_active hb hinf hact)
    have hviol : t.violation v = none := hv.elim (hassign.nonbasic v) (hrows v)
    rw [rationalValue_eq hm.correct hm.based hassign.solves hv]
    rw [violation] at hviol
    split_ifs at hviol with hup hlow
    exact satisfied_active hm.bounds hv hb hact (Bool.eq_false_iff.mpr hup)
      (Bool.eq_false_iff.mpr hlow)

/-- The loop ends, without a conflict exactly if rational values solve all rows and satisfy all
active bounds, and then the returned ones do. -/
def Decided (settings : TableauSettings) (t : Tableau) : Prop :=
  ∃ n result t', t.pivotLoop settings n = some (result, t') ∧
    (result.2 = true ↔ ∃ ρ : VarId → ℚ, t.Solves ρ ∧ t.MeetsBounds ρ) ∧
    (result.2 = true → t.Solves t'.rationalValue ∧ t.MeetsBounds t'.rationalValue)

/-- With Bland's rule the loop decides every tableau that is reached, if its non-basic variables are
within their bounds and no bounds are in conflict. -/
theorem pivotLoop_decides (settings : TableauSettings) (p : LinearForm)
    (actions : List TableauAction) (t : Tableau)
    (hrun : run (step settings) (empty p) actions = some t) (hassign : t.AssignmentCorrect)
    (hbland : t.UsesBlandsRule) (hconf : t.hasConflict = false) : t.Decided settings := by
  have hm := maintained_of_run hrun
  have hstart : ReachedFrom settings t t := by
    refine ⟨hm, hbland, hassign, fun v hv => ?_, rfl, fun _ => .rfl⟩
    exact Bool.eq_false_iff.mpr (any_eq_false.mp hconf v (mem_append.mpr hv))
  obtain ⟨n, result, t', hloop⟩ := hstart.ends
  have hreach := hstart.pivotLoop hloop
  have hmeets : ∀ ρ, t'.MeetsBounds ρ ↔ t.MeetsBounds ρ := by
    intro ρ
    rw [MeetsBounds, MeetsBounds, hreach.bounds]
  refine ⟨n, result, t', hloop, ?_⟩
  rcases pivotLoop_result hstart.searching hloop with ⟨rfl, hrows⟩ | ⟨e, rfl, hrow⟩
  · have hsol : t.Solves t'.rationalValue ∧ t.MeetsBounds t'.rationalValue :=
      ⟨(hreach.solves _).mp (rationalValue_solves hreach.maintained.correct),
        (hmeets _).mp (rationalValue_meetsBounds hreach.maintained hreach.assignment hrows)⟩
    exact ⟨⟨fun _ => ⟨_, hsol⟩, fun _ => rfl⟩, fun _ => hsol⟩
  · refine ⟨⟨fun h => (nomatch h), ?_⟩, fun h => nomatch h⟩
    rintro ⟨ρ, hρ, hbds⟩
    exact absurd ((hmeets ρ).mpr hbds)
      (hrow.not_meets hreach.maintained hreach.assignment ((hreach.solves ρ).mpr hρ))

theorem run_sampleViolated :
    run (step TableauSettings1) (empty sampleForm) [.newBound sampleLowerConstraint,
      .activateBound ⟨0, .lower, some ⟨6, 0⟩⟩ (.constraint sampleLowerConstraint)] =
        some sampleViolated := by
  simp only [run, step, Option.bind_some]
  rw [if_pos (by decide +kernel)]
  rfl

theorem pivotLoop_decides_sample : sampleViolated.Decided TableauSettings1 := by
  have hassign : sampleViolated.AssignmentCorrect := by
    refine ⟨?_, by decide +kernel⟩
    show ∀ v ∈ sampleViolated.mRows, (sampleViolated.row v).factor • sampleViolated.assignment v =
      eval sampleViolated.assignment (sampleViolated.row v).entries
    decide +kernel
  exact pivotLoop_decides TableauSettings1 sampleForm _ _ run_sampleViolated hassign
    (show _ ≤ _ by decide +kernel) (by decide +kernel)

/-- Nothing that is active escapes the search: the variables of active bounds are columns or have
active rows, and the infima and suprema are the strongest active bounds. -/
structure TracksBounds (t : Tableau) : Prop where
  active : ∀ v b, t.Has v b → t.isActive b = true → b.isInfinite = false →
    v ∈ t.mColumns ∨ v ∈ t.mRows
  supremum : ∀ v, t.isActive (t.supremum v) = true ∧ ∀ b ∈ t.upperbounds v,
    t.isActive b = true → (t.supremum v).upperKey ≤ b.upperKey
  infimum : ∀ v, t.isActive (t.infimum v) = true ∧ ∀ b ∈ t.lowerbounds v,
    t.isActive b = true → b.lowerKey ≤ (t.infimum v).lowerKey

theorem tracksBounds_of_run (settings : TableauSettings) (p : LinearForm)
    (actions : List TableauAction) (t : Tableau)
    (hrun : run (step settings) (empty p) actions = some t) : t.TracksBounds := by
  have hm := maintained_of_run hrun
  constructor
  case active =>
    intro v b hb hact hfin
    exact hm.bounded_active v (hm.bounds.hasBound_of_active hb hfin hact)
  case supremum => exact fun v => ⟨(hm.bounds.limits_active v).1, fun b => hm.bounds.supremum_le⟩
  case infimum => exact fun v => ⟨(hm.bounds.limits_active v).2, fun b => hm.bounds.le_infimum⟩

theorem tracksBounds_of_run_sample : sampleViolated.TracksBounds :=
  tracksBounds_of_run _ _ _ _ run_sampleViolated

end Tableau

end Smtrat.LRA
