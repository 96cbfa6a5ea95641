import Smtrat.LRA.ColumnSpace
import Smtrat.LRA.TableauBounds

/-!
# Runs of the tableau

In every tableau that is reached the rows are correct, the columns are a basis, the bounds are
those of ordered variables, and the variables with bounds are active.
-/

namespace Smtrat.LRA

open Combination Run List Function Option

namespace Tableau

variable {settings : TableauSettings} {t : Tableau}

/-- What `LRAModule::removeCore` does in the tableau with a bound that loses origins. -/
def removeOrigins (settings : TableauSettings) (t : Tableau) (b : Bound) (kept : List Origin) :
    Tableau :=
  let t' := { t with origins := update t.origins b kept }
  if t.isActive b && !t'.isActive b then t'.releaseBound settings b else t'

/-- The invariant of the tableau. -/
structure Maintained (settings : TableauSettings) (t : Tableau) : Prop where
  correct : t.Correct settings.omit_division
  based : t.Based
  bounds : t.toBounds.Maintained t.IsKnown
  bounded_active : ∀ v, t.hasBound v = true → v ∈ t.mColumns ∨ v ∈ t.mRows

/-- The invariant is about rows and bounds. -/
theorem Maintained.congr {t' : Tableau} (h : t.Maintained settings)
    (hrows : t'.toRowSystem = t.toRowSystem) (hbds : t'.toBounds = t.toBounds) :
    t'.Maintained settings where
  correct := hrows ▸ h.correct
  based := hrows ▸ h.based
  bounds := by
    rw [hrows, hbds]
    exact h.bounds
  bounded_active v hv := by
    rw [hrows]
    exact h.bounded_active v (hbds ▸ hv)

/-! ## New bounds -/

section NewBound

variable {known : VarId → Prop} {v : VarId} (hv : known v) (h : t.toBounds.Maintained known)

include hv h

theorem addBoundWithComplement_maintained {upper : Bool} {limit complement : Value ℚ}
    (hlim : if upper then limit.deltaPart ≤ 0 else 0 ≤ limit.deltaPart)
    (hcompl : if !upper then complement.deltaPart ≤ 0 else 0 ≤ complement.deltaPart)
    (c : LinearConstraint) :
    (t.addBoundWithComplement upper v limit complement c).2.toBounds.Maintained known := by
  have hfst := h.addDirected hv hlim c
  have hsnd := Bounds.Maintained.addDirected (s := { (t.toBounds.addDirected upper v limit c).2 with
    mConstraintToBound := update
      (t.toBounds.addDirected upper v limit c).2.mConstraintToBound c
      (some [(t.toBounds.addDirected upper v limit c).1])
    boundExists := update (t.toBounds.addDirected upper v limit c).2.boundExists
      (t.toBounds.addDirected upper v limit c).1 true })
    (hfst.congr (fun _ hw => hw) rfl rfl rfl rfl rfl) hv hcompl c.negated
  simp only [addBoundWithComplement]
  split
  · exact hsnd
  · exact hsnd.congr (fun _ hw => hw) rfl rfl rfl rfl rfl

theorem addNeqBound_maintained {upper : Bool} {limit : Value ℚ}
    (hlim : if upper then limit.deltaPart ≤ 0 else 0 ≤ limit.deltaPart)
    (c : LinearConstraint) (relation : Relation) :
    (t.addNeqBound upper v limit c relation).2.toBounds.Maintained known := by
  have hfst := h.addDirected hv hlim (c.withRelation relation)
  simp only [addNeqBound, registerConstraint]
  split
  all_goals exact hfst.congr (fun _ hw => hw) rfl rfl rfl rfl rfl

end NewBound

/-- A new bound is not active. -/
theorem newBound_limits (c : LinearConstraint) : (t.newBound c).supremum = t.supremum ∧
    (t.newBound c).infimum = t.infimum := by
  have hdirected : ∀ (s : Bounds) (upper : Bool) v limit c,
      (s.addDirected upper v limit c).2.supremum = s.supremum ∧
        (s.addDirected upper v limit c).2.infimum = s.infimum := by
    intro s upper v limit c
    have hkeeps := (s.addDirected_enters upper v limit c).keeps
    exact ⟨hkeeps.supremum, hkeeps.infimum⟩
  have hcompl : ∀ (t : Tableau) (upper : Bool) v limit complement c,
      (t.addBoundWithComplement upper v limit complement c).2.supremum = t.supremum ∧
        (t.addBoundWithComplement upper v limit complement c).2.infimum = t.infimum := by
    intro t upper v limit complement c
    simp only [addBoundWithComplement]
    split <;> simp only [hdirected, and_self]
  have hneq : ∀ (t : Tableau) (upper : Bool) v limit c relation,
      (t.addNeqBound upper v limit c relation).2.supremum = t.supremum ∧
        (t.addNeqBound upper v limit c relation).2.infimum = t.infimum := by
    intro t upper v limit c relation
    simp only [addNeqBound, registerConstraint]
    split <;> simp only [hdirected, and_self]
  rw [newBound]
  split
  · exact ⟨rfl, rfl⟩
  · simp only
    split
    · rw [Bounds.addEqualBound]
      split_ifs <;> exact ⟨rfl, rfl⟩
    all_goals simp only [hcompl, hneq, and_self]

theorem strictlyBelow_deltaPart (integerValued : Bool) (x : ℚ) :
    (strictlyBelow integerValued x).deltaPart ≤ 0 := by
  rw [strictlyBelow]
  split_ifs
  · exact le_rfl
  · exact neg_one_lt_zero.le

theorem strictlyAbove_deltaPart (integerValued : Bool) (x : ℚ) :
    0 ≤ (strictlyAbove integerValued x).deltaPart := by
  rw [strictlyAbove]
  split_ifs
  · exact le_rfl
  · exact zero_le_one

theorem newBound_bounds (hs : t.Correct settings.omit_division)
    (h : t.toBounds.Maintained t.IsKnown) (c : LinearConstraint) :
    (t.newBound c).toBounds.Maintained (t.newBound c).IsKnown := by
  cases hfind : t.mConstraintToBound c with
  | some bs =>
    have heq : t.newBound c = t := by rw [newBound, hfind]
    rw [heq]
    exact h
  | none =>
    have hspec := RowSystem.getVariable_spec c.lhs c.constantPart hs
    rw [newBound_toRowSystem_of_none hfind]
    have hknown := hspec.known
    have hrows : ({ t with toRowSystem := (t.toRowSystem.getVariable c.lhs c.constantPart).2 } :
        Tableau).toBounds.Maintained
        (t.toRowSystem.getVariable c.lhs c.constantPart).2.IsKnown :=
      h.congr (fun _ hw => hspec.ext.known hw) rfl rfl rfl rfl rfl
    rw [newBound, hfind]
    simp only
    generalize (t.toRowSystem.getVariable c.lhs c.constantPart).1 = ref at hknown
    generalize (t.toRowSystem.getVariable c.lhs c.constantPart).2 = rows at hknown hrows
    obtain ⟨v, negative, x⟩ := ref
    have hzero : ∀ upper : Bool, if upper then (⟨x, 0⟩ : Value ℚ).deltaPart ≤ 0
        else 0 ≤ (⟨x, 0⟩ : Value ℚ).deltaPart := by
      intro upper
      split_ifs <;> exact le_rfl
    have hbelow := strictlyBelow_deltaPart
    have habove := strictlyAbove_deltaPart
    split
    · exact (hrows.addEqualBound hknown rfl c).congr (fun _ hw => hw) rfl rfl rfl rfl rfl
    · refine addBoundWithComplement_maintained hknown hrows (hzero _) ?_ c
      cases negative <;> simp [hbelow, habove]
    · refine addBoundWithComplement_maintained hknown hrows (hzero _) ?_ c
      cases negative <;> simp [hbelow, habove]
    · refine addBoundWithComplement_maintained hknown hrows ?_ (hzero _) c
      cases negative <;> simp [hbelow, habove]
    · refine addBoundWithComplement_maintained hknown hrows ?_ (hzero _) c
      cases negative <;> simp [hbelow, habove]
    · have hkeep : ∀ t' : Tableau, t'.toBounds.Maintained rows.IsKnown → ∀ bounds complement,
          ({ t' with mConstraintToBound := bounds, complement := complement } :
            Tableau).toBounds.Maintained rows.IsKnown :=
        fun t' h' _ _ => h'.congr (fun _ hw => hw) rfl rfl rfl rfl rfl
      apply hkeep
      apply addNeqBound_maintained hknown
      · apply addNeqBound_maintained hknown _ (hzero _)
        apply addNeqBound_maintained hknown _ (hzero _)
        apply addNeqBound_maintained hknown hrows
        cases c.integerValued <;> cases negative <;> simp [habove, strictlyBelow]
      · cases c.integerValued <;> cases negative <;> simp [hbelow, strictlyAbove]

theorem newBound_maintained (h : t.Maintained settings) (c : LinearConstraint) :
    (t.newBound c).Maintained settings where
  correct := newBound_correct h.correct c
  based := by
    rcases newBound_toRowSystem (t := t) c with heq | heq
    · rw [heq]
      exact h.based
    · rw [heq]
      exact RowSystem.getVariable_based h.correct h.based c.lhs c.constantPart
  bounds := newBound_bounds h.correct h.bounds c
  bounded_active v hv := by
    have hbd : t.hasBound v = true := by
      obtain ⟨hsup, hinf⟩ := newBound_limits (t := t) c
      rwa [Bounds.hasBound, hsup, hinf] at hv
    rcases newBound_toRowSystem (t := t) c with heq | heq
    · rw [heq]
      exact h.bounded_active v hbd
    · have hext := (RowSystem.getVariable_spec c.lhs c.constantPart h.correct).ext
      rw [heq]
      rcases h.bounded_active v hbd with hv | hv
      · exact .inl (hext.columns v hv)
      · exact .inr (hext.rows ▸ hv)

/-! ## Activation of variables -/

theorem activateBasicVar_toBounds (v : VarId) :
    (t.activateBasicVar settings v).toBounds = t.toBounds := by
  rw [activateBasicVar]
  split_ifs <;> rfl

theorem activateBasicVar_toRowSystem (v : VarId) :
    (t.activateBasicVar settings v).toRowSystem = if v ∈ t.mNonActiveBasics
      then t.toRowSystem.activateBasicVar settings.omit_division v else t.toRowSystem := by
  by_cases hv : v ∈ t.mNonActiveBasics
  · rw [activateBasicVar, if_pos hv, if_pos hv]
  · rw [activateBasicVar, if_neg hv, if_neg hv]

theorem activateBasicVar_isKnown (h : t.Correct settings.omit_division) (v w : VarId) :
    (t.activateBasicVar settings v).IsKnown w ↔ t.IsKnown w := by
  rw [activateBasicVar_toRowSystem]
  split_ifs with hv
  · exact (RowSystem.activate_sameVariables h hv).known w
  · exact Iff.rfl

theorem activateBasicVar_maintained (h : t.Maintained settings) (v : VarId) :
    (t.activateBasicVar settings v).Maintained settings where
  correct := activateBasicVar_correct h.correct v
  based := by
    rw [activateBasicVar_toRowSystem]
    split_ifs with hv
    · exact (RowSystem.activate_sameVariables h.correct hv).based h.based h.based.free
    · exact h.based
  bounds := by
    rw [activateBasicVar_toBounds]
    exact h.bounds.congr (fun w hw => (activateBasicVar_isKnown h.correct v w).mpr hw)
      rfl rfl rfl rfl rfl
  bounded_active w hw := by
    rw [activateBasicVar_toBounds] at hw
    rw [activateBasicVar_toRowSystem]
    split_ifs
    · exact (h.bounded_active w hw).imp_right (mem_append_left _)
    · exact h.bounded_active w hw

/-- Only the row of a variable without bounds becomes inactive. -/
theorem deactivateBasicVar_maintained (h : t.Maintained settings) {v : VarId} (hv : v ∈ t.mRows)
    (horig : t.isOriginal v = false) (hbd : t.hasBound v = false) :
    (t.deactivateBasicVar v).Maintained settings where
  correct := RowSystem.deactivate_correct h.correct hv horig
  based := (RowSystem.deactivate_sameVariables h.correct hv).based h.based h.based.free
  bounds := h.bounds.congr
    (fun w hw => ((RowSystem.deactivate_sameVariables h.correct hv).known w).mpr hw)
    rfl rfl rfl rfl rfl
  bounded_active w hw := by
    have hne : w ≠ v := by
      rintro rfl
      exact Bool.false_ne_true (hbd.symm.trans hw)
    exact (h.bounded_active w hw).imp_right (mem_erase_of_ne hne).mpr

/-! ## Activation of bounds -/

/-- A variable of the tableau, if it has bounds, is active. -/
theorem Maintained.active_of_hasBound (h : t.Maintained settings) {v : VarId}
    (hv : t.IsKnown v) (hbd : ¬ (t.hasBound v = false ∧ t.isBasic v = true ∧
      t.isOriginal v = false)) : v ∈ t.mColumns ∨ v ∈ t.mRows := by
  rcases hv with hv | hv | hv
  · exact .inl hv
  · exact .inr hv
  · by_contra hinact
    apply hbd
    refine ⟨?_, ?_, h.correct.inactive_not_original v hv⟩
    · rw [← Bool.not_eq_true]
      exact fun hact => hinact (h.bounded_active v hact)
    · rw [RowSystem.isBasic, decide_eq_true_eq]
      exact h.correct.inactive_not_column v hv

theorem activateBound_rows (settings : TableauSettings) (t : Tableau) (b : Bound) (o : Origin) :
    (t.activateBound settings b o).toRowSystem =
      if t.hasBound b.var = false ∧ t.isBasic b.var = true ∧ t.isOriginal b.var = false
      then (t.activateBasicVar settings b.var).toRowSystem else t.toRowSystem := by
  have hact : ((t.addOrigin b o).activateBasicVar settings b.var).toRowSystem =
      (t.activateBasicVar settings b.var).toRowSystem := by
    rw [activateBasicVar_toRowSystem, activateBasicVar_toRowSystem]
    rfl
  have hlims : ∀ t' : Tableau, (let t'' := if b.isUpperBound then t'.activateUpperBound settings b
      else t'
      if b.isLowerBound then t''.activateLowerBound settings b else t'').toRowSystem =
        t'.toRowSystem := by
    intro t'
    simp only
    split_ifs <;> simp only [activateUpperBound_toRowSystem, activateLowerBound_toRowSystem]
  refine (hlims _).trans ?_
  have hcond : (!(t.addOrigin b o).hasBound b.var && (t.addOrigin b o).isBasic b.var &&
      !(t.addOrigin b o).isOriginal b.var) = true ↔ t.hasBound b.var = false ∧
        t.isBasic b.var = true ∧ t.isOriginal b.var = false := by
    simp only [Bool.and_eq_true, Bool.not_eq_true', and_assoc]
    rfl
  by_cases hinact : t.hasBound b.var = false ∧ t.isBasic b.var = true ∧ t.isOriginal b.var = false
  · rw [if_pos hinact, if_pos (hcond.mpr hinact), hact]
  · rw [if_neg hinact, if_neg (hcond.not.mpr hinact)]
    rfl

theorem activateBound_maintained (h : t.Maintained settings) {b : Bound} (hb : t.HasBoundObject b)
    (o : Origin) : (t.activateBound settings b o).Maintained settings := by
  have hvar := h.bounds.known b.var b hb.2 hb.1
  have hrows := activateBound_rows settings t b o
  have hactivated := activateBasicVar_maintained h b.var
  constructor
  case correct => exact activateBound_correct h.correct b o
  case based =>
    rw [hrows]
    split_ifs
    · exact hactivated.based
    · exact h.based
  case bounds =>
    have hknown : ∀ w, t.IsKnown w → (t.activateBound settings b o).IsKnown w := by
      intro w hw
      rw [hrows]
      split_ifs
      · exact (activateBasicVar_isKnown h.correct b.var w).mpr hw
      · exact hw
    exact (h.bounds.activateBound hb.2 o).congr hknown rfl rfl rfl rfl rfl
  case bounded_active =>
    intro v hv
    by_cases hvar' : v = b.var
    · rw [hvar', hrows]
      split_ifs with hinact
      · rw [activateBasicVar_toRowSystem]
        split_ifs with hmem
        · exact .inr (mem_append_right _ mem_cons_self)
        · rcases hvar with hvar | hvar | hvar
          · exact .inl hvar
          · exact .inr hvar
          · exact absurd hvar hmem
      · exact h.active_of_hasBound hvar hinact
    · have hbd : t.hasBound v = true := by
        rw [Bounds.hasBound, activateBound_toBounds] at hv
        simp only at hv
        rw [Bounds.hasBound]
        split_ifs at hv <;> simpa only [update_of_ne hvar'] using hv
      rw [hrows]
      split_ifs
      · exact hactivated.bounded_active v (by rwa [activateBasicVar_toBounds])
      · exact h.bounded_active v hbd

/-! ## Removal of origins -/

theorem releaseBound_toBounds (b : Bound) :
    (t.releaseBound settings b).toBounds = (t.toBounds.deactivateBound b).1 := by
  have hrepair : ∀ t' : Tableau, (t'.repairNonbasic settings b.var).toBounds = t'.toBounds := by
    intro t'
    rw [repairNonbasic]
    split_ifs <;> rfl
  simp only [releaseBound]
  split_ifs
  case pos | neg => exact hrepair { t with toBounds := (t.toBounds.deactivateBound b).1 }
  all_goals rfl

theorem releaseBound_toRowSystem (b : Bound) : (t.releaseBound settings b).toRowSystem =
    if (t.toBounds.deactivateBound b).1.hasBound b.var = false ∧ t.isBasic b.var = true ∧
      t.isOriginal b.var = false
    then t.toRowSystem.deactivateBasicVar b.var else t.toRowSystem := by
  have hrepair : ∀ t' : Tableau,
      (t'.repairNonbasic settings b.var).toRowSystem = t'.toRowSystem ∧
        (t'.repairNonbasic settings b.var).toBounds = t'.toBounds := by
    intro t'
    rw [repairNonbasic]
    split_ifs <;> exact ⟨rfl, rfl⟩
  obtain ⟨t', ht', hrows, hbds⟩ : ∃ t' : Tableau, t.releaseBound settings b =
      (if !t'.hasBound b.var && t'.isBasic b.var && !t'.isOriginal b.var
        then t'.deactivateBasicVar b.var else t') ∧ t'.toRowSystem = t.toRowSystem ∧
        t'.toBounds = (t.toBounds.deactivateBound b).1 := by
    refine ⟨if (t.toBounds.deactivateBound b).2 && !t.isBasic b.var
      then ({ t with toBounds := (t.toBounds.deactivateBound b).1 } : Tableau).repairNonbasic settings
        b.var else { t with toBounds := (t.toBounds.deactivateBound b).1 }, rfl, ?_⟩
    cases (t.toBounds.deactivateBound b).2 && !t.isBasic b.var with
    | true => exact hrepair { t with toBounds := (t.toBounds.deactivateBound b).1 }
    | false => exact ⟨rfl, rfl⟩
  rw [ht', ← hbds, ← hrows]
  simp only [Bool.and_eq_true, Bool.not_eq_true', and_assoc]
  split_ifs <;> rfl

theorem removeOrigins_toBounds (b : Bound) (kept : List Origin) :
    (t.removeOrigins settings b kept).toBounds = t.toBounds.eraseOrigins b kept := by
  rw [removeOrigins, Bounds.eraseOrigins]
  simp only
  split_ifs
  · exact releaseBound_toBounds b
  · rfl

theorem removeOrigins_toRowSystem (b : Bound) (kept : List Origin) :
    (t.removeOrigins settings b kept).toRowSystem =
      if (t.isActive b = true ∧ kept = []) ∧
        (t.toBounds.eraseOrigins b kept).hasBound b.var = false ∧ t.isBasic b.var = true ∧
          t.isOriginal b.var = false
      then t.toRowSystem.deactivateBasicVar b.var else t.toRowSystem := by
  have hlast := t.toBounds.loses_last_iff b kept
  rw [removeOrigins, Bounds.eraseOrigins]
  simp only
  by_cases hrel : t.isActive b = true ∧ kept = []
  · rw [if_pos (hlast.mpr hrel), if_pos (hlast.mpr hrel), releaseBound_toRowSystem]
    simp only [hrel, true_and]
  · rw [if_neg (hlast.not.mpr hrel), if_neg (hlast.not.mpr hrel)]
    exact (if_neg fun h => hrel h.1).symm

/-- The limits of the other variables stay, and those of this one stay unless the bound loses its
last origin. -/
theorem eraseOrigins_hasBound {s : Bounds} {b : Bound} {kept : List Origin} {v : VarId}
    (hv : v ≠ b.var ∨ ¬ (s.isActive b = true ∧ kept = [])) :
    (s.eraseOrigins b kept).hasBound v = s.hasBound v := by
  rw [Bounds.eraseOrigins]
  split_ifs with hlast
  · have hne : v ≠ b.var := hv.resolve_right fun hnot => hnot ((s.loses_last_iff b kept).mp hlast)
    rw [Bounds.hasBound, Bounds.hasBound, Bounds.deactivateBound]
    simp only
    split_ifs <;> simp only [update_of_ne hne]
  · rfl

theorem removeOrigins_maintained (h : t.Maintained settings) {b : Bound} (hb : t.HasBoundObject b)
    {kept : List Origin} (hkept : kept.Sublist (t.origins b)) :
    (t.removeOrigins settings b kept).Maintained settings := by
  -- the bounds change first
  have hvar : t.isActive b = true → b.var ∈ t.mColumns ∨ b.var ∈ t.mRows := fun hact =>
    h.bounded_active b.var (h.bounds.hasBound_of_active hb.2 hb.1 hact)
  have herased : ({ t with toBounds := t.toBounds.eraseOrigins b kept } : Tableau).Maintained
      settings := by
    refine ⟨h.correct, h.based, h.bounds.eraseOrigins hb.2 hb.1 hkept, ?_⟩
    intro v hv
    by_cases hrel : v = b.var ∧ t.isActive b = true ∧ kept = []
    · rw [hrel.1]
      exact hvar hrel.2.1
    · have hsame : (t.toBounds.eraseOrigins b kept).hasBound v = t.hasBound v :=
        eraseOrigins_hasBound (not_and_or.mp hrel)
      exact h.bounded_active v (hsame ▸ hv)
  have hbds : (t.removeOrigins settings b kept).toBounds = _ := removeOrigins_toBounds b kept
  have hrows : (t.removeOrigins settings b kept).toRowSystem = _ := removeOrigins_toRowSystem b kept
  split_ifs at hrows with hdeact
  · obtain ⟨⟨hact, -⟩, hbd, hbasic, horig⟩ := hdeact
    have hrow : b.var ∈ t.mRows := by
      refine (hvar hact).resolve_left ?_
      rwa [RowSystem.isBasic, decide_eq_true_eq] at hbasic
    exact (deactivateBasicVar_maintained herased hrow horig hbd).congr hrows hbds
  · exact herased.congr hrows hbds

/-! ## Pivoting -/

theorem pivot_maintained (h : t.Maintained settings) {e : EntryID} {a : ℚ}
    (he : t.HasEntry e.row e.col a) : (t.pivot settings e).Maintained settings := by
  have hspec := pivot_spec h.correct.toWellFormed he
  have hcorr := RowSystem.pivot_correct h.correct he
  have hpiv : ({ t with
      toRowSystem := t.toRowSystem.pivot settings.omit_division e.row e.col } :
        Tableau).Maintained settings := by
    refine ⟨hcorr, (RowSystem.pivot_sameVariables h.correct he).based h.based
      (RowSystem.pivot_free h.correct h.based.free he), ?_, ?_⟩
    · exact h.bounds.congr
        (fun w hw => ((RowSystem.pivot_sameVariables h.correct he).known w).mpr hw)
        rfl rfl rfl rfl rfl
    · intro v hv
      have hwf := h.correct.toWellFormed
      rw [RowSystem.mem_pivot_columns hwf he, RowSystem.mem_pivot_rows hwf he]
      by_cases hvr : v = e.row
      · exact .inl (.inl hvr)
      · by_cases hvc : v = e.col
        · exact .inr (.inl hvc)
        · exact (h.bounded_active v hv).imp (fun hv => .inr ⟨hv, hvc⟩) fun hv => .inr ⟨hv, hvr⟩
  have hrows := hspec.rows
  split_ifs at hrows with hdeact
  · rw [Bool.and_eq_true, Bool.not_eq_true', Bool.not_eq_true'] at hdeact
    have hrow : e.col ∈ (t.toRowSystem.pivot settings.omit_division e.row e.col).mRows :=
      (RowSystem.mem_pivot_rows h.correct.toWellFormed he).mpr (.inl rfl)
    have horig : (t.toRowSystem.pivot settings.omit_division e.row e.col).isOriginal e.col =
        false := by
      rw [(RowSystem.pivot_sameVariables h.correct he).isOriginal]
      exact hdeact.2
    exact (deactivateBasicVar_maintained hpiv hrow horig hdeact.1).congr hrows hspec.bounds
  · exact hpiv.congr hrows hspec.bounds

/-! ## Runs -/

/-- The operations of the tableau that concern its rows and bounds. -/
inductive TableauAction where
  | newBound (c : LinearConstraint)
  | activateBound (b : Bound) (o : Origin)
  | removeOrigins (b : Bound) (kept : List Origin)
  | activateBasicVar (v : VarId)
  | deactivateBasicVar (v : VarId)
  | pivot (e : EntryID)

/-- The tableau after an operation.  Only bounds that were created are activated, origins are only
taken from a bound that has them, a variable that is deactivated is basic, has no bounds and is not
an original one, and a pivoting element is an entry of an active row. -/
def step (settings : TableauSettings) (t : Tableau) : TableauAction → Option Tableau
  | .newBound c => some (t.newBound c)
  | .activateBound b o => if t.HasBoundObject b then some (t.activateBound settings b o) else none
  | .removeOrigins b kept =>
    if t.HasBoundObject b ∧ kept.Sublist (t.origins b)
    then some (t.removeOrigins settings b kept) else none
  | .activateBasicVar v => some (t.activateBasicVar settings v)
  | .deactivateBasicVar v =>
    if v ∈ t.mRows ∧ t.isOriginal v = false ∧ t.hasBound v = false
    then some (t.deactivateBasicVar v) else none
  | .pivot e =>
    if e.row ∈ t.mRows ∧ (t.content e.row e.col).isSome then some (t.pivot settings e) else none

theorem empty_maintained (p : LinearForm) : (empty p).Maintained settings where
  correct := empty_correct p
  based := by
    have hunk : ∀ v, ¬ (empty p).IsKnown v := by
      rintro v (hv | hv | hv) <;> cases hv
    exact ⟨fun _ => ⟨0, fun c hc => absurd hc not_mem_nil⟩,
      fun v hv => absurd hv (hunk v), fun v hv => absurd hv (hunk v)⟩
  bounds := Bounds.maintained_empty
  bounded_active _ hv := nomatch hv

theorem step_maintained {t' : Tableau} (h : t.Maintained settings) {action : TableauAction}
    (hstep : t.step settings action = some t') : t'.Maintained settings := by
  cases action with
  | newBound c =>
    cases hstep
    exact newBound_maintained h c
  | activateBound b o =>
    obtain ⟨hb, heq⟩ := ite_none_right_eq_some.mp hstep
    cases heq
    exact activateBound_maintained h hb o
  | removeOrigins b kept =>
    obtain ⟨⟨hb, hkept⟩, heq⟩ := ite_none_right_eq_some.mp hstep
    cases heq
    exact removeOrigins_maintained h hb hkept
  | activateBasicVar v =>
    cases hstep
    exact activateBasicVar_maintained h v
  | deactivateBasicVar v =>
    obtain ⟨⟨hv, horig, hbd⟩, heq⟩ := ite_none_right_eq_some.mp hstep
    cases heq
    exact deactivateBasicVar_maintained h hv horig hbd
  | pivot e =>
    obtain ⟨⟨hrow, hcont⟩, heq⟩ := ite_none_right_eq_some.mp hstep
    cases heq
    obtain ⟨a, ha⟩ := isSome_iff_exists.mp hcont
    exact pivot_maintained h ⟨hrow, mem_of_find ha⟩

/-- Every tableau that is reached meets the invariant. -/
theorem maintained_of_run {p : LinearForm} {actions : List TableauAction}
    (hrun : run (step settings) (empty p) actions = some t) : t.Maintained settings :=
  run_invariant (P := fun t : Tableau => t.Maintained settings)
    (fun _ _ _ h hstep => step_maintained h hstep) (empty_maintained p) hrun

end Tableau

end Smtrat.LRA
