import Smtrat.Common.Run
import Smtrat.LRA.Variables

/-!
# The row space of the tableau

Every row of a reachable tableau is an identity between the polynomials its variables stand for.
The operations of the tableau touch its rows only through those of the row system: bounds are
created after the variable they belong to, and a pivoting step learns bounds and moves values
between the eliminations.
-/

namespace Smtrat.LRA

open Combination Run List Function Option

universe u

namespace Tableau

variable {settings : TableauSettings} {t : Tableau}

/-! ## The rows under the operations -/

theorem addBoundWithComplement_toRowSystem (upper : Bool) (v : VarId) (limit complement : Value ℚ)
    (c : LinearConstraint) :
    (t.addBoundWithComplement upper v limit complement c).2.toRowSystem = t.toRowSystem := by
  simp only [addBoundWithComplement]
  split <;> rfl

theorem registerConstraint_toRowSystem (c : LinearConstraint) (bs : List Bound) :
    (t.registerConstraint c bs).toRowSystem = t.toRowSystem := by
  rw [registerConstraint]
  split <;> rfl

theorem addNeqBound_toRowSystem (upper : Bool) (v : VarId) (limit : Value ℚ)
    (c : LinearConstraint) (relation : Relation) :
    (t.addNeqBound upper v limit c relation).2.toRowSystem = t.toRowSystem := by
  simp only [addNeqBound, registerConstraint_toRowSystem]

/-- A new bound only creates the variable of its constraint. -/
theorem newBound_toRowSystem_of_none {c : LinearConstraint}
    (hnone : t.mConstraintToBound c = none) :
    (t.newBound c).toRowSystem = (t.toRowSystem.getVariable c.lhs c.constantPart).2 := by
  rw [newBound, hnone]
  simp only
  split
  · rfl
  all_goals simp only [addBoundWithComplement_toRowSystem, addNeqBound_toRowSystem]

theorem newBound_toRowSystem (c : LinearConstraint) :
    (t.newBound c).toRowSystem = t.toRowSystem ∨
      (t.newBound c).toRowSystem = (t.toRowSystem.getVariable c.lhs c.constantPart).2 := by
  cases hfind : t.mConstraintToBound c with
  | none => exact .inr (newBound_toRowSystem_of_none hfind)
  | some bs =>
    left
    rw [newBound, hfind]

theorem newBound_correct (h : t.Correct settings.omit_division) (c : LinearConstraint) :
    (t.newBound c).Correct settings.omit_division := by
  rcases newBound_toRowSystem (t := t) c with heq | heq
  · rw [heq]
    exact h
  · rw [heq]
    exact (RowSystem.getVariable_spec c.lhs c.constantPart h).correct

theorem activateBasicVar_correct (h : t.Correct settings.omit_division) (v : VarId) :
    (t.activateBasicVar settings v).Correct settings.omit_division := by
  by_cases hv : v ∈ t.mNonActiveBasics
  · rw [activateBasicVar, if_pos hv]
    exact RowSystem.activate_correct h hv
  · rw [activateBasicVar, if_neg hv]
    exact h

theorem activateUpperBound_toRowSystem (b : Bound) :
    (t.activateUpperBound settings b).toRowSystem = t.toRowSystem := by
  simp only [activateUpperBound]
  split_ifs <;> rfl

theorem activateLowerBound_toRowSystem (b : Bound) :
    (t.activateLowerBound settings b).toRowSystem = t.toRowSystem := by
  simp only [activateLowerBound]
  split_ifs <;> rfl

/-- The activation of a bound only activates the row of its variable. -/
theorem activateBound_toRowSystem (settings : TableauSettings) (b : Bound) (o : Origin) :
    (t.activateBound settings b o).toRowSystem = t.toRowSystem ∨
      (t.activateBound settings b o).toRowSystem =
        ((t.addOrigin b o).activateBasicVar settings b.var).toRowSystem := by
  simp only [activateBound]
  split_ifs <;>
    simp only [activateUpperBound_toRowSystem, activateLowerBound_toRowSystem, true_or, or_true,
      addOrigin]

theorem activateBound_correct (h : t.Correct settings.omit_division) (b : Bound) (o : Origin) :
    (t.activateBound settings b o).Correct settings.omit_division := by
  rcases activateBound_toRowSystem (t := t) settings b o with heq | heq
  · rw [heq]
    exact h
  · rw [heq]
    exact activateBasicVar_correct (t := t.addOrigin b o) h b.var

/-! ### Pivoting -/

/-- A refinement changes nothing but the learned bounds. -/
structure SameButLearned (t t' : Tableau) : Prop where
  rows : t'.toRowSystem = t.toRowSystem
  bounds : t'.toBounds = t.toBounds
  assignment : t'.assignment = t.assignment
  mpTheta : t'.mpTheta = t.mpTheta
  mConflictingRows : t'.mConflictingRows = t.mConflictingRows

theorem rowRefinement_same (settings : TableauSettings) (v : VarId) : t.SameButLearned (t.rowRefinement settings v) := by
  have hup : t.SameButLearned (t.refineUpper settings v) := by
    rw [refineUpper]
    split
    · exact ⟨rfl, rfl, rfl, rfl, rfl⟩
    · simp only
      split
      · exact ⟨rfl, rfl, rfl, rfl, rfl⟩
      · split <;> exact ⟨rfl, rfl, rfl, rfl, rfl⟩
  have hlow : ∀ t' : Tableau, t.SameButLearned t' →
      t.SameButLearned (t'.refineLower settings v) := by
    intro t' h
    rw [refineLower]
    split
    · exact h
    · simp only
      split
      · exact h
      · split
        · exact h
        · exact ⟨h.rows, h.bounds, h.assignment, h.mpTheta, h.mConflictingRows⟩
  rw [rowRefinement]
  split_ifs
  · exact ⟨rfl, rfl, rfl, rfl, rfl⟩
  · exact hlow _ hup

/-- The value of a basic variable after the update of its row. -/
def updatedValue (settings : TableauSettings) (t : Tableau) (r i : VarId) : Value ℚ :=
  t.assignment i + effect settings ((t.content i r).getD 0) (t.row i).factor t.mpTheta

/-- What the updates of the rows `is` do. -/
structure UpdatesRows (settings : TableauSettings) (r c : VarId) (is : List VarId)
    (t t' : Tableau) : Prop where
  rows : t'.toRowSystem =
    is.foldl (fun s i => s.eliminate settings.omit_division r c i) t.toRowSystem
  bounds : t'.toBounds = t.toBounds
  assignment : ∀ v, t'.assignment v = if v ∈ is then t.updatedValue settings r v else t.assignment v
  mpTheta : t'.mpTheta = t.mpTheta
  mConflictingRows : ∀ v ∈ t'.mConflictingRows, v ∈ t.mConflictingRows ∨ v ∈ is

theorem updateRow_spec (settings : TableauSettings) (r c i : VarId) :
    UpdatesRows settings r c [i] t (t.updateRow settings r c i) := by
  have hasgn : ∀ v, update t.assignment i (t.updatedValue settings r i) v =
      if v ∈ [i] then t.updatedValue settings r v else t.assignment v := by
    intro v
    by_cases hv : v = i
    · rw [hv, update_self, if_pos mem_cons_self]
    · rw [update_of_ne hv, if_neg (mem_singleton.not.mpr hv)]
  have hconf : ∀ v ∈ t.mConflictingRows ++ [i], v ∈ t.mConflictingRows ∨ v ∈ [i] :=
    fun v hv => mem_append.mp hv
  simp only [updateRow]
  split_ifs
  · have hsame := rowRefinement_same settings (t := { t with
      toRowSystem := t.toRowSystem.eliminate settings.omit_division r c i
      assignment := update t.assignment i (t.updatedValue settings r i)
      mConflictingRows := t.mConflictingRows ++ [i] }) i
    refine ⟨hsame.rows, hsame.bounds, ?_, hsame.mpTheta, ?_⟩
    · exact fun v => (congrFun hsame.assignment v).trans (hasgn v)
    · exact fun v hv => hconf v ((congrArg (v ∈ ·) hsame.mConflictingRows).mp hv)
  · exact ⟨rfl, rfl, hasgn, rfl, hconf⟩
  · exact ⟨rfl, rfl, hasgn, rfl, fun v hv => .inl hv⟩

/-- The updates of different rows do not interfere. -/
theorem foldl_updateRow_spec (settings : TableauSettings) (r c : VarId) {is : List VarId} (hnd : is.Nodup) (t : Tableau) :
    UpdatesRows settings r c is t (is.foldl (fun t i => t.updateRow settings r c i) t) := by
  induction is generalizing t with
  | nil => exact ⟨rfl, rfl, fun v => by rw [if_neg not_mem_nil]; rfl, rfl, fun v hv => .inl hv⟩
  | cons i is ih =>
    obtain ⟨hi, hnd⟩ := nodup_cons.mp hnd
    have hfst := updateRow_spec (t := t) settings r c i
    have hrec := ih hnd (t.updateRow settings r c i)
    rw [foldl_cons]
    constructor
    case rows => rw [hrec.rows, hfst.rows, foldl_cons, foldl_cons, foldl_nil]
    case bounds => exact hrec.bounds.trans hfst.bounds
    case assignment =>
      intro v
      rw [hrec.assignment]
      by_cases hvi : v = i
      · rw [hvi, if_neg hi, if_pos mem_cons_self, hfst.assignment, if_pos mem_cons_self]
      · have hasgn : (t.updateRow settings r c i).assignment v = t.assignment v := by
          rw [hfst.assignment, if_neg (mem_singleton.not.mpr hvi)]
        have hrow : (t.updateRow settings r c i).row v = t.row v := by
          rw [hfst.rows]
          exact update_of_ne hvi _ _
        simp only [updatedValue, RowSystem.content, hasgn, hrow, hfst.mpTheta, mem_cons,
          hvi, false_or]
    case mpTheta => exact hrec.mpTheta.trans hfst.mpTheta
    case mConflictingRows =>
      intro v hv
      rcases hrec.mConflictingRows v hv with hv | hv
      · rcases hfst.mConflictingRows v hv with hv | hv
        · exact .inl hv
        · exact .inr (mem_singleton.mp hv ▸ mem_cons_self)
      · exact .inr (mem_cons_of_mem _ hv)

section Pivot

variable (hs : t.WellFormed settings.omit_division) {e : EntryID} {a : ℚ}
  (h : t.HasEntry e.row e.col a)

include hs h

/-- The exchange and the updates move the variables as if the variable of the column were moved
first. -/
theorem moveNonbasic_eq (v : VarId) :
    (t.moveNonbasic settings e.col (t.assignment e.col + t.mpTheta)).assignment v =
      if v ∈ (t.toRowSystem.exchange settings.omit_division e.row e.col).rowsToUpdate e.row e.col
      then (t.exchangeVariables settings e.row e.col).updatedValue settings e.row v
      else (t.exchangeVariables settings e.row e.col).assignment v := by
  have hmem := RowSystem.mem_rowsToUpdate hs h (v := v)
  have hexchange : (t.exchangeVariables settings e.row e.col).assignment =
      update (update t.assignment e.row (t.assignment e.row +
        effect settings ((t.content e.row e.col).getD 0) (t.row e.row).factor t.mpTheta))
        e.col (t.assignment e.col + t.mpTheta) := rfl
  simp only [moveNonbasic, updateBasicAssignments, add_sub_cancel_left]
  by_cases hvc : v = e.col
  · have hnot : v ∉ (t.toRowSystem.exchange settings.omit_division e.row e.col).rowsToUpdate
        e.row e.col := fun hv => hs.row_not_column v (hmem.mp hv).1 (hvc ▸ h.column hs)
    rw [if_neg hnot, hvc, update_self, hexchange, update_self]
  · rw [update_of_ne hvc]
    by_cases hvr : v = e.row
    · have hnot : v ∉ (t.toRowSystem.exchange settings.omit_division e.row e.col).rowsToUpdate
          e.row e.col := fun hv => (hmem.mp hv).2.1 hvr
      rw [if_neg hnot, hexchange, update_of_ne hvc, hvr, update_self, if_pos h.row, h.content hs]
      rfl
    · have hasgn : (t.exchangeVariables settings e.row e.col).assignment v = t.assignment v :=
        (update_of_ne hvc _ _).trans (update_of_ne hvr _ _)
      by_cases hv : v ∈ t.mRows
      · have hrow := RowSystem.exchange_row_of_mem hs h hv hvr
        have hcont : (t.toRowSystem.exchange settings.omit_division e.row e.col).content v e.row =
            t.content v e.col := by
          rw [RowSystem.content, hrow]
          exact find_relabel (RowSystem.not_key_of_mem_rows hs h hv)
        by_cases hkey : e.col ∈ (t.row v).entries.map Prod.fst
        · obtain ⟨k, hk⟩ := isSome_iff_exists.mp (find_isSome.mpr hkey)
          have hfind : t.content v e.col = some k := hk
          rw [if_pos hv, if_pos (hmem.mpr ⟨hv, hvr, hkey⟩), updatedValue, hasgn, hfind]
          show _ = _ + effect settings (((t.toRowSystem.exchange settings.omit_division e.row
            e.col).content v e.row).getD 0) ((t.toRowSystem.exchange settings.omit_division e.row
              e.col).row v).factor t.mpTheta
          rw [hcont, hfind, hrow]
          rfl
        · have hfind : t.content v e.col = none := find_eq_none.mpr hkey
          rw [if_pos hv, if_neg fun hmem' => hkey (hmem.mp hmem').2.2, hasgn, hfind]
      · rw [if_neg hv, if_neg fun hmem' => hv (hmem.mp hmem').1, hasgn]

end Pivot

/-- What a pivoting step does. -/
structure Pivots (settings : TableauSettings) (e : EntryID) (t t' : Tableau) : Prop where
  rows : t'.toRowSystem =
    if !t.hasBound e.col && !t.isOriginal e.col
    then (t.toRowSystem.pivot settings.omit_division e.row e.col).deactivateBasicVar e.col
    else t.toRowSystem.pivot settings.omit_division e.row e.col
  bounds : t'.toBounds = t.toBounds
  assignment : t'.assignment =
    (t.moveNonbasic settings e.col (t.assignment e.col + t.mpTheta)).assignment
  mConflictingRows : ∀ v ∈ t'.mConflictingRows, v ∈ t.mConflictingRows ∨
    v ∈ (t.toRowSystem.pivot settings.omit_division e.row e.col).mRows

theorem pivot_spec (hs : t.WellFormed settings.omit_division) {e : EntryID} {a : ℚ}
    (h : t.HasEntry e.row e.col a) : Pivots settings e t (t.pivot settings e) := by
  -- the refinement of the pivoting row
  obtain ⟨t₁, href, hsame⟩ : ∃ t₁,
      (if settings.use_refinement && (t.exchangeVariables settings e.row e.col).hasBound e.col
        then (t.exchangeVariables settings e.row e.col).rowRefinement settings e.col
        else t.exchangeVariables settings e.row e.col) = t₁ ∧
      (t.exchangeVariables settings e.row e.col).SameButLearned t₁ := by
    refine ⟨_, rfl, ?_⟩
    split_ifs
    · exact rowRefinement_same settings e.col
    · exact ⟨rfl, rfl, rfl, rfl, rfl⟩
  have hupdate : t₁.rowsToUpdate e.row e.col =
      (t.toRowSystem.exchange settings.omit_division e.row e.col).rowsToUpdate e.row e.col := by
    rw [hsame.rows]
    rfl
  have hnd := (nodup_cons.mp (RowSystem.rowsToUpdate_nodup hs h)).2
  rw [← hupdate] at hnd
  obtain ⟨t₂, hfold⟩ : ∃ t₂, (t₁.rowsToUpdate e.row e.col).foldl
      (fun t i => t.updateRow settings e.row e.col i) t₁ = t₂ := ⟨_, rfl⟩
  have hupd := foldl_updateRow_spec settings e.row e.col hnd t₁
  rw [hfold] at hupd
  have hrows : t₂.toRowSystem = t.toRowSystem.pivot settings.omit_division e.row e.col := by
    rw [hupd.rows, hsame.rows]
    rfl
  have hbds : t₂.toBounds = t.toBounds := hupd.bounds.trans hsame.bounds
  have hasgn : t₂.assignment =
      (t.moveNonbasic settings e.col (t.assignment e.col + t.mpTheta)).assignment := by
    funext v
    rw [moveNonbasic_eq hs h, hupd.assignment, hupdate]
    simp only [updatedValue, hsame.assignment, hsame.rows, hsame.mpTheta]
  have hconf : ∀ v ∈ t₂.mConflictingRows, v ∈ t.mConflictingRows ∨
      v ∈ (t.toRowSystem.pivot settings.omit_division e.row e.col).mRows := by
    intro v hv
    rcases hupd.mConflictingRows v hv with hv | hv
    · exact .inl (hsame.mConflictingRows ▸ hv)
    · rw [hupdate, RowSystem.mem_rowsToUpdate hs h] at hv
      exact .inr ((RowSystem.mem_pivot_rows hs h).mpr (.inr ⟨hv.1, hv.2.1⟩))
  have horig : t₂.isOriginal = t.isOriginal := by
    rw [hrows, RowSystem.pivot_eq hs h]
    rfl
  have heq : t.pivot settings e = if !t.hasBound e.col && !t.isOriginal e.col
      then { t₂ with mPivotingSteps := t₂.mPivotingSteps + 1 }.deactivateBasicVar e.col
      else { t₂ with mPivotingSteps := t₂.mPivotingSteps + 1 } := by
    simp only [pivot]
    rw [href, hfold, hbds, horig]
  rw [heq]
  constructor
  case rows =>
    rw [← hrows]
    split_ifs <;> rfl
  case bounds =>
    rw [← hbds]
    split_ifs <;> rfl
  case assignment =>
    rw [← hasgn]
    split_ifs <;> rfl
  case mConflictingRows =>
    intro v hv
    apply hconf
    split_ifs at hv
    · exact mem_of_mem_erase hv
    · exact hv

/-- Pivoting keeps the rows correct. -/
theorem pivot_correct (h : t.Correct settings.omit_division) {e : EntryID} {a : ℚ}
    (he : t.HasEntry e.row e.col a) : (t.pivot settings e).Correct settings.omit_division := by
  have hcorr := RowSystem.pivot_correct h he
  rw [(pivot_spec h.toWellFormed he).rows]
  split_ifs with hbd
  · rw [Bool.and_eq_true, Bool.not_eq_true', Bool.not_eq_true'] at hbd
    apply RowSystem.deactivate_correct hcorr
    · exact (RowSystem.mem_pivot_rows h.toWellFormed he).mpr (.inl rfl)
    · rw [(RowSystem.pivot_sameVariables h he).isOriginal]
      exact hbd.2
  · exact hcorr

/-- A pivoting step has the same solutions, of all rows and of the active ones.  The row of a new
basic variable without bounds becomes inactive. -/
theorem pivot_solutions (h : t.Correct settings.omit_division) {e : EntryID} {a : ℚ}
    (he : t.HasEntry e.row e.col a) {M : Type u} [AddCommGroup M] [Module ℚ M] (f : VarId → M) :
    ((t.pivot settings e).Solves f ↔ t.Solves f) ∧
      (t.hasBound e.col = true ∨ t.isOriginal e.col = true →
        ((t.pivot settings e).SolvesActive f ↔ t.SolvesActive f)) := by
  have hwf := RowSystem.pivot_wellFormed h.toWellFormed he
  have hcol : e.col ∈ (t.toRowSystem.pivot settings.omit_division e.row e.col).mRows :=
    (RowSystem.mem_pivot_rows h.toWellFormed he).mpr (.inl rfl)
  rw [(pivot_spec h.toWellFormed he).rows]
  constructor
  · split_ifs
    · rw [RowSystem.deactivate_solves hwf hcol, RowSystem.pivot_solves h.toWellFormed he]
    · exact RowSystem.pivot_solves h.toWellFormed he f
  · intro hbd
    rw [if_neg, RowSystem.pivot_solvesActive h.toWellFormed he]
    rw [Bool.and_eq_true, Bool.not_eq_true', Bool.not_eq_true']
    rintro ⟨hnone, horig⟩
    rcases hbd with hbd | hbd
    · exact Bool.false_ne_true (hnone.symm.trans hbd)
    · exact Bool.false_ne_true (horig.symm.trans hbd)

/-! ## Runs -/

/-- The operations of the tableau that concern its rows. -/
inductive RowAction where
  | newBound (c : LinearConstraint)
  | activateBound (b : Bound) (o : Origin)
  | activateBasicVar (v : VarId)
  | deactivateBasicVar (v : VarId)
  | pivot (e : EntryID)

/-- The tableau after an operation.  Only a basic variable that is not an original one can be
deactivated, and a pivoting element is an entry of an active row. -/
def rowStep (settings : TableauSettings) (t : Tableau) : RowAction → Option Tableau
  | .newBound c => some (t.newBound c)
  | .activateBound b o => some (t.activateBound settings b o)
  | .activateBasicVar v => some (t.activateBasicVar settings v)
  | .deactivateBasicVar v =>
    if v ∈ t.mRows ∧ t.isOriginal v = false then some (t.deactivateBasicVar v) else none
  | .pivot e =>
    if e.row ∈ t.mRows ∧ (t.content e.row e.col).isSome then some (t.pivot settings e) else none

theorem empty_correct (p : LinearForm) : (empty p).Correct settings.omit_division := by
  have hunk : ∀ v, ¬ (empty p).IsKnown v := by
    rintro v (hv | hv | hv) <;> cases hv
  have hrow : ∀ v, ¬ (empty p).HasRow v := fun v hv => hunk v (.inr hv)
  constructor
  case toWellFormed =>
    constructor
    case rows_nodup => exact nodup_nil
    case columns_nodup => exact nodup_nil
    case inactive_nodup => exact nodup_nil
    case stored_order => exact List.Pairwise.nil
    case known_lt => exact fun v hv => absurd hv (hunk v)
    case factor_ne_zero => exact fun v hv => absurd hv (hrow v)
    case factor_one => exact fun _ v hv => absurd hv (hunk v)
    case content_ne_zero => exact fun v hv => absurd hv (hrow v)
    all_goals exact fun v hv => absurd hv not_mem_nil
  case solves => exact fun v hv => absurd hv (hrow v)
  case integer_coeff => exact fun v hv => absurd hv (hunk v)
  case isInteger_eq => exact fun v hv => absurd hv (hunk v)
  all_goals exact fun _ _ h => nomatch h

theorem rowStep_correct {t' : Tableau} (action : RowAction)
    (h : t.Correct settings.omit_division) (hstep : t.rowStep settings action = some t') :
    t'.Correct settings.omit_division := by
  cases action with
  | newBound c =>
    cases hstep
    exact newBound_correct h c
  | activateBound b o =>
    cases hstep
    exact activateBound_correct h b o
  | activateBasicVar v =>
    cases hstep
    exact activateBasicVar_correct h v
  | deactivateBasicVar v =>
    obtain ⟨⟨hv, horig⟩, heq⟩ := ite_none_right_eq_some.mp hstep
    cases heq
    exact RowSystem.deactivate_correct h hv horig
  | pivot e =>
    obtain ⟨⟨hrow, hcont⟩, heq⟩ := ite_none_right_eq_some.mp hstep
    cases heq
    obtain ⟨a, ha⟩ := isSome_iff_exists.mp hcont
    exact pivot_correct h ⟨hrow, mem_of_find ha⟩

/-- In every tableau that is reached, the rows are identities between the polynomials of their
variables, and pivoting at an entry keeps the solutions of the rows. -/
theorem rowSpace_preserved (settings : TableauSettings) (p : LinearForm)
    (actions : List RowAction) (t : Tableau)
    (hrun : run (rowStep settings) (empty p) actions = some t) :
    (∀ v ∈ t.mRows, (t.row v).factor ≠ 0 ∧
      (t.row v).factor • t.poly v = eval t.poly (t.row v).entries) ∧
    ∀ e : EntryID, e.row ∈ t.mRows → ∀ a, (e.col, a) ∈ (t.row e.row).entries → a ≠ 0 ∧
      ∀ (M : Type u) [AddCommGroup M] [Module ℚ M] (f : VarId → M),
        ((t.pivot settings e).Solves f ↔ t.Solves f) ∧
        (t.hasBound e.col = true ∨ t.isOriginal e.col = true →
          ((t.pivot settings e).SolvesActive f ↔ t.SolvesActive f)) := by
  have hcorr : t.Correct settings.omit_division := run_invariant
    (P := fun t : Tableau => t.Correct settings.omit_division)
    (fun t action t' h hstep => rowStep_correct action h hstep) (empty_correct p) hrun
  refine ⟨?_, ?_⟩
  · exact fun v hv => ⟨hcorr.factor_ne_zero v (.inl hv), hcorr.solves v (.inl hv)⟩
  · intro e hrow a ha
    refine ⟨hcorr.content_ne_zero e.row (.inl hrow) _ ha, ?_⟩
    intro M _ _ f
    exact pivot_solutions hcorr ⟨hrow, ha⟩ f

/-- The form `2x + 3y` over real variables. -/
def sampleForm : LinearForm where
  terms := [(⟨0, false⟩, 2), (⟨1, false⟩, 3)]
  sorted := by decide
  coeff_ne_zero := by decide
  terms_ne_nil := by decide

theorem integral_sampleForm : sampleForm.integerValued = true →
    (-6 * sampleForm.coprimeFactor).den = 1 :=
  fun h => absurd h (by decide)

/-- The constraint `2x + 3y - 6 ≤ 0`. -/
def sampleConstraint : LinearConstraint := ⟨sampleForm, -6, .leq, integral_sampleForm⟩

/-- The slack variable of `2x + 3y` is bounded and exchanged with `x`. -/
def samplePivoted : Tableau :=
  (((empty sampleForm).newBound sampleConstraint).activateBound TableauSettings1
    ⟨0, .upper, some ⟨6, 0⟩⟩ (.constraint sampleConstraint)).pivot TableauSettings1 ⟨0, 1⟩

theorem rowSpace_preserved_sample : samplePivoted.mRows = [1] ∧
    samplePivoted.row 1 = ⟨2, [(0, 1), (2, -3)]⟩ ∧
    (samplePivoted.row 1).factor • samplePivoted.poly 1 =
      eval samplePivoted.poly (samplePivoted.row 1).entries := by
  have hrun : run (rowStep TableauSettings1) (empty sampleForm) [.newBound sampleConstraint,
      .activateBound ⟨0, .upper, some ⟨6, 0⟩⟩ (.constraint sampleConstraint), .pivot ⟨0, 1⟩] =
        some samplePivoted := by
    simp only [run, rowStep, bind_some]
    rw [if_pos (by decide +kernel)]
    rfl
  have hrows : samplePivoted.mRows = [1] := by decide +kernel
  refine ⟨hrows, by decide +kernel, ?_⟩
  exact ((rowSpace_preserved.{0} _ _ _ _ hrun).1 1 (by rw [hrows]; decide)).2

end Tableau

/-- The form `x + y` over real variables. -/
def LRAModule.sumForm : LinearForm where
  terms := [(⟨0, false⟩, 1), (⟨1, false⟩, 1)]
  sorted := by decide
  coeff_ne_zero := by decide
  terms_ne_nil := by decide

end Smtrat.LRA
