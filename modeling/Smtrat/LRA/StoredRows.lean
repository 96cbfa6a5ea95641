import Smtrat.LRA.RowSpace

/-!
# Deleted variables

A slack variable is deleted after the last of its bounds, by `deleteVariable` or at the end of `pivot`.
The rows that are stored for other variables may still mention it, and their activation then follows
a variable that is gone.
-/

namespace Smtrat.LRA

open Run List Function

namespace RowSystem

/-- What `deleteVariable` and `pivot` do to a variable whose row is stored. -/
def deleteVariable (s : RowSystem) (v : VarId) : RowSystem :=
  { s with
    mNonActiveBasics := s.mNonActiveBasics.erase v
    mSlackVars := update s.mSlackVars (s.expression v) none }

instance (s : RowSystem) (v : VarId) : Decidable (s.IsKnown v) :=
  inferInstanceAs (Decidable (_ ∨ _ ∨ _))

/-- The variables that the loop of `activateBasicVar` meets, where an inactive one is replaced by its
stored entries: the loop ends, and no variable it looks at was deleted. -/
def follows (s : RowSystem) : ℕ → List VarId → Bool
  | _, [] => true
  | 0, _ :: _ => false
  | n + 1, w :: ws => s.IsKnown w && s.follows n
    (if s.isBasic w ∧ w ∈ s.mNonActiveBasics ∧ s.isOriginal w = false
      then ws ++ (s.row w).entries.map Prod.fst else ws)

/-- No stored row mentions the variable. -/
def Unused (s : RowSystem) (v : VarId) : Prop :=
  ∀ u ∈ s.mNonActiveBasics, v ∉ (s.row u).entries.map Prod.fst

instance (s : RowSystem) (v : VarId) : Decidable (s.Unused v) :=
  inferInstanceAs (Decidable (∀ _ ∈ _, _))

/-- The stored rows mention existing variables only, and their expansion ends. -/
structure StoredWellFounded (s : RowSystem) : Prop where
  alive : ∀ v ∈ s.mNonActiveBasics, ∀ e ∈ (s.row v).entries, s.IsKnown e.1
  ends : ∀ v ∈ s.mNonActiveBasics, ∃ n, s.follows n ((s.row v).entries.map Prod.fst) = true

variable {omit_division : Bool} {s : RowSystem} {v : VarId}

/-- As many steps are enough as the variables weigh. -/
theorem follows_of_wellFormed (hs : s.WellFormed omit_division) {n : ℕ} {ws : List VarId}
    (hknown : ∀ w ∈ ws, s.IsKnown w) (hn : (ws.map s.weight).sum ≤ n) : s.follows n ws = true := by
  induction n generalizing ws with
  | zero =>
    cases ws with
    | nil => rfl
    | cons w ws =>
      have hpos := weight_pos hs w
      rw [map_cons, sum_cons] at hn
      omega
  | succ n ih =>
    cases ws with
    | nil => rfl
    | cons w ws =>
      obtain ⟨hw, hws⟩ := forall_mem_cons.mp hknown
      rw [map_cons, sum_cons] at hn
      rw [follows, decide_eq_true hw, Bool.true_and]
      split_ifs with hinact
      · have hweight := weight_of_inactive hs hinact.2.1
        refine ih (fun u hu => ?_) ?_
        · rcases mem_append.mp hu with hu | hu
          · exact hws u hu
          · obtain ⟨e, he, rfl⟩ := mem_map.mp hu
            exact hs.key_known w hinact.2.1 e he
        · rw [map_append, sum_append, map_map]
          change _ + ((s.row w).entries.map fun e => s.weight e.1).sum ≤ n
          omega
      · have hpos := weight_pos hs w
        exact ih hws (by omega)

theorem Correct.storedWellFounded (h : s.Correct omit_division) : s.StoredWellFounded where
  alive := h.key_known
  ends v hv := ⟨_, follows_of_wellFormed h.toWellFormed (fun w hw => by
    obtain ⟨e, he, rfl⟩ := mem_map.mp hw
    exact h.key_known v hv e he) le_rfl⟩

/-- A variable that no stored row mentions can be deleted. -/
theorem Correct.deleteVariable (h : s.Correct omit_division) (hv : v ∈ s.mNonActiveBasics)
    (hunused : s.Unused v) : (s.deleteVariable v).Correct omit_division := by
  have hsub : ∀ w ∈ s.mNonActiveBasics.erase v, w ∈ s.mNonActiveBasics :=
    fun w hw => mem_of_mem_erase hw
  have hrow : ∀ w, (s.deleteVariable v).HasRow w → s.HasRow w := fun w => Or.imp_right (hsub w)
  have hknown : ∀ w, (s.deleteVariable v).IsKnown w → s.IsKnown w := fun w => Or.imp_right (hrow w)
  have hkept : ∀ w, s.IsKnown w → w ≠ v → (s.deleteVariable v).IsKnown w :=
    fun w hw hne => hw.imp_right (Or.imp_right (mem_erase_of_ne hne).mpr)
  have hslack : ∀ p w, (s.deleteVariable v).mSlackVars p = some w →
      s.mSlackVars p = some w ∧ p ≠ s.expression v := by
    intro p w hw
    by_cases hp : p = s.expression v
    · rw [hp, show (s.deleteVariable v).mSlackVars (s.expression v) = none from update_self _ _ _] at hw
      cases hw
    · exact ⟨(update_of_ne hp _ _).symm.trans hw, hp⟩
  exact { h with
    inactive_nodup := h.inactive_nodup.erase v
    inactive_not_column := fun w hw => h.inactive_not_column w (hsub w hw)
    inactive_not_row := fun w hw => h.inactive_not_row w (hsub w hw)
    inactive_not_original := fun w hw => h.inactive_not_original w (hsub w hw)
    known_lt := fun w hw => h.known_lt w (hknown w hw)
    factor_ne_zero := fun w hw => h.factor_ne_zero w (hrow w hw)
    factor_one := fun hmode w hw => h.factor_one hmode w (hknown w hw)
    key_known := fun w hw e he => by
      refine hkept e.1 (h.key_known w (hsub w hw) e he) ?_
      rintro rfl
      exact hunused w (hsub w hw) (mem_map_of_mem he)
    content_ne_zero := fun w hw => h.content_ne_zero w (hrow w hw)
    stored_order := h.stored_order.sublist erase_sublist
    stored_self := fun w hw => h.stored_self w (hsub w hw)
    solves := fun w hw => h.solves w (hrow w hw)
    integer_coeff := fun w hw => h.integer_coeff w (hknown w hw)
    isInteger_eq := fun w hw => h.isInteger_eq w (hknown w hw)
    original_known := fun x w hw => by
      refine hkept w (h.original_known x w hw) ?_
      rintro rfl
      exact absurd (h.original x w hw) (by rw [h.inactive_not_original w hv]; decide)
    slack_known := fun p w hw => by
      obtain ⟨hw, hp⟩ := hslack p w hw
      refine hkept w (h.slack_known p w hw) fun hwv => hp ?_
      rw [← h.slack_expression p w hw, hwv]
    slack_expression := fun p w hw => h.slack_expression p w (hslack p w hw).1 }

end RowSystem

/-! ## Runs with deletions -/

/-- The rows of a tableau, and what the deletion of their variables depends on. -/
structure SlackRows extends RowSystem where
  hasBound : VarId → Bool
  /-- `lowerbounds` or `upperbounds` has more than the infinite bound. -/
  hasFiniteBound : VarId → Bool

/-- The operations on the rows.  Bounds change at any time. -/
inductive SlackAction where
  | getVariable (lhs : LinearForm) (constantPart : ℚ)
  | setBounds (v : VarId) (hasBound hasFiniteBound : Bool)
  | activateBasicVar (v : VarId)
  | deactivateBasicVar (v : VarId)
  | pivot (r c : VarId)
  | deleteVariable (v : VarId)

namespace SlackRows

variable (omit_division : Bool)

def empty (p : LinearForm) : SlackRows :=
  ⟨(Tableau.empty p).toRowSystem, fun _ => false, fun _ => false⟩

/-- The end of `pivot`: the new basic variable is stored when it has no bound, and deleted when none
is left. -/
def finishPivot (s : SlackRows) (c : VarId) : RowSystem :=
  if s.hasBound c = false ∧ s.isOriginal c = false then
    let rows := s.toRowSystem.deactivateBasicVar c
    if s.hasFiniteBound c then rows else rows.deleteVariable c
  else s.toRowSystem

/-- The rows after an operation that meets the assertions and follows no deleted variable. -/
def step (s : SlackRows) : SlackAction → Option SlackRows
  | .getVariable lhs constantPart =>
    some { s with toRowSystem := (s.toRowSystem.getVariable lhs constantPart).2 }
  | .setBounds v hasBound hasFiniteBound =>
    some { s with
      hasBound := update s.hasBound v hasBound
      hasFiniteBound := update s.hasFiniteBound v hasFiniteBound }
  | .activateBasicVar v =>
    if v ∈ s.mNonActiveBasics then
      let vars := (s.row v).entries.map Prod.fst
      if s.hasBound v = false ∧ s.follows (vars.map s.weight).sum vars = true then
        some { s with toRowSystem := s.toRowSystem.activateBasicVar omit_division v }
      else none
    else some s
  | .deactivateBasicVar v =>
    if v ∈ s.mRows ∧ s.isOriginal v = false then
      some { s with toRowSystem := s.toRowSystem.deactivateBasicVar v }
    else none
  | .pivot r c =>
    if r ∈ s.mRows ∧ (s.content r c).isSome then
      let t := { s with toRowSystem := s.toRowSystem.pivot omit_division r c }
      some { t with toRowSystem := t.finishPivot c }
    else none
  | .deleteVariable v =>
    if s.hasFiniteBound v = false ∧ s.isOriginal v = false then
      if v ∈ s.mNonActiveBasics then some { s with toRowSystem := s.toRowSystem.deleteVariable v }
      else if v ∈ s.mRows then
        some { s with toRowSystem := (s.toRowSystem.deactivateBasicVar v).deleteVariable v }
      else none
    else none

/-- Where a variable is deleted, no stored row mentions it. -/
def DeletesUnused (s : SlackRows) : SlackAction → Prop
  | .deleteVariable v => s.Unused v
  | .pivot _ c => s.hasBound c = false → s.isOriginal c = false → s.hasFiniteBound c = false →
      s.Unused c
  | _ => True

instance (s : SlackRows) (action : SlackAction) : Decidable (s.DeletesUnused action) := by
  cases action <;> unfold DeletesUnused <;> infer_instance

variable {omit_division} {s s' : SlackRows}

theorem step_correct {action : SlackAction} (h : s.Correct omit_division)
    (hunused : s.DeletesUnused action) (hstep : s.step omit_division action = some s') :
    s'.Correct omit_division := by
  cases action with
  | getVariable lhs constantPart =>
    cases hstep
    exact (RowSystem.getVariable_spec lhs constantPart h).correct
  | setBounds v hasBound hasFiniteBound =>
    cases hstep
    exact h
  | activateBasicVar v =>
    dsimp only [step] at hstep
    split_ifs at hstep with hv
    · cases hstep
      exact RowSystem.activate_correct h hv
    · cases hstep
      exact h
  | deactivateBasicVar v =>
    obtain ⟨⟨hv, horig⟩, heq⟩ := Option.ite_none_right_eq_some.mp hstep
    cases heq
    exact RowSystem.deactivate_correct h hv horig
  | pivot r c =>
    obtain ⟨⟨hr, hc⟩, heq⟩ := Option.ite_none_right_eq_some.mp hstep
    cases heq
    obtain ⟨a, ha⟩ := Option.isSome_iff_exists.mp hc
    have he : s.HasEntry r c a := ⟨hr, Combination.mem_of_find ha⟩
    have hpivot := RowSystem.pivot_correct h he
    have hdeact := fun horig => RowSystem.deactivate_correct hpivot
      ((RowSystem.mem_pivot_rows h.toWellFormed he).mpr (.inl rfl)) horig
    dsimp only [finishPivot]
    split_ifs with hbd hfin
    · exact hdeact hbd.2
    · have hstor := hdeact hbd.2
      have horig := congrFun (RowSystem.pivot_sameVariables h he).isOriginal c
      refine hstor.deleteVariable mem_cons_self (forall_mem_cons.mpr
        ⟨hstor.stored_self c mem_cons_self, fun u hu => ?_⟩)
      rw [RowSystem.pivot_inactive h.toWellFormed he] at hu
      show c ∉ ((s.toRowSystem.pivot omit_division r c).row u).entries.map Prod.fst
      rw [RowSystem.pivot_row_inactive h.toWellFormed he hu]
      exact hunused hbd.1 (horig.symm.trans hbd.2) (Bool.not_eq_true _ ▸ hfin) u hu
    · exact hpivot
  | deleteVariable v =>
    rw [step] at hstep
    split_ifs at hstep with hdelete hv hrow
    · cases hstep
      exact h.deleteVariable hv hunused
    · cases hstep
      have hdeact := RowSystem.deactivate_correct h hrow hdelete.2
      exact hdeact.deleteVariable mem_cons_self (forall_mem_cons.mpr
        ⟨hdeact.stored_self v mem_cons_self, hunused⟩)

/-- The slack variables of `2x + 3y` and `x + y` are `0` and `3`.  The row of `3` is stored while `0` is
a column; then `0` gets its row back when its constraint is gone. -/
private def deletingActions : List SlackAction :=
  [.getVariable Tableau.sampleForm (-6), .setBounds 0 false true,
    .getVariable LRAModule.sumForm 0,
    .setBounds 3 false true, .activateBasicVar 0, .setBounds 0 true true, .pivot 0 1,
    .activateBasicVar 3, .setBounds 3 true true, .setBounds 3 false true, .deactivateBasicVar 3,
    .setBounds 0 false false, .pivot 1 0]

end SlackRows

end Smtrat.LRA
