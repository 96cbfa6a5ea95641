import Smtrat.LRA.RowActivation

/-!
# The variables of the tableau

A tableau variable stands for a linear form over the input's variables: an original variable for
one of these, a slack variable for the left-hand side of constraints.  The rows are equations
between these forms.  New variables are created when a bound needs them, and neither their forms
nor their rows disturb the existing ones.
-/

namespace Smtrat.LRA

open Combination List

namespace RowSystem

variable {omit_division : Bool} {s s' : RowSystem}

/-- The polynomial a tableau variable stands for. -/
noncomputable def poly (s : RowSystem) (v : VarId) : Var →₀ ℚ := (s.expression v).polynomial

/-- Every row is correct, and the variables are found by what they stand for. -/
structure Correct (omit_division : Bool) (s : RowSystem) : Prop
    extends s.WellFormed omit_division where
  solves : s.Solves s.poly
  /-- The forms have integer coefficients. -/
  integer_coeff : ∀ v, s.IsKnown v → ∀ t ∈ (s.expression v).terms, ∃ n : ℤ, t.2 = n
  isInteger_eq : ∀ v, s.IsKnown v → s.isInteger v = (s.expression v).integerValued
  original_known : ∀ x v, s.mOriginalVars x = some v → s.IsKnown v
  original : ∀ x v, s.mOriginalVars x = some v → s.isOriginal v = true
  original_expression : ∀ x v, s.mOriginalVars x = some v → s.expression v = .ofVar x
  slack_known : ∀ p v, s.mSlackVars p = some v → s.IsKnown v
  slack_expression : ∀ p v, s.mSlackVars p = some v → s.expression v = p

/-- Variables may have been created: what was there is as it was. -/
structure Extends (s s' : RowSystem) : Prop where
  nextId_le : s.nextId ≤ s'.nextId
  rows : s'.mRows = s.mRows
  columns : ∀ v ∈ s.mColumns, v ∈ s'.mColumns
  inactive : ∀ v ∈ s.mNonActiveBasics, v ∈ s'.mNonActiveBasics
  known_of_lt : ∀ v < s.nextId, s'.IsKnown v → s.IsKnown v
  expression : ∀ v < s.nextId, s'.expression v = s.expression v
  isOriginal : ∀ v < s.nextId, s'.isOriginal v = s.isOriginal v
  isInteger : ∀ v < s.nextId, s'.isInteger v = s.isInteger v
  row : ∀ v < s.nextId, s'.row v = s.row v

theorem Extends.refl (s : RowSystem) : s.Extends s where
  nextId_le := le_rfl
  rows := rfl
  columns _ h := h
  inactive _ h := h
  known_of_lt _ _ h := h
  expression _ _ := rfl
  isOriginal _ _ := rfl
  isInteger _ _ := rfl
  row _ _ := rfl

theorem Extends.trans {s'' : RowSystem} (h : s.Extends s') (h' : s'.Extends s'') :
    s.Extends s'' where
  nextId_le := h.nextId_le.trans h'.nextId_le
  rows := h'.rows.trans h.rows
  columns v hv := h'.columns v (h.columns v hv)
  inactive v hv := h'.inactive v (h.inactive v hv)
  known_of_lt v hlt hv := h.known_of_lt v hlt (h'.known_of_lt v (hlt.trans_le h.nextId_le) hv)
  expression v hlt := (h'.expression v (hlt.trans_le h.nextId_le)).trans (h.expression v hlt)
  isOriginal v hlt := (h'.isOriginal v (hlt.trans_le h.nextId_le)).trans (h.isOriginal v hlt)
  isInteger v hlt := (h'.isInteger v (hlt.trans_le h.nextId_le)).trans (h.isInteger v hlt)
  row v hlt := (h'.row v (hlt.trans_le h.nextId_le)).trans (h.row v hlt)

variable {v : VarId}

theorem Extends.known (h : s.Extends s') (hv : s.IsKnown v) : s'.IsKnown v := by
  rcases hv with hv | hv
  · exact .inl (h.columns v hv)
  · exact .inr (hv.imp (fun hv => h.rows ▸ hv) (h.inactive v))

/-- The columns of a row are variables of the tableau. -/
theorem WellFormed.entry_known (hs : s.WellFormed omit_division) (hv : s.HasRow v)
    {e : VarId × ℚ} (he : e ∈ (s.row v).entries) : s.IsKnown e.1 := by
  rcases hv with hv | hv
  · exact .inl (hs.key_column v hv e he)
  · exact hs.key_known v hv e he

theorem Extends.poly (h : s.Extends s') (hs : s.WellFormed omit_division)
    (hv : s.IsKnown v) : s'.poly v = s.poly v := by
  rw [RowSystem.poly, RowSystem.poly, h.expression v (hs.known_lt v hv)]

/-- The old rows stay correct. -/
theorem Extends.holds (h : s.Extends s') (hs : s.Correct omit_division)
    (hv : s.HasRow v) : (s'.row v).Holds s'.poly v := by
  rw [h.row v (hs.known_lt v (.inr hv)), Row.Holds, h.poly hs.toWellFormed (.inr hv),
    eval_congr fun e he => h.poly hs.toWellFormed (hs.entry_known hv he)]
  exact hs.solves v hv

/-! ## Entering a variable -/

section Enter

/-- The id of the next variable is taken. -/
def reserved (s : RowSystem) : RowSystem := { s with nextId := s.nextId + 1 }

/-- The data of a variable are written down. -/
def enter (s : RowSystem) (v : VarId) (isOriginal isInteger : Bool) (p : LinearForm)
    (row : Row VarId ℚ) : RowSystem :=
  { s with
    isOriginal := Function.update s.isOriginal v isOriginal
    isInteger := Function.update s.isInteger v isInteger
    expression := Function.update s.expression v p
    row := Function.update s.row v row }

def addColumn (s : RowSystem) (v : VarId) : RowSystem := { s with mColumns := s.mColumns ++ [v] }

def addInactive (s : RowSystem) (v : VarId) : RowSystem :=
  { s with mNonActiveBasics := v :: s.mNonActiveBasics }

variable {w : VarId}

theorem isKnown_addColumn : (s.addColumn v).IsKnown w ↔ s.IsKnown w ∨ w = v := by
  show w ∈ s.mColumns ++ [v] ∨ _ ↔ _
  rw [mem_append, mem_singleton, or_right_comm]
  rfl

theorem isKnown_addInactive : (s.addInactive v).IsKnown w ↔ s.IsKnown w ∨ w = v := by
  show w ∈ _ ∨ w ∈ _ ∨ w ∈ v :: _ ↔ _
  rw [mem_cons, or_left_comm (b := w = v), or_left_comm, or_comm]
  rfl

variable (h : s.Correct omit_division)

include h

theorem reserved_correct : s.reserved.Correct omit_division :=
  { h with known_lt := fun v hv => (h.known_lt v hv).trans (Nat.lt_succ_self _) }

variable (hfresh : ¬ s.IsKnown v)

include hfresh

omit h in
theorem ne_of_isKnown (w : VarId) (hw : s.IsKnown w) : w ≠ v := by
  rintro rfl
  exact hfresh hw

/-- Nothing depends on the data of a variable that is not in the tableau. -/
theorem Correct.enter (isOriginal isInteger : Bool) (p : LinearForm) (row : Row VarId ℚ) :
    (s.enter v isOriginal isInteger p row).Correct omit_division := by
  have hne := ne_of_isKnown hfresh
  set s' := s.enter v isOriginal isInteger p row
  have hrow : ∀ w, s.IsKnown w → s'.row w = s.row w :=
    fun w hw => Function.update_of_ne (hne w hw) _ _
  have hexpr : ∀ w, s.IsKnown w → s'.expression w = s.expression w :=
    fun w hw => Function.update_of_ne (hne w hw) _ _
  have horig : ∀ w, s.IsKnown w → s'.isOriginal w = s.isOriginal w :=
    fun w hw => Function.update_of_ne (hne w hw) _ _
  have hpoly : ∀ w, s.IsKnown w → s'.poly w = s.poly w :=
    fun w hw => congrArg LinearForm.polynomial (hexpr w hw)
  have hinact : ∀ w ∈ s.mNonActiveBasics, s'.row w = s.row w :=
    fun w hw => hrow w (.inr (.inr hw))
  have hact : ∀ w ∈ s.mRows, s'.row w = s.row w := fun w hw => hrow w (.inr (.inl hw))
  exact { h with
    inactive_not_original := fun w hw =>
      (horig w (.inr (.inr hw))).trans (h.inactive_not_original w hw)
    factor_ne_zero := fun w hw => (hrow w (.inr hw)).symm ▸ h.factor_ne_zero w hw
    factor_one := fun hmode w hw => (hrow w hw).symm ▸ h.factor_one hmode w hw
    keys_nodup := fun w hw => (hact w hw).symm ▸ h.keys_nodup w hw
    key_column := fun w hw => (hact w hw).symm ▸ h.key_column w hw
    key_known := fun w hw => (hinact w hw).symm ▸ h.key_known w hw
    content_ne_zero := fun w hw => (hrow w (.inr hw)).symm ▸ h.content_ne_zero w hw
    stored_order := h.stored_order.imp_of_mem fun hu _ huv => (hinact _ hu).symm ▸ huv
    stored_self := fun w hw => (hinact w hw).symm ▸ h.stored_self w hw
    solves := by
      intro w hw
      rw [hrow w (.inr hw), Row.Holds, hpoly w (.inr hw),
        eval_congr fun e he => hpoly e.1 (h.entry_known hw he)]
      exact h.solves w hw
    integer_coeff := fun w hw => (hexpr w hw).symm ▸ h.integer_coeff w hw
    isInteger_eq := by
      intro w hw
      rw [hexpr w hw, ← h.isInteger_eq w hw]
      exact Function.update_of_ne (hne w hw) _ _
    original := fun x w hw => (horig w (h.original_known x w hw)).trans (h.original x w hw)
    original_expression := fun x w hw =>
      (hexpr w (h.original_known x w hw)).trans (h.original_expression x w hw)
    slack_expression := fun p w hw =>
      (hexpr w (h.slack_known p w hw)).trans (h.slack_expression p w hw) }

variable (hlt : v < s.nextId) (hfac : (s.row v).factor = 1)
  (hcoeff : ∀ t ∈ (s.expression v).terms, ∃ n : ℤ, t.2 = n)
  (hint : s.isInteger v = (s.expression v).integerValued)

include hlt hfac hcoeff hint

theorem Correct.addColumn : (s.addColumn v).Correct omit_division := by
  have hne := ne_of_isKnown hfresh
  have hknown : ∀ w, s.IsKnown w → (s.addColumn v).IsKnown w :=
    fun w hw => isKnown_addColumn.mpr (.inl hw)
  have hall {P : VarId → Prop} (hold : ∀ w, s.IsKnown w → P w) (hnew : P v) (w : VarId)
      (hw : (s.addColumn v).IsKnown w) : P w :=
    (isKnown_addColumn.mp hw).elim (hold w) fun hw => hw ▸ hnew
  have hcol : ∀ w ∈ (s.addColumn v).mColumns, w ∉ s.mColumns → w = v :=
    fun w hw hnew => mem_singleton.mp ((mem_append.mp hw).resolve_left hnew)
  exact { h with
    columns_nodup := by
      refine nodup_append.mpr ⟨h.columns_nodup, nodup_singleton _, ?_⟩
      rintro w hw u hu rfl
      exact hne w (.inl hw) (mem_singleton.mp hu)
    row_not_column := fun w hw hmem =>
      hne w (.inr (.inl hw)) (hcol w hmem (h.row_not_column w hw))
    inactive_not_column := fun w hw hmem =>
      hne w (.inr (.inr hw)) (hcol w hmem (h.inactive_not_column w hw))
    known_lt := hall h.known_lt hlt
    factor_one := fun hmode => hall (h.factor_one hmode) hfac
    key_column := fun w hw e he => mem_append_left _ (h.key_column w hw e he)
    key_known := fun w hw e he => hknown e.1 (h.key_known w hw e he)
    integer_coeff := hall h.integer_coeff hcoeff
    isInteger_eq := hall h.isInteger_eq hint
    original_known := fun x w hw => hknown w (h.original_known x w hw)
    slack_known := fun p w hw => hknown w (h.slack_known p w hw) }

/-- A stored row consists of original variables. -/
theorem Correct.addInactive (horig : s.isOriginal v = false)
    (hents : ∀ e ∈ (s.row v).entries, s.IsKnown e.1 ∧ s.isOriginal e.1 = true ∧ e.2 ≠ 0)
    (hholds : (s.row v).Holds s.poly v) : (s.addInactive v).Correct omit_division := by
  have hknown : ∀ w, s.IsKnown w → (s.addInactive v).IsKnown w :=
    fun w hw => isKnown_addInactive.mpr (.inl hw)
  have hall {P : VarId → Prop} (hold : ∀ w, s.IsKnown w → P w) (hnew : P v) (w : VarId)
      (hw : (s.addInactive v).IsKnown w) : P w :=
    (isKnown_addInactive.mp hw).elim (hold w) fun hw => hw ▸ hnew
  have hrows {P : VarId → Prop} (hold : ∀ w, s.HasRow w → P w) (hnew : P v) :
      ∀ w, (s.addInactive v).HasRow w → P w := by
    rintro w (hw | hw)
    · exact hold w (.inl hw)
    · exact forall_mem_cons.mpr ⟨hnew, fun w hw => hold w (.inr hw)⟩ w hw
  exact { h with
    inactive_nodup := nodup_cons.mpr ⟨fun hv => hfresh (.inr (.inr hv)), h.inactive_nodup⟩
    inactive_not_column := forall_mem_cons.mpr ⟨fun hv => hfresh (.inl hv), h.inactive_not_column⟩
    inactive_not_row := forall_mem_cons.mpr ⟨fun hv => hfresh (.inr (.inl hv)), h.inactive_not_row⟩
    inactive_not_original := forall_mem_cons.mpr ⟨horig, h.inactive_not_original⟩
    known_lt := hall h.known_lt hlt
    factor_ne_zero := hrows h.factor_ne_zero (hfac.symm ▸ one_ne_zero)
    factor_one := fun hmode => hall (h.factor_one hmode) hfac
    key_known := forall_mem_cons.mpr ⟨fun e he => hknown e.1 (hents e he).1,
      fun w hw e he => hknown e.1 (h.key_known w hw e he)⟩
    content_ne_zero := hrows h.content_ne_zero fun e he => (hents e he).2.2
    stored_order := by
      refine pairwise_cons.mpr ⟨?_, h.stored_order⟩
      -- an original variable is never inactive
      intro w hw hmem
      obtain ⟨e, he, rfl⟩ := mem_map.mp hmem
      exact absurd (hents e he).2.1 (by rw [h.inactive_not_original e.1 hw]; decide)
    stored_self := by
      refine forall_mem_cons.mpr ⟨fun hmem => ?_, h.stored_self⟩
      obtain ⟨e, he, heq⟩ := mem_map.mp hmem
      exact ne_of_isKnown hfresh e.1 (hents e he).1 heq
    solves := hrows h.solves hholds
    integer_coeff := hall h.integer_coeff hcoeff
    isInteger_eq := hall h.isInteger_eq hint
    original_known := fun x w hw => hknown w (h.original_known x w hw)
    slack_known := fun p w hw => hknown w (h.slack_known p w hw) }

end Enter

/-! ## Original variables -/

section NewNonbasicVariable

variable (x : Var)

theorem isKnown_newNonbasicVariable :
    (s.newNonbasicVariable x).2.IsKnown v ↔ s.IsKnown v ∨ v = s.nextId :=
  isKnown_addColumn

theorem newNonbasicVariable_extends : s.Extends (s.newNonbasicVariable x).2 where
  nextId_le := Nat.le_succ _
  rows := rfl
  columns _ hv := mem_append_left _ hv
  inactive _ hv := hv
  known_of_lt _ hlt hv := ((isKnown_newNonbasicVariable x).mp hv).resolve_right hlt.ne
  expression _ hv := Function.update_of_ne hv.ne _ _
  isOriginal _ hv := Function.update_of_ne hv.ne _ _
  isInteger _ hv := Function.update_of_ne hv.ne _ _
  row _ hv := Function.update_of_ne hv.ne _ _

/-- A new original variable keeps the correctness of the rows. -/
theorem newNonbasicVariable_correct (h : s.Correct omit_division) :
    (s.newNonbasicVariable x).2.Correct omit_division := by
  have hfresh : ¬ s.IsKnown s.nextId := fun hv => (h.known_lt _ hv).false
  have hnew : (s.newNonbasicVariable x).2.expression s.nextId = .ofVar x :=
    Function.update_self _ _ _
  have hrow : (s.newNonbasicVariable x).2.row s.nextId = ⟨1, []⟩ := Function.update_self _ _ _
  have hcoeff : ∀ t ∈ ((s.newNonbasicVariable x).2.expression s.nextId).terms, ∃ n : ℤ, t.2 = n := by
    rw [hnew]
    exact forall_mem_singleton.mpr ⟨1, Int.cast_one.symm⟩
  have hint : (s.newNonbasicVariable x).2.isInteger s.nextId =
      ((s.newNonbasicVariable x).2.expression s.nextId).integerValued := by
    rw [hnew]
    exact (Function.update_self _ _ _).trans (Bool.and_true _).symm
  have hvars : ∀ y v, (s.newNonbasicVariable x).2.mOriginalVars y = some v →
      y = x ∧ v = s.nextId ∨ s.mOriginalVars y = some v := by
    intro y v hv
    by_cases hyx : y = x
    · subst hyx
      exact .inl ⟨rfl, Option.some.inj (hv.symm.trans (Function.update_self _ _ _))⟩
    · exact .inr ((Function.update_of_ne hyx _ _).symm.trans hv)
  have hcorr := ((reserved_correct h).enter hfresh true x.isInteger (.ofVar x) ⟨1, []⟩).addColumn
    hfresh (Nat.lt_succ_self _)
    (congrArg Row.factor hrow) hcoeff hint
  refine { hcorr with original_known := ?_, original := ?_, original_expression := ?_ }
  · intro y v hv
    rcases hvars y v hv with ⟨-, rfl⟩ | hv
    · exact isKnown_addColumn.mpr (.inr rfl)
    · exact hcorr.original_known y v hv
  · intro y v hv
    rcases hvars y v hv with ⟨-, rfl⟩ | hv
    · exact Function.update_self _ _ _
    · exact hcorr.original y v hv
  · intro y v hv
    rcases hvars y v hv with ⟨rfl, rfl⟩ | hv
    · exact hnew
    · exact hcorr.original_expression y v hv

end NewNonbasicVariable

section OriginalVariable

variable (x : Var)

theorem originalVariable_extends : s.Extends (s.originalVariable x).2 := by
  rw [originalVariable]
  split
  · exact Extends.refl s
  · exact newNonbasicVariable_extends x

theorem originalVariable_inactive :
    (s.originalVariable x).2.mNonActiveBasics = s.mNonActiveBasics := by
  rw [originalVariable]
  split <;> rfl

theorem originalVariable_correct (h : s.Correct omit_division) :
    (s.originalVariable x).2.Correct omit_division := by
  rw [originalVariable]
  split
  · exact h
  · exact newNonbasicVariable_correct x h

/-- The variable that is found or created. -/
theorem originalVariable_spec : (s.originalVariable x).2.mOriginalVars x =
    some (s.originalVariable x).1 := by
  rw [originalVariable]
  split
  · assumption
  · exact Function.update_self _ _ _

end OriginalVariable

/-! ## Slack variables -/

/-- What the entries created for the terms `ts` are. -/
structure EntriesSpec (omit_division : Bool) (ts : List (Var × ℚ)) (s : RowSystem)
    (es : List (VarId × ℚ)) (s' : RowSystem) : Prop where
  correct : s'.Correct omit_division
  ext : s.Extends s'
  known : ∀ e ∈ es, s'.IsKnown e.1
  original : ∀ e ∈ es, s'.isOriginal e.1 = true
  content : ∀ e ∈ es, ∃ t ∈ ts, e.2 = t.2.num
  inactive : s'.mNonActiveBasics = s.mNonActiveBasics
  value : eval s'.poly es =
    eval (fun x => Finsupp.single x 1) (ts.map fun t => (t.1, (t.2.num : ℚ)))

theorem originalEntries_spec (ts : List (Var × ℚ)) (h : s.Correct omit_division) :
    EntriesSpec omit_division ts s (originalEntries ts s).1 (originalEntries ts s).2 := by
  induction ts generalizing s with
  | nil =>
    refine ⟨h, Extends.refl s, ?_, ?_, ?_, rfl, rfl⟩ <;> exact fun e he => absurd he not_mem_nil
  | cons t ts ih =>
    have hcorr := originalVariable_correct t.1 h
    have hvar := originalVariable_spec (s := s) t.1
    have hrec := ih hcorr
    have hknown := hcorr.original_known t.1 _ hvar
    have hlt := hcorr.known_lt _ hknown
    constructor
    case correct => exact hrec.correct
    case ext => exact (originalVariable_extends t.1).trans hrec.ext
    case known =>
      intro e he
      rcases mem_cons.mp he with rfl | he
      · exact hrec.ext.known hknown
      · exact hrec.known e he
    case original =>
      intro e he
      rcases mem_cons.mp he with rfl | he
      · exact (hrec.ext.isOriginal _ hlt).trans (hcorr.original t.1 _ hvar)
      · exact hrec.original e he
    case content =>
      intro e he
      rcases mem_cons.mp he with rfl | he
      · exact ⟨t, mem_cons_self, rfl⟩
      · obtain ⟨u, hu, heq⟩ := hrec.content e he
        exact ⟨u, mem_cons_of_mem _ hu, heq⟩
    case inactive => exact hrec.inactive.trans (originalVariable_inactive t.1)
    case value =>
      show eval _ (((s.originalVariable t.1).1, (t.2.num : ℚ)) ::
        (originalEntries ts (s.originalVariable t.1).2).1) = _
      rw [eval_cons, map_cons, eval_cons]
      refine congrArg₂ _ ?_ hrec.value
      show _ • (originalEntries ts (s.originalVariable t.1).2).2.poly _ = _
      rw [hrec.ext.poly hcorr.toWellFormed hknown, poly,
        hcorr.original_expression t.1 _ hvar, LinearForm.polynomial_ofVar]

section NewBasicVariable

variable (h : s.Correct omit_division) (p : LinearForm) (isInteger : Bool)

theorem isKnown_newBasicVariable :
    (s.newBasicVariable p isInteger).2.IsKnown v ↔
      (originalEntries p.terms s.reserved).2.IsKnown v ∨ v = s.nextId :=
  isKnown_addInactive

include h

/-- The variables of the row are created when the id of the slack variable is already taken. -/
theorem newBasicVariable_entries : EntriesSpec omit_division p.terms s.reserved
    (originalEntries p.terms s.reserved).1 (originalEntries p.terms s.reserved).2 :=
  originalEntries_spec p.terms (reserved_correct h)

theorem newBasicVariable_extends : s.Extends (s.newBasicVariable p isInteger).2 := by
  have hes := newBasicVariable_entries h p
  have hlt : ∀ v < s.nextId, v < s.reserved.nextId := fun v hv => hv.trans (Nat.lt_succ_self _)
  constructor
  case nextId_le => exact (Nat.le_succ _).trans hes.ext.nextId_le
  case rows => exact hes.ext.rows
  case columns => exact hes.ext.columns
  case inactive => exact fun v hv => mem_cons_of_mem _ (hes.ext.inactive v hv)
  case known_of_lt =>
    intro v hv hknown
    rcases (isKnown_newBasicVariable p isInteger).mp hknown with hknown | rfl
    · exact hes.ext.known_of_lt v (hlt v hv) hknown
    · exact absurd hv (lt_irrefl _)
  case expression =>
    exact fun v hv => (Function.update_of_ne hv.ne _ _).trans (hes.ext.expression v (hlt v hv))
  case isOriginal =>
    exact fun v hv => (Function.update_of_ne hv.ne _ _).trans (hes.ext.isOriginal v (hlt v hv))
  case isInteger =>
    exact fun v hv => (Function.update_of_ne hv.ne _ _).trans (hes.ext.isInteger v (hlt v hv))
  case row =>
    exact fun v hv => (Function.update_of_ne hv.ne _ _).trans (hes.ext.row v (hlt v hv))

theorem newBasicVariable_fresh : ¬ (originalEntries p.terms s.reserved).2.IsKnown s.nextId := by
  intro hknown
  have hold : s.reserved.IsKnown s.nextId :=
    (newBasicVariable_entries h p).ext.known_of_lt _ (Nat.lt_succ_self _) hknown
  exact (h.known_lt _ hold).false

omit h in
theorem newBasicVariable_expression_self :
    (s.newBasicVariable p isInteger).2.expression s.nextId = p := Function.update_self _ _ _

/-- A new slack variable is entered with a correct row. -/
theorem newBasicVariable_correct (hp : ∀ t ∈ p.terms, ∃ n : ℤ, t.2 = n)
    (hint : isInteger = p.integerValued) :
    (s.newBasicVariable p isInteger).2.Correct omit_division := by
  have hes := newBasicVariable_entries h p
  have hfresh := newBasicVariable_fresh h p
  have hne := ne_of_isKnown hfresh
  have hself := newBasicVariable_expression_self (s := s) p isInteger
  have hrow : (s.newBasicVariable p isInteger).2.row s.nextId =
      ⟨1, (originalEntries p.terms s.reserved).1⟩ := Function.update_self _ _ _
  refine (hes.correct.enter hfresh false isInteger p _).addInactive hfresh
    ((Nat.lt_succ_self _).trans_le hes.ext.nextId_le) (congrArg Row.factor hrow) ?_ ?_
    (Function.update_self _ _ _) ?_ ?_
  · exact fun t ht => hp t (hself ▸ ht)
  · exact (Function.update_self _ _ _).trans
      (hint.trans (congrArg LinearForm.integerValued hself.symm))
  · intro e he
    replace he : e ∈ ((s.newBasicVariable p isInteger).2.row s.nextId).entries := he
    rw [hrow] at he
    obtain ⟨t, ht, heq⟩ := hes.content e he
    refine ⟨hes.known e he, ?_, ?_⟩
    · exact (Function.update_of_ne (hne e.1 (hes.known e he)) _ _).trans (hes.original e he)
    · rw [heq, Int.cast_ne_zero, Rat.num_ne_zero]
      exact p.coeff_ne_zero t ht
  · show ((s.newBasicVariable p isInteger).2.row s.nextId).Holds
      (s.newBasicVariable p isInteger).2.poly s.nextId
    have hpoly : ∀ e ∈ (originalEntries p.terms s.reserved).1,
        (s.newBasicVariable p isInteger).2.poly e.1 =
          (originalEntries p.terms s.reserved).2.poly e.1 := fun e he =>
      congrArg LinearForm.polynomial (Function.update_of_ne (hne e.1 (hes.known e he)) _ _)
    have hterms : p.terms = p.terms.map fun t => (t.1, (t.2.num : ℚ)) := by
      refine (map_id _).symm.trans (map_congr_left ?_)
      intro t ht
      obtain ⟨n, hn⟩ := hp t ht
      rw [id, hn, Rat.num_intCast, ← hn]
    rw [hrow, Row.Holds, one_smul, poly, hself, eval_congr hpoly, hes.value, LinearForm.polynomial,
      ← hterms]

end NewBasicVariable

/-! ## The variable of a constraint -/

section GetVariable

variable (lhs : LinearForm) (constantPart : ℚ)

/-- The variable that is found or created for a constraint stands for the slack form of its
left-hand side, also when this is a single variable. -/
structure ReferenceSpec (omit_division : Bool) (lhs : LinearForm) (constantPart : ℚ)
    (s : RowSystem) (ref : Reference) (s' : RowSystem) : Prop where
  correct : s'.Correct omit_division
  ext : s.Extends s'
  known : s'.IsKnown ref.var
  expression : s'.expression ref.var = lhs.slackForm
  negative : ref.negative = lhs.negative
  boundValue : ref.boundValue = -(constantPart * lhs.slackFactor)

theorem slackForm_single {x : Var} {k : ℚ} (hlhs : lhs.terms = [(x, k)]) :
    lhs.slackFactor = k⁻¹ ∧ lhs.slackForm = .ofVar x ∧ lhs.negative = decide (k < 0) := by
  have hk : k ≠ 0 := lhs.coeff_ne_zero (x, k) (hlhs ▸ mem_singleton_self _)
  have hnegative : lhs.negative = decide (k < 0) := by
    simp [LinearForm.negative, LinearForm.lterm, hlhs]
  have habs : lhs.coprimeFactor = |k|⁻¹ := by
    rw [LinearForm.coprimeFactor, hlhs, Rat.abs_def, Rat.divInt_eq_div, inv_div]
    simp [LinearForm.denominators, LinearForm.numerators]
  have hfac : lhs.slackFactor = k⁻¹ := by
    rw [LinearForm.slackFactor, hnegative, habs]
    by_cases hneg : k < 0
    · rw [if_pos (decide_eq_true hneg), abs_of_neg hneg, inv_neg, neg_neg]
    · rw [if_neg (by simpa using hneg), abs_of_nonneg (not_lt.mp hneg)]
  refine ⟨hfac, ?_, hnegative⟩
  ext1
  show scale lhs.slackFactor lhs.terms = [(x, 1)]
  rw [hfac, hlhs]
  show [(x, k⁻¹ * k)] = [(x, 1)]
  rw [inv_mul_cancel₀ hk]

theorem getVariable_spec (h : s.Correct omit_division) :
    ReferenceSpec omit_division lhs constantPart s (s.getVariable lhs constantPart).1
      (s.getVariable lhs constantPart).2 := by
  have hbd : (if lhs.negative then constantPart * lhs.coprimeFactor
      else -(constantPart * lhs.coprimeFactor)) = -(constantPart * lhs.slackFactor) := by
    rw [LinearForm.slackFactor]
    split_ifs
    · rw [mul_neg, neg_neg]
    · rfl
  rw [getVariable]
  split
  · next x k hlhs =>
      obtain ⟨hfac, hform, hneg⟩ := slackForm_single lhs hlhs
      have hcorr := originalVariable_correct x h
      have hvar := originalVariable_spec (s := s) x
      refine ⟨hcorr, originalVariable_extends x, hcorr.original_known x _ hvar, ?_, hneg.symm, ?_⟩
      · rw [hform]
        exact hcorr.original_expression x _ hvar
      · show -constantPart / k = _
        rw [hfac, div_eq_mul_inv, neg_mul]
  · cases hfind : s.mSlackVars lhs.slackForm with
    | some v =>
      simp only
      exact ⟨h, Extends.refl s, h.slack_known _ v hfind, h.slack_expression _ v hfind, rfl, hbd⟩
    | none =>
      simp only
      have hint : lhs.integerValued = lhs.slackForm.integerValued := by
        show _ = (scale lhs.slackFactor lhs.terms).all fun t => t.1.isInteger
        rw [scale, all_map]
        rfl
      have hcorr := newBasicVariable_correct h lhs.slackForm lhs.integerValued
        (fun t ht => lhs.slackForm_coeff_integer ht) hint
      have hext := newBasicVariable_extends h lhs.slackForm lhs.integerValued
      have hknown := (isKnown_newBasicVariable lhs.slackForm lhs.integerValued
        (v := s.nextId)).mpr (.inr rfl)
      have hself : (s.newBasicVariable lhs.slackForm lhs.integerValued).2.expression s.nextId =
        lhs.slackForm := newBasicVariable_expression_self _ _
      -- the only new entry of `mSlackVars`
      have hslack : ∀ p v, Function.update
          (s.newBasicVariable lhs.slackForm lhs.integerValued).2.mSlackVars lhs.slackForm
            (some s.nextId) p = some v → p = lhs.slackForm ∧ v = s.nextId ∨
          (s.newBasicVariable lhs.slackForm lhs.integerValued).2.mSlackVars p = some v := by
        intro p v hv
        by_cases hp : p = lhs.slackForm
        · rw [hp, Function.update_self] at hv
          exact .inl ⟨hp, (Option.some.inj hv).symm⟩
        · exact .inr ((Function.update_of_ne hp _ _).symm.trans hv)
      refine ⟨{ hcorr with slack_known := ?_, slack_expression := ?_ }, { hext with },
        hknown, hself, rfl, hbd⟩
      · intro p v hv
        rcases hslack p v hv with ⟨-, rfl⟩ | hv
        · exact hknown
        · exact hcorr.slack_known p v hv
      · intro p v hv
        rcases hslack p v hv with ⟨rfl, rfl⟩ | hv
        · exact hself
        · exact hcorr.slack_expression p v hv

end GetVariable

/-! ## Steps that create no variables -/

/-- The variables are the same, with other rows. -/
structure SameVariables (s s' : RowSystem) : Prop where
  known : ∀ v, s'.IsKnown v ↔ s.IsKnown v
  nextId : s'.nextId = s.nextId
  expression : s'.expression = s.expression
  isOriginal : s'.isOriginal = s.isOriginal
  isInteger : s'.isInteger = s.isInteger
  mOriginalVars : s'.mOriginalVars = s.mOriginalVars
  mSlackVars : s'.mSlackVars = s.mSlackVars

theorem SameVariables.correct (h : s.SameVariables s') (hs : s.Correct omit_division)
    (hwf : s'.WellFormed omit_division) (hsol : s'.Solves s.poly) : s'.Correct omit_division where
  toWellFormed := hwf
  solves := by
    have hpoly : s'.poly = s.poly := by
      funext v
      rw [poly, poly, h.expression]
    rwa [hpoly]
  integer_coeff v hv := by
    rw [h.expression]
    exact hs.integer_coeff v ((h.known v).mp hv)
  isInteger_eq v hv := by
    rw [h.expression, h.isInteger]
    exact hs.isInteger_eq v ((h.known v).mp hv)
  original_known x v hv := (h.known v).mpr (hs.original_known x v (h.mOriginalVars ▸ hv))
  original x v hv := by
    rw [h.isOriginal]
    exact hs.original x v (h.mOriginalVars ▸ hv)
  original_expression x v hv := by
    rw [h.expression]
    exact hs.original_expression x v (h.mOriginalVars ▸ hv)
  slack_known p v hv := (h.known v).mpr (hs.slack_known p v (h.mSlackVars ▸ hv))
  slack_expression p v hv := by
    rw [h.expression]
    exact hs.slack_expression p v (h.mSlackVars ▸ hv)

section Steps

variable (hs : s.Correct omit_division)

include hs

theorem pivot_sameVariables {r c : VarId} {a : ℚ} (h : s.HasEntry r c a) :
    s.SameVariables (s.pivot omit_division r c) := by
  have heq := pivot_eq hs.toWellFormed h
  constructor
  case known => exact fun v => isKnown_pivot hs.toWellFormed h
  all_goals
    rw [heq]
    rfl

/-- Pivoting keeps the rows correct. -/
theorem pivot_correct {r c : VarId} {a : ℚ} (h : s.HasEntry r c a) :
    (s.pivot omit_division r c).Correct omit_division :=
  (pivot_sameVariables hs h).correct hs (pivot_wellFormed hs.toWellFormed h)
    ((pivot_solves hs.toWellFormed h s.poly).mpr hs.solves)

theorem activate_sameVariables (hv : v ∈ s.mNonActiveBasics) :
    s.SameVariables (s.activateBasicVar omit_division v) where
  known _ := or_congr Iff.rfl (hasRow_activate hs.toWellFormed hv)
  nextId := rfl
  expression := rfl
  isOriginal := rfl
  isInteger := rfl
  mOriginalVars := rfl
  mSlackVars := rfl

/-- The activation of a stored row keeps the rows correct. -/
theorem activate_correct (hv : v ∈ s.mNonActiveBasics) :
    (s.activateBasicVar omit_division v).Correct omit_division :=
  (activate_sameVariables hs hv).correct hs (activate_wellFormed hs.toWellFormed hv)
    (activate_solves hs.toWellFormed hv hs.solves)

theorem deactivate_sameVariables (hv : v ∈ s.mRows) : s.SameVariables (s.deactivateBasicVar v) where
  known _ := or_congr Iff.rfl (hasRow_deactivate hs.toWellFormed hv)
  nextId := rfl
  expression := rfl
  isOriginal := rfl
  isInteger := rfl
  mOriginalVars := rfl
  mSlackVars := rfl

theorem deactivate_correct (hv : v ∈ s.mRows) (horig : s.isOriginal v = false) :
    (s.deactivateBasicVar v).Correct omit_division :=
  (deactivate_sameVariables hs hv).correct hs (deactivate_wellFormed hs.toWellFormed hv horig)
    ((deactivate_solves hs.toWellFormed hv s.poly).mpr hs.solves)

end Steps

end RowSystem

end Smtrat.LRA
