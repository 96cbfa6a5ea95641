import Smtrat.LRA.PivotRows

/-!
# Activation of stored rows

A stored row may mention variables that became basic since, even inactive ones whose rows were
stored later.  Its activation replaces these by their rows until only columns are left.  The
weights of the variables count how many replacements there are.
-/

namespace Smtrat.LRA

open Combination List Function

universe u

namespace RowSystem

variable {omit_division : Bool} {s : RowSystem}

/-! ## Weights -/

section Weight

/-- One step in the computation of the weights. -/
def weightStep (s : RowSystem) (weight : VarId → ℕ) (v : VarId) : VarId → ℕ :=
  update weight v (1 + ((s.row v).entries.map fun e => weight e.1).sum)

/-- What the weights of the first inactive variables satisfy. -/
theorem foldl_weightStep {vs : List VarId} (hnd : vs.Nodup)
    (horder : vs.Pairwise fun u v => v ∉ (s.row u).entries.map Prod.fst)
    (hself : ∀ v ∈ vs, v ∉ (s.row v).entries.map Prod.fst) :
    (∀ v, v ∉ vs → vs.foldl s.weightStep (fun _ => 1) v = 1) ∧
      ∀ v ∈ vs, vs.foldl s.weightStep (fun _ => 1) v =
        1 + ((s.row v).entries.map fun e => vs.foldl s.weightStep (fun _ => 1) e.1).sum := by
  induction vs using List.reverseRecOn with
  | nil => exact ⟨fun _ _ => rfl, fun _ h => absurd h not_mem_nil⟩
  | append_singleton vs w ih =>
    rw [nodup_append] at hnd
    rw [pairwise_append] at horder
    obtain ⟨hout, hin⟩ := ih hnd.1 horder.1 fun v hv => hself v (mem_append_left _ hv)
    have hw : w ∉ vs := fun hw => hnd.2.2 w hw w mem_cons_self rfl
    -- the weights of the entries of an earlier variable, or of `w` itself, are not changed
    have hsum : ∀ v, w ∉ (s.row v).entries.map Prod.fst →
        ((s.row v).entries.map fun e => (vs ++ [w]).foldl s.weightStep (fun _ => 1) e.1) =
          (s.row v).entries.map fun e => vs.foldl s.weightStep (fun _ => 1) e.1 := by
      intro v hv
      apply map_congr_left
      intro e he
      rw [foldl_append]
      refine update_of_ne ?_ _ _
      rintro rfl
      exact hv (mem_map_of_mem he)
    constructor
    · intro v hv
      rw [mem_append, not_or, mem_singleton] at hv
      rw [foldl_append]
      exact (update_of_ne hv.2 _ _).trans (hout v hv.1)
    · intro v hv
      rcases mem_append.mp hv with hv | hv
      · have hvw : v ≠ w := fun hvw => hw (hvw ▸ hv)
        rw [hsum v (horder.2.2 v hv w mem_cons_self), ← hin v hv, foldl_append]
        exact update_of_ne hvw _ _
      · rw [mem_singleton] at hv
        subst hv
        rw [hsum v (hself v (mem_append_right _ mem_cons_self)), foldl_append]
        exact update_self v _ _

variable (hs : s.WellFormed omit_division)

include hs

/-- The weight of an inactive variable exceeds those of its entries by one. -/
theorem weight_of_inactive {v : VarId} (hv : v ∈ s.mNonActiveBasics) :
    s.weight v = 1 + ((s.row v).entries.map fun e => s.weight e.1).sum :=
  (foldl_weightStep hs.inactive_nodup hs.stored_order hs.stored_self).2 v hv

theorem weight_pos (v : VarId) : 0 < s.weight v := by
  by_cases hv : v ∈ s.mNonActiveBasics
  · rw [weight_of_inactive hs hv]
    omega
  · have hone : s.weight v = 1 :=
      (foldl_weightStep hs.inactive_nodup hs.stored_order hs.stored_self).1 v hv
    omega

end Weight

/-! ## Expansion -/

section Expand

variable {M : Type u} [AddCommGroup M] [Module ℚ M]

/-- The combination that the coefficients of the columns describe. -/
def columnSum (s : RowSystem) (coeffs : VarId → ℚ) (f : VarId → M) : M :=
  eval f (s.mColumns.map fun c => (c, coeffs c))

theorem columnSum_smul (k : ℚ) (coeffs : VarId → ℚ) (f : VarId → M) :
    s.columnSum (fun c => k * coeffs c) f = k • s.columnSum coeffs f := eval_map_smul k

variable (hs : s.WellFormed omit_division)

include hs

theorem columnSum_update {c : VarId} (hc : c ∈ s.mColumns) (coeffs : VarId → ℚ) (x : ℚ)
    (f : VarId → M) :
    s.columnSum (update coeffs c (coeffs c + x)) f = s.columnSum coeffs f + x • f c :=
  eval_map_update hs.columns_nodup hc x

/-- Adding a multiple of an active row. -/
theorem columnSum_addRow {es : List (VarId × ℚ)} (hes : ∀ e ∈ es, e.1 ∈ s.mColumns) (k : ℚ)
    (coeffs : VarId → ℚ) (f : VarId → M) :
    s.columnSum (es.foldl (fun coeffs e =>
      update coeffs e.1 (coeffs e.1 + k * e.2)) coeffs) f =
        s.columnSum coeffs f + k • eval f es := by
  induction es generalizing coeffs with
  | nil => rw [foldl_nil, eval_nil, smul_zero, add_zero]
  | cons e es ih =>
    rw [foldl_cons, ih fun d hd => hes d (mem_cons_of_mem _ hd),
      columnSum_update hs (hes e mem_cons_self), eval_cons, smul_add, mul_smul, add_assoc]

/-- What the loop of `activateBasicVar` returns, when it starts with enough fuel. -/
structure Expands (s : RowSystem) (omit_division : Bool) (es : List (VarId × ℚ)) (factor : ℚ)
    (coeffs : VarId → ℚ) (result : ℚ × (VarId → ℚ)) : Prop where
  factor_ne_zero : result.1 ≠ 0
  factor_one : omit_division = false → result.1 = 1
  solves : ∀ {M : Type u} [AddCommGroup M] [Module ℚ M] (f : VarId → M) (y : M), s.Solves f →
    factor • y = s.columnSum coeffs f + eval f es → result.1 • y = s.columnSum result.2 f

/-- The loop replaces an entry by its row, both scaled: what it still has to expand and what it
has collected keep describing the row. -/
theorem expand_spec (n : ℕ) (es : List (VarId × ℚ)) (factor : ℚ) (coeffs : VarId → ℚ)
    (hn : (es.map fun e => s.weight e.1).sum ≤ n) (hne : ∀ e ∈ es, e.2 ≠ 0)
    (hknown : ∀ e ∈ es, s.IsKnown e.1) (hfac : factor ≠ 0)
    (hone : omit_division = false → factor = 1) :
    Expands.{u} s omit_division es factor coeffs (s.expand omit_division n es factor coeffs) := by
  induction n generalizing es factor coeffs with
  | zero =>
    have hnil : es = [] := by
      cases es with
      | nil => rfl
      | cons e es =>
        have hpos := weight_pos hs e.1
        rw [map_cons, sum_cons] at hn
        omega
    subst hnil
    refine ⟨hfac, hone, ?_⟩
    intro M _ _ f y _ hy
    rwa [eval_nil, add_zero] at hy
  | succ n ih =>
    cases es with
    | nil =>
      refine ⟨hfac, hone, ?_⟩
      intro M _ _ f y _ hy
      rwa [eval_nil, add_zero] at hy
    | cons e es =>
      obtain ⟨w, k⟩ := e
      have hk : k ≠ 0 := hne _ mem_cons_self
      have hne' : ∀ e ∈ es, e.2 ≠ 0 := fun e he => hne e (mem_cons_of_mem _ he)
      have hknown' : ∀ e ∈ es, s.IsKnown e.1 :=
        fun e he => hknown e (mem_cons_of_mem _ he)
      have hpos := weight_pos hs w
      rw [map_cons, sum_cons] at hn
      change s.weight w + _ ≤ n + 1 at hn
      by_cases hbasic : s.isBasic w
      · have hrow : s.HasRow w := by
          rcases hknown _ mem_cons_self with hw | hw
          · simp [isBasic, hw] at hbasic
          · exact hw
        have hw : (s.row w).factor ≠ 0 := hs.factor_ne_zero w hrow
        obtain ⟨ca, cb, hm⟩ :
            ∃ ca cb, multipliers omit_division k (s.row w).factor = (ca, cb) := ⟨_, _, rfl⟩
        have hspec := multipliers_spec omit_division hk hw
          fun hmode => hs.factor_one hmode w (.inr hrow)
        have hca := multipliers_fst_ne_zero omit_division hk hw
        have hcb := multipliers_snd_ne_zero omit_division hk hw
        rw [hm] at hspec hca hcb
        have hcbone : omit_division = false → cb = 1 := by
          rintro rfl
          exact (congrArg Prod.snd hm).symm
        have hfac' : factor * cb ≠ 0 := mul_ne_zero hfac hcb
        have hone' : omit_division = false → factor * cb = 1 := by
          intro hmode
          rw [hone hmode, hcbone hmode, one_mul]
        have hscale : ∀ e ∈ scale cb es, e.2 ≠ 0 := by
          intro e he
          obtain ⟨d, hd, rfl⟩ := mem_map.mp he
          exact mul_ne_zero hcb (hne' d hd)
        have hscaleKnown : ∀ e ∈ scale cb es, s.IsKnown e.1 := by
          intro e he
          obtain ⟨d, hd, rfl⟩ := mem_map.mp he
          exact hknown' d hd
        have hweight : ∀ (x : ℚ) (ds : List (VarId × ℚ)),
            ((scale x ds).map fun e => s.weight e.1).sum = (ds.map fun e => s.weight e.1).sum := by
          intro x ds
          rw [scale, map_map]
          rfl
        -- the row of `w`, scaled to the multiple of `w` that is replaced
        have hrepl : ∀ {M : Type u} [AddCommGroup M] [Module ℚ M] (f : VarId → M) (y : M),
            s.Solves f →
            factor • y = s.columnSum coeffs f + eval f ((w, k) :: es) →
            (factor * cb) • y = s.columnSum (fun c => cb * coeffs c) f +
              (eval f (scale cb es) + ca • eval f (s.row w).entries) := by
          intro M _ _ f y hsol hy
          have hwholds : (s.row w).factor • f w = eval f (s.row w).entries := hsol w hrow
          rw [mul_comm, mul_smul, hy, columnSum_smul, eval_scale, ← hwholds, smul_smul ca,
            hspec, eval_cons, smul_add, smul_add, smul_smul]
          abel
        rw [expand, if_pos hbasic, hm]
        by_cases hinact : w ∈ s.mNonActiveBasics ∧ s.isOriginal w = false
        · show Expands s omit_division ((w, k) :: es) factor coeffs (if _ then _ else _)
          rw [if_pos hinact]
          have hrec := ih (scale cb es ++ scale ca (s.row w).entries) (factor * cb)
            (fun c => cb * coeffs c) ?_ ?_ ?_ hfac' hone'
          · refine ⟨hrec.factor_ne_zero, hrec.factor_one, ?_⟩
            intro M _ _ f y hsol hy
            apply hrec.solves f y hsol
            rw [eval_append, eval_scale ca]
            exact hrepl f y hsol hy
          · rw [map_append, sum_append, hweight, hweight]
            have := weight_of_inactive hs hinact.1
            omega
          · intro e he
            rcases mem_append.mp he with he | he
            · exact hscale e he
            · obtain ⟨d, hd, rfl⟩ := mem_map.mp he
              exact mul_ne_zero hca (hs.content_ne_zero w hrow d hd)
          · intro e he
            rcases mem_append.mp he with he | he
            · exact hscaleKnown e he
            · obtain ⟨d, hd, rfl⟩ := mem_map.mp he
              exact hs.key_known w hinact.1 d hd
        · show Expands s omit_division ((w, k) :: es) factor coeffs (if _ then _ else _)
          rw [if_neg hinact]
          have hact : w ∈ s.mRows := hrow.resolve_right fun hw =>
            hinact ⟨hw, hs.inactive_not_original w hw⟩
          have hrec := ih (scale cb es) (factor * cb) ((s.row w).entries.foldl
            (fun coeffs e => update coeffs e.1 (coeffs e.1 + ca * e.2))
              fun c => cb * coeffs c) ?_ hscale hscaleKnown hfac' hone'
          · refine ⟨hrec.factor_ne_zero, hrec.factor_one, ?_⟩
            intro M _ _ f y hsol hy
            apply hrec.solves f y hsol
            rw [columnSum_addRow hs (hs.key_column w hact), hrepl f y hsol hy]
            abel
          · rw [hweight]
            omega
      · have hcol : w ∈ s.mColumns := by
          simpa [isBasic] using hbasic
        rw [expand, if_neg hbasic]
        have hrec := ih es factor (update coeffs w (coeffs w + k)) (by omega) hne' hknown' hfac hone
        refine ⟨hrec.factor_ne_zero, hrec.factor_one, ?_⟩
        intro M _ _ f y hsol hy
        apply hrec.solves f y hsol
        rw [columnSum_update hs hcol, hy, eval_cons, add_assoc]

end Expand

/-! ## The activated row -/

section Activate

variable (hs : s.WellFormed omit_division) {v : VarId} (hv : v ∈ s.mNonActiveBasics)

include hs hv

theorem expands_stored : Expands.{u} s omit_division (s.row v).entries (s.row v).factor (fun _ => 0)
    (s.expand omit_division (((s.row v).entries.map fun e => s.weight e.1).sum) (s.row v).entries
      (s.row v).factor fun _ => 0) :=
  expand_spec hs _ _ _ _ le_rfl (hs.content_ne_zero v (.inr hv)) (hs.key_known v hv)
    (hs.factor_ne_zero v (.inr hv)) fun hmode => hs.factor_one hmode v (.inr (.inr hv))

/-- The activated row follows from the stored rows. -/
theorem activatedRow_holds {M : Type u} [AddCommGroup M] [Module ℚ M] {f : VarId → M}
    (hsol : s.Solves f) : (s.activatedRow omit_division v).Holds f v := by
  have hexp := expands_stored.{u} hs hv
  refine (reduce_holds hexp.factor_ne_zero f v).mpr ?_
  have hstor : (s.row v).factor • f v = s.columnSum (fun _ => 0) f + eval f (s.row v).entries := by
    have hzero : s.columnSum (fun _ => 0) f = 0 := by
      have h := columnSum_smul (s := s) 0 (fun _ => 0) f
      rwa [zero_smul, show (fun _ : VarId => (0 : ℚ) * 0) = fun _ => 0 from by simp] at h
    rw [hzero, zero_add]
    exact hsol v (.inr hv)
  exact (hexp.solves f (f v) hsol hstor).trans eval_filterMap_ne_zero.symm

theorem activatedRow_factor_one (hmode : omit_division = false) :
    (s.activatedRow omit_division v).factor = 1 := by
  have hone := (expands_stored.{0} hs hv).factor_one hmode
  show (reduce _).factor = 1
  rw [reduce_of_factor_one hone]
  exact hone

omit hs hv in
theorem activatedRow_keys_sublist :
    ((s.activatedRow omit_division v).entries.map Prod.fst).Sublist s.mColumns := by
  have hkeys : ∀ (g : VarId → ℚ) (cs : List VarId),
      ((cs.filterMap fun c => if g c = 0 then none else some (c, g c)).map Prod.fst).Sublist cs := by
    intro g cs
    induction cs with
    | nil => exact List.Sublist.slnil
    | cons c cs ih =>
      rw [filterMap_cons]
      by_cases hc : g c = 0
      · rw [if_pos hc]
        exact ih.cons c
      · rw [if_neg hc]
        exact ih.cons_cons c
  show ((reduce _).entries.map Prod.fst).Sublist _
  rw [reduce_keys]
  exact hkeys _ _

theorem activatedRow_content_ne_zero : ∀ e ∈ (s.activatedRow omit_division v).entries, e.2 ≠ 0 := by
  apply reduce_content_ne_zero (expands_stored.{0} hs hv).factor_ne_zero
  intro e he
  obtain ⟨c, -, hc⟩ := mem_filterMap.mp he
  split_ifs at hc with hzero
  cases hc
  exact hzero

omit hs hv in
theorem activate_row_of_ne {w : VarId} (hw : w ≠ v) :
    (s.activateBasicVar omit_division v).row w = s.row w := update_of_ne hw _ _

omit hs hv in
theorem activate_row_self :
    (s.activateBasicVar omit_division v).row v = s.activatedRow omit_division v :=
  update_self v _ _

theorem hasRow_activate {w : VarId} :
    (s.activateBasicVar omit_division v).HasRow w ↔ s.HasRow w := by
  show w ∈ s.mRows ++ [v] ∨ w ∈ s.mNonActiveBasics.erase v ↔ _
  rw [mem_append, mem_singleton, hs.inactive_nodup.mem_erase_iff]
  constructor
  · rintro ((hw | rfl) | ⟨-, hw⟩)
    · exact .inl hw
    · exact .inr hv
    · exact .inr hw
  · rintro (hw | hw)
    · exact .inl (.inl hw)
    · by_cases hwv : w = v
      · exact .inl (.inr hwv)
      · exact .inr ⟨hwv, hw⟩

theorem activate_solves {M : Type u} [AddCommGroup M] [Module ℚ M] {f : VarId → M}
    (hsol : s.Solves f) : (s.activateBasicVar omit_division v).Solves f := by
  intro w hw
  by_cases hwv : w = v
  · rw [hwv, activate_row_self]
    exact activatedRow_holds hs hv hsol
  · rw [activate_row_of_ne hwv]
    exact hsol w ((hasRow_activate hs hv).mp hw)

theorem activate_wellFormed : (s.activateBasicVar omit_division v).WellFormed omit_division := by
  have hrow : v ∉ s.mRows := hs.inactive_not_row v hv
  have hmemRows : ∀ w, w ∈ (s.activateBasicVar omit_division v).mRows ↔ w ∈ s.mRows ∨ w = v := by
    intro w
    show w ∈ s.mRows ++ [v] ↔ _
    rw [mem_append, mem_singleton]
  have hinact : ∀ w, w ∈ (s.activateBasicVar omit_division v).mNonActiveBasics ↔
      w ≠ v ∧ w ∈ s.mNonActiveBasics := fun w => hs.inactive_nodup.mem_erase_iff
  have hknown : ∀ w, (s.activateBasicVar omit_division v).IsKnown w ↔ s.IsKnown w :=
    fun w => or_congr Iff.rfl (hasRow_activate hs hv)
  constructor
  case rows_nodup =>
    refine nodup_append.mpr ⟨hs.rows_nodup, nodup_singleton v, ?_⟩
    rintro w hw u hu rfl
    exact hrow (mem_singleton.mp hu ▸ hw)
  case columns_nodup => exact hs.columns_nodup
  case inactive_nodup => exact hs.inactive_nodup.erase v
  case row_not_column =>
    intro w hw
    rcases (hmemRows w).mp hw with hw | rfl
    · exact hs.row_not_column w hw
    · exact hs.inactive_not_column w hv
  case inactive_not_column =>
    exact fun w hw => hs.inactive_not_column w ((hinact w).mp hw).2
  case inactive_not_row =>
    intro w hw
    obtain ⟨hwv, hw⟩ := (hinact w).mp hw
    rw [hmemRows, not_or]
    exact ⟨hs.inactive_not_row w hw, hwv⟩
  case inactive_not_original =>
    exact fun w hw => hs.inactive_not_original w ((hinact w).mp hw).2
  case known_lt => exact fun w hw => hs.known_lt w ((hknown w).mp hw)
  case factor_ne_zero =>
    intro w hw
    by_cases hwv : w = v
    · rw [hwv, activate_row_self]
      exact reduce_factor_ne_zero (expands_stored.{0} hs hv).factor_ne_zero
    · rw [activate_row_of_ne hwv]
      exact hs.factor_ne_zero w ((hasRow_activate hs hv).mp hw)
  case factor_one =>
    intro hmode w hw
    by_cases hwv : w = v
    · rw [hwv, activate_row_self]
      exact activatedRow_factor_one hs hv hmode
    · rw [activate_row_of_ne hwv]
      exact hs.factor_one hmode w ((hknown w).mp hw)
  case keys_nodup =>
    intro w hw
    rcases (hmemRows w).mp hw with hw | rfl
    · rw [activate_row_of_ne fun hwv : w = v => hrow (hwv ▸ hw)]
      exact hs.keys_nodup w hw
    · rw [activate_row_self]
      exact hs.columns_nodup.sublist (activatedRow_keys_sublist)
  case key_column =>
    intro w hw e he
    rcases (hmemRows w).mp hw with hw | rfl
    · rw [activate_row_of_ne fun hwv : w = v => hrow (hwv ▸ hw)] at he
      exact hs.key_column w hw e he
    · rw [activate_row_self] at he
      exact (activatedRow_keys_sublist).mem (mem_map_of_mem he)
  case key_known =>
    intro w hw e he
    obtain ⟨hwv, hw⟩ := (hinact w).mp hw
    rw [activate_row_of_ne hwv] at he
    exact (hknown e.1).mpr (hs.key_known w hw e he)
  case content_ne_zero =>
    intro w hw
    by_cases hwv : w = v
    · rw [hwv, activate_row_self]
      exact activatedRow_content_ne_zero hs hv
    · rw [activate_row_of_ne hwv]
      exact hs.content_ne_zero w ((hasRow_activate hs hv).mp hw)
  case stored_order =>
    refine (hs.stored_order.sublist erase_sublist).imp_of_mem ?_
    intro u w hu _ huw
    rwa [activate_row_of_ne ((hinact u).mp hu).1]
  case stored_self =>
    intro w hw
    obtain ⟨hwv, hw⟩ := (hinact w).mp hw
    rw [activate_row_of_ne hwv]
    exact hs.stored_self w hw

end Activate

/-! ## Deactivation -/

section Deactivate

variable (hs : s.WellFormed omit_division) {v : VarId} (hv : v ∈ s.mRows)

include hs hv

theorem hasRow_deactivate {w : VarId} : (s.deactivateBasicVar v).HasRow w ↔ s.HasRow w := by
  show w ∈ s.mRows.erase v ∨ w ∈ v :: s.mNonActiveBasics ↔ _
  rw [hs.rows_nodup.mem_erase_iff, mem_cons]
  constructor
  · rintro (⟨-, hw⟩ | rfl | hw)
    · exact .inl hw
    · exact .inl hv
    · exact .inr hw
  · rintro (hw | hw)
    · by_cases hwv : w = v
      · exact .inr (.inl hwv)
      · exact .inl ⟨hwv, hw⟩
    · exact .inr (.inr hw)

theorem deactivate_solves {M : Type u} [AddCommGroup M] [Module ℚ M] (f : VarId → M) :
    (s.deactivateBasicVar v).Solves f ↔ s.Solves f :=
  forall_congr' fun _ => imp_congr_left (hasRow_deactivate hs hv)

theorem deactivate_wellFormed (horig : s.isOriginal v = false) :
    (s.deactivateBasicVar v).WellFormed omit_division := by
  have hmemRows : ∀ w, w ∈ (s.deactivateBasicVar v).mRows ↔ w ≠ v ∧ w ∈ s.mRows :=
    fun w => hs.rows_nodup.mem_erase_iff
  have hinact : ∀ w, w ∈ (s.deactivateBasicVar v).mNonActiveBasics ↔
      w = v ∨ w ∈ s.mNonActiveBasics := fun w => mem_cons
  have hknown : ∀ w, (s.deactivateBasicVar v).IsKnown w ↔ s.IsKnown w :=
    fun w => or_congr Iff.rfl (hasRow_deactivate hs hv)
  have hkeys : ∀ w, w ∉ s.mColumns → w ∉ (s.row v).entries.map Prod.fst := by
    intro w hw hkey
    obtain ⟨e, he, rfl⟩ := mem_map.mp hkey
    exact hw (hs.key_column v hv e he)
  constructor
  case rows_nodup => exact hs.rows_nodup.erase v
  case columns_nodup => exact hs.columns_nodup
  case inactive_nodup =>
    exact nodup_cons.mpr ⟨fun h => hs.inactive_not_row v h hv, hs.inactive_nodup⟩
  case row_not_column => exact fun w hw => hs.row_not_column w ((hmemRows w).mp hw).2
  case inactive_not_column =>
    intro w hw
    rcases (hinact w).mp hw with rfl | hw
    · exact hs.row_not_column w hv
    · exact hs.inactive_not_column w hw
  case inactive_not_row =>
    intro w hw
    rw [hmemRows, not_and]
    rcases (hinact w).mp hw with rfl | hw
    · exact fun h => absurd rfl h
    · exact fun _ => hs.inactive_not_row w hw
  case inactive_not_original =>
    intro w hw
    rcases (hinact w).mp hw with rfl | hw
    · exact horig
    · exact hs.inactive_not_original w hw
  case known_lt => exact fun w hw => hs.known_lt w ((hknown w).mp hw)
  case factor_ne_zero =>
    exact fun w hw => hs.factor_ne_zero w ((hasRow_deactivate hs hv).mp hw)
  case factor_one => exact fun hmode w hw => hs.factor_one hmode w ((hknown w).mp hw)
  case keys_nodup => exact fun w hw => hs.keys_nodup w ((hmemRows w).mp hw).2
  case key_column => exact fun w hw => hs.key_column w ((hmemRows w).mp hw).2
  case key_known =>
    intro w hw e he
    apply (hknown e.1).mpr
    rcases (hinact w).mp hw with rfl | hw
    · exact .inl (hs.key_column w hv e he)
    · exact hs.key_known w hw e he
  case content_ne_zero =>
    exact fun w hw => hs.content_ne_zero w ((hasRow_deactivate hs hv).mp hw)
  case stored_order =>
    refine pairwise_cons.mpr ⟨?_, hs.stored_order⟩
    exact fun w hw => hkeys w (hs.inactive_not_column w hw)
  case stored_self =>
    intro w hw
    rcases (hinact w).mp hw with rfl | hw
    · exact hkeys w (hs.row_not_column w hv)
    · exact hs.stored_self w hw

end Deactivate

end RowSystem

end Smtrat.LRA
