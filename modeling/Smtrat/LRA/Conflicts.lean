import Smtrat.LRA.BoundTypes

/-!
# Conflicts of the tableau

A row whose basic variable violates a bound is in conflict when no variable of its columns can
move to repair it: each is held by the bound on the side that matters.  The row at these bounds
then keeps the basic variable where it is, beyond the violated bound.  The bounds involved have no
common real solution together with the row, and neither do they with a weaker bound in the place
of the violated one, as long as this is violated, too.
-/

namespace Smtrat.LRA

open Combination Run List Option

namespace Bound

variable {x : ℝ} {w : VarId}

variable {b : Bound} {y : Value ℚ}

/-- An upper bound that does not leave room above a value keeps reals below it. -/
theorem IsUpperOf.le_of_not_gtValue (hb : b.IsUpperOf w)
    (hroom : b.gtValue y = false) (hx : b.Holds (Value.ofReal x)) :
    Value.ofReal x ≤ Value.toReal y := by
  cases hl : b.limit with
  | none => simp [gtValue, hl, hb.infinite hl] at hroom
  | some l =>
    have hly : l ≤ y := by simpa [gtValue, hl] using hroom
    exact (hx.le hb.side hl).trans (Value.toReal_le.mpr hly)

/-- A lower bound that does not leave room below a value keeps reals above it. -/
theorem IsLowerOf.ge_of_not_ltValue (hb : b.IsLowerOf w)
    (hroom : b.ltValue y = false) (hx : b.Holds (Value.ofReal x)) :
    Value.toReal y ≤ Value.ofReal x := by
  cases hl : b.limit with
  | none => simp [ltValue, hl, hb.infinite hl] at hroom
  | some l =>
    have hyl : y ≤ l := by simpa [ltValue, hl] using hroom
    exact (Value.toReal_le.mpr hyl).trans (hx.ge hb.side hl)

/-- An upper bound that a value violates is below it. -/
theorem IsUpperOf.lt_of_ltValue (hb : b.IsUpperOf w)
    (hviol : b.ltValue y = true) (hx : b.Holds (Value.ofReal x)) :
    Value.ofReal x < Value.toReal y := by
  cases hl : b.limit with
  | none => simp [ltValue, hl, hb.infinite hl] at hviol
  | some l =>
    have hly : l < y := by simpa [ltValue, hl] using hviol
    exact (hx.le hb.side hl).trans_lt (Value.toReal_lt.mpr hly)

/-- A lower bound that a value violates is above it. -/
theorem IsLowerOf.gt_of_gtValue (hb : b.IsLowerOf w)
    (hviol : b.gtValue y = true) (hx : b.Holds (Value.ofReal x)) :
    Value.toReal y < Value.ofReal x := by
  cases hl : b.limit with
  | none => simp [gtValue, hl, hb.infinite hl] at hviol
  | some l =>
    have hyl : y < l := by simpa [gtValue, hl] using hviol
    exact (Value.toReal_lt.mpr hyl).trans_le (hx.ge hb.side hl)

end Bound

namespace Tableau

variable {settings : TableauSettings} {t : Tableau}

/-- The values of the tableau are correct: they solve the active rows, and no non-basic variable
violates a bound. -/
structure AssignmentCorrect (t : Tableau) : Prop where
  solves : t.SolvesActive t.assignment
  nonbasic : ∀ v ∈ t.mColumns, t.violation v = none

/-- No real numbers solve the row equations and meet the bounds. -/
def Unsatisfiable (t : Tableau) (bs : List Bound) : Prop :=
  ∀ ρ : VarId → ℝ, t.SolvesActive ρ → ¬ ∀ b ∈ bs, b.Holds (Value.ofReal (ρ b.var))

/-! ## Blocked rows -/

section Blocked

variable (hs : t.WellFormed settings.omit_division) {v : VarId} (hv : v ∈ t.mRows)

include hs hv

/-- An entry is positive when its column moves the basic variable in the same direction. -/
theorem entryIsPositive_iff {k : ℚ} :
    t.entryIsPositive settings v k = true ↔ 0 < (t.row v).factor⁻¹ * k := by
  rw [entryIsPositive, mul_comm, ← div_eq_mul_inv]
  cases hmode : settings.omit_division with
  | true => simp [div_pos_iff]
  | false => simp [hs.factor_one hmode v (.inr (.inl hv))]

theorem entryIsNegative_iff {k : ℚ} :
    t.entryIsNegative settings v k = true ↔ (t.row v).factor⁻¹ * k < 0 := by
  rw [entryIsNegative, mul_comm, ← div_eq_mul_inv]
  cases hmode : settings.omit_division with
  | true => simp [div_neg_iff, or_comm]
  | false => simp [hs.factor_one hmode v (.inr (.inl hv))]

/-- The row of `v`, solved for `v`. -/
theorem row_solved {M : Type*} [AddCommGroup M] [Module ℚ M] {f : VarId → M}
    (hf : t.SolvesActive f) : f v = eval f (scale (t.row v).factor⁻¹ (t.row v).entries) := by
  have hrow : (t.row v).factor • f v = eval f (t.row v).entries := hf v hv
  rw [eval_scale, ← hrow, smul_smul, inv_mul_cancel₀ (hs.factor_ne_zero v (.inl hv)), one_smul]

variable (htyp : t.toBounds.WellTyped) (hslv : t.SolvesActive t.assignment) {ρ : VarId → ℝ}
  (hρ : t.SolvesActive ρ)

include htyp hslv hρ

/-- A row with no entry that can increase its basic variable holds it down. -/
theorem blocked_le
    (hblk : ∀ e ∈ (t.row v).entries, t.entryIsSuitable settings true v e = false)
    (hbds : ∀ b ∈ t.blockingBounds settings true v, b.Holds (Value.ofReal (ρ b.var))) :
    Value.ofReal (ρ v) ≤ Value.toReal (t.assignment v) := by
  rw [row_solved hs hv hρ, map_eval, row_solved hs hv hslv, map_eval]
  apply eval_le_eval
  intro d hd
  obtain ⟨e, he, rfl⟩ := List.mem_map.mp hd
  have hroom := hblk e he
  have hholds := hbds _ (List.mem_map_of_mem he)
  rw [entryIsSuitable] at hroom
  by_cases hsign : t.entryIsPositive settings v e.2 = true
  · simp only [if_true, if_pos hsign, (htyp.supremum e.1).var] at hroom hholds
    have hle := (htyp.supremum e.1).le_of_not_gtValue hroom hholds
    exact smul_le_smul_of_nonneg_left hle ((entryIsPositive_iff hs hv).mp hsign).le
  · simp only [if_true, if_neg hsign, (htyp.infimum e.1).var] at hroom hholds
    have hge := (htyp.infimum e.1).ge_of_not_ltValue hroom hholds
    exact smul_le_smul_of_nonpos_left hge (not_lt.mp ((entryIsPositive_iff hs hv).not.mp hsign))

/-- A row with no entry that can decrease its basic variable holds it up. -/
theorem blocked_ge
    (hblk : ∀ e ∈ (t.row v).entries, t.entryIsSuitable settings false v e = false)
    (hbds : ∀ b ∈ t.blockingBounds settings false v, b.Holds (Value.ofReal (ρ b.var))) :
    Value.toReal (t.assignment v) ≤ Value.ofReal (ρ v) := by
  rw [row_solved hs hv hρ, map_eval, row_solved hs hv hslv, map_eval]
  apply eval_le_eval
  intro d hd
  obtain ⟨e, he, rfl⟩ := List.mem_map.mp hd
  have hroom := hblk e he
  have hholds := hbds _ (List.mem_map_of_mem he)
  rw [entryIsSuitable] at hroom
  by_cases hsign : t.entryIsNegative settings v e.2 = true
  · simp only [Bool.false_eq_true, if_false, if_pos hsign, (htyp.supremum e.1).var] at hroom hholds
    have hle := (htyp.supremum e.1).le_of_not_gtValue hroom hholds
    exact smul_le_smul_of_nonpos_left hle ((entryIsNegative_iff hs hv).mp hsign).le
  · simp only [Bool.false_eq_true, if_false, if_neg hsign, (htyp.infimum e.1).var] at hroom hholds
    have hge := (htyp.infimum e.1).ge_of_not_ltValue hroom hholds
    exact smul_le_smul_of_nonneg_left hge (not_lt.mp ((entryIsNegative_iff hs hv).not.mp hsign))

end Blocked

section Unsatisfiable

variable (hs : t.WellFormed settings.omit_division) (htyp : t.toBounds.WellTyped)
  (hslv : t.SolvesActive t.assignment) {v : VarId} (hv : v ∈ t.mRows) {b : Bound}

include hs htyp hslv hv

/-- A violated upper bound contradicts a row that cannot be decreased. -/
theorem unsatisfiable_of_upper (hb : b.IsUpperOf v) (hviol : b.ltValue (t.assignment v) = true)
    (hblk : ∀ e ∈ (t.row v).entries, t.entryIsSuitable settings false v e = false) :
    t.Unsatisfiable (b :: t.blockingBounds settings false v) := by
  intro ρ hρ hbds
  have hlt : Value.ofReal (ρ v) < Value.toReal (t.assignment v) :=
    hb.lt_of_ltValue hviol (hb.var ▸ hbds b mem_cons_self)
  have hge := blocked_ge hs hv htyp hslv hρ hblk fun c hc => hbds c (mem_cons_of_mem _ hc)
  exact (hlt.trans_le hge).false

/-- A violated lower bound contradicts a row that cannot be increased. -/
theorem unsatisfiable_of_lower (hb : b.IsLowerOf v) (hviol : b.gtValue (t.assignment v) = true)
    (hblk : ∀ e ∈ (t.row v).entries, t.entryIsSuitable settings true v e = false) :
    t.Unsatisfiable (b :: t.blockingBounds settings true v) := by
  intro ρ hρ hbds
  have hgt : Value.toReal (t.assignment v) < Value.ofReal (ρ v) :=
    hb.gt_of_gtValue hviol (hb.var ▸ hbds b mem_cons_self)
  have hle := blocked_le hs hv htyp hslv hρ hblk fun c hc => hbds c (mem_cons_of_mem _ hc)
  exact (hgt.trans_le hle).false

end Unsatisfiable

/-! ## The reported row -/

/-- Once an entry is found, one stays found. -/
theorem foldl_best_isSome (suitable : VarId × ℚ → Option VarId → Bool) (es : List (VarId × ℚ))
    {best : Option VarId} (hbest : best.isSome = true) :
    (es.foldl (fun best e => if suitable e best then some e.1 else best) best).isSome = true := by
  induction es generalizing best with
  | nil => exact hbest
  | cons e es ih =>
    apply ih
    show (if suitable e best then some e.1 else best).isSome = true
    split_ifs
    · rfl
    · exact hbest

/-- No entry of a row is suitable when the search along the row finds none. -/
theorem isSuitable_eq_none {v : VarId} {increase : Bool} (hbasic : t.isBasic v = true)
    (hv : v ∈ t.mRows) (hnone : t.isSuitable settings v increase = none) :
    ∀ e ∈ (t.row v).entries, t.entryIsSuitable settings increase v e = false := by
  cases hents : (t.row v).entries with
  | nil => exact fun e he => absurd he not_mem_nil
  | cons d es =>
    have hstart : t.startEntry v = some ⟨v, d.1⟩ := by
      rw [startEntry, if_pos hbasic, if_pos hv, hents]
      rfl
    have hfrom : t.entriesFrom ⟨v, d.1⟩ = d :: es := by
      show (t.row v).entries.dropWhile (fun c => c.1 ≠ d.1) = _
      rw [hents, dropWhile_cons_of_neg (by simp)]
    rw [isSuitable, hstart] at hnone
    simp only [hfrom, map_eq_none_iff] at hnone
    clear hents hstart hfrom
    generalize hlist : d :: es = ds at hnone
    clear hlist
    induction ds with
    | nil => exact fun e he => absurd he not_mem_nil
    | cons d ds ih =>
      rw [foldl_cons] at hnone
      by_cases hd : t.entryIsSuitable settings increase v d = true
      · rw [hd, betterEntry, Bool.and_true, if_pos rfl] at hnone
        have hbest : (some d.1).isSome = true := rfl
        have hsome := foldl_best_isSome (fun e best =>
          t.entryIsSuitable settings increase v e && t.betterEntry e.1 best) ds hbest
        rw [hnone] at hsome
        exact absurd hsome Bool.false_ne_true
      · rw [Bool.not_eq_true] at hd
        rw [hd, Bool.false_and, if_neg Bool.false_ne_true] at hnone
        intro e he
        rcases mem_cons.mp he with rfl | he
        · exact hd
        · exact ih hnone e he

/-- The row with which the loop over the rows ends early. -/
theorem findCandidate_error {isBetter : VarId → Candidate → Bool} {vs : List VarId}
    {best : Option Candidate} {e : Option EntryID}
    (h : t.findCandidate settings isBetter vs best = .error e) :
    ∃ v ∈ vs, ∃ thetaB lower, t.violation v = some (thetaB, lower) ∧
      t.isSuitable settings v lower = none ∧ e = t.startEntry v := by
  induction vs generalizing best with
  | nil => cases h
  | cons v vs ih =>
    have hlater : ∀ {best}, t.findCandidate settings isBetter vs best = .error e →
        ∃ v' ∈ v :: vs, ∃ thetaB lower, t.violation v' = some (thetaB, lower) ∧
          t.isSuitable settings v' lower = none ∧ e = t.startEntry v' := by
      intro best h
      obtain ⟨w, hw, hspec⟩ := ih h
      exact ⟨w, mem_cons_of_mem v hw, hspec⟩
    rw [findCandidate] at h
    split at h
    · exact hlater h
    · next thetaB lower hviol =>
      split at h
      · next hnone =>
        cases h
        exact ⟨v, mem_cons_self, thetaB, lower, hviol, hnone, rfl⟩
      · exact hlater h

/-- What a reported conflict says: its row is active, its basic variable violates a bound, and no
entry of the row can repair it. -/
structure ConflictingRow (settings : TableauSettings) (t : Tableau) (v : VarId) : Prop where
  row : v ∈ t.mRows
  violated : ∃ thetaB lower, t.violation v = some (thetaB, lower) ∧
    ∀ e ∈ (t.row v).entries, t.entryIsSuitable settings lower v e = false

/-- An identity for a variable has entries. -/
theorem entries_ne_nil (hs : t.Correct settings.omit_division) {v : VarId} (hv : v ∈ t.mRows) :
    (t.row v).entries ≠ [] := by
  intro hnil
  have hrow : (t.row v).factor • t.poly v = eval t.poly (t.row v).entries := hs.solves v (.inl hv)
  rw [hnil, eval_nil] at hrow
  have hpoly := (smul_eq_zero.mp hrow).resolve_left (hs.factor_ne_zero v (.inl hv))
  exact LinearForm.polynomial_ne_zero _ hpoly

theorem nextPivotingElement_conflict (hs : t.Correct settings.omit_division)
    (hasgn : t.AssignmentCorrect) {result : Option EntryID} {t' : Tableau}
    (h : t.nextPivotingElement settings = ((result, false), t')) :
    ∃ e, result = some e ∧ ConflictingRow settings t e.row ∧
      ∃ rows, t' = { t with mConflictingRows := rows } := by
  -- a violated variable with a start entry heads no column, so the entry is in its own row
  have hspec : ∀ {vs : List VarId} {isBetter best e},
      t.findCandidate settings isBetter vs best = .error e → (e.isSome ∨ ∀ v ∈ vs, v ∈ t.mRows) →
      ∃ f, e = some f ∧ ConflictingRow settings t f.row := by
    intro vs isBetter best e herror hact
    obtain ⟨v, hv, thetaB, lower, hviol, hnone, rfl⟩ := findCandidate_error herror
    have hbasic : t.isBasic v = true := by
      rw [RowSystem.isBasic, decide_eq_true_eq]
      intro hcol
      rw [hasgn.nonbasic v hcol] at hviol
      cases hviol
    have hrow : v ∈ t.mRows := by
      rcases hact with hsome | hact
      · rw [startEntry, if_pos hbasic] at hsome
        by_contra hnot
        rw [if_neg hnot] at hsome
        cases hsome
      · exact hact v hv
    obtain ⟨d, es, hents⟩ := exists_cons_of_ne_nil (entries_ne_nil hs hrow)
    refine ⟨⟨v, d.1⟩, ?_, hrow, thetaB, lower, hviol, isSuitable_eq_none hbasic hrow hnone⟩
    rw [startEntry, if_pos hbasic, if_pos hrow, hents]
    rfl
  rw [nextPivotingElement] at h
  split_ifs at h
  · rw [findPivot] at h
    split at h
    · next e herror =>
      cases e with
      | none => cases h
      | some e =>
        obtain ⟨f, heq, hf⟩ := hspec herror (.inl rfl)
        cases heq
        cases h
        exact ⟨e, rfl, hf, [], rfl⟩
    · cases h
    · cases h
  · rw [findPivotBland] at h
    split at h
    · next e herror =>
      obtain ⟨f, rfl, hf⟩ := hspec herror (.inr fun _ hv => hv)
      cases h
      exact ⟨f, rfl, hf, t.mConflictingRows, rfl⟩
    · cases h
    · cases h

/-! ## The conflicts -/

/-- The rows from a row on contain it. -/
theorem mem_dropWhile_ne {v : VarId} {vs : List VarId} (h : v ∈ vs) :
    v ∈ vs.dropWhile fun w => w ≠ v := by
  induction vs with
  | nil => cases h
  | cons w vs ih =>
    by_cases hw : w = v
    · rw [dropWhile_cons_of_neg (by simpa using hw), hw]
      exact mem_cons_self
    · rw [dropWhile_cons_of_pos (by simpa using hw)]
      exact ih ((mem_cons.mp h).resolve_left (Ne.symm hw))

section Conflicts

variable (hs : t.WellFormed settings.omit_division) (htyp : t.toBounds.WellTyped)
  (hslv : t.SolvesActive t.assignment)

include hs htyp hslv

/-- The conflict of a row that cannot be repaired. -/
theorem rowConflict_unsatisfiable {v : VarId} (hv : v ∈ t.mRows) {bs : List Bound}
    (h : t.rowConflict settings v = some bs) : t.Unsatisfiable bs := by
  rw [rowConflict] at h
  split_ifs at h with hup hrepair hlow hrepair
  · cases h
    refine unsatisfiable_of_upper hs htyp hslv hv (htyp.supremum v) hup ?_
    simpa using hrepair
  · cases h
    refine unsatisfiable_of_lower hs htyp hslv hv (htyp.infimum v) hlow ?_
    simpa using hrepair

variable {e : EntryID}

theorem getConflictsFrom_unsatisfiable {bs : List Bound}
    (h : bs ∈ t.getConflictsFrom settings e) : t.Unsatisfiable bs := by
  obtain ⟨v, hv, hbs⟩ := mem_filterMap.mp h
  exact rowConflict_unsatisfiable hs htyp hslv ((dropWhile_sublist _).subset hv) hbs

/-- The bound in the place of the violated one is violated, too. -/
theorem getConflict_unsatisfiable (h : ConflictingRow settings t e.row) :
    t.Unsatisfiable (t.getConflict settings e) := by
  obtain ⟨thetaB, lower, hviol, hblk⟩ := h.violated
  rw [violation] at hviol
  rw [getConflict]
  by_cases hup : (t.supremum e.row).ltValue (t.assignment e.row) = true
  · rw [if_pos hup] at hviol
    cases hviol
    simp only [if_pos hup]
    cases hfind : (t.upperbounds e.row).reverse.find? fun b =>
        b == t.supremum e.row || t.isActive b && b.ltValue (t.assignment e.row) with
    | none => exact unsatisfiable_of_upper hs htyp hslv h.row (htyp.supremum _) hup hblk
    | some b =>
      have hmem := mem_reverse.mp (mem_of_find?_eq_some hfind)
      have hb : b.ltValue (t.assignment e.row) = true := by
        have hfound := find?_some hfind
        rcases Bool.or_eq_true _ _ ▸ hfound with heq | hweaker
        · rw [eq_of_beq heq]
          exact hup
        · exact (Bool.and_eq_true _ _ ▸ hweaker).2
      exact unsatisfiable_of_upper hs htyp hslv h.row (htyp.upperbounds _ b hmem) hb hblk
  · rw [if_neg hup] at hviol
    obtain ⟨hlow, heq⟩ := ite_none_right_eq_some.mp hviol
    cases heq
    simp only [if_neg hup]
    cases hfind : (t.lowerbounds e.row).find? fun b =>
        b == t.infimum e.row || t.isActive b && b.gtValue (t.assignment e.row) with
    | none => exact unsatisfiable_of_lower hs htyp hslv h.row (htyp.infimum _) hlow hblk
    | some b =>
      have hmem := mem_of_find?_eq_some hfind
      have hb : b.gtValue (t.assignment e.row) = true := by
        have hfound := find?_some hfind
        rcases Bool.or_eq_true _ _ ▸ hfound with heq | hweaker
        · rw [eq_of_beq heq]
          exact hlow
        · exact (Bool.and_eq_true _ _ ▸ hweaker).2
      exact unsatisfiable_of_lower hs htyp hslv h.row (htyp.lowerbounds _ b hmem) hb hblk

omit hs htyp hslv in
/-- The rows from the reported one on have at least the reported conflict. -/
theorem getConflictsFrom_ne_nil (h : ConflictingRow settings t e.row) :
    t.getConflictsFrom settings e ≠ [] := by
  obtain ⟨thetaB, lower, hviol, hblk⟩ := h.violated
  have hmem : e.row ∈ t.mRows.dropWhile fun v => v ≠ e.row := mem_dropWhile_ne h.row
  have hunsuitable : ∀ lower', lower' = lower →
      ((t.row e.row).entries.any fun d => t.entryIsSuitable settings lower' e.row d) = false := by
    rintro _ rfl
    rw [List.any_eq_false]
    intro d hd
    rw [hblk d hd]
    exact Bool.false_ne_true
  have hconf : (t.rowConflict settings e.row).isSome = true := by
    rw [violation] at hviol
    rw [rowConflict]
    by_cases hup : (t.supremum e.row).ltValue (t.assignment e.row) = true
    · rw [if_pos hup] at hviol
      cases hviol
      rw [if_pos hup, hunsuitable false rfl, if_neg Bool.false_ne_true]
      rfl
    · rw [if_neg hup] at hviol
      obtain ⟨hlow, heq⟩ := ite_none_right_eq_some.mp hviol
      cases heq
      rw [if_neg hup, if_pos hlow, hunsuitable true rfl, if_neg Bool.false_ne_true]
      rfl
  obtain ⟨bs, hbs⟩ := isSome_iff_exists.mp hconf
  exact ne_nil_of_mem (mem_filterMap.mpr ⟨e.row, hmem, hbs⟩)

end Conflicts

end Tableau

namespace LRAModule

/-- Whenever the search for a pivoting element reports a conflict, the conflict of its row and all
conflicts from this row on have no real solution together with the rows, and there is one of the
latter. -/
theorem conflicts_unsatisfiable (settings : TableauSettings) (p : LinearForm)
    (actions : List Action) (m : LRAModule)
    (hrun : run (step settings) (empty p) actions = some m)
    (hrows : m.mTableau.Correct settings.omit_division) (hassign : m.mTableau.AssignmentCorrect)
    (result : Option EntryID) (t : Tableau)
    (hconflict : m.mTableau.nextPivotingElement settings = ((result, false), t)) :
    ∃ e, result = some e ∧ t.Unsatisfiable (t.getConflict settings e) ∧
      (∀ bs ∈ t.getConflictsFrom settings e, t.Unsatisfiable bs) ∧
      t.getConflictsFrom settings e ≠ [] := by
  obtain ⟨e, he, hrow, rows, rfl⟩ :=
    Tableau.nextPivotingElement_conflict hrows hassign hconflict
  have htyp : m.mTableau.toBounds.WellTyped := wellTyped_of_run hrun
  -- the search forgets the rows in conflict, which the conflicts do not depend on
  refine ⟨e, he, ?_, ?_, ?_⟩
  · exact Tableau.getConflict_unsatisfiable hrows.toWellFormed htyp hassign.solves hrow
  · intro bs hbs
    exact Tableau.getConflictsFrom_unsatisfiable hrows.toWellFormed htyp hassign.solves hbs
  · exact Tableau.getConflictsFrom_ne_nil ⟨hrow.row, hrow.violated⟩

/-! ### A conflict -/

/-- The constraints `x + y - 1 ≤ 0`, `x - 1 ≥ 0` and `y - 1 ≥ 0`. -/
def sumConstraint : LinearConstraint := ⟨sumForm, -1, .leq, fun h => absurd h (by decide)⟩

def firstConstraint : LinearConstraint :=
  ⟨.ofVar ⟨0, false⟩, -1, .geq, fun h => absurd h (by decide)⟩

def secondConstraint : LinearConstraint :=
  ⟨.ofVar ⟨1, false⟩, -1, .geq, fun h => absurd h (by decide)⟩

/-- The tableau in which the three bounds are active. -/
def sumTableau : Tableau :=
  (((((Tableau.empty sumForm).newBound sumConstraint).newBound firstConstraint).newBound
    secondConstraint).activateBound TableauSettings1 ⟨0, .upper, some ⟨1, 0⟩⟩
      (.constraint sumConstraint)).activateBound TableauSettings1 ⟨1, .lower, some ⟨1, 0⟩⟩
        (.constraint firstConstraint) |>.activateBound TableauSettings1 ⟨2, .lower, some ⟨1, 0⟩⟩
          (.constraint secondConstraint)

def sumModule : LRAModule :=
  { empty sumForm with mTableau := { sumTableau with mMaxPivotsWithoutBlandsRule := 1000 } }

def sumActions : List Action :=
  [.inform sumConstraint, .inform firstConstraint, .inform secondConstraint,
    .activateBound ⟨0, .upper, some ⟨1, 0⟩⟩ (.constraint sumConstraint),
    .activateBound ⟨1, .lower, some ⟨1, 0⟩⟩ (.constraint firstConstraint),
    .activateBound ⟨2, .lower, some ⟨1, 0⟩⟩ (.constraint secondConstraint), .startCheck]

theorem sumTableau_correct : sumTableau.Correct TableauSettings1.omit_division := by
  refine Tableau.activateBound_correct (Tableau.activateBound_correct
    (Tableau.activateBound_correct (Tableau.newBound_correct (Tableau.newBound_correct
      (Tableau.newBound_correct (Tableau.empty_correct _) _) _) _) _ _) _ _) _ _

theorem sumModule_run : run (step TableauSettings1) (empty sumForm) sumActions = some sumModule := by
  simp only [sumActions, run, step, bind_some]
  rw [if_pos (by decide +kernel), bind_some, if_pos (by decide +kernel), bind_some,
    if_pos (by decide +kernel)]
  rfl

theorem sumModule_assignment : sumModule.mTableau.AssignmentCorrect where
  solves := by
    show ∀ v ∈ sumTableau.mRows, (sumTableau.row v).factor • sumTableau.assignment v =
      eval sumTableau.assignment (sumTableau.row v).entries
    decide +kernel
  nonbasic := by decide +kernel

theorem conflicts_unsatisfiable_sum :
    ∃ t, sumModule.mTableau.nextPivotingElement TableauSettings1 = ((some ⟨0, 1⟩, false), t) ∧
      t.getConflict TableauSettings1 ⟨0, 1⟩ =
        [⟨0, .upper, some ⟨1, 0⟩⟩, ⟨1, .lower, some ⟨1, 0⟩⟩, ⟨2, .lower, some ⟨1, 0⟩⟩] ∧
      t.Unsatisfiable (t.getConflict TableauSettings1 ⟨0, 1⟩) := by
  have hnext : (sumModule.mTableau.nextPivotingElement TableauSettings1).1 =
      (some ⟨0, 1⟩, false) := by decide +kernel
  refine ⟨_, Prod.ext hnext rfl, by decide +kernel, ?_⟩
  obtain ⟨e, he, hconf, -⟩ := conflicts_unsatisfiable TableauSettings1 sumForm sumActions
    sumModule sumModule_run sumTableau_correct sumModule_assignment (some ⟨0, 1⟩)
    (sumModule.mTableau.nextPivotingElement TableauSettings1).2 (Prod.ext hnext rfl)
  cases he
  exact hconf

end LRAModule

end Smtrat.LRA
