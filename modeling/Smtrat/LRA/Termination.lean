import Smtrat.LRA.Conflicts
import Smtrat.Math.BlandRule

/-!
# Termination of the search

After a number of pivoting steps the search follows Bland's rule: it takes the smallest variable
that violates a bound, and the smallest variable of its row that is suitable.  As long as no bound
changes, the loop that pivots at its choice ends, since an infinite run would be one of Bland's
rule.
-/

namespace Combination

variable {ι K M : Type*} [DecidableEq ι] [Semiring K] [AddCommMonoid M] [Module K M]

/-- A combination as a sum over a set that has its indices. -/
theorem eval_eq_sum {f : ι → M} {es : List (ι × K)} (hnd : (es.map Prod.fst).Nodup) {s : Finset ι}
    (hs : ∀ e ∈ es, e.1 ∈ s) : eval f es = ∑ i ∈ s, (find i es).getD 0 • f i := by
  have hsub : (es.map Prod.fst).toFinset ⊆ s := by
    intro i hi
    obtain ⟨e, he, rfl⟩ := List.mem_map.mp (List.mem_toFinset.mp hi)
    exact hs e he
  have hzero : ∀ i ∈ s, i ∉ (es.map Prod.fst).toFinset → (find i es).getD 0 • f i = 0 := by
    intro i _ hi
    rw [find_eq_none.mpr (List.mem_toFinset.not.mp hi)]
    exact zero_smul K (f i)
  rw [← Finset.sum_subset hsub hzero, List.sum_toFinset _ hnd, List.map_map, eval]
  refine congrArg List.sum (List.map_congr_left fun e he => ?_)
  rw [Function.comp_apply, find_of_mem hnd he, Option.getD_some]

end Combination

namespace Smtrat.LRA

open Combination List

namespace Bound

variable {b : Bound} {w : VarId} {y : Value ℚ}

/-- The limit of a lower bound. -/
def lowerLimit (b : Bound) : WithBot (Value ℚ) :=
  match b.limit with
  | none => ⊥
  | some l => l

/-- The limit of an upper bound. -/
def upperLimit (b : Bound) : WithTop (Value ℚ) :=
  match b.limit with
  | none => ⊤
  | some l => l

theorem IsUpperOf.ltValue_iff (hb : b.IsUpperOf w) : b.ltValue y = true ↔ b.upperLimit < y := by
  cases hl : b.limit with
  | none => simp [ltValue, upperLimit, hl, hb.infinite hl]
  | some l => simp [ltValue, upperLimit, hl]

theorem IsUpperOf.gtValue_iff (hb : b.IsUpperOf w) : b.gtValue y = true ↔ y < b.upperLimit := by
  cases hl : b.limit with
  | none => simp [gtValue, upperLimit, hl, hb.infinite hl]
  | some l => simp [gtValue, upperLimit, hl]

theorem IsLowerOf.ltValue_iff (hb : b.IsLowerOf w) : b.ltValue y = true ↔ b.lowerLimit < y := by
  cases hl : b.limit with
  | none => simp [ltValue, lowerLimit, hl, hb.infinite hl]
  | some l => simp [ltValue, lowerLimit, hl]

theorem IsLowerOf.gtValue_iff (hb : b.IsLowerOf w) : b.gtValue y = true ↔ y < b.lowerLimit := by
  cases hl : b.limit with
  | none => simp [gtValue, lowerLimit, hl, hb.infinite hl]
  | some l => simp [gtValue, lowerLimit, hl]

/-- A bound that is violated has a limit. -/
theorem IsUpperOf.limitValue_eq (hb : b.IsUpperOf w) (h : b.ltValue y = true) :
    (b.limitValue : WithTop (Value ℚ)) = b.upperLimit := by
  cases hl : b.limit with
  | none => simp [ltValue, hl, hb.infinite hl] at h
  | some l => simp [limitValue, upperLimit, hl]

theorem IsLowerOf.limitValue_eq (hb : b.IsLowerOf w) (h : b.gtValue y = true) :
    (b.limitValue : WithBot (Value ℚ)) = b.lowerLimit := by
  cases hl : b.limit with
  | none => simp [gtValue, hl, hb.infinite hl] at h
  | some l => simp [limitValue, lowerLimit, hl]

end Bound

/-- The infima and suprema as limits. -/
def Bounds.lower (s : Bounds) (v : VarId) : WithBot (Value ℚ) := (s.infimum v).lowerLimit

def Bounds.upper (s : Bounds) (v : VarId) : WithTop (Value ℚ) := (s.supremum v).upperLimit

namespace Tableau

variable {settings : TableauSettings} {t : Tableau}

/-! ## Violated bounds -/

section Violation

variable (htyp : t.toBounds.WellTyped) {v : VarId}

include htyp

theorem violation_eq_none_iff :
    t.violation v = none ↔ BlandRule.InBounds t.lower t.upper v (t.assignment v) := by
  rw [violation, BlandRule.InBounds, ← not_lt, ← not_lt, Bounds.lower, Bounds.upper,
    ← (htyp.infimum v).gtValue_iff, ← (htyp.supremum v).ltValue_iff]
  split_ifs with hup hlow
  · simp [hup]
  · simp [hlow]
  · simp [hup, hlow]

/-- The change that is missing to the violated bound. -/
theorem violation_eq_some {thetaB : Value ℚ} {lower : Bool} (h : t.violation v = some (thetaB, lower)) :
    if lower then ((t.assignment v + thetaB : Value ℚ) : WithBot (Value ℚ)) = t.lower v ∧
      (t.assignment v : WithBot (Value ℚ)) < t.lower v
    else ((t.assignment v + thetaB : Value ℚ) : WithTop (Value ℚ)) = t.upper v ∧
      t.upper v < (t.assignment v : WithTop (Value ℚ)) := by
  rw [violation] at h
  split_ifs at h with hup hlow
  · cases h
    rw [if_neg Bool.false_ne_true, add_sub_cancel]
    exact ⟨(htyp.supremum v).limitValue_eq hup, (htyp.supremum v).ltValue_iff.mp hup⟩
  · cases h
    rw [if_pos rfl, add_sub_cancel]
    exact ⟨(htyp.infimum v).limitValue_eq hlow, (htyp.infimum v).gtValue_iff.mp hlow⟩

end Violation

/-! ## The choice of the search -/

/-- A search for the smallest suitable column finds it. -/
theorem foldl_least {suitable : VarId × ℚ → Bool} {es : List (VarId × ℚ)} {best : Option VarId}
    {c : VarId} (h : es.foldl (fun best e =>
      if suitable e && best.all (e.1 < ·) then some e.1 else best) best = some c) :
    (best = some c ∨ ∃ a, (c, a) ∈ es ∧ suitable (c, a) = true) ∧ (∀ b ∈ best, c ≤ b) ∧
      ∀ d ∈ es, d.1 < c → suitable d = false := by
  induction es generalizing best with
  | nil =>
    cases h
    exact ⟨.inl rfl, fun b hb => (Option.some.inj hb).le, fun d hd => absurd hd not_mem_nil⟩
  | cons e es ih =>
    rw [foldl_cons] at h
    obtain ⟨hfound, hle, hleast⟩ := ih h
    by_cases he : (suitable e && best.all (e.1 < ·)) = true
    · rw [if_pos he] at hfound hle
      rw [Bool.and_eq_true] at he
      have hce : c ≤ e.1 := hle e.1 rfl
      refine ⟨.inr ?_, ?_, ?_⟩
      · rcases hfound with heq | ⟨a, ha, hsuit⟩
        · cases heq
          exact ⟨e.2, mem_cons_self, he.1⟩
        · exact ⟨a, mem_cons_of_mem e ha, hsuit⟩
      · intro b hb
        have hlt : e.1 < b := by simpa [Option.mem_def.mp hb] using he.2
        exact hce.trans hlt.le
      · intro d hd hdc
        rcases mem_cons.mp hd with rfl | hd
        · exact absurd hdc hce.not_gt
        · exact hleast d hd hdc
    · rw [if_neg he] at hfound hle
      refine ⟨hfound.imp_right fun ⟨a, ha, hs⟩ => ⟨a, mem_cons_of_mem e ha, hs⟩, hle, ?_⟩
      intro d hd hdc
      rcases mem_cons.mp hd with rfl | hd
      · by_contra hsuit
        rw [Bool.not_eq_false] at hsuit
        apply he
        rw [hsuit, Bool.true_and]
        cases best with
        | none => rfl
        | some b => exact decide_eq_true (hdc.trans_le (hle b rfl))
      · exact hleast d hd hdc

/-- Bland's rule applies. -/
def UsesBlandsRule (t : Tableau) : Prop := t.mMaxPivotsWithoutBlandsRule ≤ t.mPivotingSteps

theorem betterEntry_bland (hbland : t.UsesBlandsRule) (c : VarId) (best : Option VarId) :
    t.betterEntry c best = best.all (c < ·) := by
  cases best with
  | none => rfl
  | some b =>
    have hbland : t.mMaxPivotsWithoutBlandsRule ≤ t.mPivotingSteps := hbland
    rw [betterEntry, if_pos hbland]
    rfl

variable {e : EntryID}

/-- The chosen entry belongs to the smallest suitable column of the row. -/
theorem isSuitable_least (hbland : t.UsesBlandsRule) {v : VarId} {increase : Bool}
    (hbasic : t.isBasic v = true) (hv : v ∈ t.mRows)
    (h : t.isSuitable settings v increase = some e) :
    e.row = v ∧ (∃ a, (e.col, a) ∈ (t.row v).entries ∧
      t.entryIsSuitable settings increase v (e.col, a) = true) ∧
      ∀ d ∈ (t.row v).entries, d.1 < e.col → t.entryIsSuitable settings increase v d = false := by
  cases hents : (t.row v).entries with
  | nil =>
    rw [isSuitable, startEntry, if_pos hbasic, if_pos hv, hents] at h
    cases h
  | cons d es =>
    have hstart : t.startEntry v = some ⟨v, d.1⟩ := by
      rw [startEntry, if_pos hbasic, if_pos hv, hents]
      rfl
    have hfrom : t.entriesFrom ⟨v, d.1⟩ = d :: es := by
      show (t.row v).entries.dropWhile (fun c => c.1 ≠ d.1) = _
      rw [hents, dropWhile_cons_of_neg (by simp)]
    rw [isSuitable, hstart] at h
    simp only [hfrom, betterEntry_bland hbland] at h
    obtain ⟨c, hc, rfl⟩ := Option.map_eq_some_iff.mp h
    obtain ⟨hfound, -, hleast⟩ := foldl_least hc
    exact ⟨rfl, hfound.resolve_left (by simp), hleast⟩

/-- The row chosen by the loop is that of the smallest variable that violates a bound. -/
theorem findCandidate_least {vs : List VarId} {best : Option Candidate} {c : Candidate}
    (h : t.findCandidate settings (fun v best => v < best.var) vs best = .ok (some c)) :
    (best = some c ∨ c.var ∈ vs ∧ ∃ lower, t.violation c.var = some (c.thetaB, lower) ∧
      t.isSuitable settings c.var lower = some c.entry) ∧ (∀ b ∈ best, c.var ≤ b.var) ∧
      ∀ v ∈ vs, v < c.var → t.violation v = none := by
  induction vs generalizing best with
  | nil =>
    cases h
    exact ⟨.inl rfl, fun b hb => (congrArg Candidate.var (Option.some.inj hb)).le,
      fun v hv => absurd hv not_mem_nil⟩
  | cons v vs ih =>
    rw [findCandidate] at h
    split at h
    · next hnone =>
      obtain ⟨hfound, hle, hleast⟩ := ih h
      refine ⟨hfound.imp_right (And.imp_left (mem_cons_of_mem v)), hle, ?_⟩
      intro w hw hwc
      rcases mem_cons.mp hw with rfl | hw
      · exact hnone
      · exact hleast w hw hwc
    · next thetaB lower hviol =>
      split at h
      · cases h
      · next e hsuit =>
        obtain ⟨hfound, hle, hleast⟩ := ih h
        by_cases hbetter : (best.all fun b => v < b.var) = true
        · rw [if_pos hbetter] at hfound hle
          have hcv : c.var ≤ v := hle _ rfl
          refine ⟨.inr ?_, ?_, ?_⟩
          · rcases hfound with heq | ⟨hmem, hc⟩
            · cases heq
              exact ⟨mem_cons_self, lower, hviol, hsuit⟩
            · exact ⟨mem_cons_of_mem v hmem, hc⟩
          · intro b hb
            have hlt : v < b.var := by simpa [Option.mem_def.mp hb] using hbetter
            exact hcv.trans hlt.le
          · intro w hw hwc
            rcases mem_cons.mp hw with rfl | hw
            · exact absurd hwc hcv.not_gt
            · exact hleast w hw hwc
        · rw [if_neg hbetter] at hfound hle
          refine ⟨hfound.imp_right (And.imp_left (mem_cons_of_mem v)), hle, ?_⟩
          intro w hw hwc
          rcases mem_cons.mp hw with rfl | hw
          · obtain ⟨b, hb, hnot⟩ : ∃ b, best = some b ∧ ¬ w < b.var := by
              cases best with
              | none => exact absurd rfl hbetter
              | some b => exact ⟨b, rfl, fun hlt => hbetter (decide_eq_true hlt)⟩
            exact absurd (hwc.trans_le (hle b hb)) hnot
          · exact hleast w hw hwc

theorem findCandidate_none {isBetter : VarId → Candidate → Bool} {vs : List VarId}
    {best : Option Candidate} (h : t.findCandidate settings isBetter vs best = .ok none) :
    best = none ∧ ∀ v ∈ vs, t.violation v = none := by
  induction vs generalizing best with
  | nil =>
    cases h
    exact ⟨rfl, fun v hv => absurd hv not_mem_nil⟩
  | cons v vs ih =>
    rw [findCandidate] at h
    split at h
    · next hnone =>
      obtain ⟨hbest, hvs⟩ := ih h
      exact ⟨hbest, forall_mem_cons.mpr ⟨hnone, hvs⟩⟩
    · split at h
      · cases h
      · obtain ⟨hbest, -⟩ := ih h
        cases best with
        | none => cases hbest
        | some b => split_ifs at hbest

/-- The choice of a search with Bland's rule: the smallest variable that violates a bound leaves its
row, for the smallest one that can move it to this bound. -/
structure BlandChoice (settings : TableauSettings) (t : Tableau) (e : EntryID) (a : ℚ)
    (thetaB : Value ℚ) (lower : Bool) : Prop where
  entry : t.HasEntry e.row e.col a
  violated : t.violation e.row = some (thetaB, lower)
  row_least : ∀ v ∈ t.mRows, v < e.row → t.violation v = none
  suitable : t.entryIsSuitable settings lower e.row (e.col, a) = true
  column_least : ∀ d ∈ (t.row e.row).entries, d.1 < e.col →
    t.entryIsSuitable settings lower e.row d = false

variable {t' : Tableau}

theorem nextPivotingElement_bland (hs : t.WellFormed settings.omit_division)
    (hbland : t.UsesBlandsRule) (h : t.nextPivotingElement settings = ((some e, true), t')) :
    ∃ a thetaB lower, BlandChoice settings t e a thetaB lower ∧
      t' = { t with mpTheta := t.theta settings ⟨e.row, e, thetaB⟩ } := by
  rw [nextPivotingElement, if_neg (not_lt.mpr hbland), findPivotBland] at h
  split at h
  · cases h
  · next best hbest =>
    cases h
    obtain ⟨hfound, -, hleast⟩ := findCandidate_least hbest
    obtain ⟨hrow, lower, hviol, hsuit⟩ := hfound.resolve_left (by simp)
    have hbasic : t.isBasic best.var = true :=
      decide_eq_true (hs.row_not_column best.var hrow)
    obtain ⟨hvar, ⟨a, ha, hmove⟩, hcol⟩ := isSuitable_least hbland hbasic hrow hsuit
    rw [← hvar] at hrow ha hmove hcol hviol hleast
    refine ⟨a, best.thetaB, lower, ⟨⟨hrow, ha⟩, hviol, hleast, hmove, hcol⟩, ?_⟩
    rw [hvar]
  · cases h

/-! ## Values -/

/-- The column variable moves the basic variable to the violated bound. -/
theorem effect_theta (hs : t.WellFormed settings.omit_division) {a : ℚ}
    (h : t.HasEntry e.row e.col a) (thetaB : Value ℚ) :
    effect settings a (t.row e.row).factor (t.theta settings ⟨e.row, e, thetaB⟩) = thetaB := by
  have hfac : (t.row e.row).factor ≠ 0 := hs.factor_ne_zero e.row (.inl h.row)
  have hcont : (t.content e.row e.col).getD 0 = a := by rw [h.content hs, Option.getD_some]
  rw [effect, theta, hcont]
  split_ifs
  · rw [Value.div_eq_inv_smul, Value.div_eq_inv_smul, smul_inv_smul₀ (h.ne_zero hs),
      inv_smul_smul₀ hfac]
  · rw [Value.div_eq_inv_smul, smul_inv_smul₀ (h.ne_zero hs)]

/-- Moving a variable of a column keeps the equations of the rows. -/
theorem moveNonbasic_solves (hs : t.WellFormed settings.omit_division) {c : VarId}
    (hc : c ∈ t.mColumns) (h : t.SolvesActive t.assignment) (value : Value ℚ) :
    t.SolvesActive (t.moveNonbasic settings c value).assignment := by
  have hself : (t.moveNonbasic settings c value).assignment c = value := Function.update_self _ _ _
  have hcol : ∀ v ∈ t.mColumns, v ≠ c →
      (t.moveNonbasic settings c value).assignment v = t.assignment v := by
    intro v hv hvc
    have hrow : v ∉ t.mRows := fun hrow => hs.row_not_column v hrow hv
    exact (Function.update_of_ne hvc _ _).trans (if_neg hrow)
  intro v hv
  have hvc : v ≠ c := fun heq => hs.row_not_column v hv (heq ▸ hc)
  have hval : (t.moveNonbasic settings c value).assignment v = _ :=
    (Function.update_of_ne hvc _ _).trans (if_pos hv)
  have hrow : (t.row v).factor • t.assignment v = eval t.assignment (t.row v).entries := h v hv
  show (t.row v).factor • _ = eval _ (t.row v).entries
  rw [hval]
  cases hfind : t.content v c with
  | none =>
    rw [hrow]
    refine eval_congr fun d hd => (hcol d.1 (hs.key_column v hv d hd) ?_).symm
    rintro rfl
    exact find_eq_none.mp hfind (mem_map_of_mem hd)
  | some k =>
    have hmem : (c, k) ∈ (t.row v).entries := mem_of_find hfind
    have hothers : eval (t.moveNonbasic settings c value).assignment (others c (t.row v).entries) =
        eval t.assignment (others c (t.row v).entries) := by
      refine eval_congr fun d hd => hcol d.1 ?_ (mem_others.mp hd).2
      exact hs.key_column v hv d (mem_others.mp hd).1
    have heffect : (t.row v).factor • effect settings k (t.row v).factor (value - t.assignment c) =
        k • (value - t.assignment c) := by
      rw [effect]
      split_ifs with hmode
      · rw [Value.div_eq_inv_smul, smul_inv_smul₀ (hs.factor_ne_zero v (.inl hv))]
      · rw [hs.factor_one (by simpa using hmode) v (.inr (.inl hv)), one_smul]
    rw [smul_add, hrow, heffect, eval_of_mem (hs.keys_nodup v hv) hmem,
      eval_of_mem (hs.keys_nodup v hv) hmem, hself, hothers, smul_sub]
    abel

/-- The search counts no steps, and a pivoting step counts one. -/
structure SameCounters (t t' : Tableau) : Prop where
  mPivotingSteps : t'.mPivotingSteps = t.mPivotingSteps
  mMaxPivotsWithoutBlandsRule : t'.mMaxPivotsWithoutBlandsRule = t.mMaxPivotsWithoutBlandsRule

theorem SameCounters.trans {t'' : Tableau} (h : t.SameCounters t') (h' : t'.SameCounters t'') :
    t.SameCounters t'' where
  mPivotingSteps := h'.mPivotingSteps.trans h.mPivotingSteps
  mMaxPivotsWithoutBlandsRule :=
    h'.mMaxPivotsWithoutBlandsRule.trans h.mMaxPivotsWithoutBlandsRule

theorem rowRefinement_counters (settings : TableauSettings) (t : Tableau) (v : VarId) :
    t.SameCounters (t.rowRefinement settings v) := by
  have hup : t.SameCounters (t.refineUpper settings v) := by
    rw [refineUpper]
    split
    · exact ⟨rfl, rfl⟩
    · simp only
      split
      · exact ⟨rfl, rfl⟩
      · split <;> exact ⟨rfl, rfl⟩
  have hlow : ∀ t' : Tableau, t'.SameCounters (t'.refineLower settings v) := by
    intro t'
    rw [refineLower]
    split
    · exact ⟨rfl, rfl⟩
    · simp only
      split
      · exact ⟨rfl, rfl⟩
      · split <;> exact ⟨rfl, rfl⟩
  rw [rowRefinement]
  split_ifs
  · exact ⟨rfl, rfl⟩
  · exact hup.trans (hlow _)

theorem foldl_updateRow_counters (settings : TableauSettings) (r c : VarId) (is : List VarId)
    (t : Tableau) : t.SameCounters (is.foldl (fun t i => t.updateRow settings r c i) t) := by
  induction is generalizing t with
  | nil => exact ⟨rfl, rfl⟩
  | cons i is ih =>
    refine SameCounters.trans ?_ (ih _)
    simp only [updateRow]
    split_ifs
    · have href := rowRefinement_counters settings { t with
        toRowSystem := t.toRowSystem.eliminate settings.omit_division r c i
        assignment := Function.update t.assignment i (t.updatedValue settings r i)
        mConflictingRows := t.mConflictingRows ++ [i] } i
      exact ⟨href.mPivotingSteps, href.mMaxPivotsWithoutBlandsRule⟩
    · exact ⟨rfl, rfl⟩
    · exact ⟨rfl, rfl⟩

theorem pivot_usesBlandsRule (h : t.UsesBlandsRule) (e : EntryID) :
    (t.pivot settings e).UsesBlandsRule := by
  obtain ⟨t₁, href, hsame⟩ : ∃ t₁,
      (if settings.use_refinement && (t.exchangeVariables settings e.row e.col).hasBound e.col
        then (t.exchangeVariables settings e.row e.col).rowRefinement settings e.col
        else t.exchangeVariables settings e.row e.col) = t₁ ∧ t.SameCounters t₁ := by
    refine ⟨_, rfl, ?_⟩
    split_ifs
    · have hrow := rowRefinement_counters settings (t.exchangeVariables settings e.row e.col) e.col
      exact ⟨hrow.mPivotingSteps, hrow.mMaxPivotsWithoutBlandsRule⟩
    · exact ⟨rfl, rfl⟩
  obtain ⟨t₂, hfold⟩ : ∃ t₂, (t₁.rowsToUpdate e.row e.col).foldl
      (fun t i => t.updateRow settings e.row e.col i) t₁ = t₂ := ⟨_, rfl⟩
  have hupd : t.SameCounters t₂ :=
    hfold ▸ hsame.trans (foldl_updateRow_counters settings e.row e.col _ t₁)
  have hstep : t₂.mMaxPivotsWithoutBlandsRule ≤ t₂.mPivotingSteps + 1 := by
    rw [hupd.mMaxPivotsWithoutBlandsRule, hupd.mPivotingSteps]
    exact Nat.le_succ_of_le h
  simp only [pivot]
  rw [href, hfold]
  split_ifs <;> exact hstep

/-! ## One step of the loop -/

/-- What the loop relies on besides the values. -/
structure Searching (settings : TableauSettings) (t : Tableau) : Prop where
  correct : t.Correct settings.omit_division
  wellTyped : t.toBounds.WellTyped
  bland : t.UsesBlandsRule

/-- A pivoting step at the choice of the search. -/
structure BlandStep (settings : TableauSettings) (t : Tableau) (e : EntryID) (a : ℚ)
    (thetaB : Value ℚ) (lower : Bool) (t' : Tableau) : Prop
    extends BlandChoice settings t e a thetaB lower where
  searching : t'.Searching settings
  bounds : t'.toBounds = t.toBounds
  columns : ∀ v, v ∈ t'.mColumns ↔ v = e.row ∨ v ∈ t.mColumns ∧ v ≠ e.col
  rows : ∀ v ∈ t'.mRows, v = e.col ∨ v ∈ t.mRows
  solves : ∀ f : VarId → Value ℚ, t.SolvesActive f → t'.SolvesActive f
  assignment_column : ∀ v ∈ t.mColumns, v ≠ e.col → t'.assignment v = t.assignment v
  assignment_row : t'.assignment e.row = t.assignment e.row + thetaB
  assignment_solves : t.SolvesActive t.assignment → t.SolvesActive t'.assignment

theorem Searching.blandStep (h : t.Searching settings) {t₁ : Tableau}
    (hnext : t.nextPivotingElement settings = ((some e, true), t₁)) :
    ∃ a thetaB lower, BlandStep settings t e a thetaB lower (t₁.pivot settings e) := by
  have hs := h.correct.toWellFormed
  obtain ⟨a, thetaB, lower, hchoice, rfl⟩ := nextPivotingElement_bland hs h.bland hnext
  have hent := hchoice.entry
  let t₁ : Tableau := { t with mpTheta := t.theta settings ⟨e.row, e, thetaB⟩ }
  have hspec : Pivots settings e t₁ (t₁.pivot settings e) := pivot_spec (t := t₁) hs hent
  have hasgn : (t₁.pivot settings e).assignment = (t.moveNonbasic settings e.col
      (t.assignment e.col + t.theta settings ⟨e.row, e, thetaB⟩)).assignment := hspec.assignment
  have hrows := hspec.rows
  refine ⟨a, thetaB, lower, ⟨hchoice, ⟨?_, ?_, ?_⟩, hspec.bounds, ?_, ?_, ?_, ?_, ?_, ?_⟩⟩
  case refine_1 => exact pivot_correct (t := t₁) h.correct hent
  case refine_2 =>
    rw [hspec.bounds]
    exact h.wellTyped
  case refine_3 => exact pivot_usesBlandsRule (t := t₁) h.bland e
  case refine_4 =>
    intro v
    rw [← RowSystem.mem_pivot_columns hs hent, hrows]
    split_ifs <;> rfl
  case refine_5 =>
    intro v hv
    have hmem : v ∈ (t.toRowSystem.pivot settings.omit_division e.row e.col).mRows := by
      rw [hrows] at hv
      split_ifs at hv
      · exact mem_of_mem_erase hv
      · exact hv
    exact ((RowSystem.mem_pivot_rows hs hent).mp hmem).imp_right And.left
  case refine_6 =>
    intro f hf
    have hpivot := (RowSystem.pivot_solvesActive hs hent f).mpr hf
    rw [hrows]
    split_ifs
    · exact fun v hv => hpivot v (mem_of_mem_erase hv)
    · exact hpivot
  case refine_7 =>
    intro v hv hvc
    rw [hasgn]
    exact (Function.update_of_ne hvc _ _).trans (if_neg fun hrow => hs.row_not_column v hrow hv)
  case refine_8 =>
    have hmove : ∀ value, (t.moveNonbasic settings e.col value).assignment e.row =
        t.assignment e.row + effect settings a (t.row e.row).factor (value - t.assignment e.col) := by
      intro value
      refine (Function.update_of_ne (hent.ne hs).symm _ _).trans ((if_pos hent.row).trans ?_)
      rw [hent.content hs]
    rw [hasgn, hmove, add_sub_cancel_left, effect_theta hs hent]
  case refine_9 =>
    intro hslv
    rw [hasgn]
    exact moveNonbasic_solves hs (hent.column hs) hslv _

/-! ## An infinite run -/

/-- The coefficient with which a column moves the variable of a row in the direction it has to. -/
def direction (t : Tableau) (increase : Bool) (v : VarId) (k : ℚ) : ℚ :=
  if increase then (t.row v).factor⁻¹ * k else -((t.row v).factor⁻¹ * k)

/-- An entry is suitable when its column can move in the direction of its coefficient. -/
theorem entryIsSuitable_iff (hs : t.WellFormed settings.omit_division) (htyp : t.toBounds.WellTyped)
    {v : VarId} (hv : v ∈ t.mRows) {d : VarId × ℚ} (hd : d ∈ (t.row v).entries) (increase : Bool) :
    t.entryIsSuitable settings increase v d = true ↔
      0 < t.direction increase v d.2 ∧ BlandRule.CanIncrease t.upper d.1 (t.assignment d.1) ∨
        t.direction increase v d.2 < 0 ∧ BlandRule.CanDecrease t.lower d.1 (t.assignment d.1) := by
  have hne : (t.row v).factor⁻¹ * d.2 ≠ 0 :=
    mul_ne_zero (inv_ne_zero (hs.factor_ne_zero v (.inl hv))) (hs.content_ne_zero v (.inl hv) d hd)
  have hsup : (t.supremum d.1).gtValue (t.assignment d.1) = true ↔
      BlandRule.CanIncrease t.upper d.1 (t.assignment d.1) := (htyp.supremum d.1).gtValue_iff
  have hinf : (t.infimum d.1).ltValue (t.assignment d.1) = true ↔
      BlandRule.CanDecrease t.lower d.1 (t.assignment d.1) := (htyp.infimum d.1).ltValue_iff
  have hsign : (if increase then t.entryIsPositive settings v d.2
      else t.entryIsNegative settings v d.2) = true ↔ 0 < t.direction increase v d.2 := by
    cases increase with
    | true => exact entryIsPositive_iff hs hv
    | false => exact (entryIsNegative_iff hs hv).trans neg_pos.symm
  have hdir : t.direction increase v d.2 ≠ 0 := by
    cases increase with
    | true => exact hne
    | false => exact neg_ne_zero.mpr hne
  rw [entryIsSuitable]
  by_cases hpos : 0 < t.direction increase v d.2
  · rw [if_pos (hsign.mpr hpos), hsup, and_iff_right hpos, or_iff_left fun h => hpos.asymm h.1]
  · have hneg : t.direction increase v d.2 < 0 := (not_lt.mp hpos).lt_of_ne hdir
    rw [if_neg (hsign.not.mpr hpos), hinf, and_iff_right hneg, or_iff_right fun h => hpos h.1]

/-- The loop does not pivot forever. -/
theorem not_pivots_forever {s : ℕ → Tableau} {e : ℕ → EntryID} {a : ℕ → ℚ} {thetaB : ℕ → Value ℚ}
    {lower : ℕ → Bool} (hsrch : (s 0).Searching settings) (hasgn : (s 0).AssignmentCorrect)
    (hstep : ∀ n, BlandStep settings (s n) (e n) (a n) (thetaB n) (lower n) (s (n + 1))) : False := by
  have hall : ∀ n, (s n).Searching settings := by
    intro n
    cases n with
    | zero => exact hsrch
    | succ n => exact (hstep n).searching
  have hwf : ∀ n, (s n).WellFormed settings.omit_division := fun n => (hall n).correct.toWellFormed
  have hbds : ∀ n, (s n).toBounds = (s 0).toBounds := by
    intro n
    induction n with
    | zero => rfl
    | succ n ih => exact (hstep n).bounds.trans ih
  -- the values at a step solve its rows, and those of all later steps
  have hslv : ∀ m n, m ≤ n → (s n).SolvesActive (s m).assignment := by
    intro m n hmn
    induction n, hmn using Nat.le_induction with
    | base =>
      induction m with
      | zero => exact hasgn.solves
      | succ m ih => exact (hstep m).solves _ ((hstep m).assignment_solves ih)
    | succ n _ ih => exact (hstep n).solves _ ih
  have hsuit : ∀ n d, d ∈ ((s n).row (e n).row).entries →
      ((s n).entryIsSuitable settings (lower n) (e n).row d = true ↔
        0 < (s n).direction (lower n) (e n).row d.2 ∧
          BlandRule.CanIncrease (s 0).upper d.1 ((s n).assignment d.1) ∨
        (s n).direction (lower n) (e n).row d.2 < 0 ∧
          BlandRule.CanDecrease (s 0).lower d.1 ((s n).assignment d.1)) := by
    intro n d hd
    rw [← hbds n]
    exact entryIsSuitable_iff (hwf n) (hall n).wellTyped (hstep n).entry.row hd (lower n)
  have hviol := fun n => violation_eq_some (hall n).wellTyped (hstep n).violated
  simp only [hbds] at hviol
  have hcont : ∀ n, find (e n).col ((s n).row (e n).row).entries = some (a n) :=
    fun n => (hstep n).entry.content (hwf n)
  refine BlandRule.Run.absurd (show BlandRule.Run ℚ (s 0).lower (s 0).upper from
    { columns := fun n => (s n).mColumns.toFinset
      rows := fun n => (s n).mRows.toFinset
      value := fun n => (s n).assignment
      leaving := fun n => (e n).row
      entering := fun n => (e n).col
      increase := lower
      coeff := fun n j =>
        (s n).direction (lower n) (e n).row ((find j ((s n).row (e n).row).entries).getD 0)
      disjoint := ?_
      leaving_mem := fun n => mem_toFinset.mpr (hstep n).entry.row
      entering_mem := fun n => mem_toFinset.mpr ((hstep n).entry.column (hwf n))
      columns_succ := ?_
      rows_succ := ?_
      value_succ := fun n v hv => (hstep n).assignment_column v (mem_toFinset.mp hv)
      value_leaving := ?_
      violated := ?_
      leaving_least := ?_
      row := ?_
      suitable := ?_
      entering_least := ?_
      inBounds_zero := ?_ })
  case refine_1 =>
    intro n
    refine Finset.disjoint_left.mpr fun v hcol hrow => ?_
    exact (hwf n).row_not_column v (mem_toFinset.mp hrow) (mem_toFinset.mp hcol)
  case refine_2 =>
    intro n
    ext v
    rw [mem_toFinset, (hstep n).columns, Finset.mem_insert, Finset.mem_erase, mem_toFinset,
      and_comm]
  case refine_3 =>
    intro n v hv
    rw [Finset.mem_insert, mem_toFinset]
    exact (hstep n).rows v (mem_toFinset.mp hv)
  case refine_4 =>
    intro n
    have hlim := hviol n
    rw [← (hstep n).assignment_row] at hlim
    split_ifs at hlim ⊢
    · exact hlim.1
    · exact hlim.1
  case refine_5 =>
    intro n
    have hlim := hviol n
    split_ifs at hlim ⊢
    · exact hlim.2
    · exact hlim.2
  case refine_6 =>
    intro n v hv hlt
    rw [← hbds n]
    exact (violation_eq_none_iff (hall n).wellTyped).mp
      ((hstep n).row_least v (mem_toFinset.mp hv) hlt)
  case refine_7 =>
    intro n m hmn
    have hrow := (hstep n).entry.row
    have hval := row_solved (hwf n) hrow (hslv m n hmn)
    rw [eval_scale, eval_eq_sum ((hwf n).keys_nodup _ hrow) fun d hd =>
      mem_toFinset.mpr ((hwf n).key_column _ hrow d hd), Finset.smul_sum] at hval
    simp only [smul_smul] at hval
    rw [hval]
    cases lower n with
    | true => rfl
    | false =>
      simp only [direction, Bool.false_eq_true, if_false, neg_smul, Finset.sum_neg_distrib]
  case refine_8 =>
    intro n
    have hmove := (hsuit n _ (hstep n).entry.entry).mp (hstep n).suitable
    simpa only [hcont n, Option.getD_some] using hmove
  case refine_9 =>
    intro n j _ hlt
    cases hfind : find j ((s n).row (e n).row).entries with
    | none => simp [direction]
    | some k =>
      have hmem := mem_of_find hfind
      have hnot := (hsuit n _ hmem).not.mp (by
        rw [(hstep n).column_least _ hmem hlt]
        exact Bool.false_ne_true)
      obtain ⟨hincrease, hdecrease⟩ := not_or.mp hnot
      exact ⟨fun hpos hmove => hincrease ⟨hpos, hmove⟩, fun hneg hmove => hdecrease ⟨hneg, hmove⟩⟩
  case refine_10 =>
    intro v hv
    exact (violation_eq_none_iff hsrch.wellTyped).mp (hasgn.nonbasic v (mem_toFinset.mp hv))

/-! ## The loop -/

/-- The loop of `LRAModule::checkCore` as long as no bound changes: pivoting steps at the choice of
the search, until this reports a conflict or that no bound is violated. -/
def pivotLoop (settings : TableauSettings) : ℕ → Tableau → Option ((Option EntryID × Bool) × Tableau)
  | 0, _ => none
  | n + 1, t =>
    match t.nextPivotingElement settings with
    | ((some e, true), t) => pivotLoop settings n (t.pivot settings e)
    | result => some result

/-- The tableau after a turn of the loop. -/
def afterTurn (settings : TableauSettings) (t : Tableau) : Tableau :=
  match t.nextPivotingElement settings with
  | ((some e, true), t) => t.pivot settings e
  | _ => t

theorem pivotLoop_eq_none {n : ℕ} (h : t.pivotLoop settings n = none) : ∀ k < n, ∃ e t',
    ((afterTurn settings)^[k] t).nextPivotingElement settings = ((some e, true), t') := by
  induction n generalizing t with
  | zero => exact fun k hk => absurd hk k.not_lt_zero
  | succ n ih =>
    rw [pivotLoop] at h
    split at h
    · next e t' hnext =>
      have hturn : afterTurn settings t = t'.pivot settings e := by rw [afterTurn, hnext]
      intro k hk
      cases k with
      | zero => exact ⟨e, t', hnext⟩
      | succ k =>
        rw [Function.iterate_succ_apply, hturn]
        exact ih h k (Nat.lt_of_succ_lt_succ hk)
    · cases h

/-- The answer of the loop: no active variable violates a bound, or a row is in conflict. -/
theorem pivotLoop_result {n : ℕ} {result : Option EntryID × Bool}
    (hsrch : t.Searching settings) (h : t.pivotLoop settings n = some (result, t')) :
    result = (none, true) ∧ (∀ v ∈ t'.mRows, t'.violation v = none) ∨
      ∃ e, result = (some e, false) ∧ ConflictingRow settings t' e.row := by
  induction n generalizing t with
  | zero => cases h
  | succ n ih =>
    rw [pivotLoop] at h
    split at h
    · next e t₁ hnext =>
      obtain ⟨a, thetaB, lower, hstep⟩ := hsrch.blandStep hnext
      exact ih hstep.searching h
    · next hnot =>
      have hres := Option.some.inj h
      clear h
      rw [nextPivotingElement, if_neg (not_lt.mpr hsrch.bland), findPivotBland] at hres hnot
      split at hres
      · next e herror =>
        cases hres
        obtain ⟨v, hv, thetaB, lower, hviol, hnone, rfl⟩ := findCandidate_error herror
        have hbasic : t'.isBasic v = true :=
          decide_eq_true (hsrch.correct.row_not_column v hv)
        obtain ⟨d, es, hents⟩ :=
          exists_cons_of_ne_nil (entries_ne_nil hsrch.correct hv)
        refine .inr ⟨⟨v, d.1⟩, ?_, hv, thetaB, lower, hviol, isSuitable_eq_none hbasic hv hnone⟩
        rw [startEntry, if_pos hbasic, if_pos hv, hents]
        rfl
      · next best hbest =>
        rw [hbest] at hnot
        exact absurd rfl (hnot _ _)
      · next hbest =>
        cases hres
        exact .inl ⟨rfl, (findCandidate_none hbest).2⟩

/-- With Bland's rule the loop ends after finitely many pivoting steps. -/
theorem pivotLoop_terminates (settings : TableauSettings) (t : Tableau)
    (hs : t.Correct settings.omit_division) (htyped : t.toBounds.WellTyped)
    (hassign : t.AssignmentCorrect) (hbland : t.mMaxPivotsWithoutBlandsRule ≤ t.mPivotingSteps) :
    ∃ n result t', t.pivotLoop settings n = some (result, t') ∧
      (result = (none, true) ∧ (∀ v ∈ t'.mRows, t'.violation v = none) ∨
        ∃ e, result = (some e, false) ∧ ConflictingRow settings t' e.row) := by
  have hsrch : t.Searching settings := ⟨hs, htyped, hbland⟩
  by_cases hends : ∃ n, t.pivotLoop settings n ≠ none
  · obtain ⟨n, hn⟩ := hends
    obtain ⟨⟨result, t'⟩, hres⟩ := Option.ne_none_iff_exists'.mp hn
    exact ⟨n, result, t', hres, pivotLoop_result hsrch hres⟩
  · push Not at hends
    have hnext : ∀ k, ∃ e t', ((afterTurn settings)^[k] t).nextPivotingElement settings =
        ((some e, true), t') := fun k => pivotLoop_eq_none (hends (k + 1)) k k.lt_succ_self
    have hturn : ∀ k, ((afterTurn settings)^[k] t).Searching settings →
        ∃ e a thetaB lower, BlandStep settings ((afterTurn settings)^[k] t) e a thetaB lower
          ((afterTurn settings)^[k + 1] t) := by
      intro k hk
      obtain ⟨e, t', he⟩ := hnext k
      obtain ⟨a, thetaB, lower, hstep⟩ := hk.blandStep he
      have heq : (afterTurn settings)^[k + 1] t = t'.pivot settings e := by
        rw [Function.iterate_succ_apply', afterTurn, he]
      exact ⟨e, a, thetaB, lower, heq ▸ hstep⟩
    have hall : ∀ k, ((afterTurn settings)^[k] t).Searching settings := by
      intro k
      induction k with
      | zero => exact hsrch
      | succ k ih =>
        obtain ⟨e, a, thetaB, lower, hstep⟩ := hturn k ih
        exact hstep.searching
    choose e a thetaB lower hstep using fun k => hturn k (hall k)
    exact (not_pivots_forever (s := fun k => (afterTurn settings)^[k] t) hsrch hassign hstep).elim

/-- The constraint `2x + 3y - 6 ≥ 0`. -/
def sampleLowerConstraint : LinearConstraint :=
  ⟨sampleForm, -6, .geq, integral_sampleForm⟩

/-- The tableau in which the slack variable of `2x + 3y` violates its lower bound. -/
def sampleViolated : Tableau :=
  ((empty sampleForm).newBound sampleLowerConstraint).activateBound TableauSettings1
    ⟨0, .lower, some ⟨6, 0⟩⟩ (.constraint sampleLowerConstraint)

theorem pivotLoop_terminates_sample : sampleViolated.pivotLoop TableauSettings1 1 = none ∧
    ∃ n result t', sampleViolated.pivotLoop TableauSettings1 n = some (result, t') ∧
      (result = (none, true) ∧ (∀ v ∈ t'.mRows, t'.violation v = none) ∨
        ∃ e, result = (some e, false) ∧ ConflictingRow TableauSettings1 t' e.row) := by
  have hcorr : sampleViolated.Correct TableauSettings1.omit_division :=
    activateBound_correct (newBound_correct (empty_correct _) _) _ _
  have htyp : sampleViolated.toBounds.WellTyped :=
    activateBound_wellTyped (newBound_wellTyped Bounds.wellTyped_empty _) _ _
  have hasgn : sampleViolated.AssignmentCorrect := by
    refine ⟨?_, by decide +kernel⟩
    show ∀ v ∈ sampleViolated.mRows, (sampleViolated.row v).factor • sampleViolated.assignment v =
      eval sampleViolated.assignment (sampleViolated.row v).entries
    decide +kernel
  have hfst : (sampleViolated.pivotLoop TableauSettings1 1).isNone = true := by decide +kernel
  refine ⟨Option.isNone_iff_eq_none.mp hfst, ?_⟩
  exact pivotLoop_terminates TableauSettings1 sampleViolated hcorr htyp hasgn (by decide +kernel)

end Tableau

end Smtrat.LRA
