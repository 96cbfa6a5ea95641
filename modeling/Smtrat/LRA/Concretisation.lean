import Smtrat.LRA.TableauRuns

/-!
# Rational assignments

The values of a tableau have infinitesimal parts.  `getRationalAssignment` replaces the
infinitesimal by a positive number that is small enough for the supremum and the infimum of every
active variable.  The rows then determine rational values of all active variables, and these meet
all active bounds.
-/

namespace Smtrat.LRA

open Combination Run List Function Option

/-! ## Numbers for the infinitesimal -/

variable {δ : ℚ}

namespace Value

/-- The number a value becomes when the infinitesimal is replaced by `δ`. -/
def concretise (δ : ℚ) : Value ℚ →ₗ[ℚ] ℚ where
  toFun a := a.mainPart + a.deltaPart * δ
  map_add' a b := by
    simp only [mainPart_add, deltaPart_add]
    ring
  map_smul' k a := by
    simp only [mainPart_smul, deltaPart_smul, smul_eq_mul, RingHom.id_apply]
    ring

theorem concretise_apply (δ : ℚ) (a : Value ℚ) :
    concretise δ a = a.mainPart + a.deltaPart * δ := rfl

/-- A number is small enough for two values in order if it is up to where the lower value would
pass the other one. -/
theorem concretise_le (hδ : 0 < δ) {a b : Value ℚ} (hab : a ≤ b)
    (hsmall : a.mainPart < b.mainPart → b.deltaPart < a.deltaPart →
      δ ≤ (b.mainPart - a.mainPart) / (a.deltaPart - b.deltaPart)) :
    concretise δ a ≤ concretise δ b := by
  rw [concretise_apply, concretise_apply]
  rcases hab with hmain | ⟨hmain, hdelta⟩
  · by_cases hdelta : b.deltaPart < a.deltaPart
    · have hbd := (le_div_iff₀ (sub_pos.mpr hdelta)).mp (hsmall hmain hdelta)
      linarith
    · have hmul := mul_le_mul_of_nonneg_right (not_lt.mp hdelta) hδ.le
      linarith
  · rw [hmain]
    exact add_le_add_right (mul_le_mul_of_nonneg_right hdelta hδ.le) _

end Value

variable {l : Value ℚ}

namespace Bound

/-- The bound is satisfied by a rational value of its variable. -/
def SatisfiedBy (b : Bound) (x : ℚ) : Prop :=
  match b.limit with
  | none => True
  | some l =>
    match b.type with
    | .upper => if l.deltaPart = 0 then x ≤ l.mainPart else x < l.mainPart
    | .lower => if l.deltaPart = 0 then l.mainPart ≤ x else l.mainPart < x
    | .equal => x = l.mainPart

/-- A value up to a stronger upper limit is below the limit, strictly if the limit is strict. -/
theorem below_of_le {x : ℚ} (hδ : 0 < δ) {k : Value ℚ} (hx : x ≤ Value.concretise δ k)
    (hk : k.deltaPart ≤ 0) (hkl : k ≤ l) :
    x ≤ l.mainPart ∧ (l.deltaPart < 0 → x < l.mainPart) := by
  have hle : x ≤ k.mainPart :=
    hx.trans (add_le_of_nonpos_right (mul_nonpos_of_nonpos_of_nonneg hk hδ.le))
  rcases hkl with hmain | ⟨hmain, hdelta⟩
  · exact ⟨(hle.trans_lt hmain).le, fun _ => hle.trans_lt hmain⟩
  · rw [← hmain]
    refine ⟨hle, fun hl => hx.trans_lt ?_⟩
    exact add_lt_of_neg_right _ (mul_neg_of_neg_of_pos (hdelta.trans_lt hl) hδ)

theorem above_of_ge {x : ℚ} (hδ : 0 < δ) {k : Value ℚ} (hx : Value.concretise δ k ≤ x)
    (hk : 0 ≤ k.deltaPart) (hkl : l ≤ k) :
    l.mainPart ≤ x ∧ (0 < l.deltaPart → l.mainPart < x) := by
  have hle : k.mainPart ≤ x :=
    (le_add_of_nonneg_right (mul_nonneg hk hδ.le)).trans hx
  rcases hkl with hmain | ⟨hmain, hdelta⟩
  · exact ⟨(hmain.trans_le hle).le, fun _ => hmain.trans_le hle⟩
  · rw [hmain]
    refine ⟨hle, fun hl => lt_of_lt_of_le ?_ hx⟩
    exact lt_add_of_pos_right _ (mul_pos (hl.trans_le hdelta) hδ)

end Bound

namespace Tableau

section RationalAssignment

variable (t : Tableau)

/-- The value of `mCurDelta` in `adaptDelta`, where the assignment would pass the bound for a
larger `δ`. -/
def curDelta (v : VarId) (upperBound : Bool) : Option ℚ :=
  let assValue := t.assignment v
  let bound := if upperBound then t.supremum v else t.infimum v
  match bound.limit with
  | none => none
  | some limit =>
    if upperBound && assValue.mainPart < limit.mainPart && limit.deltaPart < assValue.deltaPart ||
        !upperBound && limit.mainPart < assValue.mainPart &&
          assValue.deltaPart < limit.deltaPart then
      if upperBound then
        some ((limit.mainPart - assValue.mainPart) / (assValue.deltaPart - limit.deltaPart))
      else some ((assValue.mainPart - limit.mainPart) / (limit.deltaPart - assValue.deltaPart))
    else none

/-- `Tableau::adaptDelta`.  A negative number stands for no restriction. -/
def adaptDelta (v : VarId) (upperBound : Bool) (minDelta : ℚ) : ℚ :=
  match t.curDelta v upperBound with
  | none => minDelta
  | some mCurDelta => if minDelta < 0 ∨ mCurDelta < minDelta then mCurDelta else minDelta

/-- The loops of `getRationalAssignment` over the non-basic and the basic variables. -/
def minDelta (minDelta : ℚ) (vs : List VarId) : ℚ :=
  vs.foldl (fun minDelta v => t.adaptDelta v true (t.adaptDelta v false minDelta)) minDelta

/-- `getSingleVariable` of the expression of an original variable. -/
def singleVariable (v : VarId) : Var :=
  ((t.expression v).terms.head (t.expression v).terms_ne_nil).1

/-- Insertion of the values of the original variables among `vs`.  An entry that exists is kept. -/
def insertValues (mCurDelta : ℚ) (result : Var → Option ℚ) (vs : List VarId) : Var → Option ℚ :=
  vs.foldl (fun result v =>
    if t.isOriginal v && (result (t.singleVariable v)).isNone then
      update result (t.singleVariable v)
        (some ((t.assignment v).mainPart + (t.assignment v).deltaPart * mCurDelta))
    else result) result

/-- `Tableau::getRationalAssignment`, with `mCurDelta` and the values of the input's variables. -/
def getRationalAssignment : ℚ × (Var → Option ℚ) :=
  let minDelta := t.minDelta (t.minDelta (-1) t.mColumns) t.mRows
  let mCurDelta := if minDelta < 0 then 1 else minDelta
  (mCurDelta, t.insertValues mCurDelta
    (t.insertValues mCurDelta (fun _ => none) t.mColumns) t.mRows)

end RationalAssignment

variable {settings : TableauSettings} {t : Tableau}

/-! ### The choice of the number -/

variable {v : VarId}

theorem curDelta_pos {upperBound : Bool} {k : ℚ}
    (h : t.curDelta v upperBound = some k) : 0 < k := by
  rw [curDelta] at h
  split at h
  · cases h
  · cases upperBound with
    | true =>
      simp only [Bool.true_and, Bool.not_true, Bool.false_and, Bool.or_false, if_true,
        ite_none_right_eq_some, Bool.and_eq_true, decide_eq_true_eq,
        some.injEq] at h
      obtain ⟨⟨hmain, hdelta⟩, rfl⟩ := h
      exact div_pos (sub_pos.mpr hmain) (sub_pos.mpr hdelta)
    | false =>
      simp only [Bool.false_and, Bool.not_false, Bool.true_and, Bool.false_or,
        Bool.false_eq_true, if_false, ite_none_right_eq_some, Bool.and_eq_true,
        decide_eq_true_eq, some.injEq] at h
      obtain ⟨⟨hmain, hdelta⟩, rfl⟩ := h
      exact div_pos (sub_pos.mpr hmain) (sub_pos.mpr hdelta)

/-- A number is no restriction, or positive and at most `k`. -/
def Restricts (d k : ℚ) : Prop := 0 < d ∧ d ≤ k

/-- Restrictions are only tightened. -/
theorem adaptDelta_spec (v : VarId) (upperBound : Bool) {d : ℚ} (hd : d < 0 ∨ 0 < d) :
    (t.adaptDelta v upperBound d < 0 ∨ 0 < t.adaptDelta v upperBound d) ∧
      (∀ k, Restricts d k → Restricts (t.adaptDelta v upperBound d) k) ∧
      ∀ k, t.curDelta v upperBound = some k → Restricts (t.adaptDelta v upperBound d) k := by
  rw [adaptDelta]
  cases hcur : t.curDelta v upperBound with
  | none => exact ⟨hd, fun _ h => h, fun _ h => nomatch h⟩
  | some m =>
    have hm := curDelta_pos hcur
    simp only [some.injEq]
    split_ifs with hless
    · refine ⟨.inr hm, fun k hk => ⟨hm, ?_⟩, ?_⟩
      · rcases hless with hneg | hless
        · exact absurd hk.1 hneg.asymm
        · exact hless.le.trans hk.2
      · rintro k rfl
        exact ⟨hm, le_rfl⟩
    · rw [not_or] at hless
      refine ⟨hd, fun k hk => hk, ?_⟩
      rintro k rfl
      exact ⟨hd.resolve_left hless.1, not_lt.mp hless.2⟩

theorem minDelta_spec (vs : List VarId) {d : ℚ} (hd : d < 0 ∨ 0 < d) :
    (t.minDelta d vs < 0 ∨ 0 < t.minDelta d vs) ∧
      (∀ k, Restricts d k → Restricts (t.minDelta d vs) k) ∧
      ∀ v ∈ vs, ∀ upperBound k, t.curDelta v upperBound = some k →
        Restricts (t.minDelta d vs) k := by
  induction vs generalizing d with
  | nil => exact ⟨hd, fun _ h => h, fun v hv => absurd hv not_mem_nil⟩
  | cons v vs ih =>
    obtain ⟨hlow, hkeep, hinf⟩ := t.adaptDelta_spec v false hd
    obtain ⟨hup, hkeep', hsup⟩ := t.adaptDelta_spec v true hlow
    obtain ⟨hrest, hkeep'', hall⟩ := ih hup
    refine ⟨hrest, fun k hk => hkeep'' k (hkeep' k (hkeep k hk)), ?_⟩
    intro w hw upperBound k hk
    rcases mem_cons.mp hw with rfl | hw
    · cases upperBound with
      | true => exact hkeep'' k (hsup k hk)
      | false => exact hkeep'' k (hkeep' k (hinf k hk))
    · exact hall w hw upperBound k hk

/-- The number is positive and within all restrictions. -/
theorem getRationalAssignment_delta : 0 < t.getRationalAssignment.1 ∧
    ∀ v, v ∈ t.mColumns ∨ v ∈ t.mRows → ∀ upperBound k, t.curDelta v upperBound = some k →
      t.getRationalAssignment.1 ≤ k := by
  obtain ⟨hcols, -, hall⟩ := t.minDelta_spec t.mColumns (d := -1) (.inl (by norm_num))
  obtain ⟨hrows, hkeep, hall'⟩ := t.minDelta_spec t.mRows hcols
  rw [getRationalAssignment]
  simp only
  split_ifs with hneg
  · refine ⟨one_pos, ?_⟩
    intro v hv upperBound k hk
    have hrestricts : Restricts (t.minDelta (t.minDelta (-1) t.mColumns) t.mRows) k := by
      rcases hv with hv | hv
      · exact hkeep k (hall v hv upperBound k hk)
      · exact hall' v hv upperBound k hk
    exact absurd hneg hrestricts.1.asymm
  · refine ⟨hrows.resolve_left hneg, ?_⟩
    intro v hv upperBound k hk
    rcases hv with hv | hv
    · exact (hkeep k (hall v hv upperBound k hk)).2
    · exact (hall' v hv upperBound k hk).2

/-! ### The values of the input's variables -/

/-- The entries of the result are the values of the input's variables. -/
def Agrees (t : Tableau) (δ : ℚ) (result : Var → Option ℚ) : Prop :=
  ∀ x y, result x = some y →
    ∃ v, t.mOriginalVars x = some v ∧ y = Value.concretise δ (t.assignment v)

theorem singleVariable_eq {x : Var} (h : t.expression v = .ofVar x) : t.singleVariable v = x := by
  simp only [singleVariable, h, LinearForm.ofVar, head_cons]

theorem insertValues_spec (h : t.Based) (δ : ℚ) {vs : List VarId}
    (hknown : ∀ v ∈ vs, t.IsKnown v) {result : Var → Option ℚ} (hres : t.Agrees δ result) :
    t.Agrees δ (t.insertValues δ result vs) ∧
      (∀ x, (result x).isSome → (t.insertValues δ result vs x).isSome) ∧
      ∀ v ∈ vs, t.isOriginal v = true →
        (t.insertValues δ result vs (t.singleVariable v)).isSome := by
  induction vs generalizing result with
  | nil => exact ⟨hres, fun _ hx => hx, fun v hv => absurd hv not_mem_nil⟩
  | cons v vs ih =>
    let result' : Var → Option ℚ :=
      if t.isOriginal v && (result (t.singleVariable v)).isNone then
        update result (t.singleVariable v)
          (some ((t.assignment v).mainPart + (t.assignment v).deltaPart * δ))
      else result
    have hagrees : t.Agrees δ result' := by
      intro x y hxy
      simp only [result'] at hxy
      split_ifs at hxy with hnew
      · rw [Bool.and_eq_true] at hnew
        obtain ⟨z, hexpr, hz⟩ := h.indexed v (hknown v mem_cons_self) hnew.1
        rw [singleVariable_eq hexpr] at hxy
        by_cases hxz : x = z
        · rw [hxz, update_self, some.injEq] at hxy
          exact ⟨v, hxz ▸ hz, hxy.symm⟩
        · exact hres x y ((update_of_ne hxz _ _).symm.trans hxy)
      · exact hres x y hxy
    have hkeep : ∀ x, (result x).isSome → (result' x).isSome := by
      intro x hx
      simp only [result']
      split_ifs
      · by_cases hxv : x = t.singleVariable v
        · rw [hxv, update_self]
          rfl
        · rwa [update_of_ne hxv]
      · exact hx
    have hself : t.isOriginal v = true → (result' (t.singleVariable v)).isSome := by
      intro horig
      simp only [result']
      split_ifs with hnew
      · rw [update_self]
        rfl
      · rw [horig, Bool.true_and, isNone_iff_eq_none, ← Ne, ne_none_iff_isSome] at hnew
        exact hnew
    obtain ⟨hrest, hkeep', hfound⟩ :=
      ih (fun w hw => hknown w (mem_cons_of_mem _ hw)) hagrees
    refine ⟨hrest, fun x hx => hkeep' x (hkeep x hx), ?_⟩
    intro w hw horig
    rcases mem_cons.mp hw with rfl | hw
    · exact hkeep' _ (hself horig)
    · exact hfound w hw horig

/-- Every variable of the input gets the value of its tableau variable. -/
theorem getRationalAssignment_value (hs : t.Correct settings.omit_division) (h : t.Based)
    {x : Var} (hx : t.mOriginalVars x = some v) : t.getRationalAssignment.2 x =
      some (Value.concretise t.getRationalAssignment.1 (t.assignment v)) := by
  have hempty : t.Agrees t.getRationalAssignment.1 fun _ => none := fun _ _ h => nomatch h
  have hcols := insertValues_spec h t.getRationalAssignment.1
    (fun v (hv : v ∈ t.mColumns) => .inl hv) hempty
  have hrows := insertValues_spec h t.getRationalAssignment.1
    (fun v (hv : v ∈ t.mRows) => .inr (.inl hv)) hcols.1
  have hsome : (t.getRationalAssignment.2 x).isSome := by
    have hsingle := singleVariable_eq (hs.original_expression x v hx)
    have horig := hs.original x v hx
    rcases hs.original_known x v hx with hv | hv | hv
    · exact hrows.2.1 x (hsingle ▸ hcols.2.2 v hv horig)
    · exact hsingle ▸ hrows.2.2 v hv horig
    · exact absurd horig (by rw [hs.inactive_not_original v hv]; decide)
  obtain ⟨y, hy⟩ := isSome_iff_exists.mp hsome
  obtain ⟨w, hw, rfl⟩ := hrows.1 x y hy
  rw [hy, some.inj (hx.symm.trans hw)]

/-! ### The values of the tableau's variables -/

/-- The value of a variable under the rational assignment. -/
def rationalValue (t : Tableau) (v : VarId) : ℚ :=
  (t.expression v).eval fun x => (t.getRationalAssignment.2 x).getD 0

theorem solvesActive_concretise {s : RowSystem} {f : VarId → Value ℚ} (h : s.SolvesActive f)
    (δ : ℚ) : s.SolvesActive fun v => Value.concretise δ (f v) :=
  fun v hv => (h v hv).map (Value.concretise δ)

/-- The rational values are the values of the tableau with a number for the infinitesimal. -/
theorem rationalValue_eq (hs : t.Correct settings.omit_division) (h : t.Based)
    (hrows : t.SolvesActive t.assignment) (hv : v ∈ t.mColumns ∨ v ∈ t.mRows) :
    t.rationalValue v = Value.concretise t.getRationalAssignment.1 (t.assignment v) := by
  obtain ⟨φ, hφ⟩ := h.free fun w => Value.concretise t.getRationalAssignment.1 (t.assignment w)
  have hact : ∀ {w : VarId}, w ∈ t.mColumns ∨ w ∈ t.mRows →
      φ (t.poly w) = Value.concretise t.getRationalAssignment.1 (t.assignment w) :=
    fun hw => (solvesActive_concretise hrows _).apply_eq hs hφ hw
  rw [← hact hv, RowSystem.poly, LinearForm.polynomial, map_eval, rationalValue, LinearForm.eval]
  apply eval_congr
  intro u hu
  have hknown : t.IsKnown v := hv.imp_right .inl
  obtain ⟨w, hw⟩ := h.covered v hknown u hu
  have hw' : w ∈ t.mColumns ∨ w ∈ t.mRows := by
    rcases hs.original_known u.1 w hw with hw' | hw' | hw'
    · exact .inl hw'
    · exact .inr hw'
    · exact absurd (hs.original u.1 w hw) (by rw [hs.inactive_not_original w hw']; decide)
  rw [getRationalAssignment_value hs h hw, getD_some, ← hact hw', RowSystem.poly,
    hs.original_expression u.1 w hw, LinearForm.polynomial_ofVar]

theorem rationalValue_solves (hs : t.Correct settings.omit_division) :
    t.Solves t.rationalValue := by
  intro v hv
  have hlin : ∀ w, t.rationalValue w = Finsupp.linearCombination ℚ
      (fun x => (t.getRationalAssignment.2 x).getD 0) (t.poly w) :=
    fun w => LinearForm.eval_eq_polynomial _ _
  rw [Row.Holds, hlin, ← map_smul, hs.solves v hv, map_eval]
  exact eval_congr fun e _ => (hlin e.1).symm

/-! ### The bounds -/

/-- A value within the supremum stays within it. -/
theorem concretise_le_supremum (hv : v ∈ t.mColumns ∨ v ∈ t.mRows)
    (hl : (t.supremum v).limit = some l) (hlim : (t.supremum v).ltValue (t.assignment v) = false) :
    Value.concretise t.getRationalAssignment.1 (t.assignment v) ≤
      Value.concretise t.getRationalAssignment.1 l := by
  obtain ⟨hδ, hsmall⟩ := t.getRationalAssignment_delta
  have hle : t.assignment v ≤ l := by
    rw [Bound.ltValue, hl] at hlim
    exact not_lt.mp (of_decide_eq_false hlim)
  refine Value.concretise_le hδ hle fun hmain hdelta => hsmall v hv true _ ?_
  rw [curDelta]
  simp only [if_true, hl]
  rw [if_pos (by simp [hmain, hdelta])]

theorem infimum_le_concretise (hv : v ∈ t.mColumns ∨ v ∈ t.mRows)
    (hl : (t.infimum v).limit = some l) (hlim : (t.infimum v).gtValue (t.assignment v) = false) :
    Value.concretise t.getRationalAssignment.1 l ≤
      Value.concretise t.getRationalAssignment.1 (t.assignment v) := by
  obtain ⟨hδ, hsmall⟩ := t.getRationalAssignment_delta
  have hle : l ≤ t.assignment v := by
    rw [Bound.gtValue, hl] at hlim
    exact not_lt.mp (of_decide_eq_false hlim)
  refine Value.concretise_le hδ hle fun hmain hdelta => hsmall v hv false _ ?_
  rw [curDelta]
  simp only [Bool.false_eq_true, if_false, hl]
  rw [if_pos (by simp [hmain, hdelta])]

variable {b : Bound}

/-- An active upper bound is met, as the supremum is. -/
theorem satisfied_upper (h : t.toBounds.Maintained t.IsKnown)
    (hv : v ∈ t.mColumns ∨ v ∈ t.mRows) (hb : b ∈ t.upperbounds v)
    (hact : t.isActive b = true) (hlim : (t.supremum v).ltValue (t.assignment v) = false) (hl : b.limit = some l) :
    Value.concretise t.getRationalAssignment.1 (t.assignment v) ≤ l.mainPart ∧ (l.deltaPart < 0 →
        Value.concretise t.getRationalAssignment.1 (t.assignment v) < l.mainPart) := by
  have hle := h.supremum_le hb hact
  obtain ⟨k, hk⟩ : ∃ k, (t.supremum v).limit = some k := by
    cases hsup : (t.supremum v).limit with
    | some k => exact ⟨k, rfl⟩
    | none => simp [Bound.upperKey, hsup, hl, Prod.Lex.toLex_le_toLex] at hle
  have hkl : k ≤ l := by
    simp only [Bound.upperKey, hk, hl, Prod.Lex.toLex_le_toLex, WithTop.coe_lt_coe,
      WithTop.coe_inj] at hle
    rcases hle with hlt | ⟨heq, -⟩
    · exact hlt.le
    · exact heq.le
  exact Bound.below_of_le t.getRationalAssignment_delta.1 (concretise_le_supremum hv hk hlim)
    ((h.signed v _ (.inl (h.supremum_mem v)) k hk).upper (h.isUpperOf (h.supremum_mem v)).side) hkl

theorem satisfied_lower (h : t.toBounds.Maintained t.IsKnown)
    (hv : v ∈ t.mColumns ∨ v ∈ t.mRows) (hb : b ∈ t.lowerbounds v)
    (hact : t.isActive b = true) (hlim : (t.infimum v).gtValue (t.assignment v) = false) (hl : b.limit = some l) :
    l.mainPart ≤ Value.concretise t.getRationalAssignment.1 (t.assignment v) ∧ (0 < l.deltaPart →
        l.mainPart < Value.concretise t.getRationalAssignment.1 (t.assignment v)) := by
  have hle := h.le_infimum hb hact
  obtain ⟨k, hk⟩ : ∃ k, (t.infimum v).limit = some k := by
    cases hinf : (t.infimum v).limit with
    | some k => exact ⟨k, rfl⟩
    | none => simp [Bound.lowerKey, hinf, hl, Prod.Lex.toLex_le_toLex] at hle
  have hkl : l ≤ k := by
    simp only [Bound.lowerKey, hk, hl, Prod.Lex.toLex_le_toLex, WithBot.coe_lt_coe,
      WithBot.coe_inj] at hle
    rcases hle with hlt | ⟨heq, -⟩
    · exact hlt.le
    · exact heq.le
  exact Bound.above_of_ge t.getRationalAssignment_delta.1 (infimum_le_concretise hv hk hlim)
    ((h.signed v _ (.inr (h.infimum_mem v)) k hk).lower (h.isLowerOf (h.infimum_mem v)).side) hkl

/-- All active bounds of an active variable are met. -/
theorem satisfied_active (h : t.toBounds.Maintained t.IsKnown)
    (hv : v ∈ t.mColumns ∨ v ∈ t.mRows) (hb : t.toBounds.Has v b)
    (hact : t.isActive b = true) (hsup : (t.supremum v).ltValue (t.assignment v) = false)
    (hinf : (t.infimum v).gtValue (t.assignment v) = false) :
    b.SatisfiedBy (Value.concretise t.getRationalAssignment.1 (t.assignment v)) := by
  cases hl : b.limit with
  | none =>
    rw [Bound.SatisfiedBy, hl]
    trivial
  | some l =>
    have hsigned := h.signed v b hb l hl
    rw [Bound.SatisfiedBy, hl]
    cases htype : b.type with
    | upper =>
      have hmem : b ∈ t.upperbounds v := by
        refine hb.resolve_right fun hlow => ?_
        have hside := (h.isLowerOf hlow).side
        rw [Bound.isLowerBound, htype] at hside
        exact Bool.noConfusion hside
      obtain ⟨hle, hlt⟩ := satisfied_upper h hv hmem hact hsup hl
      have hneg := hsigned.upper (h.isUpperOf hmem).side
      simp only
      split_ifs with hweak
      · exact hle
      · exact hlt (lt_of_le_of_ne hneg hweak)
    | lower =>
      have hmem : b ∈ t.lowerbounds v := by
        refine hb.resolve_left fun hup => ?_
        have hside := (h.isUpperOf hup).side
        rw [Bound.isUpperBound, htype] at hside
        exact Bool.noConfusion hside
      obtain ⟨hle, hlt⟩ := satisfied_lower h hv hmem hact hinf hl
      have hpos := hsigned.lower (h.isLowerOf hmem).side
      simp only
      split_ifs with hweak
      · exact hle
      · exact hlt (lt_of_le_of_ne hpos (Ne.symm hweak))
    | equal =>
      obtain ⟨hup, hlow⟩ := h.equal_mem hb htype
      exact le_antisymm (satisfied_upper h hv hup hact hsup hl).1
        (satisfied_lower h hv hlow hact hinf hl).1

/-- In a tableau whose rows hold, with all active variables within their limits, the number for
the infinitesimal is positive, and the rational values satisfy all rows and all active bounds. -/
theorem getRationalAssignment_satisfies (settings : TableauSettings) (p : LinearForm)
    (actions : List TableauAction) (t : Tableau)
    (hrun : run (step settings) (empty p) actions = some t) (assignment : VarId → Value ℚ)
    (hrows : t.SolvesActive assignment)
    (hlimits : ∀ v, v ∈ t.mColumns ∨ v ∈ t.mRows →
      (t.infimum v).gtValue (assignment v) = false ∧
        (t.supremum v).ltValue (assignment v) = false) :
    let t' : Tableau := { t with assignment }
    0 < t'.getRationalAssignment.1 ∧
      (∀ v, t.IsKnown v → ∀ u ∈ (t.expression v).terms, (t'.getRationalAssignment.2 u.1).isSome) ∧
      t.Solves t'.rationalValue ∧
      (∀ v, v ∈ t.mColumns ∨ v ∈ t.mRows → t'.rationalValue v =
        (assignment v).mainPart + (assignment v).deltaPart * t'.getRationalAssignment.1) ∧
      ∀ v b, b ∈ t.upperbounds v ∨ b ∈ t.lowerbounds v → t.isActive b = true →
        b.SatisfiedBy (t'.rationalValue v) := by
  intro t'
  have h : t'.Maintained settings := (maintained_of_run hrun).congr rfl rfl
  have hval : ∀ v, v ∈ t.mColumns ∨ v ∈ t.mRows → t'.rationalValue v =
      Value.concretise t'.getRationalAssignment.1 (assignment v) :=
    fun v hv => rationalValue_eq h.correct h.based hrows hv
  refine ⟨t'.getRationalAssignment_delta.1, ?_, rationalValue_solves h.correct, hval, ?_⟩
  · intro v hv u hu
    obtain ⟨w, hw⟩ := h.based.covered v hv u hu
    rw [getRationalAssignment_value h.correct h.based hw]
    rfl
  · intro v b hb hact
    cases hinf : b.isInfinite with
    | true =>
      rw [Bound.isInfinite, isNone_iff_eq_none] at hinf
      rw [Bound.SatisfiedBy, hinf]
      trivial
    | false =>
      have hv := h.bounded_active v (h.bounds.hasBound_of_active hb hinf hact)
      rw [hval v hv]
      exact satisfied_active h.bounds hv hb hact (hlimits v hv).2 (hlimits v hv).1

/-- The constraint `2x + 3y - 6 > 0`. -/
def strictConstraint : LinearConstraint :=
  ⟨sampleForm, -6, .greater, integral_sampleForm⟩

/-- The strict bound of `2x + 3y` is activated. -/
def strictActions : List TableauAction :=
  [.newBound strictConstraint, .activateBound ⟨0, .lower, some ⟨6, 1⟩⟩ (.constraint strictConstraint)]

/-- The values of `2x + 3y` and of `y`. -/
def strictAssignment (v : VarId) : Value ℚ :=
  if v = 0 then ⟨6, 1⟩ else if v = 2 then ⟨2, 1 / 3⟩ else 0

theorem getRationalAssignment_satisfies_strict :
    ∃ t, run (step TableauSettings1) (empty sampleForm) strictActions = some t ∧
      t.mRows = [0] ∧ t.isActive ⟨0, .lower, some ⟨6, 1⟩⟩ = true ∧
      Bound.SatisfiedBy ⟨0, .lower, some ⟨6, 1⟩⟩
        (rationalValue { t with assignment := strictAssignment } 0) := by
  have hsome : (run (step TableauSettings1) (empty sampleForm) strictActions).isSome = true := by
    decide +kernel
  obtain ⟨t, ht⟩ := isSome_iff_exists.mp hsome
  have hof : ∀ {β : Type} (f : Tableau → β) (y : β),
      (run (step TableauSettings1) (empty sampleForm) strictActions).map f = some y → f t = y := by
    intro β f y hy
    rw [ht, map_some, some.injEq] at hy
    exact hy
  have hrows : t.mRows = [0] := hof (fun t => t.mRows) _ (by decide +kernel)
  have hcols : t.mColumns = [1, 2] := hof (fun t => t.mColumns) _ (by decide +kernel)
  have hrow : t.row 0 = ⟨1, [(1, 2), (2, 3)]⟩ := hof (fun t => t.row 0) _ (by decide +kernel)
  have hact : t.isActive ⟨0, .lower, some ⟨6, 1⟩⟩ = true :=
    hof (fun t => t.isActive ⟨0, .lower, some ⟨6, 1⟩⟩) _ (by decide +kernel)
  have hlow : ⟨0, .lower, some ⟨6, 1⟩⟩ ∈ t.lowerbounds 0 := by
    have h := hof (fun t => decide (⟨0, .lower, some ⟨6, 1⟩⟩ ∈ t.lowerbounds 0)) true
      (by decide +kernel)
    exact of_decide_eq_true h
  have hlims := hof (fun t => [0, 1, 2].all fun v =>
    (t.infimum v).gtValue (strictAssignment v) == false &&
      (t.supremum v).ltValue (strictAssignment v) == false) true (by decide +kernel)
  have hsat := getRationalAssignment_satisfies TableauSettings1 sampleForm strictActions t ht
    strictAssignment
    (by
      intro v hv
      rw [hrows, mem_singleton] at hv
      rw [hv, Row.Holds, hrow]
      decide +kernel)
    (by
      intro v hv
      rw [hrows, hcols] at hv
      have hmem : v ∈ [0, 1, 2] := by
        rcases hv with hv | hv
        · exact mem_cons_of_mem _ hv
        · exact mem_cons.mpr (.inl (mem_singleton.mp hv))
      have hv' := List.all_eq_true.mp hlims v hmem
      rw [Bool.and_eq_true, beq_iff_eq, beq_iff_eq] at hv'
      exact hv')
  exact ⟨t, ht, hrows, hact, hsat.2.2.2.2 0 _ (.inr hlow) hact⟩

end Tableau

end Smtrat.LRA
