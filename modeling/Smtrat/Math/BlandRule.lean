import Mathlib

/-!
# Bland's rule

A tableau solves some of its variables, those of its rows, for the others, those of its columns.
In a step the smallest row variable that violates a bound is moved to this bound, and exchanged with
the smallest column variable of its row that can move far enough in a small step.  Rows may be
dropped on the way.  If no column variable violates a bound in the beginning, there are only finitely
many steps.
-/

namespace BlandRule

open Filter

variable {V K M : Type*}

/-! ## Bounds -/

section Bounds

variable [LinearOrder M] (lower : V → WithBot M) (upper : V → WithTop M) (v : V) (x : M)

/-- The value violates no bound. -/
def InBounds : Prop := lower v ≤ x ∧ x ≤ upper v

def CanIncrease : Prop := x < upper v

def CanDecrease : Prop := lower v < x

/-- The value can neither increase nor decrease. -/
def Fixed : Prop := ¬ CanIncrease upper v x ∧ ¬ CanDecrease lower v x

variable {lower upper v x}

/-- At one of its bounds a variable is in its bounds or cannot move. -/
theorem inBounds_or_fixed_of_eq_lower (h : (x : WithBot M) = lower v) :
    InBounds lower upper v x ∨ Fixed lower upper v x := by
  by_cases hle : (x : WithTop M) ≤ upper v
  · exact .inl ⟨h.ge, hle⟩
  · exact .inr ⟨(not_le.mp hle).not_gt, fun hlt => hlt.ne' h⟩

theorem inBounds_or_fixed_of_eq_upper (h : (x : WithTop M) = upper v) :
    InBounds lower upper v x ∨ Fixed lower upper v x := by
  by_cases hle : lower v ≤ (x : WithBot M)
  · exact .inl ⟨hle, h.le⟩
  · exact .inr ⟨fun hlt => hlt.ne h, (not_le.mp hle).not_gt⟩

end Bounds

variable [LinearOrder V] [Field K] [LinearOrder K] [AddCommGroup M] [LinearOrder M] [Module K M]

/-! ## Runs -/

/-- An infinite run.  The coefficients are those of the row of the variable that leaves, or of its
negation if this variable has to decrease. -/
structure Run (K : Type*) [Field K] [LinearOrder K] [Module K M] (lower : V → WithBot M)
    (upper : V → WithTop M) where
  columns : ℕ → Finset V
  rows : ℕ → Finset V
  value : ℕ → V → M
  leaving : ℕ → V
  entering : ℕ → V
  increase : ℕ → Bool
  coeff : ℕ → V → K
  disjoint : ∀ n, Disjoint (columns n) (rows n)
  leaving_mem : ∀ n, leaving n ∈ rows n
  entering_mem : ∀ n, entering n ∈ columns n
  columns_succ : ∀ n, columns (n + 1) = insert (leaving n) ((columns n).erase (entering n))
  rows_succ : ∀ n, rows (n + 1) ⊆ insert (entering n) (rows n)
  value_succ : ∀ n, ∀ v ∈ columns n, v ≠ entering n → value (n + 1) v = value n v
  value_leaving : ∀ n, if increase n then (value (n + 1) (leaving n) : WithBot M) = lower (leaving n)
    else (value (n + 1) (leaving n) : WithTop M) = upper (leaving n)
  violated : ∀ n, if increase n then (value n (leaving n) : WithBot M) < lower (leaving n)
    else upper (leaving n) < (value n (leaving n) : WithTop M)
  leaving_least : ∀ n, ∀ v ∈ rows n, v < leaving n → InBounds lower upper v (value n v)
  row : ∀ n, ∀ m ≤ n, (if increase n then value m (leaving n) else -value m (leaving n)) =
    ∑ j ∈ columns n, coeff n j • value m j
  suitable : ∀ n, 0 < coeff n (entering n) ∧ CanIncrease upper (entering n) (value n (entering n)) ∨
    coeff n (entering n) < 0 ∧ CanDecrease lower (entering n) (value n (entering n))
  entering_least : ∀ n, ∀ j ∈ columns n, j < entering n →
    (0 < coeff n j → ¬ CanIncrease upper j (value n j)) ∧
      (coeff n j < 0 → ¬ CanDecrease lower j (value n j))
  inBounds_zero : ∀ v ∈ columns 0, InBounds lower upper v (value 0 v)

namespace Run

variable {lower : V → WithBot M} {upper : V → WithTop M} (R : Run K lower upper)

/-- The variable is exchanged in the step. -/
def Pivoted (n : ℕ) (v : V) : Prop := v = R.leaving n ∨ v = R.entering n

variable {v : V} {n : ℕ}

theorem mem_columns_succ :
    v ∈ R.columns (n + 1) ↔ v = R.leaving n ∨ v ≠ R.entering n ∧ v ∈ R.columns n := by
  rw [R.columns_succ, Finset.mem_insert, Finset.mem_erase]

theorem not_mem_columns (hv : v ∈ R.rows n) : v ∉ R.columns n :=
  fun hcol => Finset.disjoint_left.mp (R.disjoint n) hcol hv

theorem leaving_ne_entering (n : ℕ) : R.leaving n ≠ R.entering n := by
  intro heq
  exact R.not_mem_columns (R.leaving_mem n) (heq ▸ R.entering_mem n)

/-- A variable of a column is in its bounds or cannot move. -/
theorem placed (n : ℕ) : ∀ v ∈ R.columns n,
    InBounds lower upper v (R.value n v) ∨ Fixed lower upper v (R.value n v) := by
  induction n with
  | zero => exact fun v hv => .inl (R.inBounds_zero v hv)
  | succ n ih =>
    intro v hv
    rcases R.mem_columns_succ.mp hv with rfl | ⟨hne, hv⟩
    · have hleave := R.value_leaving n
      split_ifs at hleave
      · exact inBounds_or_fixed_of_eq_lower hleave
      · exact inBounds_or_fixed_of_eq_upper hleave
    · rw [R.value_succ n v hv hne]
      exact ih v hv

/-- Where a variable is not exchanged, it stays in the columns with its value. -/
theorem stays {m : ℕ} (hmn : m ≤ n) (h : ∀ k, m ≤ k → k < n → ¬ R.Pivoted k v) :
    (v ∈ R.columns n ↔ v ∈ R.columns m) ∧ (v ∈ R.columns m → R.value n v = R.value m v) := by
  induction n, hmn using Nat.le_induction with
  | base => exact ⟨Iff.rfl, fun _ => rfl⟩
  | succ n hmn ih =>
    obtain ⟨hmem, hval⟩ := ih fun k hk hkn => h k hk (hkn.trans (Nat.lt_succ_self n))
    obtain ⟨hleave, henter⟩ := not_or.mp (h n hmn (Nat.lt_succ_self n))
    refine ⟨?_, fun hv => ?_⟩
    · rw [R.mem_columns_succ, or_iff_right hleave, and_iff_right henter, hmem]
    · rw [R.value_succ n v (hmem.mpr hv) henter, hval hv]

/-- The variables in use are among those of every step before. -/
theorem mem_of_mem {m : ℕ} (hmn : m ≤ n) (h : v ∈ R.columns n ∨ v ∈ R.rows n) :
    v ∈ R.columns m ∨ v ∈ R.rows m := by
  induction n, hmn using Nat.le_induction with
  | base => exact h
  | succ n hmn ih =>
    apply ih
    rcases h with h | h
    · rcases R.mem_columns_succ.mp h with rfl | ⟨-, h⟩
      · exact .inr (R.leaving_mem n)
      · exact .inl h
    · rcases Finset.mem_insert.mp (R.rows_succ n h) with rfl | h
      · exact .inl (R.entering_mem n)
      · exact .inr h

/-! ## Variables that are exchanged infinitely often -/

/-- The next step that exchanges the variable. -/
theorem exists_next (h : ∃ᶠ n in atTop, R.Pivoted n v) (n : ℕ) :
    ∃ m ≥ n, R.Pivoted m v ∧ ∀ k, n ≤ k → k < m → ¬ R.Pivoted k v := by
  classical
  have hex : ∃ m, n ≤ m ∧ R.Pivoted m v := frequently_atTop.mp h n
  refine ⟨Nat.find hex, (Nat.find_spec hex).1, (Nat.find_spec hex).2, fun k hk hlt hp => ?_⟩
  exact Nat.find_min hex hlt ⟨hk, hp⟩

/-- Such a variable is in its bounds whenever it is in a column. -/
theorem inBounds_of_frequently (h : ∃ᶠ n in atTop, R.Pivoted n v)
    (hv : v ∈ R.columns n) : InBounds lower upper v (R.value n v) := by
  refine (R.placed n v hv).resolve_right fun hfixed => ?_
  obtain ⟨m, hm, hpiv, hbetw⟩ := R.exists_next h n
  obtain ⟨hmem, hval⟩ := R.stays hm hbetw
  have hcol : v ∈ R.columns m := hmem.mpr hv
  have henter : v = R.entering m := by
    refine hpiv.resolve_left ?_
    rintro rfl
    exact R.not_mem_columns (R.leaving_mem m) hcol
  have hsuit := R.suitable m
  rw [← henter, hval hv] at hsuit
  rcases hsuit with ⟨-, hmove⟩ | ⟨-, hmove⟩
  · exact hfixed.1 hmove
  · exact hfixed.2 hmove

/-- The greatest of these variables leaves, and later enters again. -/
theorem exists_leaving_entering {r : V} (h : ∃ᶠ n in atTop, R.Pivoted n r) (N : ℕ) :
    ∃ S T, N ≤ S ∧ S < T ∧ R.leaving S = r ∧ R.entering T = r ∧
      ∀ k, S < k → k < T → ¬ R.Pivoted k r := by
  -- a variable that leaves is in a column until it is exchanged again
  have hnext : ∀ S, R.leaving S = r → ∃ T, S < T ∧ R.entering T = r ∧
      ∀ k, S < k → k < T → ¬ R.Pivoted k r := by
    intro S hS
    obtain ⟨T, hT, hpiv, hbetw⟩ := R.exists_next h (S + 1)
    have hcol : r ∈ R.columns T := (R.stays hT hbetw).1.mpr (R.mem_columns_succ.mpr (.inl hS.symm))
    refine ⟨T, hT, (hpiv.resolve_left ?_).symm, hbetw⟩
    rintro rfl
    exact R.not_mem_columns (R.leaving_mem T) hcol
  obtain ⟨n, hn, hpiv, -⟩ := R.exists_next h N
  rcases hpiv with hleave | henter
  · obtain ⟨T, hT, henter, hbetw⟩ := hnext n hleave.symm
    exact ⟨n, T, hn, hT, hleave.symm, henter, hbetw⟩
  · obtain ⟨S, hS, hpiv, hbetw⟩ := R.exists_next h (n + 1)
    have hnot : r ∉ R.columns (n + 1) := by
      rw [R.mem_columns_succ, henter]
      rintro (heq | ⟨hne, -⟩)
      · exact R.leaving_ne_entering n heq.symm
      · exact hne rfl
    have hleave : R.leaving S = r := by
      refine (hpiv.resolve_right ?_).symm
      rintro rfl
      exact hnot ((R.stays hS hbetw).1.mp (R.entering_mem S))
    obtain ⟨T, hT, henter, hbetw⟩ := hnext S hleave
    exact ⟨S, T, hn.trans (Nat.le_of_succ_le hS), hT, hleave, henter, hbetw⟩

/-- From some step on only variables are exchanged that are exchanged infinitely often. -/
theorem eventually_frequently :
    ∀ᶠ n in atTop, ∀ v, R.Pivoted n v → ∃ᶠ n in atTop, R.Pivoted n v := by
  have hall : ∀ᶠ n in atTop, ∀ v ∈ R.columns 0 ∪ R.rows 0, R.Pivoted n v → ∃ᶠ n in atTop, R.Pivoted n v := by
    refine (Filter.eventually_all_finset _).mpr fun v _ => ?_
    by_cases hv : ∃ᶠ n in atTop, R.Pivoted n v
    · exact Eventually.of_forall fun _ _ => hv
    · exact (not_frequently.mp hv).mono fun n hn hp => absurd hp hn
  refine hall.mono fun n hn v hp => hn v (Finset.mem_union.mpr ?_) hp
  rcases hp with rfl | rfl
  · exact R.mem_of_mem n.zero_le (.inr (R.leaving_mem n))
  · exact R.mem_of_mem n.zero_le (.inl (R.entering_mem n))

/-- The variables that are exchanged infinitely often have a greatest one. -/
theorem exists_greatest : ∃ r, (∃ᶠ n in atTop, R.Pivoted n r) ∧
    ∀ v, (∃ᶠ n in atTop, R.Pivoted n v) → v ≤ r := by
  classical
  obtain ⟨N, hN⟩ := eventually_atTop.mp R.eventually_frequently
  have hmem : ∀ v, (∃ᶠ n in atTop, R.Pivoted n v) → v ∈ R.columns 0 ∪ R.rows 0 := by
    intro v hv
    obtain ⟨n, -, hp⟩ := frequently_atTop.mp hv 0
    refine Finset.mem_union.mpr ?_
    rcases hp with rfl | rfl
    · exact R.mem_of_mem n.zero_le (.inr (R.leaving_mem n))
    · exact R.mem_of_mem n.zero_le (.inl (R.entering_mem n))
  have hleave : ∃ᶠ n in atTop, R.Pivoted n (R.leaving N) := hN N le_rfl _ (.inl rfl)
  obtain ⟨r, hr, hmax⟩ := Finset.exists_max_image
    ((R.columns 0 ∪ R.rows 0).filter fun v => ∃ᶠ n in atTop, R.Pivoted n v) id
    ⟨R.leaving N, Finset.mem_filter.mpr ⟨hmem _ hleave, hleave⟩⟩
  exact ⟨r, (Finset.mem_filter.mp hr).2, fun v hv => hmax v (Finset.mem_filter.mpr ⟨hmem v hv, hv⟩)⟩

/-! ## Termination -/

variable [IsStrictOrderedRing K] [IsOrderedAddMonoid M] [PosSMulStrictMono K M]

/-- Between the two steps the greatest variable has moved against the row in which it enters. -/
theorem entering_neg {S T : ℕ} (hST : S < T) (hr : R.leaving S = R.entering T)
    (hbetw : ∀ k, S < k → k < T → ¬ R.Pivoted k (R.entering T)) :
    R.coeff T (R.entering T) • (R.value S (R.entering T) - R.value T (R.entering T)) < 0 := by
  have hcol : R.entering T ∈ R.columns (S + 1) := R.mem_columns_succ.mpr (.inl hr.symm)
  have hval : R.value T (R.entering T) = R.value (S + 1) (R.entering T) :=
    (R.stays hST hbetw).2 hcol
  have hleave := R.value_leaving S
  have hviol := R.violated S
  have hsuit := R.suitable T
  rw [hr, ← hval] at hleave
  rw [hr] at hviol
  cases hdir : R.increase S with
  | true =>
    rw [hdir, if_pos rfl] at hleave hviol
    -- at its lower bound the variable can only increase
    have hpos : 0 < R.coeff T (R.entering T) := by
      rcases hsuit with ⟨hpos, -⟩ | ⟨-, hmove⟩
      · exact hpos
      · exact absurd hleave hmove.ne'
    have hlt : R.value S (R.entering T) < R.value T (R.entering T) := by
      rw [← hleave] at hviol
      exact WithBot.coe_lt_coe.mp hviol
    exact smul_neg_of_pos_of_neg hpos (sub_neg.mpr hlt)
  | false =>
    rw [hdir, if_neg Bool.false_ne_true] at hleave hviol
    have hneg : R.coeff T (R.entering T) < 0 := by
      rcases hsuit with ⟨-, hmove⟩ | ⟨hneg, -⟩
      · exact absurd hleave hmove.ne
      · exact hneg
    have hlt : R.value T (R.entering T) < R.value S (R.entering T) := by
      rw [← hleave] at hviol
      exact WithTop.coe_lt_coe.mp hviol
    rw [← neg_smul_neg]
    exact smul_neg_of_pos_of_neg (neg_pos.mpr hneg) (neg_neg_of_pos (sub_pos.mpr hlt))

/-- A smaller variable that was in its bounds has not moved along the row. -/
theorem smaller_nonpos {S T : ℕ} {j : V} (hj : j ∈ R.columns T) (hlt : j < R.entering T)
    (hS : InBounds lower upper j (R.value S j)) :
    R.coeff T j • (R.value S j - R.value T j) ≤ 0 := by
  obtain ⟨hpos, hneg⟩ := R.entering_least T j hj hlt
  rcases lt_trichotomy (R.coeff T j) 0 with hcoeff | hcoeff | hcoeff
  · have hle : R.value T j ≤ R.value S j := WithBot.coe_le_coe.mp ((not_lt.mp (hneg hcoeff)).trans hS.1)
    rw [← neg_smul_neg]
    exact smul_nonpos_of_nonneg_of_nonpos (neg_pos.mpr hcoeff).le (neg_nonpos.mpr (sub_nonneg.mpr hle))
  · rw [hcoeff, zero_smul]
  · have hle : R.value S j ≤ R.value T j := WithTop.coe_le_coe.mp (hS.2.trans (not_lt.mp (hpos hcoeff)))
    exact smul_nonpos_of_nonneg_of_nonpos hcoeff.le (sub_nonpos.mpr hle)

/-- There is no infinite run. -/
theorem absurd (R : Run K lower upper) : False := by
  obtain ⟨N, hN⟩ := eventually_atTop.mp R.eventually_frequently
  obtain ⟨r, hr, hmax⟩ := R.exists_greatest
  obtain ⟨S, T, hS, hST, hleave, henter, hbetw⟩ := R.exists_leaving_entering hr N
  have hT : N ≤ T := hS.trans hST.le
  -- at the first step smaller variables are in their bounds
  have hinBounds : ∀ j, (∃ᶠ n in atTop, R.Pivoted n j) → j < r → j ∈ R.columns S ∨ j ∈ R.rows S →
      InBounds lower upper j (R.value S j) := by
    intro j hj hlt hact
    rcases hact with hcol | hrow
    · exact R.inBounds_of_frequently hj hcol
    · exact R.leaving_least S j hrow (hleave ▸ hlt)
  have hterm : ∀ j ∈ R.columns T, R.coeff T j • (R.value S j - R.value T j) ≤ 0 := by
    intro j hj
    by_cases hfreq : ∃ᶠ n in atTop, R.Pivoted n j
    · rcases (hmax j hfreq).lt_or_eq with hlt | rfl
      · exact R.smaller_nonpos hj (henter ▸ hlt) (hinBounds j hfreq hlt (R.mem_of_mem hST.le (.inl hj)))
      · rw [← henter] at hleave hbetw ⊢
        exact (R.entering_neg hST hleave hbetw).le
    · obtain ⟨hmem, hval⟩ := R.stays hST.le fun k hk _ hp => hfreq (hN k (hS.trans hk) j hp)
      rw [hval (hmem.mp hj), sub_self, smul_zero]
  have hsum : ∑ j ∈ R.columns T, R.coeff T j • (R.value S j - R.value T j) < 0 := by
    refine Finset.sum_neg' hterm ⟨r, henter ▸ R.entering_mem T, ?_⟩
    rw [← henter] at hleave hbetw ⊢
    exact R.entering_neg hST hleave hbetw
  -- so the variable that leaves at the second step violated the same bound at the first
  have hrow : (if R.increase T then R.value S (R.leaving T) - R.value T (R.leaving T)
      else R.value T (R.leaving T) - R.value S (R.leaving T)) < 0 := by
    have hrowS := R.row T S hST.le
    have hrowT := R.row T T le_rfl
    simp only [smul_sub, Finset.sum_sub_distrib, ← hrowS, ← hrowT] at hsum
    cases hdir : R.increase T with
    | true => simpa [hdir] using hsum
    | false => simpa [hdir, neg_sub_neg] using hsum
  have hi : ∃ᶠ n in atTop, R.Pivoted n (R.leaving T) := hN T hT _ (.inl rfl)
  have hlt : R.leaving T < r := by
    refine (hmax _ hi).lt_of_ne ?_
    rw [← henter]
    exact R.leaving_ne_entering T
  have hbds := hinBounds _ hi hlt (R.mem_of_mem hST.le (.inr (R.leaving_mem T)))
  have hviol := R.violated T
  cases hdir : R.increase T with
  | true =>
    rw [hdir, if_pos rfl] at hrow hviol
    have hle := WithBot.coe_lt_coe.mp (hviol.trans_le hbds.1)
    exact (sub_neg.mp hrow).not_gt hle
  | false =>
    rw [hdir, if_neg Bool.false_ne_true] at hrow hviol
    have hle := WithTop.coe_lt_coe.mp (hbds.2.trans_lt hviol)
    exact (sub_neg.mp hrow).not_gt hle

end Run

end BlandRule
