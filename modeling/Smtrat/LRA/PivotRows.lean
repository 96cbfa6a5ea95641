import Smtrat.LRA.Elimination

/-!
# A pivoting step keeps the solutions of the rows

The rows a pivoting step eliminates do not depend on each other, so the step as a whole is
described row by row: the pivoting row is solved for its new variable, the rows with an entry in
its column are eliminated, all others stay.
-/

namespace Smtrat.LRA

open Combination List Function

universe u

/-- The elements behind `c`, and then those before it in reverse, are those other than `c`. -/
theorem perm_dropWhile_takeWhile {α : Type*} [DecidableEq α] {c : α} {l : List α} (h : c ∈ l) :
    (c :: ((l.dropWhile fun v => v ≠ c).drop 1 ++ (l.takeWhile fun v => v ≠ c).reverse)).Perm l := by
  obtain ⟨d, hd⟩ : ∃ d, l.dropWhile (fun v => v ≠ c) = c :: d := by
    induction l with
    | nil => cases h
    | cons v l ih =>
      by_cases hv : v = c
      · exact ⟨l, by rw [dropWhile_cons_of_neg (by simpa using hv), hv]⟩
      · obtain ⟨d, hd⟩ := ih ((mem_cons.mp h).resolve_left (Ne.symm hv))
        exact ⟨d, by rw [dropWhile_cons_of_pos (by simpa using hv), hd]⟩
  have hl : l = (l.takeWhile fun v => v ≠ c) ++ c :: d := by
    rw [← hd, takeWhile_append_dropWhile]
  rw [hd, drop_one, tail_cons]
  calc (c :: (d ++ (l.takeWhile fun v => v ≠ c).reverse)).Perm
        (c :: (d ++ l.takeWhile fun v => v ≠ c)) :=
          ((reverse_perm _).append_left d).cons c
    _ |>.Perm ((l.takeWhile fun v => v ≠ c) ++ c :: d) := by
          rw [← cons_append]
          exact perm_append_comm
    _ |>.Perm l := by rw [← hl]

namespace RowSystem

variable {omit_division : Bool} {s : RowSystem} {r c : VarId} {a : ℚ}

theorem eliminatedRow_congr {s' : RowSystem} {i : VarId} (hi : s'.row i = s.row i)
    (hc : s'.row c = s.row c) (hcols : s'.mColumns = s.mColumns) :
    s'.eliminatedRow omit_division r c i = s.eliminatedRow omit_division r c i := by
  have hbef : s'.before = s.before := by
    funext d d'
    rw [before, before, hcols]
  simp only [eliminatedRow, content, hi, hc, hbef]

/-- The rows are eliminated independently of each other. -/
theorem foldl_eliminate {is : List VarId} (hnd : is.Nodup) (hc : c ∉ is) (s : RowSystem) :
    is.foldl (fun s i => s.eliminate omit_division r c i) s =
      { s with
        row := fun v => if v ∈ is then s.eliminatedRow omit_division r c v else s.row v } := by
  induction is generalizing s with
  | nil => simp
  | cons i is ih =>
    rw [nodup_cons] at hnd
    rw [mem_cons, not_or] at hc
    rw [foldl_cons, ih hnd.2 hc.2]
    simp only [eliminate, mk.injEq, true_and, and_true]
    funext v
    have hother : ∀ w, w ≠ i → (s.eliminate omit_division r c i).row w = s.row w :=
      fun w hw => update_of_ne hw _ _
    by_cases hvi : v = i
    · subst hvi
      rw [if_neg hnd.1, if_pos mem_cons_self]
      exact update_self v _ _
    · by_cases hv : v ∈ is
      · rw [if_pos hv, if_pos (mem_cons_of_mem _ hv)]
        exact eliminatedRow_congr (hother v hvi) (hother c hc.1) rfl
      · rw [if_neg hv, if_neg (by rw [mem_cons, not_or]; exact ⟨hvi, hv⟩)]
        exact hother v hvi

section Pivot

variable (hs : s.WellFormed omit_division) (h : s.HasEntry r c a)

include hs h

variable {v : VarId}

omit hs in
theorem mem_exchange_rows :
    v ∈ (s.exchange omit_division r c).mRows ↔ v = c ∨ v ∈ s.mRows ∧ v ≠ r := by
  show v ∈ s.mRows.map (fun v => if v = r then c else v) ↔ _
  rw [mem_map]
  constructor
  · rintro ⟨w, hw, rfl⟩
    by_cases hwr : w = r
    · exact .inl (if_pos hwr)
    · exact .inr (by rw [if_neg hwr]; exact ⟨hw, hwr⟩)
  · rintro (rfl | ⟨hv, hvr⟩)
    · exact ⟨r, h.row, if_pos rfl⟩
    · exact ⟨v, hv, if_neg hvr⟩

theorem mem_exchange_columns :
    v ∈ (s.exchange omit_division r c).mColumns ↔ v = r ∨ v ∈ s.mColumns ∧ v ≠ c := by
  show v ∈ s.mColumns.map (fun v => if v = c then r else v) ↔ _
  rw [mem_map]
  constructor
  · rintro ⟨w, hw, rfl⟩
    by_cases hwc : w = c
    · exact .inl (if_pos hwc)
    · exact .inr (by rw [if_neg hwc]; exact ⟨hw, hwc⟩)
  · rintro (rfl | ⟨hv, hvc⟩)
    · exact ⟨c, h.column hs, if_pos rfl⟩
    · exact ⟨v, hv, if_neg hvc⟩

theorem exchange_rows_nodup : (s.exchange omit_division r c).mRows.Nodup := by
  apply hs.rows_nodup.map_on
  intro v hv w hw hvw
  have hc : ∀ x ∈ s.mRows, x ≠ c := fun x hx hxc => hs.row_not_column x hx (hxc ▸ h.column hs)
  by_cases hvr : v = r <;> by_cases hwr : w = r
  · rw [hvr, hwr]
  · rw [if_pos hvr, if_neg hwr] at hvw
    exact absurd hvw.symm (hc w hw)
  · rw [if_neg hvr, if_pos hwr] at hvw
    exact absurd hvw (hc v hv)
  · rwa [if_neg hvr, if_neg hwr] at hvw

theorem exchange_columns_nodup : (s.exchange omit_division r c).mColumns.Nodup := by
  apply hs.columns_nodup.map_on
  intro v hv w hw hvw
  have hr : ∀ x ∈ s.mColumns, x ≠ r := fun x hx hxr => hs.row_not_column r h.row (hxr ▸ hx)
  by_cases hvc : v = c <;> by_cases hwc : w = c
  · rw [hvc, hwc]
  · rw [if_pos hvc, if_neg hwc] at hvw
    exact absurd hvw.symm (hr w hw)
  · rw [if_neg hvc, if_pos hwc] at hvw
    exact absurd hvw (hr v hv)
  · rwa [if_neg hvc, if_neg hwc] at hvw

omit hs h in
theorem exchange_row_self :
    (s.exchange omit_division r c).row c = s.pivotRow omit_division r c := if_pos rfl

/-- A row that is not the pivoting one, after the exchange. -/
theorem exchange_row_of_mem (hv : v ∈ s.mRows) (hvr : v ≠ r) :
    (s.exchange omit_division r c).row v = ⟨(s.row v).factor, relabel c r (s.row v).entries⟩ := by
  have hvc : v ≠ c := fun hvc => hs.row_not_column v hv (hvc ▸ h.column hs)
  exact (if_neg hvc).trans ((if_neg hvr).trans (if_pos hv))

theorem not_key_of_mem_rows (hv : v ∈ s.mRows) : r ∉ (s.row v).entries.map Prod.fst := by
  intro hr
  obtain ⟨e, he, her⟩ := mem_map.mp hr
  exact hs.row_not_column r h.row (her ▸ hs.key_column v hv e he)

/-- The pivoting row has an entry in the column of `r`. -/
theorem exists_pivotRow_entry : ∃ k, (r, k) ∈ (s.pivotRow omit_division r c).entries := by
  have hkey : r ∈ (s.pivotRow omit_division r c).entries.map Prod.fst := by
    rw [pivotRow_keys hs, mem_map]
    exact ⟨c, mem_map_of_mem h.entry, if_pos rfl⟩
  obtain ⟨e, he, rfl⟩ := mem_map.mp hkey
  exact ⟨e.2, he⟩

theorem relabel_key_iff (hv : v ∈ s.mRows) :
    r ∈ (relabel c r (s.row v).entries).map Prod.fst ↔ c ∈ (s.row v).entries.map Prod.fst := by
  rw [relabel_keys, mem_map]
  constructor
  · rintro ⟨i, hi, hir⟩
    by_cases hic : i = c
    · rwa [← hic]
    · rw [if_neg hic] at hir
      exact absurd (hir ▸ hi) (not_key_of_mem_rows hs h hv)
  · intro hc
    exact ⟨c, hc, if_pos rfl⟩

theorem mem_exchange_column : c ∈ (s.exchange omit_division r c).column r := by
  rw [column, mem_filter, content, find_isSome, exchange_row_self]
  obtain ⟨k, hk⟩ := exists_pivotRow_entry hs h
  exact ⟨(mem_exchange_rows h).mpr (.inl rfl), mem_map_of_mem hk⟩

theorem rowsToUpdate_nodup : (c :: (s.exchange omit_division r c).rowsToUpdate r c).Nodup :=
  (perm_dropWhile_takeWhile (mem_exchange_column hs h)).nodup_iff.mpr
    ((exchange_rows_nodup hs h).filter _)

/-- The rows that are eliminated: those with an entry in the pivoting column. -/
theorem mem_rowsToUpdate :
    v ∈ (s.exchange omit_division r c).rowsToUpdate r c ↔
      v ∈ s.mRows ∧ v ≠ r ∧ c ∈ (s.row v).entries.map Prod.fst := by
  have hmem : ∀ w, w ∈ (s.exchange omit_division r c).rowsToUpdate r c ↔
      w ∈ (s.exchange omit_division r c).column r ∧ w ≠ c := by
    intro w
    rw [← (perm_dropWhile_takeWhile (mem_exchange_column hs h)).mem_iff, mem_cons]
    constructor
    · intro hw
      refine ⟨.inr hw, ?_⟩
      rintro rfl
      exact (nodup_cons.mp (rowsToUpdate_nodup hs h)).1 hw
    · rintro ⟨hw, hwc⟩
      exact hw.resolve_left hwc
  rw [hmem, column, mem_filter, mem_exchange_rows h, content, find_isSome]
  constructor
  · rintro ⟨⟨hv, hkey⟩, hvc⟩
    obtain ⟨hv, hvr⟩ := hv.resolve_left hvc
    rw [exchange_row_of_mem hs h hv hvr] at hkey
    exact ⟨hv, hvr, (relabel_key_iff hs h hv).mp hkey⟩
  · rintro ⟨hv, hvr, hkey⟩
    have hvc : v ≠ c := fun hvc => hs.row_not_column v hv (hvc ▸ h.column hs)
    rw [exchange_row_of_mem hs h hv hvr]
    exact ⟨⟨.inr ⟨hv, hvr⟩, (relabel_key_iff hs h hv).mpr hkey⟩, hvc⟩

/-! ## The rows after a pivoting step -/

theorem pivot_eq : s.pivot omit_division r c = { s.exchange omit_division r c with
    row := fun v => if v ∈ (s.exchange omit_division r c).rowsToUpdate r c then
      (s.exchange omit_division r c).eliminatedRow omit_division r c v
      else (s.exchange omit_division r c).row v } := by
  have hnd := nodup_cons.mp (rowsToUpdate_nodup hs h)
  exact foldl_eliminate hnd.2 hnd.1 _

theorem mem_pivot_rows : v ∈ (s.pivot omit_division r c).mRows ↔ v = c ∨ v ∈ s.mRows ∧ v ≠ r := by
  rw [pivot_eq hs h]
  exact (mem_exchange_rows h : v ∈ (s.exchange omit_division r c).mRows ↔ _)

theorem mem_pivot_columns :
    v ∈ (s.pivot omit_division r c).mColumns ↔ v = r ∨ v ∈ s.mColumns ∧ v ≠ c := by
  rw [pivot_eq hs h]
  exact (mem_exchange_columns hs h : v ∈ (s.exchange omit_division r c).mColumns ↔ _)

theorem pivot_inactive : (s.pivot omit_division r c).mNonActiveBasics = s.mNonActiveBasics := by
  rw [pivot_eq hs h]
  rfl

theorem pivot_row_self : (s.pivot omit_division r c).row c = s.pivotRow omit_division r c := by
  rw [pivot_eq hs h]
  exact (if_neg (nodup_cons.mp (rowsToUpdate_nodup hs h)).1).trans exchange_row_self

theorem pivot_row_of_key (hv : v ∈ s.mRows) (hvr : v ≠ r)
    (hkey : c ∈ (s.row v).entries.map Prod.fst) : (s.pivot omit_division r c).row v =
      (s.exchange omit_division r c).eliminatedRow omit_division r c v := by
  rw [pivot_eq hs h]
  exact if_pos ((mem_rowsToUpdate hs h).mpr ⟨hv, hvr, hkey⟩)

/-- Rows without an entry in the pivoting column, and stored ones, stay as they are. -/
theorem pivot_row_of_not_key (hvr : v ≠ r) (hvc : v ≠ c)
    (hkey : v ∈ s.mRows → c ∉ (s.row v).entries.map Prod.fst) :
    (s.pivot omit_division r c).row v = s.row v := by
  rw [pivot_eq hs h]
  have hnot : v ∉ (s.exchange omit_division r c).rowsToUpdate r c := by
    intro hv
    obtain ⟨hv, -, hc⟩ := (mem_rowsToUpdate hs h).mp hv
    exact hkey hv hc
  refine (if_neg hnot).trans ?_
  by_cases hv : v ∈ s.mRows
  · rw [exchange_row_of_mem hs h hv hvr, relabel_eq_self (hkey hv)]
  · exact (if_neg hvc).trans ((if_neg hvr).trans (if_neg hv))

omit h in
theorem pivot_row_inactive (h : s.HasEntry r c a) (hv : v ∈ s.mNonActiveBasics) :
    (s.pivot omit_division r c).row v = s.row v := by
  apply pivot_row_of_not_key hs h
  · rintro rfl
    exact hs.inactive_not_row v hv h.row
  · rintro rfl
    exact hs.inactive_not_column v hv (h.column hs)
  · exact fun hrow => absurd hrow (hs.inactive_not_row v hv)

/-- The pivoting column can be eliminated from every other row with an entry there. -/
theorem exists_eliminable (hv : v ∈ s.mRows) (hvr : v ≠ r)
    (hkey : c ∈ (s.row v).entries.map Prod.fst) :
    ∃ b k, (c, b) ∈ (s.row v).entries ∧
      (s.exchange omit_division r c).Eliminable omit_division r c v b k := by
  obtain ⟨e, he, rfl⟩ := mem_map.mp hkey
  obtain ⟨k, hk⟩ := exists_pivotRow_entry hs h
  have hrow := exchange_row_of_mem hs h hv hvr
  refine ⟨e.2, k, he, ?_, ?_, ?_, ?_, ?_, ?_, ?_, ?_, ?_⟩
  · rw [exchange_row_self, pivotRow_keys hs, ← relabel_keys]
    exact nodup_relabel (hs.keys_nodup r h.row) (not_key_of_mem_rows hs h h.row)
  · rwa [exchange_row_self]
  · rw [exchange_row_self]
    exact pivotRow_content_ne_zero hs h
  · rw [exchange_row_self]
    exact pivotRow_factor_ne_zero hs h
  · rintro rfl
    rw [exchange_row_self]
    exact hs.factor_one rfl _ (.inl (h.column hs))
  · rw [hrow]
    exact nodup_relabel (hs.keys_nodup v hv) (not_key_of_mem_rows hs h hv)
  · rw [hrow]
    exact mem_map.mpr ⟨e, he, if_pos rfl⟩
  · rw [hrow]
    intro d hd
    obtain ⟨d', hd', rfl⟩ := mem_map.mp hd
    have hne := hs.content_ne_zero v (.inl hv) d' hd'
    split_ifs
    · exact hne
    · exact hne
  · rw [hrow]
    exact hs.factor_ne_zero v (.inl hv)

/-- Every other row is eliminated, or it stays as it is. -/
theorem pivot_row_cases (hv : s.HasRow v) (hvr : v ≠ r) :
    (∃ b k, (c, b) ∈ (s.row v).entries ∧ v ∈ s.mRows ∧
      (s.exchange omit_division r c).Eliminable omit_division r c v b k ∧
      (s.pivot omit_division r c).row v =
        (s.exchange omit_division r c).eliminatedRow omit_division r c v) ∨
    (v ∈ s.mRows → c ∉ (s.row v).entries.map Prod.fst) ∧
      (s.pivot omit_division r c).row v = s.row v := by
  rcases hv with hv | hv
  · by_cases hkey : c ∈ (s.row v).entries.map Prod.fst
    · obtain ⟨b, k, hb, helim⟩ := exists_eliminable hs h hv hvr hkey
      exact .inl ⟨b, k, hb, hv, helim, pivot_row_of_key hs h hv hvr hkey⟩
    · have hvc : v ≠ c := fun hvc => hs.row_not_column v hv (hvc ▸ h.column hs)
      exact .inr ⟨fun _ => hkey, pivot_row_of_not_key hs h hvr hvc fun _ => hkey⟩
  · exact .inr ⟨fun hrow => absurd hrow (hs.inactive_not_row v hv), pivot_row_inactive hs h hv⟩

theorem hasRow_pivot : (s.pivot omit_division r c).HasRow v ↔ v = c ∨ s.HasRow v ∧ v ≠ r := by
  rw [HasRow, mem_pivot_rows hs h, pivot_inactive hs h]
  constructor
  · rintro ((rfl | ⟨hv, hvr⟩) | hv)
    · exact .inl rfl
    · exact .inr ⟨.inl hv, hvr⟩
    · refine .inr ⟨.inr hv, ?_⟩
      rintro rfl
      exact hs.inactive_not_row v hv h.row
  · rintro (rfl | ⟨hv | hv, hvr⟩)
    · exact .inl (.inl rfl)
    · exact .inl (.inr ⟨hv, hvr⟩)
    · exact .inr hv

variable {M : Type u}

/-- Given the pivoting row, every other row is replaced by an equivalent one. -/
theorem pivot_holds [AddCommGroup M] [Module ℚ M] {f : VarId → M}
    (hp : (s.row r).Holds f r) (hv : s.HasRow v) (hvr : v ≠ r) :
    ((s.pivot omit_division r c).row v).Holds f v ↔ (s.row v).Holds f v := by
  obtain ⟨b, k, hb, hv, helim, hrow⟩ | ⟨-, hrow⟩ := pivot_row_cases hs h hv hvr <;> rw [hrow]
  have hpivot : ((s.exchange omit_division r c).row c).Holds f c := by
    rw [exchange_row_self]
    exact (pivotRow_holds hs h f).mpr hp
  rw [helim.holds hpivot, exchange_row_of_mem hs h hv hvr,
    others_relabel (not_key_of_mem_rows hs h hv), Row.Holds, eval_of_mem (hs.keys_nodup v hv) hb]

/-- A set of rows with that of `r` keeps its solutions, with `c` in the place of `r`. -/
theorem pivot_solutions [AddCommGroup M] [Module ℚ M] {f : VarId → M} {p q : VarId → Prop} (hr : p r)
    (hp : ∀ v, p v → s.HasRow v) (hq : ∀ v, q v ↔ v = c ∨ p v ∧ v ≠ r) :
    (∀ v, q v → ((s.pivot omit_division r c).row v).Holds f v) ↔ ∀ v, p v → (s.row v).Holds f v := by
  have hself : ((s.pivot omit_division r c).row c).Holds f c ↔ (s.row r).Holds f r := by
    rw [pivot_row_self hs h, pivotRow_holds hs h]
  constructor
  · intro hsol v hv
    have hrow := hself.mp (hsol c ((hq c).mpr (.inl rfl)))
    by_cases hvr : v = r
    · rwa [hvr]
    · exact (pivot_holds hs h hrow (hp v hv) hvr).mp (hsol v ((hq v).mpr (.inr ⟨hv, hvr⟩)))
  · intro hsol v hv
    have hrow := hsol r hr
    rcases (hq v).mp hv with rfl | ⟨hv, hvr⟩
    · exact hself.mpr hrow
    · exact (pivot_holds hs h hrow (hp v hv) hvr).mpr (hsol v hv)

/-- Pivoting at an entry keeps the solutions of the rows. -/
theorem pivot_solves [AddCommGroup M] [Module ℚ M] (f : VarId → M) :
    (s.pivot omit_division r c).Solves f ↔ s.Solves f :=
  pivot_solutions hs h (.inl h.row) (fun _ => id) fun _ => hasRow_pivot hs h

/-- The same for the active rows alone. -/
theorem pivot_solvesActive [AddCommGroup M] [Module ℚ M] (f : VarId → M) :
    (s.pivot omit_division r c).SolvesActive f ↔ s.SolvesActive f :=
  pivot_solutions hs h h.row (fun _ => .inl) fun _ => mem_pivot_rows hs h

/-! ## Well-formedness -/

theorem isKnown_pivot : (s.pivot omit_division r c).IsKnown v ↔ s.IsKnown v := by
  rw [IsKnown, mem_pivot_columns hs h, mem_pivot_rows hs h, pivot_inactive hs h]
  constructor
  · rintro ((rfl | ⟨hv, -⟩) | (rfl | ⟨hv, -⟩) | hv)
    · exact .inr (.inl h.row)
    · exact .inl hv
    · exact .inl (h.column hs)
    · exact .inr (.inl hv)
    · exact .inr (.inr hv)
  · rintro (hv | hv | hv)
    · by_cases hvc : v = c
      · exact .inr (.inl (.inl hvc))
      · exact .inl (.inr ⟨hv, hvc⟩)
    · by_cases hvr : v = r
      · exact .inl (.inl hvr)
      · exact .inr (.inl (.inr ⟨hv, hvr⟩))
    · exact .inr (.inr hv)

/-- The columns of an eliminated row. -/
theorem pivot_key_column (hv : v ∈ s.mRows) (hvr : v ≠ r)
    (hkey : c ∈ (s.row v).entries.map Prod.fst) {d : VarId}
    (hd : d ∈ ((s.pivot omit_division r c).row v).entries.map Prod.fst) :
    d ∈ (s.exchange omit_division r c).mColumns := by
  obtain ⟨b, k, -, helim⟩ := exists_eliminable hs h hv hvr hkey
  rw [pivot_row_of_key hs h hv hvr hkey] at hd
  -- a column of the row of `r` or of the row of `v`, with `r` in the place of `c`
  have hcol : ∀ w ∈ s.mRows,
      d ∈ ((s.row w).entries.map Prod.fst).map (fun i => if i = c then r else i) →
      d ∈ (s.exchange omit_division r c).mColumns := by
    intro w hw hdw
    obtain ⟨i, hi, rfl⟩ := mem_map.mp hdw
    obtain ⟨e, he, rfl⟩ := mem_map.mp hi
    exact mem_map.mpr ⟨e.1, hs.key_column w hw e he, rfl⟩
  rcases helim.mem_keys hd with hd | hd
  · rw [exchange_row_self, pivotRow_keys hs] at hd
    exact hcol r h.row hd
  · rw [exchange_row_of_mem hs h hv hvr, relabel_keys] at hd
    exact hcol v hv hd

theorem pivot_factor_one (hmode : omit_division = false) (hv : s.IsKnown v) :
    ((s.pivot omit_division r c).row v).factor = 1 := by
  subst hmode
  have hone := hs.factor_one rfl
  by_cases hvc : v = c
  · rw [hvc, pivot_row_self hs h]
    exact hone c (.inl (h.column hs))
  · by_cases hvr : v = r
    · have hnot : r ∉ (s.exchange false r c).rowsToUpdate r c :=
        fun hr => ((mem_rowsToUpdate hs h).mp hr).2.1 rfl
      rw [hvr, pivot_eq hs h]
      show (if r ∈ _ then _ else (s.exchange false r c).row r).factor = 1
      rw [if_neg hnot]
      show (if r = c then _ else _ : Row VarId ℚ).factor = 1
      rw [if_neg (hvr ▸ hvc), if_pos rfl]
      exact hone r (.inr (.inl h.row))
    · by_cases hkey : v ∈ s.mRows → c ∉ (s.row v).entries.map Prod.fst
      · rw [pivot_row_of_not_key hs h hvr hvc hkey]
        exact hone v hv
      · push Not at hkey
        rw [pivot_row_of_key hs h hkey.1 hvr hkey.2]
        show ((s.exchange false r c).row v).factor * 1 = 1
        rw [exchange_row_of_mem hs h hkey.1 hvr, mul_one]
        exact hone v (.inr (.inl hkey.1))

theorem pivot_wellFormed : (s.pivot omit_division r c).WellFormed omit_division := by
  have hinact := pivot_inactive hs h
  have horig : (s.pivot omit_division r c).isOriginal = s.isOriginal := by
    rw [pivot_eq hs h]
    rfl
  have hnext : (s.pivot omit_division r c).nextId = s.nextId := by
    rw [pivot_eq hs h]
    rfl
  have hc : ∀ v ∈ s.mRows, v ≠ c := fun v hv hvc => hs.row_not_column v hv (hvc ▸ h.column hs)
  have hr : ∀ v ∈ s.mNonActiveBasics, v ≠ r := fun v hv hvr =>
    hs.inactive_not_row v hv (hvr ▸ h.row)
  have hpivotKeys : ((s.pivotRow omit_division r c).entries.map Prod.fst).Nodup := by
    rw [pivotRow_keys hs, ← relabel_keys]
    exact nodup_relabel (hs.keys_nodup r h.row) (not_key_of_mem_rows hs h h.row)
  constructor
  case rows_nodup =>
    rw [pivot_eq hs h]
    exact exchange_rows_nodup hs h
  case columns_nodup =>
    rw [pivot_eq hs h]
    exact exchange_columns_nodup hs h
  case inactive_nodup => exact hinact ▸ hs.inactive_nodup
  case row_not_column =>
    intro v hv
    rw [mem_pivot_columns hs h, not_or]
    rcases (mem_pivot_rows hs h).mp hv with rfl | ⟨hv, hvr⟩
    · exact ⟨h.ne hs, fun hcol => hcol.2 rfl⟩
    · exact ⟨hvr, fun hcol => hs.row_not_column v hv hcol.1⟩
  case inactive_not_column =>
    intro v hv
    rw [hinact] at hv
    rw [mem_pivot_columns hs h, not_or]
    exact ⟨hr v hv, fun hcol => hs.inactive_not_column v hv hcol.1⟩
  case inactive_not_row =>
    intro v hv
    rw [hinact] at hv
    rw [mem_pivot_rows hs h, not_or]
    refine ⟨?_, fun hrow => hs.inactive_not_row v hv hrow.1⟩
    rintro rfl
    exact hs.inactive_not_column v hv (h.column hs)
  case inactive_not_original =>
    intro v hv
    rw [horig]
    exact hs.inactive_not_original v (hinact ▸ hv)
  case known_lt =>
    intro v hv
    rw [hnext]
    exact hs.known_lt v ((isKnown_pivot hs h).mp hv)
  case factor_ne_zero =>
    intro v hv
    rcases (hasRow_pivot hs h).mp hv with rfl | ⟨hv, hvr⟩
    · rw [pivot_row_self hs h]
      exact pivotRow_factor_ne_zero hs h
    · obtain ⟨b, k, -, -, helim, hrow⟩ | ⟨-, hrow⟩ := pivot_row_cases hs h hv hvr <;> rw [hrow]
      · exact helim.factor_ne_zero
      · exact hs.factor_ne_zero v hv
  case factor_one =>
    intro hmode v hv
    exact pivot_factor_one hs h hmode ((isKnown_pivot hs h).mp hv)
  case keys_nodup =>
    intro v hv
    rcases (mem_pivot_rows hs h).mp hv with rfl | ⟨hv, hvr⟩
    · rwa [pivot_row_self hs h]
    · obtain ⟨b, k, -, -, helim, hrow⟩ | ⟨-, hrow⟩ := pivot_row_cases hs h (.inl hv) hvr <;> rw [hrow]
      · exact helim.keys_nodup
      · exact hs.keys_nodup v hv
  case key_column =>
    intro v hv e he
    rw [pivot_eq hs h]
    change e.1 ∈ (s.exchange omit_division r c).mColumns
    rcases (mem_pivot_rows hs h).mp hv with rfl | ⟨hv, hvr⟩
    · rw [pivot_row_self hs h] at he
      have hkey := mem_map_of_mem (f := Prod.fst) he
      rw [pivotRow_keys hs] at hkey
      obtain ⟨i, hi, hie⟩ := mem_map.mp hkey
      obtain ⟨d, hd, rfl⟩ := mem_map.mp hi
      exact mem_map.mpr ⟨d.1, hs.key_column r h.row d hd, hie⟩
    · by_cases hkey : c ∈ (s.row v).entries.map Prod.fst
      · exact pivot_key_column hs h hv hvr hkey (mem_map_of_mem he)
      · rw [pivot_row_of_not_key hs h hvr (hc v hv) fun _ => hkey] at he
        refine (mem_exchange_columns hs h).mpr (.inr ⟨hs.key_column v hv e he, ?_⟩)
        rintro rfl
        exact hkey (mem_map_of_mem he)
  case key_known =>
    intro v hv e he
    rw [hinact] at hv
    rw [pivot_row_inactive hs h hv] at he
    exact (isKnown_pivot hs h).mpr (hs.key_known v hv e he)
  case content_ne_zero =>
    intro v hv
    rcases (hasRow_pivot hs h).mp hv with rfl | ⟨hv, hvr⟩
    · rw [pivot_row_self hs h]
      exact pivotRow_content_ne_zero hs h
    · obtain ⟨b, k, -, -, helim, hrow⟩ | ⟨-, hrow⟩ := pivot_row_cases hs h hv hvr <;> rw [hrow]
      · exact helim.content_ne_zero
      · exact hs.content_ne_zero v hv
  case stored_order =>
    rw [hinact]
    refine hs.stored_order.imp_of_mem ?_
    intro u v hu _ huv
    rwa [pivot_row_inactive hs h hu]
  case stored_self =>
    intro v hv
    rw [hinact] at hv
    rw [pivot_row_inactive hs h hv]
    exact hs.stored_self v hv

end Pivot

end RowSystem

end Smtrat.LRA
