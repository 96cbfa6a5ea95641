import Smtrat.LRA.Pivot

/-!
# Elimination keeps the solutions of the rows

The rows are read as equations between vectors of an arbitrary module: polynomials, assigned
values or real numbers.  Exchanging the two variables of the pivoting element turns a row into an
equivalent one, and so does every elimination, whatever common multiples were taken and divisors
removed on the way.
-/

namespace Smtrat.LRA

open Combination List

universe u

/-! ## Common multiples and divisors -/

theorem gcd_ne_zero {a b : ℚ} (ha : a ≠ 0) : gcd a b ≠ 0 := by
  apply div_ne_zero
  · rw [Nat.cast_ne_zero]
    exact (Nat.gcd_pos_of_pos_left _ (Int.natAbs_pos.mpr (Rat.num_ne_zero.mpr ha))).ne'
  · rw [Nat.cast_ne_zero]
    exact (Nat.lcm_pos a.pos b.pos).ne'

theorem lcm_ne_zero {a b : ℚ} (ha : a ≠ 0) (hb : b ≠ 0) : lcm a b ≠ 0 := by
  apply div_ne_zero
  · rw [Nat.cast_ne_zero]
    exact (Nat.lcm_pos (Int.natAbs_pos.mpr (Rat.num_ne_zero.mpr ha))
      (Int.natAbs_pos.mpr (Rat.num_ne_zero.mpr hb))).ne'
  · rw [Nat.cast_ne_zero]
    exact (Nat.gcd_pos_of_pos_left _ a.pos).ne'

section Multipliers

variable (omit_division : Bool) {content factor : ℚ}

theorem multipliers_fst_ne_zero (hcont : content ≠ 0) (hfac : factor ≠ 0) :
    (multipliers omit_division content factor).1 ≠ 0 := by
  rw [multipliers]
  have hl := lcm_ne_zero hcont hfac
  cases omit_division with
  | false => exact hcont
  | true =>
    show (if content < 0 ∧ factor < 0 then _ else _) / factor ≠ 0
    split_ifs
    · exact div_ne_zero (neg_ne_zero.mpr hl) hfac
    · exact div_ne_zero hl hfac

theorem multipliers_snd_ne_zero (hcont : content ≠ 0) (hfac : factor ≠ 0) :
    (multipliers omit_division content factor).2 ≠ 0 := by
  rw [multipliers]
  have hl := lcm_ne_zero hcont hfac
  cases omit_division with
  | false => exact one_ne_zero
  | true =>
    show (if content < 0 ∧ factor < 0 then _ else _) / content ≠ 0
    split_ifs
    · exact div_ne_zero (neg_ne_zero.mpr hl) hcont
    · exact div_ne_zero hl hcont

/-- The multipliers bring both rows to the same multiple. -/
theorem multipliers_spec (hcont : content ≠ 0) (hfac : factor ≠ 0)
    (hone : omit_division = false → factor = 1) :
    (multipliers omit_division content factor).1 * factor =
      (multipliers omit_division content factor).2 * content := by
  rw [multipliers]
  cases omit_division with
  | false =>
    show content * factor = 1 * content
    rw [hone rfl, mul_one, one_mul]
  | true =>
    show _ / factor * factor = _ / content * content
    rw [div_mul_cancel₀ _ hfac, div_mul_cancel₀ _ hcont]

end Multipliers

/-! ## Reduced rows -/

theorem rowGcd_ne_zero {row : Row VarId ℚ} (h : row.factor ≠ 0) : rowGcd row ≠ 0 := by
  have hfold : ∀ (es : List (VarId × ℚ)) (g : ℚ), g ≠ 0 →
      es.foldl (fun g e => if g = 1 then g else gcd g e.2) g ≠ 0 := by
    intro es
    induction es with
    | nil => exact fun _ hg => hg
    | cons e es ih =>
      intro g hg
      apply ih
      show (if g = 1 then g else gcd g e.2) ≠ 0
      split_ifs
      · exact hg
      · exact gcd_ne_zero hg
  exact hfold row.entries _ (abs_ne_zero.mpr h)

section Reduce

variable {row : Row VarId ℚ} {M : Type u} [AddCommGroup M] [Module ℚ M]

theorem reduce_holds (h : row.factor ≠ 0) (f : VarId → M) (v : VarId) :
    (reduce row).Holds f v ↔ row.Holds f v := by
  rw [reduce]
  split_ifs
  · rfl
  · have hscale : (row.entries.map fun e => (e.1, e.2 / rowGcd row)) =
        scale (rowGcd row)⁻¹ row.entries := by
      rw [scale]
      simp only [div_eq_inv_mul]
    rw [hscale]
    exact (Row.divide_iff (rowGcd_ne_zero h)).symm

theorem reduce_factor_ne_zero (h : row.factor ≠ 0) : (reduce row).factor ≠ 0 := by
  rw [reduce]
  split_ifs
  · exact h
  · exact div_ne_zero h (rowGcd_ne_zero h)

theorem reduce_keys (row : Row VarId ℚ) :
    (reduce row).entries.map Prod.fst = row.entries.map Prod.fst := by
  rw [reduce]
  split_ifs
  · rfl
  · rw [map_map]
    rfl

theorem reduce_content_ne_zero (h : row.factor ≠ 0) (hne : ∀ e ∈ row.entries, e.2 ≠ 0) :
    ∀ e ∈ (reduce row).entries, e.2 ≠ 0 := by
  rw [reduce]
  split_ifs
  · exact hne
  · intro e he
    obtain ⟨d, hd, rfl⟩ := mem_map.mp he
    exact div_ne_zero (hne d hd) (rowGcd_ne_zero h)

/-- A row with factor one is reduced. -/
theorem reduce_of_factor_one (h : row.factor = 1) : reduce row = row := by
  have hfold : ∀ es : List (VarId × ℚ),
      es.foldl (fun g e => if g = 1 then g else gcd g e.2) (1 : ℚ) = 1 := by
    intro es
    induction es with
    | nil => rfl
    | cons e es ih => exact ih
  have hg : rowGcd row = 1 := by
    rw [rowGcd, h, abs_one, hfold]
  rw [reduce, if_pos hg]

end Reduce

/-! ## Well-formed rows -/

namespace RowSystem

variable {omit_division : Bool} {s : RowSystem}

/-- The variables of a tableau: those that head a column, and the basic ones. -/
def IsKnown (s : RowSystem) (v : VarId) : Prop :=
  v ∈ s.mColumns ∨ v ∈ s.mRows ∨ v ∈ s.mNonActiveBasics

/-- A basic variable, active or not: it has a row. -/
def HasRow (s : RowSystem) (v : VarId) : Prop := v ∈ s.mRows ∨ v ∈ s.mNonActiveBasics

/-- What all operations on rows preserve. -/
structure WellFormed (omit_division : Bool) (s : RowSystem) : Prop where
  rows_nodup : s.mRows.Nodup
  columns_nodup : s.mColumns.Nodup
  inactive_nodup : s.mNonActiveBasics.Nodup
  row_not_column : ∀ v ∈ s.mRows, v ∉ s.mColumns
  inactive_not_column : ∀ v ∈ s.mNonActiveBasics, v ∉ s.mColumns
  inactive_not_row : ∀ v ∈ s.mNonActiveBasics, v ∉ s.mRows
  inactive_not_original : ∀ v ∈ s.mNonActiveBasics, s.isOriginal v = false
  known_lt : ∀ v, s.IsKnown v → v < s.nextId
  factor_ne_zero : ∀ v, s.HasRow v → (s.row v).factor ≠ 0
  /-- Without `omit_division` all factors are one. -/
  factor_one : omit_division = false → ∀ v, s.IsKnown v → (s.row v).factor = 1
  keys_nodup : ∀ v ∈ s.mRows, ((s.row v).entries.map Prod.fst).Nodup
  key_column : ∀ v ∈ s.mRows, ∀ e ∈ (s.row v).entries, e.1 ∈ s.mColumns
  key_known : ∀ v ∈ s.mNonActiveBasics, ∀ e ∈ (s.row v).entries, s.IsKnown e.1
  content_ne_zero : ∀ v, s.HasRow v → ∀ e ∈ (s.row v).entries, e.2 ≠ 0
  /-- A stored row mentions only variables that became inactive after it was stored. -/
  stored_order : s.mNonActiveBasics.Pairwise fun u v => v ∉ (s.row u).entries.map Prod.fst
  stored_self : ∀ v ∈ s.mNonActiveBasics, v ∉ (s.row v).entries.map Prod.fst

variable {M : Type u} [AddCommGroup M] [Module ℚ M]

/-- The vectors solve the equations of all rows, active or stored. -/
def Solves (s : RowSystem) (f : VarId → M) : Prop := ∀ v, s.HasRow v → (s.row v).Holds f v

/-- The vectors solve the equations of the active rows. -/
def SolvesActive (s : RowSystem) (f : VarId → M) : Prop := ∀ v ∈ s.mRows, (s.row v).Holds f v

/-! ## The exchange -/

section Exchange

variable {r c : VarId} {a : ℚ}

/-- The variables of a pivoting element: an active row with an entry in a column. -/
structure HasEntry (s : RowSystem) (r c : VarId) (a : ℚ) : Prop where
  row : r ∈ s.mRows
  entry : (c, a) ∈ (s.row r).entries

variable (hs : s.WellFormed omit_division) (h : s.HasEntry r c a)

include hs h

theorem HasEntry.content : s.content r c = some a :=
  find_of_mem (hs.keys_nodup r h.row) h.entry

theorem HasEntry.column : c ∈ s.mColumns := hs.key_column r h.row _ h.entry

theorem HasEntry.ne_zero : a ≠ 0 := hs.content_ne_zero r (.inl h.row) _ h.entry

theorem HasEntry.ne : c ≠ r := by
  rintro rfl
  exact hs.row_not_column c h.row (h.column hs)

/-- The row of the new basic variable is the row of the old one, solved for the new one. -/
theorem pivotRow_holds (f : VarId → M) :
    (s.pivotRow omit_division r c).Holds f c ↔ (s.row r).Holds f r := by
  have hnd := hs.keys_nodup r h.row
  have hmem : c ∈ (s.row r).entries.map Prod.fst := mem_map_of_mem h.entry
  have hex : (s.row r).Holds f r ↔ a • f c = (s.row r).factor • f r +
      eval f (scale (-1) (others c (s.row r).entries)) := Row.exchange_iff hnd h.entry
  rw [hex]
  cases omit_division with
  | true =>
    have hneg : ((s.row r).entries.map fun e => (e.1, -e.2)) = scale (-1) (s.row r).entries := by
      simp only [scale, neg_one_mul]
    show ((s.content r c).getD 0) • f c = eval f (relabel c r (setContent c _ _)) ↔ _
    rw [hneg, eval_relabel_setContent (by rwa [scale_keys]) (by rwa [scale_keys]),
      others_scale, h.content hs, Option.getD_some]
  | false =>
    have ha := h.ne_zero hs
    have hdiv : ((s.row r).entries.map fun e => (e.1, e.2 / -a)) =
        scale (-a)⁻¹ (s.row r).entries := by
      simp only [scale, div_eq_inv_mul]
    show (s.row c).factor • f c = eval f (relabel c r (setContent c _ _)) ↔ _
    rw [hs.factor_one rfl c (.inl (h.column hs)), hs.factor_one rfl r (.inr (.inl h.row)),
      h.content hs, Option.getD_some, hdiv,
      eval_relabel_setContent (by rwa [scale_keys]) (by rwa [scale_keys]), others_scale,
      eval_scale, eval_scale, one_div, one_smul, one_smul, inv_neg, neg_smul, neg_smul, one_smul,
      ← smul_neg, ← smul_add]
    exact (eq_inv_smul_iff₀ ha)

theorem pivotRow_factor_ne_zero : (s.pivotRow omit_division r c).factor ≠ 0 := by
  cases omit_division with
  | true =>
    show (s.content r c).getD 0 ≠ 0
    rw [h.content hs]
    exact h.ne_zero hs
  | false =>
    show (s.row c).factor ≠ 0
    rw [hs.factor_one rfl c (.inl (h.column hs))]
    exact one_ne_zero

omit h in
/-- The pivoting row keeps its columns, `r` in the place of `c`. -/
theorem pivotRow_keys : (s.pivotRow omit_division r c).entries.map Prod.fst =
    ((s.row r).entries.map Prod.fst).map fun i => if i = c then r else i := by
  cases omit_division with
  | true =>
    show (relabel c r (setContent c _ _)).map Prod.fst = _
    rw [relabel_keys, setContent_keys, map_map, map_map, map_map]
    rfl
  | false =>
    show (relabel c r (setContent c _ _)).map Prod.fst = _
    rw [relabel_keys, setContent_keys, map_map, map_map, map_map]
    rfl

theorem pivotRow_content_ne_zero : ∀ e ∈ (s.pivotRow omit_division r c).entries, e.2 ≠ 0 := by
  have hne := hs.content_ne_zero r (.inl h.row)
  have hfac := hs.factor_ne_zero r (.inl h.row)
  have ha := h.ne_zero hs
  -- relabelling and replacing one content
  have hset : ∀ (x : ℚ) (es : List (VarId × ℚ)), x ≠ 0 → (∀ e ∈ es, e.2 ≠ 0) →
      ∀ e ∈ relabel c r (setContent c x es), e.2 ≠ 0 := by
    intro x es hx hes e he
    obtain ⟨d, hd, rfl⟩ := mem_map.mp he
    obtain ⟨d', hd', rfl⟩ := mem_map.mp hd
    by_cases hdc : d'.1 = c
    · simpa [hdc] using hx
    · simpa [hdc] using hes d' hd'
  cases omit_division with
  | true =>
    apply hset _ _ hfac
    intro e he
    obtain ⟨d, hd, rfl⟩ := mem_map.mp he
    exact neg_ne_zero.mpr (hne d hd)
  | false =>
    show ∀ e ∈ relabel c r (setContent c _ _), _
    rw [h.content hs, Option.getD_some]
    apply hset _ _ (one_div_ne_zero ha)
    intro e he
    obtain ⟨d, hd, rfl⟩ := mem_map.mp he
    exact div_ne_zero (hne d hd) (neg_ne_zero.mpr ha)

end Exchange

/-! ## Elimination -/

section Eliminate

variable {r c i : VarId} {b k : ℚ}

/-- What the elimination of a row relies on: the pivoting row, which belongs to `c`, and the row of
`i` both have an entry in the column of `r`. -/
structure Eliminable (omit_division : Bool) (s : RowSystem) (r c i : VarId) (b k : ℚ) : Prop where
  pivot_nodup : ((s.row c).entries.map Prod.fst).Nodup
  pivot_entry : (r, k) ∈ (s.row c).entries
  pivot_ne_zero : ∀ e ∈ (s.row c).entries, e.2 ≠ 0
  pivot_factor : (s.row c).factor ≠ 0
  pivot_factor_one : omit_division = false → (s.row c).factor = 1
  nodup : ((s.row i).entries.map Prod.fst).Nodup
  entry : (r, b) ∈ (s.row i).entries
  ne_zero : ∀ e ∈ (s.row i).entries, e.2 ≠ 0
  factor : (s.row i).factor ≠ 0

variable (h : s.Eliminable omit_division r c i b k)

/-- The row of `i` before it is divided by a common divisor. -/
def unreducedRow (omit_division : Bool) (s : RowSystem) (r c i : VarId) : Row VarId ℚ :=
  let m := multipliers omit_division ((s.content i r).getD 0) (s.row c).factor
  ⟨(s.row i).factor * m.2, setContent r (m.1 * (s.content c r).getD 0)
    (addScaled s.before m.1 (others r (s.row c).entries) (scale m.2 (s.row i).entries))⟩

theorem eliminatedRow_eq : s.eliminatedRow omit_division r c i =
    if omit_division then reduce (s.unreducedRow omit_division r c i)
    else s.unreducedRow omit_division r c i := rfl

include h

theorem Eliminable.content : s.content i r = some b := find_of_mem h.nodup h.entry

theorem Eliminable.pivot_content : s.content c r = some k := find_of_mem h.pivot_nodup h.pivot_entry

theorem Eliminable.unreduced_factor_ne_zero : (s.unreducedRow omit_division r c i).factor ≠ 0 := by
  refine mul_ne_zero h.factor (multipliers_snd_ne_zero _ ?_ h.pivot_factor)
  rw [h.content]
  exact h.ne_zero _ h.entry

theorem Eliminable.mem_sum (ca cb : ℚ) : (r, cb * b) ∈
    addScaled s.before ca (others r (s.row c).entries) (scale cb (s.row i).entries) := by
  apply mem_addScaled_of_not_key
  · rintro hr
    obtain ⟨e, he, her⟩ := mem_map.mp hr
    exact (mem_others.mp he).2 her
  · exact mem_map_of_mem h.entry

theorem Eliminable.nodup_sum (ca cb : ℚ) : ((addScaled s.before ca
    (others r (s.row c).entries) (scale cb (s.row i).entries)).map Prod.fst).Nodup := by
  apply nodup_addScaled
  rw [scale_keys]
  exact h.nodup

/-- The elimination of `c` from the row of `i`, in which the entry of `r` still stands for it. -/
theorem Eliminable.unreduced_holds {f : VarId → M} (hp : (s.row c).Holds f c) :
    (s.unreducedRow omit_division r c i).Holds f i ↔
      (s.row i).factor • f i = b • f c + eval f (others r (s.row i).entries) := by
  have hb : b ≠ 0 := h.ne_zero _ h.entry
  obtain ⟨ca, cb, hm⟩ : ∃ ca cb, multipliers omit_division b (s.row c).factor = (ca, cb) :=
    ⟨_, _, rfl⟩
  have hspec := multipliers_spec omit_division hb h.pivot_factor h.pivot_factor_one
  have hcb := multipliers_snd_ne_zero omit_division hb h.pivot_factor
  rw [hm] at hspec hcb
  have hpivot : (s.row c).factor • f c = k • f r + eval f (others r (s.row c).entries) := by
    rw [← eval_of_mem h.pivot_nodup h.pivot_entry]
    exact hp
  rw [Row.substitute_iff hpivot hcb hspec, Row.Holds, unreducedRow, h.content, h.pivot_content,
    Option.getD_some, Option.getD_some, hm]
  have hsum := h.mem_sum ca cb
  have hnd := h.nodup_sum ca cb
  have hothers : eval f (others r (addScaled s.before ca (others r (s.row c).entries)
      (scale cb (s.row i).entries))) =
      cb • eval f (others r (s.row i).entries) + ca • eval f (others r (s.row c).entries) := by
    have htot : eval f (addScaled s.before ca (others r (s.row c).entries)
      (scale cb (s.row i).entries)) = _ := eval_addScaled f ca _ _
    rw [eval_of_mem hnd hsum, eval_scale, eval_of_mem h.nodup h.entry, smul_add, smul_smul,
      add_assoc] at htot
    exact add_left_cancel htot
  show _ ↔ (_ : M) = _
  rw [eval_setContent hnd (mem_map_of_mem hsum), hothers]

theorem Eliminable.holds {f : VarId → M} (hp : (s.row c).Holds f c) :
    (s.eliminatedRow omit_division r c i).Holds f i ↔
      (s.row i).factor • f i = b • f c + eval f (others r (s.row i).entries) := by
  rw [eliminatedRow_eq, ← h.unreduced_holds hp]
  split_ifs
  · exact reduce_holds h.unreduced_factor_ne_zero f i
  · rfl

theorem Eliminable.factor_ne_zero : (s.eliminatedRow omit_division r c i).factor ≠ 0 := by
  rw [eliminatedRow_eq]
  split_ifs
  · exact reduce_factor_ne_zero h.unreduced_factor_ne_zero
  · exact h.unreduced_factor_ne_zero

theorem Eliminable.keys_nodup :
    ((s.eliminatedRow omit_division r c i).entries.map Prod.fst).Nodup := by
  have hnd : ((s.unreducedRow omit_division r c i).entries.map Prod.fst).Nodup := by
    rw [unreducedRow, setContent_keys]
    exact h.nodup_sum _ _
  rw [eliminatedRow_eq]
  split_ifs
  · rwa [reduce_keys]
  · exact hnd

/-- The columns of the new row are those of the two old ones. -/
theorem Eliminable.mem_keys {d : VarId}
    (hd : d ∈ (s.eliminatedRow omit_division r c i).entries.map Prod.fst) :
    d ∈ (s.row c).entries.map Prod.fst ∨ d ∈ (s.row i).entries.map Prod.fst := by
  have hb : b ≠ 0 := h.ne_zero _ h.entry
  have hun : d ∈ (s.unreducedRow omit_division r c i).entries.map Prod.fst := by
    rw [eliminatedRow_eq] at hd
    split_ifs at hd
    · rwa [reduce_keys] at hd
    · exact hd
  rw [unreducedRow, setContent_keys] at hun
  obtain ⟨e, he, rfl⟩ := mem_map.mp hun
  have hca : (multipliers omit_division ((s.content i r).getD 0) (s.row c).factor).1 ≠ 0 := by
    rw [h.content]
    exact multipliers_fst_ne_zero _ hb h.pivot_factor
  rcases mem_of_mem_addScaled hca (fun e he => h.pivot_ne_zero e (mem_others.mp he).1) he with
    ⟨hkey, -⟩ | hmem
  · exact .inl ((others_keys_sublist r _).mem hkey)
  · right
    rw [← scale_keys]
    exact mem_map_of_mem hmem

theorem Eliminable.content_ne_zero :
    ∀ e ∈ (s.eliminatedRow omit_division r c i).entries, e.2 ≠ 0 := by
  have hb : b ≠ 0 := h.ne_zero _ h.entry
  have hca := multipliers_fst_ne_zero omit_division hb h.pivot_factor
  have hcb := multipliers_snd_ne_zero omit_division hb h.pivot_factor
  have hun : ∀ e ∈ (s.unreducedRow omit_division r c i).entries, e.2 ≠ 0 := by
    rw [unreducedRow, h.content, h.pivot_content]
    intro e he
    obtain ⟨d, hd, rfl⟩ := mem_map.mp he
    split_ifs
    · exact mul_ne_zero hca (h.pivot_ne_zero _ h.pivot_entry)
    · rcases mem_of_mem_addScaled hca (fun e he => h.pivot_ne_zero e (mem_others.mp he).1) hd with
        ⟨-, hne⟩ | hmem
      · exact hne
      · obtain ⟨d', hd', rfl⟩ := mem_map.mp hmem
        exact mul_ne_zero hcb (h.ne_zero d' hd')
  rw [eliminatedRow_eq]
  split_ifs
  · exact reduce_content_ne_zero h.unreduced_factor_ne_zero hun
  · exact hun

end Eliminate

end RowSystem

end Smtrat.LRA
