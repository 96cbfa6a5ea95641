import Smtrat.Math.Combination

/-!
# Selections of weighted entries

Some of the entries of a sparse combination are selected, and their weights are added up.  With positive
weights the sum lies between zero, when nothing is selected, and the total, when everything is.
-/

namespace Combination
open List Function

variable {ι K : Type*}

section Ring

variable [Ring K]

/-- The sum of the weights of the selected entries. -/
def selected (σ : ι → Bool) (es : List (ι × K)) : K := (es.map fun e => bif σ e.1 then e.2 else 0).sum

/-- The sum of all weights. -/
def total (es : List (ι × K)) : K := (es.map Prod.snd).sum

variable {σ : ι → Bool} {es : List (ι × K)}

@[simp] theorem selected_nil (σ : ι → Bool) : selected σ ([] : List (ι × K)) = 0 := rfl

@[simp] theorem selected_cons (σ : ι → Bool) (e : ι × K) (es : List (ι × K)) :
    selected σ (e :: es) = (bif σ e.1 then e.2 else 0) + selected σ es := by
  rw [selected, map_cons, sum_cons, selected]

@[simp] theorem total_nil : total ([] : List (ι × K)) = 0 := rfl

@[simp] theorem total_cons (e : ι × K) (es : List (ι × K)) : total (e :: es) = e.2 + total es := by
  rw [total, map_cons, sum_cons, total]

/-- The selection as an evaluation at zeros and ones. -/
theorem selected_eq_eval (σ : ι → Bool) (es : List (ι × K)) :
    selected σ es = eval (fun i => bif σ i then 1 else 0) es := by
  induction es with
  | nil => rfl
  | cons e es ih => cases h : σ e.1 <;> simp [ih, h]

theorem selected_congr {τ : ι → Bool} (h : ∀ e ∈ es, σ e.1 = τ e.1) : selected σ es = selected τ es := by
  rw [selected, selected, map_congr_left fun e he => by rw [h e he]]

theorem selected_scale (σ : ι → Bool) (k : K) (es : List (ι × K)) :
    selected σ (scale k es) = k * selected σ es := by
  induction es with
  | nil => simp [scale]
  | cons e es ih =>
    rw [scale, map_cons, selected_cons, ← scale, ih, selected_cons, mul_add]
    cases σ e.1 <;> simp

theorem total_scale (k : K) (es : List (ι × K)) : total (scale k es) = k * total es := by
  induction es with
  | nil => simp [scale]
  | cons e es ih => rw [scale, map_cons, total_cons, ← scale, ih, total_cons, mul_add]

/-- The entries of two kinds are summed up apart. -/
theorem selected_filter_add (σ : ι → Bool) (p : ι × K → Bool) (es : List (ι × K)) :
    selected σ (es.filter p) + selected σ (es.filter fun e => !p e) = selected σ es := by
  induction es with
  | nil => simp
  | cons e es ih =>
    rw [selected_cons, ← ih]
    cases h : p e <;> simp [h, add_assoc, add_left_comm]

/-- With integer weights the sums are integers. -/
theorem exists_selected_eq_intCast (σ : ι → Bool) (h : ∀ e ∈ es, ∃ z : ℤ, e.2 = z) :
    ∃ z : ℤ, selected σ es = z := by
  induction es with
  | nil => exact ⟨0, by simp⟩
  | cons e es ih =>
    obtain ⟨a, ha⟩ := h e mem_cons_self
    obtain ⟨z, hz⟩ := ih fun d hd => h d (mem_cons_of_mem e hd)
    cases he : σ e.1 with
    | false => exact ⟨z, by simp [he, hz]⟩
    | true => exact ⟨a + z, by simp [he, ha, hz]⟩

theorem selected_update [DecidableEq ι] {i : ι} (h : i ∉ es.map Prod.fst) (b : Bool) :
    selected (update σ i b) es = selected σ es := by
  refine selected_congr fun e he => update_of_ne ?_ _ _
  rintro rfl
  exact h (mem_map_of_mem he)

/-- If no index is repeated, every sublist can be selected. -/
theorem exists_selected_eq_total {sub : List (ι × K)} (hnd : (es.map Prod.fst).Nodup) (h : sub.Sublist es) :
    ∃ σ : ι → Bool, selected σ es = total sub := by
  classical
  induction h with
  | slnil => exact ⟨fun _ => false, rfl⟩
  | cons e hsub ih =>
    rw [map_cons, nodup_cons] at hnd
    obtain ⟨σ, hσ⟩ := ih hnd.2
    refine ⟨update σ e.1 false, ?_⟩
    rw [selected_cons, update_self, cond_false, zero_add, selected_update hnd.1, hσ]
  | cons_cons e hsub ih =>
    rw [map_cons, nodup_cons] at hnd
    obtain ⟨σ, hσ⟩ := ih hnd.2
    refine ⟨update σ e.1 true, ?_⟩
    rw [selected_cons, update_self, cond_true, selected_update hnd.1, hσ, total_cons]

theorem exists_total_eq_selected (σ : ι → Bool) (es : List (ι × K)) :
    ∃ sub : List (ι × K), sub.Sublist es ∧ total sub = selected σ es := by
  induction es with
  | nil => exact ⟨[], .slnil, rfl⟩
  | cons e es ih =>
    obtain ⟨sub, hsub, htot⟩ := ih
    cases he : σ e.1 with
    | false => exact ⟨sub, hsub.cons e, by simp [he, htot]⟩
    | true => exact ⟨e :: sub, hsub.cons_cons e, by simp [he, htot]⟩

end Ring

/-! ## Positive weights -/

section Positive

variable [CommRing K] [LinearOrder K] [IsStrictOrderedRing K] {σ : ι → Bool} {es : List (ι × K)}

theorem selected_nonneg (h : ∀ e ∈ es, 0 < e.2) : 0 ≤ selected σ es := by
  induction es with
  | nil => exact le_refl 0
  | cons e es ih =>
    have hrest := ih fun d hd => h d (mem_cons_of_mem e hd)
    have hpos := h e mem_cons_self
    rw [selected_cons]
    cases σ e.1 <;> simp only [cond_true, cond_false] <;> linarith

theorem selected_le_total (h : ∀ e ∈ es, 0 < e.2) : selected σ es ≤ total es := by
  induction es with
  | nil => exact le_refl 0
  | cons e es ih =>
    have hrest := ih fun d hd => h d (mem_cons_of_mem e hd)
    have hpos := h e mem_cons_self
    rw [selected_cons, total_cons]
    cases σ e.1 <;> simp only [cond_true, cond_false] <;> linarith

/-- The sum is zero if nothing is selected. -/
theorem selected_eq_zero_iff (h : ∀ e ∈ es, 0 < e.2) :
    selected σ es = 0 ↔ ¬ ∃ i ∈ es.map Prod.fst, σ i = true := by
  induction es with
  | nil => simp
  | cons e es ih =>
    have hrest : ∀ d ∈ es, 0 < d.2 := fun d hd => h d (mem_cons_of_mem e hd)
    have hpos := h e mem_cons_self
    have hnonneg := selected_nonneg (σ := σ) hrest
    rw [selected_cons]
    cases he : σ e.1 with
    | false => simp [he, ih hrest]
    | true =>
      refine iff_of_false ?_ (not_not.mpr ⟨e.1, by simp, he⟩)
      simp only [cond_true]
      linarith

/-- The sum is the total if everything is selected. -/
theorem selected_eq_total_iff (h : ∀ e ∈ es, 0 < e.2) :
    selected σ es = total es ↔ ∀ i ∈ es.map Prod.fst, σ i = true := by
  induction es with
  | nil => simp
  | cons e es ih =>
    have hrest : ∀ d ∈ es, 0 < d.2 := fun d hd => h d (mem_cons_of_mem e hd)
    have hpos := h e mem_cons_self
    have hle := selected_le_total (σ := σ) hrest
    rw [selected_cons, total_cons, map_cons, forall_mem_cons, ← ih hrest]
    cases he : σ e.1 with
    | false =>
      refine iff_of_false ?_ (fun hall => Bool.false_ne_true hall.1)
      simp only [cond_false]
      linarith
    | true => simp

theorem total_pos (h : ∀ e ∈ es, 0 < e.2) (hne : es ≠ []) : 0 < total es := by
  obtain ⟨e, tail, rfl⟩ := exists_cons_of_ne_nil hne
  have hrest := selected_nonneg (σ := fun _ => false) fun d hd => h d (mem_cons_of_mem e hd)
  have hle := selected_le_total (σ := fun _ => false) fun d hd => h d (mem_cons_of_mem e hd)
  have hpos := h e mem_cons_self
  rw [total_cons]
  linarith

/-- With other entries beside it a weight is less than the total. -/
theorem lt_total_of_mem (h : ∀ e ∈ es, 0 < e.2) (hlen : 2 ≤ es.length) {e : ι × K} (he : e ∈ es) :
    e.2 < total es := by
  obtain ⟨before, after, rfl⟩ := append_of_mem he
  have hsplit : total (before ++ e :: after) = e.2 + total (before ++ after) := by
    simp only [total, map_append, map_cons, sum_append, sum_cons]
    abel
  have hrest : ∀ d ∈ before ++ after, 0 < d.2 := fun d hd => h d (by
    rcases mem_append.mp hd with hd | hd
    · exact mem_append_left _ hd
    · exact mem_append_right _ (mem_cons_of_mem e hd))
  have hpos := total_pos hrest (by
    intro hnil
    rw [append_eq_nil_iff] at hnil
    simp [hnil.1, hnil.2] at hlen)
  rw [hsplit]
  linarith

/-! ### Capped weights -/

/-- The entries with all weights above a bound lowered to it. -/
def capped (b : K) (es : List (ι × K)) : List (ι × K) := es.map fun e => (e.1, min e.2 b)

omit [IsStrictOrderedRing K] in
theorem capped_pos {b : K} (hb : 0 < b) (h : ∀ e ∈ es, 0 < e.2) : ∀ e ∈ capped b es, 0 < e.2 := by
  intro e he
  obtain ⟨d, hd, rfl⟩ := mem_map.mp he
  exact lt_min (h d hd) hb

omit [CommRing K] [IsStrictOrderedRing K] in
theorem capped_eq_self {b : K} (h : ∀ e ∈ es, e.2 ≤ b) : capped b es = es := by
  rw [capped, map_congr_left (g := id) fun e he => by rw [min_eq_left (h e he), id], map_id]

theorem selected_capped_le (b : K) : selected σ (capped b es) ≤ selected σ es := by
  induction es with
  | nil => exact le_refl 0
  | cons e es ih =>
    rw [capped, map_cons, selected_cons, ← capped, selected_cons]
    cases σ e.1
    · simpa using ih
    · exact add_le_add (min_le_left _ _) ih

theorem min_selected_le {b : K} (hb : 0 ≤ b) (h : ∀ e ∈ es, 0 < e.2) :
    min (selected σ es) b ≤ selected σ (capped b es) := by
  induction es with
  | nil => exact min_le_left _ _
  | cons e es ih =>
    have hrest : ∀ d ∈ es, 0 < d.2 := fun d hd => h d (mem_cons_of_mem e hd)
    have hle := ih hrest
    have hpos := h e mem_cons_self
    have hnonneg := selected_nonneg (σ := σ) hrest
    rw [capped, map_cons, selected_cons, ← capped, selected_cons]
    cases σ e.1 with
    | false => simpa using hle
    | true =>
      simp only [cond_true]
      rcases le_total e.2 b with hcap | hcap
      · rw [min_eq_left hcap]
        refine le_trans ?_ (add_le_add_right hle e.2)
        rw [← min_add_add_left]
        exact min_le_min_left _ (by linarith)
      · rw [min_eq_right hcap]
        have hlow : 0 ≤ selected σ (capped b es) := le_trans (le_min hnonneg hb) hle
        exact (min_le_right _ _).trans (by linarith)

/-- Whether the sum reaches the bound does not depend on what lies above it. -/
theorem le_selected_capped_iff {b : K} (hb : 0 ≤ b) (h : ∀ e ∈ es, 0 < e.2) :
    b ≤ selected σ (capped b es) ↔ b ≤ selected σ es := by
  refine ⟨fun hle => hle.trans (selected_capped_le b), fun hle => ?_⟩
  have hmin := min_selected_le (σ := σ) hb h
  rwa [min_eq_right hle] at hmin

/-- The capped weights add up to the bound only if the weights do. -/
theorem total_capped_eq_iff {b : K} (hb : 0 < b) (h : ∀ e ∈ es, 0 < e.2) (hlen : 2 ≤ es.length) :
    total (capped b es) = b ↔ total es = b := by
  by_cases hall : ∀ e ∈ es, e.2 ≤ b
  · rw [capped_eq_self hall]
  · push Not at hall
    obtain ⟨e, he, hgt⟩ := hall
    have hmem : (e.1, b) ∈ capped b es := mem_map.mpr ⟨e, he, by rw [min_eq_right hgt.le]⟩
    have hlt := lt_total_of_mem (capped_pos hb h) (by rwa [capped, length_map]) hmem
    have hlt' := lt_total_of_mem h hlen he
    exact iff_of_false hlt.ne' (hgt.trans hlt').ne'

end Positive

/-! ## Negative weights -/

section Negative

variable [CommRing K] [LinearOrder K] [IsStrictOrderedRing K] {σ : ι → Bool} {es : List (ι × K)}

theorem scale_pos_of_neg (h : ∀ e ∈ es, e.2 < 0) : ∀ e ∈ scale (-1) es, 0 < e.2 := by
  intro e he
  obtain ⟨d, hd, rfl⟩ := mem_map.mp he
  have hneg := h d hd
  simp only
  linarith

theorem selected_nonpos (h : ∀ e ∈ es, e.2 < 0) : selected σ es ≤ 0 := by
  have hpos := selected_nonneg (σ := σ) (scale_pos_of_neg h)
  rw [selected_scale] at hpos
  linarith

theorem total_le_selected (h : ∀ e ∈ es, e.2 < 0) : total es ≤ selected σ es := by
  have hle := selected_le_total (σ := σ) (scale_pos_of_neg h)
  rw [selected_scale, total_scale] at hle
  linarith

theorem selected_eq_zero_iff_of_neg (h : ∀ e ∈ es, e.2 < 0) :
    selected σ es = 0 ↔ ¬ ∃ i ∈ es.map Prod.fst, σ i = true := by
  have hiff := selected_eq_zero_iff (σ := σ) (scale_pos_of_neg h)
  rwa [selected_scale, scale_keys, neg_one_mul, neg_eq_zero] at hiff

theorem selected_eq_total_iff_of_neg (h : ∀ e ∈ es, e.2 < 0) :
    selected σ es = total es ↔ ∀ i ∈ es.map Prod.fst, σ i = true := by
  have hiff := selected_eq_total_iff (σ := σ) (scale_pos_of_neg h)
  rwa [selected_scale, total_scale, scale_keys, neg_one_mul, neg_one_mul, neg_inj] at hiff

theorem total_neg (h : ∀ e ∈ es, e.2 < 0) (hne : es ≠ []) : total es < 0 := by
  have hpos := total_pos (scale_pos_of_neg h) (by simpa [scale] using hne)
  rw [total_scale] at hpos
  linarith

end Negative

end Combination
