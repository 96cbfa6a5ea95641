import Smtrat.Common.Relation

/-!
# Cells of the real line

Finitely many cuts split the line into the cuts and the open intervals between them.  Two points in
the same cell compare with every cut in the same way, and a polynomial whose zeros are among the cuts
has the same sign at both.
-/

/-!
## Bounds and holes on a line

A finite system of lower bounds, upper bounds and excluded points over a dense linear order
without endpoints.  It has a solution unless a lower bound conflicts with an upper one, or the two
leave a single point and that point is excluded: no other combination has to be looked at.
-/

namespace Line
open List

variable {K : Type*} [LinearOrder K]

/-- A limit, which may be excluded itself. -/
structure Limit (K : Type*) where
  value : K
  strict : Bool

namespace Limit

/-- The point is on the upper side of the limit. -/
def Above (l : Limit K) (v : K) : Prop := if l.strict then l.value < v else l.value ≤ v

/-- The point is on the lower side of the limit. -/
def Below (u : Limit K) (v : K) : Prop := if u.strict then v < u.value else v ≤ u.value

variable {v : K} {l : Limit K}

theorem Above.le (h : l.Above v) : l.value ≤ v := by
  rw [Above] at h
  split_ifs at h
  · exact h.le
  · exact h

variable {u : Limit K}

theorem Below.le (h : u.Below v) : v ≤ u.value := by
  rw [Below] at h
  split_ifs at h
  · exact h.le
  · exact h

theorem above_of_lt (h : l.value < v) : l.Above v := by
  rw [Above]
  split_ifs
  · exact h
  · exact h.le

theorem below_of_lt (h : v < u.value) : u.Below v := by
  rw [Below]
  split_ifs
  · exact h
  · exact h.le

theorem above_self (h : l.strict = false) : l.Above l.value := by
  rw [Above, h]
  exact le_refl l.value

theorem below_self (h : u.strict = false) : u.Below u.value := by
  rw [Below, h]
  exact le_refl u.value

/-- A lower and an upper bound leave a single point. -/
def Touch (l u : Limit K) : Prop := l.value = u.value ∧ l.strict = false ∧ u.strict = false

/-- A lower and an upper bound leave at least one point. -/
def Compatible (l u : Limit K) : Prop := l.value < u.value ∨ Touch l u

theorem compatible_of_solution (hl : l.Above v) (hu : u.Below v) :
    Compatible l u := by
  rcases (hl.le.trans hu.le).lt_or_eq with hlt | heq
  · exact .inl hlt
  · have hlv : l.value = v := le_antisymm hl.le (heq ▸ hu.le)
    have huv : v = u.value := le_antisymm hu.le (heq ▸ hl.le)
    refine .inr ⟨heq, ?_, ?_⟩
    · by_contra hstr
      rw [Above, if_pos (by simpa using hstr)] at hl
      exact hl.ne hlv
    · by_contra hstr
      rw [Below, if_pos (by simpa using hstr)] at hu
      exact hu.ne huv

end Limit

variable [DenselyOrdered K] [NoMinOrder K] [NoMaxOrder K] [Nonempty K]

/-- Between finitely many points below and finitely many points above there is one that is none
of finitely many others. -/
theorem exists_between_avoiding (lo hi excluded : Finset K) (h : ∀ a ∈ lo, ∀ b ∈ hi, a < b) :
    ∃ m, (∀ a ∈ lo, a < m) ∧ (∀ b ∈ hi, m < b) ∧ m ∉ excluded := by
  classical
  -- the excluded points above all of `lo` are treated as further points above
  obtain ⟨m, hlo, hhi⟩ := Order.exists_between_finsets lo
    (hi ∪ excluded.filter fun e => ∀ a ∈ lo, a < e) (by
      intro a ha b hb
      rcases Finset.mem_union.mp hb with hb | hb
      · exact h a ha b hb
      · exact (Finset.mem_filter.mp hb).2 a ha)
  refine ⟨m, hlo, fun b hb => hhi b (Finset.mem_union_left _ hb), ?_⟩
  intro hm
  exact (hhi m (Finset.mem_union_right _ (Finset.mem_filter.mpr ⟨hm, hlo⟩))).false

/-- The conflicts that have to be looked for. -/
theorem exists_solution_iff {lower upper : List (Limit K)} {excluded : List K} :
    (∃ v, (∀ l ∈ lower, l.Above v) ∧ (∀ u ∈ upper, u.Below v) ∧ v ∉ excluded) ↔
      (∀ l ∈ lower, ∀ u ∈ upper, Limit.Compatible l u) ∧
        ∀ l ∈ lower, ∀ u ∈ upper, Limit.Touch l u → l.value ∉ excluded := by
  classical
  constructor
  · rintro ⟨v, hlow, hup, hexcl⟩
    refine ⟨fun l hl u hu => Limit.compatible_of_solution (hlow l hl) (hup u hu), ?_⟩
    rintro l hl u hu ⟨heq, -, -⟩
    have hv : l.value = v := le_antisymm (hlow l hl).le (heq ▸ (hup u hu).le)
    rwa [hv]
  · rintro ⟨hcompat, htouch⟩
    by_cases hpoint : ∃ l ∈ lower, ∃ u ∈ upper, Limit.Touch l u
    · obtain ⟨l, hl, u, hu, ht⟩ := hpoint
      refine ⟨l.value, ?_, ?_, htouch l hl u hu ht⟩
      · intro l' hl'
        rcases hcompat l' hl' u hu with hlt | ⟨heq, hstr, -⟩
        · exact Limit.above_of_lt (ht.1 ▸ hlt)
        · rw [ht.1, ← heq]
          exact Limit.above_self hstr
      · intro u' hu'
        rcases hcompat l hl u' hu' with hlt | ⟨heq, -, hstr⟩
        · exact Limit.below_of_lt hlt
        · rw [heq]
          exact Limit.below_self hstr
    · have hlt : ∀ a ∈ (lower.map Limit.value).toFinset, ∀ b ∈ (upper.map Limit.value).toFinset,
          a < b := by
        intro a ha b hb
        obtain ⟨l, hl, rfl⟩ := mem_map.mp (mem_toFinset.mp ha)
        obtain ⟨u, hu, rfl⟩ := mem_map.mp (mem_toFinset.mp hb)
        exact (hcompat l hl u hu).resolve_right fun ht => hpoint ⟨l, hl, u, hu, ht⟩
      obtain ⟨m, hlo, hhi, hm⟩ := exists_between_avoiding _ _ excluded.toFinset hlt
      refine ⟨m, ?_, ?_, fun h => hm (mem_toFinset.mpr h)⟩
      · exact fun l hl => Limit.above_of_lt (hlo _ (mem_toFinset.mpr (mem_map_of_mem hl)))
      · exact fun u hu => Limit.below_of_lt (hhi _ (mem_toFinset.mpr (mem_map_of_mem hu)))

end Line

namespace LineCells

/-- The points compare with all the cuts in the same way. -/
def SameCell (cuts : List ℝ) (s t : ℝ) : Prop := ∀ c ∈ cuts, (s < c ↔ t < c) ∧ (c < s ↔ c < t)

/-- The set is a union of cells. -/
def Respects (cuts : List ℝ) (S : ℝ → Prop) : Prop := ∀ s t, SameCell cuts s t → (S s ↔ S t)

variable {cuts : List ℝ} {s t c : ℝ}

theorem SameCell.symm (h : SameCell cuts s t) : SameCell cuts t s :=
  fun c hc => ⟨(h c hc).1.symm, (h c hc).2.symm⟩

theorem SameCell.eq_iff (h : SameCell cuts s t) (hc : c ∈ cuts) : s = c ↔ t = c := by
  obtain ⟨hlt, hgt⟩ := h c hc
  rw [le_antisymm_iff, le_antisymm_iff, ← not_lt, ← not_lt, ← not_lt, ← not_lt, hlt, hgt]

theorem SameCell.mono {cuts' : List ℝ} (h : SameCell cuts s t) (hsub : ∀ c ∈ cuts', c ∈ cuts) :
    SameCell cuts' s t :=
  fun c hc => h c (hsub c hc)

/-- Comparing with a cut does not tell the points of a cell apart. -/
theorem respects_relation (r : Smtrat.Relation) (hc : c ∈ cuts) :
    Respects cuts fun t => r.evaluate t c := by
  intro s t h
  have heq := h.eq_iff hc
  obtain ⟨hlt, hgt⟩ := h c hc
  cases r with
  | eq => exact heq
  | neq => exact not_congr heq
  | less => exact hlt
  | leq => exact le_iff_lt_or_eq.trans ((or_congr hlt heq).trans le_iff_lt_or_eq.symm)
  | greater => exact hgt
  | geq => exact not_lt.symm.trans ((not_congr hlt).trans not_lt)

section Polynomial

open Polynomial

variable {P : ℝ[X]}

/-- Between two points with different signs there is a zero. -/
theorem exists_isRoot_between (hs : P.eval s < 0) (ht : 0 < P.eval t) :
    ∃ c, P.IsRoot c ∧ ((s < c ∧ c < t) ∨ (t < c ∧ c < s)) := by
  rcases lt_or_gt_of_ne (fun h : s = t => by subst h; exact lt_asymm hs ht) with hlt | hlt
  · obtain ⟨c, hc, hroot⟩ := intermediate_value_Ioo hlt.le P.continuous.continuousOn ⟨hs, ht⟩
    exact ⟨c, hroot, .inl hc⟩
  · obtain ⟨c, hc, hroot⟩ := intermediate_value_Ioo' hlt.le P.continuous.continuousOn ⟨hs, ht⟩
    exact ⟨c, hroot, .inr hc⟩

theorem eval_neg_of_sameCell (hroots : ∀ c, P.IsRoot c → c ∈ cuts) (h : SameCell cuts s t)
    (hs : P.eval s < 0) : P.eval t < 0 := by
  rcases lt_trichotomy (P.eval t) 0 with ht | ht | ht
  · exact ht
  · have heq := (h.eq_iff (hroots t ht)).mpr rfl
    exact absurd (heq ▸ hs) (by rw [ht]; exact lt_irrefl 0)
  · obtain ⟨c, hc, hbetw⟩ := exists_isRoot_between hs ht
    obtain ⟨hlt, hgt⟩ := h c (hroots c hc)
    rcases hbetw with ⟨hsc, hct⟩ | ⟨htc, hcs⟩
    · exact absurd (hlt.mp hsc) hct.le.not_gt
    · exact absurd (hlt.mpr htc) hcs.le.not_gt

theorem eval_neg_iff_of_sameCell (hroots : ∀ c, P.IsRoot c → c ∈ cuts) (h : SameCell cuts s t) :
    P.eval s < 0 ↔ P.eval t < 0 :=
  ⟨eval_neg_of_sameCell hroots h, eval_neg_of_sameCell hroots h.symm⟩

theorem eval_pos_iff_of_sameCell (hroots : ∀ c, P.IsRoot c → c ∈ cuts) (h : SameCell cuts s t) :
    0 < P.eval s ↔ 0 < P.eval t := by
  have hneg := eval_neg_iff_of_sameCell (P := -P) (s := s) (t := t)
    (fun c hc => hroots c (by simpa [IsRoot] using hc)) h
  simpa using hneg

/-- A sign condition on a polynomial does not tell the points of a cell apart. -/
theorem respects_sign (r : Smtrat.Relation) (hroots : ∀ c, P.IsRoot c → c ∈ cuts) :
    Respects cuts fun t => r.evaluate (P.eval t) 0 := by
  intro s t h
  have hneg := eval_neg_iff_of_sameCell hroots h
  have hpos := eval_pos_iff_of_sameCell hroots h
  have hzero : P.eval s = 0 ↔ P.eval t = 0 := by
    rw [le_antisymm_iff, le_antisymm_iff, ← not_lt, ← not_lt, ← not_lt, ← not_lt, hneg, hpos]
  cases r with
  | eq => exact hzero
  | neq => exact not_congr hzero
  | less => exact hneg
  | leq => exact not_lt.symm.trans ((not_congr hpos).trans not_lt)
  | greater => exact hpos
  | geq => exact not_lt.symm.trans ((not_congr hneg).trans not_lt)

end Polynomial

end LineCells
