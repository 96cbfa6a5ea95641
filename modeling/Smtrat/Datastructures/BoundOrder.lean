import Smtrat.Datastructures.VariableBounds

/-!
# The order of bounds

Among the upper bounds of a variable the stricter ones come first, among the lower bounds they come
last.  The strictest active bound of a side implies all the others.
-/

namespace Smtrat.VB
open List Option

namespace Bound

/-! ## Ranks -/

/-- Upper bounds as they are made. -/
def Upper (b : Bound) : Prop := b.isUpperBound ∧ (b.mpLimit = none → b.mType = .strictUpper)

/-- Lower bounds as they are made. -/
def Lower (b : Bound) : Prop := b.isLowerBound ∧ (b.mpLimit = none → b.mType = .strictLower)

/-- At one limit, the strict bound comes before the equation and this before the weak bound. -/
def upperRank (b : Bound) : WithTop (ℚ ×ₗ ℕ) :=
  b.mpLimit.map fun l => toLex (l, match b.mType with
    | .strictUpper => 0
    | .equal => 1
    | _ => 2)

/-- At one limit, the weak bound comes before the equation and this before the strict bound. -/
def lowerRank (b : Bound) : WithBot (ℚ ×ₗ ℕ) :=
  b.mpLimit.map fun l => toLex (l, match b.mType with
    | .strictLower => 2
    | .equal => 1
    | _ => 0)

theorem upperRank_none (t : BoundType) : upperRank ⟨t, none⟩ = ⊤ := rfl

theorem upperRank_some (t : BoundType) (l : ℚ) :
    upperRank ⟨t, some l⟩ = ((toLex (l, match t with
      | .strictUpper => 0
      | .equal => 1
      | _ => 2) : ℚ ×ₗ ℕ) : WithTop (ℚ ×ₗ ℕ)) := rfl

theorem lowerRank_none (t : BoundType) : lowerRank ⟨t, none⟩ = ⊥ := rfl

theorem lowerRank_some (t : BoundType) (l : ℚ) :
    lowerRank ⟨t, some l⟩ = ((toLex (l, match t with
      | .strictLower => 2
      | .equal => 1
      | _ => 0) : ℚ ×ₗ ℕ) : WithBot (ℚ ×ₗ ℕ)) := rfl

/-- On the bounds with the property `P`, the order of bounds is the order of their ranks, which
tell them apart. -/
structure Ranked {α : Type*} [LinearOrder α] (P : Bound → Prop) (rank : Bound → α) : Prop where
  lt_iff : ∀ a b, P a → P b → (a.lt b ↔ rank a < rank b)
  inj : ∀ a b, P a → P b → rank a = rank b → a = b

theorem upper_ranked : Ranked Upper upperRank where
  lt_iff := by
    rintro ⟨s, l⟩ ⟨t, m⟩ ⟨hs, hl⟩ ⟨ht, hm⟩
    cases l with
    | none => cases m <;> simp_all [lt, upperRank_none, upperRank_some]
    | some l =>
      cases m with
      | none => simp_all [lt, upperRank_none, upperRank_some]
      | some m =>
        rw [upperRank_some, upperRank_some, WithTop.coe_lt_coe, Prod.Lex.toLex_lt_toLex, lt,
          if_pos (by simp [hs, ht])]
        cases s <;> cases t <;> simp_all [isUpperBound]
  inj := by
    rintro ⟨s, l⟩ ⟨t, m⟩ ⟨hs, hl⟩ ⟨ht, hm⟩ h
    cases l with
    | none => cases m <;> simp_all [upperRank_none, upperRank_some]
    | some l =>
      cases m with
      | none => simp_all [upperRank_none, upperRank_some]
      | some m =>
        rw [upperRank_some, upperRank_some, WithTop.coe_inj] at h
        cases s <;> cases t <;> simp_all [isUpperBound]

theorem lower_ranked : Ranked Lower lowerRank where
  lt_iff := by
    rintro ⟨s, l⟩ ⟨t, m⟩ ⟨hs, hl⟩ ⟨ht, hm⟩
    cases l with
    | none => cases m <;> simp_all [lt, lowerRank_none, lowerRank_some, isUpperBound]
    | some l =>
      cases m with
      | none => simp_all [lt, lowerRank_none, lowerRank_some, isUpperBound]
      | some m =>
        rw [lowerRank_some, lowerRank_some, WithBot.coe_lt_coe, Prod.Lex.toLex_lt_toLex, lt]
        cases s <;> cases t <;> simp_all [isLowerBound, isUpperBound]
  inj := by
    rintro ⟨s, l⟩ ⟨t, m⟩ ⟨hs, hl⟩ ⟨ht, hm⟩ h
    cases l with
    | none => cases m <;> simp_all [lowerRank_none, lowerRank_some]
    | some l =>
      cases m with
      | none => simp_all [lowerRank_none, lowerRank_some]
      | some m =>
        rw [lowerRank_some, lowerRank_some, WithBot.coe_inj] at h
        cases s <;> cases t <;> simp_all [isLowerBound]

/-! ## Ordered sets -/

section Ordered

variable {α : Type*} [LinearOrder α] {P : Bound → Prop} {rank : Bound → α}

/-- A set of bounds with the property `P`, in the order of their ranks. -/
structure Ordered (P : Bound → Prop) (rank : Bound → α) (bs : List Bound) : Prop where
  all : ∀ b ∈ bs, P b
  sorted : bs.Pairwise (rank · < rank ·)

variable (hrank : Ranked P rank) {b : Bound} {bs : List Bound}

include hrank

/-- A bound that is not inserted is in the set already. -/
theorem mem_insert (hb : P b) (hbs : ∀ c ∈ bs, P c) (c : Bound) :
    c ∈ (b.insert bs).1 ↔ c = b ∨ c ∈ bs := by
  induction bs with
  | nil => simp [insert]
  | cons d ds ih =>
    have hd := hbs d mem_cons_self
    rw [insert]
    split_ifs with hbd hdb
    · exact mem_cons
    · rw [mem_cons, ih fun c hc => hbs c (mem_cons_of_mem d hc), mem_cons]
      exact or_left_comm
    · have heq : b = d := by
        rw [hrank.lt_iff b d hb hd] at hbd
        rw [hrank.lt_iff d b hd hb] at hdb
        exact hrank.inj b d hb hd (le_antisymm (not_lt.mp hdb) (not_lt.mp hbd))
      subst heq
      rw [mem_cons, or_self_left]

theorem insert_snd (hb : P b) (hbs : Ordered P rank bs) : (b.insert bs).2 = true ↔ b ∉ bs := by
  obtain ⟨hall, hsorted⟩ := hbs
  induction bs with
  | nil => simp [insert]
  | cons d ds ih =>
    have hd := hall d mem_cons_self
    obtain ⟨hlt, hsorted⟩ := pairwise_cons.mp hsorted
    have hall' : ∀ c ∈ ds, P c := fun c hc => hall c (mem_cons_of_mem d hc)
    rw [insert]
    split_ifs with hbd hdb
    · rw [hrank.lt_iff b d hb hd] at hbd
      refine iff_of_true rfl fun hmem => ?_
      rcases mem_cons.mp hmem with rfl | hmem
      · exact hbd.false
      · exact (hbd.trans (hlt b hmem)).false
    · rw [hrank.lt_iff d b hd hb] at hdb
      rw [ih hall' hsorted, mem_cons, not_or]
      refine (and_iff_right ?_).symm
      rintro rfl
      exact hdb.false
    · rw [hrank.lt_iff b d hb hd] at hbd
      rw [hrank.lt_iff d b hd hb] at hdb
      have heq := hrank.inj b d hb hd (le_antisymm (not_lt.mp hdb) (not_lt.mp hbd))
      refine iff_of_false (by simp) (not_not.mpr ?_)
      rw [heq]
      exact mem_cons_self

theorem Ordered.insert (hbs : Ordered P rank bs) (hb : P b) : Ordered P rank (b.insert bs).1 where
  all := by
    intro c hc
    rcases (mem_insert hrank hb hbs.all c).mp hc with rfl | hc
    · exact hb
    · exact hbs.all c hc
  sorted := by
    obtain ⟨hall, hsorted⟩ := hbs
    induction bs with
    | nil => simp [Bound.insert]
    | cons d ds ih =>
      have hd := hall d mem_cons_self
      obtain ⟨hlt, hsorted'⟩ := pairwise_cons.mp hsorted
      have hall' : ∀ c ∈ ds, P c := fun c hc => hall c (mem_cons_of_mem d hc)
      rw [Bound.insert]
      split_ifs with hbd hdb
      · rw [hrank.lt_iff b d hb hd] at hbd
        refine pairwise_cons.mpr ⟨fun c hc => ?_, hsorted⟩
        rcases mem_cons.mp hc with rfl | hc
        · exact hbd
        · exact hbd.trans (hlt c hc)
      · rw [hrank.lt_iff d b hd hb] at hdb
        refine pairwise_cons.mpr ⟨fun c hc => ?_, ih hall' hsorted'⟩
        rcases (mem_insert hrank hb hall' c).mp hc with rfl | hc
        · exact hdb
        · exact hlt c hc
      · exact hsorted

omit hrank in
/-- The first bound with a property has the least rank. -/
theorem Ordered.find_le (hbs : Ordered P rank bs) {p : Bound → Bool} (h : bs.find? p = some b)
    {c : Bound} (hc : c ∈ bs) (hp : p c) : rank b ≤ rank c := by
  obtain ⟨-, before, after, rfl, hbef⟩ := find?_eq_some_iff_append.mp h
  rcases mem_append.mp hc with hc | hc
  · have := hbef c hc
    simp [hp] at this
  · rcases mem_cons.mp hc with rfl | hc
    · exact le_refl _
    · have hsorted := (pairwise_append.mp hbs.sorted).2.1
      exact ((pairwise_cons.mp hsorted).1 c hc).le

omit hrank in
/-- The last bound with a property has the greatest rank. -/
theorem Ordered.le_find_reverse (hbs : Ordered P rank bs) {p : Bound → Bool}
    (h : bs.reverse.find? p = some b) {c : Bound} (hc : c ∈ bs) (hp : p c) :
    rank c ≤ rank b := by
  obtain ⟨-, before, after, heq, hbef⟩ := find?_eq_some_iff_append.mp h
  have hsorted : (before ++ b :: after).Pairwise fun x y => rank y < rank x := by
    rw [← heq]
    exact pairwise_reverse.mpr hbs.sorted
  have hmem : c ∈ before ++ b :: after := by
    rw [← heq]
    exact mem_reverse.mpr hc
  rcases mem_append.mp hmem with hc | hc
  · have := hbef c hc
    simp [hp] at this
  · rcases mem_cons.mp hc with rfl | hc
    · exact le_refl _
    · exact ((pairwise_cons.mp (pairwise_append.mp hsorted).2.1).1 c hc).le

end Ordered

/-! ## Values -/

/-- What a bound says from above, if it is an upper bound. -/
def UpperSat (b : Bound) (r : ℝ) : Prop :=
  ∀ l, b.mpLimit = some l → if b.mType = .strictUpper then r < l else r ≤ l

/-- What a bound says from below, if it is a lower bound. -/
def LowerSat (b : Bound) (r : ℝ) : Prop :=
  ∀ l, b.mpLimit = some l → if b.mType = .strictLower then l < r else l ≤ r

def Sat (b : Bound) (r : ℝ) : Prop :=
  (b.isUpperBound → b.UpperSat r) ∧ (b.isLowerBound → b.LowerSat r)

/-- A bound implies the ones after it. -/
theorem UpperSat.of_rank_le {a b : Bound} {r : ℝ} (hr : a.UpperSat r)
    (h : a.upperRank ≤ b.upperRank) : b.UpperSat r := by
  obtain ⟨s, l⟩ := a
  obtain ⟨t, m⟩ := b
  rintro m rfl
  cases l with
  | none =>
    rw [upperRank_none, upperRank_some] at h
    exact absurd (top_le_iff.mp h) (WithTop.coe_ne_top)
  | some l =>
    rw [upperRank_some, upperRank_some, WithTop.coe_le_coe, Prod.Lex.toLex_le_toLex] at h
    have hl := hr l rfl
    rcases h with h | ⟨rfl, h⟩
    · have hlm : (l : ℝ) < m := Rat.cast_lt.mpr h
      dsimp only at hl ⊢
      split_ifs at hl ⊢ <;> linarith
    · cases s <;> cases t <;> simp_all
      all_goals exact hl.le

/-- A bound implies the ones before it. -/
theorem LowerSat.of_le_rank {a b : Bound} {r : ℝ} (hr : a.LowerSat r)
    (h : b.lowerRank ≤ a.lowerRank) : b.LowerSat r := by
  obtain ⟨s, l⟩ := a
  obtain ⟨t, m⟩ := b
  rintro m rfl
  cases l with
  | none =>
    rw [lowerRank_none, lowerRank_some] at h
    exact absurd (le_bot_iff.mp h) (WithBot.coe_ne_bot)
  | some l =>
    rw [lowerRank_some, lowerRank_some, WithBot.coe_le_coe, Prod.Lex.toLex_le_toLex] at h
    have hl := hr l rfl
    rcases h with h | ⟨rfl, h⟩
    · have hlm : (m : ℝ) < l := Rat.cast_lt.mpr h
      dsimp only at hl ⊢
      split_ifs at hl ⊢ <;> linarith
    · cases s <;> cases t <;> simp_all
      all_goals exact hl.le

/-- A lower and an upper bound contradict each other if no value meets both. -/
theorem contradict_iff {l u : Bound} : l.contradict u ↔ ¬ ∃ r : ℝ, l.LowerSat r ∧ u.UpperSat r := by
  obtain ⟨s, l⟩ := l
  obtain ⟨t, u⟩ := u
  rw [contradict]
  cases l with
  | none =>
    refine iff_of_false (by simp) (not_not.mpr ?_)
    cases u with
    | none => exact ⟨0, nofun, nofun⟩
    | some u =>
      refine ⟨u - 1, nofun, fun m hm => ?_⟩
      obtain rfl := some.inj hm
      split_ifs <;> linarith
  | some l =>
    cases u with
    | none =>
      refine iff_of_false (by simp) (not_not.mpr ⟨l + 1, fun m hm => ?_, nofun⟩)
      obtain rfl := some.inj hm
      split_ifs <;> linarith
    | some u =>
      dsimp only
      rw [Bool.or_eq_true, Bool.and_eq_true, decide_eq_true_eq, decide_eq_true_eq]
      constructor
      · rintro h ⟨r, hl, hu⟩
        have hlr := hl l rfl
        have hru := hu u rfl
        dsimp only at hlr hru
        have hle : (l : ℝ) ≤ r := by split_ifs at hlr <;> linarith
        have hle' : r ≤ (u : ℝ) := by split_ifs at hru <;> linarith
        rcases h with h | ⟨rfl, h⟩
        · have : (u : ℝ) < l := Rat.cast_lt.mpr h
          linarith
        · rcases Bool.or_eq_true_iff.mp h with h | h <;> rw [decide_eq_true_eq] at h
          · rw [if_pos h] at hlr
            linarith
          · rw [if_pos h] at hru
            linarith
      · intro h
        by_contra hno
        rw [not_or, not_lt] at hno
        obtain ⟨hlu, hno⟩ := hno
        rcases hlu.lt_or_eq with hlt | rfl
        · have hlt' : (l : ℝ) < u := Rat.cast_lt.mpr hlt
          refine h ⟨(l + u) / 2, fun m hm => ?_, fun m hm => ?_⟩ <;>
            obtain rfl := some.inj hm <;> split_ifs <;> linarith
        · have hweak : s ≠ .strictLower ∧ t ≠ .strictUpper := by
            simpa [not_or] using hno
          refine h ⟨l, fun m hm => ?_, fun m hm => ?_⟩ <;> obtain rfl := some.inj hm
          · rw [if_neg hweak.1]
          · rw [if_neg hweak.2]

end Bound

end Smtrat.VB
