import Smtrat.Datastructures.BoundOrder

/-!
# The bounds of one variable

The supremum of a variable is the first of its active upper bounds and its infimum is the last of
its active lower bounds.  The interval between them contains the values that meet all the active
bounds.
-/

namespace Smtrat.VB
open List Function Option

universe w

/-- The values of an interval. -/
def Interval.Contains (i : Interval) (r : ℝ) : Prop :=
  (∀ l strict, i.lower = some (l, strict) → if strict then (l : ℝ) < r else (l : ℝ) ≤ r) ∧
    ∀ u strict, i.upper = some (u, strict) → if strict then r < (u : ℝ) else r ≤ (u : ℝ)

variable {b : Bound}

theorem isActive_iff {T : Type w} {y : Variable T} (hb : b.mpLimit ≠ none) :
    y.isActive b ↔ y.mpOrigins b ≠ [] := by
  obtain ⟨t, l⟩ := b
  cases l with
  | none => exact absurd rfl hb
  | some l => simp [Variable.isActive, Bound.isInfinite]

open Smtrat.VB.Bound

namespace Variable

variable {T : Type w} {y : Variable T}

/-! ## Sets of bounds -/

/-- The sets of bounds of a variable are in order, and each has its infinite bound. -/
structure Sets (y : Variable T) : Prop where
  upper : Ordered Upper upperRank y.mUpperbounds
  lower : Ordered Lower lowerRank y.mLowerbounds
  supremum_mem : supremumOfAll ∈ y.mUpperbounds
  infimum_mem : infimumOfAll ∈ y.mLowerbounds
  equal : ∀ b, b.mType = .equal → (b ∈ y.mUpperbounds ↔ b ∈ y.mLowerbounds)

/-- The bound is in the sets it belongs to. -/
def Known (y : Variable T) (b : Bound) : Prop :=
  (b.isUpperBound → b ∈ y.mUpperbounds) ∧ (b.isLowerBound → b ∈ y.mLowerbounds)

/-- The bound is the strictest of the active upper bounds. -/
structure IsSupremum (y : Variable T) (b : Bound) : Prop where
  mem : b ∈ y.mUpperbounds
  active : y.isActive b
  le : ∀ c ∈ y.mUpperbounds, y.isActive c → b.upperRank ≤ c.upperRank

/-- The bound is the strictest of the active lower bounds. -/
structure IsInfimum (y : Variable T) (b : Bound) : Prop where
  mem : b ∈ y.mLowerbounds
  active : y.isActive b
  le : ∀ c ∈ y.mLowerbounds, y.isActive c → c.lowerRank ≤ b.lowerRank

variable {y' : Variable T}

theorem Sets.congr (hy : y.Sets) (hu : y'.mUpperbounds = y.mUpperbounds)
    (hl : y'.mLowerbounds = y.mLowerbounds) : y'.Sets where
  upper := hu ▸ hy.upper
  lower := hl ▸ hy.lower
  supremum_mem := hu ▸ hy.supremum_mem
  infimum_mem := hl ▸ hy.infimum_mem
  equal := hu ▸ hl ▸ hy.equal

theorem IsSupremum.congr (h : y.IsSupremum b) (hu : y'.mUpperbounds = y.mUpperbounds)
    (hact : ∀ c ∈ y.mUpperbounds, y'.isActive c = y.isActive c) : y'.IsSupremum b where
  mem := hu ▸ h.mem
  active := (hact b h.mem).trans h.active
  le := fun c hc hc' => by
    rw [hu] at hc
    exact h.le c hc ((hact c hc).symm.trans hc')

theorem IsInfimum.congr (h : y.IsInfimum b) (hl : y'.mLowerbounds = y.mLowerbounds)
    (hact : ∀ c ∈ y.mLowerbounds, y'.isActive c = y.isActive c) : y'.IsInfimum b where
  mem := hl ▸ h.mem
  active := (hact b h.mem).trans h.active
  le := fun c hc hc' => by
    rw [hl] at hc
    exact h.le c hc ((hact c hc).symm.trans hc')

structure WellFormed (y : Variable T) : Prop where
  sets : y.Sets
  known : ∀ b, y.mpOrigins b ≠ [] → y.Known b
  supremum : y.IsSupremum y.mpSupremum
  infimum : y.IsInfimum y.mpInfimum

theorem new_wellFormed : (new : Variable T).WellFormed where
  sets :=
    { upper := ⟨by simp [new, Upper, supremumOfAll, isUpperBound], pairwise_singleton _ _⟩
      lower := ⟨by simp [new, Lower, infimumOfAll, isLowerBound], pairwise_singleton _ _⟩
      supremum_mem := mem_singleton_self _
      infimum_mem := mem_singleton_self _
      equal := by
        rintro ⟨t, l⟩ rfl
        simp [new, supremumOfAll, infimumOfAll] }
  known := fun b hb => absurd rfl hb
  supremum :=
    { mem := mem_singleton_self _
      active := rfl
      le := fun c hc _ => by rw [mem_singleton.mp hc]; exact le_refl _ }
  infimum :=
    { mem := mem_singleton_self _
      active := rfl
      le := fun c hc _ => by rw [mem_singleton.mp hc]; exact le_refl _ }

/-! ## The interval -/

theorem contains_interval {r : ℝ} :
    y.interval.Contains r ↔ y.mpInfimum.LowerSat r ∧ y.mpSupremum.UpperSat r := by
  rw [Interval.Contains, interval]
  refine and_congr ?_ ?_
  · constructor
    · intro h l hl
      have := h l (decide (y.mpInfimum.mType = .strictLower)) (by rw [hl]; rfl)
      simpa using this
    · rintro h l strict hl
      obtain ⟨m, hm, heq⟩ := map_eq_some_iff.mp hl
      obtain ⟨rfl, rfl⟩ := Prod.mk.inj heq
      simpa using h m hm
  · constructor
    · intro h l hl
      have := h l (decide (y.mpSupremum.mType = .strictUpper)) (by rw [hl]; rfl)
      simpa using this
    · rintro h l strict hl
      obtain ⟨m, hm, heq⟩ := map_eq_some_iff.mp hl
      obtain ⟨rfl, rfl⟩ := Prod.mk.inj heq
      simpa using h m hm

theorem conflicting_iff : y.conflicting ↔ ¬ ∃ r, y.interval.Contains r := by
  rw [conflicting, contradict_iff]
  simp only [contains_interval]

/-- The interval contains the values that meet all the bounds with origins. -/
theorem WellFormed.contains_interval_iff (hy : y.WellFormed) {r : ℝ} :
    y.interval.Contains r ↔ ∀ b, y.mpOrigins b ≠ [] → b.mpLimit ≠ none → b.Sat r := by
  rw [contains_interval]
  constructor
  · rintro ⟨hlow, hup⟩ b hb hfin
    have hact := (isActive_iff hfin).mpr hb
    have hknown := hy.known b hb
    refine ⟨fun hu => ?_, fun hl => ?_⟩
    · exact hup.of_rank_le (hy.supremum.le b (hknown.1 hu) hact)
    · exact hlow.of_le_rank (hy.infimum.le b (hknown.2 hl) hact)
  · intro h
    constructor
    · intro l hl
      have hfin : y.mpInfimum.mpLimit ≠ none := by
        rw [hl]
        exact some_ne_none l
      have hsat := h y.mpInfimum ((isActive_iff hfin).mp hy.infimum.active) hfin
      exact hsat.2 (hy.sets.lower.all _ hy.infimum.mem).1 l hl
    · intro l hl
      have hfin : y.mpSupremum.mpLimit ≠ none := by
        rw [hl]
        exact some_ne_none l
      have hsat := h y.mpSupremum ((isActive_iff hfin).mp hy.supremum.active) hfin
      exact hsat.1 (hy.sets.upper.all _ hy.supremum.mem).1 l hl

/-! ## Changes -/

theorem Sets.find_supremum (hy : y.Sets) :
    y.IsSupremum ((y.mUpperbounds.find? y.isActive).getD y.mpSupremum) := by
  cases h : y.mUpperbounds.find? y.isActive with
  | none =>
    have := find?_eq_none.mp h _ hy.supremum_mem
    exact absurd rfl this
  | some b =>
    exact ⟨mem_of_find?_eq_some h, find?_some h, fun c hc hact =>
      hy.upper.find_le h hc hact⟩

theorem Sets.find_infimum (hy : y.Sets) :
    y.IsInfimum ((y.mLowerbounds.reverse.find? y.isActive).getD y.mpInfimum) := by
  cases h : y.mLowerbounds.reverse.find? y.isActive with
  | none =>
    have := find?_eq_none.mp h _ (mem_reverse.mpr hy.infimum_mem)
    exact absurd rfl this
  | some b =>
    exact ⟨mem_reverse.mp (mem_of_find?_eq_some h), find?_some h, fun c hc hact =>
      hy.lower.le_find_reverse h hc hact⟩

/-- The variable has been changed at the bound `b` only. -/
structure ChangedAt (b : Bound) (y y' : Variable T) : Prop where
  sets : y'.Sets
  known : ∀ c, y'.mpOrigins c ≠ [] → y'.Known c
  supremum : y'.mpSupremum = y.mpSupremum
  infimum : y'.mpInfimum = y.mpInfimum
  uppers : ¬ b.isUpperBound → y'.mUpperbounds = y.mUpperbounds
  lowers : ¬ b.isLowerBound → y'.mLowerbounds = y.mLowerbounds
  origins : ∀ c, c ≠ b → y'.mpOrigins c = y.mpOrigins c

theorem ChangedAt.isActive {c : Bound} (h : ChangedAt b y y') (hc : c ≠ b) :
    y'.isActive c = y.isActive c := by
  rw [Variable.isActive, Variable.isActive, h.origins c hc]

/-- The infimum and the supremum are those of the changed bounds once they have been updated. -/
theorem WellFormed.updateBounds (hy : y.WellFormed)
    (h : ChangedAt b y y') : (y'.updateBounds b).WellFormed where
  sets := h.sets.congr rfl rfl
  known := h.known
  supremum := by
    by_cases hb : b.isUpperBound
    · simp only [Variable.updateBounds, if_pos hb]
      exact h.sets.find_supremum.congr rfl fun _ _ => rfl
    · simp only [Variable.updateBounds, if_neg hb, h.supremum]
      refine hy.supremum.congr (h.uppers hb) fun c hc => h.isActive ?_
      rintro rfl
      exact hb (hy.sets.upper.all c hc).1
  infimum := by
    by_cases hb : b.isLowerBound
    · simp only [Variable.updateBounds, if_pos hb]
      exact h.sets.find_infimum.congr rfl fun _ _ => rfl
    · simp only [Variable.updateBounds, if_neg hb, h.infimum]
      refine hy.infimum.congr (h.lowers hb) fun c hc => h.isActive ?_
      rintro rfl
      exact hb (hy.sets.lower.all c hc).1

/-- When the bound is as active as before, nothing has to be updated. -/
theorem WellFormed.of_changedAt (hy : y.WellFormed)
    (h : ChangedAt b y y') (huppers : y'.mUpperbounds = y.mUpperbounds)
    (hlowers : y'.mLowerbounds = y.mLowerbounds) (hb : y'.isActive b = y.isActive b) :
    y'.WellFormed := by
  have hact : ∀ c, y'.isActive c = y.isActive c := by
    intro c
    by_cases hc : c = b
    · rw [hc, hb]
    · exact h.isActive hc
  exact
    { sets := h.sets
      known := h.known
      supremum := h.supremum ▸ hy.supremum.congr huppers fun c _ => hact c
      infimum := h.infimum ▸ hy.infimum.congr hlowers fun c _ => hact c }

/-- The origins of a bound in the sets are changed. -/
theorem WellFormed.changedAt_origins (hy : y.WellFormed) (hb : y.Known b) (os : List T) :
    ChangedAt b y { y with mpOrigins := update y.mpOrigins b os } where
  sets := hy.sets.congr rfl rfl
  known := by
    intro c hc
    by_cases hcb : c = b
    · rw [hcb]
      exact hb
    · have hne : update y.mpOrigins b os c = y.mpOrigins c := update_of_ne hcb _ _
      exact hy.known c (hne ▸ hc)
  supremum := rfl
  infimum := rfl
  uppers := fun _ => rfl
  lowers := fun _ => rfl
  origins := fun c hc => update_of_ne hc _ _

/-! ## Insertion of bounds -/

/-- What the insertion of a bound does to the variable. -/
structure InsertSpec (b : Bound) (y y' : Variable T) : Prop where
  sets : y'.Sets
  mem : y'.Known b
  uppers_mono : ∀ c ∈ y.mUpperbounds, c ∈ y'.mUpperbounds
  lowers_mono : ∀ c ∈ y.mLowerbounds, c ∈ y'.mLowerbounds
  uppers : ¬ b.isUpperBound → y'.mUpperbounds = y.mUpperbounds
  lowers : ¬ b.isLowerBound → y'.mLowerbounds = y.mLowerbounds
  supremum : y'.mpSupremum = y.mpSupremum
  infimum : y'.mpInfimum = y.mpInfimum
  origins : y'.mpOrigins = y.mpOrigins

theorem Sets.insertUpper (hy : y.Sets) (hb : b.Upper) (hne : b.mType ≠ .equal) :
    InsertSpec b y { y with mUpperbounds := (b.insert y.mUpperbounds).1 } where
  sets :=
    { hy with
      upper := hy.upper.insert upper_ranked hb
      supremum_mem := (mem_insert upper_ranked hb hy.upper.all _).mpr (Or.inr hy.supremum_mem)
      equal := fun c hc => by
        refine (mem_insert upper_ranked hb hy.upper.all c).trans ((or_iff_right ?_).trans
          (hy.equal c hc))
        rintro rfl
        exact hne hc }
  mem := by
    refine ⟨fun _ => (mem_insert upper_ranked hb hy.upper.all b).mpr (Or.inl rfl), fun hl => ?_⟩
    have hu := hb.1
    obtain ⟨t, l⟩ := b
    cases t <;> simp [isUpperBound, isLowerBound] at hu hl hne
  uppers_mono := fun c hc => (mem_insert upper_ranked hb hy.upper.all c).mpr (Or.inr hc)
  lowers_mono := fun c hc => hc
  uppers := fun h => absurd hb.1 h
  lowers := fun _ => rfl
  supremum := rfl
  infimum := rfl
  origins := rfl

theorem Sets.insertLower (hy : y.Sets) (hb : b.Lower) (hne : b.mType ≠ .equal) :
    InsertSpec b y { y with mLowerbounds := (b.insert y.mLowerbounds).1 } where
  sets :=
    { hy with
      lower := hy.lower.insert lower_ranked hb
      infimum_mem := (mem_insert lower_ranked hb hy.lower.all _).mpr (Or.inr hy.infimum_mem)
      equal := fun c hc => by
        refine (hy.equal c hc).trans ((or_iff_right ?_).symm.trans
          (mem_insert lower_ranked hb hy.lower.all c).symm)
        rintro rfl
        exact hne hc }
  mem := by
    refine ⟨fun hu => ?_, fun _ => (mem_insert lower_ranked hb hy.lower.all b).mpr (Or.inl rfl)⟩
    have hl := hb.1
    obtain ⟨t, l⟩ := b
    cases t <;> simp [isUpperBound, isLowerBound] at hu hl hne
  uppers_mono := fun c hc => hc
  lowers_mono := fun c hc => (mem_insert lower_ranked hb hy.lower.all c).mpr (Or.inr hc)
  uppers := fun _ => rfl
  lowers := fun h => absurd hb.1 h
  supremum := rfl
  infimum := rfl
  origins := rfl

theorem Sets.insertEqual (hy : y.Sets) {l : ℚ} :
    InsertSpec ⟨.equal, some l⟩ y (y.insertBound ⟨.equal, some l⟩) := by
  have hu : Upper ⟨.equal, some l⟩ := ⟨rfl, nofun⟩
  have hl : Lower ⟨.equal, some l⟩ := ⟨rfl, nofun⟩
  have hup := mem_insert upper_ranked hu hy.upper.all
  have hlow := mem_insert lower_ranked hl hy.lower.all
  have hsnd := insert_snd upper_ranked hu hy.upper
  rw [insertBound]
  dsimp only
  split_ifs with hnew
  · exact
      { sets :=
          { upper := hy.upper.insert upper_ranked hu
            lower := hy.lower.insert lower_ranked hl
            supremum_mem := (hup _).mpr (Or.inr hy.supremum_mem)
            infimum_mem := (hlow _).mpr (Or.inr hy.infimum_mem)
            equal := fun c hc =>
              (hup c).trans ((or_congr_right (hy.equal c hc)).trans (hlow c).symm) }
        mem := ⟨fun _ => (hup _).mpr (Or.inl rfl), fun _ => (hlow _).mpr (Or.inl rfl)⟩
        uppers_mono := fun c hc => (hup c).mpr (Or.inr hc)
        lowers_mono := fun c hc => (hlow c).mpr (Or.inr hc)
        uppers := fun h => absurd rfl h
        lowers := fun h => absurd rfl h
        supremum := rfl
        infimum := rfl
        origins := rfl }
  · -- An equation that is an upper bound is a lower bound already.
    have hmem := not_not.mp (mt hsnd.mpr hnew)
    exact
      { sets := hy
        mem := ⟨fun _ => hmem, fun _ => (hy.equal _ rfl).mp hmem⟩
        uppers_mono := fun c hc => hc
        lowers_mono := fun c hc => hc
        uppers := fun _ => rfl
        lowers := fun _ => rfl
        supremum := rfl
        infimum := rfl
        origins := rfl }

theorem Sets.insertBound (hy : y.Sets) (hb : b.mpLimit ≠ none) :
    InsertSpec b y (y.insertBound b) := by
  obtain ⟨t, l⟩ := b
  cases t with
  | strictLower => exact hy.insertLower ⟨rfl, fun h => absurd h hb⟩ nofun
  | weakLower => exact hy.insertLower ⟨rfl, fun h => absurd h hb⟩ nofun
  | equal =>
    obtain ⟨l, rfl⟩ := ne_none_iff_exists'.mp hb
    exact hy.insertEqual
  | weakUpper => exact hy.insertUpper ⟨rfl, fun h => absurd h hb⟩ nofun
  | strictUpper => exact hy.insertUpper ⟨rfl, fun h => absurd h hb⟩ nofun

/-- A bound is inserted and its origins are changed. -/
theorem WellFormed.changedAt_insert (hy : y.WellFormed) (hb : b.mpLimit ≠ none) (os : List T) :
    ChangedAt b y { y.insertBound b with
      mpOrigins := update (y.insertBound b).mpOrigins b os } := by
  have h := hy.sets.insertBound hb
  exact
    { sets := h.sets.congr rfl rfl
      known := by
        intro c hc
        by_cases hcb : c = b
        · rw [hcb]
          exact h.mem
        · have hne : update (y.insertBound b).mpOrigins b os c = y.mpOrigins c := by
            rw [update_of_ne hcb, h.origins]
          have hknown := hy.known c (hne ▸ hc)
          exact ⟨fun hu => h.uppers_mono c (hknown.1 hu), fun hl => h.lowers_mono c (hknown.2 hl)⟩
      supremum := h.supremum
      infimum := h.infimum
      uppers := h.uppers
      lowers := h.lowers
      origins := fun c hc => by
        dsimp only
        rw [update_of_ne hc, h.origins] }

end Variable

end Smtrat.VB
