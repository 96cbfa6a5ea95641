import Smtrat.Datastructures.RemainingBounds

/-!
# Stored bounds

The invariant of variable bounds: the origins of each bound are the ones it was added with and not
removed for.  What is remembered as a conflict is a matter of its own.
-/

namespace Smtrat.VB

open SparsePoly PropFormula List Function Option

universe u v w

namespace VariableBounds

variable {V : Type u} {B : Type v} {T : Type w} [DecidableEq V]

/-! ## The invariant -/

/-- The variables have the bounds that remain. -/
structure Stores (s : VariableBounds V T) (bounds : List (Constraint V × T)) : Prop where
  wellFormed : ∀ x y, s.mpVariableMap.lookup x = some y → y.WellFormed
  origins : ∀ x y, s.mpVariableMap.lookup x = some y →
    ∀ b, (y.mpOrigins b).Perm (originsOf bounds x b)
  missing : ∀ x, s.mpVariableMap.lookup x = none → ∀ b, originsOf bounds x b = []
  known : ∀ c x b, s.mpConstraintBoundMap c = some (x, b) → boundOf c = some (x, b) ∧
    ∃ y, s.mpVariableMap.lookup x = some y ∧ y.Known b
  interval : ∀ x y, s.mpVariableMap.lookup x = some y → y.mUpdatedExactInterval = false →
    s.mEvalIntervalMap x = y.interval
  bound : ∀ p ∈ bounds, boundOf p.1 ≠ none

/-- A variable is remembered if and only if there is a conflicting one. -/
def Exact (s : VariableBounds V T) : Prop :=
  s.isConflicting ↔ ∃ x y, s.mpVariableMap.lookup x = some y ∧ y.conflicting

theorem initial_stores : (initial : VariableBounds V T).Stores [] where
  wellFormed := fun x y h => by cases h
  origins := fun x y h => by cases h
  missing := fun _ _ _ => rfl
  known := nofun
  interval := fun x y h => by cases h
  bound := nofun

theorem initial_exact : (initial : VariableBounds V T).Exact := by
  refine iff_of_false nofun ?_
  rintro ⟨x, y, h, -⟩
  cases h

theorem lookup_setVariable (s : VariableBounds V T) (x z : V) (y : Variable T) :
    (s.setVariable x y).mpVariableMap.lookup z
      = if z = x then some y else s.mpVariableMap.lookup z := by
  rw [setVariable]
  split_ifs with h
  · rw [h, AList.lookup_insert]
  · exact AList.lookup_insert_ne h

variable {s : VariableBounds V T} {bounds bounds' : List (Constraint V × T)} {x : V}
  {y : Variable T}

/-- The bounds of one variable are changed. -/
theorem Stores.setVariable (h : s.Stores bounds) (hy : y.WellFormed)
    (horigs : ∀ b, (y.mpOrigins b).Perm (originsOf bounds' x b))
    (hother : ∀ z, z ≠ x → ∀ b, originsOf bounds' z b = originsOf bounds z b)
    (hknown : ∀ b y₀, s.mpVariableMap.lookup x = some y₀ → y₀.Known b → y.Known b)
    (hival : y.mUpdatedExactInterval = false → s.mEvalIntervalMap x = y.interval)
    (hbd : ∀ p ∈ bounds', boundOf p.1 ≠ none) : (s.setVariable x y).Stores bounds' where
  wellFormed := by
    intro z y' hz
    rw [lookup_setVariable] at hz
    split_ifs at hz with hzx
    · cases hz
      exact hy
    · exact h.wellFormed z y' hz
  origins := by
    intro z y' hz b
    rw [lookup_setVariable] at hz
    split_ifs at hz with hzx
    · cases hz
      rw [hzx]
      exact horigs b
    · rw [hother z hzx]
      exact h.origins z y' hz b
  missing := by
    intro z hz b
    rw [lookup_setVariable] at hz
    split_ifs at hz with hzx
    rw [hother z hzx]
    exact h.missing z hz b
  known := by
    intro c z b hc
    obtain ⟨hb, y₀, hy₀, hk⟩ := h.known c z b hc
    refine ⟨hb, ?_⟩
    rw [lookup_setVariable]
    split_ifs with hzx
    · subst hzx
      exact ⟨y, rfl, hknown b y₀ hy₀ hk⟩
    · exact ⟨y₀, hy₀, hk⟩
  interval := by
    intro z y' hz hupd
    rw [lookup_setVariable] at hz
    split_ifs at hz with hzx
    · cases hz
      rw [hzx]
      exact hival hupd
    · exact h.interval z y' hz hupd
  bound := hbd

/-- Which variable is remembered does not matter for the bounds. -/
theorem Stores.withConflict
    (h : s.Stores bounds) (x : Option V) : { s with mpConflictingVariable := x }.Stores bounds :=
  ⟨h.wellFormed, h.origins, h.missing, h.known, h.interval, h.bound⟩

/-! ## Variables without bounds -/

theorem Exact.congr {s' : VariableBounds V T} (h : s.Exact)
    (hflag : s'.isConflicting = s.isConflicting)
    (hconf : (∃ x y, s'.mpVariableMap.lookup x = some y ∧ y.conflicting)
      ↔ ∃ x y, s.mpVariableMap.lookup x = some y ∧ y.conflicting) : s'.Exact := by
  rw [Exact, hflag, hconf]
  exact h

/-- The conflicts after the bounds of one variable were changed. -/
theorem conflicts_setVariable :
    (∃ z y', (s.setVariable x y).mpVariableMap.lookup z = some y' ∧ y'.conflicting) ↔
      y.conflicting ∨ ∃ z, z ≠ x ∧ ∃ y', s.mpVariableMap.lookup z = some y' ∧ y'.conflicting := by
  constructor
  · rintro ⟨z, y', hz, hconf⟩
    rw [lookup_setVariable] at hz
    split_ifs at hz with hzx
    · cases hz
      exact Or.inl hconf
    · exact Or.inr ⟨z, hzx, y', hz, hconf⟩
  · rintro (hconf | ⟨z, hzx, y', hz, hconf⟩)
    · exact ⟨x, y, by rw [lookup_setVariable, if_pos rfl], hconf⟩
    · exact ⟨z, y', by rw [lookup_setVariable, if_neg hzx]; exact hz, hconf⟩

/-- A variable is changed that is in conflict afterwards if it was before. -/
theorem conflicts_setVariable_of_eq
    (h : y.conflicting ↔ ∃ y₀, s.mpVariableMap.lookup x = some y₀ ∧ y₀.conflicting) :
    (∃ z y', (s.setVariable x y).mpVariableMap.lookup z = some y' ∧ y'.conflicting) ↔
      ∃ z y', s.mpVariableMap.lookup z = some y' ∧ y'.conflicting := by
  rw [conflicts_setVariable, h]
  constructor
  · rintro (⟨y₀, hx, hconf⟩ | ⟨z, -, y', hz, hconf⟩)
    · exact ⟨x, y₀, hx, hconf⟩
    · exact ⟨z, y', hz, hconf⟩
  · rintro ⟨z, y', hz, hconf⟩
    by_cases hzx : z = x
    · exact Or.inl ⟨y', hzx ▸ hz, hconf⟩
    · exact Or.inr ⟨z, hzx, y', hz, hconf⟩

theorem Stores.touch (h : s.Stores bounds) (x : V) : (s.touch x).Stores bounds := by
  rw [VariableBounds.touch]
  split_ifs with hx
  · exact h
  · have hnone : s.mpVariableMap.lookup x = none := by simpa using hx
    refine h.setVariable Variable.new_wellFormed (fun b => ?_) (fun _ _ _ => rfl)
      (fun b y₀ hy₀ => ?_) nofun h.bound
    · rw [h.missing x hnone b]
      exact List.Perm.refl _
    · rw [hnone] at hy₀
      cases hy₀

theorem Exact.touch (h : s.Exact) (x : V) : (s.touch x).Exact := by
  rw [VariableBounds.touch]
  split_ifs with hx
  · exact h
  · have hnone : s.mpVariableMap.lookup x = none := by simpa using hx
    refine h.congr rfl (conflicts_setVariable_of_eq ?_)
    rw [hnone]
    exact iff_of_false Bool.false_ne_true nofun

theorem lookup_touch (s : VariableBounds V T) (x : V) :
    ∃ y, (s.touch x).mpVariableMap.lookup x = some y := by
  rw [touch]
  split_ifs with hx
  · exact isSome_iff_exists.mp hx
  · exact ⟨_, AList.lookup_insert _⟩

/-- What an addition or a removal that is no bound does. -/
structure Keeps (s s' : VariableBounds V T) (bounds : List (Constraint V × T)) : Prop where
  stores : s.Stores bounds → s'.Stores bounds
  exact : s.Exact → s'.Exact

theorem keeps_refl (s : VariableBounds V T) (bounds : List (Constraint V × T)) :
    Keeps s s bounds := ⟨id, id⟩

theorem keeps_touch (s : VariableBounds V T) (xs : List V) (bounds : List (Constraint V × T)) :
    Keeps s (xs.foldl VariableBounds.touch s) bounds := by
  induction xs generalizing s with
  | nil => exact keeps_refl s bounds
  | cons x xs ih =>
    have htail := ih (s.touch x)
    exact ⟨fun h => htail.stores (h.touch x), fun h => htail.exact (h.touch x)⟩

/-- Constraints that are no bounds are kept apart. -/
theorem keeps_nonBound (s : VariableBounds V T) (cs : List (Constraint V))
    (bounds : List (Constraint V × T)) : Keeps s { s with mNonBoundConstraints := cs } bounds :=
  ⟨fun h => ⟨h.wellFormed, h.origins, h.missing, h.known, h.interval, h.bound⟩, id⟩

/-! ## Semantics of the stored bounds -/

/-- The interval of a variable contains the values that meet the bounds that remain. -/
theorem Stores.contains_interval (h : s.Stores bounds) (hx : s.mpVariableMap.lookup x = some y)
    (r : ℝ) : y.interval.Contains r ↔ ∀ p ∈ bounds, ∀ b, boundOf p.1 = some (x, b) → b.Sat r := by
  rw [(h.wellFormed x y hx).contains_interval_iff]
  constructor
  · intro hr p hp b hb
    refine hr b (fun hnil => ?_) (boundOf_finite hb)
    have hmem : p.2 ∈ y.mpOrigins b :=
      (h.origins x y hx b).mem_iff.mpr (mem_originsOf.mpr ⟨p, hp, hb, rfl⟩)
    rw [hnil] at hmem
    cases hmem
  · intro hr b hb _
    obtain ⟨o, ho⟩ := exists_mem_of_ne_nil _ hb
    obtain ⟨p, hp, hpb, -⟩ := mem_originsOf.mp ((h.origins x y hx b).mem_iff.mp ho)
    exact hr p hp b hpb

variable {y' : Variable T}

/-- More bounds lead to more conflicts. -/
theorem conflicting_mono {s' : VariableBounds V T}
    (h : s.Stores bounds) (h' : s'.Stores bounds') (hsub : ∀ p ∈ bounds, p ∈ bounds') (hx : s.mpVariableMap.lookup x = some y)
    (hx' : s'.mpVariableMap.lookup x = some y') (hconf : y.conflicting) : y'.conflicting := by
  rw [Variable.conflicting_iff] at hconf ⊢
  rintro ⟨r, hr⟩
  refine hconf ⟨r, (h.contains_interval hx r).mpr fun p hp => ?_⟩
  exact (h'.contains_interval hx' r).mp hr p (hsub p hp)

/-- The bounds of one variable are tightened. -/
theorem Exact.updated (h : s.Exact)
    (hmono : ∀ y, s.mpVariableMap.lookup x = some y → y.conflicting → y'.conflicting) :
    (s.updated x y').Exact := by
  have hconf : (∃ z y, (s.updated x y').mpVariableMap.lookup z = some y ∧ y.conflicting) ↔
      y'.conflicting ∨ ∃ z, z ≠ x ∧ ∃ y, s.mpVariableMap.lookup z = some y ∧ y.conflicting :=
    conflicts_setVariable
  rw [Exact, hconf, isConflicting, VariableBounds.updated]
  by_cases hy : y'.conflicting
  · rw [if_pos hy]
    exact iff_of_true rfl (Or.inl hy)
  · rw [if_neg hy]
    refine h.trans ⟨?_, ?_⟩
    · rintro ⟨z, y, hz, hc⟩
      refine Or.inr ⟨z, ?_, y, hz, hc⟩
      rintro rfl
      exact hy (hmono y hz hc)
    · rintro (hc | ⟨z, -, y, hz, hc⟩)
      · exact absurd hc hy
      · exact ⟨z, y, hz, hc⟩

theorem originsOf_concat_of_ne {c : Constraint V} {z : V}
    {b : Bound} (hc : boundOf c = some (x, b)) (o : T) (hz : z ≠ x) (b' : Bound) :
    originsOf (bounds ++ [(c, o)]) z b' = originsOf bounds z b' := by
  have hne : boundOf c ≠ some (z, b') := by
    rw [hc]
    rintro heq
    exact hz (Prod.mk.inj (some.inj heq)).1.symm
  rw [originsOf_concat, if_neg hne, append_nil]

/-- A bound has been added. -/
structure Adds (s s' : VariableBounds V T) (bounds' : List (Constraint V × T)) : Prop where
  stores : s'.Stores bounds'
  exact : s.Exact → s'.Exact

/-- The bounds of a variable are tightened and updated. -/
theorem Stores.updated (h : s.Stores bounds) (hsub : ∀ p ∈ bounds, p ∈ bounds')
    (hstor : (s.setVariable x y').Stores bounds') : Adds s (s.updated x y') bounds' where
  stores := hstor.withConflict _
  exact := fun hs => hs.updated fun y₀ hy₀ hconf => by
    have hx' : (s.setVariable x y').mpVariableMap.lookup x = some y' := by
      rw [lookup_setVariable, if_pos rfl]
    exact conflicting_mono h hstor hsub hy₀ hx' hconf

/-! ## Recorded intervals -/

/-- An interval is recorded for a variable that does not rely on the recorded one. -/
theorem Stores.record (h : s.Stores bounds)
    (hx : ∀ y, s.mpVariableMap.lookup x = some y → y.mUpdatedExactInterval = true) (i : Interval) :
    { s with mEvalIntervalMap := update s.mEvalIntervalMap x i }.Stores bounds := by
  refine ⟨h.wellFormed, h.origins, h.missing, h.known, fun z y hz hupd => ?_, h.bound⟩
  have hne : z ≠ x := by
    rintro rfl
    rw [hx y hz] at hupd
    cases hupd
  dsimp only
  rw [update_of_ne hne]
  exact h.interval z y hz hupd

theorem Stores.getInterval (h : s.Stores bounds) (x : V) : (s.getInterval x).2.Stores bounds := by
  rw [VariableBounds.getInterval]
  cases hx : s.mpVariableMap.lookup x with
  | none =>
    dsimp only
    have hrec := h.record (x := x) (fun y hy => by rw [hx] at hy; cases hy) ⟨none, none⟩
    have hnew := Variable.new_wellFormed (T := T)
    refine hrec.setVariable (x := x) (y := { Variable.new with mUpdatedExactInterval := false })
      ⟨hnew.sets.congr rfl rfl, hnew.known, hnew.supremum.congr rfl fun _ _ => rfl,
        hnew.infimum.congr rfl fun _ _ => rfl⟩ (fun b => ?_) (fun _ _ _ => rfl)
      (fun b y₀ hy₀ => ?_) (fun _ => update_self _ _ _) h.bound
    · rw [h.missing x hx b]
      exact List.Perm.refl _
    · dsimp only at hy₀
      rw [hx] at hy₀
      cases hy₀
  | some y =>
    dsimp only
    split_ifs with hupd
    · have hrec := h.record (x := x)
        (fun y' hy' => by obtain rfl := some.inj (hx.symm.trans hy'); exact hupd) y.interval
      have hy := h.wellFormed x y hx
      refine hrec.setVariable (x := x) (y := { y with mUpdatedExactInterval := false })
        ⟨hy.sets.congr rfl rfl, hy.known, hy.supremum.congr rfl fun _ _ => rfl,
          hy.infimum.congr rfl fun _ _ => rfl⟩ (h.origins x y hx) (fun _ _ _ => rfl)
        (fun b y₀ hy₀ hk => ?_) (fun _ => update_self _ _ _) h.bound
      obtain rfl := some.inj (hx.symm.trans hy₀)
      exact hk
    · exact h

theorem Exact.getInterval (h : s.Exact) (x : V) : (s.getInterval x).2.Exact := by
  rw [VariableBounds.getInterval]
  cases hx : s.mpVariableMap.lookup x with
  | none =>
    refine h.congr rfl (conflicts_setVariable_of_eq ?_)
    rw [hx]
    exact iff_of_false nofun nofun
  | some y =>
    dsimp only
    split_ifs with hupd
    · refine h.congr rfl (conflicts_setVariable_of_eq ?_)
      rw [hx]
      exact ⟨fun hc => ⟨y, rfl, hc⟩, fun ⟨_, hy, hc⟩ => some.inj hy ▸ hc⟩
    · exact h

end VariableBounds

end Smtrat.VB
