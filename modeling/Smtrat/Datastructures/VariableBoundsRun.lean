import Smtrat.Common.Run
import Smtrat.Datastructures.BoundAdditions
import Smtrat.Datastructures.BoundRemovals

/-!
# Runs of variable bounds

In a run that adds one bound at a time and never forgets a conflict, the intervals, their origins
and the conflict are those of the bounds that remain.
-/

namespace Smtrat.VB

open SparsePoly PropFormula Option

universe u v w

namespace VariableBounds

variable {V : Type u} {B : Type v} {T : Type w} [DecidableEq V]

/-- The constraint is a lower bound of `x` with this limit. -/
def AttainsLower (c : Constraint V) (x : V) (limit : ℚ × Bool) : Prop :=
  ∃ b, boundOf c = some (x, b) ∧ b.isLowerBound ∧
    b.mpLimit.map (·, decide (b.mType = .strictLower)) = some limit

/-- The constraint is an upper bound of `x` with this limit. -/
def AttainsUpper (c : Constraint V) (x : V) (limit : ℚ × Bool) : Prop :=
  ∃ b, boundOf c = some (x, b) ∧ b.isUpperBound ∧
    b.mpLimit.map (·, decide (b.mType = .strictUpper)) = some limit

/-- There is an origin for the end of an interval if it is finite, and it is the origin of a bound
that attains it. -/
def EndOrigin (bounds : List (Constraint V × T)) (Attains : Constraint V → ℚ × Bool → Prop)
    (limit : Option (ℚ × Bool)) (origin : Option T) : Prop :=
  (limit = none → origin = none) ∧
    ∀ l, limit = some l → ∃ p ∈ bounds, origin = some p.2 ∧ Attains p.1 l

/-- The intervals, their origins and the conflict are those of the given bounds. -/
structure Sound (s : VariableBounds V T) (bounds : List (Constraint V × T)) : Prop where
  interval : ∀ x (α : V → ℝ), (s.getInterval x).1.Contains (α x) ↔
    ∀ p ∈ bounds, Bounds p.1 x → p.1.Sat α
  origins : ∀ x, ∃ lower upper, s.getOriginsOfBounds x = lower.toList ++ upper.toList ∧
    EndOrigin bounds (AttainsLower · x ·) (s.getInterval x).1.lower lower ∧
    EndOrigin bounds (AttainsUpper · x ·) (s.getInterval x).1.upper upper
  conflicting : s.isConflicting ↔ ∃ x, ¬ ∃ α : V → ℝ, ∀ p ∈ bounds, Bounds p.1 x → p.1.Sat α

/-! ## From the invariant -/

variable {s : VariableBounds V T} {bounds : List (Constraint V × T)} {x : V} {y : Variable T}

theorem Stores.interval_eq (h : s.Stores bounds) (hx : s.mpVariableMap.lookup x = some y) :
    (s.getInterval x).1 = y.interval := by
  rw [VariableBounds.getInterval, hx]
  dsimp only
  split_ifs with hupd
  · rfl
  · exact h.interval x y hx (by simpa using hupd)

theorem interval_of_missing
    (hx : s.mpVariableMap.lookup x = none) : (s.getInterval x).1 = ⟨none, none⟩ := by
  rw [getInterval, hx]

/-- An unknown variable has no bounds. -/
theorem Stores.not_bounds (h : s.Stores bounds) (hx : s.mpVariableMap.lookup x = none) :
    ∀ p ∈ bounds, ¬ Bounds p.1 x := by
  rintro p hp ⟨b, hb⟩
  have hmem : p.2 ∈ originsOf bounds x b := mem_originsOf.mpr ⟨p, hp, hb, rfl⟩
  rw [h.missing x hx b] at hmem
  cases hmem

theorem Stores.contains_iff (h : s.Stores bounds) (hx : s.mpVariableMap.lookup x = some y)
    (α : V → ℝ) : y.interval.Contains (α x) ↔ ∀ p ∈ bounds, Bounds p.1 x → p.1.Sat α := by
  rw [h.contains_interval hx]
  refine forall₂_congr fun p hp => ?_
  constructor
  · rintro hsat ⟨b, hb⟩
    exact (sat_boundOf hb α).mpr (hsat b hb)
  · intro hsat b hb
    exact (sat_boundOf hb α).mp (hsat ⟨b, hb⟩)

theorem Stores.sound_interval
    (h : s.Stores bounds) (x : V) (α : V → ℝ) : (s.getInterval x).1.Contains (α x) ↔
      ∀ p ∈ bounds, Bounds p.1 x → p.1.Sat α := by
  cases hx : s.mpVariableMap.lookup x with
  | none =>
    rw [interval_of_missing hx]
    refine iff_of_true ⟨nofun, nofun⟩ fun p hp hb => absurd hb (h.not_bounds hx p hp)
  | some y =>
    rw [h.interval_eq hx]
    exact h.contains_iff hx α

/-- The first origin of an active bound is the origin of a bound that remains. -/
theorem Stores.head_origin (h : s.Stores bounds) (hx : s.mpVariableMap.lookup x = some y)
    {b : Bound} (hact : y.isActive b) (hfin : b.mpLimit ≠ none) :
    ∃ p ∈ bounds, (y.mpOrigins b).head? = some p.2 ∧ boundOf p.1 = some (x, b) := by
  have hne := (isActive_iff hfin).mp hact
  have hhead := List.head?_eq_some_head hne
  have hmem := (h.origins x y hx b).mem_iff.mp (List.head_mem hne)
  obtain ⟨p, hp, hpb, ho⟩ := mem_originsOf.mp hmem
  exact ⟨p, hp, by rw [hhead, ho], hpb⟩

theorem Stores.sound_origins (h : s.Stores bounds) (x : V) :
    ∃ lower upper, s.getOriginsOfBounds x = lower.toList ++ upper.toList ∧
      EndOrigin bounds (AttainsLower · x ·) (s.getInterval x).1.lower lower ∧
      EndOrigin bounds (AttainsUpper · x ·) (s.getInterval x).1.upper upper := by
  cases hx : s.mpVariableMap.lookup x with
  | none =>
    rw [getOriginsOfBounds, hx, interval_of_missing hx]
    exact ⟨none, none, rfl, ⟨fun _ => rfl, nofun⟩, ⟨fun _ => rfl, nofun⟩⟩
  | some y =>
    have hy := h.wellFormed x y hx
    rw [getOriginsOfBounds, hx, h.interval_eq hx]
    refine ⟨if y.mpInfimum.isInfinite then none else (y.mpOrigins y.mpInfimum).head?,
      if y.mpSupremum.isInfinite then none else (y.mpOrigins y.mpSupremum).head?, ?_, ?_, ?_⟩
    · dsimp only
      split_ifs <;> rfl
    · constructor
      · intro hnone
        have hinf : y.mpInfimum.mpLimit = none := map_eq_none_iff.mp hnone
        rw [if_pos (by rw [Bound.isInfinite, hinf]; rfl)]
      · rintro l hl
        have hfin : y.mpInfimum.mpLimit ≠ none := fun hnone => by
          rw [Variable.interval, hnone] at hl
          cases hl
        obtain ⟨p, hp, ho, hb⟩ := h.head_origin hx hy.infimum.active hfin
        rw [if_neg (by simpa [Bound.isInfinite] using hfin)]
        exact ⟨p, hp, ho, _, hb, (hy.sets.lower.all _ hy.infimum.mem).1, hl⟩
    · constructor
      · intro hnone
        have hinf : y.mpSupremum.mpLimit = none := map_eq_none_iff.mp hnone
        rw [if_pos (by rw [Bound.isInfinite, hinf]; rfl)]
      · rintro l hl
        have hfin : y.mpSupremum.mpLimit ≠ none := fun hnone => by
          rw [Variable.interval, hnone] at hl
          cases hl
        obtain ⟨p, hp, ho, hb⟩ := h.head_origin hx hy.supremum.active hfin
        rw [if_neg (by simpa [Bound.isInfinite] using hfin)]
        exact ⟨p, hp, ho, _, hb, (hy.sets.upper.all _ hy.supremum.mem).1, hl⟩

theorem Stores.sound (h : s.Stores bounds) (hexact : s.Exact) : s.Sound bounds where
  interval := h.sound_interval
  origins := h.sound_origins
  conflicting := by
    refine hexact.trans ⟨?_, ?_⟩
    · rintro ⟨x, y, hx, hconf⟩
      refine ⟨x, ?_⟩
      rintro ⟨α, hα⟩
      exact Variable.conflicting_iff.mp hconf ⟨α x, (h.contains_iff hx α).mpr hα⟩
    · rintro ⟨x, hno⟩
      cases hx : s.mpVariableMap.lookup x with
      | none => exact absurd ⟨fun _ => 0, fun p hp hb => absurd hb (h.not_bounds hx p hp)⟩ hno
      | some y =>
        refine ⟨x, y, hx, Variable.conflicting_iff.mpr ?_⟩
        rintro ⟨r, hr⟩
        exact hno ⟨fun _ => r, (h.contains_iff hx fun _ => r).mp hr⟩

/-! ## Runs -/

variable [LinearOrder T]

/-- A formula with at most one bound is added; a removal does not forget the conflict of another
variable. -/
def Careful (s : VariableBounds V T) : Action V B T → Prop
  | .addBound f _ => (boundsOf f).length ≤ 1
  | .removeBound f o => removalsExact o (literals f) s
  | .getInterval _ => True

instance (s : VariableBounds V T) (a : Action V B T) : Decidable (Careful s a) := by
  cases a <;> unfold Careful <;> infer_instance

theorem step_careful {s' : VariableBounds V T}
    (h : s.Stores bounds) (hexact : s.Exact) {a : Action V B T} (ha : Careful s a)
    (hs : s.step a = some s') : s'.Stores (remain bounds a) ∧ s'.Exact := by
  cases a with
  | addBound f o =>
    obtain ⟨⟨r, s₁⟩, hf, rfl⟩ := map_eq_some_iff.mp hs
    obtain ⟨-, hadds⟩ := addFormula_spec ha s bounds h r s₁ hf
    exact ⟨hadds.stores, hadds.exact hexact⟩
  | removeBound f o =>
    rw [step, removeFormula_eq] at hs
    obtain ⟨hstor, hex⟩ := removeAll_spec h hs
    exact ⟨hstor, hex ha hexact⟩
  | getInterval x =>
    cases hs
    exact ⟨h.getInterval x, hexact.getInterval x⟩

theorem run_careful {actions : List (Action V B T)} {s' : VariableBounds V T}
    (h : s.Stores bounds) (hexact : s.Exact)
    (hs : Run.run (Run.guarded Careful step) s actions = some s') :
    s'.Stores (actions.foldl remain bounds) ∧ s'.Exact := by
  induction actions generalizing s bounds with
  | nil =>
    cases hs
    exact ⟨h, hexact⟩
  | cons a as ih =>
    obtain ⟨s₁, h₁, hs⟩ := Run.run_cons.mp hs
    obtain ⟨ha, h₁⟩ := Run.guarded_eq_some.mp h₁
    obtain ⟨hstor, hex⟩ := step_careful h hexact ha h₁
    exact ih hstor hex hs

/-- In every run that keeps to the condition, the intervals, their origins and the conflict are
those of the bounds that were added and not removed. -/
theorem run_sound (actions : List (Action V B T)) (s : VariableBounds V T)
    (h : Run.run (Run.guarded Careful step) initial actions = some s) :
    s.Sound (remaining actions) := by
  obtain ⟨hstor, hexact⟩ := run_careful initial_stores initial_exact h
  exact hstor.sound hexact

/-- The constraint `x + k ~ 0`. -/
def shifted (x : Nat) (k : ℚ) (r : Relation) : Formula (Atom Nat Nat) :=
  .atom (.constraint ⟨[⟨1, [(x, 1)]⟩, ⟨k, []⟩], r⟩)

/-- Two bounds on one variable, one of them with two origins and negated, of which one is removed
again. -/
def sharedBoundActions : List (Action Nat Nat Nat) :=
  [.addBound (shifted 0 (-3) .leq) 1, .addBound (.app .not [shifted 0 (-3) .greater]) 2,
    .getInterval 0, .addBound (shifted 0 (-5) .greater) 3, .removeBound (shifted 0 (-5) .greater) 3,
    .removeBound (shifted 0 (-3) .leq) 1]

theorem run_sound_sharedBound :
    ∃ s, Run.run (Run.guarded Careful step) initial sharedBoundActions = some s ∧
      s.Sound (remaining sharedBoundActions) := by
  have hrun : (Run.run (Run.guarded Careful step) initial sharedBoundActions).isSome := by
    decide +kernel
  obtain ⟨s, hs⟩ := isSome_iff_exists.mp hrun
  exact ⟨s, hs, run_sound _ s hs⟩

/-- Two variables are in conflict; the conflict of the second is resolved by a removal. -/
def forgottenConflictActions : List (Action Nat Nat Nat) :=
  [.addBound (shifted 0 0 .leq) 1, .addBound (shifted 0 (-1) .geq) 2,
    .addBound (shifted 1 0 .leq) 3, .addBound (shifted 1 (-1) .geq) 4,
    .removeBound (shifted 1 (-1) .geq) 4]

/-- The conflict of the first variable is forgotten. -/
theorem forgotten_conflict :
    ¬ ∀ (actions : List (Action Nat Nat Nat)) (s : VariableBounds Nat Nat),
      Run.run step initial actions = some s → s.Sound (remaining actions) := by
  intro h
  have hrun : (Run.run step initial forgottenConflictActions).any
      fun s => !s.isConflicting := by decide +kernel
  obtain ⟨s, hs, hnot⟩ := (any_eq_true _ _).mp hrun
  have hsound := h _ s hs
  have hconf : s.isConflicting := by
    refine hsound.conflicting.mpr ⟨0, ?_⟩
    rintro ⟨α, hα⟩
    have hle := hα (⟨[⟨1, [(0, 1)]⟩, ⟨0, []⟩], .leq⟩, 1) (by decide +kernel)
      ⟨⟨.weakUpper, some 0⟩, by decide +kernel⟩
    have hge := hα (⟨[⟨1, [(0, 1)]⟩, ⟨-1, []⟩], .geq⟩, 2) (by decide +kernel)
      ⟨⟨.weakLower, some 1⟩, by decide +kernel⟩
    simp only [Constraint.Sat, Relation.evaluate, Poly.eval_cons, Poly.eval_nil, Term.eval,
      monomialEval_cons, monomialEval_nil, map_one, map_zero, map_neg, pow_one] at hle hge
    linarith
  rw [hconf] at hnot
  cases hnot

end VariableBounds

end Smtrat.VB
