import Smtrat.STrop.Invariant

/-!
# Models

A check that has found a model of the linearization has found exponents and signs for the variables
in use, and these make all received constraints true at every large base.  The variables in use are
those of type integer only, so the assignment is one for all received variables, and the search of
`updateModel` is one for a model, if and only if no real variable occurs.
-/

/-!
## Weights

The exponents of the inner solver are divided by their greatest common divisor, which makes them
integers and keeps their ratios.  The variables in use get signed powers of the base as values, the
others none.
-/

namespace Smtrat.STrop

open SparsePoly PropFormula List

universe u v

/-! ## Greatest common divisors of rational numbers -/

/-- A rational number is an integer multiple of another one. -/
def IsMultiple (a g : ℚ) : Prop := ∃ k : ℤ, a = k * g

theorem IsMultiple.trans {a b c : ℚ} (hab : IsMultiple a b) (hbc : IsMultiple b c) :
    IsMultiple a c := by
  obtain ⟨k, rfl⟩ := hab
  obtain ⟨l, rfl⟩ := hbc
  exact ⟨k * l, by push_cast; ring⟩

/-- A divisor of the numerator over a multiple of the denominator. -/
theorem isMultiple_div {a : ℚ} {n : ℤ} {d : ℕ} (hn : n ∣ a.num) (hd : a.den ∣ d) (hpos : d ≠ 0) :
    IsMultiple a (n / d) := by
  obtain ⟨k, hk⟩ := hn
  obtain ⟨l, rfl⟩ := hd
  have hden : (a.den : ℚ) ≠ 0 := Nat.cast_ne_zero.mpr a.den_ne_zero
  have hl : (l : ℚ) ≠ 0 := Nat.cast_ne_zero.mpr (right_ne_zero_of_mul hpos)
  refine ⟨k * l, ?_⟩
  calc a = a.num / a.den := (Rat.num_div_den a).symm
    _ = (n * k : ℤ) / a.den := by rw [hk]
    _ = (k * l : ℤ) * (n / (a.den * l : ℕ)) := by
        push_cast
        field_simp

theorem lcm_den_ne_zero (a b : ℚ) : Nat.lcm a.den b.den ≠ 0 :=
  Nat.lcm_ne_zero a.den_ne_zero b.den_ne_zero

theorem gcd_nonneg (a b : ℚ) : 0 ≤ gcd a b := div_nonneg (Nat.cast_nonneg _) (Nat.cast_nonneg _)

variable {V : Type u} {B : Type v}

/-- All exponents are multiples of their greatest common divisor. -/
theorem isMultiple_foldl_gcd (ws : List (Weight V)) (g : ℚ) :
    IsMultiple g (ws.foldl (fun g w => gcd g w.mExponent) g) ∧
      ∀ w ∈ ws, IsMultiple w.mExponent (ws.foldl (fun g w => gcd g w.mExponent) g) := by
  induction ws generalizing g with
  | nil => exact ⟨⟨1, by simp⟩, nofun⟩
  | cons w ws ih =>
    obtain ⟨hg, hws⟩ := ih (gcd g w.mExponent)
    refine ⟨(isMultiple_div (Int.gcd_dvd_left _ _) (Nat.dvd_lcm_left _ _) (lcm_den_ne_zero g _)).trans hg, forall_mem_cons.mpr ⟨?_, hws⟩⟩
    exact (isMultiple_div (Int.gcd_dvd_right _ _) (Nat.dvd_lcm_right _ _) (lcm_den_ne_zero g _)).trans hg

theorem foldl_gcd_nonneg (ws : List (Weight V)) {g : ℚ} (hg : 0 ≤ g) :
    0 ≤ ws.foldl (fun g w => gcd g w.mExponent) g := by
  induction ws generalizing g with
  | nil => exact hg
  | cons w ws ih => exact ih (gcd_nonneg g _)

/-! ## Values of variables -/

/-- An integer exponent gives a power of the base. -/
theorem Weight.value_eq {w : Weight V} {k : ℤ} (hk : w.mExponent = k) {n : ℚ} :
    w.value n = (if w.mSign then -1 else 1) * n ^ k := by
  have hpow : (if w.mExponent < 0 then 1 / n else n) ^ |w.mExponent|.floor.toNat = n ^ k := by
    have habs : |w.mExponent|.floor.toNat = k.natAbs := by
      rw [hk, ← Int.cast_abs, Rat.floor_intCast, Int.abs_eq_natAbs, Int.toNat_natCast]
    rw [habs, hk]
    by_cases hneg : k < 0
    · have hcast : (k : ℚ) < 0 := by exact_mod_cast hneg
      obtain ⟨m, rfl⟩ : ∃ m : ℕ, k = -m := ⟨k.natAbs, by omega⟩
      rw [if_pos hcast, one_div, Int.natAbs_neg, Int.natAbs_natCast, zpow_neg, zpow_natCast,
        inv_pow]
    · have hcast : ¬ (k : ℚ) < 0 := by exact_mod_cast hneg
      obtain ⟨m, rfl⟩ : ∃ m : ℕ, k = m := ⟨k.natAbs, by omega⟩
      rw [if_neg hcast, Int.natAbs_natCast, zpow_natCast]
  rw [Weight.value, hpow]
  cases w.mSign <;> simp

namespace STropModule

variable (lib : Library V B) (s : STropModule V B)

/-- The weight of a variable in use, with its exponent divided by a factor. -/
def weightOf (scale : ℚ) (x : V) : Weight V :=
  ⟨x, s.model.arith (.normalVector x) / scale, s.model.bool x⟩

/-- The exponents are scaled by a positive factor and integers afterwards. -/
theorem exists_weights : ∃ scale : ℚ, 0 < scale ∧
    s.weights lib = (s.innerWeights lib).map (fun w => { w with mExponent := w.mExponent / scale }) ∧
    ∀ x ∈ s.moments, s.mUsed x → ∃ k : ℤ, s.model.arith (.normalVector x) / scale = k := by
  have hmultiple := (isMultiple_foldl_gcd (s.innerWeights lib) 0).2
  have hnonneg := foldl_gcd_nonneg (s.innerWeights lib) le_rfl
  have hmem (x) (hx : x ∈ s.moments) (hused : s.mUsed x) :
      (⟨x, s.model.arith (.normalVector x), s.model.bool x⟩ : Weight V) ∈ s.innerWeights lib := by
    refine mem_filterMap.mpr ⟨x, (lib.variableOrder_perm _).mem_iff.mpr hx, ?_⟩
    rw [if_pos hused]
  unfold weights
  dsimp only
  generalize (s.innerWeights lib).foldl (fun g w => gcd g w.mExponent) 0 = g at hmultiple hnonneg
  by_cases hg : g ≠ 0 ∧ g ≠ 1
  · refine ⟨g, lt_of_le_of_ne hnonneg hg.1.symm, by rw [if_pos hg], fun x hx hused => ?_⟩
    obtain ⟨k, hk⟩ := hmultiple _ (hmem x hx hused)
    exact ⟨k, by rw [div_eq_iff hg.1]; exact hk⟩
  · refine ⟨1, one_pos, by simp [if_neg hg], fun x hx hused => ?_⟩
    obtain ⟨k, hk⟩ := hmultiple _ (hmem x hx hused)
    rcases not_and_or.mp hg with hg | hg
    · rw [not_not.mp hg, mul_zero] at hk
      exact ⟨0, by rw [div_one, Int.cast_zero]; exact hk⟩
    · rw [not_not.mp hg, mul_one] at hk
      exact ⟨k, by rw [div_one]; exact hk⟩

theorem modelAt_eq [DecidableEq V] {scale : ℚ} (hscale : s.weights lib =
    (s.innerWeights lib).map (fun w => { w with mExponent := w.mExponent / scale })) (n : ℚ) (x : V) :
    s.modelAt lib n x =
      if x ∈ s.moments ∧ s.mUsed x then some ((s.weightOf scale x).value n) else none := by
  have hmem (w : Weight V) : w ∈ s.weights lib ↔
      ∃ y, (y ∈ s.moments ∧ s.mUsed y) ∧ w = s.weightOf scale y := by
    rw [hscale, mem_map]
    constructor
    · rintro ⟨w, hw, rfl⟩
      obtain ⟨y, hy, hw⟩ := mem_filterMap.mp hw
      split at hw
      · next hused =>
          cases hw
          exact ⟨y, ⟨(lib.variableOrder_perm _).mem_iff.mp hy, hused⟩, rfl⟩
      · cases hw
    · rintro ⟨y, ⟨hy, hused⟩, rfl⟩
      refine ⟨⟨y, s.model.arith (.normalVector y), s.model.bool y⟩, ?_, rfl⟩
      refine mem_filterMap.mpr ⟨y, (lib.variableOrder_perm _).mem_iff.mpr hy, ?_⟩
      rw [if_pos hused]
  unfold modelAt
  cases hfind : (s.weights lib).find? fun w => w.mVariable = x with
  | none =>
    have hnot : ¬ (x ∈ s.moments ∧ s.mUsed x) := fun hx => by
      have := find?_eq_none.mp hfind _ ((hmem _).mpr ⟨x, hx, rfl⟩)
      exact this (decide_eq_true rfl)
    rw [if_neg hnot]
    rfl
  | some w =>
    obtain ⟨y, hy, rfl⟩ := (hmem w).mp (mem_of_find?_eq_some hfind)
    have hmatch := find?_some hfind
    have hyx : y = x := of_decide_eq_true hmatch
    subst hyx
    rw [if_pos hy]
    rfl

end STropModule

end Smtrat.STrop

namespace Smtrat.STrop

open SparsePoly PropFormula Filter List Option

universe u v

variable {V : Type u} {B : Type v}

/-- The assignment is a model of the formulas with a value for each of their variables. -/
structure IsModel (lib : Library V B) (fs : List (Formula (Atom V B))) (m : V → Option ℚ) : Prop where
  assigned : ∀ f ∈ fs, ∀ x ∈ gatherVariables f, (m x).isSome
  integral : ∀ x, lib.int x → ∀ v, m x = some v → ∃ k : ℤ, v = k
  satisfied : ∀ f ∈ fs, ∀ a : Assignment V B, (∀ x, a.arith x = ((m x).getD 0 : ℚ)) → a.Satisfies f

/-! ## Normalized constraints -/

theorem variables_normalize (p : Poly V ℚ) : Poly.variables (normalize p) = Poly.variables p := by
  simp [Poly.variables, normalize, flatMap_map]

theorem lcoeff_ne_zero {p : Poly V ℚ} (hp : p ≠ []) (hcoeff : ∀ t ∈ p, t.coeff ≠ 0) :
    lcoeff p ≠ 0 := by
  rw [lcoeff, getLast?_eq_some_getLast hp]
  exact hcoeff _ (getLast_mem hp)

theorem eval_normalize {p : Poly V ℚ} (hp : lcoeff p ≠ 0) (α : V → ℝ) :
    Poly.eval α p = lcoeff p * Poly.eval α (normalize p) := by
  unfold normalize
  have hcast : (lcoeff p : ℝ) ≠ 0 := Rat.cast_ne_zero.mpr hp
  clear hp
  generalize lcoeff p = c at hcast
  induction p with
  | nil => simp
  | cons t p ih =>
    rw [Poly.eval_cons, map_cons, Poly.eval_cons, mul_add, ih, Term.eval, Term.eval]
    simp only [eq_ratCast, Rat.cast_div]
    field_simp

/-- A constraint says of its normalized left-hand side what its turned relation does. -/
theorem sat_iff_normalization {c : Constraint V} (hc : lcoeff c.lhs ≠ 0) (α : V → ℝ) :
    c.Sat α ↔ (normalization c).2.evaluate (Poly.eval α (normalization c).1) 0 := by
  have hcast : (lcoeff c.lhs : ℝ) ≠ 0 := Rat.cast_ne_zero.mpr hc
  rw [Constraint.Sat, eval_normalize hc, Relation.evaluate_mul_zero _ hcast, normalization]
  by_cases hneg : lcoeff c.lhs < 0
  · rw [if_pos (Rat.cast_lt_zero.mpr hneg), if_pos hneg]
  · rw [if_neg (fun h => hneg (Rat.cast_lt_zero.mp h)), if_neg hneg]

/-- The truth value of a formula all of whose variables have values. -/
theorem substitute_of_assigned (lib : Library V B) {f : Formula (Atom V B)}
    (hf : STropModule.Admissible lib f) {m : V → Option ℚ}
    (hm : ∀ x ∈ gatherVariables f, (m x).isSome) :
    ∃ b, lib.substitute f m = some b ∧
      (b = true ↔ ∀ a : Assignment V B, (∀ x, a.arith x = ((m x).getD 0 : ℚ)) → a.Satisfies f) := by
  let a₀ : Assignment V B := ⟨fun x => ((m x).getD 0 : ℚ), fun _ => false, fun _ => false⟩
  rcases hf with ⟨b, rfl⟩ | ⟨c, rfl, -⟩
  · refine ⟨b, lib.substitute_const b m, fun hb a _ => ?_, fun h => ?_⟩
    · exact (satisfies_const a b).mpr hb
    · exact (satisfies_const a₀ b).mp (h a₀ fun _ => rfl)
  · have hvars : ∀ x ∈ Poly.variables c.lhs, (m x).isSome := fun x hx =>
      hm x (by simpa [gatherVariables, Formula.atoms, Atom.vars] using hx)
    refine ⟨_, lib.substitute_constraint c m hvars, ?_⟩
    rw [decide_eq_true_iff, ← Constraint.sat_cast]
    constructor
    · intro h a ha
      rw [satisfies_atom, Atom.Holds, funext ha]
      exact h
    · intro h
      have := h a₀ fun _ => rfl
      rwa [satisfies_atom] at this

namespace STropModule

variable [DecidableEq V] (lib : Library V B) (s : STropModule V B)

/-- All received variables are integers. -/
def OnlyIntegers : Prop := ∀ f ∈ s.received, ∀ x ∈ gatherVariables f, lib.int x

/-- The assignments of `updateModel` are models for all large bases, and its loop ends with one. -/
def ModelFound : Prop :=
  (∃ b₀ : ℕ, ∀ n : ℕ, b₀ ≤ n → IsModel lib s.received (s.modelAt lib n)) ∧
    ∃ fuel m, s.searchModel lib fuel 0 = some m ∧ IsModel lib s.received m

/-- The inner solver has the linearizations for the active directions, and the restrictions of the
variables in use. -/
def LinearizationAsserted : Prop :=
  ∀ g, g ∈ s.inner ↔
    (∃ p d, (s.mSeparators p).mActiveDirection = some d ∧ g ∈ (linearization lib p d).conjuncts) ∨
      ∃ x, s.mUsed x ∧ g = positivity lib x

variable {lib s}

theorem Inv.linearizationAsserted (h : Inv lib s) : s.LinearizationAsserted lib := by
  intro g
  rw [h.synchronised.asserted.mem_iff]
  constructor
  · rintro ⟨p | x, f, hf, hg⟩
    · obtain ⟨d, hd, rfl⟩ := map_eq_some_iff.mp hf
      exact .inl ⟨p, d, hd, hg⟩
    · rw [active] at hf
      split at hf
      · next hx =>
          cases hf
          rw [conjuncts_positivity, mem_singleton] at hg
          exact .inr ⟨x, hx, hg⟩
      · cases hf
  · rintro (⟨p, d, hd, hg⟩ | ⟨x, hx, rfl⟩)
    · exact ⟨.separator p, _, by rw [active, hd]; rfl, hg⟩
    · refine ⟨.moment x, positivity lib x, by rw [active, if_pos hx], ?_⟩
      rw [conjuncts_positivity]
      exact mem_singleton.mpr rfl

/-! ## The model of the inner solver -/

section Solved

/-- The model satisfies the linearizations of all separators. -/
theorem satisfies_linearization (h : Inv lib s) (hslv : Solved lib s) {p : Poly V ℚ}
    {d : Direction} (hd : (s.mSeparators p).mActiveDirection = some d) :
    s.model.toAssignment.Satisfies (linearization lib p d) := by
  rw [Assignment.Satisfies, Formula.eval_iff_conjuncts]
  intro g hg
  exact hslv.model g ((h.linearizationAsserted g).mpr (.inl ⟨p, d, hd, hg⟩))

theorem exponent_nonneg (h : Inv lib s) (hslv : Solved lib s) {x : V} (hx : s.mUsed x) :
    0 ≤ s.model.arith (.normalVector x) := by
  have hsat := hslv.model _ ((h.linearizationAsserted _).mpr (.inr ⟨x, hx, rfl⟩))
  rw [positivity, lib.linear.satisfies_constraint, Poly.eval_var] at hsat
  exact Rat.cast_nonneg.mp hsat

/-- The relations of each separator are compatible. -/
theorem compatible (h : Inv lib s) (hslv : Solved lib s) (p : Poly V ℚ) :
    Compatible (s.mSeparators p).mRelations := by
  have hsum := h.prohibited {p}
  rw [Finset.sum_singleton, hslv.prohibited, prohibitions] at hsum
  refine ⟨fun heq => ?_, fun hboth => ?_, fun r hr r' hr' hconf => ?_⟩
  · rw [if_pos heq] at hsum
    split at hsum <;> norm_num at hsum
  · rw [if_pos hboth] at hsum
    split at hsum <;> norm_num at hsum
  · obtain ⟨subset, hsub, -⟩ := h.conflicts p r hr r' hr' hconf
    rw [hslv.feasible] at hsub
    cases hsub

/-- The separator of a received constraint has a direction that supports its relation. -/
theorem exists_direction (h : Inv lib s) (hslv : Solved lib s) {c : Constraint V}
    (hc : .atom (.constraint c) ∈ s.received) :
    ∃ d, (s.mSeparators (normalization c).1).mActiveDirection = some d ∧
      d.Supports (normalization c).2 := by
  have hr : (normalization c).2 ∈ (s.mSeparators (normalization c).1).mRelations :=
    (h.relations _ _).mpr ⟨_, hc, rfl⟩
  obtain ⟨d, hd, hsupports⟩ := Compatible.supports _
    (s.mSeparators (normalization c).1).mActiveDirection (compatible h hslv _) _ hr
  exact ⟨d, (hslv.settled _).symm.trans hd, hsupports⟩

omit [DecidableEq V] in
theorem gatherVariables_constraint (c : Constraint V) :
    gatherVariables (.atom (.constraint c) : Formula (Atom V B)) = Poly.variables c.lhs := by
  simp [gatherVariables, Formula.atoms, Atom.vars]

/-- Integers that occur in a received formula are in use. -/
theorem used_of_received (h : Inv lib s) (hslv : Solved lib s) {f : Formula (Atom V B)}
    (hf : f ∈ s.received) {x : V} (hx : x ∈ gatherVariables f) (hint : lib.int x) :
    x ∈ s.moments ∧ s.mUsed x := by
  have hmem : x ∈ s.moments := by
    rcases h.admissible f hf with ⟨b, rfl⟩ | ⟨c, rfl, -⟩
    · simp [gatherVariables, Formula.atoms] at hx
    · obtain ⟨d, hd, -⟩ := exists_direction h hslv hf
      refine h.synchronised.moments _ d hd x ?_
      rw [gatherVariables_constraint] at hx
      rwa [normalization, variables_normalize]
  refine ⟨hmem, ?_⟩
  rw [hslv.used x hmem hint, receivedVariable, List.any_eq_true]
  exact ⟨f, hf, decide_eq_true hx⟩

/-- The values are signed powers with integer exponents that are not negative. -/
theorem exists_exponents (h : Inv lib s) (hslv : Solved lib s) :
    ∃ (scale : ℝ) (z : V → ℤ), 0 < scale ∧ ∀ x, s.mUsed x →
      0 ≤ z x ∧ s.model.toAssignment.arith (.normalVector x) = scale * z x ∧
        ∀ n : ℕ, ∃ v, s.modelAt lib n x = some v ∧ (∃ k : ℤ, v = k) ∧
          (v : ℝ) = signedPower s.model.toAssignment z n x := by
  obtain ⟨scale, hscale, hweights, hint⟩ := exists_weights lib s
  refine ⟨scale, fun x => ⌊s.model.arith (.normalVector x) / scale⌋, Rat.cast_pos.mpr hscale,
    fun x hx => ?_⟩
  have hmem := (h.synchronised.used x hx).2
  obtain ⟨k, hk⟩ := hint x hmem hx
  have hnonneg : 0 ≤ k := by
    have := div_nonneg (exponent_nonneg h hslv hx) hscale.le
    rw [hk] at this
    exact_mod_cast this
  have hfloor : ⌊s.model.arith (.normalVector x) / scale⌋ = k := by
    rw [hk, Int.floor_intCast]
  dsimp only
  refine ⟨hfloor ▸ hnonneg, ?_, fun n => ⟨(s.weightOf scale x).value n, ?_, ?_, ?_⟩⟩
  · rw [hfloor]
    change ((s.model.arith (.normalVector x) : ℚ) : ℝ) = scale * k
    have heq := (div_eq_iff hscale.ne').mp hk
    rw [heq]
    push_cast
    ring
  · rw [modelAt_eq lib s hweights, if_pos ⟨hmem, hx⟩]
  · obtain ⟨m, rfl⟩ := Int.eq_ofNat_of_zero_le hnonneg
    rw [Weight.value_eq (w := s.weightOf scale x) hk, zpow_natCast]
    refine ⟨(if (s.weightOf scale x).mSign then -1 else 1) * n ^ m, ?_⟩
    push_cast
    split <;> norm_num
  · rw [Weight.value_eq (w := s.weightOf scale x) hk, signedPower, hfloor, signOf]
    push_cast
    refine congrArg (· * _) ?_
    change (((if s.model.bool x then -1 else 1 : ℚ)) : ℝ) = if s.model.bool x then -1 else 1
    split <;> norm_num

/-- Variables with a value are in use. -/
theorem used_of_modelAt {n : ℚ} {x : V} (hx : (s.modelAt lib n x).isSome) : s.mUsed x := by
  obtain ⟨scale, -, hweights, -⟩ := exists_weights lib s
  rw [modelAt_eq lib s hweights] at hx
  split at hx
  · next hused => exact hused.2
  · cases hx

theorem isInteger_of_modelAt (h : Inv lib s) (hslv : Solved lib s) {n : ℕ} {x : V} {v : ℚ}
    (hv : s.modelAt lib n x = some v) : ∃ k : ℤ, v = k := by
  obtain ⟨scale, z, -, hz⟩ := exists_exponents h hslv
  obtain ⟨v', hv', hint, -⟩ := (hz x (used_of_modelAt (by rw [hv]; rfl))).2.2 n
  rw [hv, some.injEq] at hv'
  exact hv' ▸ hint

/-- For all large bases the assignment is a model. -/
theorem eventually_isModel (h : Inv lib s) (hslv : Solved lib s) (hint : s.OnlyIntegers lib) :
    ∀ᶠ n : ℕ in atTop, IsModel lib s.received (s.modelAt lib n) := by
  obtain ⟨scale, z, hscale, hz⟩ := exists_exponents h hslv
  have hused {f : Formula (Atom V B)} (hf : f ∈ s.received) {x : V}
      (hx : x ∈ gatherVariables f) := (used_of_received h hslv hf hx (hint f hf x hx)).2
  have hsat : ∀ f ∈ s.received, ∀ᶠ n : ℕ in atTop, ∀ a : Assignment V B,
      (∀ x, a.arith x = ((s.modelAt lib n x).getD 0 : ℚ)) → a.Satisfies f := by
    intro f hf
    rcases h.admissible f hf with ⟨b, rfl⟩ | ⟨c, rfl, hc⟩
    · cases b with
      | true => exact Eventually.of_forall fun n a _ => (satisfies_const a true).mpr rfl
      | false =>
        have hmem := h.falseReceived hf
        rw [hslv.feasible] at hmem
        cases hmem
    · obtain ⟨d, hd, hsupports⟩ := exists_direction h hslv hf
      obtain ⟨hne, hcoeff⟩ := lib.coeff_ne_zero c hc
      have hlcoeff := lcoeff_ne_zero hne hcoeff
      have hvars : ∀ x ∈ Poly.variables c.lhs, s.mUsed x := fun x hx =>
        hused hf (by rwa [gatherVariables_constraint])
      have hnormalized : ∀ t ∈ (normalization c).1, t.coeff ≠ 0 := by
        intro t ht
        obtain ⟨u, hu, rfl⟩ := List.mem_map.mp ht
        exact div_ne_zero (hcoeff u hu) hlcoeff
      have heventually := eventually_evaluate lib.linear lib.separatorType hsupports hscale
        hnormalized (fun x hx => (hz x (hvars x (by
          rwa [normalization, variables_normalize] at hx))).2.1)
        (satisfies_linearization h hslv hd)
      filter_upwards [heventually] with n hn a ha
      have heval : Poly.eval a.arith c.lhs =
          Poly.eval (signedPower s.model.toAssignment z n) c.lhs := by
        refine Poly.eval_congr fun x hx => ?_
        obtain ⟨v, hv, -, hval⟩ := (hz x (hvars x hx)).2.2 n
        rw [ha x, hv, ← hval, getD_some]
      rw [satisfies_atom, Atom.Holds, Constraint.Sat, heval]
      exact (sat_iff_normalization hlcoeff _).mpr hn
  have hall : ∀ᶠ n : ℕ in atTop, ∀ f ∈ {f | f ∈ s.received}, ∀ a : Assignment V B,
      (∀ x, a.arith x = ((s.modelAt lib n x).getD 0 : ℚ)) → a.Satisfies f :=
    (eventually_all_finite (finite_toSet s.received)).mpr hsat
  filter_upwards [hall] with n hn
  refine ⟨fun f hf x hx => ?_, fun x _ v hv => isInteger_of_modelAt h hslv hv, hn⟩
  obtain ⟨v, hv, -⟩ := (hz x (hused hf hx)).2.2 n
  rw [hv]
  rfl

end Solved

/-! ## The search for a base -/

/-- The loop of `updateModel` ends at a base. -/
def Stops (lib : Library V B) (s : STropModule V B) (m : V → Option ℚ) : Prop :=
  satisfiedBy lib m s.received 1 ≠ 0

omit [DecidableEq V] in
/-- Formulas with a truth value are satisfied if none of them is false. -/
theorem satisfiedBy_eq_zero_iff {fs : List (Formula (Atom V B))} {m : V → Option ℚ}
    (h : ∀ f ∈ fs, ∃ b, lib.substitute f m = some b) :
    satisfiedBy lib m fs 1 = 0 ↔ ∃ f ∈ fs, lib.substitute f m = some false := by
  induction fs with
  | nil => simp [satisfiedBy]
  | cons f fs ih =>
    obtain ⟨⟨b, hb⟩, hfs⟩ := forall_mem_cons.mp h
    rw [satisfiedBy, hb]
    cases b with
    | false => simp [hb]
    | true => simp [hb, ih hfs]

/-- The loop ends at the first base with a model, if there is one. -/
theorem exists_searchModel {n base : ℕ} (hstop : Stops lib s (s.modelAt lib n)) (hn : base < n) :
    ∃ fuel k, base < k ∧ s.searchModel lib fuel base = some (s.modelAt lib (k : ℕ)) ∧
      Stops lib s (s.modelAt lib (k : ℕ)) := by
  induction hd : n - base generalizing base with
  | zero => omega
  | succ d ih =>
    by_cases hfst : Stops lib s (s.modelAt lib ((base + 1 : ℕ) : ℚ))
    · exact ⟨1, base + 1, Nat.lt_succ_self base, by rw [searchModel]; exact if_neg hfst, hfst⟩
    · have hlt : base + 1 < n := by
        refine lt_of_le_of_ne hn fun heq => hfst ?_
        rw [heq]
        exact hstop
      obtain ⟨fuel, k, hk, hsrch, hstops⟩ := ih hlt (by omega)
      refine ⟨fuel + 1, k, by omega, ?_, hstops⟩
      rw [searchModel]
      exact (if_pos (not_not.mp hfst)).trans hsrch

/-- After a check through the linearization a model is found exactly if no variable is real. -/
theorem modelFound_iff (h : Inv lib s) (hslv : Solved lib s) :
    s.ModelFound lib ↔ s.OnlyIntegers lib := by
  constructor
  · rintro ⟨⟨b₀, hb₀⟩, -⟩ f hf x hx
    exact (h.synchronised.used x (used_of_modelAt ((hb₀ b₀ le_rfl).assigned f hf x hx))).1
  · intro hint
    have hmod := eventually_isModel h hslv hint
    refine ⟨eventually_atTop.mp hmod, ?_⟩
    obtain ⟨n, hn, hpos⟩ := (hmod.and (eventually_gt_atTop 0)).exists
    have hasgn (k : ℕ) : ∀ f ∈ s.received, ∀ x ∈ gatherVariables f,
        (s.modelAt lib (k : ℕ) x).isSome := by
      intro f hf x hx
      obtain ⟨scale, z, -, hz⟩ := exists_exponents h hslv
      obtain ⟨v, hv, -⟩ := (hz x (used_of_received h hslv hf hx (hint f hf x hx)).2).2.2 k
      rw [hv]
      rfl
    have hval (k : ℕ) (f) (hf : f ∈ s.received) :=
      substitute_of_assigned lib (h.admissible f hf) (hasgn k f hf)
    -- the loop stops exactly at the models
    have hstops (k : ℕ) : Stops lib s (s.modelAt lib (k : ℕ)) ↔ ∀ f ∈ s.received,
        ∀ a : Assignment V B, (∀ x, a.arith x = ((s.modelAt lib (k : ℕ) x).getD 0 : ℚ)) →
          a.Satisfies f := by
      rw [Stops, Ne, satisfiedBy_eq_zero_iff fun f hf => (hval k f hf).imp fun _ hb => hb.1]
      constructor
      · intro hnone f hf
        obtain ⟨b, hb, hiff⟩ := hval k f hf
        refine hiff.mp ?_
        cases b with
        | true => rfl
        | false => exact absurd ⟨f, hf, hb⟩ hnone
      · rintro hall ⟨f, hf, hfalse⟩
        obtain ⟨b, hb, hiff⟩ := hval k f hf
        rw [hiff.mpr (hall f hf), hfalse] at hb
        cases hb
    obtain ⟨fuel, k, -, hsrch, hstop⟩ := exists_searchModel ((hstops n).mpr hn.satisfied) hpos
    exact ⟨fuel, _, hsrch, hasgn k, fun x _ v hv => isInteger_of_modelAt h hslv hv,
      (hstops k).mp hstop⟩

end STropModule

end Smtrat.STrop
