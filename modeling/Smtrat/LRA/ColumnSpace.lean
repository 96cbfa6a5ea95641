import Smtrat.LRA.RowSpace

/-!
# The column space of the tableau

The polynomials of the non-basic variables are independent, and the input's variables are found
among those of the tableau.  The values of the columns therefore determine those of all variables,
by the polynomials as well as by the rows.
-/

namespace Smtrat.LRA

open Combination List Function Option

namespace RowSystem

variable {omit_division : Bool} {s s' : RowSystem}

/-- The polynomials of the columns are independent: a linear function is free to take any values
on them. -/
def Free (s : RowSystem) : Prop :=
  ∀ g : VarId → ℚ, ∃ φ : (Var →₀ ℚ) →ₗ[ℚ] ℚ, ∀ c ∈ s.mColumns, φ (s.poly c) = g c

/-- The columns are independent, and the variables of the input are found. -/
structure Based (s : RowSystem) : Prop where
  free : s.Free
  covered : ∀ v, s.IsKnown v → ∀ u ∈ (s.expression v).terms, ∃ w, s.mOriginalVars u.1 = some w
  indexed : ∀ v, s.IsKnown v → s.isOriginal v = true →
    ∃ x, s.expression v = .ofVar x ∧ s.mOriginalVars x = some v

/-! ## Linear functions and rows -/

/-- A linear function that agrees with the values of the columns agrees with those of the rows. -/
theorem SolvesActive.apply_eq (hs : s.Correct omit_division) {g : VarId → ℚ}
    (hg : s.SolvesActive g) {φ : (Var →₀ ℚ) →ₗ[ℚ] ℚ} (hφ : ∀ c ∈ s.mColumns, φ (s.poly c) = g c)
    {v : VarId} (hv : v ∈ s.mColumns ∨ v ∈ s.mRows) : φ (s.poly v) = g v := by
  rcases hv with hv | hv
  · exact hφ v hv
  · have hpoly : (s.row v).factor • φ (s.poly v) = eval g (s.row v).entries := by
      rw [← map_smul, hs.solves v (.inl hv), map_eval]
      exact eval_congr fun e he => hφ e.1 (hs.key_column v hv e he)
    have hfac := hs.factor_ne_zero v (.inl hv)
    exact smul_right_injective ℚ hfac (hpoly.trans (hg v hv).symm)

/-- A variable that is not among the terms of a form has no coefficient. -/
theorem polynomial_apply_of_notMem {p : LinearForm} {x : Var} (h : ∀ u ∈ p.terms, u.1 ≠ x) :
    p.polynomial x = 0 := by
  have hmap := map_eval (Finsupp.lapply (R := ℚ) x : (Var →₀ ℚ) →ₗ[ℚ] ℚ)
    (fun y => Finsupp.single y 1) p.terms
  refine hmap.trans ?_
  rw [eval_congr (g := fun _ => 0)]
  · induction p.terms with
    | nil => rfl
    | cons e es ih => rw [Combination.eval_cons, ih, smul_zero, add_zero]
  · exact fun e he => Finsupp.single_eq_of_ne (h e he).symm

/-! ## New variables -/

section NewNonbasicVariable

variable {x : Var} (hs : s.Correct omit_division) (h : s.Based)

include hs h

/-- The column of a variable of the input that is new does not depend on the others. -/
theorem newNonbasicVariable_free (hx : s.mOriginalVars x = none) :
    (s.newNonbasicVariable x).2.Free := by
  intro g
  obtain ⟨φ, hφ⟩ := h.free g
  have hext := newNonbasicVariable_extends (s := s) x
  let k := g s.nextId - φ (Finsupp.single x 1)
  refine ⟨φ + k • Finsupp.lapply x, ?_⟩
  intro c hc
  rcases mem_append.mp hc with hold | hnew
  · have hcoeff : s.poly c x = 0 := by
      apply polynomial_apply_of_notMem
      rintro u hu rfl
      obtain ⟨w, hw⟩ := h.covered c (.inl hold) u hu
      exact some_ne_none w (hw.symm.trans hx)
    rw [hext.poly hs.toWellFormed (.inl hold), LinearMap.add_apply, LinearMap.smul_apply,
      Finsupp.lapply_apply, hcoeff, smul_zero, add_zero, hφ c hold]
  · rw [mem_singleton.mp hnew]
    have hpoly : (s.newNonbasicVariable x).2.poly s.nextId = Finsupp.single x 1 := by
      rw [poly, ← LinearForm.polynomial_ofVar]
      exact congrArg LinearForm.polynomial (update_self _ _ _)
    rw [hpoly, LinearMap.add_apply, LinearMap.smul_apply, Finsupp.lapply_apply,
      Finsupp.single_eq_same, smul_eq_mul, mul_one]
    exact add_sub_cancel _ _

theorem newNonbasicVariable_based (hx : s.mOriginalVars x = none) :
    (s.newNonbasicVariable x).2.Based := by
  have hext := newNonbasicVariable_extends (s := s) x
  have hnew : (s.newNonbasicVariable x).2.expression s.nextId = .ofVar x :=
    update_self _ _ _
  have hself : (s.newNonbasicVariable x).2.mOriginalVars x = some s.nextId :=
    update_self _ _ _
  have hkeep : ∀ y w, s.mOriginalVars y = some w →
      (s.newNonbasicVariable x).2.mOriginalVars y = some w := by
    intro y w hy
    refine (update_of_ne ?_ _ _).trans hy
    rintro rfl
    exact some_ne_none w (hy.symm.trans hx)
  constructor
  case free => exact newNonbasicVariable_free hs h hx
  case covered =>
    intro v hv u hu
    rcases (isKnown_newNonbasicVariable x).mp hv with hv | rfl
    · rw [hext.expression v (hs.known_lt v hv)] at hu
      obtain ⟨w, hw⟩ := h.covered v hv u hu
      exact ⟨w, hkeep _ _ hw⟩
    · rw [hnew] at hu
      rw [mem_singleton.mp hu]
      exact ⟨_, hself⟩
  case indexed =>
    intro v hv horig
    rcases (isKnown_newNonbasicVariable x).mp hv with hv | rfl
    · rw [hext.isOriginal v (hs.known_lt v hv)] at horig
      obtain ⟨y, hexpr, hy⟩ := h.indexed v hv horig
      exact ⟨y, (hext.expression v (hs.known_lt v hv)).trans hexpr, hkeep _ _ hy⟩
    · exact ⟨x, hnew, hself⟩

theorem originalVariable_based (x : Var) : (s.originalVariable x).2.Based := by
  rw [originalVariable]
  split
  · exact h
  · next hx => exact newNonbasicVariable_based hs h hx

end NewNonbasicVariable

/-- The variables of the input that are found stay found. -/
theorem originalVariable_keeps (x : Var) {y : Var} {w : VarId} (hy : s.mOriginalVars y = some w) :
    (s.originalVariable x).2.mOriginalVars y = some w := by
  rw [originalVariable]
  split
  · exact hy
  · next hx =>
      refine (update_of_ne ?_ _ _).trans hy
      rintro rfl
      exact some_ne_none w (hy.symm.trans hx)

theorem originalEntries_keeps (ts : List (Var × ℚ)) {y : Var} {w : VarId}
    (hy : s.mOriginalVars y = some w) : (originalEntries ts s).2.mOriginalVars y = some w := by
  induction ts generalizing s with
  | nil => exact hy
  | cons t ts ih => exact ih (originalVariable_keeps t.1 hy)

/-- The variables of a new row are found afterwards. -/
theorem originalEntries_based (ts : List (Var × ℚ)) (hs : s.Correct omit_division) (h : s.Based) :
    (originalEntries ts s).2.Based ∧
      ∀ u ∈ ts, ∃ w, (originalEntries ts s).2.mOriginalVars u.1 = some w := by
  induction ts generalizing s with
  | nil => exact ⟨h, fun u hu => absurd hu not_mem_nil⟩
  | cons t ts ih =>
    obtain ⟨hbased, hfound⟩ := ih (originalVariable_correct t.1 hs)
      (originalVariable_based hs h t.1)
    refine ⟨hbased, ?_⟩
    intro u hu
    rcases mem_cons.mp hu with rfl | hu
    · exact ⟨_, originalEntries_keeps ts (originalVariable_spec u.1)⟩
    · exact hfound u hu

theorem newBasicVariable_based (hs : s.Correct omit_division) (h : s.Based) (p : LinearForm)
    (isInteger : Bool) : (s.newBasicVariable p isInteger).2.Based := by
  obtain ⟨hbased, hfound⟩ := originalEntries_based p.terms (reserved_correct hs)
    (s := s.reserved) ⟨h.free, h.covered, h.indexed⟩
  have hne : ∀ v, (originalEntries p.terms s.reserved).2.IsKnown v → v ≠ s.nextId := by
    rintro v hv rfl
    exact newBasicVariable_fresh hs p hv
  have hexpr : ∀ v, (originalEntries p.terms s.reserved).2.IsKnown v →
      (s.newBasicVariable p isInteger).2.expression v =
        (originalEntries p.terms s.reserved).2.expression v :=
    fun v hv => update_of_ne (hne v hv) _ _
  constructor
  case free =>
    intro g
    obtain ⟨φ, hφ⟩ := hbased.free g
    refine ⟨φ, fun c hc => ?_⟩
    rw [poly, hexpr c (.inl hc)]
    exact hφ c hc
  case covered =>
    intro v hv u hu
    rcases (isKnown_newBasicVariable p isInteger).mp hv with hv | rfl
    · rw [hexpr v hv] at hu
      exact hbased.covered v hv u hu
    · rw [newBasicVariable_expression_self] at hu
      exact hfound u hu
  case indexed =>
    intro v hv horig
    rcases (isKnown_newBasicVariable p isInteger).mp hv with hv | rfl
    · obtain ⟨x, hx, hfind⟩ := hbased.indexed v hv ((update_of_ne (hne v hv) _ _).symm.trans horig)
      exact ⟨x, (hexpr v hv).trans hx, hfind⟩
    · exact absurd (horig.symm.trans (update_self _ _ _)) (by decide)

theorem getVariable_based (hs : s.Correct omit_division) (h : s.Based) (lhs : LinearForm)
    (constantPart : ℚ) : (s.getVariable lhs constantPart).2.Based := by
  rw [getVariable]
  split
  · exact originalVariable_based hs h _
  · simp only
    split
    · exact h
    · have hbased := newBasicVariable_based hs h lhs.slackForm lhs.integerValued
      exact ⟨hbased.free, hbased.covered, hbased.indexed⟩

/-! ## Steps that create no variables -/

theorem SameVariables.based (hsame : s.SameVariables s') (h : s.Based) (hfree : s'.Free) :
    s'.Based where
  free := hfree
  covered v hv u hu := by
    rw [hsame.mOriginalVars]
    exact h.covered v ((hsame.known v).mp hv) u (hsame.expression ▸ hu)
  indexed v hv horig := by
    rw [hsame.mOriginalVars, hsame.expression]
    exact h.indexed v ((hsame.known v).mp hv) (hsame.isOriginal ▸ horig)

/-- The row of `r` gives `c` the value with which `r` has any value that is asked for. -/
theorem pivot_free (hs : s.Correct omit_division) (h : s.Free) {r c : VarId} {a : ℚ}
    (he : s.HasEntry r c a) : (s.pivot omit_division r c).Free := by
  intro g
  have hnd := hs.keys_nodup r he.row
  have ha := he.ne_zero hs.toWellFormed
  have hfac := hs.factor_ne_zero r (.inl he.row)
  let rest := eval g (others c (s.row r).entries)
  obtain ⟨φ, hφ⟩ := h (update g c (a⁻¹ * ((s.row r).factor * g r - rest)))
  refine ⟨φ, ?_⟩
  have hpoly : (s.pivot omit_division r c).poly = s.poly := by
    funext v
    rw [poly, poly, (pivot_sameVariables hs he).expression]
  intro d hd
  rw [hpoly]
  rcases (mem_pivot_columns hs.toWellFormed he).mp hd with rfl | ⟨hd, hdc⟩
  · have hrow : (s.row d).factor • φ (s.poly d) =
        a • φ (s.poly c) + eval (fun v => φ (s.poly v)) (others c (s.row d).entries) := by
      rw [← map_smul, hs.solves d (.inl he.row), map_eval, eval_of_mem hnd he.entry]
    have hrest : eval (fun v => φ (s.poly v)) (others c (s.row d).entries) = rest := by
      apply eval_congr
      intro e hmem
      obtain ⟨hmem, hne⟩ := mem_others.mp hmem
      exact (hφ e.1 (hs.key_column d he.row e hmem)).trans (update_of_ne hne _ _)
    rw [hrest, hφ c (he.column hs.toWellFormed), update_self, smul_eq_mul, smul_eq_mul,
      mul_inv_cancel_left₀ ha, sub_add_cancel] at hrow
    exact mul_left_cancel₀ hfac hrow
  · exact (hφ d hd).trans (update_of_ne hdc _ _)

end RowSystem

end Smtrat.LRA
