import Smtrat.Solver.ObjectiveVariables

/-!
# Objectives

A check for one objective asks the primary backend for a least value of a new variable that equals
the objective.  For several objectives the value found should bound the next check, but it is the
variable of the next objective that is looked up, of which the model says nothing yet.
-/

namespace Smtrat

open PropFormula SparsePoly List Function

universe u v w

/-! ## Least values -/

/-- The least element of a set of values, or its lack of a lower bound, as a model states it. -/
def Least (S : Set ℝ) : ModelValue → Prop
  | .rational q => (q : ℝ) ∈ S ∧ ∀ r ∈ S, (q : ℝ) ≤ r
  | .infinity false => ∀ r : ℝ, ∃ s ∈ S, s < r
  | _ => False

theorem Least.unique {S : Set ℝ} {v w : ModelValue} (hv : Least S v) (hw : Least S w) : v = w := by
  have hunbounded : ∀ q : ℚ, (∀ r ∈ S, (q : ℝ) ≤ r) → ¬ ∀ r : ℝ, ∃ s ∈ S, s < r := by
    intro q hq h
    obtain ⟨s, hs, hlt⟩ := h q
    exact absurd hlt (not_lt.mpr (hq s hs))
  match v, w with
  | .rational p, .rational q =>
    have hpq : (p : ℝ) = q := le_antisymm (hv.2 q hw.1) (hw.2 p hv.1)
    rw [Rat.cast_injective hpq]
  | .rational p, .infinity false => exact absurd hw (hunbounded p hv.2)
  | .infinity false, .rational q => exact absurd hv (hunbounded q hw.2)
  | .infinity false, .infinity false => rfl
  | .infinity true, _ => exact hv.elim
  | .other, _ => exact hv.elim
  | .rational _, .infinity true => exact hw.elim
  | .rational _, .other => exact hw.elim
  | .infinity false, .infinity true => exact hw.elim
  | .infinity false, .other => exact hw.elim

namespace Manager

variable {U : Type u} {B : Type v} {β : Type w}

/-! ## Models and optima -/

section Models

variable (int : U → Bool) (possible : Set (B → Bool))

/-- Assignments that respect the types of the variables and the other theories. -/
def Admissible (a : Assignment (SolverVariable U) B) : Prop :=
  (∀ x, isInt int x → ∃ z : ℤ, a.arith x = z) ∧ a.theory ∈ possible

def Models (fs : List (Formula (Atom (SolverVariable U) B))) :
    Set (Assignment (SolverVariable U) B) :=
  { a | Admissible int possible a ∧ ∀ f ∈ fs, a.Satisfies f }

/-- The primary backend decides satisfiability, and its model contains the least value of the
objective variable where there is one. -/
structure Decides (bk : Backend U B β) : Prop where
  sat_iff : ∀ fs x full minimize s,
    (bk.checkCore fs x full minimize s).1 = .sat ↔ (Models int possible fs).Nonempty
  least : ∀ fs x full s v, (bk.checkCore fs (some x) full true s).1 = .sat →
    Least ((fun a => a.arith x) '' Models int possible fs) v →
      bk.getBackendsModel (bk.checkCore fs (some x) full true s).2 x = some v

end Models

/-- The value of an objective. -/
noncomputable def Objective.value (o : Objective U) (a : Assignment (SolverVariable U) B) : ℝ :=
  Poly.eval a.arith o.function

def ModelValue.negate : ModelValue → ModelValue
  | .rational q => .rational (-q)
  | .infinity b => .infinity (!b)
  | .other => .other

/-- The optimum of an objective: its least value, or its greatest one where it is maximized. -/
def IsOptimum (S : Set (Assignment (SolverVariable U) B)) (o : Objective U) (v : ModelValue) :
    Prop :=
  if o.minimize then Least (Objective.value o '' S) v
  else Least ((fun a => -Objective.value o a) '' S) (ModelValue.negate v)

/-- Optima in the order of the objectives: each one is the optimum among the assignments that
attain those before it. -/
def LexOptimal (S : Set (Assignment (SolverVariable U) B)) :
    List (Objective U) → List ModelValue → Prop
  | [], [] => True
  | o :: os, .rational q :: vs =>
    IsOptimum S o (.rational q) ∧ LexOptimal { a ∈ S | Objective.value o a = q } os vs
  | o :: os, v :: vs => IsOptimum S o v ∧ vs.length = os.length
  | _, _ => False

/-- What a check promises: the answer is right, the optima reported afterwards are the
lexicographic ones, and the formulas, the backtrack points and the objectives are as before. -/
def CheckCorrect [DecidableEq U] [DecidableEq B] (bk : Backend U B β)
    (pool : ConstraintPool (SolverVariable U) B) (int : U → Bool) (possible : Set (B → Bool))
    (m : Manager U B β) (full : Bool) : Prop :=
  ∃ answer m', m.check bk pool int full = some (answer, m') ∧
    (answer = .sat ↔ (Models int possible m.received).Nonempty) ∧
    (answer = .sat → ∀ vs, LexOptimal (Models int possible m.received) m.mObjectives vs →
      m'.mObjectives.map (fun o => m'.optimum bk o.function) = vs.map some) ∧
    m'.Restored m.mpPassedFormula.elements m.mObjectives m.mBacktrackPoints

/-! ## The equation of an objective -/

theorem satisfies_formula {V : Type*} (pool : ConstraintPool V B) (c : Constraint V)
    (a : Assignment V B) : a.Satisfies (pool.formula c) ↔ c.Sat a.arith := by
  rw [ConstraintPool.formula]
  cases h : pool.create c with
  | inl b => rw [satisfies_const, pool.create_inl c b h]
  | inr c' => rw [satisfies_atom, Atom.Holds, pool.create_inr c c' h]

theorem variables_formula {V : Type*} (pool : ConstraintPool V B) (c : Constraint V) {x : V}
    (hx : x ∈ gatherVariables (pool.formula c)) : x ∈ Poly.variables c.lhs := by
  rw [ConstraintPool.formula] at hx
  cases h : pool.create c with
  | inl b =>
    rw [h] at hx
    simp [gatherVariables, Formula.atoms] at hx
  | inr c' =>
    rw [h] at hx
    refine pool.variables_inr c c' h x ?_
    simpa [gatherVariables, Formula.atoms, Atom.vars] using hx

theorem variables_minimized (o : Objective U) :
    Poly.variables (Objective.minimized o) = Poly.variables o.function := by
  rw [Objective.minimized]
  split_ifs
  · rfl
  · simp [Poly.variables, Poly.neg, flatMap_map]

theorem eval_minimized (o : Objective U) (a : Assignment (SolverVariable U) B) :
    Poly.eval a.arith (Objective.minimized o)
      = if o.minimize then Objective.value o a else -Objective.value o a := by
  rw [Objective.minimized, Objective.value]
  split_ifs
  · rfl
  · rw [Poly.eval_neg]

/-- The optimum of an objective is the least value of the function to minimize. -/
theorem isOptimum_iff {S : Set (Assignment (SolverVariable U) B)} {o : Objective U}
    {v : ModelValue} : IsOptimum S o v ↔
      Least ((fun a => Poly.eval a.arith (Objective.minimized o)) '' S)
        (if o.minimize then v else ModelValue.negate v) := by
  rw [IsOptimum]
  simp only [eval_minimized]
  cases o.minimize <;> rfl

section Equation

variable (pool : ConstraintPool (SolverVariable U) B) (o : Objective U)

theorem satisfies_objectiveEquation (a : Assignment (SolverVariable U) B) :
    a.Satisfies (objectiveEquation pool o) ↔
      Poly.eval a.arith (Objective.minimized o) = a.arith o.objVar := by
  rw [objectiveEquation, satisfies_formula, Constraint.Sat, Relation.evaluate]
  simp only [Poly.eval_sub, Poly.eval_var]
  exact sub_eq_zero

theorem variables_objectiveEquation {x : SolverVariable U}
    (hx : x ∈ gatherVariables (objectiveEquation pool o)) :
    x ∈ Poly.variables o.function ∨ x = o.objVar := by
  have hx := variables_formula pool _ hx
  rw [Poly.sub, Poly.variables, flatMap_append, mem_append] at hx
  rcases hx with hx | hx
  · rw [← variables_minimized]
    exact Or.inl hx
  · right
    simpa [Poly.neg, Poly.var] using hx

/-- The variable of an objective occurs in its equation: otherwise its value would not matter. -/
theorem objVar_mem_objectiveEquation [DecidableEq U] (ho : o.objVar ∉ Poly.variables o.function) :
    o.objVar ∈ gatherVariables (objectiveEquation pool o) := by
  by_contra hx
  let a : Assignment (SolverVariable U) B := ⟨fun _ => 0, fun _ => false, fun _ => false⟩
  let at_ (r : ℝ) : Assignment (SolverVariable U) B :=
    { a with arith := update a.arith o.objVar r }
  have heval : ∀ r, Poly.eval (at_ r).arith (Objective.minimized o)
      = Poly.eval a.arith (Objective.minimized o) := fun r => Poly.eval_congr fun y hy => by
    rw [variables_minimized] at hy
    exact update_of_ne (fun h : y = o.objVar => ho (h ▸ hy)) _ _
  have hsame : ∀ r, (at_ r).Satisfies (objectiveEquation pool o) ↔
      a.Satisfies (objectiveEquation pool o) := fun r =>
    satisfies_congr rfl rfl fun y hy => update_of_ne (fun h : y = o.objVar => hx (h ▸ hy)) _ _
  have hval : ∀ r, Poly.eval a.arith (Objective.minimized o) = r ↔
      a.Satisfies (objectiveEquation pool o) := fun r => by
    rw [← hsame r, satisfies_objectiveEquation, heval]
    exact Eq.congr_right (update_self o.objVar r a.arith).symm
  have h₀ := (hval _).mp rfl
  have h₁ := (hval (Poly.eval a.arith (Objective.minimized o) + 1)).mpr h₀
  linarith

end Equation

/-- The values of an integer-valued polynomial are integers. -/
theorem integerValued_eval {int : U → Bool} {p : Poly (SolverVariable U) ℚ}
    (hp : integerValued int p) {α : SolverVariable U → ℝ}
    (hα : ∀ x, isInt int x → ∃ z : ℤ, α x = z) : ∃ z : ℤ, Poly.eval α p = z := by
  have hmem : Poly.eval α p ∈ (Int.castRingHom ℝ).range := by
    refine Subring.list_sum_mem _ fun r hr => ?_
    obtain ⟨t, ht, rfl⟩ := mem_map.mp hr
    obtain ⟨hcoeff, hvars⟩ := Bool.and_eq_true_iff.mp (all_eq_true.mp hp t ht)
    refine Subring.mul_mem _ ⟨t.coeff.num, ?_⟩ (Subring.list_prod_mem _ fun r hr => ?_)
    · have hden : ((t.coeff.num : ℚ) : ℝ) = (t.coeff : ℝ) := by
        rw [Rat.coe_int_num_of_den_eq_one (of_decide_eq_true hcoeff)]
      rw [eq_ratCast, ← hden]
      simp
    · obtain ⟨q, hq, rfl⟩ := mem_map.mp hr
      obtain ⟨z, hz⟩ := hα q.1 (all_eq_true.mp hvars q hq)
      have hmem : α q.1 ∈ (Int.castRingHom ℝ).range := ⟨z, by rw [hz]; simp⟩
      exact Subring.pow_mem _ hmem _
  obtain ⟨z, hz⟩ := hmem
  exact ⟨z, by rw [← hz]; simp⟩

/-- With its equation, the variable of an objective takes the values of the objective. -/
theorem image_models_equation {int : U → Bool} [DecidableEq U] (possible : Set (B → Bool))
    (pool : ConstraintPool (SolverVariable U) B) {o : Objective U} (huser : UserPoly o.function)
    (hfresh : ∀ u, o.objVar ≠ .user u) (htyp : isInt int o.objVar = integerValued int o.function)
    {fs fs' : List (Formula (Atom (SolverVariable U) B))} (hfs : ∀ f ∈ fs, UserFormula f)
    (hfs' : ∀ f, f ∈ fs' ↔ f ∈ fs ∨ f = objectiveEquation pool o) :
    (fun a => a.arith o.objVar) '' Models int possible fs'
      = (fun a => Poly.eval a.arith (Objective.minimized o)) '' Models int possible fs := by
  ext r
  constructor
  · rintro ⟨a, ⟨hadm, ha⟩, rfl⟩
    refine ⟨a, ⟨hadm, fun f hf => ha f ((hfs' f).mpr (Or.inl hf))⟩, ?_⟩
    exact (satisfies_objectiveEquation pool o a).mp (ha _ ((hfs' _).mpr (Or.inr rfl)))
  · rintro ⟨a, ⟨hadm, ha⟩, rfl⟩
    -- the assignment is extended by the value of the objective
    let r := Poly.eval a.arith (Objective.minimized o)
    let b : Assignment (SolverVariable U) B :=
      { a with arith := update a.arith o.objVar r }
    have huser' : ∀ u, b.arith (.user u) = a.arith (.user u) := fun u =>
      update_of_ne (fun h => hfresh u h.symm) _ _
    have hself : b.arith o.objVar = r := update_self _ _ _
    have hint : isInt int o.objVar → ∃ z : ℤ, r = z := fun hi => by
      obtain ⟨z, hz⟩ := integerValued_eval (htyp ▸ hi) hadm.1
      have hr : r = if o.minimize then (z : ℝ) else -z := by
        rw [← hz]
        exact eval_minimized o a
      refine ⟨if o.minimize then z else -z, hr.trans ?_⟩
      split_ifs <;> simp
    refine ⟨b, ⟨⟨fun x hx => ?_, hadm.2⟩, fun f hf => ?_⟩, hself⟩
    · by_cases hxo : x = o.objVar
      · subst hxo
        rw [hself]
        exact hint hx
      · obtain ⟨z, hz⟩ := hadm.1 x hx
        exact ⟨z, (update_of_ne hxo _ _).trans hz⟩
    · rcases (hfs' f).mp hf with hf | rfl
      · refine (satisfies_congr (a := b) (b := a) rfl rfl fun x hx => ?_).mpr (ha f hf)
        obtain ⟨u, rfl⟩ := hfs f hf x hx
        exact huser' u
      · rw [satisfies_objectiveEquation, hself]
        refine Poly.eval_congr fun x hx => ?_
        rw [variables_minimized] at hx
        obtain ⟨u, rfl⟩ := huser x hx
        exact huser' u

/-! ## A check for one objective -/

section Check

variable [DecidableEq U] [DecidableEq B] (bk : Backend U B β)
  (pool : ConstraintPool (SolverVariable U) B) (full : Bool) {int : U → Bool} {m : Manager U B β}

omit [DecidableEq U] [DecidableEq B] in
theorem conjuncts_formula (c : Constraint (SolverVariable U)) :
    ModuleInput.conjuncts (pool.formula c) = [pool.formula c] := by
  rw [ConstraintPool.formula]
  cases pool.create c <;> rfl

/-- What the backend is asked, and what is kept of its answer. -/
theorem checkObjective_spec (hm : m.mpPassedFormula.WellFormed) (o : Objective U) :
    ∃ fs s, (∀ f, f ∈ fs ↔ f ∈ m.received ∨ f = objectiveEquation pool o) ∧
      (checkObjective bk pool full o m).2.received = fs ∧
      (checkObjective bk pool full o m).1 = (bk.checkCore fs (some o.objVar) full true s).1 ∧
      (checkObjective bk pool full o m).2.mpPrimaryBackend.state
        = (bk.checkCore fs (some o.objVar) full true s).2 ∧
      ((checkObjective bk pool full o m).1 = .sat →
        (checkObjective bk pool full o m).2.mpPrimaryBackend.mModelComputed = false) := by
  let m₁ := (m.push.add bk (objectiveEquation pool o) true).2.setObjective o.objVar
  have hmem : ∀ f, f ∈ m₁.received ↔ f ∈ m.received ∨ f = objectiveEquation pool o := fun f => by
    have hadd := received_add bk (m := m.push) hm (objectiveEquation pool o) true f
    rw [objectiveEquation, conjuncts_formula, mem_singleton] at hadd
    exact hadd
  have hne : m₁.received.isEmpty = false := by
    rw [isEmpty_eq_false_iff_exists_mem]
    exact ⟨_, (hmem _).mpr (Or.inr rfl)⟩
  have hchk : checkObjective bk pool full o m = m₁.backendCheck bk full true := rfl
  refine ⟨m₁.received, m₁.mpPrimaryBackend.state, hmem, ?_⟩
  rw [hchk, backendCheck, hne]
  refine ⟨rfl, rfl, rfl, fun hsat => ?_⟩
  simp only [Bool.false_eq_true, if_false] at hsat ⊢
  rw [show (bk.checkCore m₁.received m₁.mpPrimaryBackend.mObjective full true
    m₁.mpPrimaryBackend.state).1 = Answer.sat from hsat]
  simp

omit [DecidableEq B] in
/-- The model contains what the backend says about the variables of the received formulas. -/
theorem mModel_updateModel (h : m.mpPrimaryBackend.mModelComputed = false) :
    (m.updateModel bk).mpPrimaryBackend.mModel
        = excludeNotReceived m.received (bk.getBackendsModel m.mpPrimaryBackend.state) ∧
      (m.updateModel bk).mpPrimaryBackend.mModelComputed = true := by
  simp [updateModel, h]

omit [DecidableEq B] in
/-- The optimum reported for a single objective. -/
theorem optimum_single {o : Objective U} (ho : m.mObjectives = [o])
    (hcomp : m.mpPrimaryBackend.mModelComputed = true) {v : ModelValue} {S : Set ℝ}
    (hleast : Least S (if o.minimize then v else ModelValue.negate v))
    (hmod : m.mpPrimaryBackend.mModel o.objVar
      = some (if o.minimize then v else ModelValue.negate v)) :
    m.optimum bk o.function = some v := by
  have hm : m.model bk o.objVar = some (if o.minimize then v else ModelValue.negate v) := by
    rw [model, updateModel, hcomp]
    exact hmod
  simp only [optimum, ho, if_true, hm]
  cases hmin : o.minimize <;> cases v with
  | rational q => simp [ModelValue.negate, signedValue, hmin]
  | infinity b =>
    rw [hmin] at hleast
    cases b <;> first | exact hleast.elim | rfl
  | other =>
    rw [hmin] at hleast
    exact hleast.elim

theorem Ready.check_correct_iff {possible : Set (B → Bool)} (hb : Decides int possible bk)
    (hready : m.Ready int) (hne : m.mObjectives ≠ []) :
    CheckCorrect bk pool int possible m full ↔
      m.mObjectives.length = 1 ∨ ¬ (Models int possible m.received).Nonempty := by
  obtain ⟨o, rest, hos⟩ := exists_cons_of_ne_nil hne
  have hvar : ∀ o' ∈ m.mObjectives, ∃ n b, o'.objVar = .fresh n b := fun o' ho' => by
    have hmem : o'.objVar ∈ m.objectiveVars :=
      mem_append_left _ (mem_append_left _ (mem_map_of_mem ho'))
    obtain ⟨n, b, h, -⟩ := hready.ownVariables.fresh _ hmem
    exact ⟨n, b, h⟩
  have hfresh : ∀ o' ∈ m.mObjectives, ∀ u, o'.objVar ≠ .user u := fun o' ho' u h => by
    obtain ⟨n, b, h'⟩ := hvar o' ho'
    rw [h'] at h
    cases h
  have ho : o ∈ m.mObjectives := hos ▸ mem_cons_self
  have huser := hready.ownVariables.user o ho
  have hbase := (Restored.refl hready.wellFormed).push
  obtain ⟨fs, s', hfs, hrec, hans, hstate, hcomp⟩ :=
    checkObjective_spec bk pool full (m := m.push) hready.wellFormed o
  have hlev := checkObjective_based bk pool full (m := m.push) hready.wellFormed o
  have himage := image_models_equation possible pool huser (hfresh o ho)
    (hready.ownVariables.typed o ho) hready.user hfs
  have hsat : (checkObjective bk pool full o m.push).1 = .sat ↔
      (Models int possible m.received).Nonempty := by
    rw [hans, hb.sat_iff, ← Set.image_nonempty, himage, Set.image_nonempty]
  have hchk : m.check bk pool int full = checkObjectives bk pool int full (o :: rest) m.push := by
    rw [check, hos]
  by_cases hc : (checkObjective bk pool full o m.push).1 = .sat
  · have hnonempty := hsat.mp hc
    obtain ⟨hmod, hmodelComputed⟩ := mModel_updateModel bk (hcomp hc)
    rw [hrec, hstate] at hmod
    cases rest with
    | nil =>
      refine iff_of_true ?_ (Or.inl (by rw [hos]; rfl))
      have hlev' := hlev.updateModel bk
      have hres : m.check bk pool int full = some (.sat,
          (((checkObjective bk pool full o m.push).2.updateModel bk).popLevels bk int 2)) := by
        simp only [hchk, checkObjectives, hc, ne_eq, not_true_eq_false, if_false]
      have hrest := hbase.popLevels_two bk int hlev'
      refine ⟨_, _, hres, iff_of_true rfl hnonempty, fun _ vs hvs => ?_, hrest⟩
      have hpop := hlev'.pop_model bk int
      have hpop' := ((hlev'.pop bk int).based hbase).pop_model bk int
      rw [hos] at hvs
      obtain ⟨v, rfl, hv⟩ : ∃ v, vs = [v] ∧ IsOptimum (Models int possible m.received) o v := by
        rcases vs with - | ⟨q | b | -, vs⟩
        · exact hvs.elim
        · rcases vs with - | ⟨w, vs⟩
          · exact ⟨_, rfl, hvs.1⟩
          · exact hvs.2.elim
        · exact ⟨_, by rw [length_eq_zero_iff.mp hvs.2], hvs.1⟩
        · exact ⟨_, by rw [length_eq_zero_iff.mp hvs.2], hvs.1⟩
      have hleast := isOptimum_iff.mp hv
      have hval := hb.least fs o.objVar full s' _ (hans ▸ hc) (himage ▸ hleast)
      have hmem : o.objVar ∈ fs.flatMap gatherVariables := by
        refine mem_flatMap.mpr ⟨_, (hfs _).mpr (Or.inr rfl), ?_⟩
        refine objVar_mem_objectiveEquation pool o fun hmem => ?_
        obtain ⟨u, hu⟩ := huser _ hmem
        exact hfresh o ho u hu
      rw [hrest.objectives, hos, map_singleton, map_singleton]
      rw [hbase.popLevels_two_eq bk int hlev'] at hrest ⊢
      congr 1
      refine optimum_single bk (hrest.objectives.trans hos) ?_ hleast ?_
      · rw [hpop'.2, hpop.2, hmodelComputed]
      · rw [hpop'.1, hpop.1, hmod, excludeNotReceived, if_pos hmem, hval]
    | cons next rest =>
      refine iff_of_false ?_ ?_
      · rintro ⟨answer, m', hres, -⟩
        -- the variable of the next objective is none of the received formulas'
        have hnext : next.objVar ∉ fs.flatMap gatherVariables := by
          intro hmem
          obtain ⟨f, hf, hx⟩ := mem_flatMap.mp hmem
          have hnext : next ∈ m.mObjectives := by
            rw [hos]
            exact mem_cons_of_mem _ mem_cons_self
          rcases (hfs f).mp hf with hf | rfl
          · obtain ⟨u, hu⟩ := hready.user f hf _ hx
            exact hfresh next hnext u hu
          · rcases variables_objectiveEquation pool o hx with hx | hx
            · obtain ⟨u, hu⟩ := huser _ hx
              exact hfresh next hnext u hu
            · have hnodup := hready.ownVariables.nodup
              rw [objectiveVars, hos] at hnodup
              simp [hx] at hnodup
        have hnone : ((checkObjective bk pool full o m.push).2.updateModel
            bk).mpPrimaryBackend.mModel next.objVar = none := by
          rw [hmod, excludeNotReceived, if_neg hnext]
        simp only [hchk, checkObjectives, hc, ne_eq, not_true_eq_false, if_false, hnone] at hres
        cases hres
      · rw [hos]
        rintro (h | h)
        · simp at h
        · exact h hnonempty
  · refine iff_of_true ?_ (Or.inr fun h => hc (hsat.mpr h))
    have hres : m.check bk pool int full = some ((checkObjective bk pool full o m.push).1,
        ((checkObjective bk pool full o m.push).2.popLevels bk int 2)) := by
      simp only [hchk, checkObjectives, ne_eq, hc, not_false_eq_true, if_true]
    exact ⟨_, _, hres, hsat, fun h => absurd h hc, hbase.popLevels_two bk int hlev⟩

/-- In every reachable state with objectives, a check is right if there is one objective or the
formulas are unsatisfiable.  With several objectives and satisfiable formulas an assertion fails. -/
theorem check_objectives_correct_iff {possible : Set (B → Bool)} (hb : Decides int possible bk)
    (s : β) (actions : List (Action U B)) (hactions : ∀ a ∈ actions, a.IsUser)
    (hm : Run.run (step bk int pool) (initial s) actions = some m) (hne : m.mObjectives ≠ []) :
    CheckCorrect bk pool int possible m full ↔
      m.mObjectives.length = 1 ∨ ¬ (Models int possible m.received).Nonempty :=
  ((initial_ready s).run bk pool hactions hm).check_correct_iff bk pool full hb hne

end Check

/-! ## A backend that decides -/

open Classical in
/-- The backend that answers by definition; it keeps the model of the last check, with the least
value of the objective variable. -/
noncomputable def idealBackend (int : U → Bool) (possible : Set (B → Bool)) :
    Backend U B (Model (SolverVariable U)) where
  inform _ s := s
  add _ s := (true, s)
  remove _ s := s
  checkCore fs objective _ _ s :=
    if (Models int possible fs).Nonempty then
      (.sat, fun y =>
        if h : objective = some y ∧ ∃ v, Least ((fun a => a.arith y) '' Models int possible fs) v
        then some h.2.choose
        else some .other)
    else (.unsat, s)
  getBackendsModel s := s

theorem idealBackend_decides (int : U → Bool) (possible : Set (B → Bool)) :
    Decides int possible (idealBackend int possible) where
  sat_iff fs x full minimize s := by
    simp only [idealBackend]
    split_ifs with h
    · exact iff_of_true rfl h
    · exact iff_of_false nofun h
  least fs x full s v hsat hv := by
    have h : (Models int possible fs).Nonempty := by
      by_contra h
      simp only [idealBackend, if_neg h] at hsat
      cases hsat
    have hex : some x = some x ∧ ∃ v, Least ((fun a => a.arith x) '' Models int possible fs) v :=
      ⟨rfl, v, hv⟩
    simp only [idealBackend, if_pos h]
    rw [dif_pos hex, hex.2.choose_spec.unique hv]

def atLeastThreeActions : List (Action Nat Nat) :=
  [.add (.atom (.constraint ⟨Poly.sub (Poly.var (.user 0)) (SparsePoly.Poly.const 3), .geq⟩)) true,
    .addObjective (Poly.var (.user 0)) true]

theorem userPoly_var (x : U) : UserPoly (Poly.var (.user x)) := by
  intro y hy
  simp [Poly.variables, Poly.var] at hy
  exact ⟨x, hy⟩

/-- The least value of `x` where `x` is at least three. -/
theorem check_objectives_correct_atLeastThree :
    ∃ m : Manager Nat Nat (Model (SolverVariable Nat)),
      Run.run (step (idealBackend (fun _ => false) Set.univ) (fun _ => false) (.verbatim _ _))
        (initial fun _ => none) atLeastThreeActions = some m ∧
      CheckCorrect (idealBackend (fun _ => false) Set.univ) (.verbatim _ _) (fun _ => false)
        Set.univ m true := by
  have hactions : ∀ a ∈ atLeastThreeActions, a.IsUser := by
    intro a ha
    rcases mem_cons.mp ha with rfl | ha
    · intro x hx
      simp [gatherVariables, Formula.atoms, Atom.vars, Poly.variables, Poly.sub, Poly.var,
        SparsePoly.Poly.const, Poly.neg] at hx
      exact ⟨0, hx⟩
    · rw [mem_singleton.mp ha]
      exact userPoly_var 0
  refine ⟨_, rfl, ?_⟩
  exact (check_objectives_correct_iff _ _ true (idealBackend_decides (fun _ => false) Set.univ) _
    atLeastThreeActions hactions rfl (cons_ne_nil _ _)).mpr (Or.inl rfl)

/-- Two objectives and no formula at all. -/
theorem check_two_objectives :
    ¬ ∀ (m : Manager Nat Nat (Model (SolverVariable Nat))) (actions : List (Action Nat Nat)),
      (∀ a ∈ actions, a.IsUser) →
      Run.run (step (idealBackend (fun _ => false) Set.univ) (fun _ => false) (.verbatim _ _))
        (initial fun _ => none) actions = some m → m.mObjectives ≠ [] →
      CheckCorrect (idealBackend (fun _ => false) Set.univ) (.verbatim _ _) (fun _ => false)
        Set.univ m true := by
  intro h
  let actions : List (Action Nat Nat) :=
    [.addObjective (Poly.var (.user 0)) true, .addObjective (Poly.var (.user 1)) true]
  have hactions : ∀ a ∈ actions, a.IsUser := by
    intro a ha
    rcases mem_cons.mp ha with rfl | ha
    · exact userPoly_var 0
    · rw [mem_singleton.mp ha]
      exact userPoly_var 1
  have hcorr := h _ actions hactions rfl (cons_ne_nil _ _)
  have hinitial : (initial fun _ => none : Manager Nat Nat (Model (SolverVariable Nat))).Ready
      fun _ => false := initial_ready _
  have hready := hinitial.run (idealBackend (fun _ => false) Set.univ)
    (ConstraintPool.verbatim (SolverVariable Nat) Nat) hactions rfl
  have hiff := hready.check_correct_iff _ (.verbatim _ _) true
    (idealBackend_decides (fun _ => false) Set.univ) (cons_ne_nil _ _)
  rcases hiff.mp hcorr with hlen | hunsat
  · cases hlen
  · refine hunsat ⟨⟨fun _ => 0, fun _ => false, fun _ => false⟩, ⟨fun _ _ => ⟨0, by simp⟩,
      Set.mem_univ _⟩, nofun⟩

end Manager

end Smtrat
