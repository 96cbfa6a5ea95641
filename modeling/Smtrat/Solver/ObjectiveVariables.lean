import Smtrat.Solver.PushPop

/-!
# Objective variables

Every objective has a variable of its own, which occurs neither in the input nor in another
objective.  Variables of objectives that a pop removes are used again.
-/

namespace Smtrat

open PropFormula SparsePoly List

universe u v w

namespace Manager

variable {U : Type u} {B : Type v} {β : Type w}

/-! ## Objective variables -/

/-- The variables of a polynomial are variables of the input. -/
def UserPoly (p : Poly (SolverVariable U) ℚ) : Prop :=
  ∀ x ∈ Poly.variables p, ∃ u, x = .user u

def UserFormula (f : Formula (Atom (SolverVariable U) B)) : Prop :=
  ∀ x ∈ gatherVariables f, ∃ u, x = .user u

/-- The variables that were made for objectives and not given away. -/
def objectiveVars (m : Manager U B β) : List (SolverVariable U) :=
  m.mObjectives.map (·.objVar) ++ m.mReusableIntObjectiveVars ++ m.mReusableRealObjectiveVars

/-- Every objective has a variable of its own, of the type of its values. -/
structure OwnVariables (int : U → Bool) (m : Manager U B β) : Prop where
  user : ∀ o ∈ m.mObjectives, UserPoly o.function
  nodup : m.objectiveVars.Nodup
  fresh : ∀ x ∈ m.objectiveVars, ∃ n b, x = .fresh n b ∧ n < m.freshVariables
  typed : ∀ o ∈ m.mObjectives, isInt int o.objVar = integerValued int o.function
  reusableInt : ∀ x ∈ m.mReusableIntObjectiveVars, isInt int x = true
  reusableReal : ∀ x ∈ m.mReusableRealObjectiveVars, isInt int x = false

variable {int : U → Bool} {m : Manager U B β}

variable {m' : Manager U B β}

/-- It depends on the objectives and the variables made for them only. -/
theorem OwnVariables.congr (h : m.OwnVariables int) (ho : m'.mObjectives = m.mObjectives)
    (hi : m'.mReusableIntObjectiveVars = m.mReusableIntObjectiveVars)
    (hr : m'.mReusableRealObjectiveVars = m.mReusableRealObjectiveVars)
    (hn : m'.freshVariables = m.freshVariables) : m'.OwnVariables int := by
  have hv : m'.objectiveVars = m.objectiveVars := by rw [objectiveVars, ho, hi, hr, objectiveVars]
  exact ⟨ho ▸ h.user, hv ▸ h.nodup, fun x hx => hn ▸ h.fresh x (hv ▸ hx), ho ▸ h.typed, hi ▸ h.reusableInt,
    hr ▸ h.reusableReal⟩

theorem OwnVariables.push (h : m.OwnVariables int) : m.push.OwnVariables int :=
  h.congr rfl rfl rfl rfl

theorem OwnVariables.addObjective (h : m.OwnVariables int) {p : Poly (SolverVariable U) ℚ}
    (hp : UserPoly p) (b : Bool) : (m.addObjective int p b).OwnVariables int := by
  -- the new variable is not among the old ones, or it is taken from one of the stacks
  have hnew : ∀ i : Bool, SolverVariable.fresh m.freshVariables i ∉ m.objectiveVars := by
    intro i hi
    obtain ⟨n, b, hn, hlt⟩ := h.fresh _ hi
    rw [(SolverVariable.fresh.inj hn).1] at hlt
    exact absurd hlt (lt_irrefl n)
  have huser : ∀ x : SolverVariable U, ∀ o ∈ m.mObjectives ++ [⟨p, x, b⟩], UserPoly o.function := by
    intro x o ho
    rcases mem_append.mp ho with ho | ho
    · exact h.user o ho
    · rw [mem_singleton.mp ho]
      exact hp
  have hint : ∀ x : SolverVariable U, isInt int x = integerValued int p →
      ∀ o ∈ m.mObjectives ++ [⟨p, x, b⟩], isInt int o.objVar = integerValued int o.function := by
    intro x hx o ho
    rcases mem_append.mp ho with ho | ho
    · exact h.typed o ho
    · rw [mem_singleton.mp ho]
      exact hx
  have hfresh : ∀ i : Bool, isInt int (.fresh m.freshVariables i : SolverVariable U)
      = integerValued int p →
      ({ m with
        mObjectives := m.mObjectives ++ [⟨p, .fresh m.freshVariables i, b⟩]
        freshVariables := m.freshVariables + 1 } : Manager U B β).OwnVariables int := by
    intro i hi
    have hperm : List.Perm (objectiveVars ({ m with
        mObjectives := m.mObjectives ++ [⟨p, .fresh m.freshVariables i, b⟩]
        freshVariables := m.freshVariables + 1 } : Manager U B β))
        (.fresh m.freshVariables i :: m.objectiveVars) := by
      simp only [objectiveVars, map_append, map_cons, map_nil, append_assoc, singleton_append]
      exact perm_middle
    refine ⟨huser _, hperm.nodup_iff.mpr (nodup_cons.mpr ⟨hnew i, h.nodup⟩), fun x hx => ?_,
      hint _ hi, h.reusableInt, h.reusableReal⟩
    rcases mem_cons.mp (hperm.mem_iff.mp hx) with rfl | hx
    · exact ⟨_, _, rfl, Nat.lt_succ_self _⟩
    · obtain ⟨n, b, hn, hlt⟩ := h.fresh x hx
      exact ⟨n, b, hn, Nat.lt_succ_of_lt hlt⟩
  rw [Manager.addObjective]
  split_ifs with hi
  · split
    case h_1 => exact hfresh true hi.symm
    case h_2 x xs hxs =>
      have hx : isInt int x = true := h.reusableInt x (hxs ▸ mem_cons_self)
      have hperm : List.Perm (objectiveVars ({ m with
          mObjectives := m.mObjectives ++ [⟨p, x, b⟩]
          mReusableIntObjectiveVars := xs } : Manager U B β)) m.objectiveVars := by
        simp [objectiveVars, hxs]
      exact ⟨huser x, hperm.nodup_iff.mpr h.nodup, fun y hy => h.fresh y (hperm.mem_iff.mp hy),
        hint x (hx.trans hi.symm), fun y hy => h.reusableInt y (hxs ▸ mem_cons_of_mem x hy),
        h.reusableReal⟩
  · rw [Bool.not_eq_true] at hi
    split
    case h_1 => exact hfresh false hi.symm
    case h_2 x xs hxs =>
      have hx : isInt int x = false := h.reusableReal x (hxs ▸ mem_cons_self)
      have hperm : List.Perm (objectiveVars ({ m with
          mObjectives := m.mObjectives ++ [⟨p, x, b⟩]
          mReusableRealObjectiveVars := xs } : Manager U B β)) m.objectiveVars := by
        simp only [objectiveVars, hxs, map_append, map_cons, map_nil,
          append_assoc, singleton_append]
        exact List.Perm.append_left _ perm_middle.symm
      exact ⟨huser x, hperm.nodup_iff.mpr h.nodup, fun y hy => h.fresh y (hperm.mem_iff.mp hy),
        hint x (hx.trans hi.symm), h.reusableInt,
        fun y hy => h.reusableReal y (hxs ▸ mem_cons_of_mem x hy)⟩

theorem OwnVariables.removeObjective [DecidableEq U] (h : m.OwnVariables int)
    (p : Poly (SolverVariable U) ℚ) : (m.removeObjective p).OwnVariables int := by
  have hsub : List.Sublist (m.removeObjective p).mObjectives m.mObjectives := by
    have := (eraseP_sublist (p := fun o : Objective U => o.function = p)
      (l := m.mObjectives.reverse)).reverse
    rwa [reverse_reverse] at this
  have hvars : List.Sublist (m.removeObjective p).objectiveVars m.objectiveVars :=
    ((hsub.map _).append_right _).append_right _
  exact ⟨fun o ho => h.user o (hsub.subset ho), h.nodup.sublist hvars,
    fun x hx => h.fresh x (hvars.subset hx), fun o ho => h.typed o (hsub.subset ho),
    h.reusableInt, h.reusableReal⟩

/-- The variable of the last objective is put back. -/
theorem OwnVariables.reuse (h : m.OwnVariables int) {os : List (Objective U)} {o : Objective U}
    (hos : m.mObjectives = os ++ [o]) :
    ({ reuse int m o.objVar with mObjectives := os } : Manager U B β).OwnVariables int := by
  have huser : ∀ o' ∈ os, UserPoly o'.function := fun o' ho' =>
    h.user o' (hos ▸ mem_append_left _ ho')
  have htyp : ∀ o' ∈ os, isInt int o'.objVar = integerValued int o'.function := fun o' ho' =>
    h.typed o' (hos ▸ mem_append_left _ ho')
  rw [Manager.reuse]
  split_ifs with hi
  · have hperm : List.Perm (objectiveVars ({ m with
        mObjectives := os
        mReusableIntObjectiveVars := o.objVar :: m.mReusableIntObjectiveVars } : Manager U B β))
        m.objectiveVars := by
      simp [objectiveVars, hos]
    refine ⟨huser, hperm.nodup_iff.mpr h.nodup, fun x hx => h.fresh x (hperm.mem_iff.mp hx), htyp,
      fun x hx => ?_, h.reusableReal⟩
    rcases mem_cons.mp hx with rfl | hx
    · exact hi
    · exact h.reusableInt x hx
  · have hperm : List.Perm (objectiveVars ({ m with
        mObjectives := os
        mReusableRealObjectiveVars := o.objVar :: m.mReusableRealObjectiveVars } : Manager U B β))
        m.objectiveVars := by
      simp only [objectiveVars, hos, map_append, map_cons, map_nil, append_assoc, singleton_append]
      exact List.Perm.append_left _ perm_middle
    refine ⟨huser, hperm.nodup_iff.mpr h.nodup, fun x hx => h.fresh x (hperm.mem_iff.mp hx), htyp,
      h.reusableInt, fun x hx => ?_⟩
    rcases mem_cons.mp hx with rfl | hx
    · exact Bool.not_eq_true _ ▸ hi
    · exact h.reusableReal x hx

theorem OwnVariables.popObjectives (h : m.OwnVariables int) (mark pos : Int) (n : Nat) :
    (popObjectives int mark n pos m).OwnVariables int := by
  induction n generalizing m pos with
  | zero => exact h
  | succ n ih =>
    rcases eq_nil_or_concat' m.mObjectives with hnil | ⟨os, o, hos⟩
    · rw [Manager.popObjectives, hnil]
      exact h
    · have hlast : m.mObjectives.getLast? = some o := by rw [hos, getLast?_concat]
      rw [popObjectives_last int hlast]
      split_ifs
      · exact h
      · rw [hos, dropLast_concat]
        exact ih (h.reuse hos) _

section Steps

variable [DecidableEq U] [DecidableEq B] (bk : Backend U B β)

theorem OwnVariables.remove (h : m.OwnVariables int) (it : Nat) :
    (m.remove bk it).OwnVariables int := by
  rw [Manager.remove]
  split
  · exact h
  · exact h.congr rfl rfl rfl rfl

theorem OwnVariables.popFormulas (h : m.OwnVariables int) (point : Option Nat) (n : Nat) :
    (popFormulas bk point n m).OwnVariables int := by
  induction n generalizing m with
  | zero => exact h
  | succ n ih =>
    rw [Manager.popFormulas]
    split
    · exact h
    · split_ifs
      · exact h
      · exact ih (h.remove bk _)

theorem OwnVariables.pop (h : m.OwnVariables int) : (m.pop bk int).2.OwnVariables int := by
  rw [Manager.pop]
  split
  · exact h
  · exact ((h.popFormulas bk _ _).popObjectives _ _ _).congr rfl rfl rfl rfl

theorem OwnVariables.popLevels (h : m.OwnVariables int) (n : Nat) :
    (m.popLevels bk int n).OwnVariables int := by
  induction n generalizing m with
  | zero => exact h
  | succ n ih =>
    have hpop := h.pop bk
    rw [Manager.popLevels]
    split
    case h_1 m' hm' =>
      rw [hm'] at hpop
      exact ih hpop
    case h_2 m' hm' =>
      rw [hm'] at hpop
      exact hpop

theorem OwnVariables.add (h : m.OwnVariables int) (f : Formula (Atom (SolverVariable U) B))
    (b : Bool) : (m.add bk f b).2.OwnVariables int := by
  rw [Manager.add]
  cases b <;> dsimp only [if_true, withBackend] <;> split <;> exact h.congr rfl rfl rfl rfl

omit [DecidableEq B] in
theorem OwnVariables.updateModel (h : m.OwnVariables int) :
    (m.updateModel bk).OwnVariables int := by
  rw [Manager.updateModel]
  split_ifs
  · exact h
  · exact h.congr rfl rfl rfl rfl

variable (pool : ConstraintPool (SolverVariable U) B) (full : Bool)

theorem OwnVariables.checkObjective (h : m.OwnVariables int) (o : Objective U) :
    (checkObjective bk pool full o m).2.OwnVariables int :=
  (h.push.add bk (objectiveEquation pool o) true).congr rfl rfl rfl rfl

theorem OwnVariables.checkObjectives {rest : List (Objective U)} {answer : Answer}
    (h : m.OwnVariables int)
    (hc : checkObjectives bk pool int full rest m = some (answer, m')) : m'.OwnVariables int := by
  induction rest generalizing m with
  | nil => cases hc
  | cons o rest ih =>
    have hchk := h.checkObjective bk pool full o
    simp only [Manager.checkObjectives] at hc
    split_ifs at hc
    · cases hc
      exact hchk.popLevels bk 2
    · split at hc
      case h_1 =>
        cases hc
        exact (hchk.updateModel bk).popLevels bk 2
      case h_2 next rest =>
        split at hc
        case h_1 r hr => exact ih (((hchk.updateModel bk).pop bk).add bk _ true) hc
        case h_2 => cases hc

theorem OwnVariables.check {answer : Answer} (h : m.OwnVariables int)
    (hc : m.check bk pool int full = some (answer, m')) : m'.OwnVariables int := by
  rw [Manager.check] at hc
  split at hc
  case h_1 =>
    cases hc
    exact h.congr rfl rfl rfl rfl
  case h_2 =>
    exact OwnVariables.checkObjectives bk pool full h.push hc

end Steps

/-! ## Reachable states -/

theorem atoms_conjuncts {A : Type*} {f g : Formula A} (hg : g ∈ ModuleInput.conjuncts f) :
    ∀ a ∈ g.atoms, a ∈ f.atoms := by
  induction f using Formula.induction with
  | hconst b =>
    have hg : g = .const b := mem_singleton.mp hg
    rw [hg]
    exact fun _ h => h
  | hatom a =>
    have hg : g = .atom a := mem_singleton.mp hg
    rw [hg]
    exact fun _ h => h
  | happ c fs ih =>
    cases c with
    | and =>
      rw [ModuleInput.conjuncts] at hg
      rw [Formula.atoms]
      induction fs with
      | nil => cases hg
      | cons f fs ihl =>
        rw [ModuleInput.conjunctsAll, mem_append] at hg
        intro a ha
        rw [Formula.atomsAll, mem_append]
        rcases hg with hg | hg
        · exact Or.inl (ih f mem_cons_self hg a ha)
        · exact Or.inr (ihl (fun g hg => ih g (mem_cons_of_mem f hg)) hg a ha)
    | _ =>
      rw [ModuleInput.conjuncts, mem_singleton] at hg
      · rw [hg]
        exact fun _ h => h
      · simp

theorem UserFormula.conjunct {f g : Formula (Atom (SolverVariable U) B)} (hf : UserFormula f)
    (hg : g ∈ ModuleInput.conjuncts f) : UserFormula g := by
  intro x hx
  obtain ⟨a, ha, hxa⟩ := mem_flatMap.mp hx
  exact hf x (mem_flatMap.mpr ⟨a, atoms_conjuncts hg a ha, hxa⟩)

/-- What holds between the calls of a user. -/
structure Ready (int : U → Bool) (m : Manager U B β) : Prop where
  wellFormed : m.mpPassedFormula.WellFormed
  ownVariables : m.OwnVariables int
  user : ∀ f ∈ m.received, UserFormula f

theorem initial_ready (s : β) : (initial s : Manager U B β).Ready int :=
  ⟨ModuleInput.empty_wellFormed, ⟨nofun, nodup_nil, nofun, nofun, nofun, nofun⟩, nofun⟩

theorem Restored.received {es : List (FormulaWithOrigins (Atom (SolverVariable U) B))}
    {os : List (Objective U)} {points : List (Option Nat × Int)} (h : m.Restored es os points) :
    m.received = es.map (·.mFormula) := by
  rw [Manager.received, ModuleInput.formulas, h.elements]

/-- The input does not mention variables that were made for objectives. -/
def Action.IsUser : Action U B → Prop
  | .add f _ => UserFormula f
  | .addObjective p _ => UserPoly p
  | _ => True

section Reachable

variable [DecidableEq U] [DecidableEq B] (bk : Backend U B β) (pool : ConstraintPool (SolverVariable U) B)

theorem received_remove (it : Nat) : ∀ f ∈ (m.remove bk it).received, f ∈ m.received := by
  intro f hf
  rw [remove] at hf
  split at hf
  · exact hf
  case h_2 e he =>
    obtain ⟨e', he', rfl⟩ := mem_map.mp hf
    dsimp only at he'
    rw [ModuleInput.erase, he] at he'
    exact mem_map_of_mem (mem_of_mem_filter he')

theorem received_popFormulas (point : Option Nat) (n : Nat) :
    ∀ f ∈ (popFormulas bk point n m).received, f ∈ m.received := by
  induction n generalizing m with
  | zero => exact fun f hf => hf
  | succ n ih =>
    intro f hf
    rw [popFormulas] at hf
    split at hf
    · exact hf
    · split_ifs at hf
      · exact hf
      · exact received_remove bk _ f (ih f hf)

theorem received_pop : ∀ f ∈ (m.pop bk int).2.received, f ∈ m.received := by
  intro f hf
  rw [pop] at hf
  split at hf
  · exact hf
  · rw [received, popObjectives_passed] at hf
    exact received_popFormulas bk _ _ f hf

theorem received_add (hm : m.mpPassedFormula.WellFormed) (f : Formula (Atom (SolverVariable U) B))
    (b : Bool) (g : Formula (Atom (SolverVariable U) B)) :
    g ∈ (m.add bk f b).2.received ↔ g ∈ m.received ∨ g ∈ ModuleInput.conjuncts f := by
  rw [received, (add_passed bk m f b).1]
  exact (ModuleInput.add_shared_none hm f true).2.2 g

theorem Ready.step {a : Action U B} (h : m.Ready int) (ha : a.IsUser)
    (hs : step bk int pool m a = some m') : m'.Ready int := by
  have hwf := step_wellFormed bk int pool m a m' h.wellFormed hs
  cases a with
  | add f b =>
    cases hs
    refine ⟨hwf, h.ownVariables.add bk f b, fun g hg => ?_⟩
    rcases (received_add bk h.wellFormed f b g).mp hg with hg | hg
    · exact h.user g hg
    · exact UserFormula.conjunct ha hg
  | push =>
    cases hs
    exact ⟨hwf, h.ownVariables.congr rfl rfl rfl rfl, h.user⟩
  | pop =>
    cases hs
    exact ⟨hwf, h.ownVariables.pop bk, fun f hf => h.user f (received_pop bk f hf)⟩
  | addObjective p b =>
    cases hs
    have hp : (m.addObjective int p b).mpPassedFormula = m.mpPassedFormula := by
      rw [addObjective]
      split_ifs <;> split <;> rfl
    refine ⟨hwf, h.ownVariables.addObjective ha b, ?_⟩
    rw [received, hp]
    exact h.user
  | removeObjective p =>
    cases hs
    exact ⟨hwf, h.ownVariables.removeObjective p, h.user⟩
  | remove it =>
    rw [Manager.step, Option.ite_none_right_eq_some] at hs
    obtain ⟨-, hs⟩ := hs
    cases hs
    exact ⟨hwf, h.ownVariables.remove bk it, fun f hf => h.user f (received_remove bk it f hf)⟩
  | check full =>
    obtain ⟨⟨answer, m₁⟩, hc, rfl⟩ := Option.map_eq_some_iff.mp hs
    refine ⟨hwf, h.ownVariables.check bk pool full hc, ?_⟩
    rw [(check_restored bk int pool full h.wellFormed hc).received]
    exact h.user

theorem Ready.run {as : List (Action U B)} (h : m.Ready int) (has : ∀ a ∈ as, a.IsUser)
    (hr : Run.run (Manager.step bk int pool) m as = some m') :
    m'.Ready int := by
  induction as generalizing m with
  | nil =>
    cases hr
    exact h
  | cons a as ih =>
    obtain ⟨m₁, h₁, hr⟩ := Run.run_cons.mp hr
    exact ih (h.step bk pool (has a mem_cons_self) h₁) (fun a ha => has a (mem_cons_of_mem _ ha)) hr

end Reachable

end Manager

end Smtrat
