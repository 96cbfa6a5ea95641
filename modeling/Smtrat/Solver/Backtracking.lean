import Smtrat.Modules.OriginBookkeeping
import Smtrat.Solver.Manager

/-!
# Backtracking

What is asserted and which objectives there are only grows at its end between a push and the
matching pop, apart from what is removed explicitly.  The pop then finds the last formula and the
last objective to keep, as long as these have not been removed themselves.
-/

namespace Smtrat

open PropFormula SparsePoly List

universe u v w

/-! ## Additions without origins -/

namespace ModuleInput

variable {A : Type u} [DecidableEq A]

theorem addElement_shared_none (f : Formula A) (m : ModuleInput A) :
    (addElement (.shared none) f m).2 = if m.contains f then m else m.emplaceBack f none := by
  cases h : m.find f with
  | none =>
    have hc : m.contains f = false := by rw [contains, show m.mFormulaPositionMap f = none from h]; rfl
    rw [addElement_shared_of_none h, hc]
    rfl
  | some it =>
    have hc : m.contains f = true := by
      rw [contains, show m.mFormulaPositionMap f = some it from h]; rfl
    rw [hc]
    simp only [addElement, h, if_true]

variable {m : ModuleInput A}

/-- Formulas are added at the end of the list, once. -/
theorem addElements_shared_none (hm : m.WellFormed) (fs : List (Formula A)) :
    (addElements (.shared none) fs m).WellFormed ∧
      (∃ new, (addElements (.shared none) fs m).elements = m.elements ++ new) ∧
      ∀ g, g ∈ (addElements (.shared none) fs m).formulas ↔ g ∈ m.formulas ∨ g ∈ fs := by
  induction fs generalizing m with
  | nil => exact ⟨hm, ⟨[], (append_nil _).symm⟩, fun g => by simp [addElements]⟩
  | cons f fs ih =>
    have hcons : addElements (.shared none) (f :: fs) m
        = addElements (.shared none) fs (addElement (.shared none) f m).2 := rfl
    rw [hcons, addElement_shared_none]
    split_ifs with hf
    · obtain ⟨hwf, hnew, hmem⟩ := ih hm
      refine ⟨hwf, hnew, fun g => (hmem g).trans ?_⟩
      have hf : f ∈ m.formulas := by
        obtain ⟨e, he, rfl⟩ := hm.contains_iff.mp hf
        exact mem_map_of_mem he
      rw [mem_cons]
      constructor
      · exact fun h => h.imp_right Or.inr
      · rintro (h | rfl | h)
        · exact Or.inl h
        · exact Or.inl hf
        · exact Or.inr h
    · have hnone : m.find f = none := by
        rw [contains, Option.isSome_iff_ne_none, ne_eq, not_not] at hf
        exact hf
      obtain ⟨hwf, ⟨new, hnew⟩, hmem⟩ := ih (hm.emplaceBack hnone none)
      refine ⟨hwf, ⟨⟨m.nextPosition, f, none⟩ :: new, ?_⟩, fun g => (hmem g).trans ?_⟩
      · rw [hnew, emplaceBack, append_assoc, singleton_append]
      · have hnew : g ∈ (m.emplaceBack f none).formulas ↔ g ∈ m.formulas ∨ g = f := by
          simp [formulas, emplaceBack, eq_comm]
        rw [hnew, mem_cons, or_assoc]

theorem add_shared_none (hm : m.WellFormed) (f : Formula A) (b : Bool) :
    (add (.shared none) f b m).2.WellFormed ∧
      (∃ new, (add (.shared none) f b m).2.elements = m.elements ++ new) ∧
      ∀ g, g ∈ (add (.shared none) f b m).2.formulas ↔ g ∈ m.formulas ∨ g ∈ parts f b := by
  rw [add_snd]
  exact addElements_shared_none hm _

theorem WellFormed.elements_erase (hm : m.WellFormed)
    {e : FormulaWithOrigins A} (he : e ∈ m.elements) :
    (m.erase e.position).elements = m.elements.filter (·.position ≠ e.position) := by
  rw [ModuleInput.erase, hm.element_eq he]

/-- Erasing the last element. -/
theorem WellFormed.elements_erase_last (hm : m.WellFormed)
    {es : List (FormulaWithOrigins A)} {e : FormulaWithOrigins A} (h : m.elements = es ++ [e]) :
    (m.erase e.position).elements = es := by
  have he : e ∈ m.elements := by
    rw [h]
    exact mem_append_right _ (mem_singleton_self e)
  have hnodup := hm.positions_nodup
  rw [h, map_append, nodup_append] at hnodup
  rw [hm.elements_erase he, h, filter_append]
  have hes : es.filter (·.position ≠ e.position) = es := by
    refine filter_eq_self.mpr fun e' he' => decide_eq_true ?_
    exact hnodup.2.2 _ (mem_map_of_mem he') _ (mem_singleton_self _)
  rw [hes]
  simp

end ModuleInput

namespace Manager

variable {U : Type u} {B : Type v} {β : Type w}

/-! ## Pops -/

/-- The position a push refers to when `es` is asserted. -/
def lastPosition (es : List (FormulaWithOrigins (Atom (SolverVariable U) B))) : Option Nat :=
  es.getLast?.map (·.position)

/-- The formulas and what the backend keeps have changed. -/
def withFormulas (m : Manager U B β) (p : ModuleInput (Atom (SolverVariable U) B)) (s : β) :
    Manager U B β :=
  { m.withBackend s with mpPassedFormula := p }

/-- The objectives and the variables to reuse have changed. -/
def withObjectives (m : Manager U B β) (os : List (Objective U)) (r i : List (SolverVariable U)) :
    Manager U B β :=
  { m with
    mObjectives := os
    mReusableRealObjectiveVars := r
    mReusableIntObjectiveVars := i }

section Pop

variable [DecidableEq U] [DecidableEq B] (bk : Backend U B β) (int : U → Bool)

theorem remove_eq {m : Manager U B β} (hm : m.mpPassedFormula.WellFormed)
    {e : FormulaWithOrigins (Atom (SolverVariable U) B)} (he : e ∈ m.mpPassedFormula.elements) :
    m.remove bk e.position = m.withFormulas (m.mpPassedFormula.erase e.position)
      (bk.remove e.mFormula m.mpPrimaryBackend.state) := by
  rw [remove, hm.element_eq he]
  rfl

theorem popFormulas_last {m : Manager U B β} {e : FormulaWithOrigins (Atom (SolverVariable U) B)}
    (he : m.mpPassedFormula.elements.getLast? = some e) (point : Option Nat) (n : Nat) :
    popFormulas bk point (n + 1) m
      = if some e.position = point then m else popFormulas bk point n (m.remove bk e.position) := by
  rw [popFormulas, he]

theorem popFormulas_spec {m : Manager U B β} (hm : m.mpPassedFormula.WellFormed)
    {es above : List (FormulaWithOrigins (Atom (SolverVariable U) B))}
    (hes : m.mpPassedFormula.elements = es ++ above) {n : Nat} (hn : above.length ≤ n) :
    ∃ p s, popFormulas bk (lastPosition es) n m = m.withFormulas p s ∧
      p.WellFormed ∧ p.elements = es := by
  induction n generalizing m above with
  | zero =>
    obtain rfl := length_eq_zero_iff.mp (Nat.le_zero.mp hn)
    exact ⟨_, m.mpPrimaryBackend.state, rfl, hm, by rw [hes, append_nil]⟩
  | succ n ih =>
    rcases eq_nil_or_concat' above with rfl | ⟨above, e, rfl⟩
    · rw [append_nil] at hes
      refine ⟨m.mpPassedFormula, m.mpPrimaryBackend.state, ?_, hm, hes⟩
      cases h : es.getLast? with
      | none =>
        rw [popFormulas, hes, h]
        rfl
      | some e =>
        rw [popFormulas_last bk (hes ▸ h), lastPosition, h, Option.map_some, if_pos rfl]
        rfl
    · rw [← append_assoc] at hes
      have he : e ∈ m.mpPassedFormula.elements := by
        rw [hes]
        exact mem_append_right _ (mem_singleton_self e)
      have hne : some e.position ≠ lastPosition es := by
        intro h
        obtain ⟨e', he', hp⟩ := Option.map_eq_some_iff.mp h.symm
        have hmem : e' ∈ es := mem_of_getLast? he'
        have hnodup := hm.positions_nodup
        rw [hes, map_append, nodup_append] at hnodup
        exact hnodup.2.2 _ (mem_map_of_mem (mem_append_left _ hmem)) _ (mem_singleton_self _) hp
      have hlast : m.mpPassedFormula.elements.getLast? = some e := by
        rw [hes, getLast?_concat]
      have hlen : above.length ≤ n := by
        rw [length_append] at hn
        exact Nat.le_of_succ_le_succ hn
      rw [popFormulas_last bk hlast, if_neg hne, remove_eq bk hm he]
      exact ih (hm.erase he rfl) (hm.elements_erase_last hes) hlen

omit [DecidableEq U] [DecidableEq B] in
theorem popObjectives_last {m : Manager U B β} {o : Objective U}
    (ho : m.mObjectives.getLast? = some o) (mark pos : Int) (n : Nat) :
    popObjectives int mark (n + 1) pos m = if pos - 1 = mark then m else
      popObjectives int mark n (pos - 1)
        { reuse int m o.objVar with mObjectives := m.mObjectives.dropLast } := by
  rw [popObjectives, ho]

omit [DecidableEq U] [DecidableEq B] in
theorem popObjectives_spec {m : Manager U B β} {os above : List (Objective U)}
    (hos : m.mObjectives = os ++ above) {n : Nat} (hn : above.length ≤ n) :
    ∃ r i, popObjectives int ((os.length : Int) - 1) n m.mObjectives.length m
      = m.withObjectives os r i := by
  induction n generalizing m above with
  | zero =>
    obtain rfl := length_eq_zero_iff.mp (Nat.le_zero.mp hn)
    rw [append_nil] at hos
    refine ⟨m.mReusableRealObjectiveVars, m.mReusableIntObjectiveVars, ?_⟩
    rw [popObjectives, withObjectives, ← hos]
  | succ n ih =>
    rcases eq_nil_or_concat' above with rfl | ⟨above, o, rfl⟩
    · rw [append_nil] at hos
      refine ⟨m.mReusableRealObjectiveVars, m.mReusableIntObjectiveVars, ?_⟩
      cases h : m.mObjectives.getLast? with
      | none => rw [popObjectives, h, withObjectives, ← hos]
      | some o => rw [popObjectives_last int h, if_pos (by rw [hos]), withObjectives, ← hos]
    · rw [← append_assoc] at hos
      have hlast : m.mObjectives.getLast? = some o := by rw [hos, getLast?_concat]
      have hdrop : m.mObjectives.dropLast = os ++ above := by rw [hos, dropLast_concat]
      have hlen : m.mObjectives.length = (os ++ above).length + 1 := by
        rw [hos, length_append, length_singleton]
      have hne : (m.mObjectives.length : Int) - 1 ≠ (os.length : Int) - 1 := by
        rw [hlen, length_append]
        omega
      have hpos : (m.mObjectives.length : Int) - 1 = ((os ++ above).length : Int) := by
        rw [hlen]
        omega
      have habove : above.length ≤ n := by
        rw [length_append] at hn
        exact Nat.le_of_succ_le_succ hn
      rw [popObjectives_last int hlast, if_neg hne, hpos, hdrop]
      obtain ⟨r, i, hpop⟩ :=
        ih (m := { reuse int m o.objVar with mObjectives := os ++ above }) rfl habove
      refine ⟨r, i, hpop.trans ?_⟩
      rw [reuse]
      split_ifs <;> rfl

/-- A pop returns to a point that refers to the last formula and the last objective to keep. -/
theorem pop_spec {m : Manager U B β} (hm : m.mpPassedFormula.WellFormed)
    {es above : List (FormulaWithOrigins (Atom (SolverVariable U) B))}
    (hes : m.mpPassedFormula.elements = es ++ above) {os aboveObj : List (Objective U)}
    (hos : m.mObjectives = os ++ aboveObj) {points : List (Option Nat × Int)}
    (hpts : m.mBacktrackPoints = (lastPosition es, (os.length : Int) - 1) :: points) :
    ∃ p s r i, m.pop bk int = (true, { (m.withFormulas p s).withObjectives os r i with
        mBacktrackPoints := points
        mNumberOfPops := m.mNumberOfPops + 1 }) ∧ p.WellFormed ∧ p.elements = es := by
  have hn : above.length ≤ m.mpPassedFormula.elements.length := by
    rw [hes, length_append]
    omega
  obtain ⟨p, s, hpop, hwf, hp⟩ := popFormulas_spec bk hm hes hn
  have hos' : (m.withFormulas p s).mObjectives = os ++ aboveObj := hos
  have hn' : aboveObj.length ≤ (m.withFormulas p s).mObjectives.length := by
    rw [hos', length_append]
    omega
  obtain ⟨r, i, hpopO⟩ := popObjectives_spec int hos' hn'
  refine ⟨p, s, r, i, ?_, hwf, hp⟩
  rw [pop, hpts]
  simp only [hpop, hpopO]
  rfl

end Pop

/-! ## Levels

Above a backtrack point there are formulas and objectives that a pop removes. -/

/-- The formulas `es` and the objectives `os` are what the last backtrack point keeps. -/
structure Based (es : List (FormulaWithOrigins (Atom (SolverVariable U) B)))
    (os : List (Objective U)) (points : List (Option Nat × Int)) (m : Manager U B β) : Prop where
  wellFormed : m.mpPassedFormula.WellFormed
  points : m.mBacktrackPoints = (lastPosition es, (os.length : Int) - 1) :: points
  elements : ∃ above, m.mpPassedFormula.elements = es ++ above
  objectives : ∃ above, m.mObjectives = os ++ above

/-- Exactly the formulas `es` and the objectives `os` are there. -/
structure Restored (es : List (FormulaWithOrigins (Atom (SolverVariable U) B)))
    (os : List (Objective U)) (points : List (Option Nat × Int)) (m : Manager U B β) : Prop where
  wellFormed : m.mpPassedFormula.WellFormed
  points : m.mBacktrackPoints = points
  elements : m.mpPassedFormula.elements = es
  objectives : m.mObjectives = os

theorem Restored.refl {m : Manager U B β} (hm : m.mpPassedFormula.WellFormed) :
    m.Restored m.mpPassedFormula.elements m.mObjectives m.mBacktrackPoints :=
  ⟨hm, rfl, rfl, rfl⟩

variable {es : List (FormulaWithOrigins (Atom (SolverVariable U) B))} {os : List (Objective U)}
  {points : List (Option Nat × Int)} {m : Manager U B β}

theorem Restored.push (h : m.Restored es os points) : m.push.Based es os points where
  wellFormed := h.wellFormed
  points := by rw [Manager.push, h.elements, h.objectives, h.points]; rfl
  elements := ⟨[], by rw [append_nil]; exact h.elements⟩
  objectives := ⟨[], by rw [append_nil]; exact h.objectives⟩

variable {m' : Manager U B β}

/-- What a level consists of does not depend on what the backend keeps. -/
theorem Based.congr (h : m.Based es os points) (hp : m'.mpPassedFormula = m.mpPassedFormula)
    (hb : m'.mBacktrackPoints = m.mBacktrackPoints) (ho : m'.mObjectives = m.mObjectives) :
    m'.Based es os points :=
  ⟨hp ▸ h.wellFormed, hb ▸ h.points, hp ▸ h.elements, ho ▸ h.objectives⟩

/-- Where a level is restored, so is the level below it. -/
theorem Restored.based
    (h' : m'.Restored m.mpPassedFormula.elements m.mObjectives m.mBacktrackPoints)
    (h : m.Based es os points) : m'.Based es os points :=
  ⟨h'.wellFormed, h'.points ▸ h.points, h'.elements ▸ h.elements, h'.objectives ▸ h.objectives⟩

section Steps

variable [DecidableEq U] [DecidableEq B] (bk : Backend U B β) (int : U → Bool)

theorem Based.pop (h : m.Based es os points) : (m.pop bk int).2.Restored es os points := by
  obtain ⟨above, hes⟩ := h.elements
  obtain ⟨aboveObj, hos⟩ := h.objectives
  obtain ⟨p, s, r, i, hpop, hwf, hp⟩ := pop_spec bk int h.wellFormed hes hos h.points
  rw [hpop]
  exact ⟨hwf, rfl, hp, rfl⟩

theorem Based.pop_fst (h : m.Based es os points) : (m.pop bk int).1 = true := by
  rw [Manager.pop, h.points]

/-- What an addition does to the list of formulas. -/
theorem add_passed (m : Manager U B β) (f : Formula (Atom (SolverVariable U) B)) (b : Bool) :
    (m.add bk f b).2.mpPassedFormula = (ModuleInput.add (.shared none) f true m.mpPassedFormula).2 ∧
      (m.add bk f b).2.mBacktrackPoints = m.mBacktrackPoints ∧
      (m.add bk f b).2.mObjectives = m.mObjectives := by
  rw [Manager.add]
  cases b <;> dsimp only [if_true, withBackend] <;> split <;> exact ⟨by simp_all, rfl, rfl⟩

theorem Based.add (h : m.Based es os points) (f : Formula (Atom (SolverVariable U) B)) (b : Bool) :
    (m.add bk f b).2.Based es os points := by
  obtain ⟨hp, hb, ho⟩ := add_passed bk m f b
  obtain ⟨hwf, ⟨new, hnew⟩, -⟩ := ModuleInput.add_shared_none h.wellFormed f true
  obtain ⟨above, hes⟩ := h.elements
  refine ⟨hp ▸ hwf, hb ▸ h.points, ⟨above ++ new, ?_⟩, ho ▸ h.objectives⟩
  rw [hp, hnew, hes, append_assoc]

theorem Based.popLevels_two_eq (h : m.Based es os points)
    (h' : m'.Based m.mpPassedFormula.elements m.mObjectives m.mBacktrackPoints) :
    m'.popLevels bk int 2 = ((m'.pop bk int).2.pop bk int).2 := by
  have hpop := (h'.pop bk int).based h
  have h₁ : m'.popLevels bk int 2 = (m'.pop bk int).2.popLevels bk int 1 := by
    rw [popLevels, ← Prod.mk.eta (p := m'.pop bk int), h'.pop_fst bk int]
  have h₂ : (m'.pop bk int).2.popLevels bk int 1 = ((m'.pop bk int).2.pop bk int).2 := by
    rw [popLevels, ← Prod.mk.eta (p := (m'.pop bk int).2.pop bk int), hpop.pop_fst bk int]
    rfl
  rw [h₁, h₂]

theorem Based.popLevels_two (h : m.Based es os points)
    (h' : m'.Based m.mpPassedFormula.elements m.mObjectives m.mBacktrackPoints) :
    (m'.popLevels bk int 2).Restored es os points := by
  rw [h.popLevels_two_eq bk int h']
  exact ((h'.pop bk int).based h).pop bk int

/-- A pop does not touch the model. -/
theorem Based.pop_model (h : m.Based es os points) :
    (m.pop bk int).2.mpPrimaryBackend.mModel = m.mpPrimaryBackend.mModel ∧
      (m.pop bk int).2.mpPrimaryBackend.mModelComputed = m.mpPrimaryBackend.mModelComputed := by
  obtain ⟨above, hes⟩ := h.elements
  obtain ⟨aboveObj, hos⟩ := h.objectives
  obtain ⟨p, s, r, i, hpop, -, -⟩ := pop_spec bk int h.wellFormed hes hos h.points
  rw [hpop]
  exact ⟨rfl, rfl⟩

/-! ### Checks -/

variable (pool : ConstraintPool (SolverVariable U) B) (full : Bool)

omit [DecidableEq B] in
theorem Based.updateModel (h : m.Based es os points) : (m.updateModel bk).Based es os points := by
  rw [Manager.updateModel]
  split_ifs
  · exact h
  · exact h.congr rfl rfl rfl

/-- The check for an objective takes place in a level of its own. -/
theorem checkObjective_based (hm : m.mpPassedFormula.WellFormed) (o : Objective U) :
    (checkObjective bk pool full o m).2.Based m.mpPassedFormula.elements m.mObjectives
      m.mBacktrackPoints :=
  (((Restored.refl hm).push.add bk (objectiveEquation pool o) true).congr rfl rfl rfl)

theorem checkObjectives_restored {rest : List (Objective U)} {answer : Answer}
    (h : m.Based es os points)
    (hc : checkObjectives bk pool int full rest m = some (answer, m')) :
    m'.Restored es os points := by
  induction rest generalizing m with
  | nil => cases hc
  | cons o rest ih =>
    have hlev := checkObjective_based bk pool full h.wellFormed o
    simp only [checkObjectives] at hc
    split_ifs at hc with hres
    · cases hc
      exact h.popLevels_two bk int hlev
    · split at hc
      case h_1 =>
        cases hc
        exact h.popLevels_two bk int (hlev.updateModel bk)
      case h_2 next rest =>
        split at hc
        case h_1 r hr =>
          have hpop := ((hlev.updateModel bk).pop bk int).based h
          exact ih (hpop.add bk _ true) hc
        case h_2 => cases hc

/-- A check changes neither the formulas nor the backtrack points nor the objectives. -/
theorem check_restored {answer : Answer}
    (hm : m.mpPassedFormula.WellFormed) (hc : m.check bk pool int full = some (answer, m')) :
    m'.Restored m.mpPassedFormula.elements m.mObjectives m.mBacktrackPoints := by
  have hrefl := Restored.refl hm
  rw [check] at hc
  split at hc
  case h_1 =>
    cases hc
    exact ⟨hrefl.wellFormed, hrefl.points, hrefl.elements, hrefl.objectives⟩
  case h_2 => exact checkObjectives_restored bk int pool full hrefl.push hc

end Steps

end Manager

end Smtrat
