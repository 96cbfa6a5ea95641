import Smtrat.Datastructures.VariableBoundsRun

/-!
# The reported conflict

A conflict consists of the first origins of the infimum and of the supremum of the variable that is
remembered.  A removal may forget a conflict, but no variable is remembered without one.
-/

namespace Smtrat.VB

open SparsePoly PropFormula List Option

universe u v w

section Origins

variable {V : Type u} {B : Type v} {T : Type w}

theorem satisfies_literal {f : Formula (Atom V B)} {c : Constraint V} (h : literal f = some c)
    (a : Assignment V B) : a.Satisfies f ↔ c.Sat a.arith := by
  rw [literal.eq_def] at h
  split at h
  · obtain rfl := some.inj h
    exact satisfies_atom a _
  · obtain rfl := some.inj h
    rw [satisfies_app_not, satisfies_atom, Constraint.sat_negation]
    rfl
  · cases h

variable [DecidableEq V] [DecidableEq T]

/-- Of bounds with different origins, only the erased one has its origin. -/
theorem origin_ne_of_mem_eraseBound {o : T} {c : Constraint V} {bounds : List (Constraint V × T)}
    (hnodup : (bounds.map (·.2)).Nodup) (h : ∀ p ∈ bounds, p.2 = o → boundOf p.1 = boundOf c) :
    ∀ p ∈ eraseBound o bounds c, p.2 ≠ o := by
  induction bounds with
  | nil => exact nofun
  | cons q rest ih =>
    obtain ⟨hq, hrest⟩ := forall_mem_cons.mp h
    obtain ⟨hnot, hnodup⟩ := nodup_cons.mp hnodup
    intro p hp
    by_cases hqo : q.2 = o
    · rw [eraseBound, eraseP_cons_of_pos (by simp [hqo, hq hqo])] at hp
      rintro rfl
      exact hnot (List.mem_map.mpr ⟨p, hp, hqo.symm⟩)
    · rw [eraseBound, eraseP_cons_of_neg (by simp [hqo])] at hp
      rcases mem_cons.mp hp with rfl | hp
      · exact hqo
      · exact ih hnodup hrest p hp

end Origins

namespace VariableBounds

variable {V : Type u} {T : Type w} [DecidableEq V]

/-- `getConflict` -/
def getConflict (s : VariableBounds V T) : List T :=
  match s.mpConflictingVariable.bind fun x => s.mpVariableMap.lookup x with
  | none => []
  | some y => (y.mpOrigins y.mpInfimum).head?.toList ++ (y.mpOrigins y.mpSupremum).head?.toList

/-- The variable that is remembered is in conflict. -/
def Genuine (s : VariableBounds V T) : Prop :=
  ∀ x, s.mpConflictingVariable = some x → ∃ y, s.mpVariableMap.lookup x = some y ∧ y.conflicting

theorem initial_genuine : (initial : VariableBounds V T).Genuine := nofun

/-- The origins of a conflict are those of two bounds that contradict each other. -/
theorem Stores.getConflict [LinearOrder T] {s : VariableBounds V T}
    {bounds : List (Constraint V × T)} (h : s.Stores bounds) (hgenuine : s.Genuine)
    (hconf : s.isConflicting) : ∃ p ∈ bounds, ∃ q ∈ bounds, s.getConflict = [p.2, q.2] ∧
      ∀ α : V → ℝ, ¬ (p.1.Sat α ∧ q.1.Sat α) := by
  obtain ⟨x, hx⟩ := isSome_iff_exists.mp hconf
  obtain ⟨y, hy, hcontra⟩ := hgenuine x hx
  have hwf := h.wellFormed x y hy
  have hfin : y.mpInfimum.mpLimit ≠ none ∧ y.mpSupremum.mpLimit ≠ none := by
    rw [Variable.conflicting, Bound.contradict] at hcontra
    split at hcontra
    · next hinf hsup => exact ⟨by rw [hinf]; exact some_ne_none _,
        by rw [hsup]; exact some_ne_none _⟩
    · exact absurd hcontra Bool.false_ne_true
  obtain ⟨p, hp, hphead, hpb⟩ := h.head_origin hy hwf.infimum.active hfin.1
  obtain ⟨q, hq, hqhead, hqb⟩ := h.head_origin hy hwf.supremum.active hfin.2
  refine ⟨p, hp, q, hq, ?_, fun α hsat => ?_⟩
  · rw [VariableBounds.getConflict, hx, bind_some, hy]
    dsimp only
    rw [hphead, hqhead]
    rfl
  · have hlow := ((sat_boundOf hpb α).mp hsat.1).2 (hwf.sets.lower.all _ hwf.infimum.mem).1
    have hup := ((sat_boundOf hqb α).mp hsat.2).1 (hwf.sets.upper.all _ hwf.supremum.mem).1
    exact Bound.contradict_iff.mp hcontra ⟨α x, hlow, hup⟩

/-! ## Additions -/

theorem Genuine.of_mono {s s' : VariableBounds V T} {bounds bounds' : List (Constraint V × T)}
    (h : s.Genuine) (hs : s.Stores bounds) (hs' : s'.Stores bounds')
    (hsub : ∀ p ∈ bounds, p ∈ bounds')
    (hlook : ∀ z y, s.mpVariableMap.lookup z = some y → ∃ y', s'.mpVariableMap.lookup z = some y')
    (hflag : ∀ z, s'.mpConflictingVariable = some z → s.mpConflictingVariable = some z ∨
      ∃ y, s'.mpVariableMap.lookup z = some y ∧ y.conflicting) : s'.Genuine := by
  intro z hz
  rcases hflag z hz with hz | hz
  · obtain ⟨y, hy, hconf⟩ := h z hz
    obtain ⟨y', hy'⟩ := hlook z y hy
    exact ⟨y', hy', conflicting_mono hs hs' hsub hy hy' hconf⟩
  · exact hz

theorem exists_lookup_setVariable {s : VariableBounds V T} {x z : V} {y y₀ : Variable T}
    (h : s.mpVariableMap.lookup z = some y₀) :
    ∃ y', (s.setVariable x y).mpVariableMap.lookup z = some y' := by
  rw [lookup_setVariable]
  split_ifs with hzx
  · exact ⟨y, rfl⟩
  · exact ⟨y₀, h⟩

theorem exists_lookup_touch {s : VariableBounds V T} {x z : V} {y₀ : Variable T}
    (h : s.mpVariableMap.lookup z = some y₀) :
    ∃ y', (s.touch x).mpVariableMap.lookup z = some y' := by
  rw [VariableBounds.touch]
  split_ifs with hx
  · exact ⟨y₀, h⟩
  · exact exists_lookup_setVariable h

theorem flag_updated {s : VariableBounds V T} {x z : V} {y : Variable T}
    (h : (s.updated x y).mpConflictingVariable = some z) : s.mpConflictingVariable = some z ∨
      ∃ y', (s.updated x y).mpVariableMap.lookup z = some y' ∧ y'.conflicting := by
  rw [VariableBounds.updated] at h ⊢
  dsimp only at h ⊢
  split_ifs at h with hconf
  · obtain rfl := some.inj h
    exact .inr ⟨y, by rw [lookup_setVariable, if_pos rfl], hconf⟩
  · exact .inl h

theorem flag_touch (s : VariableBounds V T) (x : V) :
    (s.touch x).mpConflictingVariable = s.mpConflictingVariable := by
  rw [VariableBounds.touch]
  split_ifs
  · rfl
  · rfl

variable [LinearOrder T]

/-- An addition leaves the known variables and remembers only variables in conflict. -/
theorem addLinear_flag {s s' : VariableBounds V T} {c : Constraint V} {o : T} {x : V} {b : Bound}
    (h : s.addLinear c o x b = some s') :
    (∀ z y, s.mpVariableMap.lookup z = some y → ∃ y', s'.mpVariableMap.lookup z = some y') ∧
      ∀ z, s'.mpConflictingVariable = some z → s.mpConflictingVariable = some z ∨
        ∃ y, s'.mpVariableMap.lookup z = some y ∧ y.conflicting := by
  rw [addLinear] at h
  split at h
  · obtain ⟨y, hy, h⟩ := bind_eq_some_iff.mp h
    obtain ⟨⟨r, y'⟩, hact, h⟩ := map_eq_some_iff.mp h
    dsimp only at h
    split_ifs at h
    · subst h
      exact ⟨fun z _ hz => exists_lookup_setVariable hz, fun z => flag_updated⟩
    · subst h
      exact ⟨fun z _ hz => exists_lookup_setVariable hz, fun z => .inl⟩
  · dsimp only at h
    obtain ⟨y, hy, h⟩ := bind_eq_some_iff.mp h
    obtain ⟨⟨r, y'⟩, hact, rfl⟩ := map_eq_some_iff.mp h
    constructor
    · intro z y₀ hz
      obtain ⟨y₁, hy₁⟩ := exists_lookup_touch hz
      exact exists_lookup_setVariable hy₁
    · intro z hz
      rw [← flag_touch s x]
      exact flag_updated hz

omit [LinearOrder T] in
theorem genuine_touch {s : VariableBounds V T} (h : s.Genuine) (xs : List V) :
    (xs.foldl touch s).Genuine := by
  induction xs generalizing s with
  | nil => exact h
  | cons x xs ih =>
    refine ih fun z hz => ?_
    rw [flag_touch] at hz
    obtain ⟨y, hy, hconf⟩ := h z hz
    rw [VariableBounds.touch]
    split_ifs with hx
    · exact ⟨y, hy, hconf⟩
    · have hzx : z ≠ x := by
        rintro rfl
        rw [hy] at hx
        exact hx rfl
      exact ⟨y, (lookup_setVariable s x z .new).trans ((if_neg hzx).trans hy), hconf⟩

theorem Genuine.addBound {s s' : VariableBounds V T} {bounds : List (Constraint V × T)}
    (h : s.Genuine) (hs : s.Stores bounds) {c : Constraint V} {o : T} {r : Bool}
    (hadd : s.addBound c o = some (r, s')) : s'.Genuine := by
  rw [VariableBounds.addBound] at hadd
  cases hc : boundOf c with
  | some q =>
    obtain ⟨x, b⟩ := q
    rw [hc] at hadd
    obtain ⟨s₁, hs₁, heq⟩ := map_eq_some_iff.mp hadd
    obtain ⟨-, rfl⟩ := Prod.mk.inj heq
    obtain ⟨hlook, hflag⟩ := addLinear_flag hs₁
    exact h.of_mono hs (addLinear_spec hs hc hs₁).stores
      (fun p hp => mem_append_left _ hp) hlook hflag
  | none =>
    rw [hc] at hadd
    dsimp only at hadd
    split_ifs at hadd
    · obtain ⟨-, rfl⟩ := Prod.mk.inj (some.inj hadd)
      exact genuine_touch h _
    · obtain ⟨-, rfl⟩ := Prod.mk.inj (some.inj hadd)
      exact h
    · obtain ⟨-, rfl⟩ := Prod.mk.inj (some.inj hadd)
      have hkeep : { s with mNonBoundConstraints := c :: s.mNonBoundConstraints }.Genuine := h
      exact genuine_touch hkeep _

theorem genuine_literal {B : Type v} {f : Formula (Atom V B)} (hf : f.isConjunction = false)
    {s s' : VariableBounds V T} {bounds : List (Constraint V × T)} (h : s.Genuine)
    (hs : s.Stores bounds) {o : T} {r : Bool} (hadd : addFormula o f s = some (r, s')) :
    s'.Genuine ∧ ∃ bounds', s'.Stores bounds' := by
  have hadds := addFormula_literal hf s bounds hs r s' hadd
  rw [addFormula_of_not_and hf] at hadd
  refine ⟨?_, _, hadds.2.stores⟩
  cases hlit : literal f with
  | none =>
    rw [hlit] at hadd
    obtain ⟨-, rfl⟩ := Prod.mk.inj (some.inj hadd)
    exact h
  | some c =>
    rw [hlit] at hadd
    exact h.addBound hs hadd

theorem Genuine.addFormula {B : Type v} {f : Formula (Atom V B)} {s s' : VariableBounds V T}
    {bounds : List (Constraint V × T)} (h : s.Genuine) (hs : s.Stores bounds) {o : T} {r : Bool}
    (hadd : addFormula o f s = some (r, s')) : s'.Genuine := by
  -- some bounds are stored after each of the conjuncts
  have hall : ∀ (s s' : VariableBounds V T) (bounds : List (Constraint V × T)) (r : Bool),
      s.Genuine → s.Stores bounds → VariableBounds.addFormula o f s = some (r, s') →
        s'.Genuine ∧ ∃ bounds', s'.Stores bounds' := by
    clear h hs hadd
    induction f using Formula.induction with
    | hconst b => exact fun s s' bounds r h hs hadd => genuine_literal rfl h hs hadd
    | hatom p => exact fun s s' bounds r h hs hadd => genuine_literal rfl h hs hadd
    | happ c fs ih =>
      cases c with
      | and =>
        intro s s' bounds r h hs hadd
        rw [VariableBounds.addFormula] at hadd
        generalize false = res at hadd
        induction fs generalizing s bounds res with
        | nil =>
          rw [addFormulas] at hadd
          obtain ⟨-, rfl⟩ := Prod.mk.inj (some.inj hadd)
          exact ⟨h, bounds, hs⟩
        | cons f fs ihl =>
          have ihl := ihl fun g hg => ih g (mem_cons_of_mem _ hg)
          rw [addFormulas] at hadd
          split_ifs at hadd
          · exact ihl s bounds h hs true hadd
          · obtain ⟨⟨res, s₁⟩, hf, hadd⟩ := bind_eq_some_iff.mp hadd
            obtain ⟨h₁, bounds₁, hs₁⟩ := ih f mem_cons_self s s₁ bounds res h hs hf
            exact ihl s₁ bounds₁ h₁ hs₁ res hadd
      | _ => exact fun s s' bounds r h hs hadd => genuine_literal rfl h hs hadd
  exact (hall s s' bounds r h hs hadd).1

/-! ## Removals -/

theorem Genuine.removeBound {s s' : VariableBounds V T} (h : s.Genuine) {c : Constraint V} {o : T}
    {r : Nat} (hrem : s.removeBound c o = some (r, s')) : s'.Genuine := by
  rw [VariableBounds.removeBound] at hrem
  split at hrem
  · obtain ⟨⟨x, b⟩, -, hrem⟩ := bind_eq_some_iff.mp hrem
    obtain ⟨y, hy, hrem⟩ := bind_eq_some_iff.mp hrem
    obtain ⟨⟨d, y'⟩, hdeact, hrem⟩ := map_eq_some_iff.mp hrem
    have hends : y'.mpInfimum = y.mpInfimum ∧ y'.mpSupremum = y.mpSupremum := by
      rw [Variable.deactivate] at hdeact
      split_ifs at hdeact
      obtain ⟨-, rfl⟩ := Prod.mk.inj (some.inj hdeact)
      exact ⟨rfl, rfl⟩
    dsimp only at hrem
    split_ifs at hrem with hd hconf
    · obtain ⟨-, rfl⟩ := Prod.mk.inj hrem
      intro z hz
      obtain rfl := some.inj hz
      exact ⟨_, (lookup_setVariable _ _ _ _).trans (if_pos rfl), hconf⟩
    · obtain ⟨-, rfl⟩ := Prod.mk.inj hrem
      intro z hz
      cases hz
    · obtain ⟨-, rfl⟩ := Prod.mk.inj hrem
      -- the ends of the interval stay
      intro z hz
      obtain ⟨y₀, hy₀, hconf⟩ := h z hz
      rw [lookup_setVariable]
      split_ifs with hzx
      · subst hzx
        obtain rfl := some.inj (hy.symm.trans hy₀)
        refine ⟨y', rfl, ?_⟩
        rw [Variable.conflicting, hends.1, hends.2]
        exact hconf
      · exact ⟨y₀, hy₀, hconf⟩
  · split_ifs at hrem
    · obtain ⟨-, rfl⟩ := Prod.mk.inj (some.inj hrem)
      exact h
    · obtain ⟨-, rfl⟩ := Prod.mk.inj (some.inj hrem)
      exact h

theorem Genuine.removeAll {s s' : VariableBounds V T} (h : s.Genuine) {o : T}
    {cs : List (Constraint V)} (hrem : removeAll o cs s = some s') : s'.Genuine := by
  induction cs generalizing s with
  | nil =>
    obtain rfl := some.inj hrem
    exact h
  | cons c cs ih =>
    obtain ⟨⟨r, s₁⟩, hc, hrem⟩ := bind_eq_some_iff.mp hrem
    exact ih (h.removeBound hc) hrem

theorem Genuine.removeFormula {B : Type v} {f : Formula (Atom V B)} {s s' : VariableBounds V T}
    (h : s.Genuine) {o : T} {r : ℕ} (hrem : VariableBounds.removeFormula o f s = some (r, s')) :
    s'.Genuine := by
  have hall : VariableBounds.removeAll o (literals f) s = some s' := by
    rw [← removeFormula_eq, hrem]
    rfl
  exact h.removeAll hall

omit [LinearOrder T] in
theorem getInterval_congr {s s' : VariableBounds V T} {z : V}
    (hlook : (s'.mpVariableMap.lookup z).map (fun y => (y.interval, y.mUpdatedExactInterval))
      = (s.mpVariableMap.lookup z).map fun y => (y.interval, y.mUpdatedExactInterval))
    (hmap : s'.mEvalIntervalMap = s.mEvalIntervalMap) :
    (s'.getInterval z).1 = (s.getInterval z).1 := by
  have hval (s : VariableBounds V T) : (s.getInterval z).1
      = match (s.mpVariableMap.lookup z).map fun y => (y.interval, y.mUpdatedExactInterval) with
        | none => ⟨none, none⟩
        | some (i, updated) => if updated then i else s.mEvalIntervalMap z := by
    rw [VariableBounds.getInterval]
    cases s.mpVariableMap.lookup z with
    | none => rfl
    | some y =>
      dsimp only [map_some]
      split_ifs <;> rfl
  rw [hval, hval, hlook, hmap]

/-- Unless a bound is deactivated, a removal changes no interval. -/
theorem getInterval_removeBound {s s' : VariableBounds V T} {c : Constraint V} {o : T} {r : ℕ}
    (hrem : s.removeBound c o = some (r, s')) (hr : r ≠ 2) (z : V) :
    (s'.getInterval z).1 = (s.getInterval z).1 := by
  rw [VariableBounds.removeBound] at hrem
  split at hrem
  · obtain ⟨⟨x, b⟩, -, hrem⟩ := bind_eq_some_iff.mp hrem
    obtain ⟨y, hy, hrem⟩ := bind_eq_some_iff.mp hrem
    obtain ⟨⟨d, y'⟩, hdeact, hrem⟩ := map_eq_some_iff.mp hrem
    have hsame : y'.interval = y.interval ∧ y'.mUpdatedExactInterval = y.mUpdatedExactInterval := by
      rw [Variable.deactivate] at hdeact
      split_ifs at hdeact
      obtain ⟨-, rfl⟩ := Prod.mk.inj (some.inj hdeact)
      exact ⟨rfl, rfl⟩
    dsimp only at hrem
    by_cases hd : d = true
    · rw [if_pos hd] at hrem
      exact absurd (Prod.mk.inj hrem).1.symm hr
    · rw [if_neg hd] at hrem
      obtain ⟨-, rfl⟩ := Prod.mk.inj hrem
      refine getInterval_congr ?_ rfl
      rw [lookup_setVariable]
      split_ifs with hz
      · rw [hz, hy, map_some, map_some, hsame.1, hsame.2]
      · rfl
  · split_ifs at hrem
    · obtain ⟨-, rfl⟩ := Prod.mk.inj (some.inj hrem)
      rfl
    · obtain ⟨-, rfl⟩ := Prod.mk.inj (some.inj hrem)
      exact getInterval_congr rfl rfl

end VariableBounds

end Smtrat.VB
