import Smtrat.Common.Run
import Smtrat.VS.Completeness

/-!
# Runs of a state

Conditions are added and deleted, the variable is chosen, and conditions are used to generate test
candidates.  If a test candidate is said to be a solution then everything else is dropped; this is right
if all solutions of the equation are test candidates that were generated just now.
-/

namespace Smtrat.VS

open SparsePoly List Option

universe u

inductive Event (V : Type u) where
  | addCondition (id : ℕ) (constraint : Constraint V)
  | deleteConditions (ids : Finset ℕ)
  | setIndex (index : V)
  | eliminate (condition : Condition V)

/-- A state, and the equation for which everything else was dropped. -/
structure Tracked (V : Type u) where
  state : State V
  solution : Option ℕ

namespace Tracked

variable {V : Type u} [DecidableEq V] (lib : EliminationLibrary V) (settings : State.Settings)

def init (index : V) : Tracked V := ⟨.init index, none⟩

/-- The ids of conditions are unique, and a condition is only used if it has the variable.  A state with a
conflict is not processed. -/
def step (t : Tracked V) : Event V → Option (Tracked V)
  | .addCondition id constraint =>
    if id ∈ t.state.conditions.map (·.id) then none
    else some ⟨t.state.addCondition id constraint, t.solution⟩
  | .deleteConditions ids =>
    some ⟨t.state.deleteConditions ids, t.solution.filter (· ∉ ids)⟩
  | .setIndex index => if t.state.inconsistent then none else some ⟨t.state.setIndex index, none⟩
  | .eliminate condition =>
    if t.state.inconsistent = false ∧ condition ∈ t.state.conditions ∧
        Poly.hasVariable t.state.index condition.constraint.lhs then
      some ⟨t.state.eliminate lib settings condition,
        if !State.isSkipped settings condition &&
          (State.generate lib settings condition t.state).generatedTestCandidateBeingASolution
        then some condition.id else t.solution⟩
    else none

theorem step_eliminate (t : Tracked V) (condition : Condition V) (hguard : t.state.inconsistent = false ∧
    condition ∈ t.state.conditions ∧ Poly.hasVariable t.state.index condition.constraint.lhs) :
    step lib settings t (.eliminate condition) = some ⟨t.state.eliminate lib settings condition,
      if !State.isSkipped settings condition &&
        (State.generate lib settings condition t.state).generatedTestCandidateBeingASolution
      then some condition.id else t.solution⟩ := by
  rw [step, if_pos hguard]

variable {condition : Condition V} {s : State V}

theorem exists_eliminate (hc : condition ∈ s.conditions) :
    (s.eliminate lib settings condition).index = s.index ∧
      ∃ c ∈ (s.eliminate lib settings condition).conditions, c.constraint = condition.constraint := by
  rw [State.eliminate]
  split_ifs
  · obtain ⟨c, hc, -, hcon⟩ := State.exists_setFlag condition.id hc
    exact ⟨rfl, c, hc, hcon⟩
  · have hgen := (State.generate_spec lib settings condition s).1
    rw [State.finishElimination]
    split_ifs
    · refine ⟨hgen.index, { condition with flag := true }, ?_, rfl⟩
      rw [← hgen.conditions] at hc
      exact List.mem_map.mpr ⟨condition, hc, rfl⟩
    · rw [← hgen.conditions] at hc
      obtain ⟨c, hc, -, hcon⟩ := State.exists_setFlag condition.id hc
      exact ⟨hgen.index, c, hc, hcon⟩
    · have hgrown := (State.addChild_grown (minusInfinity
        (State.generate lib settings condition s).state.index) condition.id
        (State.generate lib settings condition s).state).1
      rw [← hgen.conditions, ← hgrown.conditions] at hc
      obtain ⟨c, hc, -, hcon⟩ := State.exists_setFlag condition.id hc
      exact ⟨hgrown.index.trans hgen.index, c, hc, hcon⟩

/-- A new test candidate of the condition is said to be a solution. -/
def Declares (s : State V) (condition : Condition V) : Prop :=
  condition.constraint.relation = .eq ∧
    sideConditionsOf lib settings.elimination_with_factorization s.index condition.constraint.lhs = ∅ ∧
    ∃ f ∈ factorsOf lib settings.elimination_with_factorization s.index condition.constraint.lhs,
      Poly.maxDegree s.index f ≤ 2 ∧ (testCandidates lib s.index .eq ∅ f = [] ∨
        ∃ candidate ∈ testCandidates lib s.index .eq ∅ f,
          candidate.sideCondition = ∅ ∧ s.New candidate)

/-- Everything else may be dropped: the factors of the condition have a low degree and do not vanish,
and all of its test candidates are new.  If the equation is deleted then the test candidates that were
dropped are generated again, and if other conditions are then its factors still do not vanish. -/
def Careful (t : Tracked V) : Event V → Prop
  | .eliminate condition => Declares lib settings t.state condition →
      LowDegree lib settings.elimination_with_factorization t.state.index condition.constraint ∧
      NonVanishing lib settings.elimination_with_factorization t.state.conditions t.state.index
        condition.constraint ∧
      ∀ candidate ∈ allTestCandidates lib settings.elimination_with_factorization t.state.index
        condition.constraint, t.state.New candidate
  | .deleteConditions ids => ∀ id, t.solution = some id →
      (id ∈ ids → (∃ child ∈ t.state.children, child.originalCondition.isSome ∧
          child.originalConditions ⊆ ids) ∧
        ∀ child ∈ t.state.children, child.originalCondition.isSome → child.originalConditions ⊆ ids) ∧
      (id ∉ ids → ∀ c ∈ t.state.conditions, c.id = id →
        NonVanishing lib settings.elimination_with_factorization
          (t.state.conditions.filter (·.id ∉ ids)) t.state.index c.constraint)
  | _ => True

/-- The invariant: either every condition that needs no test candidates has them, or an equation has
them all. -/
structure Inv (t : Tracked V) : Prop where
  unique : (t.state.conditions.map (·.id)).Nodup
  plain : t.solution = none → ∀ child ∈ t.state.children, child.originalCondition = none
  used : t.solution = none → ∀ c ∈ t.state.conditions, c.flag = true →
    Poly.hasVariable t.state.index c.constraint.lhs → c.id ∈ t.state.tooHighDegreeConditions ∨
      t.state.Used lib settings.elimination_with_factorization c
  solved : ∀ id, t.solution = some id → ∃ c ∈ t.state.conditions, c.id = id ∧
    t.state.Solved lib settings.elimination_with_factorization c

variable {lib} {settings} {t t' : Tracked V}

theorem inv_init (index : V) : Inv lib settings (init index) where
  unique := nodup_nil
  plain _ _ h := absurd h not_mem_nil
  used _ _ h := absurd h not_mem_nil
  solved _ h := nomatch h

/-- Where a condition with the variable is there, the state is complete. -/
theorem Inv.complete (h : Inv lib settings t) {c : Condition V} (hc : c ∈ t.state.conditions)
    (hvar : Poly.hasVariable t.state.index c.constraint.lhs) : t.state.Complete := by
  intro α hα
  cases hsol : t.solution with
  | some id =>
    obtain ⟨d, hd, -, hslv⟩ := h.solved id hsol
    exact .inr (.inr (hslv.complete hd hα))
  | none =>
    by_cases hleft : ∃ d ∈ t.state.conditions, d.flag = false
    · exact .inl hleft
    · refine .inr ?_
      rcases t.state.tooHighDegreeConditions.eq_empty_or_nonempty with htoo | htoo
      · refine .inr (State.complete_of_used lib
          settings.elimination_with_factorization (fun d hd hdvariable => ?_) hc hvar hα)
        have hflag : d.flag = true := by
          by_contra hflag
          exact hleft ⟨d, hd, Bool.eq_false_iff.mpr hflag⟩
        refine (h.used hsol d hd hflag hdvariable).resolve_left fun hmem => ?_
        rw [htoo] at hmem
        exact Finset.notMem_empty _ hmem
      · exact .inl htoo

/-! ## Steps -/

theorem Inv.addCondition (h : Inv lib settings t) {id : ℕ} (constraint : Constraint V)
    (hid : id ∉ t.state.conditions.map (·.id)) :
    Inv lib settings ⟨t.state.addCondition id constraint, t.solution⟩ where
  unique := by
    show ((t.state.conditions ++ [_]).map _).Nodup
    rw [map_append, nodup_append]
    refine ⟨h.unique, nodup_singleton _, ?_⟩
    rintro a ha b hb rfl
    have hb : a = id := mem_singleton.mp hb
    exact hid (hb ▸ ha)
  plain := h.plain
  used hsol c hc hflag hvar := by
    rcases mem_append.mp hc with hc | hc
    · obtain hmem | hused := h.used hsol c hc hflag hvar
      · exact .inl hmem
      · exact .inr ⟨hused.lowDegree, hused.provided, hused.minusInfinity⟩
    · -- no child is said to be a solution, so the new condition is left
      rw [mem_singleton.mp hc] at hflag hvar
      have hvar : Poly.hasVariable t.state.index constraint.lhs = true := hvar
      have hflag : (!Poly.hasVariable t.state.index constraint.lhs ||
        t.state.children.head?.any fun child => child.originalCondition.isSome) = true := hflag
      rw [hvar, Bool.not_true, Bool.false_or] at hflag
      obtain ⟨child, hch, hsome⟩ := (Option.any_eq_true _ _).mp hflag
      rw [h.plain hsol child (mem_of_head? hch)] at hsome
      exact absurd hsome Bool.false_ne_true
  solved id hsol := by
    obtain ⟨c, hc, hcid, hslv⟩ := h.solved id hsol
    exact ⟨c, mem_append_left _ hc, hcid, hslv.relation, hslv.sideConditions,
      hslv.lowDegree, fun α hα => hslv.nonVanishing α fun d hd =>
        hα d (mem_append_left _ hd), hslv.provided⟩

theorem Inv.setIndex (h : Inv lib settings t) (index : V) :
    Inv lib settings ⟨t.state.setIndex index, none⟩ where
  unique := by
    show ((State.initConditionFlags index t.state.conditions).map (·.id)).Nodup
    rw [State.initConditionFlags, List.map_map]
    exact h.unique
  plain _ _ hch := absurd hch not_mem_nil
  used _ c hc hflag hvar := by
    obtain ⟨d, -, rfl⟩ := List.mem_map.mp hc
    have hflag : (!Poly.hasVariable index d.constraint.lhs) = true := hflag
    have hvar : Poly.hasVariable index d.constraint.lhs = true := hvar
    rw [hvar] at hflag
    exact absurd hflag Bool.false_ne_true
  solved _ hsol := nomatch hsol

variable {ids : Finset ℕ}

theorem mem_deleteConditions {c : Condition V} (hc : c ∈ (s.deleteConditions ids).conditions) :
    ∃ d ∈ s.conditions.filter (·.id ∉ ids), d.id = c.id ∧ d.constraint = c.constraint ∧
      (d = c ∨ c.flag = !Poly.hasVariable s.index c.constraint.lhs) := by
  rw [State.deleteConditions] at hc
  dsimp only at hc
  split_ifs at hc
  · obtain ⟨d, hd, rfl⟩ := List.mem_map.mp hc
    exact ⟨d, hd, rfl, rfl, .inr rfl⟩
  · exact ⟨c, hc, rfl, rfl, .inl rfl⟩

theorem exists_deleteConditions {d : Condition V} (hd : d ∈ s.conditions.filter (·.id ∉ ids)) :
    ∃ c ∈ (s.deleteConditions ids).conditions, c.id = d.id ∧ c.constraint = d.constraint := by
  rw [State.deleteConditions]
  dsimp only
  split_ifs
  · exact ⟨_, List.mem_map.mpr ⟨d, hd, rfl⟩, rfl, rfl⟩
  · exact ⟨d, hd, rfl, rfl⟩

theorem provides_deleteConditions {id : ℕ}
    {candidate : TestCandidate V} (h : s.Provides id candidate) (hid : id ∉ ids) :
    (s.deleteConditions ids).Provides id candidate := by
  obtain ⟨child, hch, hcand, horig⟩ := h
  refine ⟨_, List.mem_map.mpr ⟨child, mem_filter.mpr ⟨hch, ?_⟩, rfl⟩, hcand,
    Finset.mem_sdiff.mpr ⟨horig, hid⟩⟩
  rw [Bool.not_eq_true', decide_eq_false_iff_not]
  exact fun hsub => hid (hsub horig)

theorem Inv.deleteConditions (h : Inv lib settings t) (ids : Finset ℕ)
    (hcare : Careful lib settings t (.deleteConditions ids)) :
    Inv lib settings ⟨t.state.deleteConditions ids, t.solution.filter (· ∉ ids)⟩ := by
  have hids : (t.state.deleteConditions ids).conditions.map (·.id)
      = (t.state.conditions.filter (·.id ∉ ids)).map (·.id) := by
    rw [State.deleteConditions]
    dsimp only
    split_ifs
    · rw [State.initConditionFlags, List.map_map]
      rfl
    · rfl
  -- a deleted equation takes its test candidates with it, and the flags are set again
  have hdel (hnone : t.solution.filter (· ∉ ids) = none) : t.solution = none ∨
      ((t.state.children.any fun child =>
        decide (child.originalConditions ⊆ ids) && child.originalCondition.isSome) = true ∧
      ∀ child ∈ t.state.children, child.originalCondition.isSome →
        child.originalConditions ⊆ ids) := by
    cases hsol : t.solution with
    | none => exact .inl rfl
    | some id =>
      rw [hsol] at hnone
      have hid : id ∈ ids := by
        by_contra hid
        rw [filter_some, if_pos (decide_eq_true hid)] at hnone
        exact nomatch hnone
      obtain ⟨⟨child, hch, hsome, hsub⟩, hall⟩ := (hcare id hsol).1 hid
      refine .inr ⟨List.any_eq_true.mpr ⟨child, hch, ?_⟩, hall⟩
      rw [Bool.and_eq_true]
      exact ⟨decide_eq_true hsub, hsome⟩
  constructor
  · show ((t.state.deleteConditions ids).conditions.map (·.id)).Nodup
    rw [hids]
    exact h.unique.sublist (filter_sublist.map _)
  · intro hnone child hch
    obtain ⟨d, hd, rfl⟩ := List.mem_map.mp hch
    obtain ⟨hd, hkept⟩ := mem_filter.mp hd
    rcases hdel hnone with hsol | ⟨-, hall⟩
    · exact h.plain hsol d hd
    · refine not_isSome_iff_eq_none.mp fun hsome => ?_
      rw [Bool.not_eq_true', decide_eq_false_iff_not] at hkept
      exact hkept (hall d hd hsome)
  · intro hnone c hc hflag hvar
    rcases hdel hnone with hsol | ⟨hreset, -⟩
    · obtain ⟨d, hd, hid, hcon, hsame⟩ := mem_deleteConditions hc
      rcases hsame with rfl | hinit
      · obtain ⟨hd, hkept⟩ := mem_filter.mp hd
        have hkept : d.id ∉ ids := of_decide_eq_true hkept
        rcases h.used hsol d hd hflag hvar with hmem | hused
        · exact .inl (Finset.mem_sdiff.mpr ⟨hmem, hkept⟩)
        · exact .inr ⟨hused.lowDegree,
            fun candidate hcand => provides_deleteConditions (hused.provided candidate hcand) hkept,
            provides_deleteConditions hused.minusInfinity hkept⟩
      · have hvar : Poly.hasVariable t.state.index c.constraint.lhs = true := hvar
        rw [hinit, hvar] at hflag
        exact absurd hflag Bool.false_ne_true
    · have hc : c ∈ (t.state.deleteConditions ids).conditions := hc
      rw [State.deleteConditions] at hc
      dsimp only at hc
      rw [if_pos hreset] at hc
      obtain ⟨d, -, rfl⟩ := List.mem_map.mp hc
      have hflag : (!Poly.hasVariable t.state.index d.constraint.lhs) = true := hflag
      have hvar : Poly.hasVariable t.state.index d.constraint.lhs = true := hvar
      rw [hvar] at hflag
      exact absurd hflag Bool.false_ne_true
  · intro id hsome
    obtain ⟨hsol, hid⟩ := filter_eq_some_iff.mp hsome
    have hid : id ∉ ids := of_decide_eq_true hid
    obtain ⟨d, hd, rfl, hslv⟩ := h.solved id hsol
    obtain ⟨c, hc, hcid, hcon⟩ :=
      exists_deleteConditions (mem_filter.mpr ⟨hd, decide_eq_true hid⟩)
    refine ⟨c, hc, hcid, ?_⟩
    have hnonVanishing := (hcare d.id hsol).2 hid d hd rfl
    refine ⟨by rw [hcon]; exact hslv.relation, by rw [hcon]; exact hslv.sideConditions,
      by rw [hcon]; exact hslv.lowDegree, ?_, ?_⟩
    · intro α hα f hf
      rw [hcon] at hf
      refine hnonVanishing α (fun e he => ?_) f hf
      obtain ⟨e', he', -, heq⟩ := exists_deleteConditions he
      rw [← heq]
      exact hα e' he'
    · rw [hcon, hcid]
      exact fun candidate hcand => provides_deleteConditions (hslv.provided candidate hcand) hid

/-- A condition whose test candidates were added, or that is of too high degree, is used. -/
theorem Inv.setFlag (h : Inv lib settings t)
    (hc : condition ∈ t.state.conditions) {s' : State V} (hgrown : t.state.Grown s')
    (hplain : t.solution = none → ∀ child ∈ s'.children, child.originalCondition = none)
    (hsub : t.state.tooHighDegreeConditions ⊆ s'.tooHighDegreeConditions)
    (hused : condition.id ∈ s'.tooHighDegreeConditions ∨
      s'.Used lib settings.elimination_with_factorization condition) :
    Inv lib settings ⟨s'.setFlag condition.id, t.solution⟩ where
  unique := by
    show ((s'.setFlag condition.id).conditions.map (·.id)).Nodup
    rw [State.setFlag_ids, hgrown.conditions]
    exact h.unique
  plain := hplain
  used hsol c hc' hflag hvar := by
    obtain ⟨d, hd, hid, hcon, hsame⟩ := State.mem_setFlag hc'
    rw [hgrown.conditions] at hd
    rcases hsame with rfl | hcond
    · have hvar : Poly.hasVariable s'.index d.constraint.lhs = true := hvar
      rw [hgrown.index] at hvar
      refine (h.used hsol d hd hflag hvar).imp (fun hmem => hsub hmem) fun hused => ?_
      refine ⟨?_, ?_, ?_⟩
      · show LowDegree lib _ s'.index d.constraint
        rw [hgrown.index]
        exact hused.lowDegree
      · show ∀ candidate ∈ allTestCandidates lib _ s'.index d.constraint, s'.Provides d.id candidate
        rw [hgrown.index]
        exact fun candidate hcand => (hused.provided candidate hcand).grown hgrown
      · show s'.Provides d.id (minusInfinity s'.index)
        rw [hgrown.index]
        exact hused.minusInfinity.grown hgrown
    · obtain rfl : d = condition := inj_on_of_nodup_map h.unique hd hc hcond
      refine hused.imp (fun hmem => ?_) fun hused => ?_
      · rw [← hid]
        exact hmem
      · refine ⟨?_, ?_, ?_⟩
        · rw [← hcon]
          exact hused.lowDegree
        · rw [← hcon, ← hid]
          exact hused.provided
        · rw [← hid]
          exact hused.minusInfinity
  solved id hsol := by
    obtain ⟨d, hd, hid, hslv⟩ := h.solved id hsol
    obtain ⟨c, hc, hcid, hcon⟩ :=
      State.exists_setFlag condition.id (hgrown.conditions.symm ▸ hd : d ∈ s'.conditions)
    refine ⟨c, hc, hcid.trans hid, ?_⟩
    have hindex : (s'.setFlag condition.id).index = t.state.index := hgrown.index
    refine ⟨?_, ?_, ?_, ?_, ?_⟩
    · rw [hcon]
      exact hslv.relation
    · rw [hindex, hcon]
      exact hslv.sideConditions
    · rw [hindex, hcon]
      exact hslv.lowDegree
    · rw [hindex, hcon]
      refine hslv.nonVanishing.congr fun e he => ?_
      obtain ⟨e', he', -, heq⟩ :=
        State.exists_setFlag condition.id (hgrown.conditions.symm ▸ he : e ∈ s'.conditions)
      exact ⟨e', he', heq⟩
    · rw [hindex, hcon, hcid]
      intro candidate hcand
      have hprov : s'.Provides d.id candidate := (hslv.provided candidate hcand).grown hgrown
      exact hprov

/-- Everything but the new test candidates of an equation is dropped. -/
theorem Inv.declare (h : Inv lib settings t) (hc : condition ∈ t.state.conditions)
    (hflag : (State.generate lib settings condition
      t.state).generatedTestCandidateBeingASolution = true)
    (hcare : Careful lib settings t (.eliminate condition)) :
    Inv lib settings ⟨State.finishElimination condition (State.generate lib settings condition t.state),
      some condition.id⟩ := by
  obtain ⟨hgen, hdeclares, -⟩ := State.generate_spec lib settings condition t.state
  obtain ⟨hlow, hnonVanishing, hnew⟩ := hcare (hdeclares hflag)
  obtain ⟨hrel, hside, -⟩ := hdeclares hflag
  set e := State.generate lib settings condition t.state
  obtain ⟨old, new, hchildren, hlen, hold, -⟩ := hgen.children
  have hdrop : e.state.children.drop (e.state.children.length - e.numberOfAddedChildren) = new := by
    rw [hchildren, length_append, hlen, Nat.add_sub_cancel, drop_left]
  have hids : (State.finishElimination condition e).conditions.map (·.id)
      = t.state.conditions.map (·.id) := by
    rw [State.finishElimination, if_pos hflag, List.map_map, hgen.conditions]
    rfl
  constructor
  · rw [hids]
    exact h.unique
  · exact fun hnone => nomatch hnone
  · exact fun hnone => nomatch hnone
  · rintro id hid
    obtain rfl := some.inj hid
    refine ⟨{ condition with flag := true }, ?_, rfl, ?_⟩
    · show _ ∈ (State.finishElimination condition e).conditions
      rw [State.finishElimination, if_pos hflag, hgen.conditions]
      exact List.mem_map.mpr ⟨condition, hc, rfl⟩
    · have hindex : (State.finishElimination condition e).index = t.state.index := by
        rw [State.finishElimination, if_pos hflag]
        exact hgen.index
      have hfinal : (State.finishElimination condition e).children = new := by
        rw [State.finishElimination, if_pos hflag]
        exact hdrop
      refine ⟨hrel, ?_, ?_, ?_, ?_⟩
      · rw [hindex]
        exact hside
      · rw [hindex]
        exact hlow
      · rw [hindex]
        refine hnonVanishing.congr fun d hd => ⟨{ d with flag := true }, ?_, rfl⟩
        show _ ∈ (State.finishElimination condition e).conditions
        rw [State.finishElimination, if_pos hflag, hgen.conditions]
        exact List.mem_map.mpr ⟨d, hd, rfl⟩
      · rw [hindex]
        intro candidate hcand
        obtain ⟨child, hch, hsame, hid⟩ := hgen.provided candidate hcand
        rw [hchildren] at hch
        refine ⟨child, ?_, hsame, hid⟩
        rw [hfinal]
        -- the candidate is new, so it is not among the children from before
        refine (mem_append.mp hch).resolve_left fun hbef => ?_
        obtain ⟨child', hch', hext⟩ :=
          State.exists_related (List.Forall₂.flip (R := flip State.Extended) hold) hbef
        exact hnew candidate hcand child' hch' (hext.testCandidate.symm.trans hsame)

theorem Inv.eliminate (h : Inv lib settings t)
    (hconsis : t.state.inconsistent = false) (hc : condition ∈ t.state.conditions)
    (hcare : Careful lib settings t (.eliminate condition)) :
    Inv lib settings ⟨t.state.eliminate lib settings condition,
      if !State.isSkipped settings condition &&
        (State.generate lib settings condition t.state).generatedTestCandidateBeingASolution
      then some condition.id else t.solution⟩ := by
  rw [State.eliminate]
  cases hskipped : State.isSkipped settings condition with
  | true =>
    rw [if_pos rfl, Bool.not_true, Bool.false_and, if_neg Bool.false_ne_true]
    set s' : State V := { t.state with
      tooHighDegreeConditions := insert condition.id t.state.tooHighDegreeConditions }
    have hgrown : t.state.Grown s' := ⟨rfl, rfl, rfl, t.state.children, [], (append_nil _).symm,
      List.forall₂_same.mpr fun child _ => State.Extended.refl child⟩
    exact h.setFlag hc hgrown h.plain (Finset.subset_insert ..) (.inl (Finset.mem_insert_self ..))
  | false =>
    rw [if_neg Bool.false_ne_true, Bool.not_false, Bool.true_and]
    cases hflag : (State.generate lib settings condition
        t.state).generatedTestCandidateBeingASolution with
    | true =>
      rw [if_pos rfl]
      exact h.declare hc hflag hcare
    | false =>
      obtain ⟨hgen, -, hsub, hhigh⟩ := State.generate_spec lib settings condition t.state
      rw [if_neg Bool.false_ne_true, State.finishElimination, hflag, if_neg Bool.false_ne_true,
        hgen.inconsistent, hconsis, if_neg Bool.false_ne_true]
      set e := State.generate lib settings condition t.state
      obtain ⟨hgrown, htoo, hminus, hplain⟩ :=
        State.addChild_grown (minusInfinity e.state.index) condition.id e.state
      have hgrown' := hgen.grown.trans hgrown
      show Inv lib settings ⟨(e.state.addChild (minusInfinity e.state.index) {condition.id}
        none).2.setFlag condition.id, t.solution⟩
      refine h.setFlag hc hgrown' (fun hnone => hplain fun child hch => ?_) ?_ ?_
      · obtain ⟨old, new, hchildren, -, hold, hnew⟩ := hgen.children
        rw [hchildren] at hch
        rcases mem_append.mp hch with hch | hch
        · obtain ⟨child', hch', hext⟩ :=
            State.exists_related (List.Forall₂.flip (R := flip State.Extended) hold) hch
          exact hext.originalCondition.trans (h.plain hnone child' hch')
        · exact hnew (.inl hflag) child hch
      · exact hsub.trans htoo.symm.subset
      · by_cases hlow : LowDegree lib settings.elimination_with_factorization t.state.index
          condition.constraint
        · refine .inr ⟨?_, ?_, ?_⟩
          · rw [hgrown'.index]
            exact hlow
          · rw [hgrown'.index]
            exact fun candidate hcand => (hgen.provided candidate hcand).grown hgrown
          · rw [hgrown'.index, ← hgen.index]
            exact hminus
        · rw [LowDegree] at hlow
          push Not at hlow
          exact .inl (htoo.symm ▸ hhigh hlow)

/-- Every step keeps the invariant. -/
theorem Inv.step (h : Inv lib settings t) (event : Event V) (hcare : Careful lib settings t event)
    (hstep : step lib settings t event = some t') : Inv lib settings t' := by
  cases event with
  | addCondition id constraint =>
    rw [Tracked.step] at hstep
    split_ifs at hstep with hid
    obtain rfl := some.inj hstep
    exact h.addCondition constraint hid
  | deleteConditions ids =>
    obtain rfl := some.inj hstep
    exact h.deleteConditions ids hcare
  | setIndex index =>
    rw [Tracked.step] at hstep
    split_ifs at hstep
    obtain rfl := some.inj hstep
    exact h.setIndex index
  | eliminate condition =>
    rw [Tracked.step] at hstep
    split_ifs at hstep with hguard hsol
    · obtain rfl := some.inj hstep
      have hinv := h.eliminate hguard.1 hguard.2.1 hcare
      rwa [if_pos hsol] at hinv
    · obtain rfl := some.inj hstep
      have hinv := h.eliminate hguard.1 hguard.2.1 hcare
      rwa [if_neg hsol] at hinv

open Classical in
/-- In careful runs the test candidates of every elimination are complete. -/
theorem complete_of_run (lib : EliminationLibrary V) (settings : State.Settings) (index : V)
    (events : List (Event V)) (condition : Condition V) (t' : Tracked V)
    (h : Run.run (Run.guarded (Careful lib settings) (step lib settings)) (init index)
      (events ++ [.eliminate condition]) = some t') : t'.state.Complete := by
  have hinv : Inv lib settings t' :=
    Run.guarded_invariant (fun _ event _ hinv hcare hstep => hinv.step event hcare hstep)
      (inv_init index) h
  obtain ⟨t, -, hlast⟩ := Run.run_append.mp h
  obtain ⟨_, hstep, hend⟩ := Run.run_cons.mp hlast
  obtain rfl := some.inj hend
  have hstep := (Run.guarded_eq_some.mp hstep).2
  rw [step] at hstep
  obtain ⟨hguard, hstep⟩ := ite_none_right_eq_some.mp hstep
  obtain rfl := some.inj hstep
  obtain ⟨hindex, c, hc, hcon⟩ := exists_eliminate lib settings hguard.2.1
  refine hinv.complete hc ?_
  show Poly.hasVariable (t.state.eliminate lib settings condition).index c.constraint.lhs = true
  rw [hindex, hcon]
  exact hguard.2.2

section Example

/-- Constants are evaluated, and one polynomial is factorized. -/
private def factorizingLibrary : EliminationLibrary ℕ where
  constraint p r :=
    if p.all (·.monomial = []) then .constant (decide (r.evaluate (p.map (·.coeff)).sum 0))
    else .proper ⟨p, r⟩
  sat_constraint p r α := by
    split_ifs with hconstant
    · have heval : Poly.eval α p = ((p.map (·.coeff)).sum : ℚ) := by
        rw [Poly.eval, Rat.cast_list_sum, List.map_map]
        refine congrArg List.sum (map_congr_left fun t ht => ?_)
        rw [Term.eval, of_decide_eq_true (List.all_eq_true.mp hconstant t ht)]
        simp
      rw [ConstraintT.Sat, decide_eq_true_iff, heval]
      generalize (p.map (·.coeff)).sum = q
      cases r <;> simp [Relation.evaluate]
    · rfl
  factorization p :=
    if p = [⟨1, [(0, 4)]⟩, ⟨-2, [(0, 1)]⟩]
    then some [([⟨1, [(0, 1)]⟩], 1), ([⟨1, [(0, 3)]⟩, ⟨-2, []⟩], 1)] else none
  factorization_pos p fs h f hf := by
    split_ifs at h
    obtain rfl := some.inj h
    simp only [mem_cons, not_mem_nil, or_false] at hf
    rcases hf with rfl | rfl
    · exact one_pos
    · exact one_pos
  factorization_eval p fs h := by
    split_ifs at h with hp
    obtain rfl := some.inj h
    refine ⟨1, one_ne_zero, fun α => ?_⟩
    rw [hp]
    simp [Term.eval]
    ring
  sqrtEx := id
  sqrtEx_defined := EliminationLibrary.defined_id
  sqrtEx_value := EliminationLibrary.value_id

private def withFactorization : State.Settings := ⟨true, true⟩

/-- The condition `x0 = 0`. -/
private def zeroCondition : Condition ℕ := ⟨0, ⟨[⟨1, [(0, 1)]⟩], .eq⟩, false⟩

open Classical in
theorem complete_of_run_zero : ∃ t', Run.run
    (Run.guarded (Careful factorizingLibrary withFactorization)
      (step factorizingLibrary withFactorization)) (init 0)
    [.addCondition 0 zeroCondition.constraint, .eliminate zeroCondition] = some t' ∧
      t'.state.Complete := by
  have hfacs : factorsOf factorizingLibrary true 0 zeroCondition.constraint.lhs
      = [[⟨1, [(0, 1)]⟩]] := by
    decide +kernel
  have hcare : Careful factorizingLibrary withFactorization
      ⟨(State.init 0).addCondition 0 zeroCondition.constraint, none⟩ (.eliminate zeroCondition) := by
    intro _
    refine ⟨fun f hf => ?_, fun α _ f hf hzero => ?_, fun _ _ _ hch => absurd hch not_mem_nil⟩
    · rw [show f = _ from mem_singleton.mp (hfacs ▸ hf)]
      decide
    · rw [show f = _ from mem_singleton.mp (hfacs ▸ hf)] at hzero
      have hzero : Poly.univariate 0 α ([⟨1, [(0, 1)]⟩] : Poly ℕ ℚ) = 0 := hzero
      have heval := congrArg (Polynomial.eval 1) hzero
      rw [Poly.eval_univariate] at heval
      simp [Term.eval] at heval
  have hstep := step_eliminate factorizingLibrary withFactorization
    ⟨(State.init 0).addCondition 0 zeroCondition.constraint, none⟩ zeroCondition (by decide +kernel)
  have hrun : Run.run (Run.guarded (Careful factorizingLibrary withFactorization)
      (step factorizingLibrary withFactorization)) (init 0)
      ([.addCondition 0 zeroCondition.constraint] ++ [.eliminate zeroCondition]) = some _ :=
    Run.run_cons.mpr ⟨_, Run.guarded_eq_some.mpr ⟨trivial, rfl⟩,
      Run.run_cons.mpr ⟨_, Run.guarded_eq_some.mpr ⟨hcare, hstep⟩, rfl⟩⟩
  exact ⟨_, hrun, complete_of_run factorizingLibrary withFactorization 0 _ zeroCondition _ hrun⟩

/-- The equation `x0 (x0 ^ 3 - 2) = 0`. -/
private def productCondition : Condition ℕ :=
  ⟨0, ⟨[⟨1, [(0, 4)]⟩, ⟨-2, [(0, 1)]⟩], .eq⟩, false⟩

/-- The inequation `x0 - 1 > 0`. -/
private def greaterConstraint : Constraint ℕ := ⟨[⟨1, [(0, 1)]⟩, ⟨-1, []⟩], .greater⟩

private def productState : State ℕ :=
  ((State.init 0).addCondition 0 productCondition.constraint).addCondition 1 greaterConstraint

/-- The zero of a linear factor is said to be a solution, and so the cube root of two is lost. -/
theorem not_complete_of_eliminate :
    ¬ ∀ (lib : EliminationLibrary ℕ) (settings : State.Settings) (index : ℕ)
        (events : List (Event ℕ)) (condition : Condition ℕ) (t' : Tracked ℕ),
        Run.run (step lib settings) (init index) (events ++ [.eliminate condition]) = some t' →
        (∃ α : ℕ → ℝ, ∀ c ∈ t'.state.conditions, c.constraint.Sat α) →
        (∃ c ∈ t'.state.conditions, c.flag = false) ∨ t'.state.tooHighDegreeConditions.Nonempty ∨
          ∃ child ∈ t'.state.children, ∃ α : ℕ → ℝ, t'.state.Solves α child.testCandidate := by
  intro hall
  have hstep := step_eliminate factorizingLibrary withFactorization ⟨productState, none⟩
    productCondition (by decide +kernel)
  have hrun : Run.run (step factorizingLibrary withFactorization) (init 0)
      ([.addCondition 0 productCondition.constraint, .addCondition 1 greaterConstraint] ++
        [.eliminate productCondition]) = some _ :=
    Run.run_cons.mpr ⟨_, rfl, Run.run_cons.mpr ⟨_, rfl, Run.run_cons.mpr ⟨_, hstep, rfl⟩⟩⟩
  have hconds : (productState.eliminate factorizingLibrary withFactorization
      productCondition).conditions = [⟨0, productCondition.constraint, true⟩,
        ⟨1, greaterConstraint, true⟩] := by
    decide +kernel
  have htoo : (productState.eliminate factorizingLibrary withFactorization
      productCondition).tooHighDegreeConditions = ∅ := by
    decide +kernel
  have hchildren : (productState.eliminate factorizingLibrary withFactorization
      productCondition).children.map (·.testCandidate)
      = [⟨⟨0, .normal ⟨[], [], [], [⟨1, []⟩]⟩⟩, ∅⟩] := by
    decide +kernel
  obtain ⟨r, hr, hcube⟩ : ∃ r : ℝ, 0 ≤ r ∧ r ^ 3 = 2 :=
    ⟨2 ^ ((3 : ℕ) : ℝ)⁻¹, by positivity, Real.rpow_inv_natCast_pow (by norm_num) (by norm_num)⟩
  have hsol : ∀ c ∈ (productState.eliminate factorizingLibrary withFactorization
      productCondition).conditions, c.constraint.Sat fun _ => r := by
    rw [hconds]
    intro c hc
    simp only [mem_cons, not_mem_nil, or_false] at hc
    rcases hc with rfl | rfl
    · simp [Constraint.Sat, productCondition, Relation.evaluate, Term.eval]
      linear_combination r * hcube
    · simp [Constraint.Sat, greaterConstraint, Relation.evaluate, Term.eval]
      by_contra hle
      have hpow := pow_le_one₀ (n := 3) hr (not_lt.mp hle)
      linarith
  rcases hall factorizingLibrary withFactorization 0 _ productCondition _ hrun ⟨_, hsol⟩ with
    ⟨c, hc, hflag⟩ | hne | ⟨child, hch, α, hslv⟩
  · rw [hconds] at hc
    simp only [mem_cons, not_mem_nil, or_false] at hc
    rcases hc with rfl | rfl
    · exact absurd hflag.symm Bool.false_ne_true
    · exact absurd hflag.symm Bool.false_ne_true
  · rw [htoo] at hne
    exact Finset.not_nonempty_empty hne
  · have hcand := List.mem_map_of_mem (f := (·.testCandidate)) hch
    rw [hchildren, mem_singleton] at hcand
    have hmeets := hslv.meets ⟨1, greaterConstraint, true⟩ (by
      rw [hconds]
      exact mem_cons_of_mem _ mem_cons_self)
    have hindex : (productState.eliminate factorizingLibrary withFactorization
        productCondition).index = 0 := by
      decide +kernel
    have hmeets : Meets α (.proper greaterConstraint) 0 (.normal ⟨[], [], [], [⟨1, []⟩]⟩) := by
      rwa [hcand, hindex] at hmeets
    simp [Meets, ConstraintT.Sat, Constraint.Sat, greaterConstraint, Relation.evaluate, Term.eval,
      SqrtEx.value] at hmeets
    linarith

end Example

end Tracked

end Smtrat.VS
