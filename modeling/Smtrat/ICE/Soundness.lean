import Smtrat.ICE.CycleSearch
import Smtrat.ICE.Deductions

/-!
# Soundness of the module

What is reported in a state that is reached by additions and removals of formulas.
-/

namespace Smtrat.ICE

open SparsePoly PropFormula ForwardHyperGraph CycleEnumerator CycleCollector VB List Option

universe u v w

variable {V : Type u} {B : Type v} {F : Type w} [DecidableEq V] [LinearOrder F]
  {content : F → Formula (Atom V B)}

/-! ## Reached states -/

/-- The bounds and the constraints are those of received formulas. -/
structure Inv (content : F → Formula (Atom V B)) (s : State V F) : Prop where
  genuine : s.module.mBounds.Genuine
  bounds : ∃ bounds : List (Constraint V × F), s.module.mBounds.Stores bounds ∧
    (bounds.map (·.2)).Nodup ∧
    ∀ p ∈ bounds, p.2 ∈ s.received ∧ literal (content p.2) = some p.1
  constraints : ∀ p ∈ s.module.mConstraints, p.1 ∈ s.received ∧ literal (content p.1) = some p.2
  nonBound : ∀ p ∈ s.module.mConstraints, (boundOf p.2).isSome = false

omit [LinearOrder F] in
theorem initial_inv : Inv content (.initial : State V F) :=
  ⟨VariableBounds.initial_genuine, ⟨[], VariableBounds.initial_stores, nodup_nil, nofun⟩,
    nofun, nofun⟩

theorem Inv.addCore {s s' : State V F} (h : Inv content s) {f : F}
    (hs : s.step content (.addCore f) = some s') : Inv content s' := by
  rw [State.step] at hs
  split_ifs at hs with hf
  obtain ⟨module, hmodule, rfl⟩ := map_eq_some_iff.mp hs
  rw [ICEModule.addFormula] at hmodule
  obtain ⟨bounds, hstor, hnodup, hbds⟩ := h.bounds
  have hkeep : ∀ p ∈ bounds, p.2 ∈ f :: s.received ∧ literal (content p.2) = some p.1 :=
    fun p hp => ⟨mem_cons_of_mem _ (hbds p hp).1, (hbds p hp).2⟩
  have hcons : ∀ p ∈ s.module.mConstraints,
      p.1 ∈ f :: s.received ∧ literal (content p.1) = some p.2 :=
    fun p hp => ⟨mem_cons_of_mem _ (h.constraints p hp).1, (h.constraints p hp).2⟩
  cases hc : literal (content f) with
  | none =>
    rw [hc] at hmodule
    obtain rfl := some.inj hmodule
    exact ⟨h.genuine, ⟨bounds, hstor, hnodup, hkeep⟩, hcons, h.nonBound⟩
  | some c =>
    rw [hc] at hmodule
    obtain ⟨⟨r, b⟩, hb, rfl⟩ := map_eq_some_iff.mp hmodule
    obtain ⟨-, hadds⟩ := VariableBounds.addBound_spec hstor hb
    refine ⟨h.genuine.addBound hstor hb, ⟨_, hadds.stores, ?_, ?_⟩, ?_, ?_⟩
    · split_ifs with hbd
      · rw [map_append, nodup_append]
        refine ⟨hnodup, nodup_singleton _, fun o ho o' ho' => ?_⟩
        obtain ⟨p, hp, rfl⟩ := List.mem_map.mp ho
        rw [mem_singleton.mp ho']
        rintro rfl
        exact hf (hbds p hp).1
      · rwa [append_nil]
    · intro p hp
      rcases mem_append.mp hp with hp | hp
      · exact hkeep p hp
      · split_ifs at hp
        · rw [mem_singleton.mp hp]
          exact ⟨mem_cons_self, hc⟩
        · exact absurd hp not_mem_nil
    · dsimp only
      split_ifs with hbd
      · exact hcons
      · intro p hp
        rcases OrderedMap.mem_emplace hp with hp | rfl
        · exact hcons p hp
        · exact ⟨mem_cons_self, hc⟩
    · dsimp only
      split_ifs with hbd
      · exact h.nonBound
      · intro p hp
        rcases OrderedMap.mem_emplace hp with hp | rfl
        · exact h.nonBound p hp
        · exact Bool.eq_false_iff.mpr hbd

theorem Inv.removeCore {s s' : State V F} (h : Inv content s) {f : F}
    (hs : s.step content (.removeCore f) = some s') : Inv content s' := by
  rw [State.step] at hs
  split_ifs at hs with hf
  obtain ⟨module, hmodule, rfl⟩ := map_eq_some_iff.mp hs
  rw [ICEModule.removeFormula] at hmodule
  obtain ⟨bounds, hstor, hnodup, hbds⟩ := h.bounds
  have hrec {o : F} (ho : o ∈ s.received) (hne : o ≠ f) : o ∈ s.received.filter (· ≠ f) :=
    mem_filter.mpr ⟨ho, decide_eq_true hne⟩
  cases hc : literal (content f) with
  | none =>
    rw [hc] at hmodule
    obtain rfl := some.inj hmodule
    have hne {o : F} {c : Constraint V} (ho : literal (content o) = some c) : o ≠ f := by
      rintro rfl
      rw [hc] at ho
      cases ho
    exact ⟨h.genuine, ⟨bounds, hstor, hnodup,
        fun p hp => ⟨hrec (hbds p hp).1 (hne (hbds p hp).2), (hbds p hp).2⟩⟩,
      fun p hp => ⟨hrec (h.constraints p hp).1 (hne (h.constraints p hp).2),
        (h.constraints p hp).2⟩, h.nonBound⟩
  | some c =>
    rw [hc] at hmodule
    obtain ⟨⟨r, b⟩, hb, rfl⟩ := map_eq_some_iff.mp hmodule
    have hstor' := (VariableBounds.removeBound_spec hstor hb).1
    refine ⟨h.genuine.removeBound hb, ⟨_, hstor', ?_, ?_⟩, ?_, ?_⟩
    · split_ifs with hbd
      · exact hnodup.sublist (eraseP_sublist.map _)
      · exact hnodup
    · intro p hp
      split_ifs at hp with hbd
      · -- the only bound with this origin is erased
        have hmem := mem_of_mem_eraseBound hp
        refine ⟨hrec (hbds p hmem).1 ?_, (hbds p hmem).2⟩
        refine origin_ne_of_mem_eraseBound hnodup (fun q hq hqf => ?_) p hp
        have hqc := (hbds q hq).2
        rw [hqf, hc] at hqc
        rw [some.inj hqc]
      · refine ⟨hrec (hbds p hp).1 ?_, (hbds p hp).2⟩
        rintro hpf
        have hpc := (hbds p hp).2
        rw [hpf, hc] at hpc
        obtain rfl := some.inj hpc
        exact hbd (isSome_iff_ne_none.mpr (hstor.bound p hp))
    · dsimp only
      split_ifs with hbd
      · intro p hp
        refine ⟨hrec (h.constraints p hp).1 ?_, (h.constraints p hp).2⟩
        rintro hpf
        have hpc := (h.constraints p hp).2
        rw [hpf, hc] at hpc
        have hnon := h.nonBound p hp
        rw [← some.inj hpc, hbd] at hnon
        cases hnon
      · intro p hp
        obtain ⟨hp, hne⟩ := OrderedMap.mem_erase.mp hp
        exact ⟨hrec (h.constraints p hp).1 hne, (h.constraints p hp).2⟩
    · dsimp only
      split_ifs with hbd
      · exact h.nonBound
      · exact fun p hp => h.nonBound p (OrderedMap.mem_erase.mp hp).1

theorem inv_of_run {actions : List (Action F)} {s : State V F}
    (h : Run.run (State.step content) .initial actions = some s) : Inv content s := by
  refine Run.run_invariant (P := Inv content) (fun s action s' hs hstep => ?_) initial_inv h
  cases action with
  | addCore f => exact hs.addCore hstep
  | removeCore f => exact hs.removeCore hstep

/-! ## What is reported -/

/-- The infeasible subsets are contradictory sets of received formulas, and the lemmas follow from
their origins, which are conjunctions of received formulas. -/
structure Sound (content : F → Formula (Atom V B)) (received : List F) (o : Outcome V B F) : Prop
    where
  infeasible : ∀ subset ∈ o.mInfeasibleSubsets, (∀ f ∈ subset, f ∈ received) ∧
    ¬ ∃ a : Assignment V B, ∀ f ∈ subset, a.Satisfies (content f)
  lemmas : ∀ p ∈ o.passed, (∃ fs : List F, (∀ f ∈ fs, f ∈ received) ∧ p.2 = .app .and (fs.map content)) ∧
    ∀ a : Assignment V B, a.Satisfies p.2 → a.Satisfies p.1

/-- The cycles from which something is concluded: the first one that is a conflict, and otherwise
those that hold with equality. -/
def concluding (cycles : List (Circuit (EdgeProperty F))) : List (Circuit (EdgeProperty F)) :=
  match cycles.find? isConflict with
  | some cycle => [cycle]
  | none => cycles.filter isTight

/-- The cycles that the module concludes something from. -/
def concludingCycles (content : F → Formula (Atom V B)) (lib : IntervalLibrary) (fuel : ℕ)
    (s : ICEModule V F) : List (Circuit (EdgeProperty F)) :=
  if s.mBounds.isConflicting then []
  else
    let graph := ICEModule.buildGraph lib s.mBounds s.mConstraints
    concluding ((visited graph (CycleCollector.call content graph) fuel .new).getD [])

/-- What the collector has gathered from cycles. -/
structure Gathered (content : F → Formula (Atom V B)) (g : FHG V F) (c : CycleCollector V B F)
    (cycles : List (Circuit (EdgeProperty F))) (aborted : Bool) : Prop where
  isCycle : ∀ cycle ∈ cycles, g.IsCycle cycle
  running : aborted = false → c.mInfeasibleSubset = [] ∧ cycles.find? isConflict = none ∧
    c.mLemmas = (cycles.filter isTight).flatMap fun cycle =>
      (CycleCollector.lemmas g cycle).map (·, buildFormula content cycle.edges)
  stopped : aborted = true → ∃ cycle, cycles.find? isConflict = some cycle ∧
    c.mInfeasibleSubset = cycle.edges.map fun edge => edge.mProperty.constraint

omit [DecidableEq V] [LinearOrder F] in
theorem gathered_call {g : FHG V F} {c : CycleCollector V B F}
    {cycles : List (Circuit (EdgeProperty F))} {cycle : Circuit (EdgeProperty F)}
    (hcycle : g.IsCycle cycle) (h : Gathered content g c cycles false) :
    Gathered content g (CycleCollector.call content g c cycle).2 (cycles ++ [cycle])
      (CycleCollector.call content g c cycle).1 := by
  obtain ⟨hsub, hfind, hlemmas⟩ := h.running rfl
  have hcycles : ∀ cycle' ∈ cycles ++ [cycle], g.IsCycle cycle' := by
    intro cycle' hmem
    rcases mem_append.mp hmem with hmem | hmem
    · exact h.isCycle cycle' hmem
    · rwa [mem_singleton.mp hmem]
  have hstop (hconf : isConflict cycle) : (cycles ++ [cycle]).find? isConflict = some cycle := by
    rw [find?_append, hfind, none_or, find?_cons_of_pos hconf]
  have hgo (hno : isConflict cycle = false) : (cycles ++ [cycle]).find? isConflict = none := by
    rw [find?_append, hfind, none_or, find?_cons_of_neg (Bool.eq_false_iff.mp hno), find?_nil]
  rw [CycleCollector.call]
  dsimp only
  split_ifs with hzero hstr hpos
  · refine ⟨hcycles, fun h => (by cases h), fun _ => ⟨cycle, hstop ?_, rfl⟩⟩
    simp [isConflict, hzero, hstr]
  · have hstr := Bool.eq_false_iff.mpr hstr
    refine ⟨hcycles, fun _ => ⟨hsub, hgo ?_, ?_⟩, fun h => by cases h⟩
    · simp [isConflict, hzero, hstr]
    · have htight : isTight cycle := by simp [isTight, hzero, hstr]
      dsimp only
      rw [hlemmas, filter_append, filter_cons_of_pos htight, flatMap_append]
      simp
  · refine ⟨hcycles, fun _ => ⟨hsub, hgo ?_, ?_⟩, fun h => by cases h⟩
    · simp [isConflict, hzero, hpos.le]
    · have htight : ¬ isTight cycle := by simp [isTight, hzero]
      rw [hlemmas, filter_append, filter_cons_of_neg htight, filter_nil, append_nil]
  · refine ⟨hcycles, fun h => (by cases h), fun _ => ⟨cycle, hstop ?_, rfl⟩⟩
    have hneg := lt_of_le_of_ne (not_lt.mp hpos) hzero
    simp [isConflict, hneg]

section Main

variable {lib : IntervalLibrary} {s : State V F}

omit [LinearOrder F] in
theorem Inv.graphOf (h : Inv content s) (hnorm : ∀ f ∈ s.received, ∀ c,
    literal (content f) = some c → (c.lhs.map (·.monomial)).Nodup) :
    GraphOf content lib s.module.mBounds s.module.mConstraints
      (ICEModule.buildGraph lib s.module.mBounds s.module.mConstraints) where
  built := built_buildGraph _
  literals p hp := (h.constraints p hp).2
  normal p hp := hnorm p.1 (h.constraints p hp).1 p.2 (h.constraints p hp).2

omit [LinearOrder F] in
/-- The edges of a cycle belong to received formulas. -/
theorem Inv.received_of_cycle (h : Inv content s) {cycle : Circuit (EdgeProperty F)}
    (hcycle : IsCycle (ICEModule.buildGraph lib s.module.mBounds s.module.mConstraints) cycle) :
    ∀ edge ∈ cycle.edges, edge.mProperty.constraint ∈ s.received := by
  intro edge hedge
  rw [← (map_steps hcycle).2.2] at hedge
  obtain ⟨p, hp, rfl⟩ := List.mem_map.mp hedge
  obtain ⟨c, e, hmem, -⟩ :=
    ((built_buildGraph s.module.mConstraints).edges _ _ (mem_steps hcycle p hp).1).exists_hyperedge
  exact (h.constraints _ hmem).1

/-- The conflict of the bounds is one of received formulas. -/
theorem Inv.sound_getConflict (h : Inv content s) (hconf : s.module.mBounds.isConflicting) :
    Sound content s.received ⟨.unsat, [s.module.mBounds.getConflict], []⟩ := by
  obtain ⟨bounds, hstor, -, hbds⟩ := h.bounds
  obtain ⟨p, hp, q, hq, hconflict, hno⟩ := hstor.getConflict h.genuine hconf
  refine ⟨fun subset hsub => ?_, nofun⟩
  rw [mem_singleton.mp hsub, hconflict]
  constructor
  · intro f hf
    rcases mem_pair.mp hf with rfl | rfl
    · exact (hbds p hp).1
    · exact (hbds q hq).1
  · rintro ⟨a, ha⟩
    refine hno a.arith ⟨?_, ?_⟩
    · exact (satisfies_literal (hbds p hp).2 a).mp (ha _ mem_cons_self)
    · exact (satisfies_literal (hbds q hq).2 a).mp (ha _ (mem_cons_of_mem _ mem_cons_self))

/-- What is reported is right if and only if, for each cycle that something is concluded from, the signs
that were taken from bounds follow from the constraints on the cycle. -/
theorem processConstraints_sound_iff (content : F → Formula (Atom V B)) (lib : IntervalLibrary)
    (actions : List (Action F)) (s : State V F)
    (h : Run.run (State.step content) .initial actions = some s)
    (hnormal : ∀ f ∈ s.received, ∀ c, literal (content f) = some c →
      (c.lhs.map (·.monomial)).Nodup) (fuel : ℕ) (o : Outcome V B F)
    (ho : s.module.processConstraints content lib fuel = some o) :
    Sound content s.received o ↔ ∀ cycle ∈ concludingCycles content lib fuel s.module,
      SignsImplied content lib s.module.mBounds
        (ICEModule.buildGraph lib s.module.mBounds s.module.mConstraints) cycle := by
  have hinv := inv_of_run h
  rw [ICEModule.processConstraints] at ho
  rw [concludingCycles]
  split_ifs at ho ⊢ with hconf
  · obtain rfl := some.inj ho
    exact iff_of_true (hinv.sound_getConflict hconf) fun cycle hcycle => absurd hcycle not_mem_nil
  · obtain ⟨enumerator, hfind, rfl⟩ := map_eq_some_iff.mp ho
    have hgraph : GraphOf content lib s.module.mBounds s.module.mConstraints
        (ICEModule.buildGraph lib s.module.mBounds s.module.mConstraints) := hinv.graphOf hnormal
    have hrec : ∀ cycle, IsCycle
        (ICEModule.buildGraph lib s.module.mBounds s.module.mConstraints) cycle →
        ∀ edge ∈ cycle.edges, edge.mProperty.constraint ∈ s.received :=
      fun cycle hcycle => hinv.received_of_cycle hcycle
    generalize ICEModule.buildGraph lib s.module.mBounds s.module.mConstraints = graph at *
    obtain ⟨cycles, hcycles, hgathered⟩ :=
      exists_visited (Q := Gathered content graph) ⟨nofun, fun _ => ⟨rfl, rfl, rfl⟩, nofun⟩
        (fun c cycles cycle hcycle hQ => gathered_call hcycle hQ) hfind
    dsimp only
    rw [hcycles, getD_some, concluding]
    cases hstop : enumerator.mAborted with
    | true =>
      obtain ⟨cycle, hfst, hsub⟩ := hgathered.stopped hstop
      have hcycle := hgathered.isCycle cycle (mem_of_find?_eq_some hfst)
      have hne : (cycle.edges.map fun edge => edge.mProperty.constraint).isEmpty = false := by
        rw [isEmpty_eq_false_iff, Ne, map_eq_nil_iff, ← length_eq_zero_iff,
          ← length_of_cycle hcycle, length_eq_zero_iff]
        exact hcycle.choose_spec.2
      rw [hfst, hsub, hne]
      simp only [Bool.not_false, if_true, forall_mem_singleton]
      rw [← conflict_iff hgraph hcycle (find?_some hfst)]
      constructor
      · rintro hsound ⟨a, ha⟩
        exact (hsound.infeasible _ (mem_singleton_self _)).2 ⟨a, List.forall_mem_map.mpr ha⟩
      · intro hno
        refine ⟨fun subset hmem => ?_, nofun⟩
        rw [mem_singleton.mp hmem, List.forall_mem_map]
        refine ⟨hrec cycle hcycle, ?_⟩
        rintro ⟨a, ha⟩
        exact hno ⟨a, fun edge hedge => ha _ (List.mem_map.mpr ⟨edge, hedge, rfl⟩)⟩
    | false =>
      obtain ⟨hsub, hnone, hlemmas⟩ := hgathered.running hstop
      rw [hnone, hsub, hlemmas]
      simp only [isEmpty_nil, Bool.not_true, Bool.false_eq_true, if_false]
      have htight (cycle) (hmem : cycle ∈ cycles.filter isTight) :=
        lemmas_iff hgraph (hgathered.isCycle cycle (mem_filter.mp hmem).1) (mem_filter.mp hmem).2
      constructor
      · intro hsound cycle hmem
        refine (htight cycle hmem).mp fun a ha f hf => ?_
        have hpass := hsound.lemmas (f, buildFormula content cycle.edges)
          (mem_flatMap.mpr ⟨cycle, hmem, List.mem_map.mpr ⟨f, hf, rfl⟩⟩)
        exact hpass.2 a ((satisfies_buildFormula a).mpr ha)
      · intro hsigns
        refine ⟨nofun, fun p hp => ?_⟩
        obtain ⟨cycle, hmem, hp⟩ := mem_flatMap.mp hp
        obtain ⟨f, hf, rfl⟩ := List.mem_map.mp hp
        have hcycle := hgathered.isCycle cycle (mem_filter.mp hmem).1
        refine ⟨⟨cycle.edges.map fun edge => edge.mProperty.constraint, ?_, ?_⟩, fun a ha => ?_⟩
        · exact List.forall_mem_map.mpr (hrec cycle hcycle)
        · rw [List.map_map]
          rfl
        · exact (htight cycle hmem).mpr (hsigns cycle hmem) a ((satisfies_buildFormula a).mp ha) f hf

end Main

section Example

/-- Intervals of products with more than one factor are not bounded. -/
def exampleIntervals : IntervalLibrary where
  point q := ⟨some (q, false), some (q, false)⟩
  mul i j :=
    if i = ⟨some (1, false), some (1, false)⟩ then j
    else if j = ⟨some (1, false), some (1, false)⟩ then i else ⟨none, none⟩
  pow i k := if k = 1 then i else ⟨none, none⟩
  scale i q :=
    if q = 0 then ⟨some (0, false), some (0, false)⟩
    else if 0 < q then ⟨i.lower.map fun l => (l.1 * q, l.2), i.upper.map fun u => (u.1 * q, u.2)⟩
    else ⟨i.upper.map fun u => (u.1 * q, u.2), i.lower.map fun l => (l.1 * q, l.2)⟩
  isZero i := i.lower = some (0, false) && i.upper = some (0, false)
  isSemiPositive i := i.lower.any fun l => 0 ≤ l.1
  isSemiNegative i := i.upper.any fun u => u.1 ≤ 0

/-- `p ~ 0` for the sum `p` of multiples of variables and a constant. -/
def exampleConstraint (summands : List (ℚ × ℕ)) (k : ℚ) (relation : Relation) :
    Formula (Atom ℕ ℕ) :=
  .atom (.constraint ⟨summands.map (fun p => ⟨p.1, [(p.2, 1)]⟩) ++ [⟨k, []⟩], relation⟩)

/-- Two variables that are not negative, and each is at most the other. -/
def equalContent : ℕ → Formula (Atom ℕ ℕ)
  | 0 => exampleConstraint [(1, 0)] 0 .geq
  | 1 => exampleConstraint [(1, 1)] 0 .geq
  | 2 => exampleConstraint [(1, 0), (-1, 1)] 0 .geq
  | _ => .app .not [exampleConstraint [(1, 1), (-1, 0)] 0 .less]

def equalActions : List (Action ℕ) := [.addCore 0, .addCore 1, .addCore 2, .addCore 3]

theorem processConstraints_sound_iff_equal : ∃ (s : State ℕ ℕ) (o : Outcome ℕ ℕ ℕ),
    Run.run (State.step equalContent) .initial equalActions = some s ∧
      s.module.processConstraints equalContent exampleIntervals 4 = some o ∧
      (Sound equalContent s.received o ↔
        ∀ cycle ∈ concludingCycles equalContent exampleIntervals 4 s.module,
          SignsImplied equalContent exampleIntervals s.module.mBounds
            (ICEModule.buildGraph exampleIntervals s.module.mBounds s.module.mConstraints) cycle) := by
  have hrun : (Run.run (State.step equalContent) .initial equalActions).isSome := by
    decide +kernel
  obtain ⟨s, hs⟩ := isSome_iff_exists.mp hrun
  have hproc : ((Run.run (State.step equalContent) .initial equalActions).bind fun s =>
      s.module.processConstraints equalContent exampleIntervals 4).isSome := by
    decide +kernel
  rw [hs, bind_some] at hproc
  obtain ⟨o, ho⟩ := isSome_iff_exists.mp hproc
  refine ⟨s, o, hs, ho, processConstraints_sound_iff equalContent exampleIntervals equalActions s hs
    (fun f _ c hc => ?_) 4 o ho⟩
  match f with
  | 0 | 1 | 2 | n + 3 =>
    obtain rfl := some.inj hc
    decide

/-- Three variables that are not negative, `x0 >= x1 + x2 + 1` and `x1 >= x0`. -/
def leftOutContent : ℕ → Formula (Atom ℕ ℕ)
  | 0 => exampleConstraint [(1, 0)] 0 .geq
  | 1 => exampleConstraint [(1, 1)] 0 .geq
  | 2 => exampleConstraint [(1, 2)] 0 .geq
  | 3 => exampleConstraint [(1, 0), (-1, 1), (-1, 2)] (-1) .geq
  | _ => exampleConstraint [(1, 1), (-1, 0)] 0 .geq

def leftOutActions : List (Action ℕ) :=
  [.addCore 0, .addCore 1, .addCore 2, .addCore 3, .addCore 4]

/-- That `x2` is not negative is missing in the infeasible subset. -/
theorem not_processConstraints_sound : ¬ ∀ (content : ℕ → Formula (Atom ℕ ℕ))
    (lib : IntervalLibrary) (actions : List (Action ℕ)) (s : State ℕ ℕ),
      Run.run (State.step content) .initial actions = some s →
      (∀ f ∈ s.received, ∀ c, literal (content f) = some c → (c.lhs.map (·.monomial)).Nodup) →
      ∀ (fuel : ℕ) (o : Outcome ℕ ℕ ℕ), s.module.processConstraints content lib fuel = some o →
        Sound content s.received o := by
  intro hall
  have hrun : (Run.run (State.step leftOutContent) .initial leftOutActions).isSome := by
    decide +kernel
  obtain ⟨s, hs⟩ := isSome_iff_exists.mp hrun
  have hproc : ((Run.run (State.step leftOutContent) .initial leftOutActions).bind fun s =>
      (s.module.processConstraints leftOutContent exampleIntervals 4).map (·.mInfeasibleSubsets))
        = some [[3, 4]] := by
    decide +kernel
  rw [hs, bind_some] at hproc
  obtain ⟨o, ho, hsubs⟩ := map_eq_some_iff.mp hproc
  have hsound := hall leftOutContent exampleIntervals leftOutActions s hs (fun f _ c hc => ?_) 4 o ho
  · refine (hsound.infeasible [3, 4] (hsubs ▸ mem_singleton_self _)).2
      ⟨⟨fun x => if x = 2 then -1 else 0, fun _ => false, fun _ => false⟩, fun f hf => ?_⟩
    rcases mem_pair.mp hf with rfl | rfl
    · simp [leftOutContent, exampleConstraint, Atom.Holds, Constraint.Sat, Relation.evaluate,
        Term.eval]
    · simp [leftOutContent, exampleConstraint, Atom.Holds, Constraint.Sat, Relation.evaluate,
        Term.eval]
  · rcases f with - | - | - | - | n <;>
    · obtain rfl := some.inj hc
      decide

end Example

end Smtrat.ICE
