import Smtrat.Solver.Backtracking

/-!
# Matching pushes and pops

A pop takes back what was done since the matching push, however often formulas were asserted, and
whatever was pushed and popped in between.  Formulas and objectives that are removed explicitly
are not put back, and the removal of those that a backtrack point refers to is excluded.
-/

namespace Smtrat

open PropFormula SparsePoly List Option

universe u v w

namespace Manager

variable {U : Type u} {B : Type v} {β : Type w}

/-- What a user of the solver does. -/
inductive Action (U : Type u) (B : Type v) where
  | add (f : Formula (Atom (SolverVariable U) B)) (containsUnknownConstraints : Bool)
  | push
  | pop
  | addObjective (objective : Poly (SolverVariable U) ℚ) (minimize : Bool)
  | removeObjective (objective : Poly (SolverVariable U) ℚ)
  /-- The formula at a position is removed. -/
  | remove (it : Nat)
  | check (full : Bool)

variable [DecidableEq U] [DecidableEq B] (bk : Backend U B β) (int : U → Bool)
  (pool : ConstraintPool (SolverVariable U) B)

def step (m : Manager U B β) : Action U B → Option (Manager U B β)
  | .add f b => some (m.add bk f b).2
  | .push => some m.push
  | .pop => some (m.pop bk int).2
  | .addObjective p b => some (m.addObjective int p b)
  | .removeObjective p => some (m.removeObjective p)
  | .remove it => if (m.mpPassedFormula.element it).isSome then some (m.remove bk it) else none
  | .check full => (m.check bk pool int full).map (·.2)

/-- Actions where every push is followed by its pop, and nothing else is popped. -/
inductive Balanced : List (Action U B) → Prop
  | nil : Balanced []
  | cons {a : Action U B} {as : List (Action U B)} (hpush : a ≠ .push) (hpop : a ≠ .pop) :
      Balanced as → Balanced (a :: as)
  | level {as bs : List (Action U B)} : Balanced as → Balanced bs →
      Balanced (.push :: (as ++ .pop :: bs))

/-- The positions of the formulas that are removed explicitly. -/
def removedIn (as : List (Action U B)) : List Nat :=
  as.filterMap fun
    | .remove it => some it
    | _ => none

/-- No formula is removed that a backtrack point refers to, and an objective only if it was added
after the last push. -/
def KeepsBacktrackPoints (m : Manager U B β) : Action U B → Prop
  | .remove it => ∀ p ∈ m.mBacktrackPoints, p.1 ≠ some it
  | .removeObjective f => ∀ p ∈ m.mBacktrackPoints.head?,
      (∃ o ∈ m.mObjectives.drop (p.2 + 1).toNat, o.function = f) ∨
        ∀ o ∈ m.mObjectives, o.function ≠ f
  | _ => True

instance (m : Manager U B β) (a : Action U B) : Decidable (m.KeepsBacktrackPoints a) := by
  cases a <;> unfold KeepsBacktrackPoints <;> infer_instance

variable {es : List (FormulaWithOrigins (Atom (SolverVariable U) B))} {os : List (Objective U)}
  {points : List (Option Nat × Int)} {m : Manager U B β}

/-! ## Explicit removals -/

omit [DecidableEq U] [DecidableEq B] in
theorem lastPosition_filter {q : Nat → Prop} [DecidablePred q] (h : ∀ i ∈ lastPosition es, q i) :
    lastPosition (es.filter fun e => q e.position) = lastPosition es := by
  rcases eq_nil_or_concat' es with rfl | ⟨es, e, rfl⟩
  · rfl
  · have he : q e.position := h _ (by rw [lastPosition, getLast?_concat]; rfl)
    rw [lastPosition, lastPosition, filter_append, filter_singleton, decide_eq_true he]
    simp

theorem Based.remove (h : m.Based es os points) {it : Nat}
    (hit : (m.mpPassedFormula.element it).isSome) (hk : m.KeepsBacktrackPoints (.remove it)) :
    (m.remove bk it).Based (es.filter (·.position ≠ it)) os points := by
  obtain ⟨e, he⟩ := isSome_iff_exists.mp hit
  have hmem : e ∈ m.mpPassedFormula.elements := mem_of_find?_eq_some he
  obtain rfl : e.position = it := by simpa using find?_some he
  obtain ⟨above, hes⟩ := h.elements
  have hlast : lastPosition (es.filter (·.position ≠ e.position)) = lastPosition es := by
    refine lastPosition_filter (q := (· ≠ e.position)) fun i hi hie => ?_
    have hne := hk _ (h.points ▸ mem_cons_self)
    exact hne (hi.trans (congrArg some hie))
  rw [remove_eq bk h.wellFormed hmem]
  refine ⟨h.wellFormed.erase hmem rfl, ?_, ⟨above.filter (·.position ≠ e.position), ?_⟩,
    h.objectives⟩
  · rw [hlast]
    exact h.points
  · have herase := h.wellFormed.elements_erase hmem
    rw [hes, filter_append] at herase
    exact herase

omit [DecidableEq B] in
theorem Based.removeObjective (h : m.Based es os points) {f : Poly (SolverVariable U) ℚ}
    (hk : m.KeepsBacktrackPoints (.removeObjective f : Action U B)) :
    (m.removeObjective f).Based es os points := by
  obtain ⟨above, hos⟩ := h.objectives
  refine ⟨h.wellFormed, h.points, h.elements, ?_⟩
  have hpoint := hk _ (by rw [h.points]; rfl)
  have hlen : ((os.length : Int) - 1 + 1).toNat = os.length := by omega
  rw [hlen, hos, drop_left] at hpoint
  rcases hpoint with ⟨o, ho, hf⟩ | hnone
  · have hany : ∃ o ∈ above.reverse, (decide (o.function = f)) = true :=
      ⟨o, mem_reverse.mpr ho, decide_eq_true hf⟩
    refine ⟨(above.reverse.eraseP fun o => o.function = f).reverse, ?_⟩
    rw [Manager.removeObjective, hos, reverse_append]
    simp only
    obtain ⟨o', ho', hf'⟩ := hany
    rw [eraseP_append_left (p := fun o => o.function = f) hf' _ ho', reverse_append,
      reverse_reverse]
  · refine ⟨above, ?_⟩
    rw [Manager.removeObjective, hos]
    simp only
    rw [eraseP_of_forall_not, reverse_reverse]
    intro o ho
    simpa using hnone o (mem_reverse.mp ho)

omit [DecidableEq U] [DecidableEq B] in
theorem Based.addObjective (h : m.Based es os points) (p : Poly (SolverVariable U) ℚ) (b : Bool) :
    (m.addObjective int p b).Based es os points := by
  obtain ⟨above, hos⟩ := h.objectives
  rw [Manager.addObjective]
  split_ifs <;> split <;>
    exact ⟨h.wellFormed, h.points, h.elements, ⟨above ++ [_], by
      dsimp only
      rw [hos, append_assoc]⟩⟩

/-! ## Runs -/

/-- The formulas of `es` that are not removed explicitly. -/
def kept (as : List (Action U B)) (es : List (FormulaWithOrigins (Atom (SolverVariable U) B))) :
    List (FormulaWithOrigins (Atom (SolverVariable U) B)) :=
  es.filter (·.position ∉ removedIn as)

omit [DecidableEq U] [DecidableEq B] in
theorem removedIn_append (as bs : List (Action U B)) :
    removedIn (as ++ bs) = removedIn as ++ removedIn bs :=
  filterMap_append

omit [DecidableEq U] [DecidableEq B] in
theorem kept_nil (es : List (FormulaWithOrigins (Atom (SolverVariable U) B))) :
    kept ([] : List (Action U B)) es = es := by
  simp [kept, removedIn]

omit [DecidableEq U] [DecidableEq B] in
theorem kept_append (as bs : List (Action U B))
    (es : List (FormulaWithOrigins (Atom (SolverVariable U) B))) :
    kept (as ++ bs) es = kept bs (kept as es) := by
  rw [kept, kept, kept, List.filter_filter, removedIn_append]
  refine filter_congr fun e _ => ?_
  simp [Bool.and_comm]

omit [DecidableEq U] [DecidableEq B] in
/-- A backtrack point still refers to the last formula, when no such formula is removed. -/
theorem Based.lastPosition_kept (h : m.Based es os points) {as : List (Action U B)}
    (hrem : ∀ it ∈ removedIn as, ∀ p ∈ m.mBacktrackPoints, p.1 ≠ some it) :
    lastPosition (kept as es) = lastPosition es := by
  refine lastPosition_filter (q := (· ∉ removedIn as)) fun i hi hr => ?_
  exact hrem i hr _ (h.points ▸ mem_cons_self) hi

omit [DecidableEq U] [DecidableEq B] in
theorem kept_singleton (a : Action U B)
    (es : List (FormulaWithOrigins (Atom (SolverVariable U) B))) :
    kept [a] es = match a with
      | .remove it => es.filter (·.position ≠ it)
      | _ => es := by
  cases a <;> simp [kept, removedIn]

/-- An action other than a push or a pop stays above the last backtrack point, and it removes no
formula that a backtrack point refers to. -/
theorem Based.action {m' : Manager U B β} {a : Action U B} (h : m.Based es os points)
    (hpush : a ≠ .push) (hpop : a ≠ .pop) (hk : m.KeepsBacktrackPoints a)
    (hs : step bk int pool m a = some m') :
    m'.Based (kept [a] es) os points ∧
      ∀ it ∈ removedIn [a], ∀ p ∈ m.mBacktrackPoints, p.1 ≠ some it := by
  rw [kept_singleton]
  cases a with
  | add f b =>
    cases hs
    exact ⟨h.add bk f b, nofun⟩
  | push => exact absurd rfl hpush
  | pop => exact absurd rfl hpop
  | addObjective p b =>
    cases hs
    exact ⟨h.addObjective int p b, nofun⟩
  | removeObjective p =>
    cases hs
    exact ⟨h.removeObjective hk, nofun⟩
  | remove it =>
    rw [Manager.step, ite_none_right_eq_some] at hs
    obtain ⟨hit, hs⟩ := hs
    cases hs
    refine ⟨h.remove bk hit hk, fun i hi => ?_⟩
    obtain rfl : i = it := mem_singleton.mp hi
    exact hk
  | check full =>
    obtain ⟨⟨answer, m₁⟩, hc, rfl⟩ := map_eq_some_iff.mp hs
    exact ⟨(check_restored bk int pool full h.wellFormed hc).based h, nofun⟩

/-- Balanced actions stay above the last backtrack point. -/
theorem Based.balanced {as : List (Action U B)} (hb : Balanced as) {m m' : Manager U B β}
    (h : m.Based es os points)
    (hr : Run.run (Run.guarded KeepsBacktrackPoints (step bk int pool)) m as = some m') :
    m'.Based (kept as es) os points ∧
      ∀ it ∈ removedIn as, ∀ p ∈ m.mBacktrackPoints, p.1 ≠ some it := by
  induction hb generalizing es os points m m' with
  | nil =>
    cases hr
    exact ⟨by rwa [kept_nil], nofun⟩
  | @cons a as hpush hpop hb ih =>
    obtain ⟨m₁, h₁, hr⟩ := Run.run_cons.mp hr
    obtain ⟨hk, h₁⟩ := Run.guarded_eq_some.mp h₁
    obtain ⟨hstep, hrem⟩ := h.action bk int pool hpush hpop hk h₁
    obtain ⟨hrun, hrem'⟩ := ih hstep hr
    have hcons : a :: as = [a] ++ as := rfl
    rw [hcons, kept_append]
    refine ⟨hrun, fun it hit => ?_⟩
    rw [removedIn_append, mem_append] at hit
    rcases hit with hit | hit
    · exact hrem it hit
    · have hpts : m₁.mBacktrackPoints = m.mBacktrackPoints := by
        rw [hstep.points, h.lastPosition_kept hrem, h.points]
      exact hpts ▸ hrem' it hit
  | @level as bs hb hb' ih ih' =>
    obtain ⟨m₁, h₁, hr⟩ := Run.run_cons.mp hr
    obtain ⟨-, h₁⟩ := Run.guarded_eq_some.mp h₁
    cases h₁
    obtain ⟨m₂, h₂, hr⟩ := Run.run_append.mp hr
    obtain ⟨m₃, h₃, hr⟩ := Run.run_cons.mp hr
    obtain ⟨-, h₃⟩ := Run.guarded_eq_some.mp h₃
    cases h₃
    -- the inner level is taken back up to what is removed from below it
    obtain ⟨hlev, hrem⟩ := ih (Restored.refl h.wellFormed).push h₂
    have hinner := hlev.pop bk int
    have hbelow : ∀ it ∈ removedIn as, ∀ p ∈ m.mBacktrackPoints, p.1 ≠ some it :=
      fun it hit p hp => hrem it hit p (mem_cons_of_mem _ hp)
    have hbase : (m₂.pop bk int).2.Based (kept as es) os points := by
      obtain ⟨above, hes⟩ := h.elements
      refine ⟨hinner.wellFormed, ?_, ⟨kept as above, ?_⟩, hinner.objectives ▸ h.objectives⟩
      · rw [hinner.points, h.points, h.lastPosition_kept hbelow]
      · rw [hinner.elements, hes, kept, filter_append]
        rfl
    obtain ⟨hrun, hrem'⟩ := ih' hbase hr
    have hpts : (m₂.pop bk int).2.mBacktrackPoints = m.mBacktrackPoints := hinner.points
    have hsplit : removedIn (.push :: (as ++ .pop :: bs)) = removedIn (as ++ bs) := by
      simp [removedIn]
    have hkept : kept (.push :: (as ++ .pop :: bs)) es = kept bs (kept as es) := by
      rw [← kept_append, kept, kept, hsplit]
    rw [hkept]
    refine ⟨hrun, fun it hit => ?_⟩
    rw [hsplit, removedIn_append, mem_append] at hit
    rcases hit with hit | hit
    · exact hbelow it hit
    · exact hpts ▸ hrem' it hit

/-! ## Reachable states -/

theorem popFormulas_wellFormed {point : Option Nat} {n : Nat}
    (hm : m.mpPassedFormula.WellFormed) :
    (popFormulas bk point n m).mpPassedFormula.WellFormed := by
  induction n generalizing m with
  | zero => exact hm
  | succ n ih =>
    cases h : m.mpPassedFormula.elements.getLast? with
    | none => rwa [popFormulas, h]
    | some e =>
      rw [popFormulas_last bk h]
      split_ifs
      · exact hm
      · rw [remove_eq bk hm (mem_of_getLast? h)]
        exact ih (hm.erase (mem_of_getLast? h) rfl)

omit [DecidableEq U] [DecidableEq B] in
theorem popObjectives_passed (mark pos : Int) (n : Nat) :
    (popObjectives int mark n pos m).mpPassedFormula = m.mpPassedFormula := by
  induction n generalizing m pos with
  | zero => rfl
  | succ n ih =>
    cases h : m.mObjectives.getLast? with
    | none => rw [popObjectives, h]
    | some o =>
      rw [popObjectives_last int h]
      split_ifs
      · rfl
      · rw [ih, reuse]
        split_ifs <;> rfl

theorem pop_wellFormed (hm : m.mpPassedFormula.WellFormed) :
    (m.pop bk int).2.mpPassedFormula.WellFormed := by
  rw [pop]
  split
  case h_1 => exact hm
  case h_2 =>
    dsimp only
    rw [popObjectives_passed]
    exact popFormulas_wellFormed bk hm

theorem step_wellFormed (m : Manager U B β) (a : Action U B) (m' : Manager U B β)
    (hm : m.mpPassedFormula.WellFormed) (hs : step bk int pool m a = some m') :
    m'.mpPassedFormula.WellFormed := by
  cases a with
  | add f b =>
    cases hs
    rw [(add_passed bk m f b).1]
    exact (ModuleInput.add_shared_none hm f true).1
  | push =>
    cases hs
    exact hm
  | pop =>
    cases hs
    exact pop_wellFormed bk int hm
  | addObjective p b =>
    cases hs
    rw [addObjective]
    split_ifs <;> split <;> exact hm
  | removeObjective p =>
    cases hs
    exact hm
  | remove it =>
    rw [step, ite_none_right_eq_some] at hs
    obtain ⟨hit, hs⟩ := hs
    cases hs
    obtain ⟨e, he⟩ := isSome_iff_exists.mp hit
    have hmem : e ∈ m.mpPassedFormula.elements := mem_of_find?_eq_some he
    obtain rfl : e.position = it := by simpa using find?_some he
    rw [remove_eq bk hm hmem]
    exact hm.erase hmem rfl
  | check full =>
    obtain ⟨⟨answer, m₁⟩, hc, rfl⟩ := map_eq_some_iff.mp hs
    exact (check_restored bk int pool full hm hc).wellFormed

/-- After a pop the formulas with their origins are those at the matching push that have not been
removed explicitly, whatever has been asserted again, and the objectives are those at the push. -/
theorem pop_restores (s : β) (before between : List (Action U B)) (m m' : Manager U B β)
    (hb : Balanced between)
    (hm : Run.run (Run.guarded KeepsBacktrackPoints (step bk int pool)) (initial s) before = some m)
    (hm' : Run.run (Run.guarded KeepsBacktrackPoints (step bk int pool)) m
      (.push :: (between ++ [.pop])) = some m') :
    m'.mpPassedFormula.elements
        = m.mpPassedFormula.elements.filter (·.position ∉ removedIn between) ∧
      m'.mObjectives = m.mObjectives ∧
      ∀ e ∈ m.mpPassedFormula.elements, e.position ∉ removedIn between →
        e.mFormula ∈ m'.received := by
  have hwf : m.mpPassedFormula.WellFormed := by
    refine Run.run_invariant (P := fun m => m.mpPassedFormula.WellFormed) (fun m a m' hm hs => ?_)
      ModuleInput.empty_wellFormed hm
    exact step_wellFormed bk int pool m a m' hm (Run.guarded_eq_some.mp hs).2
  obtain ⟨m₁, h₁, hr⟩ := Run.run_cons.mp hm'
  obtain ⟨-, h₁⟩ := Run.guarded_eq_some.mp h₁
  cases h₁
  obtain ⟨m₂, h₂, hr⟩ := Run.run_append.mp hr
  obtain ⟨m₃, h₃, hr⟩ := Run.run_cons.mp hr
  obtain ⟨-, h₃⟩ := Run.guarded_eq_some.mp h₃
  cases h₃
  cases hr
  obtain ⟨hlev, -⟩ := (Restored.refl hwf).push.balanced bk int pool hb h₂
  have hpop := hlev.pop bk int
  refine ⟨hpop.elements, hpop.objectives, fun e he hkept => ?_⟩
  have he' : e ∈ kept between m.mpPassedFormula.elements :=
    mem_filter.mpr ⟨he, decide_eq_true hkept⟩
  exact List.mem_map_of_mem (hpop.elements ▸ he')

/-- A backend that keeps nothing and answers `UNKNOWN`. -/
def idleBackend : Backend Nat Nat Unit where
  inform _ s := s
  add _ s := (true, s)
  remove _ s := s
  checkCore _ _ _ _ s := (.unknown, s)
  getBackendsModel _ _ := none

/-- The formula `0` is asserted again above the backtrack point, and then removed. -/
theorem pop_restores_twice_asserted :
    ∃ m m', Run.run (Run.guarded KeepsBacktrackPoints
        (step idleBackend (fun _ => false) (.verbatim _ _))) (initial ())
          [.add (.atom (.bool 0)) true, .add (.atom (.bool 1)) true] = some m ∧
      Run.run (Run.guarded KeepsBacktrackPoints
        (step idleBackend (fun _ => false) (.verbatim _ _))) m
          (.push :: ([.add (.atom (.bool 0)) true, .add (.atom (.bool 2)) true, .push, .pop,
            .remove 0] ++ [.pop])) = some m' ∧
      m'.mpPassedFormula.elements = m.mpPassedFormula.elements.filter (·.position ∉ [0]) := by
  have hsome : (Run.run (Run.guarded KeepsBacktrackPoints
      (step idleBackend (fun _ => false) (.verbatim _ _))) (initial ())
        [.add (.atom (.bool 0)) true, .add (.atom (.bool 1)) true]).any fun m =>
      (Run.run (Run.guarded KeepsBacktrackPoints
        (step idleBackend (fun _ => false) (.verbatim _ _))) m
          (.push :: ([.add (.atom (.bool 0)) true, .add (.atom (.bool 2)) true, .push, .pop,
            .remove 0] ++ [.pop]))).isSome := by decide
  obtain ⟨m, hm, hsome⟩ := (Option.any_eq_true _ _).mp hsome
  obtain ⟨m', hm'⟩ := isSome_iff_exists.mp hsome
  refine ⟨m, m', hm, hm', (pop_restores idleBackend (fun _ => false) (.verbatim _ _) () _ _ m m'
    ?_ hm hm').1⟩
  exact .cons nofun nofun (.cons nofun nofun (.level .nil (.cons nofun nofun .nil)))

/-- A formula that is removed explicitly above the backtrack point is not put back. -/
theorem pop_after_remove :
    ¬ ∀ (before between : List (Action Nat Nat)) (m m' : Manager Nat Nat Unit),
      Balanced between →
      Run.run (step idleBackend (fun _ => false) (.verbatim _ _)) (initial ()) before = some m →
      Run.run (step idleBackend (fun _ => false) (.verbatim _ _)) m
        (.push :: (between ++ [.pop])) = some m' →
      m'.mpPassedFormula.elements = m.mpPassedFormula.elements ∧
        m'.mObjectives = m.mObjectives := by
  intro h
  have hsome : (Run.run (step idleBackend (fun _ => false) (.verbatim _ _)) (initial ())
        [.add (.atom (.bool 0)) true, .add (.atom (.bool 1)) true]).any fun m =>
      (Run.run (step idleBackend (fun _ => false) (.verbatim _ _)) m
        (.push :: ([.remove 0] ++ [.pop]))).any fun m' =>
          m'.mpPassedFormula.elements ≠ m.mpPassedFormula.elements := by decide
  obtain ⟨m, hm, hsome⟩ := (Option.any_eq_true _ _).mp hsome
  obtain ⟨m', hm', hne⟩ := (Option.any_eq_true _ _).mp hsome
  exact of_decide_eq_true hne (h _ [.remove 0] m m' (.cons nofun nofun .nil) hm hm').1

end Manager

end Smtrat
