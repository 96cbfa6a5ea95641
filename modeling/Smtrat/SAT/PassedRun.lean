import Smtrat.SAT.Adaptation

/-!
# The passed formula in runs

In every run the passed formula is right directly after an adaptation.  What the answer of the
search relies on may be lost, though: when the backends are run again while constraints wait, they
may find another model; and a constraint may become relevant, or a search may start, without a look
at the constraints that wait.
-/

namespace Smtrat

open PropFormula List Option

universe u v

namespace SAT

variable {B : Type u} {C : Type v} [DecidableEq B] [DecidableEq C]

/-- What happens to a `SATModule` that is not in the MCSAT mode. -/
inductive Action (B : Type u) (C : Type v) where
  /-- A variable for a subformula that is not a literal. -/
  | newVar (dvar : Bool)
  | createLiteral (content : Atom B C) (negated : Bool) (origin : Formula (Atom B C))
      (decisionRelevant : Bool)
  /-- What `addCore` does before it creates the clauses of a formula; the backends are told about
  the constraints that are erased. -/
  | addCore (onlyPropositional : Bool) (backends : Backends (Atom B C))
  | pushAssumption (l : Lit)
  | newDecisionLevel
  | uncheckedEnqueue (l : Lit)
  | cancelUntil (level : Nat) (force : Bool)
  /-- The begin of `search`. -/
  | search
  | theoryCall (reply : State.Reply (Atom B C))

namespace State

def addCore (s : State B C) (onlyPropositional : Bool) (backends : Backends (Atom B C)) :
    State B C :=
  let s := { s with
    mReceivedFormulaPurelyPropositional :=
      s.mReceivedFormulaPurelyPropositional && onlyPropositional }
  { (s.cancelUntil 0 true).adaptPassedFormula with backends := backends }

/-- One action.  Constraints are created for received formulas that contain them and for what the
backends return, and only variables that are not assigned are enqueued. -/
def step (equivalentToTrue : Formula (Atom B C) → Bool) (s : State B C) :
    Action B C → Option (State B C)
  | .newVar dvar => some (s.newVar dvar)
  | .createLiteral (.bool b) negated origin dr =>
    some (s.createLiteral (.bool b) negated origin dr).2
  | .createLiteral (.constraint c) negated origin dr =>
    if s.mReceivedFormulaPurelyPropositional then none
    else some (s.createLiteral (.constraint c) negated origin dr).2
  | .addCore onlyPropositional backends => some (s.addCore onlyPropositional backends)
  | .pushAssumption l => some { s with assumptions := s.assumptions ++ [l] }
  | .newDecisionLevel => some s.newDecisionLevel
  | .uncheckedEnqueue l =>
    if s.value l = none ∧ l.var < s.nVars then some (s.uncheckedEnqueue equivalentToTrue l)
    else none
  | .cancelUntil level force => some (s.cancelUntil level force)
  | .search => some { s with mCurrentAssignmentConsistent := .sat }
  | .theoryCall reply => some (s.theoryCall reply)

/-- A model satisfies the constraints that wait to be added to the passed formula. -/
def waitingSatisfied (equivalentToTrue : Formula (Atom B C) → Bool) (s : State B C)
    (backends : Backends (Atom B C)) : Bool :=
  s.mChangedBooleans.all fun v => [false, true].all fun sign =>
    match s.mBooleanConstraintMap (mkLit v sign) with
    | none => true
    | some a => !(0 < a.updateInfo : Bool) || equivalentToTrue a.reabstraction ||
        backends.model a.reabstraction

/-- A theory call runs the backends, but does not adapt the passed formula before. -/
def runsUnadapted (s : State B C) : Bool :=
  !s.mReceivedFormulaPurelyPropositional && s.assumptions.length ≤ s.decisionLevel &&
    s.mCurrentAssignmentConsistent = .sat && (s.mChangedPassedFormula || s.fullAssignment)

/-- The steps that do not lose sight of constraints that wait.  A search starts, and the backends
are run without an adaptation, only if the model after that satisfies these constraints; and a
constraint becomes relevant while its literal is true only if the current model satisfies it, or the
last check is out of date anyway. -/
def attentive (equivalentToTrue : Formula (Atom B C) → Bool) (s : State B C) : Action B C → Bool
  | .createLiteral content negated origin _ =>
    match s.activated content negated origin with
    | none => true
    | some a => s.mCurrentAssignmentConsistent ≠ .sat || equivalentToTrue a.reabstraction ||
        s.backends.model a.reabstraction
  | .search => s.waitingSatisfied equivalentToTrue s.backends
  | .theoryCall reply => !s.runsUnadapted || s.waitingSatisfied equivalentToTrue reply.backends
  | _ => true

end State

variable {equivalentToTrue : Formula (Atom B C) → Bool} {s s' : State B C}

namespace State

omit [DecidableEq B] [DecidableEq C] in
theorem covered_of_waitingSatisfied (h : Tracks equivalentToTrue s)
    {backends : Backends (Atom B C)}
    (hw : s.waitingSatisfied equivalentToTrue backends = true) {l : Lit}
    {a : Abstraction (Atom B C)} (ha : s.mBooleanConstraintMap l = some a)
    (hpos : 0 < a.updateInfo) (hnt : equivalentToTrue a.reabstraction = false) :
    backends.model a.reabstraction = true := by
  have hch := (h.tracked l a ha).changed (by omega)
  have hall := List.all_eq_true.mp (List.all_eq_true.mp hw l.var hch) l.sign
    (by cases l.sign <;> simp)
  rw [show mkLit l.var l.sign = l from rfl, ha] at hall
  simpa [hpos, hnt] using hall

theorem adaptPassedFormula_spec (h : Invariant equivalentToTrue s) :
    Invariant equivalentToTrue s.adaptPassedFormula ∧
      ∀ l a, s.adaptPassedFormula.mBooleanConstraintMap l = some a → a.updateInfo = 0 := by
  obtain ⟨ht, hu⟩ := h.tracks.adaptPassedFormula
  obtain ⟨answer, heq⟩ := Tracks.adaptPassedFormula_eq s
  obtain ⟨m, M, b, hframe⟩ :=
    (foldl_adaptVariable h.tracks.abstracted s.mChangedBooleans).1.frame
  have htrail : s.adaptPassedFormula.trail = s.trail ∧
      s.adaptPassedFormula.assigns = s.assigns := by
    rw [heq, hframe]
    exact ⟨rfl, rfl⟩
  refine ⟨⟨ht, fun l => ?_, ?_⟩, hu⟩
  · rw [value, htrail.1, htrail.2]
    exact h.mem_trail l
  · rw [htrail.1]
    exact h.trail_nodup

theorem addCore_spec (h : Invariant equivalentToTrue s) (onlyPropositional : Bool)
    (backends : Backends (Atom B C)) :
    Invariant equivalentToTrue (s.addCore onlyPropositional backends) ∧
      Covered equivalentToTrue (s.addCore onlyPropositional backends) := by
  have h₀ : Invariant equivalentToTrue { s with
      mReceivedFormulaPurelyPropositional :=
        s.mReceivedFormulaPurelyPropositional && onlyPropositional } := by
    refine ⟨⟨h.tracks.abstracted, h.tracks.tracked, h.tracks.unused, h.tracks.literals,
      h.tracks.sides, fun hp => h.tracks.propositional ?_⟩, h.mem_trail, h.trail_nodup⟩
    exact (Bool.and_eq_true_iff.mp hp).1
  obtain ⟨⟨ht, hm, hn⟩, hu⟩ := adaptPassedFormula_spec (cancelUntil_spec h₀ 0 true).1
  refine ⟨⟨⟨ht.abstracted, ht.tracked, ht.unused, ht.literals, ht.sides, ht.propositional⟩, hm, hn⟩,
    fun _ l a ha hpos _ => ?_⟩
  have := hu l a ha
  omega

omit [DecidableEq B] [DecidableEq C] in
/-- Only the answer and the backends are replaced after a theory call. -/
theorem Invariant.reply (h : Invariant equivalentToTrue s) (b : Bool) (answer : Answer)
    (backends : Backends (Atom B C)) :
    Invariant equivalentToTrue { s with
      mChangedPassedFormula := b
      mCurrentAssignmentConsistent := answer
      backends := backends } :=
  ⟨⟨h.tracks.abstracted, h.tracks.tracked, h.tracks.unused, h.tracks.literals, h.tracks.sides,
    h.tracks.propositional⟩, h.mem_trail, h.trail_nodup⟩

theorem theoryCall_spec (h : Invariant equivalentToTrue s) (reply : Reply (Atom B C)) :
    Invariant equivalentToTrue (s.theoryCall reply) ∧
      ((s.runsUnadapted = true → s.waitingSatisfied equivalentToTrue reply.backends = true) →
        Covered equivalentToTrue s → Covered equivalentToTrue (s.theoryCall reply)) := by
  simp only [theoryCall]
  split_ifs with hcall hsat hrun hrun
  · exact ⟨h, fun _ => id⟩
  · refine ⟨Invariant.reply h _ _ _, fun hw _ _ l a ha hpos hnt => ?_⟩
    refine covered_of_waitingSatisfied h.tracks (hw ?_) ha hpos hnt
    have hlev : s.mReceivedFormulaPurelyPropositional = false ∧
        s.assumptions.length ≤ s.decisionLevel := by simpa using hcall
    simp [runsUnadapted, hlev, hsat, hrun]
  · exact ⟨h, fun _ => id⟩
  · obtain ⟨h₁, hu⟩ := adaptPassedFormula_spec h
    refine ⟨Invariant.reply h₁ _ _ _, fun _ _ _ l a ha hpos _ => ?_⟩
    have := hu l a ha
    omega
  · obtain ⟨h₁, hu⟩ := adaptPassedFormula_spec h
    refine ⟨h₁, fun _ _ _ l a ha hpos _ => ?_⟩
    have := hu l a ha
    omega

omit [DecidableEq B] [DecidableEq C] in
theorem enqueue_mem_trail (h : Invariant equivalentToTrue s) {l : Lit} (hv : s.value l = none)
    (k : Lit) : k ∈ s.trail ++ [l] ↔ (s.assigns.enqueue l).value k = some true := by
  rw [mem_append, mem_singleton, h.mem_trail]
  by_cases hk : k.var = l.var
  · have hnone : s.value k = none := by
      rw [value, Assigns.value_eq_none, hk]
      exact Assigns.value_eq_none.mp hv
    rw [hnone]
    constructor
    · rintro (hc | rfl)
      · cases hc
      · exact Assigns.value_enqueue
    · exact fun ht => Or.inr (eq_of_true ht Assigns.value_enqueue hk)
  · rw [Assigns.value_enqueue_of_ne hk]
    exact or_iff_left fun hkl => hk (congrArg _ hkl)

omit [DecidableEq B] [DecidableEq C] in
theorem uncheckedEnqueue_frame (equivalentToTrue : Formula (Atom B C) → Bool) (s : State B C)
    (l : Lit) :
    ∃ M changed answer, s.uncheckedEnqueue equivalentToTrue l = { s with
      assigns := s.assigns.enqueue l
      trail := s.trail ++ [l]
      mChangedBooleans := changed
      mCurrentAssignmentConsistent := answer
      mBooleanConstraintMap := M } := by
  have hcnt : ∀ (s : State B C) (l : Lit) (a : Abstraction (Atom B C)), ∃ M changed answer,
      s.countAssigned equivalentToTrue l a = { s with
        mChangedBooleans := changed
        mCurrentAssignmentConsistent := answer
        mBooleanConstraintMap := M } := by
    intro s l a
    simp only [countAssigned]
    split_ifs
    all_goals exact ⟨_, _, _, rfl⟩
  simp only [uncheckedEnqueue]
  split_ifs
  · exact ⟨_, _, _, rfl⟩
  · split
    · exact ⟨_, _, _, rfl⟩
    · obtain ⟨M, changed, answer, heq⟩ := hcnt _ _ _
      exact ⟨M, changed, answer, heq⟩

/-- One step, and what a step that is attentive keeps beyond that. -/
theorem step_spec (h : Invariant equivalentToTrue s) {action : Action B C}
    (hs : s.step equivalentToTrue action = some s') :
    Invariant equivalentToTrue s' ∧ (s.attentive equivalentToTrue action = true →
      Covered equivalentToTrue s → Covered equivalentToTrue s') := by
  cases action with
  | newVar dvar =>
    obtain rfl := some.inj hs
    exact ⟨⟨h.tracks.newVar dvar, h.mem_trail, h.trail_nodup⟩, fun _ hc => hc⟩
  | createLiteral content negated origin dr =>
    have hs' : (∀ c, content = .constraint c → s.mReceivedFormulaPurelyPropositional = false) ∧
        s' = (s.createLiteral content negated origin dr).2 := by
      cases content with
      | bool b => exact ⟨nofun, (some.inj hs).symm⟩
      | constraint c =>
        rw [step] at hs
        split_ifs at hs with hp
        exact ⟨fun _ _ => by simpa using hp, (some.inj hs).symm⟩
    obtain ⟨hp, rfl⟩ := hs'
    obtain ⟨ht, hcov⟩ := h.tracks.createLiteral_spec hp negated origin dr
    obtain ⟨htrail, hasgns⟩ := sameAssignment_createLiteral s content negated origin dr
    refine ⟨⟨ht, fun l => ?_, htrail ▸ h.trail_nodup⟩, fun hatt => hcov fun a ha hsat hnt => ?_⟩
    · rw [htrail, value, hasgns]
      exact h.mem_trail l
    · rw [attentive, ha] at hatt
      simpa [hsat, hnt] using hatt
  | addCore onlyPropositional backends =>
    obtain rfl := some.inj hs
    obtain ⟨hinv, hcov⟩ := addCore_spec h onlyPropositional backends
    exact ⟨hinv, fun _ _ => hcov⟩
  | pushAssumption l =>
    obtain rfl := some.inj hs
    exact ⟨⟨⟨h.tracks.abstracted, h.tracks.tracked, h.tracks.unused, h.tracks.literals,
      h.tracks.sides, h.tracks.propositional⟩, h.mem_trail, h.trail_nodup⟩, fun _ hc => hc⟩
  | newDecisionLevel =>
    obtain rfl := some.inj hs
    exact ⟨⟨⟨h.tracks.abstracted, h.tracks.tracked, h.tracks.unused, h.tracks.literals,
      h.tracks.sides, h.tracks.propositional⟩, h.mem_trail, h.trail_nodup⟩, fun _ hc => hc⟩
  | uncheckedEnqueue l =>
    rw [step] at hs
    split_ifs at hs with hv
    obtain rfl := some.inj hs
    obtain ⟨ht, hcov⟩ := uncheckedEnqueue_spec h.tracks hv.1 hv.2
    obtain ⟨M, changed, answer, heq⟩ :=
      uncheckedEnqueue_frame equivalentToTrue s l
    refine ⟨⟨ht, ?_, ?_⟩, fun _ => hcov⟩
    · rw [heq]
      exact enqueue_mem_trail h hv.1
    · rw [heq]
      refine nodup_append.mpr ⟨h.trail_nodup, nodup_singleton l, ?_⟩
      intro k hk k' hk' hkl
      rw [h.mem_trail, hkl, mem_singleton.mp hk', hv.1] at hk
      cases hk
  | cancelUntil level force =>
    obtain rfl := some.inj hs
    obtain ⟨hinv, hcov⟩ := cancelUntil_spec h level force
    exact ⟨hinv, fun _ => hcov⟩
  | search =>
    obtain rfl := some.inj hs
    refine ⟨Invariant.reply h _ _ _, fun hatt _ _ l a ha hpos hnt => ?_⟩
    exact covered_of_waitingSatisfied h.tracks hatt ha hpos hnt
  | theoryCall reply =>
    obtain rfl := some.inj hs
    obtain ⟨hinv, hcov⟩ := theoryCall_spec h reply
    refine ⟨hinv, fun hatt => hcov fun hrun => ?_⟩
    simpa [attentive, hrun] using hatt

omit [DecidableEq B] [DecidableEq C] in
theorem init_tracks : Tracks equivalentToTrue (init : State B C) where
  abstracted := by
    refine ⟨⟨fun _ _ _ _ h => ?_, fun _ _ h => ?_⟩, ?_, nofun⟩
    · cases h
    · cases h
    · exact ⟨ModuleInput.empty_wellFormed, nofun, nofun⟩
  tracked := nofun
  unused := by
    intro l hl
    have hne : l.var ≠ 0 := Nat.ne_of_gt hl
    refine ⟨?_, rfl⟩
    simp [init, Assigns.enqueue, mkLit, hne]
  literals := fun f l => ⟨nofun, fun ⟨_, h, _⟩ => nomatch h⟩
  sides := nofun
  propositional := fun _ _ => rfl

omit [DecidableEq B] [DecidableEq C] in
theorem init_invariant : Invariant equivalentToTrue (init : State B C) where
  tracks := init_tracks
  mem_trail := by
    intro l
    rw [init, mem_singleton]
    constructor
    · rintro rfl
      exact Assigns.value_enqueue
    · intro hl
      refine eq_of_true hl Assigns.value_enqueue ?_
      by_contra hne
      rw [value, Assigns.value_enqueue_of_ne hne, Assigns.value_eq_true] at hl
      cases hl
  trail_nodup := nodup_singleton _

/-- In every run the passed formula is exact directly after an adaptation.  If its steps are
attentive, the answer that the formula is satisfiable is covered: every active constraint is passed
or holds in the backends' model. -/
theorem passedFormula_run {actions : List (Action B C)}
    (h : Run.run (step equivalentToTrue) init actions = some s) :
    s.adaptPassedFormula.ExactlyPassed equivalentToTrue ∧
      (Run.run (Run.guarded (fun s a => s.attentive equivalentToTrue a = true)
        (step equivalentToTrue)) init actions = some s → s.SatCovered equivalentToTrue) := by
  have hinv : Invariant equivalentToTrue s :=
    Run.run_invariant (fun _ _ _ hs hstep => (step_spec hs hstep).1) init_invariant h
  obtain ⟨⟨ht, -, -⟩, hu⟩ := adaptPassedFormula_spec hinv
  refine ⟨ht.exactlyPassed hu, fun hrun => ?_⟩
  have hcov : Invariant equivalentToTrue s ∧ Covered equivalentToTrue s := by
    refine Run.run_invariant (P := fun s => Invariant equivalentToTrue s ∧
      Covered equivalentToTrue s) ?_ ⟨init_invariant, fun _ _ _ h => nomatch h⟩ hrun
    rintro s₁ a s₂ ⟨hs₁, hc₁⟩ hstep
    obtain ⟨hatt, hstep⟩ := Run.guarded_eq_some.mp hstep
    obtain ⟨hs₂, hc₂⟩ := step_spec hs₁ hstep
    exact ⟨hs₂, hc₂ hatt hc₁⟩
  exact hcov.1.tracks.satCovered hcov.2

/-! ### Two clauses

The clauses are over two constraints and two Boolean variables.  Each variable is decided to be
false, and a constraint is propagated. -/

/-- Backends whose model satisfies the constraints in `sat`, and which know that. -/
def sampleBackends (sat : List Bool) : Backends (Atom Bool Bool) where
  model := fun f => f ∈ sat.map fun c => literal (.constraint c) false
  currentlySatisfied := fun f => if f ∈ sat.map fun c => literal (.constraint c) false then 1 else 0
  model_of_currentlySatisfied := by
    intro f hf
    split_ifs at hf with hmem
    exact decide_eq_true hmem

/-- The clause of a constraint and a Boolean variable is received. -/
def sampleClause (c : Bool) : List (Action Bool Bool) :=
  let f := Formula.app .or [.atom (.constraint c), .atom (.bool c)]
  [.addCore false (.initial _), .createLiteral (.constraint c) false f true,
    .createLiteral (.bool c) false f true]

/-- The first check answers with a model of both constraints, and the final check with one that
satisfies the constraints in `sat`. -/
def sampleRun (sat : List Bool) : List (Action Bool Bool) :=
  sampleClause false ++ sampleClause true ++
  [.search, .newDecisionLevel, .uncheckedEnqueue (mkLit 2 true), .uncheckedEnqueue (mkLit 1 false),
    .theoryCall ⟨.sat, sampleBackends [false, true]⟩, .newDecisionLevel,
    .uncheckedEnqueue (mkLit 4 true), .uncheckedEnqueue (mkLit 3 false),
    .theoryCall ⟨.sat, sampleBackends sat⟩]

theorem passedFormula_run_twoClauses : ∃ s : State Bool Bool,
    Run.run (step fun _ => false) init (sampleRun [false, true]) = some s ∧ s.answersSat = true ∧
      s.adaptPassedFormula.ExactlyPassed (fun _ => false) ∧ s.SatCovered (fun _ => false) := by
  have hany : (Run.run (Run.guarded (fun s a => s.attentive (fun _ => false) a = true)
      (step fun _ => false)) init (sampleRun [false, true])).any answersSat = true := by
    decide +kernel
  obtain ⟨s, hs, hans⟩ := (Option.any_eq_true _ _).mp hany
  have hrun := Run.run_of_guarded hs
  obtain ⟨hexact, hcov⟩ := passedFormula_run hrun
  exact ⟨s, hrun, hans, hexact, hcov hs⟩

/-- The final check finds a model that does not satisfy the constraint of the second clause, which
has not been passed since the first model satisfied it. -/
theorem satisfied_constraint_not_passed : ∃ s : State Bool Bool,
    Run.run (step fun _ => false) init (sampleRun [false]) = some s ∧
      ¬ s.SatCovered (fun _ => false) := by
  have hany : (Run.run (step fun _ => false) init (sampleRun [false])).any (fun s =>
      s.answersSat && s.value (mkLit 3 false) = some true &&
      ((s.mBooleanConstraintMap (mkLit 3 false)).any fun a => a.consistencyRelevant &&
        a.reabstraction = literal (.constraint true) false) &&
      !(literal (.constraint true) false ∈ s.passedFormula.formulas : Bool) &&
      !s.backends.model (literal (.constraint true) false)) = true := by
    decide +kernel
  obtain ⟨s, hs, hp⟩ := (Option.any_eq_true _ _).mp hany
  simp only [Bool.and_eq_true, decide_eq_true_eq, Option.any_eq_true, Bool.not_eq_true',
    decide_eq_false_iff_not] at hp
  obtain ⟨⟨⟨⟨hans, hv⟩, a, ha, hc, hre⟩, hnot⟩, hmod⟩ := hp
  refine ⟨s, hs, fun hcov => ?_⟩
  rcases hcov hans _ ⟨_, a, ha, hre, hc, hv⟩ rfl with hpass | hsat
  · exact hnot hpass
  · rw [hmod] at hsat
    cases hsat

end State

end SAT

end Smtrat
