import Smtrat.VS.TestCandidates

/-!
# Generating test candidates

The loop over the factors of a condition adds the test candidates of the factors behind the children
that are there, and says that one of them is a solution only if the condition is an equation all of
whose factors have the variable.
-/

/-!
## States of the virtual substitution

A state has conditions and a variable to eliminate.  Its children are the test candidates that were
generated from its conditions.  The flag of a condition says that it was used for this, or that it need
not be.
-/

namespace Smtrat.VS

open SparsePoly

universe u

/-- A condition is identified by its id. -/
structure Condition (V : Type u) where
  id : ℕ
  constraint : Constraint V
  flag : Bool
deriving DecidableEq

/-- A child, with the conditions its test candidate stems from and the equation it solves if it is
certain to be a solution of one. -/
structure Child (V : Type u) where
  testCandidate : TestCandidate V
  originalConditions : Finset ℕ
  originalCondition : Option ℕ

structure State (V : Type u) where
  index : V
  conditions : List (Condition V)
  children : List (Child V)
  tooHighDegreeConditions : Finset ℕ
  inconsistent : Bool

namespace State

variable {V : Type u} [DecidableEq V]

/-- A new state. -/
def init (index : V) : State V := ⟨index, [], [], ∅, false⟩

/-- `initConditionFlags`, for the given conditions. -/
def initConditionFlags (index : V) (conditions : List (Condition V)) : List (Condition V) :=
  conditions.map fun c => { c with flag := !Poly.hasVariable index c.constraint.lhs }

/-- `updateOCondsOfSubstitutions` and `addChild`: a test candidate that is there already only gets
further original conditions. -/
def addChild (candidate : TestCandidate V) (oConditions : Finset ℕ) (originalCondition : Option ℕ)
    (s : State V) : Bool × State V :=
  if s.children.any fun child => child.testCandidate = candidate then
    (false, { s with
      children := s.children.map fun child =>
        if child.testCandidate = candidate
        then { child with originalConditions := child.originalConditions ∪ oConditions }
        else child })
  else (true, { s with children := s.children ++ [⟨candidate, oConditions, originalCondition⟩] })

/-- The local variables of `eliminate`. -/
structure Elimination (V : Type u) where
  state : State V
  generatedTestCandidateBeingASolution : Bool
  numberOfAddedChildren : ℕ

/-- A test candidate of an equation without side conditions is a solution of the equation. -/
def addTestCandidate (condition : Condition V) (e : Elimination V) (candidate : TestCandidate V) :
    Elimination V :=
  let solution := condition.constraint.relation = .eq ∧ candidate.sideCondition = ∅
  let added := e.state.addChild candidate {condition.id} (if solution then some condition.id else none)
  if added.1 then
    ⟨added.2, decide solution || e.generatedTestCandidateBeingASolution, e.numberOfAddedChildren + 1⟩
  else { e with state := added.2 }

variable (lib : EliminationLibrary V)

/-- The test candidates of a factor are generated. -/
def eliminateFactor (condition : Condition V) (sideConditions : Finset (ConstraintT V))
    (e : Elimination V) (factor : Poly V ℚ) : Elimination V :=
  if 2 < Poly.maxDegree e.state.index factor then
    { e with
      state := { e.state with
        tooHighDegreeConditions := insert condition.id e.state.tooHighDegreeConditions } }
  else
    let candidates := testCandidates lib e.state.index condition.constraint.relation sideConditions
      factor
    let added := candidates.foldl (addTestCandidate condition) e
    -- the factor has no zeros
    if candidates = [] ∧ condition.constraint.relation = .eq then
      { added with generatedTestCandidateBeingASolution := sideConditions = ∅ }
    else added

/-- The flag of a condition is set. -/
def setFlag (id : ℕ) (s : State V) : State V :=
  { s with conditions := s.conditions.map fun c => if c.id = id then { c with flag := true } else c }

/-- `eliminate`, after the test candidates of all factors were generated. -/
def finishElimination (condition : Condition V) (e : Elimination V) : State V :=
  if e.generatedTestCandidateBeingASolution then
    -- all other conditions and test candidates are dropped
    { e.state with
      tooHighDegreeConditions := ∅
      conditions := e.state.conditions.map fun c => { c with flag := true }
      children := e.state.children.drop (e.state.children.length - e.numberOfAddedChildren)
      inconsistent := e.numberOfAddedChildren = 0 || e.state.inconsistent }
  else if e.state.inconsistent then e.state.setFlag condition.id
  else (e.state.addChild ⟨⟨e.state.index, .minusInfinity⟩, ∅⟩ {condition.id} none).2.setFlag
    condition.id

/-- The settings that `eliminate` depends on. -/
structure Settings where
  use_strict_inequalities_for_test_candidate_generation : Bool
  elimination_with_factorization : Bool

variable (settings : Settings)

/-- The loop of `eliminate` over the factors. -/
def generate (condition : Condition V) (s : State V) : Elimination V :=
  let sideConditions :=
    sideConditionsOf lib settings.elimination_with_factorization s.index condition.constraint.lhs
  (factorsOf lib settings.elimination_with_factorization s.index condition.constraint.lhs).foldl
    (eliminateFactor lib condition sideConditions) ⟨s, false, 0⟩

/-- Whether a condition is not used for test candidates as it is strict. -/
def isSkipped (condition : Condition V) : Bool :=
  !settings.use_strict_inequalities_for_test_candidate_generation &&
    condition.constraint.relation.isStrict

def eliminate (condition : Condition V) (s : State V) : State V :=
  if isSkipped settings condition then
    { s.setFlag condition.id with
      tooHighDegreeConditions := insert condition.id s.tooHighDegreeConditions }
  else finishElimination condition (generate lib settings condition s)

/-- `addCondition`: test candidates of a new condition are not needed if the first child is certain to
be a solution of an equation. -/
def addCondition (id : ℕ) (constraint : Constraint V) (s : State V) : State V :=
  { s with
    conditions := s.conditions ++ [⟨id, constraint, !Poly.hasVariable s.index constraint.lhs ||
      s.children.head?.any fun child => child.originalCondition.isSome⟩] }

/-- `deleteConditions`: the children whose original conditions are all deleted are deleted, too. -/
def deleteConditions (ids : Finset ℕ) (s : State V) : State V :=
  let deleted (child : Child V) : Bool := child.originalConditions ⊆ ids
  let conditions := s.conditions.filter (·.id ∉ ids)
  { s with
    conditions := if s.children.any fun child => deleted child && child.originalCondition.isSome
      then initConditionFlags s.index conditions else conditions
    tooHighDegreeConditions := s.tooHighDegreeConditions \ ids
    inconsistent := s.inconsistent && s.conditions.all (·.id ∉ ids)
    children := (s.children.filter fun child => !deleted child).map fun child =>
      { child with originalConditions := child.originalConditions \ ids } }

/-- Another variable is chosen, or the test candidates are to be generated again. -/
def setIndex (index : V) (s : State V) : State V :=
  { s with index := index, conditions := initConditionFlags index s.conditions, children := [] }

end State

end Smtrat.VS

namespace Smtrat.VS

open SparsePoly List

universe u

namespace State

variable {V : Type u}

/-- A child got further original conditions. -/
structure Extended (child child' : Child V) : Prop where
  testCandidate : child'.testCandidate = child.testCandidate
  originalCondition : child'.originalCondition = child.originalCondition
  originalConditions : child.originalConditions ⊆ child'.originalConditions

theorem Extended.refl (child : Child V) : Extended child child := ⟨rfl, rfl, subset_rfl⟩

theorem Extended.trans {child child' child'' : Child V} (h : Extended child child')
    (h' : Extended child' child'') : Extended child child'' :=
  ⟨h'.testCandidate.trans h.testCandidate, h'.originalCondition.trans h.originalCondition,
    h.originalConditions.trans h'.originalConditions⟩

/-- Corresponding elements of related lists. -/
theorem exists_related {α β : Type*} {R : α → β → Prop} {as : List α} {bs : List β}
    (h : List.Forall₂ R as bs) {a : α} (ha : a ∈ as) : ∃ b ∈ bs, R a b := by
  induction h with
  | nil => exact absurd ha not_mem_nil
  | cons hhead _ ih =>
    rcases mem_cons.mp ha with rfl | ha
    · exact ⟨_, mem_cons_self, hhead⟩
    · obtain ⟨b, hb, hrelated⟩ := ih ha
      exact ⟨b, mem_cons_of_mem _ hb, hrelated⟩

theorem extended_trans {children children' children'' : List (Child V)}
    (h : List.Forall₂ Extended children children') (h' : List.Forall₂ Extended children' children'') :
    List.Forall₂ Extended children children'' := by
  induction h generalizing children'' with
  | nil =>
    rw [List.forall₂_nil_left_iff.mp h']
    exact List.Forall₂.nil
  | cons hhead _ ih =>
    obtain ⟨child'', rest, hhead', hrest, rfl⟩ := List.forall₂_cons_left_iff.mp h'
    exact List.Forall₂.cons (hhead.trans hhead') (ih hrest)

/-- The state has a child with the test candidate that stems from the condition. -/
def Provides (s : State V) (id : ℕ) (candidate : TestCandidate V) : Prop :=
  ∃ child ∈ s.children, child.testCandidate = candidate ∧ id ∈ child.originalConditions

/-- No child has the test candidate. -/
def New (s : State V) (candidate : TestCandidate V) : Prop :=
  ∀ child ∈ s.children, child.testCandidate ≠ candidate

/-- Test candidates of a condition were added to a state. -/
structure Generated (s : State V) (id : ℕ) (sideConditions : Finset (ConstraintT V))
    (processed : TestCandidate V → Prop) (e : Elimination V) : Prop where
  index : e.state.index = s.index
  conditions : e.state.conditions = s.conditions
  inconsistent : e.state.inconsistent = s.inconsistent
  children : ∃ old new, e.state.children = old ++ new ∧ new.length = e.numberOfAddedChildren ∧
    List.Forall₂ Extended s.children old ∧
    (e.generatedTestCandidateBeingASolution = false ∨ sideConditions ≠ ∅ →
      ∀ child ∈ new, child.originalCondition = none)
  provided : ∀ candidate, processed candidate → e.state.Provides id candidate

variable {s s' : State V} {candidate : TestCandidate V} {id : ℕ}

theorem Provides.of_extended (h : s.Provides id candidate) {children : List (Child V)}
    (hchildren : List.Forall₂ Extended s.children children) (hsub : ∀ c ∈ children, c ∈ s'.children) :
    s'.Provides id candidate := by
  obtain ⟨child, hch, hcand, hid⟩ := h
  obtain ⟨child', hch', hext⟩ := exists_related hchildren hch
  exact ⟨child', hsub child' hch', hext.testCandidate.trans hcand, hext.originalConditions hid⟩

/-- The children that are there keep their test candidates. -/
theorem New.of_extended {children rest : List (Child V)} (h : s'.New candidate)
    (hchildren : List.Forall₂ Extended s.children children)
    (hs' : s'.children = children ++ rest) : s.New candidate := by
  intro child hch hcand
  obtain ⟨child', hch', hext⟩ := exists_related hchildren hch
  refine h child' ?_ (hext.testCandidate.trans hcand)
  rw [hs']
  exact mem_append_left rest hch'

/-- Only the children change, and those that are there stay. -/
structure Grown (s s' : State V) : Prop where
  index : s'.index = s.index
  conditions : s'.conditions = s.conditions
  inconsistent : s'.inconsistent = s.inconsistent
  children : ∃ old new, s'.children = old ++ new ∧ List.Forall₂ Extended s.children old

theorem Grown.trans {s'' : State V} (h : s.Grown s') (h' : s'.Grown s'') : s.Grown s'' := by
  obtain ⟨old, new, hchildren, hold⟩ := h.children
  obtain ⟨old', new', hchildren', hold'⟩ := h'.children
  rw [hchildren] at hold'
  refine ⟨h'.index.trans h.index, h'.conditions.trans h.conditions,
    h'.inconsistent.trans h.inconsistent, old'.take old.length, old'.drop old.length ++ new', ?_,
    extended_trans hold ?_⟩
  · rw [hchildren', ← append_assoc, take_append_drop]
  · have htake := List.forall₂_take old.length hold'
    rwa [take_left] at htake

theorem Provides.grown (h : s.Provides id candidate) (hgrown : s.Grown s') :
    s'.Provides id candidate := by
  obtain ⟨old, new, hchildren, hold⟩ := hgrown.children
  refine h.of_extended hold fun child hch => ?_
  rw [hchildren]
  exact mem_append_left new hch

theorem Generated.grown {sideConditions : Finset (ConstraintT V)}
    {processed : TestCandidate V → Prop} {e : Elimination V}
    (h : Generated s id sideConditions processed e) : s.Grown e.state := by
  obtain ⟨old, new, hchildren, -, hold, -⟩ := h.children
  exact ⟨h.index, h.conditions, h.inconsistent, old, new, hchildren, hold⟩

/-! ## Flags -/

theorem mem_setFlag {s : State V} {id : ℕ} {c : Condition V} (hc : c ∈ (s.setFlag id).conditions) :
    ∃ d ∈ s.conditions, d.id = c.id ∧ d.constraint = c.constraint ∧ (d = c ∨ d.id = id) := by
  obtain ⟨d, hd, rfl⟩ := mem_map.mp hc
  refine ⟨d, hd, ?_⟩
  split_ifs with hid
  · exact ⟨rfl, rfl, .inr hid⟩
  · exact ⟨rfl, rfl, .inl rfl⟩

theorem exists_setFlag {s : State V} (id : ℕ) {d : Condition V} (hd : d ∈ s.conditions) :
    ∃ c ∈ (s.setFlag id).conditions, c.id = d.id ∧ c.constraint = d.constraint := by
  refine ⟨_, mem_map.mpr ⟨d, hd, rfl⟩, ?_⟩
  split_ifs
  · exact ⟨rfl, rfl⟩
  · exact ⟨rfl, rfl⟩

theorem setFlag_ids (s : State V) (id : ℕ) :
    (s.setFlag id).conditions.map (·.id) = s.conditions.map (·.id) := by
  rw [State.setFlag, map_map]
  refine map_congr_left fun d _ => ?_
  rw [Function.comp_apply]
  split_ifs
  · rfl
  · rfl

/-! ## One test candidate -/

variable [DecidableEq V]

theorem addChild_known (h : ¬ s.New candidate) (id : ℕ) (originalCondition : Option ℕ) :
    ∃ children, s.addChild candidate {id} originalCondition
        = (false, { s with children := children }) ∧
      List.Forall₂ Extended s.children children ∧
      ({ s with children := children } : State V).Provides id candidate := by
  have hany : (s.children.any fun child => child.testCandidate = candidate) = true := by
    simpa [New] using h
  refine ⟨_, by rw [addChild, if_pos hany], ?_, ?_⟩
  · refine List.forall₂_map_right_iff.mpr (List.forall₂_same.mpr fun child _ => ?_)
    split_ifs
    · exact ⟨rfl, rfl, Finset.subset_union_left⟩
    · exact Extended.refl child
  · obtain ⟨child, hch, hcand⟩ := any_eq_true.mp hany
    have hcand : child.testCandidate = candidate := of_decide_eq_true hcand
    refine ⟨_, mem_map.mpr ⟨child, hch, rfl⟩, ?_, ?_⟩
    · rw [if_pos hcand]
      exact hcand
    · rw [if_pos hcand]
      exact Finset.mem_union_right _ (Finset.mem_singleton_self id)

theorem addChild_new (h : s.New candidate) (id : ℕ) (originalCondition : Option ℕ) :
    s.addChild candidate {id} originalCondition
      = (true, { s with children := s.children ++ [⟨candidate, {id}, originalCondition⟩] }) := by
  rw [addChild, if_neg]
  simpa [New] using h

theorem addChild_grown (candidate : TestCandidate V) (id : ℕ) (s : State V) :
    s.Grown (s.addChild candidate {id} none).2 ∧
      (s.addChild candidate {id} none).2.tooHighDegreeConditions = s.tooHighDegreeConditions ∧
      (s.addChild candidate {id} none).2.Provides id candidate ∧
      ((∀ child ∈ s.children, child.originalCondition = none) →
        ∀ child ∈ (s.addChild candidate {id} none).2.children, child.originalCondition = none) := by
  by_cases hnew : s.New candidate
  · rw [addChild_new hnew]
    refine ⟨⟨rfl, rfl, rfl, s.children, _, rfl, List.forall₂_same.mpr fun child _ =>
      Extended.refl child⟩, rfl, ⟨_, mem_append_right _ mem_cons_self, rfl,
        Finset.mem_singleton_self id⟩, fun hplain child hch => ?_⟩
    rcases mem_append.mp hch with hch | hch
    · exact hplain child hch
    · rw [mem_singleton.mp hch]
  · obtain ⟨children, hadd, hext, hprovides⟩ := addChild_known hnew id none
    rw [hadd]
    refine ⟨⟨rfl, rfl, rfl, children, [], (append_nil _).symm, hext⟩, rfl, hprovides,
      fun hplain child hch => ?_⟩
    obtain ⟨child', hch', hext⟩ :=
      exists_related (List.Forall₂.flip (R := flip Extended) hext) hch
    exact hext.originalCondition.trans (hplain child' hch')

variable {condition : Condition V} {sideConditions : Finset (ConstraintT V)}
  {processed : TestCandidate V → Prop} {e : Elimination V}

theorem Generated.addTestCandidate (h : Generated s condition.id sideConditions processed e)
    (hside : sideConditions ⊆ candidate.sideCondition) : Generated s condition.id sideConditions
      (fun d => processed d ∨ d = candidate) (addTestCandidate condition e candidate) := by
  obtain ⟨old, new, hchildren, hlen, hold, hplain⟩ := h.children
  rw [State.addTestCandidate]
  by_cases hnew : e.state.New candidate
  · rw [addChild_new hnew, if_pos rfl]
    set child : Child V := ⟨candidate, {condition.id},
      if condition.constraint.relation = .eq ∧ candidate.sideCondition = ∅
        then some condition.id else none⟩ with hch
    refine ⟨h.index, h.conditions, h.inconsistent, ⟨old, new ++ [child], ?_, ?_, hold, ?_⟩, ?_⟩
    · show e.state.children ++ [child] = _
      rw [hchildren, append_assoc]
    · rw [length_append, hlen, length_singleton]
    · intro hflag d hd
      rcases mem_append.mp hd with hd | hd
      · exact hplain (hflag.imp_left fun hflag => (Bool.or_eq_false_iff.mp hflag).2) d hd
      · rw [mem_singleton.mp hd]
        refine if_neg ?_
        rcases hflag with hflag | hne
        · exact of_decide_eq_false (Bool.or_eq_false_iff.mp hflag).1
        · exact fun hsol => hne (Finset.subset_empty.mp (hsol.2 ▸ hside))
    · rintro d (hd | rfl)
      · obtain ⟨d', hd', hcand⟩ := h.provided d hd
        exact ⟨d', mem_append_left _ hd', hcand⟩
      · exact ⟨_, mem_append_right _ mem_cons_self, rfl, Finset.mem_singleton_self _⟩
  · obtain ⟨children, hadd, hext, hprovides⟩ := addChild_known hnew condition.id
      (if condition.constraint.relation = .eq ∧ candidate.sideCondition = ∅
        then some condition.id else none)
    rw [hadd, if_neg Bool.false_ne_true]
    have hsplit := hext
    rw [hchildren] at hsplit
    refine ⟨h.index, h.conditions, h.inconsistent,
      ⟨children.take old.length, children.drop old.length, (take_append_drop _ _).symm, ?_,
        ?_, ?_⟩, ?_⟩
    · rw [length_drop, ← hsplit.length_eq, length_append, Nat.add_sub_cancel_left]
      exact hlen
    · exact extended_trans hold (by
        have htake := List.forall₂_take old.length hsplit
        rwa [take_left] at htake)
    · intro hflag child hch
      have hdrop := List.forall₂_drop old.length hsplit
      rw [drop_left] at hdrop
      obtain ⟨child', hch', hext⟩ :=
        exists_related (List.Forall₂.flip (R := flip Extended) hdrop) hch
      exact hext.originalCondition.trans (hplain hflag child' hch')
    · rintro d (hd | rfl)
      · exact (h.provided d hd).of_extended hext fun c hc => hc
      · exact hprovides

/-- A test candidate is only said to be a solution if it is new. -/
theorem addTestCandidate_flag {candidate : TestCandidate V}
    (h : (addTestCandidate condition e candidate).generatedTestCandidateBeingASolution = true) :
    e.generatedTestCandidateBeingASolution = true ∨ (condition.constraint.relation = .eq ∧
      candidate.sideCondition = ∅ ∧ e.state.New candidate) := by
  rw [State.addTestCandidate] at h
  by_cases hnew : e.state.New candidate
  · rw [addChild_new hnew, if_pos rfl] at h
    rcases (Bool.or_eq_true _ _).mp h with hsol | h
    · obtain ⟨hrel, hside⟩ := of_decide_eq_true hsol
      exact .inr ⟨hrel, hside, hnew⟩
    · exact .inl h
  · obtain ⟨children, hadd, -⟩ := addChild_known hnew condition.id
      (if condition.constraint.relation = .eq ∧ candidate.sideCondition = ∅
        then some condition.id else none)
    rw [hadd, if_neg Bool.false_ne_true] at h
    exact .inl h

theorem addTestCandidate_tooHighDegreeConditions (candidate : TestCandidate V) :
    (State.addTestCandidate condition e candidate).state.tooHighDegreeConditions
      = e.state.tooHighDegreeConditions := by
  rw [State.addTestCandidate, addChild]
  split_ifs <;> rfl

/-! ## The test candidates of a factor -/

theorem Generated.foldl (h : Generated s condition.id sideConditions processed e)
    (candidates : List (TestCandidate V))
    (hside : ∀ candidate ∈ candidates, sideConditions ⊆ candidate.sideCondition) :
    Generated s condition.id sideConditions
      (fun d => processed d ∨ d ∈ candidates)
      (candidates.foldl (State.addTestCandidate condition) e) := by
  induction candidates generalizing e processed with
  | nil =>
    simp only [not_mem_nil, or_false]
    exact h
  | cons candidate candidates ih =>
    have hrest := ih (h.addTestCandidate (hside candidate mem_cons_self))
      fun d hd => hside d (mem_cons_of_mem _ hd)
    simp only [or_assoc] at hrest
    simp only [mem_cons]
    exact hrest

theorem foldl_flag (h : Generated s condition.id sideConditions processed e) {candidates : List (TestCandidate V)}
    (hside : ∀ candidate ∈ candidates, sideConditions ⊆ candidate.sideCondition) (hflag : (candidates.foldl (State.addTestCandidate condition)
      e).generatedTestCandidateBeingASolution = true) :
    e.generatedTestCandidateBeingASolution = true ∨ (condition.constraint.relation = .eq ∧
      ∃ candidate ∈ candidates, candidate.sideCondition = ∅ ∧ s.New candidate) := by
  induction candidates generalizing e processed with
  | nil => exact .inl hflag
  | cons candidate candidates ih =>
    rcases ih (h.addTestCandidate (hside candidate mem_cons_self))
      (fun d hd => hside d (mem_cons_of_mem _ hd)) hflag with hflag | ⟨hrel, d, hd, hside, hnew⟩
    · refine (addTestCandidate_flag hflag).imp_right fun ⟨hrel, hside, hnew⟩ => ?_
      obtain ⟨old, new, hchildren, -, hold, -⟩ := h.children
      exact ⟨hrel, candidate, mem_cons_self, hside, hnew.of_extended hold hchildren⟩
    · exact .inr ⟨hrel, d, mem_cons_of_mem _ hd, hside, hnew⟩

theorem foldl_tooHighDegreeConditions (candidates : List (TestCandidate V)) :
    (candidates.foldl (State.addTestCandidate condition) e).state.tooHighDegreeConditions
      = e.state.tooHighDegreeConditions := by
  induction candidates generalizing e with
  | nil => rfl
  | cons candidate candidates ih =>
    rw [foldl_cons, ih, addTestCandidate_tooHighDegreeConditions]

/-! ## The factors of a condition -/

variable (lib : EliminationLibrary V)

theorem Generated.eliminateFactor (h : Generated s condition.id sideConditions processed e)
    (f : Poly V ℚ) : Generated s condition.id sideConditions
      (fun d => processed d ∨ d ∈ testCandidates lib s.index condition.constraint.relation
        sideConditions f) (eliminateFactor lib condition sideConditions e f) := by
  rw [State.eliminateFactor, h.index]
  dsimp only
  by_cases hdeg : 2 < Poly.maxDegree s.index f
  · rw [if_pos hdeg, testCandidates_of_lt hdeg]
    simp only [not_mem_nil, or_false]
    exact ⟨h.index, h.conditions, h.inconsistent, h.children, h.provided⟩
  · rw [if_neg hdeg]
    have hfold := h.foldl (testCandidates lib s.index condition.constraint.relation
      sideConditions f) fun _ => subset_sideCondition
    split_ifs
    · obtain ⟨old, new, hchildren, hlen, hold, hplain⟩ := hfold.children
      refine ⟨hfold.index, hfold.conditions, hfold.inconsistent,
        ⟨old, new, hchildren, hlen, hold, fun hflag => hplain (.inr ?_)⟩, hfold.provided⟩
      rcases hflag with hflag | hne
      · exact of_decide_eq_false hflag
      · exact hne
    · exact hfold

variable {lib}

theorem eliminateFactor_flag (h : Generated s condition.id sideConditions processed e)
    {f : Poly V ℚ} (hflag : (State.eliminateFactor lib condition sideConditions e
      f).generatedTestCandidateBeingASolution = true) :
    e.generatedTestCandidateBeingASolution = true ∨ (condition.constraint.relation = .eq ∧
      sideConditions = ∅ ∧ Poly.maxDegree s.index f ≤ 2 ∧
      (testCandidates lib s.index condition.constraint.relation sideConditions f = [] ∨
        ∃ candidate ∈ testCandidates lib s.index condition.constraint.relation sideConditions f,
          candidate.sideCondition = ∅ ∧ s.New candidate)) := by
  rw [State.eliminateFactor, h.index] at hflag
  dsimp only at hflag
  by_cases hdeg : 2 < Poly.maxDegree s.index f
  · rw [if_pos hdeg] at hflag
    exact .inl hflag
  · rw [if_neg hdeg] at hflag
    split_ifs at hflag with hempty
    · exact .inr ⟨hempty.2, of_decide_eq_true hflag, not_lt.mp hdeg, .inl hempty.1⟩
    · refine (foldl_flag h (fun _ => subset_sideCondition) hflag).imp_right ?_
      rintro ⟨hrel, candidate, hmem, hside, hnew⟩
      have hempty : sideConditions ⊆ ∅ := hside ▸ subset_sideCondition hmem
      exact ⟨hrel, Finset.subset_empty.mp hempty, not_lt.mp hdeg,
        .inr ⟨candidate, hmem, hside, hnew⟩⟩

theorem eliminateFactor_tooHighDegreeConditions (lib : EliminationLibrary V)
    (condition : Condition V) (sideConditions : Finset (ConstraintT V))
    (h : e.state.index = s.index) (f : Poly V ℚ) :
    (State.eliminateFactor lib condition sideConditions e f).state.tooHighDegreeConditions
      = if 2 < Poly.maxDegree s.index f then insert condition.id e.state.tooHighDegreeConditions
        else e.state.tooHighDegreeConditions := by
  rw [State.eliminateFactor, h]
  by_cases hdeg : 2 < Poly.maxDegree s.index f
  · rw [if_pos hdeg, if_pos hdeg]
  · rw [if_neg hdeg, if_neg hdeg]
    dsimp only
    split_ifs
    · exact foldl_tooHighDegreeConditions (V := V) _
    · exact foldl_tooHighDegreeConditions (V := V) _

/-- What the loop over the factors does. -/
theorem foldl_eliminateFactor (lib : EliminationLibrary V)
    (h : Generated s condition.id sideConditions processed e)
    (fs : List (Poly V ℚ)) :
    Generated s condition.id sideConditions
      (fun d => processed d ∨ ∃ f ∈ fs, d ∈ testCandidates lib s.index condition.constraint.relation
        sideConditions f) (fs.foldl (State.eliminateFactor lib condition sideConditions) e) ∧
    ((fs.foldl (State.eliminateFactor lib condition sideConditions)
        e).generatedTestCandidateBeingASolution = true →
      e.generatedTestCandidateBeingASolution = true ∨ (condition.constraint.relation = .eq ∧
        sideConditions = ∅ ∧ ∃ f ∈ fs, Poly.maxDegree s.index f ≤ 2 ∧
        (testCandidates lib s.index condition.constraint.relation sideConditions f = [] ∨
          ∃ candidate ∈ testCandidates lib s.index condition.constraint.relation sideConditions f,
            candidate.sideCondition = ∅ ∧ s.New candidate))) ∧
    e.state.tooHighDegreeConditions ⊆ (fs.foldl (State.eliminateFactor lib condition sideConditions)
      e).state.tooHighDegreeConditions ∧
    ((∃ f ∈ fs, 2 < Poly.maxDegree s.index f) → condition.id ∈
      (fs.foldl (State.eliminateFactor lib condition sideConditions)
        e).state.tooHighDegreeConditions) := by
  induction fs generalizing e processed with
  | nil =>
    refine ⟨?_, .inl, subset_rfl, fun ⟨f, hf, _⟩ => absurd hf not_mem_nil⟩
    simp only [not_mem_nil, false_and, exists_false, or_false]
    exact h
  | cons f fs ih =>
    obtain ⟨hgen, hflag, hsub, hhigh⟩ := ih (h.eliminateFactor lib f)
    have htoo := eliminateFactor_tooHighDegreeConditions lib condition sideConditions h.index f
    refine ⟨?_, fun hfinal => ?_, ?_, ?_⟩
    · simp only [or_assoc] at hgen
      simp only [exists_mem_cons_iff]
      exact hgen
    · rcases hflag hfinal with hfst | ⟨hrel, hside, g, hg, hrest⟩
      · refine (eliminateFactor_flag h hfst).imp_right ?_
        rintro ⟨hrel, hside, hrest⟩
        exact ⟨hrel, hside, f, mem_cons_self, hrest⟩
      · exact .inr ⟨hrel, hside, g, mem_cons_of_mem f hg, hrest⟩
    · refine Finset.Subset.trans ?_ hsub
      rw [htoo]
      split_ifs
      · exact Finset.subset_insert ..
      · exact subset_rfl
    · rintro ⟨g, hg, hdeg⟩
      rcases mem_cons.mp hg with rfl | hg
      · refine hsub ?_
        rw [htoo, if_pos hdeg]
        exact Finset.mem_insert_self ..
      · exact hhigh ⟨g, hg, hdeg⟩

variable (lib) (settings : Settings)

/-- The loop over the factors of a condition. -/
theorem generate_spec (condition : Condition V) (s : State V) :
    Generated s condition.id
      (sideConditionsOf lib settings.elimination_with_factorization s.index condition.constraint.lhs)
      (· ∈ allTestCandidates lib settings.elimination_with_factorization s.index
        condition.constraint) (generate lib settings condition s) ∧
    ((generate lib settings condition s).generatedTestCandidateBeingASolution = true →
      condition.constraint.relation = .eq ∧ sideConditionsOf lib
        settings.elimination_with_factorization s.index condition.constraint.lhs = ∅ ∧
      ∃ f ∈ factorsOf lib settings.elimination_with_factorization s.index condition.constraint.lhs,
        Poly.maxDegree s.index f ≤ 2 ∧ (testCandidates lib s.index .eq ∅ f = [] ∨
          ∃ candidate ∈ testCandidates lib s.index .eq ∅ f,
            candidate.sideCondition = ∅ ∧ s.New candidate)) ∧
    s.tooHighDegreeConditions ⊆ (generate lib settings condition s).state.tooHighDegreeConditions ∧
    ((∃ f ∈ factorsOf lib settings.elimination_with_factorization s.index condition.constraint.lhs,
        2 < Poly.maxDegree s.index f) →
      condition.id ∈ (generate lib settings condition s).state.tooHighDegreeConditions) := by
  have hinit : Generated s condition.id
      (sideConditionsOf lib settings.elimination_with_factorization s.index condition.constraint.lhs)
      (fun _ => False) ⟨s, false, 0⟩ :=
    ⟨rfl, rfl, rfl, ⟨s.children, [], (append_nil _).symm, rfl,
      List.forall₂_same.mpr fun child _ => Extended.refl child,
      fun _ child hch => absurd hch not_mem_nil⟩, fun _ h => h.elim⟩
  obtain ⟨hgen, hflag, hsub, hhigh⟩ := foldl_eliminateFactor lib hinit
    (factorsOf lib settings.elimination_with_factorization s.index condition.constraint.lhs)
  refine ⟨⟨hgen.index, hgen.conditions, hgen.inconsistent, hgen.children,
    fun candidate hmem => hgen.provided candidate (.inr (mem_flatMap.mp hmem))⟩,
    fun h => ?_, hsub, hhigh⟩
  obtain ⟨hrel, hside, hfac⟩ := (hflag h).resolve_left Bool.false_ne_true
  rw [hrel, hside] at hfac
  exact ⟨hrel, hside, hfac⟩

end State

end Smtrat.VS
