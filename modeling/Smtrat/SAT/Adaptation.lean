import Smtrat.SAT.Creation

/-!
# Adapting and backtracking

Directly after an adaptation the passed formula consists of the relevant constraints whose literals
are true.  When the search answers that the formula is satisfiable, a constraint may still be
waiting; it should be satisfied by the model of the backends then.
-/

namespace Smtrat

open PropFormula List

universe u v

namespace SAT

variable {B : Type u} {C : Type v}

/-! ## Adaptations -/

namespace Tracks

variable {equivalentToTrue : Formula (Atom B C) → Bool} {s s' : State B C} {l : Lit}

theorem adapted_of_some (h : s.Adapts s') {a : Abstraction (Atom B C)}
    (ha : s.mBooleanConstraintMap l = some a) :
    ∃ a', s'.mBooleanConstraintMap l = some a' ∧ a.Adapted a' := by
  have hrel := h.adapted l
  rw [ha] at hrel
  cases hs : s'.mBooleanConstraintMap l with
  | none => rw [hs] at hrel; cases hrel
  | some a' =>
    rw [hs] at hrel
    cases hrel with
    | some had => exact ⟨a', rfl, had⟩

theorem adapted_of_some' (h : s.Adapts s') {a' : Abstraction (Atom B C)}
    (ha' : s'.mBooleanConstraintMap l = some a') :
    ∃ a, s.mBooleanConstraintMap l = some a ∧ a.Adapted a' := by
  have hrel := h.adapted l
  rw [ha'] at hrel
  cases hs : s.mBooleanConstraintMap l with
  | none => rw [hs] at hrel; cases hrel
  | some a =>
    rw [hs] at hrel
    cases hrel with
    | some had => exact ⟨a, rfl, had⟩

/-- An adaptation after which nothing is waiting. -/
theorem adapts (h : Tracks equivalentToTrue s) (had : s.Adapts s')
    (hu : ∀ l a, s'.mBooleanConstraintMap l = some a → a.updateInfo = 0) (answer : Answer) :
    Tracks equivalentToTrue { s' with
      mChangedBooleans := [], mCurrentAssignmentConsistent := answer } := by
  have hframe := had.frame
  refine ⟨had.abstracted, ?_, ?_, ?_, ?_, ?_⟩
  · intro l a' ha'
    obtain ⟨a, ha, hadapt⟩ := adapted_of_some' had ha'
    have ht := h.tracked l a ha
    have hv : s'.value l = s.value l := by
      obtain ⟨m, M, b, rfl⟩ := hframe
      rfl
    refine ⟨hadapt.counted, fun h0 => absurd (hu l a' ha') h0, fun hl => ?_, fun hc hv' hnt => ?_⟩
    · obtain ⟨hc, hv'⟩ := ht.sound (hadapt.listed.mp hl)
      exact ⟨hadapt.consistencyRelevant.trans hc, hv.trans hv'⟩
    · rw [hadapt.reabstraction] at hnt
      exact hadapt.listed.mpr
        (ht.complete (hadapt.consistencyRelevant.symm.trans hc) (hv.symm.trans hv') hnt)
  · intro l hl
    have hn : s'.nVars = s.nVars ∧ s'.assigns = s.assigns := by
      obtain ⟨m, M, b, rfl⟩ := hframe
      exact ⟨rfl, rfl⟩
    obtain ⟨h₁, h₂⟩ := h.unused l (hn.1 ▸ hl)
    refine ⟨by rw [← h₁, ← hn.2], ?_⟩
    cases hs : s'.mBooleanConstraintMap l with
    | none => rfl
    | some a' =>
      obtain ⟨a, ha, -⟩ := adapted_of_some' had hs
      rw [h₂] at ha
      cases ha
  · intro f l
    have hlit : s'.mConstraintLiteralMap = s.mConstraintLiteralMap := by
      obtain ⟨m, M, b, rfl⟩ := hframe
      rfl
    refine (iff_of_eq (congrArg (· f = some l) hlit)).trans ((h.literals f l).trans ?_)
    constructor
    · rintro ⟨a, ha, hre⟩
      obtain ⟨a', ha', hadapt⟩ := adapted_of_some had ha
      exact ⟨a', ha', hadapt.reabstraction.trans hre⟩
    · rintro ⟨a', ha', hre⟩
      obtain ⟨a, ha, hadapt⟩ := adapted_of_some' had ha'
      exact ⟨a, ha, hadapt.reabstraction.symm.trans hre⟩
  · intro l a' c ha' hre
    obtain ⟨a, ha, hadapt⟩ := adapted_of_some' had ha'
    obtain ⟨b, hb, hbre⟩ := h.sides l a c ha (hadapt.reabstraction.symm.trans hre)
    obtain ⟨b', hb', hadapt'⟩ := adapted_of_some had hb
    exact ⟨b', hb', hadapt'.reabstraction.trans hbre⟩
  · intro hp l
    have hp' : s.mReceivedFormulaPurelyPropositional = true := by
      obtain ⟨m, M, b, rfl⟩ := hframe
      exact hp
    cases hs : s'.mBooleanConstraintMap l with
    | none => rfl
    | some a' =>
      obtain ⟨a, ha, -⟩ := adapted_of_some' had hs
      rw [h.propositional hp' l] at ha
      cases ha

variable [DecidableEq B] [DecidableEq C]

theorem foldl_updateInfo (h : Tracks equivalentToTrue s) :
    ∀ l a, (s.mChangedBooleans.foldl State.adaptVariable s).mBooleanConstraintMap l = some a →
      a.updateInfo = 0 := by
  obtain ⟨had, hu⟩ := State.foldl_adaptVariable h.abstracted s.mChangedBooleans
  intro l a ha
  by_cases hl : l.var ∈ s.mChangedBooleans
  · exact hu l a hl ha
  · refine had.updateInfo (fun b hb => ?_) a ha
    by_contra hne
    exact hl ((h.tracked l b hb).changed hne)

theorem adaptPassedFormula_eq (s : State B C) :
    ∃ answer, s.adaptPassedFormula = { s.mChangedBooleans.foldl State.adaptVariable s with
      mChangedBooleans := [], mCurrentAssignmentConsistent := answer } := by
  simp only [State.adaptPassedFormula]
  split_ifs
  · exact ⟨_, rfl⟩
  · exact ⟨_, rfl⟩

theorem adaptPassedFormula (h : Tracks equivalentToTrue s) :
    Tracks equivalentToTrue s.adaptPassedFormula ∧
      ∀ l a, s.adaptPassedFormula.mBooleanConstraintMap l = some a → a.updateInfo = 0 := by
  obtain ⟨answer, heq⟩ := adaptPassedFormula_eq s
  have had := (State.foldl_adaptVariable h.abstracted s.mChangedBooleans).1
  rw [heq]
  exact ⟨h.adapts had h.foldl_updateInfo answer, h.foldl_updateInfo⟩

end Tracks

/-! ## What the passed formula should be -/

namespace State

/-- The relevant constraints whose literals are true. -/
def Active (s : State B C) (f : Formula (Atom B C)) : Prop :=
  ∃ l a, s.mBooleanConstraintMap l = some a ∧ a.reabstraction = f ∧
    a.consistencyRelevant = true ∧ s.value l = some true

/-- The passed formula consists of the active constraints, each added once; those that are
equivalent to true may be missing. -/
structure ExactlyPassed (equivalentToTrue : Formula (Atom B C) → Bool) (s : State B C) : Prop where
  nodup : s.passedFormula.formulas.Nodup
  active : ∀ f ∈ s.passedFormula.formulas, s.Active f
  passed : ∀ f, s.Active f → equivalentToTrue f = false → f ∈ s.passedFormula.formulas

/-- The return of `search` for a satisfiable formula: there is nothing to decide on, and the last
check is taken for an answer about the current assignment. -/
def answersSat (s : State B C) : Bool :=
  s.fullAssignment && s.assumptions.length ≤ s.decisionLevel &&
    (s.mReceivedFormulaPurelyPropositional || s.mCurrentAssignmentConsistent = .sat)

/-- When the answer is given, the active constraints are passed or hold in the backends' model. -/
def SatCovered (equivalentToTrue : Formula (Atom B C) → Bool) (s : State B C) : Prop :=
  s.answersSat = true → ∀ f, s.Active f → equivalentToTrue f = false →
    f ∈ s.passedFormula.formulas ∨ s.backends.model f = true

end State

namespace Tracks

variable {equivalentToTrue : Formula (Atom B C) → Bool} {s : State B C}

theorem formulas_nodup {A : Type u} {m : ModuleInput A} (h : m.WellFormed) :
    m.formulas.Nodup := by
  have hel : m.elements.Nodup := h.positions_nodup.of_map _
  exact hel.map_on fun e he e' he' heq => h.eq_of_formula he he' heq

theorem mem_formulas (h : Tracks equivalentToTrue s) {f : Formula (Atom B C)} :
    f ∈ s.passedFormula.formulas ↔
      ∃ l a, s.mBooleanConstraintMap l = some a ∧ a.reabstraction = f ∧ a.position.isSome := by
  rw [ModuleInput.formulas, mem_map]
  constructor
  · rintro ⟨e, he, rfl⟩
    obtain ⟨l, a, ha, hp⟩ := h.abstracted.linked.element e he
    obtain ⟨e', he', hpos, hf, -⟩ := h.abstracted.linked.position l a _ ha hp
    obtain rfl := h.abstracted.linked.wellFormed.eq_of_position he' he hpos
    exact ⟨l, a, ha, hf.symm, by simp [hp]⟩
  · rintro ⟨l, a, ha, hre, hp⟩
    obtain ⟨it, hit⟩ := Option.isSome_iff_exists.mp hp
    obtain ⟨e, he, -, hf, -⟩ := h.abstracted.linked.position l a it ha hit
    exact ⟨e, he, hf.trans hre⟩

theorem exactlyPassed (h : Tracks equivalentToTrue s)
    (hu : ∀ l a, s.mBooleanConstraintMap l = some a → a.updateInfo = 0) :
    s.ExactlyPassed equivalentToTrue where
  nodup := formulas_nodup h.abstracted.linked.wellFormed
  active := by
    intro f hf
    obtain ⟨l, a, ha, hre, hp⟩ := h.mem_formulas.mp hf
    obtain ⟨hc, hv⟩ := (h.tracked l a ha).sound
      ((Abstraction.listed_of_updateInfo (hu l a ha)).mpr hp)
    exact ⟨l, a, ha, hre, hc, hv⟩
  passed := by
    rintro f ⟨l, a, ha, rfl, hc, hv⟩ hnt
    have hl := (h.tracked l a ha).complete hc hv hnt
    exact h.mem_formulas.mpr ⟨l, a, ha, rfl, (Abstraction.listed_of_updateInfo (hu l a ha)).mp hl⟩

theorem satCovered (h : Tracks equivalentToTrue s) (hs : Covered equivalentToTrue s) :
    s.SatCovered equivalentToTrue := by
  rintro hans f ⟨l, a, ha, rfl, hc, hv⟩ hnt
  have hsat : s.mCurrentAssignmentConsistent = .sat := by
    simp only [State.answersSat, Bool.and_eq_true, Bool.or_eq_true, decide_eq_true_eq] at hans
    refine hans.2.resolve_left fun hp => ?_
    rw [h.propositional hp l] at ha
    cases ha
  have hl := (h.tracked l a ha).complete hc hv hnt
  cases hp : a.position with
  | some it => exact Or.inl (h.mem_formulas.mpr ⟨l, a, ha, rfl, by simp [hp]⟩)
  | none =>
    have h1 : a.updateInfo = 1 := by simpa [Abstraction.Listed, hp] using hl
    exact Or.inr (hs hsat l a ha (by omega) hnt)

end Tracks

/-! ## Backtracking -/

/-- What holds between the operations. -/
structure Invariant (equivalentToTrue : Formula (Atom B C) → Bool) (s : State B C) : Prop where
  tracks : Tracks equivalentToTrue s
  mem_trail : ∀ l, l ∈ s.trail ↔ s.value l = some true
  trail_nodup : s.trail.Nodup

namespace State

variable {equivalentToTrue : Formula (Atom B C) → Bool} {s : State B C}

theorem resetVariableAssignment_frame (s : State B C) (v : Var) :
    ∃ M changed, s.resetVariableAssignment v = { s with
      assigns := s.assigns.reset v
      mChangedBooleans := changed
      mBooleanConstraintMap := M } := by
  have hcnt : ∀ l a, ∃ M changed, s.countReset l a = { s with
      mChangedBooleans := changed
      mBooleanConstraintMap := M } := by
    intro l a
    rw [countReset]
    split_ifs
    · exact ⟨_, _, rfl⟩
    · exact ⟨_, _, rfl⟩
    · exact ⟨_, _, rfl⟩
    · exact ⟨_, _, rfl⟩
    · exact ⟨_, _, rfl⟩
  rw [resetVariableAssignment]
  split_ifs
  · exact ⟨_, _, rfl⟩
  · split
    · exact ⟨_, _, rfl⟩
    · obtain ⟨M, changed, heq⟩ := hcnt _ _
      exact ⟨M, changed, by rw [heq]⟩

/-- Two true literals over one variable are the same. -/
theorem eq_of_true {assigns : Assigns} {k l : Lit} (hk : assigns.value k = some true)
    (hl : assigns.value l = some true) (hv : k.var = l.var) : k = l := by
  refine (Lit.eq_or_eq_neg hv).resolve_right ?_
  rintro rfl
  rw [Assigns.value_neg_eq_true, hl] at hk
  cases hk

theorem value_reset_iff {assigns : Assigns} {l : Lit} (hl : assigns.value l = some true)
    (k : Lit) : (assigns.reset l.var).value k = some true ↔ assigns.value k = some true ∧ k ≠ l := by
  by_cases hv : k.var = l.var
  · rw [Assigns.value_reset hv]
    exact iff_of_false nofun fun ⟨hk, hne⟩ => hne (eq_of_true hk hl hv)
  · rw [Assigns.value, Assigns.reset, Function.update_of_ne hv, ← Assigns.value]
    exact (and_iff_left fun hk => hv (congrArg _ hk)).symm

/-- The values after some variables have been reset. -/
theorem foldl_reset_spec {L : List Lit} (h : Tracks equivalentToTrue s) (hnd : L.Nodup)
    (hL : ∀ l ∈ L, s.value l = some true) :
    Tracks equivalentToTrue (L.foldl (fun s l => s.resetVariableAssignment l.var) s) ∧
      (Covered equivalentToTrue s → Covered equivalentToTrue
        (L.foldl (fun s l => s.resetVariableAssignment l.var) s)) ∧
      ∃ assigns M changed, L.foldl (fun s l => s.resetVariableAssignment l.var) s = { s with
          assigns := assigns
          mChangedBooleans := changed
          mBooleanConstraintMap := M } ∧
        ∀ k, assigns.value k = some true ↔ s.value k = some true ∧ k ∉ L := by
  induction L generalizing s with
  | nil => exact ⟨h, id, s.assigns, _, _, rfl, fun k => (and_iff_left not_mem_nil).symm⟩
  | cons l L ih =>
    have hl := hL l mem_cons_self
    have hlt : l.var < s.nVars := by
      by_contra hge
      rw [value, Assigns.value_eq_true, (h.unused l (Nat.not_lt.mp hge)).1] at hl
      cases hl
    obtain ⟨h₁, hc₁⟩ := resetVariableAssignment_spec h hl hlt
    obtain ⟨M₁, changed₁, hs₁⟩ := resetVariableAssignment_frame s l.var
    have hv₁ : ∀ k, (s.resetVariableAssignment l.var).value k = some true ↔
        s.value k = some true ∧ k ≠ l := by
      rw [hs₁]
      exact value_reset_iff hl
    obtain ⟨hnl, hnd⟩ := nodup_cons.mp hnd
    obtain ⟨h₂, hc₂, assigns, M, changed, heq, hv₂⟩ := ih h₁ hnd fun k hk =>
      (hv₁ k).mpr ⟨hL k (mem_cons_of_mem l hk), fun hkl => hnl (hkl ▸ hk)⟩
    refine ⟨h₂, hc₂ ∘ hc₁, assigns, M, changed, ?_, fun k => ?_⟩
    · rw [foldl_cons, heq, hs₁]
    · rw [hv₂, hv₁, mem_cons, not_or, and_assoc]

theorem cancelUntil_spec (h : Invariant equivalentToTrue s) (level : Nat) (force : Bool) :
    Invariant equivalentToTrue (s.cancelUntil level force) ∧
      (Covered equivalentToTrue s → Covered equivalentToTrue (s.cancelUntil level force)) := by
  simp only [cancelUntil]
  generalize (if level < s.assumptions.length && !force then s.assumptions.length else level) = n
  split_ifs with hlt
  swap
  · exact ⟨h, id⟩
  · rw [cancelAssignmentUntil, assignedAbove]
    generalize s.trail_lim.getD n s.trail.length = i
    have hnd : (s.trail.drop i).reverse.Nodup :=
      nodup_reverse.mpr (h.trail_nodup.sublist (drop_sublist i _))
    obtain ⟨ht, hc, assigns, M, changed, heq, hv⟩ := foldl_reset_spec h.tracks hnd fun l hl =>
      (h.mem_trail l).mp (mem_of_mem_drop (mem_reverse.mp hl))
    rw [heq] at ht hc ⊢
    refine ⟨⟨⟨ht.abstracted, ht.tracked, ht.unused, ht.literals, ht.sides, ht.propositional⟩,
      fun l => ?_, h.trail_nodup.sublist (take_sublist i _)⟩, hc⟩
    have hval : l ∈ s.trail.take i ↔ assigns.value l = some true := by
      rw [hv, ← h.mem_trail, mem_reverse]
      have hsplit := take_append_drop i s.trail
      have hdis := disjoint_of_nodup_append (hsplit.symm ▸ h.trail_nodup)
      constructor
      · exact fun hl => ⟨mem_of_mem_take hl, fun hd => hdis hl hd⟩
      · rintro ⟨hl, hd⟩
        rw [← hsplit, mem_append] at hl
        exact hl.resolve_right hd
    exact hval

end State

end SAT

end Smtrat
