import Smtrat.STrop.STropModule

/-!
# Updates of the linearization

What the inner solver has been given is known by name: a linearization by its separator, and the
restriction to exponents that are not negative by its variable.  The loops of a check replace these
formulas one after the other, and the inner solver ends up with those that the new directions and
the received variables ask for, unless a formula is withdrawn while it has a part in common with
another one.
-/

namespace Smtrat.STrop

open SparsePoly PropFormula List Function

universe u v

/-- What a formula is asserted for. -/
inductive Name (V : Type u) where
  | separator (p : Poly V ℚ)
  | moment (x : V)
deriving DecidableEq

variable {V : Type u} {B : Type v}

/-- The separator with its next direction as the active one. -/
def Separator.redirected (s : Separator) : Separator := ⟨s.mRelations, nextDirection s⟩

/-- The direction of a separator is found again as long as the relations stay. -/
theorem nextDirection_redirected (s : Separator) :
    nextDirection s.redirected = nextDirection s := by
  obtain ⟨relations, direction⟩ := s
  rw [Separator.redirected]
  by_cases hneg : direction = some .negative ∧ (.less ∈ relations ∨ .leq ∈ relations)
  · simp [nextDirection, hneg.1, hneg.2]
  · by_cases hpos : direction = some .positive ∧ (.greater ∈ relations ∨ .geq ∈ relations)
    · simp [nextDirection, hpos.1, hpos.2]
    · have heq : nextDirection ⟨relations, direction⟩ = nextDirection ⟨relations, none⟩ := by
        rw [nextDirection, nextDirection, if_neg hneg, if_neg hpos]
        simp
      rw [heq]
      cases hr : nextDirection ⟨relations, none⟩ with
      | none => exact hr
      | some d =>
        unfold nextDirection at hr ⊢
        simp only [reduceCtorEq, false_and, if_false] at hr
        cases d with
        | both => simpa using hr
        | negative =>
          by_cases hsupp : .less ∈ relations ∨ .leq ∈ relations
          · simp [hsupp]
          · simpa [hsupp] using hr
        | positive =>
          by_cases hsupp : .greater ∈ relations ∨ .geq ∈ relations
          · simp [hsupp]
          · simpa [hsupp] using hr

namespace STropModule

section Update

variable [DecidableEq V] (lib : Library V B) (s : STropModule V B)

/-- The formulas asserted in the inner solver. -/
def active : Name V → Option (LinearFormula V)
  | .separator p => (s.mSeparators p).mActiveDirection.map (linearization lib p)
  | .moment x => if s.mUsed x then some (positivity lib x) else none

/-- The separators where some have got their next direction. -/
def during (ps : List (Poly V ℚ)) (p : Poly V ℚ) : Separator :=
  if p ∈ ps then (s.mSeparators p).redirected else s.mSeparators p

/-- No linearization is withdrawn while it has a part in common with another asserted formula, and
no restriction while it has one in common with a linearization. -/
def WithdrawsApart : Prop :=
  (∀ ps p qs d, lib.separatorOrder s.mChangedSeparators = ps ++ p :: qs →
    (s.mSeparators p).mActiveDirection = some d → nextDirection (s.mSeparators p) ≠ some d →
    Assertions.Apart ({ s with mSeparators := s.during ps }.active lib) (.separator p)
      (linearization lib p d)) ∧
  ∀ x, lib.int x → s.mUsed x → s.receivedVariable x = false → ∀ p d,
    nextDirection (s.mSeparators p) = some d →
      List.Disjoint (positivity lib x).conjuncts (linearization lib p d).conjuncts

variable {s' : STropModule V B}

omit [DecidableEq V] in
/-- What is asserted depends on the directions and on the moments in use. -/
theorem active_congr {s : STropModule V B}
    (hdir : ∀ p, (s'.mSeparators p).mActiveDirection = (s.mSeparators p).mActiveDirection)
    (hused : s'.mUsed = s.mUsed) : s'.active lib = s.active lib := by
  funext i
  cases i with
  | separator p => rw [active, active, hdir]
  | moment x => rw [active, active, hused]

variable {x : V}

/-- The restrictions are different for different variables. -/
theorem positivity_injective {y : V} (h : positivity lib x = positivity lib y) : x = y := by
  by_contra hne
  let a : Assignment (InnerVariable V) V :=
    ⟨fun z => if z = .normalVector x then 0 else -1, fun _ => false, fun _ => false⟩
  have hx : a.Satisfies (positivity lib x) := by
    rw [positivity, lib.linear.satisfies_constraint, Poly.eval_var]
    simp [a, Relation.evaluate]
  have hy : ¬ a.Satisfies (positivity lib y) := by
    have hyx : ¬ y = x := fun hyx => hne hyx.symm
    rw [positivity, lib.linear.satisfies_constraint, Poly.eval_var]
    simp [a, Relation.evaluate, hyx]
  exact hy (h ▸ hx)

omit [DecidableEq V] in
theorem conjuncts_positivity (x : V) : (positivity lib x).conjuncts = [positivity lib x] :=
  Formula.conjuncts_of_not_isConjunction (lib.linear.isConjunction_constraint _ _)

variable {xs : List V}

theorem mem_createMoments {p : Poly V ℚ} :
    x ∈ createMoments xs p ↔ x ∈ xs ∨ x ∈ Poly.variables p := by
  unfold createMoments
  induction Poly.variables p generalizing xs with
  | nil => simp
  | cons y ys ih =>
    rw [foldl_cons, ih, mem_cons, ← or_assoc]
    refine or_congr_left ?_
    by_cases hy : y ∈ xs
    · rw [if_pos hy]
      constructor
      · exact .inl
      · rintro (hx | rfl)
        · exact hx
        · exact hy
    · rw [if_neg hy, mem_append, mem_singleton]

/-- What the inner solver and the moments have to do with the active directions. -/
structure Synchronised : Prop where
  asserted : Assertions.Inv (s.active lib) s.inner
  moments : ∀ p d, (s.mSeparators p).mActiveDirection = some d →
    ∀ x ∈ Poly.variables p, x ∈ s.moments
  used : ∀ x, s.mUsed x → lib.int x ∧ x ∈ s.moments

variable {lib s}

omit [DecidableEq V] in
/-- Nothing but the directions, the moments and the formulas of the inner solver matters. -/
theorem Synchronised.congr (h : Synchronised lib s)
    (hdir : ∀ p, (s'.mSeparators p).mActiveDirection = (s.mSeparators p).mActiveDirection)
    (hused : s'.mUsed = s.mUsed) (hinner : s'.inner = s.inner) (hmoments : s'.moments = s.moments) :
    Synchronised lib s' where
  asserted := by
    rw [active_congr lib hdir hused, hinner]
    exact h.asserted
  moments := by
    intro p d hd
    rw [hmoments]
    exact h.moments p d (by rw [← hdir, hd])
  used := by
    rw [hused, hmoments]
    exact h.used

/-! ## The loop over the separators -/

/-- The state after some of the separators have been updated. -/
structure AfterSeparators (lib : Library V B) (s : STropModule V B) (ps : List (Poly V ℚ)) (s' : STropModule V B) :
    Prop where
  synchronised : Synchronised lib s'
  mSeparators : s'.mSeparators = s.during ps
  frame : s' = { s with
    inner := s'.inner, moments := s'.moments, mSeparators := s'.mSeparators }

theorem during_append (ps : List (Poly V ℚ)) (p : Poly V ℚ) :
    s.during (ps ++ [p]) = update (s.during ps) p (s.mSeparators p).redirected := by
  funext q
  by_cases hq : q = p
  · subst hq
    simp [during]
  · simp [during, hq]

/-- One turn replaces the linearization of one separator. -/
theorem updateSeparator_spec {ps : List (Poly V ℚ)} {p : Poly V ℚ} (h : AfterSeparators lib s ps s')
    (hapart : ∀ d, (s.mSeparators p).mActiveDirection = some d →
      nextDirection (s.mSeparators p) ≠ some d →
      Assertions.Apart ({ s with mSeparators := s.during ps }.active lib) (.separator p)
        (linearization lib p d)) :
    ∃ s'', updateSeparator lib s' p = some s'' ∧ AfterSeparators lib s (ps ++ [p]) s'' := by
  have hnext : nextDirection (s'.mSeparators p) = nextDirection (s.mSeparators p) := by
    rw [h.mSeparators, during]
    split
    · exact nextDirection_redirected _
    · rfl
  have hrels : (s'.mSeparators p).mRelations = (s.mSeparators p).mRelations := by
    rw [h.mSeparators, during]
    split <;> rfl
  have hsep : (⟨(s'.mSeparators p).mRelations, nextDirection (s.mSeparators p)⟩ : Separator) =
      (s.mSeparators p).redirected := by
    rw [hrels, Separator.redirected]
  rw [updateSeparator, hnext]
  by_cases hsame : (s'.mSeparators p).mActiveDirection = nextDirection (s.mSeparators p)
  · refine ⟨s', if_pos hsame, h.synchronised, ?_, h.frame⟩
    rw [during_append, ← h.mSeparators, ← hsep, ← hsame]
    exact (update_eq_self p s'.mSeparators).symm
  · -- the separator has not been updated before
    have hold : s'.mSeparators p = s.mSeparators p := by
      rw [h.mSeparators, during] at hsame ⊢
      split at hsame
      · exact absurd rfl hsame
      · next hp => rw [if_neg hp]
    have hact : s'.active lib = { s with mSeparators := s.during ps }.active lib := by
      refine active_congr lib (fun q => by rw [h.mSeparators]) ?_
      rw [h.frame]
    obtain ⟨inner, hinner, hinv⟩ := h.synchronised.asserted.replace (i := .separator p)
      ((s'.mSeparators p).mActiveDirection.map (linearization lib p))
      ((nextDirection (s.mSeparators p)).map (linearization lib p)) rfl
      (fun f hf => by
        obtain ⟨d, hd, rfl⟩ := Option.map_eq_some_iff.mp hf
        rw [hact]
        rw [hold] at hd hsame
        exact hapart d hd fun hne => hsame (hd.trans hne.symm))
      (fun f hf => by
        obtain ⟨d, -, rfl⟩ := Option.map_eq_some_iff.mp hf
        exact flat_createLinearization _ _ _ _)
    rw [if_neg hsame, hinner]
    refine ⟨_, rfl, ⟨?_, ?_, ?_⟩, ?_, ?_⟩
    · convert hinv using 1
      funext i
      cases i with
      | separator q =>
        by_cases hq : q = p
        · subst hq
          simp [active]
        · have hne : Name.separator q ≠ .separator p := by simpa using hq
          simp [active, update_of_ne hne, update_of_ne hq]
      | moment x => rfl
    · intro q d hd x hx
      refine mem_createMoments.mpr ?_
      by_cases hq : q = p
      · exact .inr (hq ▸ hx)
      · refine .inl (h.synchronised.moments q d ?_ x hx)
        simpa [update_of_ne hq] using hd
    · intro x hx
      obtain ⟨hint, hmem⟩ := h.synchronised.used x hx
      exact ⟨hint, mem_createMoments.mpr (.inl hmem)⟩
    · dsimp only
      rw [during_append, hsep, h.mSeparators]
    · dsimp only
      rw [h.frame]

theorem foldlM_updateSeparator_spec {ps : List (Poly V ℚ)} (qs : List (Poly V ℚ))
    (h : AfterSeparators lib s ps s') (hapart : ∀ ps' p qs' d, ps ++ qs = ps' ++ p :: qs' →
      (s.mSeparators p).mActiveDirection = some d → nextDirection (s.mSeparators p) ≠ some d →
      Assertions.Apart ({ s with mSeparators := s.during ps' }.active lib) (.separator p)
        (linearization lib p d)) :
    ∃ s'', qs.foldlM (updateSeparator lib) s' = some s'' ∧
      AfterSeparators lib s (ps ++ qs) s'' := by
  induction qs generalizing ps s' with
  | nil => exact ⟨s', rfl, by rwa [append_nil]⟩
  | cons q qs ih =>
    obtain ⟨s₁, hs₁, h₁⟩ := updateSeparator_spec h fun d => hapart ps q qs d rfl
    obtain ⟨s₂, hs₂, h₂⟩ := ih h₁ (by simpa using hapart)
    refine ⟨s₂, ?_, by simpa using h₂⟩
    rw [foldlM_cons, hs₁]
    exact hs₂

/-! ## The loop over the moments -/

/-- The state after some of the moments have been updated. -/
structure AfterMoments (lib : Library V B) (s : STropModule V B) (xs : List V) (s' : STropModule V B) : Prop where
  synchronised : Synchronised lib s'
  mUsed : ∀ x, s'.mUsed x = if lib.int x ∧ x ∈ xs then s.receivedVariable x else s.mUsed x
  frame : s' = { s with inner := s'.inner, mUsed := s'.mUsed }

/-- One turn switches the restriction of one variable on or off. -/
theorem updateMoment_spec (h : AfterMoments lib s xs s') (hx : x ∈ s.moments)
    (hapart : lib.int x → s.mUsed x → s.receivedVariable x = false → ∀ p d,
      (s.mSeparators p).mActiveDirection = some d →
      List.Disjoint (positivity lib x).conjuncts (linearization lib p d).conjuncts) :
    ∃ s'', updateMoment lib s' x = some s'' ∧ AfterMoments lib s (xs ++ [x]) s'' := by
  have hreceived : s'.receivedVariable x = s.receivedVariable x := by
    rw [h.frame]
    rfl
  have hmSeparators : s'.mSeparators = s.mSeparators := by
    rw [h.frame]
  have hmoments : s'.moments = s.moments := by
    rw [h.frame]
  rw [updateMoment, hreceived]
  by_cases hchange : lib.int x && s'.mUsed x != s.receivedVariable x
  · obtain ⟨hint, hne⟩ : lib.int x = true ∧ s'.mUsed x ≠ s.receivedVariable x := by
      simpa using hchange
    have hflip : (!s'.mUsed x) = s.receivedVariable x := by
      cases hused : s'.mUsed x <;> cases hrec : s.receivedVariable x <;> simp_all
    -- the moment has not been updated before
    have hold : s'.mUsed x = s.mUsed x := by
      have hmem : ¬ (lib.int x ∧ x ∈ xs) := fun hmem => hne (by rw [h.mUsed x, if_pos hmem])
      rw [h.mUsed x, if_neg hmem]
    obtain ⟨inner, hinner, hinv⟩ := h.synchronised.asserted.replace (i := .moment x)
      (if s'.mUsed x then some (positivity lib x) else none)
      (if !s'.mUsed x then some (positivity lib x) else none) rfl
      (fun f hf => by
        split at hf
        · next hused =>
            cases hf
            rintro (p | y) g hne hg
            · obtain ⟨d, hd, rfl⟩ := Option.map_eq_some_iff.mp hg
              rw [hused] at hflip
              exact hapart hint (hold ▸ hused) hflip.symm p d (by rw [← hmSeparators]; exact hd)
            · rw [active] at hg
              split at hg
              · cases hg
                rw [conjuncts_positivity, conjuncts_positivity, disjoint_singleton, mem_singleton]
                intro heq
                exact hne (congrArg Name.moment (positivity_injective lib heq))
              · cases hg
        · cases hf)
      (fun f hf => by
        split at hf
        · cases hf
          exact lib.linear.flat_constraint _ _
        · cases hf)
    rw [if_pos hchange]
    dsimp only
    rw [hinner]
    refine ⟨_, rfl, ⟨?_, ?_, ?_⟩, ?_, ?_⟩
    · convert hinv using 1
      funext i
      cases i with
      | separator q => rfl
      | moment y =>
        by_cases hy : y = x
        · subst hy
          simp [active]
        · have hne : Name.moment y ≠ .moment x := by simpa using hy
          simp [active, update_of_ne hne, update_of_ne hy]
    · exact h.synchronised.moments
    · intro y hy
      by_cases hyx : y = x
      · subst hyx
        exact ⟨hint, hmoments ▸ hx⟩
      · refine h.synchronised.used y ?_
        simpa [update_of_ne hyx] using hy
    · intro y
      by_cases hyx : y = x
      · subst hyx
        simp [hint, hflip]
      · simp [h.mUsed y, hyx]
    · dsimp only
      rw [h.frame]
  · rw [if_neg hchange]
    refine ⟨s', rfl, h.synchronised, fun y => ?_, h.frame⟩
    by_cases hyx : y = x
    · subst hyx
      by_cases hint : lib.int y = true
      · have heq : s'.mUsed y = s.receivedVariable y := by simpa [hint] using hchange
        simp [hint, heq]
      · simp [h.mUsed y, hint]
    · simp [h.mUsed y, hyx]

theorem foldlM_updateMoment_spec (ys : List V)
    (h : AfterMoments lib s xs s') (hys : ∀ x ∈ ys, x ∈ s.moments)
    (hapart : ∀ x, lib.int x → s.mUsed x → s.receivedVariable x = false → ∀ p d,
      (s.mSeparators p).mActiveDirection = some d →
      List.Disjoint (positivity lib x).conjuncts (linearization lib p d).conjuncts) :
    ∃ s'', ys.foldlM (updateMoment lib) s' = some s'' ∧ AfterMoments lib s (xs ++ ys) s'' := by
  induction ys generalizing xs s' with
  | nil => exact ⟨s', rfl, by rwa [append_nil]⟩
  | cons y ys ih =>
    obtain ⟨s₁, hs₁, h₁⟩ := updateMoment_spec h (hys y mem_cons_self) (hapart y)
    obtain ⟨s₂, hs₂, h₂⟩ := ih h₁ fun x hx => hys x (mem_cons_of_mem y hx)
    refine ⟨s₂, ?_, by simpa using h₂⟩
    rw [foldlM_cons, hs₁]
    exact hs₂

/-! ## Both loops -/

/-- All separators have their next direction, and the moments of integers are used if they occur. -/
structure Updated (lib : Library V B) (s s' : STropModule V B) : Prop where
  synchronised : Synchronised lib s'
  mSeparators : ∀ p, s'.mSeparators p = (s.mSeparators p).redirected
  mUsed : ∀ x ∈ s'.moments, lib.int x → s'.mUsed x = s.receivedVariable x
  frame : s' = { s with
    inner := s'.inner, moments := s'.moments, mSeparators := s'.mSeparators, mUsed := s'.mUsed,
    mChangedSeparators := [] }

theorem updateLinearization_spec (h : Synchronised lib s)
    (hsettled : ∀ p, p ∉ s.mChangedSeparators →
      nextDirection (s.mSeparators p) = (s.mSeparators p).mActiveDirection)
    (hapart : s.WithdrawsApart lib) :
    ∃ s', s.updateLinearization lib = some s' ∧ Updated lib s s' := by
  have hstart : AfterSeparators lib s [] s :=
    ⟨h, by funext p; simp [during], rfl⟩
  obtain ⟨s₁, hs₁, h₁⟩ := foldlM_updateSeparator_spec
    (lib.separatorOrder s.mChangedSeparators) hstart (by simpa using hapart.1)
  have hmSeparators (p : Poly V ℚ) : s₁.mSeparators p = (s.mSeparators p).redirected := by
    rw [h₁.mSeparators, during]
    split
    · rfl
    · next hp =>
        have hp : p ∉ s.mChangedSeparators := fun hmem =>
          hp ((lib.separatorOrder_perm _).mem_iff.mpr hmem)
        rw [Separator.redirected, hsettled p hp]
  have hreceived : s₁.received = s.received := by rw [h₁.frame]
  have hused : s₁.mUsed = s.mUsed := by rw [h₁.frame]
  have hstart₂ : AfterMoments lib { s₁ with mChangedSeparators := [] } []
      { s₁ with mChangedSeparators := [] } := by
    refine ⟨⟨?_, h₁.synchronised.moments, h₁.synchronised.used⟩, by simp, rfl⟩
    exact h₁.synchronised.asserted
  obtain ⟨s₂, hs₂, h₂⟩ := foldlM_updateMoment_spec (lib.variableOrder s₁.moments) hstart₂
    (fun x hx => (lib.variableOrder_perm _).mem_iff.mp hx)
    (fun x hint hx hrec p d hd => by
      refine hapart.2 x hint (by rw [← hused]; exact hx) ?_ p d ?_
      · rw [← hrec, receivedVariable, receivedVariable, hreceived]
      · have := hmSeparators p
        dsimp only at hd
        rw [this] at hd
        exact hd)
  have hframe₂ := h₂.frame
  refine ⟨s₂, ?_, h₂.synchronised, fun p => ?_, fun x hx hint => ?_, ?_⟩
  · rw [updateLinearization, hs₁]
    exact hs₂
  · rw [hframe₂]
    exact hmSeparators p
  · have hmem : x ∈ lib.variableOrder s₁.moments := by
      rw [hframe₂] at hx
      exact (lib.variableOrder_perm _).mem_iff.mpr hx
    rw [h₂.mUsed x, if_pos ⟨hint, by simpa using hmem⟩, receivedVariable, receivedVariable,
      ← hreceived]
  · rw [hframe₂, h₁.frame]

end Update

end STropModule

end Smtrat.STrop
