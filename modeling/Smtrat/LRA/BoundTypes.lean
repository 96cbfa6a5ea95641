import Smtrat.LRA.Module
import Smtrat.LRA.RowSpace

/-!
# The types of bounds

The bound sets of a variable are sorted by side: whatever bound becomes a supremum is an upper
bound of its variable, and the one without a limit is the bound at plus infinity.  No action of
the module mixes the sides, whatever it does with origins, rows and values.
-/

namespace Smtrat.LRA

open Run List Function Option

namespace Bound

/-- The bound limits the variable `v` from above. -/
structure IsUpperOf (v : VarId) (b : Bound) : Prop where
  var : b.var = v
  side : b.isUpperBound = true
  infinite : b.limit = none → b.type = .upper

/-- The bound limits the variable `v` from below. -/
structure IsLowerOf (v : VarId) (b : Bound) : Prop where
  var : b.var = v
  side : b.isLowerBound = true
  infinite : b.limit = none → b.type = .lower

variable {v : VarId} {b : Bound}

theorem isUpperOf_infinite : (infinite v .upper).IsUpperOf v := ⟨rfl, rfl, fun _ => rfl⟩

theorem isLowerOf_infinite : (infinite v .lower).IsLowerOf v := ⟨rfl, rfl, fun _ => rfl⟩

/-- An infinite bound is not stronger than a supremum. -/
theorem limit_ne_none_of_gt {c : Bound} (hb : b.isUpperBound = true) (h : c.gt b = true) : b.limit ≠ none := by
  intro hnone
  have hlow : b.type = .lower := by
    cases hlim : c.limit <;> simp_all [gt]
  simp [isUpperBound, hlow] at hb

theorem limit_ne_none_of_lt {c : Bound} (hb : b.isLowerBound = true) (h : c.lt b = true) : b.limit ≠ none := by
  intro hnone
  have hup : b.type = .upper := by
    cases hlim : c.limit <;> simp_all [lt]
  simp [isLowerBound, hup] at hb

end Bound

namespace Bounds

/-- All bounds are on their side. -/
structure WellTyped (s : Bounds) : Prop where
  upperbounds : ∀ v, ∀ b ∈ s.upperbounds v, b.IsUpperOf v
  lowerbounds : ∀ v, ∀ b ∈ s.lowerbounds v, b.IsLowerOf v
  supremum : ∀ v, (s.supremum v).IsUpperOf v
  infimum : ∀ v, (s.infimum v).IsLowerOf v

variable {s : Bounds}

theorem wellTyped_empty : empty.WellTyped where
  upperbounds _ b hb := by
    rw [mem_singleton.mp hb]
    exact Bound.isUpperOf_infinite
  lowerbounds _ b hb := by
    rw [mem_singleton.mp hb]
    exact Bound.isLowerOf_infinite
  supremum _ := Bound.isUpperOf_infinite
  infimum _ := Bound.isLowerOf_infinite

namespace WellTyped

variable (h : s.WellTyped)

include h

/-- A finite bound joins the sets of its side. -/
theorem enters {b : Bound} {s' : Bounds} (hfin : b.limit ≠ none) (henters : s.Enters b s') :
    s'.WellTyped := by
  obtain ⟨-, rfl⟩ | ⟨_, rfl⟩ := henters
  · exact h
  refine ⟨fun w c hc => ?_, fun w c hc => ?_, h.supremum, h.infimum⟩
  all_goals
    simp only at hc
    split_ifs at hc with hside
  · rcases mem_update_insert.mp hc with hc | ⟨rfl, rfl⟩
    · exact h.upperbounds w c hc
    · exact ⟨rfl, hside, fun hnone => absurd hnone hfin⟩
  · exact h.upperbounds w c hc
  · rcases mem_update_insert.mp hc with hc | ⟨rfl, rfl⟩
    · exact h.lowerbounds w c hc
    · exact ⟨rfl, hside, fun hnone => absurd hnone hfin⟩
  · exact h.lowerbounds w c hc

theorem addDirected (upper : Bool) (v : VarId) (limit : Value ℚ) (c : LinearConstraint) :
    (s.addDirected upper v limit c).2.WellTyped :=
  h.enters (some_ne_none _) (s.addDirected_enters upper v limit c)

/-- The bounds found again for a released one are on its side. -/
theorem deactivateBound (b : Bound) : (s.deactivateBound b).1.WellTyped := by
  have hsup : (((s.upperbounds b.var).find? s.isActive).getD (.infinite b.var .upper)).IsUpperOf
      b.var := by
    cases hfind : (s.upperbounds b.var).find? s.isActive with
    | none => exact Bound.isUpperOf_infinite
    | some c => exact h.upperbounds b.var c (mem_of_find?_eq_some hfind)
  have hinf : (((s.lowerbounds b.var).reverse.find? s.isActive).getD
      (.infinite b.var .lower)).IsLowerOf b.var := by
    cases hfind : (s.lowerbounds b.var).reverse.find? s.isActive with
    | none => exact Bound.isLowerOf_infinite
    | some c =>
      exact h.lowerbounds b.var c (mem_reverse.mp (mem_of_find?_eq_some hfind))
  refine ⟨h.upperbounds, h.lowerbounds, fun v => ?_, fun v => ?_⟩
  · simp only [Bounds.deactivateBound]
    split_ifs
    · by_cases hv : v = b.var
      · rw [hv, update_self]
        exact hsup
      · rw [update_of_ne hv]
        exact h.supremum v
    · exact h.supremum v
  · simp only [Bounds.deactivateBound]
    split_ifs
    · by_cases hv : v = b.var
      · rw [hv, update_self]
        exact hinf
      · rw [update_of_ne hv]
        exact h.infimum v
    · exact h.infimum v

end WellTyped

end Bounds

/-! ## The operations of the tableau -/

namespace Tableau

variable {settings : TableauSettings} {t : Tableau} (h : t.toBounds.WellTyped)

theorem registerConstraint_wellTyped (h : t.toBounds.WellTyped) (c : LinearConstraint)
    (bs : List Bound) : (t.registerConstraint c bs).toBounds.WellTyped := by
  rw [registerConstraint]
  split
  · exact h
  · exact ⟨h.upperbounds, h.lowerbounds, h.supremum, h.infimum⟩

include h

theorem addBoundWithComplement_wellTyped (upper : Bool) (v : VarId) (limit complement : Value ℚ)
    (c : LinearConstraint) :
    (t.addBoundWithComplement upper v limit complement c).2.toBounds.WellTyped := by
  have hfst := h.addDirected upper v limit c
  have hsnd := Bounds.WellTyped.addDirected (s := { (t.toBounds.addDirected upper v limit c).2 with
    mConstraintToBound := update
      (t.toBounds.addDirected upper v limit c).2.mConstraintToBound c
      (some [(t.toBounds.addDirected upper v limit c).1])
    boundExists := update (t.toBounds.addDirected upper v limit c).2.boundExists
      (t.toBounds.addDirected upper v limit c).1 true })
    ⟨hfst.upperbounds, hfst.lowerbounds, hfst.supremum, hfst.infimum⟩ (!upper) v complement
    c.negated
  simp only [addBoundWithComplement]
  split
  · exact hsnd
  · exact ⟨hsnd.upperbounds, hsnd.lowerbounds, hsnd.supremum, hsnd.infimum⟩

theorem addNeqBound_wellTyped (upper : Bool) (v : VarId) (limit : Value ℚ) (c : LinearConstraint)
    (relation : Relation) : (t.addNeqBound upper v limit c relation).2.toBounds.WellTyped := by
  have hfst := h.addDirected upper v limit (c.withRelation relation)
  have hsnd := registerConstraint_wellTyped (t := { t with
    toBounds := (t.toBounds.addDirected upper v limit (c.withRelation relation)).2 }) hfst
    (c.withRelation relation) [(t.toBounds.addDirected upper v limit (c.withRelation relation)).1]
  exact ⟨hsnd.upperbounds, hsnd.lowerbounds, hsnd.supremum, hsnd.infimum⟩

/-- New bounds join the side of their relation. -/
theorem newBound_wellTyped (c : LinearConstraint) : (t.newBound c).toBounds.WellTyped := by
  rw [newBound]
  split
  · exact h
  · have hrows : ({ t with toRowSystem := (t.toRowSystem.getVariable c.lhs c.constantPart).2 } :
        Tableau).toBounds.WellTyped := h
    simp only
    split
    · have hequal := h.enters (some_ne_none _) (t.toBounds.addEqualBound_enters
        (t.toRowSystem.getVariable c.lhs c.constantPart).1.var
        ⟨(t.toRowSystem.getVariable c.lhs c.constantPart).1.boundValue, 0⟩ c)
      exact ⟨hequal.upperbounds, hequal.lowerbounds, hequal.supremum, hequal.infimum⟩
    · exact addBoundWithComplement_wellTyped hrows _ _ _ _ _
    · exact addBoundWithComplement_wellTyped hrows _ _ _ _ _
    · exact addBoundWithComplement_wellTyped hrows _ _ _ _ _
    · exact addBoundWithComplement_wellTyped hrows _ _ _ _ _
    · have hkeep : ∀ t' : Tableau, t'.toBounds.WellTyped → ∀ bounds complement,
          ({ t' with mConstraintToBound := bounds, complement := complement } :
            Tableau).toBounds.WellTyped :=
        fun t' h' _ _ => ⟨h'.upperbounds, h'.lowerbounds, h'.supremum, h'.infimum⟩
      apply hkeep
      apply addNeqBound_wellTyped
      apply addNeqBound_wellTyped
      apply addNeqBound_wellTyped
      exact addNeqBound_wellTyped hrows _ _ _ _ _

theorem activateBasicVar_wellTyped (v : VarId) :
    (t.activateBasicVar settings v).toBounds.WellTyped := by
  rw [activateBasicVar]
  split_ifs <;> exact h

/-- The supremum is replaced by a stronger upper bound. -/
theorem activateUpperBound_wellTyped {b : Bound} (hb : b.isUpperBound = true) :
    (t.activateUpperBound settings b).toBounds.WellTyped := by
  rw [activateUpperBound]
  by_cases hgt : (t.supremum b.var).gt b = true
  · have hsup : ∀ v, (update t.supremum b.var b v).IsUpperOf v := by
      intro v
      by_cases hv : v = b.var
      · rw [hv, update_self]
        exact ⟨rfl, hb, fun hn => absurd hn (Bound.limit_ne_none_of_gt hb hgt)⟩
      · rw [update_of_ne hv]
        exact h.supremum v
    rw [if_pos hgt]
    simp only
    split_ifs <;> exact ⟨h.upperbounds, h.lowerbounds, hsup, h.infimum⟩
  · rw [if_neg hgt]
    exact h

/-- The infimum is replaced by a stronger lower bound. -/
theorem activateLowerBound_wellTyped {b : Bound} (hb : b.isLowerBound = true) :
    (t.activateLowerBound settings b).toBounds.WellTyped := by
  rw [activateLowerBound]
  by_cases hlt : (t.infimum b.var).lt b = true
  · have hinf : ∀ v, (update t.infimum b.var b v).IsLowerOf v := by
      intro v
      by_cases hv : v = b.var
      · rw [hv, update_self]
        exact ⟨rfl, hb, fun hn => absurd hn (Bound.limit_ne_none_of_lt hb hlt)⟩
      · rw [update_of_ne hv]
        exact h.infimum v
    rw [if_pos hlt]
    simp only
    split_ifs <;> exact ⟨h.upperbounds, h.lowerbounds, h.supremum, hinf⟩
  · rw [if_neg hlt]
    exact h

theorem addOrigin_wellTyped (b : Bound) (o : Origin) : (t.addOrigin b o).toBounds.WellTyped :=
  ⟨h.upperbounds, h.lowerbounds, h.supremum, h.infimum⟩

theorem activateBound_wellTyped (b : Bound) (o : Origin) :
    (t.activateBound settings b o).toBounds.WellTyped := by
  have hact : ∀ t' : Tableau, t'.toBounds.WellTyped →
      (if t'.hasBound b.var = false ∧ t'.isBasic b.var = true ∧ t'.isOriginal b.var = false
        then t'.activateBasicVar settings b.var else t').toBounds.WellTyped := by
    intro t' h'
    split_ifs
    · exact activateBasicVar_wellTyped h' b.var
    · exact h'
  have hup : ∀ t' : Tableau, t'.toBounds.WellTyped →
      (if b.isUpperBound then t'.activateUpperBound settings b else t').toBounds.WellTyped := by
    intro t' h'
    split_ifs with hb
    · exact activateUpperBound_wellTyped h' hb
    · exact h'
  have hlow : ∀ t' : Tableau, t'.toBounds.WellTyped →
      (if b.isLowerBound then t'.activateLowerBound settings b else t').toBounds.WellTyped := by
    intro t' h'
    split_ifs with hb
    · exact activateLowerBound_wellTyped h' hb
    · exact h'
  refine hlow _ (hup _ ?_)
  simpa only [Bool.and_eq_true, Bool.not_eq_true', and_assoc] using
    hact (t.addOrigin b o) (addOrigin_wellTyped h b o)

/-- Values may be moved, and the row of a variable without bounds may be stored. -/
theorem releaseBound_wellTyped (b : Bound) : (t.releaseBound settings b).toBounds.WellTyped := by
  have hrepair : ∀ t' : Tableau, t'.toBounds.WellTyped →
      (t'.repairNonbasic settings b.var).toBounds.WellTyped := by
    intro t' h'
    rw [repairNonbasic]
    split_ifs <;> exact h'
  have hdeact := h.deactivateBound b
  simp only [releaseBound]
  split_ifs
  case pos | neg => exact hrepair { t with toBounds := (t.toBounds.deactivateBound b).1 } hdeact
  all_goals exact hdeact

omit h in
theorem foldl_updateRow_toBounds (settings : TableauSettings) (r c : VarId) (is : List VarId)
    (t : Tableau) : (is.foldl (fun t i => t.updateRow settings r c i) t).toBounds = t.toBounds := by
  induction is generalizing t with
  | nil => rfl
  | cons i is ih => exact (ih _).trans (updateRow_spec settings r c i).bounds

omit h in
/-- Pivoting learns bounds but activates none. -/
theorem pivot_toBounds (settings : TableauSettings) (t : Tableau) (e : EntryID) :
    (t.pivot settings e).toBounds = t.toBounds := by
  have href : ((t.exchangeVariables settings e.row e.col).rowRefinement settings
      e.col).toBounds = t.toBounds := (rowRefinement_same settings e.col).bounds
  have hupd := fun is t' => foldl_updateRow_toBounds settings e.row e.col is t'
  simp only [pivot]
  split_ifs
  case pos | neg => exact (hupd _ _).trans href
  all_goals exact hupd _ _

omit h in
theorem nextPivotingElement_toBounds (settings : TableauSettings) (t : Tableau) :
    (t.nextPivotingElement settings).2.toBounds = t.toBounds := by
  rw [nextPivotingElement]
  split_ifs
  · rw [findPivot]
    split <;> rfl
  · rw [findPivotBland]
    split <;> rfl

end Tableau

/-! ## The actions of the module -/

namespace LRAModule

variable {settings : TableauSettings}

/-- The bounds of the module's tableau are on their side. -/
def WellTyped (m : LRAModule) : Prop := m.mTableau.toBounds.WellTyped

/-- What every step of a loop keeps, the loop keeps. -/
theorem WellTyped.foldl {α : Type*} {f : LRAModule → α → LRAModule} {m : LRAModule}
    (h : m.WellTyped) (hstep : ∀ m a, m.WellTyped → (f m a).WellTyped) (as : List α) :
    (as.foldl f m).WellTyped := by
  induction as generalizing m with
  | nil => exact h
  | cons a as ih => exact ih (hstep m a h)

variable {m : LRAModule} (h : m.WellTyped)

include h

theorem WellTyped.activateBound (b : Bound) (o : Origin) :
    (m.activateBound settings b o).WellTyped := by
  have hconf : ∀ m' : LRAModule, m'.WellTyped → ∀ bs : List Bound,
      (bs.foldl (fun m c => m.addConflict b c) m').WellTyped :=
    fun m' h' bs => WellTyped.foldl (f := fun m c => m.addConflict b c) h' (fun _ _ hm => hm) bs
  have htableau : ({ m with mTableau := m.mTableau.activateBound settings b o } :
      LRAModule).WellTyped := Tableau.activateBound_wellTyped h b o
  simp only [LRAModule.activateBound]
  split_ifs
  · exact hconf _ (hconf _ htableau _) _
  · exact hconf _ htableau _
  · exact hconf _ htableau _
  · exact htableau

theorem WellTyped.registerBound (b : Bound) (c : LinearConstraint) :
    (m.registerBound b c).WellTyped := ⟨h.upperbounds, h.lowerbounds, h.supremum, h.infimum⟩

theorem WellTyped.activateStrictBound (neq : LinearConstraint) (weak strict : Bound) :
    (m.activateStrictBound settings neq weak strict).WellTyped := by
  rw [LRAModule.activateStrictBound]
  split
  · exact h
  · next o os _ =>
    simp only
    refine WellTyped.foldl ?_ (fun _ c hm => hm.registerBound strict c) _
    have hact : (m.activateBound settings strict (.and (neq :: o.constraints))).WellTyped :=
      h.activateBound strict (.and (neq :: o.constraints))
    generalize (m.activateBound settings strict (.and (neq :: o.constraints))) = m' at hact ⊢
    have hfold : ∀ (os : List Origin) (t : Tableau), t.toBounds.WellTyped →
        (os.foldl (fun t _ => t.addOrigin strict (.and [])) t).toBounds.WellTyped := by
      intro os
      induction os with
      | nil => exact fun t ht => ht
      | cons o os ih => exact fun t ht => ih _ (Tableau.addOrigin_wellTyped ht strict _)
    exact hfold os m'.mTableau hact

theorem WellTyped.resolveNeq (b : Bound) : (m.resolveNeq settings b).WellTyped := by
  rw [LRAModule.resolveNeq]
  split
  · exact h
  · split_ifs
    · simp only
      split
      · split_ifs
        · apply WellTyped.activateStrictBound
          exact h
        · apply WellTyped.activateStrictBound
          exact h
        · exact h
      · exact h
    · exact h

variable (c : LinearConstraint)

theorem WellTyped.addNeq : (m.addNeq settings c).WellTyped := by
  rw [LRAModule.addNeq]
  split
  · simp only
    split_ifs
    · apply WellTyped.activateStrictBound
      exact h
    · apply WellTyped.activateStrictBound
      exact h
    · exact h
    · exact h
  · exact h

theorem WellTyped.addCore : (m.addCore settings c).WellTyped := by
  have hrec : ({ m with received := m.received ++ [c] } : LRAModule).WellTyped := h
  simp only [LRAModule.addCore]
  split_ifs
  · exact hrec.addNeq c
  · split
    · exact h
    · exact (hrec.activateBound _ _).resolveNeq _

theorem WellTyped.unresolveNeq (b : Bound) : (m.unresolveNeq b).WellTyped := by
  rw [LRAModule.unresolveNeq]
  split
  · exact h
  · split_ifs <;> exact h

theorem WellTyped.removeOrigin (b : Bound) : (m.removeOrigin settings c b).WellTyped := by
  have herased : ({ m with mTableau := { m.mTableau with
      origins := update m.mTableau.origins b
        (eraseOrigins c (m.mTableau.origins b)) } } : LRAModule).WellTyped :=
    ⟨h.upperbounds, h.lowerbounds, h.supremum, h.infimum⟩
  have hrel : ∀ m' : LRAModule, m'.WellTyped →
      ({ m' with mTableau := m'.mTableau.releaseBound settings b } : LRAModule).WellTyped :=
    fun m' h' => Tableau.releaseBound_wellTyped h' b
  have hconf : ∀ m' : LRAModule, m'.WellTyped → (m'.addConflictOf b.var).WellTyped := by
    intro m' h'
    rw [addConflictOf]
    split_ifs <;> exact h'
  simp only [LRAModule.removeOrigin]
  split_ifs
  · exact herased
  · exact hconf _ (hrel _ (herased.unresolveNeq b))
  · exact hrel _ (herased.unresolveNeq b)
  · exact h

omit h in
theorem WellTyped.removeFromBounds (own : ℕ) (bs : List Bound)
    {m : LRAModule} (h : m.WellTyped) : (removeFromBounds settings c own bs m).2.WellTyped := by
  induction bs generalizing own m with
  | nil => exact h
  | cons b bs ih => exact ih (own - 1) (h.removeOrigin c b)

theorem WellTyped.removeCore : (m.removeCore settings c).WellTyped := by
  have hbds : ∀ own, (LRAModule.removeFromBounds settings c own (m.bounds c) m).2.WellTyped :=
    fun own => WellTyped.removeFromBounds c own (m.bounds c) h
  simp only [LRAModule.removeCore]
  generalize (if c.relation = .neq then 4 else 1) = own
  have hown := hbds own
  split_ifs <;> exact ⟨hown.upperbounds, hown.lowerbounds, hown.supremum, hown.infimum⟩

theorem WellTyped.processLearnedBounds : (m.processLearnedBounds settings).WellTyped := by
  rw [LRAModule.processLearnedBounds]
  refine WellTyped.foldl (m := { m with mTableau := { m.mTableau with mNewLearnedBounds := [] } })
    h ?_ _
  intro m' p h'
  split
  · exact h'
  · exact (WellTyped.foldl h' (fun _ c hm => hm.registerBound _ c) _).activateBound _ _

theorem WellTyped.pivotStep (e : EntryID) : (m.pivotStep settings e).WellTyped := by
  refine WellTyped.processLearnedBounds ?_
  show (m.mTableau.pivot settings e).toBounds.WellTyped
  rw [Tableau.pivot_toBounds]
  exact h

/-- Every action keeps the bounds on their side. -/
theorem WellTyped.step {action : Action} {m' : LRAModule} (hstep : m.step settings action = some m') :
    m'.WellTyped := by
  have hnext : ∀ {r} {t : Tableau}, m.mTableau.nextPivotingElement settings = (r, t) →
      t.toBounds.WellTyped := by
    intro r t heq
    have := Tableau.nextPivotingElement_toBounds settings m.mTableau
    rw [heq] at this
    exact this ▸ h
  cases action with
  | inform c =>
    cases hstep
    exact Tableau.newBound_wellTyped h c
  | add c =>
    obtain ⟨-, heq⟩ := ite_none_right_eq_some.mp hstep
    cases heq
    exact h.addCore c
  | remove c =>
    obtain ⟨-, heq⟩ := ite_none_right_eq_some.mp hstep
    cases heq
    exact h.removeCore c
  | startCheck =>
    cases hstep
    exact h
  | pivotStep =>
    simp only [LRAModule.step] at hstep
    split at hstep
    · next heq =>
      cases hstep
      exact WellTyped.pivotStep (m := { m with mTableau := _ }) (hnext heq) _
    · cases hstep
  | finishCheck =>
    cases hstep
    exact h
  | activateBound b o =>
    obtain ⟨-, heq⟩ := ite_none_right_eq_some.mp hstep
    cases heq
    exact Tableau.activateBound_wellTyped h b o
  | pivot =>
    simp only [LRAModule.step] at hstep
    split at hstep
    · next e t heq =>
      cases hstep
      show (t.pivot settings e).toBounds.WellTyped
      rw [Tableau.pivot_toBounds]
      exact hnext heq
    · cases hstep
  | activateBasicVar v =>
    cases hstep
    exact Tableau.activateBasicVar_wellTyped h v
  | deactivateBasicVar v =>
    obtain ⟨-, heq⟩ := ite_none_right_eq_some.mp hstep
    cases heq
    exact h

omit h in
theorem wellTyped_of_run {p : LinearForm} {actions : List Action}
    (hrun : run (step settings) (empty p) actions = some m) : m.WellTyped :=
  run_invariant (P := WellTyped) (fun _ _ _ hm hs => hm.step hs)
    (show (empty p).mTableau.toBounds.WellTyped from Bounds.wellTyped_empty) hrun

end LRAModule

end Smtrat.LRA
