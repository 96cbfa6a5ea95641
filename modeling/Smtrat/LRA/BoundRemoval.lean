import Smtrat.LRA.TableauRuns
import Smtrat.LRA.Translation

/-!
# Removal of bounds

When the module is no longer informed about a constraint, the tableau deletes the bounds that were
made for it.  The bounds in the list of a constraint are shared: those after the first were learned
or derived, and belong to other constraints as well, and the first one may belong to a disequality,
in whose list it stays until this is removed.  The disequality, however, deletes its own list
instead of the one that was left to it.
-/

namespace Smtrat.LRA

open Run List Function

/-! ## The operation -/

namespace Bounds

/-- `Variable::removeBound`: what compares like the bound is erased from the sets of the variable. -/
def removeBound (s : Bounds) (v : VarId) (b : Bound) : Bounds :=
  let differs := fun c : Bound => c.lt b || b.lt c
  { s with
    lowerbounds := if b.isLowerBound
      then update s.lowerbounds v ((s.lowerbounds v).filter differs) else s.lowerbounds
    upperbounds := if b.isUpperBound
      then update s.upperbounds v ((s.upperbounds v).filter differs) else s.upperbounds }

/-- `delete` of a bound, with what is known about it. -/
def delete (s : Bounds) (b : Bound) : Bounds :=
  { s with
    origins := update s.origins b []
    asConstraint := update s.asConstraint b none
    neqRepresentation := update s.neqRepresentation b none
    boundExists := update s.boundExists b false
    complement := update s.complement b none }

end Bounds

/-- The tableau with the marks `mMarkedAsDeleted` of its bounds. -/
structure MarkedTableau extends Tableau where
  markedAsDeleted : Bound → Bool

/-- What a removal leaves, and the objects it deleted. -/
structure Removal where
  table : MarkedTableau
  deleted : List Bound
  deletedVariable : Option VarId

namespace MarkedTableau

variable (s : MarkedTableau)

/-- `boundVar->removeBound( bound )` and `delete bound`. -/
def deleteBound (boundVar : VarId) (b : Bound) : MarkedTableau :=
  { s with
    toBounds := (s.toBounds.removeBound boundVar b).delete b
    markedAsDeleted := update s.markedAsDeleted b false }

/-- The loop over the bounds after the first, from the back.  A bound that was deleted before must
not be used again. -/
def deleteBounds (boundVar : VarId) :
    List Bound → MarkedTableau × List Bound → Option (MarkedTableau × List Bound)
  | [], r => some r
  | b :: bs, (s, deleted) =>
    if b ∈ deleted then none
    else deleteBounds boundVar bs (s.deleteBound boundVar b, b :: deleted)

/-- The part of `removeBound` for the bounds of an equation or an inequality. -/
def removeOwn (boundVar : VarId) : List Bound → Option (MarkedTableau × List Bound)
  | [] => none
  | own :: appended =>
    (deleteBounds boundVar appended.reverse (s, [])).bind fun (s, deleted) =>
      if own ∈ deleted then none
      else if (s.neqRepresentation own).isSome then
        some ({ s with markedAsDeleted := update s.markedAsDeleted own true }, deleted)
      else some (s.deleteBound boundVar own, own :: deleted)

/-- The part of `removeBound` for a disequality.  At a bound that is marked, the list that is being
iterated is itself deleted. -/
def removeNeq (bs : List Bound) : Option (MarkedTableau × List Bound) :=
  if bs.any s.markedAsDeleted then none
  else some ({ s with
    neqRepresentation := fun b => if b ∈ bs then none else s.neqRepresentation b }, [])

/-- `Tableau::deleteVariable`. -/
def deleteVariable (v : VarId) : MarkedTableau :=
  let t := if v ∈ s.mNonActiveBasics then s.toTableau else s.toTableau.deactivateBasicVar v
  { s with toTableau := { t with
      mNonActiveBasics := t.mNonActiveBasics.erase v
      mSlackVars := update t.mSlackVars (t.expression v) none } }

/-- The end of `removeBound`: the entry is erased, and with its last bound a slack variable. -/
def finishRemoval (c : LinearConstraint) (boundVar : VarId) (deleted : List Bound) : Removal :=
  let s := { s with mConstraintToBound := update s.mConstraintToBound c none }
  if !s.isOriginal boundVar && s.isBasic boundVar && (s.lowerbounds boundVar).length == 1 &&
      (s.upperbounds boundVar).length == 1
  then ⟨s.deleteVariable boundVar, deleted, some boundVar⟩ else ⟨s, deleted, none⟩

/-- `Tableau::removeBound`, where it is defined. -/
def removeBound (c : LinearConstraint) : Option Removal :=
  match s.mConstraintToBound c with
  | none => some ⟨s, [], none⟩
  | some bs =>
    match bs.getLast? with
    | none => none
    | some last =>
      (if c.relation = .neq then s.removeNeq bs else s.removeOwn last.var bs).map
        fun (s, deleted) => s.finishRemoval c last.var deleted

/-! ## The property and its condition -/

/-- The bounds that are deleted with a constraint: all but the first, and the first if it does not
represent a disequality. -/
def toDelete : List Bound → List Bound
  | [] => []
  | own :: appended => appended ++ if (s.neqRepresentation own).isSome then [] else [own]

/-- The removal of `c` only concerns `c`: the other constraints keep their lists, the bounds in
these exist and so do their variables, and the sets of the variables other than that of `c` are
left alone. -/
def Frames (c : LinearConstraint) : Prop :=
  ∃ r, s.removeBound c = some r ∧ r.table.mConstraintToBound c = none ∧
    (∀ d ≠ c, r.table.mConstraintToBound d = s.mConstraintToBound d) ∧
    (∀ d ≠ c, ∀ bs, s.mConstraintToBound d = some bs → ∀ b ∈ bs,
      b ∉ r.deleted ∧ r.table.Has b.var b ∧ r.deletedVariable ≠ some b.var) ∧
    ∀ bs, s.mConstraintToBound c = some bs → ∀ own ∈ bs.head?, ∀ w ≠ own.var,
      ∀ b, s.Has w b → b ∉ r.deleted ∧ r.table.Has w b

/-- The bounds that are deleted with `c` are those of `c` alone: for a disequality none may be
marked, and otherwise those that are deleted occur once, are bounds of the variable of `c` and in no
other list. -/
def Owned (c : LinearConstraint) : Prop :=
  ∀ bs, s.mConstraintToBound c = some bs →
    if c.relation = .neq then ∀ b ∈ bs, s.markedAsDeleted b = false
    else bs.Nodup ∧ ∀ b ∈ s.toDelete bs, (∀ own ∈ bs.head?, b.var = own.var) ∧
      ∀ d ≠ c, ∀ ds, s.mConstraintToBound d = some ds → b ∉ ds

end MarkedTableau

/-! ## The invariant -/

namespace Bounds

/-- A bound that was created and is in the sets of its variable. -/
def Exists (s : Bounds) (b : Bound) : Prop := b.isInfinite = false ∧ s.Has b.var b

/-- The bounds in the lists exist. -/
structure Linked (s : Bounds) : Prop extends s.WellTyped where
  infinite_upper : ∀ v, Bound.infinite v .upper ∈ s.upperbounds v
  infinite_lower : ∀ v, Bound.infinite v .lower ∈ s.lowerbounds v
  entry_ne_nil : ∀ c bs, s.mConstraintToBound c = some bs → bs ≠ []
  entry_exists : ∀ c bs, s.mConstraintToBound c = some bs → ∀ b ∈ bs, s.Exists b

/-- The sets of bounds grow. -/
structure Grows (s s' : Bounds) : Prop where
  upper : ∀ v, ∀ b ∈ s.upperbounds v, b ∈ s'.upperbounds v
  lower : ∀ v, ∀ b ∈ s.lowerbounds v, b ∈ s'.lowerbounds v

variable {s s' s'' : Bounds}

theorem Grows.refl (s : Bounds) : s.Grows s := ⟨fun _ _ h => h, fun _ _ h => h⟩

theorem Grows.trans (h : s.Grows s') (h' : s'.Grows s'') : s.Grows s'' :=
  ⟨fun v b hb => h'.upper v b (h.upper v b hb), fun v b hb => h'.lower v b (h.lower v b hb)⟩

theorem Exists.grow {b : Bound} (h : s.Exists b) (hg : s.Grows s') : s'.Exists b :=
  ⟨h.1, h.2.imp (hg.upper _ b) (hg.lower _ b)⟩

/-- Lists whose bounds exist may be entered. -/
theorem Linked.grow (h : s.Linked) (hg : s.Grows s') (htyp : s'.WellTyped)
    (hents : ∀ c bs, s'.mConstraintToBound c = some bs →
      s.mConstraintToBound c = some bs ∨ bs ≠ [] ∧ ∀ b ∈ bs, s'.Exists b) : s'.Linked where
  toWellTyped := htyp
  infinite_upper v := hg.upper v _ (h.infinite_upper v)
  infinite_lower v := hg.lower v _ (h.infinite_lower v)
  entry_ne_nil c bs hc := by
    rcases hents c bs hc with hc | hc
    · exact h.entry_ne_nil c bs hc
    · exact hc.1
  entry_exists c bs hc b hb := by
    rcases hents c bs hc with hc | hc
    · exact (h.entry_exists c bs hc b hb).grow hg
    · exact hc.2 b hb

theorem linked_empty : empty.Linked where
  toWellTyped := wellTyped_empty
  infinite_upper _ := mem_cons_self
  infinite_lower _ := mem_cons_self
  entry_ne_nil _ _ h := nomatch h
  entry_exists _ _ h := nomatch h

/-- A new bound exists afterwards, with all others. -/
theorem Enters.grows {b : Bound} (henters : s.Enters b s') (hfin : b.isInfinite = false) :
    s.Grows s' ∧ s'.Exists b := by
  obtain ⟨hold, rfl⟩ | ⟨_, rfl⟩ := henters
  · exact ⟨Grows.refl _, hfin, hold⟩
  have hgrows : ∀ (side : Bool) {f : VarId → List Bound} {v c}, c ∈ f v →
      c ∈ (if side then update f b.var (b.insert (f b.var)) else f) v := by
    intro side f v c hc
    split_ifs
    · exact mem_update_insert.mpr (.inl hc)
    · exact hc
  have hside : b.isUpperBound = true ∨ b.isLowerBound = true := by
    rw [Bound.isUpperBound, Bound.isLowerBound]
    cases b.type <;> simp
  refine ⟨⟨fun _ _ => hgrows _, fun _ _ => hgrows _⟩, hfin, hside.imp ?_ ?_⟩
  all_goals
    intro hside
    simp only [hside, if_true]
    exact mem_update_insert.mpr (.inr ⟨rfl, rfl⟩)

theorem addDirected_grows (upper : Bool) (v : VarId) (limit : Value ℚ) (c : LinearConstraint) :
    s.Grows (s.addDirected upper v limit c).2 ∧
      (s.addDirected upper v limit c).2.Exists (s.addDirected upper v limit c).1 := by
  rw [Tableau.addDirected_fst]
  exact (s.addDirected_enters upper v limit c).grows rfl

end Bounds

/-! ### The operations of the tableau -/

namespace Tableau

variable {settings : TableauSettings} {t : Tableau}

theorem addBoundWithComplement_linked (h : t.toBounds.Linked) (upper : Bool) (v : VarId)
    (limit complement : Value ℚ) (c : LinearConstraint) :
    (t.addBoundWithComplement upper v limit complement c).2.toBounds.Linked := by
  obtain ⟨hgrow, hexists⟩ := t.toBounds.addDirected_grows upper v limit c
  let s₁ : Bounds := { (t.toBounds.addDirected upper v limit c).2 with
    mConstraintToBound := update
      (t.toBounds.addDirected upper v limit c).2.mConstraintToBound c
      (some [(t.toBounds.addDirected upper v limit c).1])
    boundExists := update (t.toBounds.addDirected upper v limit c).2.boundExists
      (t.toBounds.addDirected upper v limit c).1 true }
  obtain ⟨hgrow', hexists'⟩ := s₁.addDirected_grows (!upper) v complement c.negated
  have hsame : (t.toBounds.addDirected upper v limit c).2.Grows s₁ :=
    ⟨fun _ _ hb => hb, fun _ _ hb => hb⟩
  have hfst : (s₁.addDirected (!upper) v complement c.negated).2.Exists
      (t.toBounds.addDirected upper v limit c).1 := (hexists.grow hsame).grow hgrow'
  have hsnd := hexists'
  have hmap : ∀ d bs, (s₁.addDirected (!upper) v complement c.negated).2.mConstraintToBound d =
      some bs → t.mConstraintToBound d = some bs ∨
        bs = [(t.toBounds.addDirected upper v limit c).1] := by
    intro d bs hd
    rw [addDirected_mConstraintToBound] at hd
    rcases update_eq_some_iff.mp hd with ⟨-, rfl⟩ | ⟨-, hd⟩
    · exact .inr rfl
    · rw [addDirected_mConstraintToBound] at hd
      exact .inl hd
  have htyp := addBoundWithComplement_wellTyped h.toWellTyped upper v limit complement c
  have hgrows : t.toBounds.Grows (s₁.addDirected (!upper) v complement c.negated).2 :=
    (hgrow.trans hsame).trans hgrow'
  revert htyp
  simp only [addBoundWithComplement]
  split
  · intro htyp
    refine h.grow hgrows htyp fun d bs hd => ?_
    rcases hmap d bs hd with hd | rfl
    · exact .inl hd
    · refine .inr ⟨cons_ne_nil _ _, fun b hb => ?_⟩
      rw [mem_singleton.mp hb]
      exact hfst
  · intro htyp
    refine h.grow ⟨hgrows.upper, hgrows.lower⟩ htyp fun d bs hd => ?_
    rcases update_eq_some_iff.mp hd with ⟨-, rfl⟩ | ⟨-, hd⟩
    · refine .inr ⟨cons_ne_nil _ _, fun b hb => ?_⟩
      rw [mem_singleton.mp hb]
      exact hsnd
    · rcases hmap d bs hd with hd | rfl
      · exact .inl hd
      · refine .inr ⟨cons_ne_nil _ _, fun b hb => ?_⟩
        rw [mem_singleton.mp hb]
        exact hfst

theorem addNeqBound_linked (h : t.toBounds.Linked) (upper : Bool) (v : VarId) (limit : Value ℚ)
    (c : LinearConstraint) (relation : Relation) :
    (t.addNeqBound upper v limit c relation).2.toBounds.Linked ∧
      t.toBounds.Grows (t.addNeqBound upper v limit c relation).2.toBounds ∧
      (t.addNeqBound upper v limit c relation).2.toBounds.Exists
        (t.addNeqBound upper v limit c relation).1 := by
  obtain ⟨hgrow, hexists⟩ := t.toBounds.addDirected_grows upper v limit (c.withRelation relation)
  have hsets : (t.toBounds.addDirected upper v limit (c.withRelation relation)).2.Grows
      (t.addNeqBound upper v limit c relation).2.toBounds := by
    simp only [addNeqBound, registerConstraint]
    split <;> exact ⟨fun _ _ hb => hb, fun _ _ hb => hb⟩
  refine ⟨?_, hgrow.trans hsets, hexists.grow hsets⟩
  refine h.grow (hgrow.trans hsets) (addNeqBound_wellTyped h.toWellTyped upper v limit c relation)
    fun d bs hd => ?_
  rcases (addNeqBound_entry upper v limit c d relation bs).mp hd with hd | ⟨-, -, rfl⟩
  · exact .inl hd
  · refine .inr ⟨cons_ne_nil _ _, fun b hb => ?_⟩
    rw [mem_singleton.mp hb, ← addNeqBound_fst (t := t) upper v limit c relation]
    exact hexists.grow hsets

/-- The bounds of a new constraint exist. -/
theorem newBound_linked (h : t.toBounds.Linked) (c : LinearConstraint) :
    (t.newBound c).toBounds.Linked := by
  rw [newBound]
  split
  · exact h
  · have hrows : ({ t with toRowSystem := (t.toRowSystem.getVariable c.lhs c.constantPart).2 } :
        Tableau).toBounds.Linked := h
    simp only
    generalize (t.toRowSystem.getVariable c.lhs c.constantPart).1 = ref
    split
    · have henters := t.toBounds.addEqualBound_enters ref.var ⟨ref.boundValue, 0⟩ c
      obtain ⟨hgrow, hexists⟩ := henters.grows rfl
      have htyp := h.toWellTyped.enters (Option.some_ne_none _) henters
      refine h.grow ⟨hgrow.upper, hgrow.lower⟩
        ⟨htyp.upperbounds, htyp.lowerbounds, htyp.supremum, htyp.infimum⟩
        fun d bs hd => ?_
      rcases update_eq_some_iff.mp hd with ⟨-, rfl⟩ | ⟨-, hd⟩
      · refine .inr ⟨cons_ne_nil _ _, fun b hb => ?_⟩
        rw [mem_singleton.mp hb]
        exact hexists
      · left
        rw [← henters.keeps.mConstraintToBound]
        exact hd
    · exact addBoundWithComplement_linked hrows _ _ _ _ _
    · exact addBoundWithComplement_linked hrows _ _ _ _ _
    · exact addBoundWithComplement_linked hrows _ _ _ _ _
    · exact addBoundWithComplement_linked hrows _ _ _ _ _
    · -- the four bounds exist at the end, as the sets only grow
      have hless := addNeqBound_linked hrows (!ref.negative) ref.var
        (if c.integerValued then strictlyBelow true ref.boundValue
          else if ref.negative then strictlyAbove false ref.boundValue
          else strictlyBelow false ref.boundValue) c .less
      have hleq := addNeqBound_linked hless.1 (!ref.negative) ref.var ⟨ref.boundValue, 0⟩ c .leq
      have hgeq := addNeqBound_linked hleq.1 ref.negative ref.var ⟨ref.boundValue, 0⟩ c .geq
      have hgreater := addNeqBound_linked hgeq.1 ref.negative ref.var
        (if c.integerValued then strictlyAbove true ref.boundValue
          else if ref.negative then strictlyBelow false ref.boundValue
          else strictlyAbove false ref.boundValue) c .greater
      have htyp := hgreater.1.toWellTyped
      refine hgreater.1.grow ⟨fun _ _ hb => hb, fun _ _ hb => hb⟩
        ⟨htyp.upperbounds, htyp.lowerbounds, htyp.supremum, htyp.infimum⟩
        fun d bs hd => ?_
      rcases update_eq_some_iff.mp hd with ⟨-, rfl⟩ | ⟨-, hd⟩
      · refine .inr ⟨cons_ne_nil _ _, fun b hb => ?_⟩
        simp only [mem_cons, not_mem_nil, or_false] at hb
        rcases hb with rfl | rfl | rfl | rfl
        · have hb := ((hless.2.2.grow hleq.2.1).grow hgeq.2.1).grow hgreater.2.1
          exact ⟨hb.1, hb.2⟩
        · have hb := (hleq.2.2.grow hgeq.2.1).grow hgreater.2.1
          exact ⟨hb.1, hb.2⟩
        · have hb := hgeq.2.2.grow hgreater.2.1
          exact ⟨hb.1, hb.2⟩
        · exact ⟨hgreater.2.2.1, hgreater.2.2.2⟩
      · exact .inl hd

/-- No other operation of the tableau changes sets or lists. -/
theorem step_linked {t' : Tableau} (h : t.toBounds.Linked) {action : TableauAction}
    (hstep : t.step settings action = some t') : t'.toBounds.Linked := by
  have hkeep : ∀ s' : Bounds, s'.upperbounds = t.upperbounds → s'.lowerbounds = t.lowerbounds →
      s'.mConstraintToBound = t.mConstraintToBound → s'.WellTyped → s'.Linked := by
    intro s' hup hlow hmap htyp
    refine h.grow ⟨fun v b hb => ?_, fun v b hb => ?_⟩ htyp fun d bs hd => .inl ?_
    · rwa [hup]
    · rwa [hlow]
    · rwa [← hmap]
  cases action with
  | newBound c =>
    cases hstep
    exact newBound_linked h c
  | activateBound b o =>
    obtain ⟨-, heq⟩ := Option.ite_none_right_eq_some.mp hstep
    cases heq
    have hbds := activateBound_toBounds settings t b o
    exact hkeep _ (by rw [hbds]) (by rw [hbds]) (by rw [hbds])
      (activateBound_wellTyped h.toWellTyped b o)
  | removeOrigins b kept =>
    obtain ⟨-, heq⟩ := Option.ite_none_right_eq_some.mp hstep
    cases heq
    rw [removeOrigins_toBounds]
    have hupdated : Bounds.WellTyped { t.toBounds with
        origins := update t.origins b kept } :=
      ⟨h.upperbounds, h.lowerbounds, h.supremum, h.infimum⟩
    rw [Bounds.eraseOrigins]
    split_ifs
    · exact hkeep _ rfl rfl rfl (hupdated.deactivateBound b)
    · exact hkeep _ rfl rfl rfl hupdated
  | activateBasicVar v =>
    cases hstep
    rw [activateBasicVar_toBounds]
    exact h
  | deactivateBasicVar v =>
    obtain ⟨-, heq⟩ := Option.ite_none_right_eq_some.mp hstep
    cases heq
    exact h
  | pivot e =>
    obtain ⟨-, heq⟩ := Option.ite_none_right_eq_some.mp hstep
    cases heq
    rw [pivot_toBounds]
    exact h

end Tableau

/-! ## What is deleted -/

namespace MarkedTableau

variable {s s' s'' : MarkedTableau} {v : VarId} {b : Bound} {ds ds' : List Bound}

/-- The bounds `ds` are taken from the sets of `v`.  If they are bounds of `v`, no others are. -/
structure Deletes (v : VarId) (ds : List Bound) (s s' : MarkedTableau) : Prop where
  rows : s'.toRowSystem = s.toRowSystem
  entries : s'.mConstraintToBound = s.mConstraintToBound
  supremum : s'.supremum = s.supremum
  infimum : s'.infimum = s.infimum
  upper : ∀ w, ∀ b ∈ s'.upperbounds w, b ∈ s.upperbounds w
  lower : ∀ w, ∀ b ∈ s'.lowerbounds w, b ∈ s.lowerbounds w
  other : ∀ w ≠ v, s'.upperbounds w = s.upperbounds w ∧ s'.lowerbounds w = s.lowerbounds w
  kept_upper : s.toBounds.WellTyped → (∀ d ∈ ds, d.var = v ∧ d.isInfinite = false) →
    ∀ w b, b ∉ ds → b ∈ s.upperbounds w → b ∈ s'.upperbounds w
  kept_lower : s.toBounds.WellTyped → (∀ d ∈ ds, d.var = v ∧ d.isInfinite = false) →
    ∀ w b, b ∉ ds → b ∈ s.lowerbounds w → b ∈ s'.lowerbounds w

theorem Deletes.refl (v : VarId) (s : MarkedTableau) : Deletes v [] s s where
  rows := rfl
  entries := rfl
  supremum := rfl
  infimum := rfl
  upper _ _ h := h
  lower _ _ h := h
  other _ _ := ⟨rfl, rfl⟩
  kept_upper _ _ _ _ _ h := h
  kept_lower _ _ _ _ _ h := h

theorem Deletes.wellTyped (h : Deletes v ds s s') (hs : s.toBounds.WellTyped) :
    s'.toBounds.WellTyped where
  upperbounds w b hb := hs.upperbounds w b (h.upper w b hb)
  lowerbounds w b hb := hs.lowerbounds w b (h.lower w b hb)
  supremum w := h.supremum ▸ hs.supremum w
  infimum w := h.infimum ▸ hs.infimum w

theorem Deletes.trans (h : Deletes v ds s s') (h' : Deletes v ds' s' s'') :
    Deletes v (ds ++ ds') s s'' where
  rows := h'.rows.trans h.rows
  entries := h'.entries.trans h.entries
  supremum := h'.supremum.trans h.supremum
  infimum := h'.infimum.trans h.infimum
  upper w b hb := h.upper w b (h'.upper w b hb)
  lower w b hb := h.lower w b (h'.lower w b hb)
  other w hw := ⟨(h'.other w hw).1.trans (h.other w hw).1, (h'.other w hw).2.trans (h.other w hw).2⟩
  kept_upper hs hds w b hb hmem := by
    rw [mem_append, not_or] at hb
    refine h'.kept_upper (h.wellTyped hs) (fun d hd => hds d (mem_append_right _ hd)) w b hb.2 ?_
    exact h.kept_upper hs (fun d hd => hds d (mem_append_left _ hd)) w b hb.1 hmem
  kept_lower hs hds w b hb hmem := by
    rw [mem_append, not_or] at hb
    refine h'.kept_lower (h.wellTyped hs) (fun d hd => hds d (mem_append_right _ hd)) w b hb.2 ?_
    exact h.kept_lower hs (fun d hd => hds d (mem_append_left _ hd)) w b hb.1 hmem

/-- A finite upper bound compares like no other upper bound of its variable. -/
theorem differs_upper {c d : Bound} (hc : c.IsUpperOf v) (hd : d.isUpperBound = true)
    (hvar : d.var = v) (hfin : d.isInfinite = false) (hne : c ≠ d) :
    (c.lt d || d.lt c) = true := by
  have hd' : d.IsUpperOf v := by
    refine ⟨hvar, hd, fun hnone => ?_⟩
    rw [Bound.isInfinite, hnone] at hfin
    exact Bool.noConfusion hfin
  rw [Bool.or_eq_true, Bound.lt_iff_upperKey hc hd', Bound.lt_iff_upperKey hd' hc]
  apply lt_or_gt_of_ne
  intro hkey
  obtain ⟨htype, hlim⟩ := (Bound.upperKey_eq_iff hc hd').mp hkey
  exact hne (Bound.ext (hc.var.trans hvar.symm) htype hlim)

theorem differs_lower {c d : Bound} (hc : c.IsLowerOf v) (hd : d.isLowerBound = true)
    (hvar : d.var = v) (hfin : d.isInfinite = false) (hne : c ≠ d) :
    (c.lt d || d.lt c) = true := by
  have hd' : d.IsLowerOf v := by
    refine ⟨hvar, hd, fun hnone => ?_⟩
    rw [Bound.isInfinite, hnone] at hfin
    exact Bool.noConfusion hfin
  rw [Bool.or_eq_true, Bound.lt_iff_lowerKey hc hd', Bound.lt_iff_lowerKey hd' hc]
  apply lt_or_gt_of_ne
  intro hkey
  obtain ⟨htype, hlim⟩ := (Bound.lowerKey_eq_iff hc hd').mp hkey
  exact hne (Bound.ext (hc.var.trans hvar.symm) htype hlim)

theorem mem_update_filter {f : VarId → List Bound} {p : Bound → Bool} {w : VarId} :
    b ∈ update f v ((f v).filter p) w ↔ b ∈ f w ∧ (w = v → p b = true) := by
  by_cases hw : w = v
  · rw [hw, update_self, mem_filter]
    simp
  · rw [update_of_ne hw]
    simp [hw]

theorem deleteBound_deletes (v : VarId) (d : Bound) (s : MarkedTableau) :
    Deletes v [d] s (s.deleteBound v d) := by
  have hup : ∀ w b, b ∈ (s.deleteBound v d).upperbounds w ↔
      b ∈ s.upperbounds w ∧ (d.isUpperBound = true → w = v → (b.lt d || d.lt b) = true) := by
    intro w b
    show b ∈ (if d.isUpperBound then _ else _ : VarId → List Bound) w ↔ _
    split_ifs with hd
    · rw [mem_update_filter]
      simp [hd]
    · simp [hd]
  have hlow : ∀ w b, b ∈ (s.deleteBound v d).lowerbounds w ↔
      b ∈ s.lowerbounds w ∧ (d.isLowerBound = true → w = v → (b.lt d || d.lt b) = true) := by
    intro w b
    show b ∈ (if d.isLowerBound then _ else _ : VarId → List Bound) w ↔ _
    split_ifs with hd
    · rw [mem_update_filter]
      simp [hd]
    · simp [hd]
  constructor
  case rows => rfl
  case entries => rfl
  case supremum => rfl
  case infimum => rfl
  case upper => exact fun w b hb => ((hup w b).mp hb).1
  case lower => exact fun w b hb => ((hlow w b).mp hb).1
  case other =>
    intro w hw
    refine ⟨?_, ?_⟩
    · show (if d.isUpperBound then _ else _ : VarId → List Bound) w = _
      split_ifs
      · exact update_of_ne hw _ _
      · rfl
    · show (if d.isLowerBound then _ else _ : VarId → List Bound) w = _
      split_ifs
      · exact update_of_ne hw _ _
      · rfl
  case kept_upper =>
    intro hs hds w b hb hmem
    obtain ⟨hvar, hfin⟩ := hds d mem_cons_self
    refine (hup w b).mpr ⟨hmem, fun hd hw => ?_⟩
    exact differs_upper (hw ▸ hs.upperbounds w b hmem) hd hvar hfin (mem_singleton.not.mp hb)
  case kept_lower =>
    intro hs hds w b hb hmem
    obtain ⟨hvar, hfin⟩ := hds d mem_cons_self
    refine (hlow w b).mpr ⟨hmem, fun hd hw => ?_⟩
    exact differs_lower (hw ▸ hs.lowerbounds w b hmem) hd hvar hfin (mem_singleton.not.mp hb)

variable {r : MarkedTableau × List Bound}

/-- The loop is defined if no bound is deleted twice, and deletes its bounds. -/
theorem deleteBounds_eq_some {bs deleted : List Bound}
    (h : deleteBounds v bs (s, deleted) = some r) :
    bs.Nodup ∧ (∀ b ∈ bs, b ∉ deleted) ∧ (∀ b, b ∈ r.2 ↔ b ∈ bs ∨ b ∈ deleted) ∧
      Deletes v bs s r.1 ∧ ∀ b ∉ bs, r.1.neqRepresentation b = s.neqRepresentation b := by
  induction bs generalizing s deleted with
  | nil =>
    cases h
    exact ⟨nodup_nil, fun b hb => absurd hb not_mem_nil, fun b => by simp,
      Deletes.refl v s, fun _ _ => rfl⟩
  | cons d bs ih =>
    rw [deleteBounds] at h
    split_ifs at h with hd
    obtain ⟨hnodup, hnew, hmem, hdel, hrep⟩ := ih h
    have hd' : d ∉ bs := fun hmem => hnew d hmem mem_cons_self
    refine ⟨nodup_cons.mpr ⟨hd', hnodup⟩, ?_, ?_, (deleteBound_deletes v d s).trans hdel, ?_⟩
    · intro b hb
      rcases mem_cons.mp hb with rfl | hb
      · exact hd
      · exact fun hdeleted => hnew b hb (mem_cons_of_mem _ hdeleted)
    · intro b
      rw [hmem, mem_cons, mem_cons, or_left_comm, or_assoc]
    · intro b hb
      rw [mem_cons, not_or] at hb
      exact (hrep b hb.2).trans (update_of_ne hb.1 _ _)

theorem exists_deleteBounds {bs deleted : List Bound} (hnodup : bs.Nodup)
    (hnew : ∀ b ∈ bs, b ∉ deleted) : ∃ r, deleteBounds v bs (s, deleted) = some r := by
  induction bs generalizing s deleted with
  | nil => exact ⟨_, rfl⟩
  | cons d bs ih =>
    obtain ⟨hd, hnodup⟩ := nodup_cons.mp hnodup
    rw [deleteBounds, if_neg (hnew d mem_cons_self)]
    refine ih hnodup fun b hb => ?_
    rw [mem_cons, not_or]
    exact ⟨fun heq => hd (heq ▸ hb), hnew b (mem_cons_of_mem _ hb)⟩

/-- Marks do not matter for what is deleted. -/
theorem Deletes.congr {t : MarkedTableau} (h : Deletes v ds s s')
    (ht : t.toTableau = s'.toTableau) (hds : ∀ b, b ∈ ds ↔ b ∈ ds') : Deletes v ds' s t where
  rows := ht ▸ h.rows
  entries := ht ▸ h.entries
  supremum := ht ▸ h.supremum
  infimum := ht ▸ h.infimum
  upper := ht ▸ h.upper
  lower := ht ▸ h.lower
  other := ht ▸ h.other
  kept_upper hs hds' w b hb :=
    ht ▸ h.kept_upper hs (fun d hd => hds' d ((hds d).mp hd)) w b ((hds b).not.mpr hb)
  kept_lower hs hds' w b hb :=
    ht ▸ h.kept_lower hs (fun d hd => hds' d ((hds d).mp hd)) w b ((hds b).not.mpr hb)

/-- The bounds of an equation or an inequality are deleted once. -/
theorem removeOwn_eq_some {bs : List Bound} (h : s.removeOwn v bs = some r) :
    bs.Nodup ∧ (∀ b, b ∈ r.2 ↔ b ∈ s.toDelete bs) ∧ Deletes v (s.toDelete bs) s r.1 := by
  cases bs with
  | nil => cases h
  | cons own appended =>
    rw [removeOwn, Option.bind_eq_some_iff] at h
    obtain ⟨⟨s₁, deleted⟩, hloop, h⟩ := h
    obtain ⟨hnodup, -, hmem, hdel, hrepresentation⟩ := deleteBounds_eq_some hloop
    simp only at h
    split_ifs at h with hown hrep
    all_goals
      have hown' : own ∉ appended.reverse := fun hin => hown ((hmem own).mpr (.inl hin))
      have hrep' : s₁.neqRepresentation own = s.neqRepresentation own :=
        hrepresentation own hown'
      rw [mem_reverse] at hown'
      rw [hrep'] at hrep
      cases h
      refine ⟨nodup_cons.mpr ⟨hown', nodup_reverse.mp hnodup⟩, ?_, ?_⟩
    · intro b
      rw [hmem, toDelete, if_pos hrep]
      simp
    · rw [toDelete, if_pos hrep]
      exact hdel.congr rfl fun b => by simp
    · intro b
      rw [mem_cons, hmem, toDelete, if_neg hrep]
      simp [or_comm]
    · rw [toDelete, if_neg hrep]
      exact (hdel.trans (deleteBound_deletes v own s₁)).congr rfl fun b => by simp

theorem exists_removeOwn {bs : List Bound} (hne : bs ≠ []) (hnodup : bs.Nodup) :
    ∃ r, s.removeOwn v bs = some r := by
  obtain ⟨own, appended, rfl⟩ := exists_cons_of_ne_nil hne
  obtain ⟨hown, hnodup⟩ := nodup_cons.mp hnodup
  have hnone : ∀ b ∈ appended.reverse, b ∉ ([] : List Bound) := fun _ _ => not_mem_nil
  obtain ⟨⟨s₁, deleted⟩, hloop⟩ :=
    exists_deleteBounds (v := v) (s := s) (nodup_reverse.mpr hnodup) hnone
  obtain ⟨-, -, hmem, -, -⟩ := deleteBounds_eq_some hloop
  have hown' : own ∉ deleted := by
    rw [hmem, mem_reverse]
    simp [hown]
  rw [removeOwn, hloop]
  simp only [Option.bind_some, if_neg hown']
  split_ifs <;> exact ⟨_, rfl⟩

/-! ## The removal of a constraint -/

/-- The end of a removal leaves the bounds alone. -/
theorem finishRemoval_spec (s : MarkedTableau) (c : LinearConstraint) (v : VarId)
    (deleted : List Bound) :
    (s.finishRemoval c v deleted).table.toBounds =
        { s.toBounds with mConstraintToBound := update s.mConstraintToBound c none } ∧
      (s.finishRemoval c v deleted).deleted = deleted ∧
      ∀ w, (s.finishRemoval c v deleted).deletedVariable = some w →
        w = v ∧ (s.lowerbounds v).length = 1 ∧ (s.upperbounds v).length = 1 := by
  have hvar : ∀ s' : MarkedTableau, (s'.deleteVariable v).toBounds = s'.toBounds := by
    intro s'
    rw [deleteVariable]
    split_ifs <;> rfl
  rw [finishRemoval]
  simp only
  split_ifs with hlast
  · refine ⟨hvar _, rfl, fun w hw => ?_⟩
    rw [Bool.and_eq_true, Bool.and_eq_true, beq_iff_eq, beq_iff_eq] at hlast
    exact ⟨(Option.some.inj hw).symm, hlast.1.2, hlast.2⟩
  · exact ⟨rfl, rfl, fun w hw => nomatch hw⟩

/-- Every bound of a variable with one lower and one upper bound is infinite. -/
theorem infinite_of_length (hu' : Bound.infinite v .upper ∈ s.upperbounds v)
    (hl' : Bound.infinite v .lower ∈ s.lowerbounds v) (hlow : (s.lowerbounds v).length = 1)
    (hup : (s.upperbounds v).length = 1) (hb : s.Has v b) : b.isInfinite = true := by
  obtain ⟨u, hu⟩ := length_eq_one_iff.mp hup
  obtain ⟨l, hl⟩ := length_eq_one_iff.mp hlow
  rw [hu, mem_singleton] at hu'
  rw [hl, mem_singleton] at hl'
  rcases hb with hb | hb
  · rw [hu, mem_singleton, ← hu'] at hb
    rw [hb]
    rfl
  · rw [hl, mem_singleton, ← hl'] at hb
    rw [hb]
    rfl

variable {c : LinearConstraint} {bs : List Bound}

/-- A removal that is defined, by the part for the relation of the constraint. -/
theorem removeBound_eq_some (hc : s.mConstraintToBound c = some bs) {r : Removal} :
    s.removeBound c = some r ↔ ∃ last, bs.getLast? = some last ∧ ∃ r' : MarkedTableau × List Bound,
      (if c.relation = .neq then s.removeNeq bs else s.removeOwn last.var bs) = some r' ∧
        r'.1.finishRemoval c last.var r'.2 = r := by
  rw [removeBound, hc]
  simp only
  cases hlast : bs.getLast? with
  | none => simp
  | some last => simp only [Option.map_eq_some_iff, Option.some.injEq, exists_eq_left']

/-- What a removal does that deletes the bounds `ds` of `v`, if these are not in other lists. -/
theorem frames_of_deletes (h : s.toBounds.Linked) (hc : s.mConstraintToBound c = some bs)
    (hdel : Deletes v ds s r.1) (hmem : ∀ b, b ∈ r.2 ↔ b ∈ ds)
    (hds : ∀ b ∈ ds, b.var = v ∧ b.isInfinite = false)
    (hother : ∀ b ∈ ds, ∀ d ≠ c, ∀ es, s.mConstraintToBound d = some es → b ∉ es)
    (hown : ∀ b ∈ ds, ∀ own ∈ bs.head?, b.var = own.var) (hdfn : s.removeBound c =
      some (r.1.finishRemoval c v r.2)) :
    s.Frames c ∧ (r.1.finishRemoval c v r.2).table.toBounds.Linked := by
  obtain ⟨hbds, hdeleted, hvariable⟩ := finishRemoval_spec r.1 c v r.2
  have hlist : ∀ d ≠ c, (r.1.finishRemoval c v r.2).table.mConstraintToBound d =
      s.mConstraintToBound d := by
    intro d hd
    rw [hbds, ← hdel.entries]
    exact update_of_ne hd _ _
  have hself : (r.1.finishRemoval c v r.2).table.mConstraintToBound c = none := by
    rw [hbds]
    exact update_self _ _ _
  -- a bound that is not deleted stays in the sets, as the infinite ones do
  have hkeep : ∀ w b, b ∉ ds → s.Has w b → r.1.Has w b := fun w b hb hmem' =>
    hmem'.imp (hdel.kept_upper h.toWellTyped hds w b hb) (hdel.kept_lower h.toWellTyped hds w b hb)
  have hinf : ∀ b : Bound, b.isInfinite = true → b ∉ ds := fun b hb hin =>
    Bool.false_ne_true ((hds b hin).2.symm.trans hb)
  have hup : ∀ w, Bound.infinite w .upper ∈ r.1.upperbounds w := fun w =>
    hdel.kept_upper h.toWellTyped hds w _ (hinf _ rfl) (h.infinite_upper w)
  have hlow : ∀ w, Bound.infinite w .lower ∈ r.1.lowerbounds w := fun w =>
    hdel.kept_lower h.toWellTyped hds w _ (hinf _ rfl) (h.infinite_lower w)
  have hsets : ∀ w b, (r.1.finishRemoval c v r.2).table.Has w b ↔ r.1.Has w b := by
    intro w b
    rw [hbds]
    exact Iff.rfl
  have hent : ∀ d ≠ c, ∀ es, s.mConstraintToBound d = some es → ∀ b ∈ es,
      b ∉ ds ∧ b.isInfinite = false ∧ r.1.Has b.var b := by
    intro d hd es hes b hb
    have hnot : b ∉ ds := fun hin => hother b hin d hd es hes hb
    obtain ⟨hfin, hhas⟩ := h.entry_exists d es hes b hb
    exact ⟨hnot, hfin, hkeep b.var b hnot hhas⟩
  refine ⟨⟨_, hdfn, hself, hlist, ?_, ?_⟩, ?_⟩
  · intro d hd es hes b hb
    obtain ⟨hnot, hfin, hhas⟩ := hent d hd es hes b hb
    refine ⟨by rwa [hdeleted, hmem], (hsets _ _).mpr hhas, fun hvar => ?_⟩
    obtain ⟨hvar, hlen, hlen'⟩ := hvariable b.var hvar
    exact Bool.false_ne_true (hfin.symm.trans
      (infinite_of_length (hup v) (hlow v) hlen hlen' (hvar ▸ hhas)))
  · intro es hes own hown' w hw b hb
    rw [hc, Option.some.injEq] at hes
    have hbvar : b.var = w := by
      rcases hb with hb | hb
      · exact (h.upperbounds w b hb).var
      · exact (h.lowerbounds w b hb).var
    have hnot : b ∉ ds := fun hin => hw (hbvar.symm.trans (hown b hin own (hes ▸ hown')))
    exact ⟨by rwa [hdeleted, hmem], (hsets w b).mpr (hkeep w b hnot hb)⟩
  · have htyp := hdel.wellTyped h.toWellTyped
    have hold : ∀ d es, (r.1.finishRemoval c v r.2).table.mConstraintToBound d = some es →
        d ≠ c ∧ s.mConstraintToBound d = some es := by
      intro d es hes
      have hd : d ≠ c := by
        rintro rfl
        exact Option.some_ne_none es (hes.symm.trans hself)
      exact ⟨hd, (hlist d hd).symm.trans hes⟩
    constructor
    case toWellTyped =>
      rw [hbds]
      exact ⟨htyp.upperbounds, htyp.lowerbounds, htyp.supremum, htyp.infimum⟩
    case infinite_upper =>
      rw [hbds]
      exact hup
    case infinite_lower =>
      rw [hbds]
      exact hlow
    case entry_ne_nil => exact fun d es hes => h.entry_ne_nil d es (hold d es hes).2
    case entry_exists =>
      intro d es hes b hb
      obtain ⟨hd, hes⟩ := hold d es hes
      obtain ⟨-, hfin, hhas⟩ := hent d hd es hes b hb
      exact ⟨hfin, (hsets _ _).mpr hhas⟩

/-- A bound that is deleted is in the list of the constraint. -/
theorem mem_of_mem_toDelete (hb : b ∈ s.toDelete bs) : b ∈ bs := by
  cases bs with
  | nil => cases hb
  | cons own appended =>
    rw [toDelete, mem_append] at hb
    rcases hb with hb | hb
    · exact mem_cons_of_mem _ hb
    · split_ifs at hb
      · cases hb
      · exact mem_singleton.mp hb ▸ mem_cons_self

/-- The removal of a constraint that owns what is deleted with it. -/
theorem frames_of_owned (h : s.toBounds.Linked) (hc : s.mConstraintToBound c = some bs)
    (howned : s.Owned c) : s.Frames c ∧
      ∀ r, s.removeBound c = some r → r.table.toBounds.Linked := by
  have hcond := howned bs hc
  have hne := h.entry_ne_nil c bs hc
  obtain ⟨last, hlast⟩ : ∃ last, bs.getLast? = some last :=
    ⟨_, getLast?_eq_some_getLast hne⟩
  -- the removal is defined, and deletes what it should
  obtain ⟨r, hr, ds, hdel, hmem, hds, hother, hown⟩ : ∃ r : MarkedTableau × List Bound,
      (if c.relation = .neq then s.removeNeq bs else s.removeOwn last.var bs) = some r ∧
        ∃ ds, Deletes last.var ds s r.1 ∧ (∀ b, b ∈ r.2 ↔ b ∈ ds) ∧
          (∀ b ∈ ds, b.var = last.var ∧ b.isInfinite = false) ∧
          (∀ b ∈ ds, ∀ d ≠ c, ∀ es, s.mConstraintToBound d = some es → b ∉ es) ∧
          ∀ b ∈ ds, ∀ own ∈ bs.head?, b.var = own.var := by
    by_cases hrel : c.relation = .neq
    · rw [if_pos hrel] at hcond
      have hmarked : ¬ bs.any s.markedAsDeleted = true := by
        rw [any_eq_true]
        rintro ⟨b, hb, hmarked⟩
        exact Bool.false_ne_true ((hcond b hb).symm.trans hmarked)
      rw [if_pos hrel, removeNeq, if_neg hmarked]
      have hnil : ∀ {p : Bound → Prop}, ∀ b ∈ ([] : List Bound), p b :=
        fun b hb => absurd hb not_mem_nil
      refine ⟨_, rfl, [], ?_, fun b => Iff.rfl, hnil, hnil, hnil⟩
      exact ⟨rfl, rfl, rfl, rfl, fun _ _ hb => hb, fun _ _ hb => hb, fun _ _ => ⟨rfl, rfl⟩,
        fun _ _ _ _ _ hb => hb, fun _ _ _ _ _ hb => hb⟩
    · rw [if_neg hrel] at hcond
      obtain ⟨r, hr⟩ := exists_removeOwn (s := s) (v := last.var) hne hcond.1
      obtain ⟨-, hmem, hdel⟩ := removeOwn_eq_some hr
      rw [if_neg hrel]
      refine ⟨r, hr, s.toDelete bs, hdel, hmem, fun b hb => ⟨?_, ?_⟩,
        fun b hb => (hcond.2 b hb).2, fun b hb => (hcond.2 b hb).1⟩
      · -- the last bound is the first one or is deleted
        obtain ⟨own, appended, rfl⟩ := exists_cons_of_ne_nil hne
        have hhead : own ∈ (own :: appended).head? := rfl
        rw [(hcond.2 b hb).1 own hhead]
        rcases mem_cons.mp (mem_of_getLast? hlast) with heq | hin
        · rw [heq]
        · exact ((hcond.2 last (mem_append_left _ hin)).1 own hhead).symm
      · exact (h.entry_exists c bs hc b (mem_of_mem_toDelete hb)).1
  have hdfn : s.removeBound c = some (r.1.finishRemoval c last.var r.2) :=
    (removeBound_eq_some hc).mpr ⟨last, hlast, r, hr, rfl⟩
  obtain ⟨hframes, hlinked⟩ := frames_of_deletes h hc hdel hmem hds hother hown hdfn
  refine ⟨hframes, fun r' hr' => ?_⟩
  rw [hdfn, Option.some.injEq] at hr'
  exact hr' ▸ hlinked

/-- If a removal only concerns its constraint, this owns what is deleted with it. -/
theorem owned_of_frames (h : s.toBounds.Linked) (hframes : s.Frames c) : s.Owned c := by
  obtain ⟨r, hr, -, -, hothers, hsets⟩ := hframes
  intro bs hc
  obtain ⟨last, -, r', hr', rfl⟩ := (removeBound_eq_some hc).mp hr
  rw [(finishRemoval_spec r'.1 c last.var r'.2).2.1] at hothers hsets
  split_ifs with hrel
  · intro b hb
    rw [if_pos hrel, removeNeq] at hr'
    split_ifs at hr' with hmarked
    rw [← Bool.not_eq_true]
    exact fun hb' => hmarked (any_eq_true.mpr ⟨b, hb, hb'⟩)
  · rw [if_neg hrel] at hr'
    obtain ⟨hnodup, hmem, -⟩ := removeOwn_eq_some hr'
    refine ⟨hnodup, fun b hb => ⟨fun own hown => ?_, fun d hd es hes hin => ?_⟩⟩
    · by_contra hvar
      have hhas := (h.entry_exists c bs hc b (mem_of_mem_toDelete hb)).2
      exact (hsets bs hc own hown b.var hvar b hhas).1 ((hmem b).mpr hb)
    · exact (hothers d hd es hes b hin).1 ((hmem b).mpr hb)

end MarkedTableau

/-! ## Reachable tableaux -/

namespace MarkedTableau

variable {settings : TableauSettings} {s : MarkedTableau} {c : LinearConstraint} {bs : List Bound}

/-- The tableaux the module can reach, as long as the bounds that are deleted belong to the removed
constraint alone.  Learned and strict bounds are appended to the lists of the constraints they
follow from, and erased from them, but the first bound of a list stays. -/
inductive Reachable (settings : TableauSettings) : MarkedTableau → Prop
  | empty (p : LinearForm) : Reachable settings ⟨.empty p, fun _ => false⟩
  | step {s : MarkedTableau} {action : Tableau.TableauAction} {t : Tableau} (hs : Reachable settings s)
      (hstep : s.toTableau.step settings action = some t) :
      Reachable settings { s with toTableau := t }
  | append {s : MarkedTableau} {c : LinearConstraint} {bs : List Bound} {b : Bound}
      (hs : Reachable settings s) (hc : s.mConstraintToBound c = some bs) (hb : s.HasBoundObject b) :
      Reachable settings { s with
        mConstraintToBound := update s.mConstraintToBound c (some (bs ++ [b])) }
  | eraseAppended {s : MarkedTableau} {c : LinearConstraint} {own : Bound}
      {appended kept : List Bound} (hs : Reachable settings s)
      (hc : s.mConstraintToBound c = some (own :: appended)) (hkept : kept.Sublist appended) :
      Reachable settings { s with
        mConstraintToBound := update s.mConstraintToBound c (some (own :: kept)) }
  | removeBound {s : MarkedTableau} {c : LinearConstraint} {bs : List Bound} {r : Removal}
      (hs : Reachable settings s) (hc : s.mConstraintToBound c = some bs)
      (hinactive : ∀ b ∈ bs, s.isActive b = false) (howned : s.Owned c)
      (hr : s.removeBound c = some r) : Reachable settings r.table

/-- In every tableau that is reached the bounds in the lists exist. -/
theorem Reachable.linked (h : Reachable settings s) : s.toBounds.Linked := by
  induction h with
  | empty p => exact Bounds.linked_empty
  | step hs hstep ih => exact Tableau.step_linked ih hstep
  | append hs hc hb ih =>
    refine ih.grow ⟨fun _ _ hb => hb, fun _ _ hb => hb⟩
      ⟨ih.upperbounds, ih.lowerbounds, ih.supremum, ih.infimum⟩ fun d es hd => ?_
    rcases Tableau.update_eq_some_iff.mp hd with ⟨-, rfl⟩ | ⟨-, hd⟩
    · refine .inr ⟨append_ne_nil_of_right_ne_nil _ (cons_ne_nil _ _), fun b' hb' => ?_⟩
      rcases mem_append.mp hb' with hb' | hb'
      · exact ih.entry_exists _ _ hc b' hb'
      · rw [mem_singleton.mp hb']
        exact hb
    · exact .inl hd
  | eraseAppended hs hc hkept ih =>
    refine ih.grow ⟨fun _ _ hb => hb, fun _ _ hb => hb⟩
      ⟨ih.upperbounds, ih.lowerbounds, ih.supremum, ih.infimum⟩ fun d es hd => ?_
    rcases Tableau.update_eq_some_iff.mp hd with ⟨-, rfl⟩ | ⟨-, hd⟩
    · exact .inr ⟨cons_ne_nil _ _, fun b hb => ih.entry_exists _ _ hc b
        ((hkept.cons_cons _).mem hb)⟩
    · exact .inl hd
  | removeBound hs hc hinact howned hr ih => exact (frames_of_owned ih hc howned).2 _ hr

/-- The tableau that was informed about `2x + 3y - 6 ≤ 0`. -/
def sampleInformed : MarkedTableau :=
  ⟨(Tableau.empty Tableau.sampleForm).newBound Tableau.sampleConstraint, fun _ => false⟩

/-- The disequality `2x + 3y - 6 ≠ 0`. -/
def sampleDisequality : LinearConstraint := Tableau.sampleConstraint.withRelation .neq

end MarkedTableau

end Smtrat.LRA
