import Smtrat.Datastructures.StoredBounds

/-!
# Removals of bounds

A formula is removed with all its bounds.  The conflict that is remembered afterwards is that of the
variable whose bound was removed last.
-/

namespace Smtrat.VB

open SparsePoly PropFormula List Function Option

universe u v w

namespace VariableBounds

variable {V : Type u} {B : Type v} {T : Type w} [DecidableEq V]

variable [LinearOrder T]

/-- Two active bounds other than `b` contradict each other. -/
def leavesConflict (y : Variable T) (b : Bound) : Bool :=
  y.mLowerbounds.any fun l => y.mUpperbounds.any fun u =>
    l ≠ b && u ≠ b && y.isActive l && y.isActive u && l.contradict u

/-- The removal of a constraint does not take the last origin of a bound whose variable is without
conflict then, while another variable is in conflict. -/
def removalExact (s : VariableBounds V T) (c : Constraint V) (o : T) : Bool :=
  match s.mpConstraintBoundMap c with
  | none => true
  | some (x, b) =>
    match s.mpVariableMap.lookup x with
    | none => true
    | some y => y.mpOrigins b ≠ [o] || leavesConflict y b ||
        s.mpVariableMap.entries.all fun e => e.1 = x || !e.2.conflicting

variable {o : T} {b : Bound}

omit [DecidableEq V] in
theorem deactivate_eq_some {y y' : Variable T} {r : Bool} (h : y.deactivate b o = some (r, y')) :
    o ∈ y.mpOrigins b ∧
      y' = { y with mpOrigins := update y.mpOrigins b ((y.mpOrigins b).erase o) } ∧
      r = ((y.mpOrigins b).erase o).isEmpty := by
  rw [Variable.deactivate] at h
  split_ifs at h with ho
  obtain ⟨rfl, rfl⟩ := Prod.mk.inj (some.inj h)
  exact ⟨ho, rfl, rfl⟩

variable {bounds : List (Constraint V × T)} {c : Constraint V}

/-- The origins of the bounds of the variable after a removal. -/
theorem perm_originsOf_eraseBound {x : V} (hc : boundOf c = some (x, b)) (o : T)
    {os : Bound → List T}
    (h : ∀ b', (os b').Perm (originsOf bounds x b')) (b' : Bound) :
    (update os b ((os b).erase o) b').Perm (originsOf (eraseBound o bounds c) x b') := by
  by_cases hb : b' = b
  · subst hb
    rw [update_self, originsOf_eraseBound bounds hc]
    exact (h b').erase o
  · have hne : boundOf c ≠ some (x, b') := by
      rw [hc]
      rintro heq
      exact hb (Prod.mk.inj (some.inj heq)).2.symm
    rw [update_of_ne hb, originsOf_eraseBound_of_ne bounds hne]
    exact h b'

omit [DecidableEq V] [LinearOrder T] in
/-- Bounds that stay active keep their variable in conflict. -/
theorem conflicting_of_leavesConflict {y y' : Variable T} (hy : y.WellFormed)
    (hy' : y'.WellFormed) (horigs : ∀ c, c ≠ b → y'.mpOrigins c = y.mpOrigins c)
    (h : leavesConflict y b) : y'.conflicting := by
  obtain ⟨l, hl, h⟩ := List.any_eq_true.mp h
  obtain ⟨u, hu, h⟩ := List.any_eq_true.mp h
  simp only [Bool.and_eq_true, decide_eq_true_eq] at h
  obtain ⟨⟨⟨⟨hlb, hub⟩, hla⟩, hua⟩, hcontra⟩ := h
  rw [Variable.conflicting_iff]
  rintro ⟨r, hr⟩
  have hsat : ∀ c, c ≠ b → y.isActive c → c.mpLimit ≠ none → c.Sat r := fun c hcb hact hfin => by
    refine hy'.contains_interval_iff.mp hr c ?_ hfin
    rw [horigs c hcb]
    exact (isActive_iff hfin).mp hact
  refine Bound.contradict_iff.mp hcontra ⟨r, ?_, ?_⟩
  · intro m hm
    exact (hsat l hlb hla (by rw [hm]; exact some_ne_none m)).2 (hy.sets.lower.all l hl).1 m hm
  · intro m hm
    exact (hsat u hub hua (by rw [hm]; exact some_ne_none m)).1 (hy.sets.upper.all u hu).1 m hm

variable {s s' : VariableBounds V T}

theorem removeLinear_spec
    (h : s.Stores bounds) {x : V} (hc : boundOf c = some (x, b)) {r : Nat} (hs : s.removeLinear c o = some (r, s')) :
    s'.Stores (eraseBound o bounds c) ∧ (s.removalExact c o → s.Exact → s'.Exact) := by
  obtain ⟨⟨x', b'⟩, hmap, hs⟩ := bind_eq_some_iff.mp hs
  obtain ⟨hc', y, hx, hknown⟩ := h.known c x' b' hmap
  obtain ⟨rfl, rfl⟩ := Prod.mk.inj (some.inj (hc'.symm.trans hc))
  dsimp only at hs
  rw [hx, bind_some] at hs
  obtain ⟨⟨d, y'⟩, hdeact, hs⟩ := map_eq_some_iff.mp hs
  obtain ⟨ho, hy', hd⟩ := deactivate_eq_some hdeact
  have hchg := (h.wellFormed x' y hx).changedAt_origins hknown ((y.mpOrigins b').erase o)
  rw [← hy'] at hchg
  have horigs : ∀ b₀, (y'.mpOrigins b₀).Perm (originsOf (eraseBound o bounds c) x' b₀) := by
    rw [hy']
    exact perm_originsOf_eraseBound hc o (h.origins x' y hx)
  have hother : ∀ z, z ≠ x' → ∀ b₀,
      originsOf (eraseBound o bounds c) z b₀ = originsOf bounds z b₀ := by
    intro z hz b₀
    refine originsOf_eraseBound_of_ne bounds ?_ o
    rw [hc]
    rintro heq
    exact hz (Prod.mk.inj (some.inj heq)).1.symm
  have hkept : ∀ b₀ y₀, s.mpVariableMap.lookup x' = some y₀ → y₀.Known b₀ → y'.Known b₀ := by
    intro b₀ y₀ hy₀ hk
    obtain rfl := some.inj (hx.symm.trans hy₀)
    rw [hy']
    exact hk
  have hbd : ∀ p ∈ eraseBound o bounds c, boundOf p.1 ≠ none := fun p hp =>
    h.bound p (mem_of_mem_eraseBound hp)
  dsimp only at hs
  by_cases hdead : d = true
  · rw [if_pos hdead] at hs
    obtain ⟨-, rfl⟩ := Prod.mk.inj hs
    have hwf := (h.wellFormed x' y hx).updateBounds hchg
    have hstor := h.setVariable (y := y'.updateBounds b') hwf horigs hother hkept nofun hbd
    refine ⟨hstor.withConflict _, fun hexact hs => ?_⟩
    by_cases hconf : (y'.updateBounds b').conflicting
    · refine iff_of_true ?_ (conflicts_setVariable.mpr (Or.inl hconf))
      dsimp only [isConflicting]
      rw [if_pos hconf]
      rfl
    · have hnone : y.mpOrigins b' = [o] := by
        rw [hd, List.isEmpty_iff] at hdead
        have hlen := length_erase_of_mem ho
        rw [hdead, length_nil] at hlen
        obtain ⟨o', ho'⟩ := length_eq_one_iff.mp
          (show (y.mpOrigins b').length = 1 by have := length_pos_of_mem ho; omega)
        rw [ho', mem_singleton] at ho
        rw [ho', ho]
      have hleaves : leavesConflict y b' = false := by
        rw [← Bool.not_eq_true]
        intro hl
        exact hconf (conflicting_of_leavesConflict (h.wellFormed x' y hx) hwf
          (fun c hcb => hchg.origins c hcb) hl)
      have hrest : s.mpVariableMap.entries.all fun e => e.1 = x' || !e.2.conflicting := by
        rw [removalExact, hmap] at hexact
        dsimp only at hexact
        rw [hx] at hexact
        simpa [hnone, hleaves] using hexact
      refine iff_of_false ?_ fun hany => ?_
      · dsimp only [isConflicting]
        rw [if_neg hconf]
        exact Bool.false_ne_true
      · rcases conflicts_setVariable.mp hany with hc' | ⟨z, hzx, y₀, hz, hc'⟩
        · exact hconf hc'
        · have hmem := AList.mem_lookup_iff.mp (mem_def.mpr hz)
          have := List.all_eq_true.mp hrest _ hmem
          simp [hzx, hc'] at this
  · rw [if_neg hdead] at hs
    obtain ⟨-, rfl⟩ := Prod.mk.inj hs
    -- The bound stays active.
    have hact : y'.isActive b' = y.isActive b' := by
      have hfin := boundOf_finite hc
      rw [Bool.eq_iff_iff, isActive_iff hfin, isActive_iff hfin, hy']
      dsimp only
      rw [update_self]
      refine iff_of_true (fun hnil => hdead ?_) (ne_nil_of_mem ho)
      rw [hd, hnil]
      rfl
    have hwf := (h.wellFormed x' y hx).of_changedAt hchg (by rw [hy']) (by rw [hy']) hact
    have hint : y'.interval = y.interval := by
      rw [hy']
      rfl
    refine ⟨h.setVariable hwf horigs hother hkept (fun hupd => ?_) hbd, fun _ hex => ?_⟩
    · rw [hint]
      refine h.interval x' y hx ?_
      rw [hy'] at hupd
      exact hupd
    · refine hex.congr rfl (conflicts_setVariable_of_eq ?_)
      rw [hx, Variable.conflicting_iff, hint, ← Variable.conflicting_iff]
      simp

theorem removeBound_spec (h : s.Stores bounds) {r : Nat} (hs : s.removeBound c o = some (r, s')) :
    s'.Stores (if (boundOf c).isSome then eraseBound o bounds c else bounds) ∧
      (s.removalExact c o → s.Exact → s'.Exact) := by
  rw [removeBound] at hs
  cases hc : boundOf c with
  | some q =>
    rw [hc] at hs
    exact removeLinear_spec h hc hs
  | none =>
    rw [hc] at hs
    dsimp only at hs
    split_ifs at hs
    · obtain ⟨-, rfl⟩ := Prod.mk.inj (some.inj hs)
      exact ⟨h, fun _ => id⟩
    · obtain ⟨-, rfl⟩ := Prod.mk.inj (some.inj hs)
      have hkeep := keeps_nonBound s (s.mNonBoundConstraints.erase c) bounds
      exact ⟨hkeep.stores h, fun _ => hkeep.exact⟩

/-- The removal of several constraints, one after the other. -/
def removeAll (o : T) : List (Constraint V) → VariableBounds V T → Option (VariableBounds V T)
  | [], s => some s
  | c :: cs, s => (s.removeBound c o).bind fun p => removeAll o cs p.2

/-- All these removals keep to the condition of `removalExact`. -/
def removalsExact (o : T) : List (Constraint V) → VariableBounds V T → Bool
  | [], _ => true
  | c :: cs, s => s.removalExact c o && match s.removeBound c o with
    | none => true
    | some p => removalsExact o cs p.2

theorem removeAll_append (o : T) (cs ds : List (Constraint V)) (s : VariableBounds V T) :
    removeAll o (cs ++ ds) s = (removeAll o cs s).bind (removeAll o ds) := by
  induction cs generalizing s with
  | nil => rfl
  | cons c cs ih =>
    rw [cons_append, removeAll, removeAll, bind_assoc]
    exact congrArg _ (funext fun p => ih p.2)

theorem removeFormula_literal {f : Formula (Atom V B)} (hf : f.isConjunction = false) (o : T)
    (s : VariableBounds V T) :
    (removeFormula o f s).map (·.2) = removeAll o (literals f) s := by
  rw [removeFormula, literals_of_not_and hf]
  · cases literal f with
    | none => rfl
    | some c =>
      rw [toList_some, removeAll]
      dsimp only
      cases s.removeBound c o <;> rfl
  · rintro fs rfl
    cases hf

theorem removeFormulas_eq {fs : List (Formula (Atom V B))} (ih : ∀ f ∈ fs, ∀ s : VariableBounds V T,
      (removeFormula o f s).map (·.2) = removeAll o (literals f) s)
    (res : Nat) (s : VariableBounds V T) :
    (removeFormulas o fs res s).map (·.2) = removeAll o (literalsAll fs) s := by
  induction fs generalizing res s with
  | nil =>
    rw [removeFormulas]
    rfl
  | cons f fs ihl =>
    have hfs := ihl fun g hg => ih g (mem_cons_of_mem f hg)
    rw [literalsAll, removeAll_append, ← ih f mem_cons_self, removeFormulas]
    cases removeFormula o f s with
    | none => rfl
    | some p => exact hfs _ _

/-- A formula is removed with all its literals. -/
theorem removeFormula_eq (o : T) (f : Formula (Atom V B)) (s : VariableBounds V T) :
    (removeFormula o f s).map (·.2) = removeAll o (literals f) s := by
  induction f using Formula.induction generalizing s with
  | hconst b => exact removeFormula_literal rfl o s
  | hatom a => exact removeFormula_literal rfl o s
  | happ c fs ih =>
    cases c with
    | and =>
      rw [removeFormula, literals]
      exact removeFormulas_eq ih 0 s
    | _ => exact removeFormula_literal rfl o s

theorem removeAll_spec {cs : List (Constraint V)} (h : s.Stores bounds)
    (hs : removeAll o cs s = some s') :
    s'.Stores ((cs.filter fun c => (boundOf c).isSome).foldl (eraseBound o) bounds) ∧
      (removalsExact o cs s → s.Exact → s'.Exact) := by
  induction cs generalizing s bounds with
  | nil =>
    cases hs
    exact ⟨h, fun _ => id⟩
  | cons c cs ih =>
    obtain ⟨⟨r, s₁⟩, hc, hs⟩ := bind_eq_some_iff.mp hs
    obtain ⟨h₁, hexact₁⟩ := removeBound_spec h hc
    obtain ⟨h₂, hexact₂⟩ := ih h₁ hs
    refine ⟨?_, fun hcs hex => ?_⟩
    · rw [filter_cons]
      split_ifs at h₂ ⊢ <;> exact h₂
    · rw [removalsExact, hc, Bool.and_eq_true] at hcs
      exact hexact₂ hcs.2 (hexact₁ hcs.1 hex)

end VariableBounds

end Smtrat.VB
