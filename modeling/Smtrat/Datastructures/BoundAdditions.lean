import Smtrat.Datastructures.StoredBounds

/-!
# Additions of bounds

A formula with at most one bound is added with all its bounds.
-/

namespace Smtrat.VB

open SparsePoly PropFormula List Function Option

universe u v w

namespace VariableBounds

variable {V : Type u} {B : Type v} {T : Type w} [DecidableEq V]

variable [LinearOrder T]

variable {o : T} {b : Bound}

omit [DecidableEq V] in
theorem activate_eq_some {y y' : Variable T} {r : Bool} (h : y.activate b o = some (r, y')) :
    y' = { y with mpOrigins :=
        Function.update y.mpOrigins b ((y.mpOrigins b).orderedInsert (· ≤ ·) o) } ∧
      r = decide (((y.mpOrigins b).orderedInsert (· ≤ ·) o).length = 1) := by
  rw [Variable.activate] at h
  split_ifs at h
  obtain ⟨rfl, rfl⟩ := Prod.mk.inj (some.inj h)
  exact ⟨rfl, rfl⟩

variable {bounds : List (Constraint V × T)} {c : Constraint V}

/-- The origins of the bounds of the variable after an addition. -/
theorem perm_originsOf_concat {x : V} (hc : boundOf c = some (x, b)) (o : T) {os : Bound → List T}
    (h : ∀ b', (os b').Perm (originsOf bounds x b')) (b' : Bound) :
    (Function.update os b ((os b).orderedInsert (· ≤ ·) o) b').Perm
      (originsOf (bounds ++ [(c, o)]) x b') := by
  rw [originsOf_concat]
  by_cases hb : b' = b
  · subst hb
    rw [update_self, if_pos hc]
    exact (perm_orderedInsert _ _ _).trans (((h b').cons o).trans (perm_append_singleton o _).symm)
  · have hne : boundOf c ≠ some (x, b') := by
      rw [hc]
      rintro heq
      exact hb (Prod.mk.inj (some.inj heq)).2.symm
    rw [update_of_ne hb, if_neg hne, append_nil]
    exact h b'

variable {s s' : VariableBounds V T}

theorem addLinear_spec
    (h : s.Stores bounds) {x : V} (hc : boundOf c = some (x, b)) (hs : s.addLinear c o x b = some s') : Adds s s' (bounds ++ [(c, o)]) := by
  have hbd : ∀ p ∈ bounds ++ [(c, o)], boundOf p.1 ≠ none := by
    intro p hp
    rcases mem_append.mp hp with hp | hp
    · exact h.bound p hp
    · rw [mem_singleton.mp hp, hc]
      exact some_ne_none _
  have hsub : ∀ p ∈ bounds, p ∈ bounds ++ [(c, o)] := fun p hp => mem_append_left _ hp
  rw [addLinear] at hs
  cases hmap : s.mpConstraintBoundMap c with
  | some q =>
    obtain ⟨x', b'⟩ := q
    obtain ⟨hc', y, hx, hknown⟩ := h.known c x' b' hmap
    obtain ⟨rfl, rfl⟩ := Prod.mk.inj (some.inj (hc'.symm.trans hc))
    rw [hmap] at hs
    dsimp only at hs
    rw [hx, bind_some] at hs
    obtain ⟨⟨r, y'⟩, hact, hs⟩ := Option.map_eq_some_iff.mp hs
    obtain ⟨hy', hr⟩ := activate_eq_some hact
    have hchg := (h.wellFormed x' y hx).changedAt_origins hknown
      ((y.mpOrigins b').orderedInsert (· ≤ ·) o)
    rw [← hy'] at hchg
    have horigs : ∀ b₀, (y'.mpOrigins b₀).Perm (originsOf (bounds ++ [(c, o)]) x' b₀) := by
      rw [hy']
      exact perm_originsOf_concat hc o (h.origins x' y hx)
    have hother : ∀ z, z ≠ x' → ∀ b₀, originsOf (bounds ++ [(c, o)]) z b₀ = originsOf bounds z b₀ :=
      fun z hz => originsOf_concat_of_ne hc o hz
    have hkept : ∀ b₀ y₀, s.mpVariableMap.lookup x' = some y₀ → y₀.Known b₀ → y'.Known b₀ := by
      intro b₀ y₀ hy₀ hk
      obtain rfl := some.inj (hx.symm.trans hy₀)
      rw [hy']
      exact hk
    dsimp only at hs
    split_ifs at hs with hr'
    · subst hs
      exact h.updated hsub (h.setVariable ((h.wellFormed x' y hx).updateBounds hchg)
        horigs hother hkept nofun hbd)
    · subst hs
      -- The bound has been active before.
      have hactive : y'.isActive b' = y.isActive b' := by
        have hfin := boundOf_finite hc
        rw [Bool.eq_iff_iff, isActive_iff hfin, isActive_iff hfin, hy']
        dsimp only
        rw [update_self]
        refine iff_of_true (fun hnil => ?_) fun hnil => hr' ?_
        · have hlen := orderedInsert_length (· ≤ ·) (y.mpOrigins b') o
          rw [hnil] at hlen
          cases hlen
        · rw [hr, hnil]
          rfl
      have hwf := (h.wellFormed x' y hx).of_changedAt hchg (by rw [hy']) (by rw [hy']) hactive
      have hint : y'.interval = y.interval := by
        rw [hy']
        rfl
      refine ⟨h.setVariable hwf horigs hother hkept (fun hupd => ?_) hbd, fun hex => ?_⟩
      · rw [hint]
        refine h.interval x' y hx ?_
        rw [hy'] at hupd
        exact hupd
      · refine hex.congr rfl (conflicts_setVariable_of_eq ?_)
        rw [hx, Variable.conflicting_iff, hint, ← Variable.conflicting_iff]
        simp
  | none =>
    rw [hmap] at hs
    dsimp only at hs
    have ht := h.touch x
    obtain ⟨y, hx⟩ := lookup_touch s x
    rw [hx, bind_some] at hs
    obtain ⟨⟨r, y'⟩, hact, rfl⟩ := Option.map_eq_some_iff.mp hs
    obtain ⟨hy', -⟩ := activate_eq_some hact
    have hins := (ht.wellFormed x y hx).sets.insertBound (boundOf_finite hc)
    have hchg := (ht.wellFormed x y hx).changedAt_insert (boundOf_finite hc)
      (((y.insertBound b).mpOrigins b).orderedInsert (· ≤ ·) o)
    rw [← hy'] at hchg
    have horigs : ∀ b₀, (y'.mpOrigins b₀).Perm (originsOf (bounds ++ [(c, o)]) x b₀) := by
      rw [hy']
      refine perm_originsOf_concat hc o ?_
      rw [hins.origins]
      exact ht.origins x y hx
    have hknown : ∀ b₀, y.Known b₀ ∨ b₀ = b → (y'.updateBounds b).Known b₀ := by
      rintro b₀ (hk | rfl)
      · rw [hy']
        exact ⟨fun hu => hins.uppers_mono _ (hk.1 hu), fun hl => hins.lowers_mono _ (hk.2 hl)⟩
      · rw [hy']
        exact hins.mem
    have hstor := ht.setVariable ((ht.wellFormed x y hx).updateBounds hchg) horigs
      (fun z hz => originsOf_concat_of_ne hc o hz)
      (fun b₀ y₀ hy₀ hk => hknown b₀ (Or.inl (some.inj (hx.symm.trans hy₀) ▸ hk)))
      nofun hbd
    have hadds := ht.updated hsub hstor
    refine ⟨⟨hadds.stores.wellFormed, hadds.stores.origins, hadds.stores.missing, ?_,
      hadds.stores.interval, hbd⟩, fun hex => hadds.exact (hex.touch x)⟩
    intro c' z b₀ hc'
    by_cases hcc : c' = c
    · subst hcc
      dsimp only at hc'
      rw [update_self] at hc'
      obtain ⟨rfl, rfl⟩ := Prod.mk.inj (some.inj hc')
      refine ⟨hc, y'.updateBounds b, ?_, hknown b (Or.inr rfl)⟩
      exact (lookup_setVariable _ _ _ _).trans (if_pos rfl)
    · dsimp only at hc'
      rw [update_of_ne hcc] at hc'
      exact hadds.stores.known c' z b₀ hc'

omit [LinearOrder T] in
theorem Keeps.adds (h : Keeps s s' bounds) (hs : s.Stores bounds) : Adds s s' bounds :=
  ⟨h.stores hs, h.exact⟩

theorem addBound_spec (h : s.Stores bounds) {r : Bool} (hs : s.addBound c o = some (r, s')) :
    r = (boundOf c).isSome ∧ Adds s s' (bounds ++ if (boundOf c).isSome then [(c, o)] else []) := by
  rw [addBound] at hs
  cases hc : boundOf c with
  | some q =>
    obtain ⟨x, b⟩ := q
    rw [hc] at hs
    obtain ⟨s₁, hs₁, heq⟩ := Option.map_eq_some_iff.mp hs
    obtain ⟨rfl, rfl⟩ := Prod.mk.inj heq
    exact ⟨rfl, addLinear_spec h hc hs₁⟩
  | none =>
    rw [hc] at hs
    dsimp only at hs
    rw [isSome_none, if_neg Bool.false_ne_true, append_nil]
    split_ifs at hs
    · obtain ⟨rfl, rfl⟩ := Prod.mk.inj (some.inj hs)
      exact ⟨rfl, (keeps_touch s _ bounds).adds h⟩
    · obtain ⟨rfl, rfl⟩ := Prod.mk.inj (some.inj hs)
      exact ⟨rfl, (keeps_refl s bounds).adds h⟩
    · obtain ⟨rfl, rfl⟩ := Prod.mk.inj (some.inj hs)
      have hkeep := keeps_nonBound s (c :: s.mNonBoundConstraints) bounds
      have htouch := keeps_touch (s := { s with
        mNonBoundConstraints := c :: s.mNonBoundConstraints }) (Poly.variables c.lhs).dedup bounds
      exact ⟨rfl, htouch.stores (hkeep.stores h), fun hex => htouch.exact (hkeep.exact hex)⟩

variable {f : Formula (Atom V B)}

theorem addFormula_of_not_and (hf : f.isConjunction = false) (o : T)
    (s : VariableBounds V T) : addFormula o f s
      = match literal f with
        | some c => s.addBound c o
        | none => some (false, s) := by
  cases f with
  | const b => rfl
  | atom a => rfl
  | app c fs =>
    cases c with
    | and => cases hf
    | _ => rfl

/-- The bounds of a conjunction. -/
def boundsOfAll (fs : List (Formula (Atom V B))) : List (Constraint V) :=
  (literalsAll fs).filter fun c => (boundOf c).isSome

omit [LinearOrder T] in
theorem boundsOfAll_cons (f : Formula (Atom V B)) (fs : List (Formula (Atom V B))) :
    boundsOfAll (f :: fs) = boundsOf f ++ boundsOfAll fs := by
  rw [boundsOfAll, literalsAll, filter_append]
  rfl

/-- What the addition of a formula, or of several, with the bounds `bs` does. -/
def AddsAll (o : T) (s : VariableBounds V T) (bounds : List (Constraint V × T))
    (bs : List (Constraint V)) (res : Option (Bool × VariableBounds V T)) : Prop :=
  ∀ r s', res = some (r, s') → r = !bs.isEmpty ∧ Adds s s' (bounds ++ bs.map (·, o))

/-- After a bound nothing is added any more. -/
theorem addFormulas_true (o : T) (fs : List (Formula (Atom V B))) (s : VariableBounds V T) :
    addFormulas o fs true s = some (true, s) := by
  induction fs with
  | nil => rw [addFormulas]
  | cons f fs ih =>
    rw [addFormulas, if_pos rfl]
    exact ih

theorem addFormulas_spec {fs : List (Formula (Atom V B))}
    (ih : ∀ f ∈ fs, (boundsOf f).length ≤ 1 → ∀ (s : VariableBounds V T) bounds, s.Stores bounds →
      AddsAll o s bounds (boundsOf f) (addFormula o f s))
    (hfs : (boundsOfAll fs).length ≤ 1) (s : VariableBounds V T)
    (bounds : List (Constraint V × T)) (h : s.Stores bounds) :
    AddsAll o s bounds (boundsOfAll fs) (addFormulas o fs false s) := by
  induction fs generalizing s bounds with
  | nil =>
    intro r s' hs
    rw [addFormulas] at hs
    obtain ⟨rfl, rfl⟩ := Prod.mk.inj (some.inj hs)
    refine ⟨rfl, ?_⟩
    have hnil : bounds ++ (boundsOfAll ([] : List (Formula (Atom V B)))).map (·, o) = bounds :=
      append_nil bounds
    rw [hnil]
    exact ⟨h, id⟩
  | cons f fs ihl =>
    rw [boundsOfAll_cons] at hfs ⊢
    rw [length_append] at hfs
    intro r s' hs
    rw [addFormulas, if_neg Bool.false_ne_true] at hs
    obtain ⟨⟨r₁, s₁⟩, hf, hs⟩ := bind_eq_some_iff.mp hs
    obtain ⟨hr₁, hadds⟩ := ih f mem_cons_self (by omega) s bounds h r₁ s₁ hf
    dsimp only at hs
    cases hbs : boundsOf f with
    | nil =>
      rw [hbs] at hr₁ hadds
      rw [map_nil, append_nil] at hadds
      rw [hr₁] at hs
      obtain ⟨hr, hadds'⟩ := ihl (fun g hg => ih g (mem_cons_of_mem f hg)) (by omega) s₁
        bounds hadds.stores r s' hs
      rw [nil_append]
      exact ⟨hr, hadds'.stores, fun hex => hadds'.exact (hadds.exact hex)⟩
    | cons c cs =>
      rw [hbs] at hr₁ hadds hfs
      have hrest : boundsOfAll fs = [] := by
        refine eq_nil_of_length_eq_zero ?_
        rw [length_cons] at hfs
        omega
      rw [hr₁, isEmpty_cons, Bool.not_false, addFormulas_true] at hs
      obtain ⟨rfl, rfl⟩ := Prod.mk.inj (some.inj hs)
      rw [hrest, append_nil]
      exact ⟨rfl, hadds⟩

theorem addFormula_literal (hf : f.isConjunction = false)
    (s : VariableBounds V T) (bounds : List (Constraint V × T)) (h : s.Stores bounds) :
    AddsAll o s bounds (boundsOf f) (addFormula o f s) := by
  intro r s' hs
  rw [addFormula_of_not_and hf] at hs
  rw [boundsOf, literals_of_not_and hf]
  cases hlit : literal f with
  | none =>
    rw [hlit] at hs
    obtain ⟨rfl, rfl⟩ := Prod.mk.inj (some.inj hs)
    refine ⟨rfl, ?_⟩
    simpa using (keeps_refl s bounds).adds h
  | some c =>
    rw [hlit] at hs
    obtain ⟨rfl, hadds⟩ := addBound_spec h hs
    cases hc : boundOf c with
    | none => simpa [hc] using hadds
    | some q => simpa [hc] using hadds

/-- A formula with at most one bound is added with its bounds. -/
theorem addFormula_spec (hf : (boundsOf f).length ≤ 1)
    (s : VariableBounds V T) (bounds : List (Constraint V × T)) (h : s.Stores bounds) :
    AddsAll o s bounds (boundsOf f) (addFormula o f s) := by
  induction f using Formula.induction generalizing s bounds with
  | hconst b => exact addFormula_literal rfl s bounds h
  | hatom a => exact addFormula_literal rfl s bounds h
  | happ c fs ih =>
    cases c with
    | and =>
      rw [addFormula]
      exact addFormulas_spec (fun f hf hlen s bounds h => ih f hf hlen s bounds h) hf s bounds h
    | _ => exact addFormula_literal rfl s bounds h

end VariableBounds

end Smtrat.VB
