import Smtrat.PFE.Passing

/-!
# Keeping the problem

What holds in a run whose steps avoid the cases in which origins are used as if they were premises.
-/

namespace Smtrat.PFE

open SparsePoly PropFormula VB ModuleInput List Option

universe u v w

variable {V : Type u} {B : Type v} {F : Type w} [LinearOrder V] [LinearOrder F]

namespace PFEModule

section Statement

variable [DecidableEq B] (content : F → Formula (Atom V B))

/-- The last check has passed all received formulas, and no bound has changed since.  This is so after
each check that runs the backends. -/
def AllPassed (s : PFEModule V B F) : Prop :=
  s.unchecked = [] ∧ s.boundsChanged = false ∧ s.leftOut = []

/-- The passed formulas say the same as the received ones, each is implied by each of its origins,
which are received, and the infeasible subsets are contradictory sets of received formulas. -/
structure KeepsProblem (s : PFEModule V B F) : Prop where
  equivalent : s.AllPassed → ∀ a : Assignment V B,
    (∀ p ∈ s.mpPassedFormula.formulas, a.Satisfies p) ↔ ∀ f ∈ s.received, a.Satisfies (content f)
  origins : ∀ p ∈ s.mpPassedFormula.formulas, s.mpPassedFormula.origins p ≠ [] ∧
    ∀ o ∈ s.mpPassedFormula.origins p, (∃ f ∈ s.received, content f = o) ∧
      ∀ a : Assignment V B, a.Satisfies o → a.Satisfies p
  infeasible : ∀ subset ∈ s.mInfeasibleSubsets, (∀ f ∈ subset, f ∈ s.received) ∧
    ¬ ∃ a : Assignment V B, ∀ f ∈ subset, a.Satisfies (content f)

/-- A received formula is a bound or has no bound as a conjunct, none is removed while a conjunction
with it is received, and a check passes simplified formulas only where no bound is used, leaves no
formula out that it should pass, and finds variables fixed by equations only. -/
def Careful (lib : Library V B) (s : PFEModule V B F) : Action V B F → Prop
  | .addCore f => isBound (content f) ∨ boundsOf (content f) = []
  | .removeCore f => ∀ g ∈ s.received, g ≠ f → hasPart (content g) (content f) = false
  | .checkCore _ => (s.leftOut = [] ∨ s.boundsChanged) ∧
      SafeAll lib content s.varbounds s.toPass.1 s.toPass.2 ∧ FixedByEquations s.varbounds

instance (lib : Library V B) (s : PFEModule V B F) :
    (action : Action V B F) → Decidable (Careful content lib s action)
  | .addCore f => inferInstanceAs (Decidable (isBound (content f) ∨ boundsOf (content f) = []))
  | .removeCore f => inferInstanceAs (Decidable (∀ g ∈ s.received, g ≠ f → _))
  | .checkCore _ => inferInstanceAs (Decidable (_ ∧ _ ∧ _))

/-- The bounds are those of received formulas, and what is passed is justified and keeps the
formulas that have been passed. -/
structure Inv (s : PFEModule V B F) (stored : List (Constraint V × F))
    (R : OriginRelation (Atom V B)) : Prop where
  genuine : s.varbounds.Genuine
  stores : s.varbounds.Stores stored
  nodup : (stored.map (·.2)).Nodup
  bounds : ∀ p ∈ stored, p.2 ∈ s.received ∧ literal (content p.2) = some p.1
  separate : ∀ f ∈ s.received, isBound (content f) ∨ boundsOf (content f) = []
  represents : s.mpPassedFormula.Represents R
  justified : Justified content s.received R
  kept : s.boundsChanged = false → ∀ f ∈ s.checked, f ∉ s.leftOut → Kept content stored R f
  infeasible : ∀ subset ∈ s.mInfeasibleSubsets, (∀ f ∈ subset, f ∈ s.received) ∧
    ¬ ∃ a : Assignment V B, ∀ f ∈ subset, a.Satisfies (content f)

end Statement

variable {content : F → Formula (Atom V B)}

/-! ## Bounds -/

omit [LinearOrder F] in
theorem literal_of_isBound {f : Formula (Atom V B)} (h : isBound f) :
    ∃ c, literal f = some c ∧ (boundOf c).isSome ∧ boundsOf f = [c] ∧ f.isConjunction = false := by
  obtain ⟨q, hq⟩ := isSome_iff_exists.mp h
  obtain ⟨c, hc, hb⟩ := bind_eq_some_iff.mp hq
  have hnot : f.isConjunction = false := by
    rw [literal.eq_def] at hc
    split at hc
    · rfl
    · rfl
    · cases hc
  have hsome : (boundOf c).isSome := by
    rw [hb]
    rfl
  refine ⟨c, hc, hsome, ?_, hnot⟩
  rw [boundsOf, literals_of_not_and hnot, hc, toList_some]
  exact filter_cons_of_pos (p := fun c => (boundOf c).isSome) hsome

omit [LinearOrder F] in
theorem isBound_of_literal {f : Formula (Atom V B)} {c : Constraint V} (h : literal f = some c)
    (hc : boundOf c ≠ none) : isBound f := by
  rw [isBound, h, bind_some]
  exact isSome_iff_ne_none.mpr hc

theorem removeFormula_of_literal {f : Formula (Atom V B)} {c : Constraint V}
    (h : literal f = some c) (o : F) (s : VariableBounds V F) :
    VariableBounds.removeFormula o f s = s.removeBound c o := by
  rw [literal.eq_def] at h
  split at h
  · obtain rfl := some.inj h
    rfl
  · obtain rfl := some.inj h
    rfl
  · cases h

variable {stored : List (Constraint V × F)} {f : F}

/-- What a removal does with the bounds. -/
theorem removeFormula_spec {bounds bounds' : VariableBounds V F} {r : ℕ}
    (hstor : bounds.Stores stored)
    (hnodup : (stored.map (·.2)).Nodup) (hlit : ∀ p ∈ stored, literal (content p.2) = some p.1)
    (hseparate : isBound (content f) ∨ boundsOf (content f) = [])
    (h : VariableBounds.removeFormula f (content f) bounds = some (r, bounds')) :
    ∃ stored', bounds'.Stores stored' ∧ (stored'.map (·.2)).Nodup ∧
      (∀ p ∈ stored', p ∈ stored ∧ p.2 ≠ f) ∧
      (r ≠ 2 → ∀ α : V → ℝ, (∀ p ∈ stored', p.1.Sat α) → ∀ p ∈ stored, p.1.Sat α) := by
  by_cases hbd : isBound (content f)
  · obtain ⟨c, hc, hsome, -, -⟩ := literal_of_isBound hbd
    rw [removeFormula_of_literal hc] at h
    have hstores := (VariableBounds.removeBound_spec hstor h).1
    rw [if_pos hsome] at hstores
    have hne := origin_ne_of_mem_eraseBound (o := f) (c := c) hnodup fun p hp hpf => by
      have hp := hlit p hp
      rw [hpf, hc] at hp
      rw [some.inj hp]
    refine ⟨_, hstores, hnodup.sublist (eraseP_sublist.map _),
      fun p hp => ⟨mem_of_mem_eraseBound hp, hne p hp⟩, fun hr α hα p hp => ?_⟩
    -- the interval of the variable has not changed
    obtain ⟨⟨x, b⟩, hb⟩ := ne_none_iff_exists'.mp (hstor.bound p hp)
    refine (hstor.sound_interval x α).mp ?_ p hp ⟨b, hb⟩
    rw [← VariableBounds.getInterval_removeBound h hr]
    exact (hstores.sound_interval x α).mpr fun q hq _ => hα q hq
  · have hnone := hseparate.resolve_left hbd
    have hall : VariableBounds.removeAll f (literals (content f)) bounds = some bounds' := by
      rw [← VariableBounds.removeFormula_eq, h]
      rfl
    have hstores := (VariableBounds.removeAll_spec hstor hall).1
    rw [show (literals (content f)).filter (fun c => (boundOf c).isSome) = [] from hnone] at hstores
    refine ⟨stored, hstores, hnodup, fun p hp => ⟨hp, ?_⟩, fun _ α hα => hα⟩
    rintro rfl
    exact hbd (isBound_of_literal (hlit p hp) (hstor.bound p hp))

variable [DecidableEq B] {lib : Library V B}

/-! ## Additions and removals -/

omit [LinearOrder F] [DecidableEq B] in
theorem initial_inv : Inv content (initial : PFEModule V B F) [] fun _ _ => False where
  genuine := VariableBounds.initial_genuine
  stores := VariableBounds.initial_stores
  nodup := nodup_nil
  bounds := nofun
  separate := nofun
  represents := ⟨empty_wellFormed, nofun, fun _ => iff_of_false nofun fun h => h.choose_spec⟩
  justified := nofun
  kept := fun _ => nofun
  infeasible := nofun

variable {s s' : PFEModule V B F} {R : OriginRelation (Atom V B)}

theorem Inv.addCore (h : Inv content s stored R)
    (hf : isBound (content f) ∨ boundsOf (content f) = []) (hs : s.addCore content f = some s') :
    ∃ stored', Inv content s' stored' R := by
  rw [PFEModule.addCore] at hs
  split_ifs at hs with hnew
  obtain ⟨⟨changed, bounds⟩, hadd, rfl⟩ := map_eq_some_iff.mp hs
  have hlen : (boundsOf (content f)).length ≤ 1 := by
    rcases hf with hf | hf
    · obtain ⟨c, -, -, hc, -⟩ := literal_of_isBound hf
      rw [hc, length_singleton]
    · rw [hf]
      exact Nat.zero_le 1
  obtain ⟨hchg, hadds⟩ := VariableBounds.addFormula_spec hlen _ _ h.stores _ _ hadd
  have hgenuine := h.genuine.addFormula h.stores hadd
  have hkeep {g : F} (hg : g ∈ s.received) : g ∈ s.checked ++ (s.unchecked ++ [f]) := by
    rw [← append_assoc]
    exact mem_append_left _ hg
  have hself : f ∈ s.checked ++ (s.unchecked ++ [f]) :=
    mem_append_right _ (mem_append_right _ (mem_singleton_self f))
  have hbds : ∀ p ∈ stored ++ (boundsOf (content f)).map (·, f),
      p.2 ∈ s.checked ++ (s.unchecked ++ [f]) ∧ literal (content p.2) = some p.1 := by
    intro p hp
    rcases mem_append.mp hp with hp | hp
    · exact ⟨hkeep (h.bounds p hp).1, (h.bounds p hp).2⟩
    · obtain ⟨c, hc, rfl⟩ := List.mem_map.mp hp
      refine ⟨hself, ?_⟩
      rcases hf with hf | hf
      · obtain ⟨d, hd, -, hbds, -⟩ := literal_of_isBound hf
        rw [hbds] at hc
        rw [mem_singleton.mp hc]
        exact hd
      · rw [hf] at hc
        exact absurd hc not_mem_nil
  have hinfeasible : ∀ subset ∈ s.mInfeasibleSubsets,
      (∀ g ∈ subset, g ∈ s.checked ++ (s.unchecked ++ [f])) ∧
        ¬ ∃ a : Assignment V B, ∀ g ∈ subset, a.Satisfies (content g) := fun subset hsub =>
    ⟨fun g hg => hkeep ((h.infeasible subset hsub).1 g hg), (h.infeasible subset hsub).2⟩
  refine ⟨stored ++ (boundsOf (content f)).map (·, f), hgenuine, hadds.stores, ?_, hbds, ?_,
    h.represents, ?_, ?_, ?_⟩
  · rw [map_append, List.map_map, nodup_append]
    refine ⟨h.nodup, ?_, fun o ho o' ho' => ?_⟩
    · match boundsOf (content f), hlen with
      | [], _ => exact nodup_nil
      | [c], _ => exact nodup_singleton _
    · obtain ⟨p, hp, rfl⟩ := List.mem_map.mp ho
      obtain ⟨c, -, rfl⟩ := List.mem_map.mp ho'
      rintro heq
      exact hnew (List.mem_map.mpr ⟨p.2, (h.bounds p hp).1, congrArg content heq⟩)
  · intro g hg
    rcases mem_append.mp hg with hg | hg
    · exact h.separate g (mem_append_left _ hg)
    · rcases mem_append.mp hg with hg | hg
      · exact h.separate g (mem_append_right _ hg)
      · rwa [mem_singleton.mp hg]
  · intro g o ho
    obtain ⟨⟨g', hg', heq⟩, himpl⟩ := h.justified g o ho
    exact ⟨⟨g', hkeep hg', heq⟩, himpl⟩
  · intro hsame
    obtain ⟨hold, hres⟩ := Bool.or_eq_false_iff.mp hsame
    rw [hchg, Bool.not_eq_false', List.isEmpty_iff] at hres
    rw [hres, map_nil, append_nil]
    exact h.kept hold
  · intro subset hsub
    dsimp only at hsub
    split_ifs at hsub with hconf
    · rcases mem_append.mp hsub with hsub | hsub
      · exact hinfeasible subset hsub
      · obtain ⟨p, hp, q, hq, hconflict, hno⟩ := hadds.stores.getConflict hgenuine hconf
        rw [mem_singleton.mp hsub, hconflict]
        refine ⟨fun g hg => ?_, ?_⟩
        · rcases mem_pair.mp hg with rfl | rfl
          · exact (hbds p hp).1
          · exact (hbds q hq).1
        · rintro ⟨a, ha⟩
          refine hno a.arith ⟨(satisfies_literal (hbds p hp).2 a).mp ?_,
            (satisfies_literal (hbds q hq).2 a).mp ?_⟩
          · exact ha _ mem_cons_self
          · exact ha _ (mem_cons_of_mem _ mem_cons_self)
    · exact hinfeasible subset hsub

theorem Inv.removeCore (h : Inv content s stored R)
    (hf : ∀ g ∈ s.received, g ≠ f → hasPart (content g) (content f) = false)
    (hs : s.removeCore content f = some s') :
    ∃ stored', Inv content s' stored' (R.remove (content f)) := by
  rw [PFEModule.removeCore] at hs
  split_ifs at hs with hmem
  obtain ⟨⟨r, bounds⟩, hrem, rfl⟩ := map_eq_some_iff.mp hs
  obtain ⟨stored', hstor, hnodup, hsub, hvals⟩ := removeFormula_spec h.stores h.nodup
    (fun p hp => (h.bounds p hp).2) (h.separate f hmem) hrem
  have hrec : s.checked.filter (· ≠ f) ++ s.unchecked.filter (· ≠ f)
      = s.received.filter (· ≠ f) := (filter_append ..).symm
  have hleft {g : F} (hg : g ∈ s.received) (hne : g ≠ f) : g ∈ s.received.filter (· ≠ f) :=
    mem_filter.mpr ⟨hg, decide_eq_true hne⟩
  have hpart : hasPart (content f) (content f) = true := by simp [hasPart]
  have hremoved (s' : PFEModule V B F) (hs' : s'.checked ++ s'.unchecked = s.received.filter (· ≠ f)) :
      s'.received = s.received.filter (· ≠ f) := hs'
  refine ⟨stored', h.genuine.removeFormula hrem, hstor, hnodup, fun p hp => ⟨?_, ?_⟩, ?_,
    h.represents.removeReceived (content f), ?_, ?_, ?_⟩
  · rw [hremoved _ hrec]
    exact hleft (h.bounds p (hsub p hp).1).1 (hsub p hp).2
  · exact (h.bounds p (hsub p hp).1).2
  · intro g hg
    rw [hremoved _ hrec] at hg
    exact h.separate g (mem_filter.mp hg).1
  · rintro g o ⟨ho, hkeep⟩
    obtain ⟨⟨g', hg', rfl⟩, himpl⟩ := h.justified g o ho
    rw [hremoved _ hrec]
    refine ⟨⟨g', hleft hg' ?_, rfl⟩, himpl⟩
    rintro rfl
    rw [hpart] at hkeep
    cases hkeep
  · intro hsame g hg hleftOut
    obtain ⟨hold, hres⟩ := Bool.or_eq_false_iff.mp hsame
    obtain ⟨hg, hne⟩ := mem_filter.mp hg
    have hne : g ≠ f := of_decide_eq_true hne
    have hkept := h.kept hold g hg fun hmem =>
      hleftOut (mem_filter.mpr ⟨hmem, decide_eq_true hne⟩)
    have hstay := hf g (mem_append_left _ hg) hne
    refine ⟨fun hb => ⟨hkept.bound hb, hstay⟩, ?_⟩
    rcases hkept.follows with ⟨gs, hgs, hfollows⟩ | hfollows
    · exact .inl ⟨gs, fun g' hg' => ⟨hgs g' hg', hstay⟩, hfollows⟩
    · exact .inr fun a ha => hfollows a (hvals (of_decide_eq_false hres) a.arith ha)
  · intro subset hsubset
    obtain ⟨hsubset, hnot⟩ := mem_filter.mp hsubset
    obtain ⟨hall, hunsat⟩ := h.infeasible subset hsubset
    rw [hremoved _ hrec]
    refine ⟨fun g hg => hleft (hall g hg) ?_, hunsat⟩
    rintro rfl
    exact of_decide_eq_true hnot hg

/-! ## Checks -/

omit [LinearOrder F] in
theorem mem_toPass (hf : f ∈ s.toPass.1) : f ∈ s.received := by
  rw [toPass] at hf
  split_ifs at hf
  · exact hf
  · exact mem_append_right _ hf

omit [LinearOrder F] in
/-- The loop of a check keeps all the formulas that it does not leave out. -/
theorem Inv.checkFormulas (h : Inv content s stored R) (hleft : s.leftOut = [] ∨ s.boundsChanged)
    (hsafe : SafeAll lib content s.varbounds s.toPass.1 s.toPass.2) :
    ∃ R', Inv content (s.checkFormulas lib content) stored R' := by
  have hrec : (s.checkFormulas lib content).received = s.received := append_nil _
  have hstart : ∃ R₀, s.toPass.2.Represents R₀ ∧ Justified content s.received R₀ ∧
      (s.boundsChanged = false → ∀ f ∈ s.checked, Kept content stored R₀ f) := by
    rw [toPass]
    split_ifs with hchg
    · exact ⟨_, represents_clear h.represents, nofun, fun hsame => by
        rw [hchg] at hsame
        cases hsame⟩
    · refine ⟨R, h.represents, h.justified, fun hsame f hf => h.kept hsame f hf ?_⟩
      rw [hleft.resolve_right hchg]
      exact not_mem_nil
  obtain ⟨R₀, hm₀, hR₀, hkept₀⟩ := hstart
  obtain ⟨R', done, hsplit, hm, hmono, hR, hdone⟩ :=
    passFormulas_spec lib h.stores hm₀ hR₀ (fun _ => mem_toPass) hsafe
  refine ⟨R', h.genuine, h.stores, h.nodup, ?_, ?_, hm, ?_, ?_, ?_⟩
  · rw [hrec]
    exact h.bounds
  · rw [hrec]
    exact h.separate
  · rw [hrec]
    exact hR
  · intro _ f hf hout
    have hmem (hfs : f ∈ s.toPass.1)
        (hrest : f ∉ (passFormulas lib content s.varbounds s.toPass.1 s.toPass.2).2) :
        Kept content stored R' f := by
      rw [hsplit] at hfs
      exact hdone f ((mem_append.mp hfs).resolve_right hrest)
    have hf : f ∈ s.received := hf
    rw [PFEModule.checkFormulas] at hout
    dsimp only at hout
    by_cases hchg : s.boundsChanged
    · rw [if_pos hchg] at hout
      refine hmem ?_ hout
      rw [toPass, if_pos hchg]
      exact hf
    · rw [if_neg hchg] at hout
      have hrest := fun hrest => hout (mem_append_right _ hrest)
      rcases mem_append.mp hf with hf | hf
      · exact (hkept₀ (Bool.eq_false_iff.mpr hchg) f hf).mono fun g => hmono g _
      · refine hmem ?_ hrest
        rw [toPass, if_neg hchg]
        exact hf
  · rw [hrec]
    exact h.infeasible

omit [LinearOrder V] [LinearOrder F] [DecidableEq B] in
theorem exists_findBestOrigin {origins : List (Formula (Atom V B))} (h : origins ≠ []) :
    ∃ o ∈ origins, findBestOrigin origins = some o := by
  have hfold (os : List (Formula (Atom V B))) (b : Formula (Atom V B)) :
      ∃ o ∈ b :: os, os.foldl (fun smallest origin => match smallest with
        | none => some origin
        | some o => if size origin < size o then some origin else some o) (some b) = some o := by
    induction os generalizing b with
    | nil => exact ⟨b, mem_cons_self, rfl⟩
    | cons o os ih =>
      rw [foldl_cons]
      dsimp only
      split_ifs
      · obtain ⟨o', ho', heq⟩ := ih o
        exact ⟨o', mem_cons_of_mem _ ho', heq⟩
      · obtain ⟨o', ho', heq⟩ := ih b
        refine ⟨o', ?_, heq⟩
        rcases mem_cons.mp ho' with rfl | ho'
        · exact mem_cons_self
        · exact mem_cons_of_mem _ (mem_cons_of_mem _ ho')
  rw [findBestOrigin]
  cases hfind : origins.find? (size · = 1) with
  | some o => exact ⟨o, mem_of_find?_eq_some hfind, rfl⟩
  | none =>
    cases origins with
    | nil => exact absurd rfl h
    | cons o os => exact hfold os o

omit [LinearOrder F] in
/-- The origins of an infeasible subset of a backend are one of the received formulas. -/
theorem Inv.getInfeasibleSubset (h : Inv content s stored R)
    {subset : List (Formula (Atom V B))} (hsub : ∀ f ∈ subset, f ∈ s.mpPassedFormula.formulas)
    (hunsat : ¬ ∃ a : Assignment V B, ∀ f ∈ subset, a.Satisfies f) :
    (∀ f ∈ s.getInfeasibleSubset content subset, f ∈ s.received) ∧
      ¬ ∃ a : Assignment V B, ∀ f ∈ s.getInfeasibleSubset content subset,
        a.Satisfies (content f) := by
  -- each formula of the subset has one received formula as its best origin
  have horig : ∀ cons ∈ subset, ∃ f ∈ s.received,
      s.getOrigins content cons = [f] ∧ ∀ a : Assignment V B, a.Satisfies (content f) → a.Satisfies cons := by
    intro cons hcons
    obtain ⟨e, he, hf⟩ := List.mem_map.mp (hsub cons hcons)
    obtain ⟨o, ho⟩ := (h.represents.stored cons).mp
      (h.represents.wellFormed.contains_iff.mpr ⟨e, he, hf⟩)
    obtain ⟨b, hb, hbest⟩ := exists_findBestOrigin (ne_nil_of_mem (h.represents.mem_origins.mpr ho))
    obtain ⟨⟨f, hf, rfl⟩, himpl⟩ := h.justified cons b (h.represents.mem_origins.mp hb)
    rw [getOrigins, hbest]
    dsimp only
    rw [collectOrigins]
    cases hfind : s.received.find? (content · = content f) with
    | none =>
      have hne := find?_eq_none.mp hfind f hf
      exact absurd (decide_eq_true rfl) hne
    | some g =>
      have hg : content g = content f := by simpa using find?_some hfind
      exact ⟨g, mem_of_find?_eq_some hfind, rfl, fun a ha => himpl a (hg ▸ ha)⟩
  constructor
  · intro f hf
    obtain ⟨cons, hcons, hf⟩ := mem_flatMap.mp hf
    obtain ⟨g, hg, heq, -⟩ := horig cons hcons
    rw [heq] at hf
    rwa [mem_singleton.mp hf]
  · rintro ⟨a, ha⟩
    refine hunsat ⟨a, fun cons hcons => ?_⟩
    obtain ⟨g, -, heq, himpl⟩ := horig cons hcons
    refine himpl a (ha g (mem_flatMap.mpr ⟨cons, hcons, ?_⟩))
    rw [heq]
    exact mem_singleton_self g

omit [LinearOrder F] in
theorem Inv.checkCore (h : Inv content s stored R) {backend : Backend V B}
    (hcare : Careful content lib s (.checkCore backend)) :
    ∃ R', Inv content (s.checkCore lib content backend).2 stored R' := by
  obtain ⟨hleft, hsafe, hfixed⟩ := hcare
  rw [PFEModule.checkCore]
  split_ifs with hempty
  · exact ⟨R, h⟩
  · obtain ⟨R₁, h₁⟩ := h.checkFormulas hleft hsafe
    have hrec : (s.checkFormulas lib content).received = s.received := append_nil _
    dsimp only
    split
    · next f rest hrest =>
        -- a formula is false under the bounds
        refine ⟨R₁, h₁.genuine, h₁.stores, h₁.nodup, h₁.bounds, h₁.separate, h₁.represents,
          h₁.justified, h₁.kept, fun subset hsub => ?_⟩
        rw [mem_singleton.mp hsub]
        have hf : f ∈ s.toPass.1 := mem_of_passFormulas lib (by rw [hrest]; exact mem_cons_self)
        refine ⟨fun g hg => ?_, unsat_of_simplify lib h.stores (fun p hp => (h.bounds p hp).2)
          (simplify_eq_false lib hrest)⟩
        rcases mem_append.mp hg with hg | hg
        · obtain ⟨x, -, hg⟩ := mem_originsOfBounds.mp hg
          obtain ⟨p, hp, rfl⟩ := mem_getOriginsOfBounds h.stores hg
          exact (h₁.bounds p hp).1
        · rw [mem_singleton.mp hg]
          exact hrec ▸ mem_toPass hf
    · next hrest =>
        obtain ⟨R₂, hm₂, hmono₂, hR₂⟩ := generateVariableAssignments_spec lib h₁.stores
          (fun p hp => (h₁.bounds p hp).2) (fun p hp => (h₁.bounds p hp).1) hfixed
          h₁.represents h₁.justified
        have h₂ : Inv content { s.checkFormulas lib content with
            mpPassedFormula := generateVariableAssignments lib content s.varbounds
              (s.checkFormulas lib content).mpPassedFormula } stored R₂ :=
          ⟨h₁.genuine, h₁.stores, h₁.nodup, h₁.bounds, h₁.separate, hm₂, hR₂,
            fun hsame f hf hout => (h₁.kept hsame f hf hout).mono fun g => hmono₂ g _,
            h₁.infeasible⟩
        refine ⟨R₂, ?_⟩
        dsimp only
        split_ifs
        · refine ⟨h₂.genuine, h₂.stores, h₂.nodup, h₂.bounds, h₂.separate, h₂.represents,
            h₂.justified, h₂.kept, fun subset hsub => ?_⟩
          rcases mem_append.mp hsub with hsub | hsub
          · exact h₂.infeasible subset hsub
          · obtain ⟨subset, hmem, rfl⟩ := List.mem_map.mp hsub
            obtain ⟨hpass, hunsat⟩ := backend.sound _ subset hmem
            exact h₂.getInfeasibleSubset hpass hunsat
        · exact h₂

/-! ## Runs -/

omit [LinearOrder F] in
omit [LinearOrder F] [DecidableEq B] in
theorem Inv.keepsProblem (h : Inv content s stored R) : KeepsProblem content s := by
  have hpass {p : Formula (Atom V B)} : p ∈ s.mpPassedFormula.formulas ↔ ∃ o, R p o := by
    rw [← h.represents.stored, h.represents.wellFormed.contains_iff]
    exact List.mem_map
  refine ⟨fun ⟨hunchecked, hchg, hout⟩ a => ⟨fun ha => ?_, fun ha p hp => ?_⟩,
    fun p hp => ?_, h.infeasible⟩
  · have hrec : s.received = s.checked := by
      rw [received, hunchecked, append_nil]
    have hkept {f : F} (hf : f ∈ s.received) : Kept content stored R f :=
      h.kept hchg f (hrec ▸ hf) (by rw [hout]; exact not_mem_nil)
    have hbds : ∀ p ∈ stored, p.1.Sat a.arith := by
      intro p hp
      obtain ⟨hmem, hlit⟩ := h.bounds p hp
      refine (satisfies_literal hlit a).mp (ha _ (hpass.mpr ⟨_, (hkept hmem).bound ?_⟩))
      exact isBound_of_literal hlit (h.stores.bound p hp)
    intro f hf
    rcases (hkept hf).follows with ⟨gs, hgs, hfollows⟩ | hfollows
    · exact hfollows a fun g hg => ha g (hpass.mpr ⟨_, hgs g hg⟩)
    · exact hfollows a hbds
  · obtain ⟨o, ho⟩ := hpass.mp hp
    obtain ⟨⟨f, hf, rfl⟩, himpl⟩ := h.justified p o ho
    exact himpl a (ha f hf)
  · obtain ⟨o, ho⟩ := hpass.mp hp
    refine ⟨ne_nil_of_mem (h.represents.mem_origins.mpr ho), fun o ho => ?_⟩
    exact h.justified p o (h.represents.mem_origins.mp ho)

theorem step_inv {action : Action V B F}
    (h : ∃ stored R, Inv content s stored R) (hcare : Careful content lib s action)
    (hs : s.step lib content action = some s') : ∃ stored R, Inv content s' stored R := by
  obtain ⟨stored, R, h⟩ := h
  cases action with
  | addCore f =>
    obtain ⟨stored', h'⟩ := h.addCore hcare hs
    exact ⟨stored', R, h'⟩
  | removeCore f =>
    obtain ⟨stored', h'⟩ := h.removeCore hcare hs
    exact ⟨stored', _, h'⟩
  | checkCore backend =>
    obtain ⟨R', h'⟩ := h.checkCore hcare
    exact ⟨stored, R', some.inj hs ▸ h'⟩

end PFEModule

section Example

/-- A product of powers of variables is factorised, any other polynomial is its only factor. -/
def exampleFactorization (c : Constraint ℕ) : Factorization ℕ :=
  match c.lhs with
  | [t] =>
    if t.coeff = 1 ∧ ∀ p ∈ t.monomial, 0 < p.2 then t.monomial.map fun p => (Poly.var p.1, p.2)
    else [(c.lhs, 1)]
  | _ => [(c.lhs, 1)]

/-- Only the intervals of variables are known. -/
def exampleEvaluate (p : Poly ℕ ℚ) (box : ℕ → Interval) : Interval :=
  match p with
  | [⟨c, [(x, 1)]⟩] => if c = 1 then box x else ⟨none, none⟩
  | _ => ⟨none, none⟩

private theorem lower_le {i : Interval} {r : ℝ} (hr : i.Contains r) {q : ℚ × Bool → Bool}
    (h : i.lower.any q) : ∃ l, q l ∧ (l.1 : ℝ) ≤ r := by
  obtain ⟨⟨l, strict⟩, hl, hq⟩ := (Option.any_eq_true _ _).mp h
  refine ⟨_, hq, ?_⟩
  have hle := hr.1 l strict hl
  split_ifs at hle
  · exact hle.le
  · exact hle

private theorem le_upper {i : Interval} {r : ℝ} (hr : i.Contains r) {q : ℚ × Bool → Bool}
    (h : i.upper.any q) : ∃ u, q u ∧ r ≤ (u.1 : ℝ) := by
  obtain ⟨⟨u, strict⟩, hu, hq⟩ := (Option.any_eq_true _ _).mp h
  refine ⟨_, hq, ?_⟩
  have hle := hr.2 u strict hu
  split_ifs at hle
  · exact hle.le
  · exact hle

def exampleLibrary : Library ℕ ℕ where
  pool := .verbatim _
  constraint p r := .atom (.constraint ⟨p, r⟩)
  satisfies_constraint a p r := satisfies_atom a _
  vars_constraint p r q hq x hx := by
    rw [Formula.mentions_atom] at hq
    subst hq
    exact hx
  factorization := exampleFactorization
  value_factorization c α := by
    rw [exampleFactorization]
    split
    · next t ht =>
        split_ifs with h
        · rw [Factorization.value, List.map_map, ht, Poly.eval_cons, Poly.eval_nil, add_zero,
            Term.eval, h.1, map_one, one_mul]
          exact congrArg List.prod (map_congr_left fun p _ => by simp)
        · simp [Factorization.value]
    · simp [Factorization.value]
  exponent_pos c f hf := by
    rw [exampleFactorization] at hf
    split at hf
    · split_ifs at hf with h
      · obtain ⟨p, hp, rfl⟩ := List.mem_map.mp hf
        exact h.2 p hp
      · rw [mem_singleton.mp hf]
        exact one_pos
    · rw [mem_singleton.mp hf]
      exact one_pos
  vars_factorization c f hf x hx := by
    rw [exampleFactorization] at hf
    split at hf
    · next t ht =>
        split_ifs at hf with h
        · obtain ⟨p, hp, rfl⟩ := List.mem_map.mp hf
          rw [ht]
          have hxp : x = p.1 := by simpa [Poly.variables, Poly.var] using hx
          rw [hxp]
          exact mem_flatMap.mpr ⟨t, mem_singleton_self t, List.mem_map_of_mem hp⟩
        · rw [mem_singleton.mp hf] at hx
          exact hx
    · rw [mem_singleton.mp hf] at hx
      exact hx
  evaluate := exampleEvaluate
  contains_evaluate p box α h := by
    rw [exampleEvaluate.eq_def]
    split
    · next c x =>
        split_ifs with hc
        · have hx := h x (by simp [Poly.variables])
          simpa [hc, Term.eval] using hx
        · exact ⟨nofun, nofun⟩
    · exact ⟨nofun, nofun⟩
  isPositive i := i.lower.any fun l => 0 < l.1
  pos_of_isPositive i hi r hr := by
    obtain ⟨l, hl, hle⟩ := lower_le hr hi
    exact lt_of_lt_of_le (by exact_mod_cast of_decide_eq_true hl) hle
  isSemiPositive i := i.lower.any fun l => 0 ≤ l.1
  nonneg_of_isSemiPositive i hi r hr := by
    obtain ⟨l, hl, hle⟩ := lower_le hr hi
    exact le_trans (by exact_mod_cast of_decide_eq_true hl) hle
  isNegative i := i.upper.any fun u => u.1 < 0
  neg_of_isNegative i hi r hr := by
    obtain ⟨u, hu, hle⟩ := le_upper hr hi
    exact lt_of_le_of_lt hle (by exact_mod_cast of_decide_eq_true hu)
  isSemiNegative i := i.upper.any fun u => u.1 ≤ 0
  nonpos_of_isSemiNegative i hi r hr := by
    obtain ⟨u, hu, hle⟩ := le_upper hr hi
    exact le_trans hle (by exact_mod_cast of_decide_eq_true hu)
  isZero i := i.lower = some (0, false) && i.upper = some (0, false)
  eq_zero_of_isZero i hi r hr := by
    simp only [Bool.and_eq_true, decide_eq_true_eq] at hi
    have hlower := hr.1 0 false hi.1
    have hupper := hr.2 0 false hi.2
    simp only [Bool.false_eq_true, if_false, Rat.cast_zero] at hlower hupper
    exact le_antisymm hupper hlower

def exampleBackend : Backend ℕ ℕ := ⟨fun _ => (.unknown, []), nofun⟩

/-- The bound `x0 >= 1`, and a product that is positive. -/
def exampleContent (monomial : List (ℕ × ℕ)) : ℕ → Formula (Atom ℕ ℕ)
  | 0 => .atom (.constraint ⟨[⟨1, [(0, 1)]⟩, ⟨-1, []⟩], .geq⟩)
  | _ => .atom (.constraint ⟨[⟨1, monomial⟩], .greater⟩)

end Example

end Smtrat.PFE
