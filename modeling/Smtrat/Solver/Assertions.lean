import Smtrat.Logic.Formula

/-!
# Asserting and withdrawing formulas

A solver keeps the formulas it is given once each, and a conjunction as its conjuncts.  A client
that withdraws a formula again takes the conjuncts out one after the other.  This is what the
client wants as long as a formula it withdraws has no conjunct in common with one that it still
needs: a conjunct that was given twice is there only once.
-/

namespace PropFormula
open List Function

universe u v

variable {A : Type u}

/-! ## Conjuncts -/

namespace Formula

mutual

/-- The formulas a conjunction is stored as. -/
def conjuncts : Formula A → List (Formula A)
  | .app .and fs => conjunctsAll fs
  | f => [f]

def conjunctsAll : List (Formula A) → List (Formula A)
  | [] => []
  | f :: fs => conjuncts f ++ conjunctsAll fs

end

/-- A conjunction without repeated conjuncts none of which is a conjunction. -/
def Flat : Formula A → Prop
  | .app .and fs => fs.Nodup ∧ ∀ f ∈ fs, f.isConjunction = false
  | _ => True

/-- The conjuncts of a formula, without those of its conjuncts. -/
def directConjuncts : Formula A → List (Formula A)
  | .app .and fs => fs
  | f => [f]

theorem conjuncts_of_not_isConjunction {f : Formula A} (h : f.isConjunction = false) :
    f.conjuncts = [f] := by
  unfold conjuncts
  split
  · simp [isConjunction] at h
  · rfl

theorem flat_of_not_isConjunction {f : Formula A} (h : f.isConjunction = false) : f.Flat := by
  unfold Flat
  split
  · simp [isConjunction] at h
  · trivial

theorem conjunctsAll_eq_flatMap (fs : List (Formula A)) :
    conjunctsAll fs = fs.flatMap conjuncts := by
  induction fs with
  | nil => rfl
  | cons f fs ih => rw [conjunctsAll, ih, flatMap_cons]

theorem conjunctsAll_of_not_isConjunction {fs : List (Formula A)}
    (h : ∀ f ∈ fs, f.isConjunction = false) : conjunctsAll fs = fs := by
  induction fs with
  | nil => rfl
  | cons f fs ih =>
    rw [conjunctsAll, conjuncts_of_not_isConjunction (h f mem_cons_self),
      ih fun g hg => h g (mem_cons_of_mem f hg)]
    rfl

theorem Flat.conjuncts_eq {f : Formula A} (h : f.Flat) : f.conjuncts = f.directConjuncts := by
  unfold conjuncts directConjuncts
  split
  · exact conjunctsAll_of_not_isConjunction h.2
  · rfl

theorem Flat.nodup {f : Formula A} (h : f.Flat) : f.conjuncts.Nodup := by
  rw [h.conjuncts_eq]
  unfold directConjuncts
  split
  · exact h.1
  · exact nodup_singleton _

/-- A formula holds if and only if all its conjuncts do. -/
theorem eval_iff_conjuncts (α : A → Bool) (f : Formula A) :
    f.eval α = true ↔ ∀ g ∈ f.conjuncts, g.eval α = true := by
  induction f using Formula.induction with
  | hconst b => simp [conjuncts]
  | hatom a => simp [conjuncts]
  | happ c fs ih =>
    cases hc : c with
    | and =>
      simp only [eval_app, Connective.eval_and, all_map, all_eq_true, conjuncts,
        conjunctsAll_eq_flatMap, mem_flatMap, forall_exists_index, and_imp]
      constructor
      · intro h g f hf hg
        exact (ih f hf).mp (h f hf) g hg
      · intro h f hf
        exact (ih f hf).mpr fun g hg => h g f hf hg
    | _ => simp [conjuncts]

end Formula

/-! ## Pools that keep conjunctions flat -/

/-- A pool that stores a conjunction as the set of its conjuncts, provided the subformulas are
stored this way. -/
structure FlatPool (A : Type u) extends FormulaPool A where
  flat_create : ∀ c fs, (∀ f ∈ fs, f.Flat) → (simplify (.app c fs)).Flat

section Flatten

theorem mem_conjuncts_isConjunction (f : Formula A) : ∀ g ∈ f.conjuncts,
    g.isConjunction = false := by
  induction f using Formula.induction with
  | hconst b => simp [Formula.conjuncts, Formula.isConjunction]
  | hatom a => simp [Formula.conjuncts, Formula.isConjunction]
  | happ c fs ih =>
    cases hc : c with
    | and =>
      simp only [Formula.conjuncts, Formula.conjunctsAll_eq_flatMap, mem_flatMap]
      rintro g ⟨f, hf, hg⟩
      exact ih f hf g hg
    | _ => simp [Formula.conjuncts, Formula.isConjunction]

theorem mentions_of_mem_conjuncts {a : A} {f g : Formula A} (hg : g ∈ f.conjuncts)
    (ha : g.Mentions a) : f.Mentions a := by
  induction f using Formula.induction with
  | hconst b =>
    rw [Formula.conjuncts, mem_singleton] at hg
    rwa [← hg]
    exact nofun
  | hatom b =>
    rw [Formula.conjuncts, mem_singleton] at hg
    rwa [← hg]
    exact nofun
  | happ c fs ih =>
    by_cases hc : c = .and
    · subst hc
      rw [Formula.conjuncts, Formula.conjunctsAll_eq_flatMap, mem_flatMap] at hg
      obtain ⟨f, hf, hg⟩ := hg
      exact (Formula.mentions_app a _ fs).mpr ⟨f, hf, ih f hf hg⟩
    · have heq : (Formula.app c fs).conjuncts = [.app c fs] :=
        Formula.conjuncts_of_not_isConjunction (by cases c <;> simp_all [Formula.isConjunction])
      rw [heq, mem_singleton] at hg
      rwa [← hg]

variable [DecidableEq A]

/-- Builds a conjunction as the set of all its conjuncts. -/
def flatten : Formula A → Formula A
  | .app .and fs => .app .and ((Formula.app .and fs).conjuncts).dedup
  | f => f

theorem eval_flatten (α : A → Bool) (f : Formula A) : (flatten f).eval α = f.eval α := by
  unfold flatten
  split
  · next fs =>
      rw [Bool.eq_iff_iff, Formula.eval_iff_conjuncts α (.app .and fs), Formula.eval_app,
        Connective.eval_and, all_map, all_eq_true]
      simp only [mem_dedup, comp_apply, id]
  · rfl

/-- The pool that only flattens conjunctions. -/
def FlatPool.flattening (A : Type u) [DecidableEq A] : FlatPool A where
  simplify := flatten
  eval_simplify := eval_flatten
  mentions_simplify := by
    intro a f h
    unfold flatten at h
    split at h
    · obtain ⟨g, hg, ha⟩ := (Formula.mentions_app a _ _).mp h
      exact mentions_of_mem_conjuncts (mem_dedup.mp hg) ha
    · exact h
  flat_create := by
    intro c fs _
    by_cases hc : c = .and
    · subst hc
      exact ⟨nodup_dedup _, fun g hg =>
        mem_conjuncts_isConjunction _ g (mem_dedup.mp hg)⟩
    · cases c <;> first | exact trivial | exact absurd rfl hc

end Flatten

/-! ## The formulas of a solver -/

namespace Assertions

variable [DecidableEq A]

/-- A formula that is there already is not added again. -/
def insertNew (asserted : List (Formula A)) (f : Formula A) : List (Formula A) :=
  if f ∈ asserted then asserted else asserted ++ [f]

def add (f : Formula A) (asserted : List (Formula A)) : List (Formula A) :=
  f.conjuncts.foldl insertNew asserted

/-- Removes formulas in order, each searched for from where the last one was. -/
def removeFrom : List (Formula A) → List (Formula A) → Option (List (Formula A))
  | [], rest => some rest
  | _ :: _, [] => none
  | f :: fs, g :: rest =>
    if f = g then removeFrom fs rest else (removeFrom (f :: fs) rest).map (g :: ·)

/-- Removes the conjuncts of a formula; there is no result if one of them is not found. -/
def remove (f : Formula A) (asserted : List (Formula A)) : Option (List (Formula A)) :=
  removeFrom f.directConjuncts asserted

/-- Withdraws a formula, if there is one to withdraw. -/
def withdraw (old : Option (Formula A)) (asserted : List (Formula A)) : Option (List (Formula A)) :=
  match old with
  | some f => remove f asserted
  | none => some asserted

/-- Withdraws a formula and asserts another one in its place. -/
def replace (old new : Option (Formula A)) (asserted : List (Formula A)) :
    Option (List (Formula A)) :=
  (withdraw old asserted).map fun rest =>
    match new with
    | some f => add f rest
    | none => rest

theorem mem_foldl_insertNew {g : Formula A} {fs asserted : List (Formula A)} :
    g ∈ fs.foldl insertNew asserted ↔ g ∈ asserted ∨ g ∈ fs := by
  induction fs generalizing asserted with
  | nil => simp
  | cons f fs ih =>
    rw [foldl_cons, ih, insertNew, mem_cons, ← or_assoc]
    refine or_congr_left ?_
    by_cases hf : f ∈ asserted
    · rw [if_pos hf]
      constructor
      · exact .inl
      · rintro (hg | rfl)
        · exact hg
        · exact hf
    · rw [if_neg hf, mem_append, mem_singleton]

theorem nodup_foldl_insertNew {fs asserted : List (Formula A)} (h : asserted.Nodup) :
    (fs.foldl insertNew asserted).Nodup := by
  induction fs generalizing asserted with
  | nil => exact h
  | cons f fs ih =>
    rw [foldl_cons, insertNew]
    apply ih
    by_cases hf : f ∈ asserted
    · rwa [if_pos hf]
    · rw [if_neg hf, nodup_append]
      exact ⟨h, nodup_singleton f, fun a ha b hb => by
        rw [mem_singleton.mp hb]
        exact fun hab => hf (hab ▸ ha)⟩

theorem sublist_foldl_insertNew (fs asserted : List (Formula A)) :
    List.Sublist asserted (fs.foldl insertNew asserted) := by
  induction fs generalizing asserted with
  | nil => exact List.Sublist.refl _
  | cons f fs ih =>
    rw [foldl_cons]
    refine List.Sublist.trans ?_ (ih (insertNew asserted f))
    rw [insertNew]
    by_cases hf : f ∈ asserted
    · rw [if_pos hf]
    · rw [if_neg hf]
      exact sublist_append_left _ _

theorem foldl_insertNew_eq_append {fs asserted : List (Formula A)} (hfs : fs.Nodup)
    (h : ∀ f ∈ fs, f ∉ asserted) : fs.foldl insertNew asserted = asserted ++ fs := by
  induction fs generalizing asserted with
  | nil => simp
  | cons f fs ih =>
    rw [foldl_cons, insertNew, if_neg (h f mem_cons_self), ih (nodup_cons.mp hfs).2 fun g hg => ?_]
    · simp
    · rw [mem_append, mem_singleton]
      rintro (hmem | rfl)
      · exact h g (mem_cons_of_mem f hg) hmem
      · exact (nodup_cons.mp hfs).1 hg

/-- Formulas that are there in this order are all found. -/
theorem removeFrom_of_sublist {fs l : List (Formula A)} (h : List.Sublist fs l) (hl : l.Nodup) :
    removeFrom fs l = some (l.filter (· ∉ fs)) := by
  induction l generalizing fs with
  | nil =>
    rw [sublist_nil.mp h]
    rfl
  | cons g l ih =>
    obtain ⟨hg, hnodup⟩ := nodup_cons.mp hl
    cases fs with
    | nil =>
      rw [removeFrom]
      simp
    | cons f fs =>
      rw [removeFrom]
      by_cases hfg : f = g
      · subst hfg
        have hsub : List.Sublist fs l := cons_sublist_cons.mp h
        have hfilt : (f :: l).filter (· ∉ f :: fs) = l.filter (· ∉ fs) := by
          rw [filter_cons_of_neg (by simp)]
          refine filter_congr fun a ha => ?_
          have hne : a ≠ f := fun haf => hg (haf ▸ ha)
          simp [hne]
        rw [if_pos rfl, ih hsub hnodup, hfilt]
      · have hsub : List.Sublist (f :: fs) l := by
          cases h with
          | cons _ h => exact h
          | cons_cons _ _ => exact absurd rfl hfg
        have hnot : g ∉ f :: fs := fun hmem => hg (hsub.subset hmem)
        rw [if_neg hfg, ih hsub hnodup, filter_cons_of_pos (by simpa using hnot)]
        rfl

/-! ## What a client has asserted -/

section Client

variable {ι : Type v}

/-- A formula asserted under a name has no conjunct in common with those under other names. -/
def Apart (active : ι → Option (Formula A)) (i : ι) (f : Formula A) : Prop :=
  ∀ j g, j ≠ i → active j = some g → List.Disjoint f.conjuncts g.conjuncts

/-- The solver has exactly the conjuncts of the formulas the client has asserted, and those of
a formula in order if they belong to no other one. -/
structure Inv (active : ι → Option (Formula A)) (asserted : List (Formula A)) : Prop where
  mem_iff : ∀ g, g ∈ asserted ↔ ∃ i f, active i = some f ∧ g ∈ f.conjuncts
  nodup : asserted.Nodup
  flat : ∀ i f, active i = some f → f.Flat
  sublist : ∀ i f, active i = some f → Apart active i f → List.Sublist f.conjuncts asserted

omit [DecidableEq A] in
theorem Inv.empty : Inv (fun _ : ι => (none : Option (Formula A))) [] where
  mem_iff := by simp
  nodup := nodup_nil
  flat := nofun
  sublist := nofun

variable [DecidableEq ι] {active : ι → Option (Formula A)} {asserted : List (Formula A)} {i : ι}
  {f : Formula A}

theorem Inv.add (h : Inv active asserted) (hi : active i = none) (hf : f.Flat) :
    Inv (update active i (some f)) (add f asserted) where
  mem_iff := by
    intro g
    rw [Assertions.add, mem_foldl_insertNew, h.mem_iff]
    constructor
    · rintro (⟨j, f', hj, hg⟩ | hg)
      · have hji : j ≠ i := fun hji => by simp [hji, hi] at hj
        exact ⟨j, f', by rw [update_of_ne hji, hj], hg⟩
      · exact ⟨i, f, update_self i _ _, hg⟩
    · rintro ⟨j, f', hj, hg⟩
      by_cases hji : j = i
      · rw [hji, update_self, Option.some.injEq] at hj
        exact .inr (hj ▸ hg)
      · rw [update_of_ne hji] at hj
        exact .inl ⟨j, f', hj, hg⟩
  nodup := nodup_foldl_insertNew h.nodup
  flat := by
    intro j f' hj
    by_cases hji : j = i
    · rw [hji, update_self, Option.some.injEq] at hj
      exact hj ▸ hf
    · rw [update_of_ne hji] at hj
      exact h.flat j f' hj
  sublist := by
    intro j f' hj hapart
    by_cases hji : j = i
    · rw [hji, update_self, Option.some.injEq] at hj
      subst hj hji
      -- none of the conjuncts was there before
      have hnew (g) (hg : g ∈ f.conjuncts) : g ∉ asserted := by
        intro hmem
        obtain ⟨k, f', hk, hgk⟩ := (h.mem_iff g).mp hmem
        have hkj : k ≠ j := fun hkj => by simp [hkj, hi] at hk
        exact hapart k f' hkj (by rw [update_of_ne hkj, hk]) hg hgk
      rw [Assertions.add, foldl_insertNew_eq_append hf.nodup hnew]
      exact sublist_append_right _ _
    · rw [update_of_ne hji] at hj
      refine (h.sublist j f' hj fun k g hkj hk => ?_).trans (sublist_foldl_insertNew _ _)
      have hki : k ≠ i := fun hki => by simp [hki, hi] at hk
      exact hapart k g hkj (by rw [update_of_ne hki, hk])

theorem Inv.remove (h : Inv active asserted) (hi : active i = some f) (hf : Apart active i f) :
    ∃ rest, remove f asserted = some rest ∧ Inv (update active i none) rest := by
  have hsub := h.sublist i f hi hf
  have heq : Assertions.remove f asserted = some (asserted.filter (· ∉ f.conjuncts)) := by
    rw [Assertions.remove, ← (h.flat i f hi).conjuncts_eq]
    exact removeFrom_of_sublist hsub h.nodup
  refine ⟨_, heq, ?_, h.nodup.filter _, ?_, ?_⟩
  · intro g
    rw [mem_filter, h.mem_iff, decide_eq_true_eq]
    constructor
    · rintro ⟨⟨j, f', hj, hg⟩, hgf⟩
      have hji : j ≠ i := fun hji => by
        rw [hji, hi, Option.some.injEq] at hj
        exact hgf (hj ▸ hg)
      exact ⟨j, f', by rw [update_of_ne hji, hj], hg⟩
    · rintro ⟨j, f', hj, hg⟩
      have hji : j ≠ i := fun hji => by simp [hji] at hj
      rw [update_of_ne hji] at hj
      exact ⟨⟨j, f', hj, hg⟩, fun hgf => hf j f' hji hj hgf hg⟩
  · intro j f' hj
    have hji : j ≠ i := fun hji => by simp [hji] at hj
    rw [update_of_ne hji] at hj
    exact h.flat j f' hj
  · intro j f' hj hapart
    have hji : j ≠ i := fun hji => by simp [hji] at hj
    rw [update_of_ne hji] at hj
    have hdisjoint : List.Disjoint f'.conjuncts f.conjuncts := List.Disjoint.symm (hf j f' hji hj)
    have hsub : List.Sublist f'.conjuncts asserted := by
      refine h.sublist j f' hj fun k g hkj hk => ?_
      by_cases hki : k = i
      · rw [hki, hi, Option.some.injEq] at hk
        exact hk ▸ hdisjoint
      · exact hapart k g hkj (by rw [update_of_ne hki, hk])
    have hkeep : f'.conjuncts.filter (· ∉ f.conjuncts) = f'.conjuncts :=
      filter_eq_self.mpr fun g hg => by simpa using fun hgf => hdisjoint hg hgf
    rw [← hkeep]
    exact hsub.filter _

theorem Inv.replace (h : Inv active asserted) (old new : Option (Formula A))
    (hi : active i = old) (hold : ∀ f, old = some f → Apart active i f)
    (hnew : ∀ f, new = some f → f.Flat) :
    ∃ rest, replace old new asserted = some rest ∧ Inv (update active i new) rest := by
  obtain ⟨rest, hrest, hinv⟩ : ∃ rest, withdraw old asserted = some rest ∧
      Inv (update active i none) rest := by
    cases old with
    | none =>
      refine ⟨asserted, rfl, ?_⟩
      rwa [← hi, update_eq_self]
    | some f => exact h.remove hi (hold f rfl)
  cases new with
  | none => exact ⟨rest, by rw [Assertions.replace, hrest]; rfl, hinv⟩
  | some f =>
    refine ⟨Assertions.add f rest, by rw [Assertions.replace, hrest]; rfl, ?_⟩
    have hadd := hinv.add (update_self i none active) (hnew f rfl)
    rwa [update_idem] at hadd

end Client

end Assertions

end PropFormula
