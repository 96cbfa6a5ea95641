import Smtrat.Logic.Formula

/-!
# Unsatisfiable cores by model exclusion

Every formula gets a selector variable that is true exactly when the formula is.  A solver
enumerates models, each of which makes some formula false; a model is recorded in the bit sets of
the formulas it falsifies and excluded by a clause over the selectors it makes true.  When no
model is left, the core is a choice of formulas whose bit sets cover all recorded models.

The clause excludes, with a model, all models that make more formulas true.  Those are not
recorded, so a cover of the recorded models need not falsify them.
-/

namespace Smtrat

open PropFormula List

universe u v

/-- `mSolver`'s model: what the theory needs, and values of the selector variables. -/
abbrev SelectorModel (σ : Type u) := σ × (ℕ → Bool)

/-- The result of a check. -/
inductive CheckResult (σ : Type u) where
  | sat (model : SelectorModel σ)
  | unsat
  | unknown

/-- `UnsatCore` with the strategy `ModelExclusion`.  The solver is the list of the formulas it was
given; their atoms are those of the input and the selector variables. -/
structure UnsatCore (A : Type v) where
  mSolver : List (Formula (A ⊕ ℕ))
  /-- Selector variable, formula and id. -/
  mFormulas : List (ℕ × Formula A × ℕ)
  /-- The recorded assignments that falsify a formula, by its id. -/
  mSets : List (Finset ℕ)
  mAssignments : ℕ

namespace UnsatCore

variable {σ : Type u} {A : Type v}

/-! ## The algorithm -/

/-- The definition of a selector variable. -/
def selector (p : Formula A × ℕ) : Formula (A ⊕ ℕ) :=
  .app .iff [.atom (.inr p.2), p.1.map .inl]

/-- The constructor.  The ids count the formulas, and each gets a variable that is new. -/
def create (formulas : List (Formula A)) : UnsatCore A where
  mSolver := formulas.zipIdx.map selector ++
    [.app .or (formulas.map fun f => .app .not [f.map .inl])]
  mFormulas := formulas.zipIdx.map fun p => (p.2, p)
  mSets := formulas.map fun _ => ∅
  mAssignments := 0

/-- `processAssignment`, with the values of the selector variables in the solver's model. -/
def processAssignment (core : UnsatCore A) (val : ℕ → Bool) : UnsatCore A where
  mSolver := core.mSolver ++ [.app .or ((core.mFormulas.filter fun f => val f.1).map fun f =>
    .app .not [.atom (.inr f.1)])]
  mFormulas := core.mFormulas
  mSets := core.mFormulas.foldl (fun sets f =>
    if val f.1 then sets else sets.modify f.2.2 (insert core.mAssignments)) core.mSets
  mAssignments := core.mAssignments + 1

/-- `compute`, if it ends within `n` checks. -/
def compute (check : List (Formula (A ⊕ ℕ)) → CheckResult σ) : ℕ → UnsatCore A → Option (UnsatCore A)
  | 0, _ => none
  | n + 1, core =>
    match check core.mSolver with
    | .sat model => compute check n (core.processAssignment model.2)
    | .unsat => some core
    | .unknown => some core

/-- `computeCore`, with `Covering::buildConflictingCore` as a parameter. -/
def computeCore (check : List (Formula (A ⊕ ℕ)) → CheckResult σ)
    (covering : ℕ → List (ℕ × Finset ℕ) → List ℕ) (n : ℕ) (formulas : List (Formula A)) :
    Option (List (Formula A)) :=
  (compute check n (create formulas)).map fun core =>
    (covering core.mSets.length (core.mFormulas.map fun f => (f.1, core.mSets.getD f.2.2 ∅))).filterMap
      fun v => (core.mFormulas.find? fun f => f.1 = v).map fun f => f.2.1

/-! ## What is assumed of the solver and of the covering -/

section Assumptions

variable (interp : σ → A → Bool)

/-- The model satisfies the formulas. -/
def Models (m : SelectorModel σ) (fs : List (Formula (A ⊕ ℕ))) : Prop :=
  ∀ f ∈ fs, f.eval (Sum.elim (interp m.1) m.2) = true

/-- The solver decides what it was given, with any model it likes. -/
structure SolverCorrect (check : List (Formula (A ⊕ ℕ)) → CheckResult σ) : Prop where
  sat : ∀ fs m, check fs = .sat m → Models interp m fs
  unsat : ∀ fs, check fs = .unsat → ∀ m, ¬ Models interp m fs
  decides : ∀ fs, check fs ≠ .unknown

/-- A conflicting core consists of given variables, and their bit sets cover whatever all of
them cover together. -/
structure CoveringCorrect (covering : ℕ → List (ℕ × Finset ℕ) → List ℕ) : Prop where
  subset : ∀ n sets, ∀ v ∈ covering n sets, v ∈ sets.map Prod.fst
  covers : ∀ n sets k, (∃ p ∈ sets, k ∈ p.2) → ∃ v ∈ covering n sets, ∃ p ∈ sets, p.1 = v ∧ k ∈ p.2

/-- For every solver and covering, the computation ends with an unsatisfiable part of the
formulas. -/
def ComputesCore (formulas : List (Formula A)) : Prop :=
  ∀ check, SolverCorrect interp check → ∀ covering, CoveringCorrect covering →
    ∃ n core, computeCore check covering n formulas = some core ∧ (∀ f ∈ core, f ∈ formulas) ∧
      ∀ s, ∃ f ∈ core, f.eval (interp s) = false

/-- No interpretation makes more of the formulas true than another one. -/
def Incomparable (formulas : List (Formula A)) : Prop :=
  ∀ s s', (∀ f ∈ formulas, f.eval (interp s) = true → f.eval (interp s') = true) →
    ∀ f ∈ formulas, f.eval (interp s') = true → f.eval (interp s) = true

end Assumptions

/-! ## The state after recorded assignments -/

/-- The state after assignments with the given values were processed. -/
def after (formulas : List (Formula A)) (vals : List (ℕ → Bool)) : UnsatCore A :=
  vals.foldl processAssignment (create formulas)

theorem after_append (formulas : List (Formula A)) (vals : List (ℕ → Bool)) (val : ℕ → Bool) :
    after formulas (vals ++ [val]) = (after formulas vals).processAssignment val := by
  rw [after, foldl_append]
  rfl

/-- The clause by which an assignment is excluded. -/
def exclusion (formulas : List (Formula A)) (val : ℕ → Bool) : Formula (A ⊕ ℕ) :=
  .app .or (((create formulas).mFormulas.filter fun f => val f.1).map fun f =>
    .app .not [.atom (.inr f.1)])

variable {formulas : List (Formula A)} {vals : List (ℕ → Bool)} {val : ℕ → Bool}

theorem after_mFormulas : (after formulas vals).mFormulas = (create formulas).mFormulas := by
  induction vals using List.reverseRecOn with
  | nil => rfl
  | append_singleton vals val ih => rw [after_append, processAssignment, ih]

theorem after_mAssignments : (after formulas vals).mAssignments = vals.length := by
  induction vals using List.reverseRecOn with
  | nil => rfl
  | append_singleton vals val ih => rw [after_append, processAssignment, ih, length_append]; rfl

theorem after_mSolver : (after formulas vals).mSolver =
    (create formulas).mSolver ++ vals.map (exclusion formulas) := by
  induction vals using List.reverseRecOn with
  | nil => exact (append_nil _).symm
  | append_singleton vals val ih =>
    rw [after_append, processAssignment, ih, after_mFormulas, map_append, append_assoc]
    rfl

theorem mem_mFormulas {f : ℕ × Formula A × ℕ} :
    f ∈ (create formulas).mFormulas ↔ formulas[f.1]? = some f.2.1 ∧ f.2.2 = f.1 := by
  obtain ⟨v, f, i⟩ := f
  show (v, f, i) ∈ formulas.zipIdx.map _ ↔ _
  rw [mem_map]
  constructor
  · rintro ⟨⟨g, j⟩, hmem, heq⟩
    cases heq
    exact ⟨mem_zipIdx_iff_getElem?.mp hmem, rfl⟩
  · rintro ⟨hget, hid⟩
    refine ⟨(f, v), mem_zipIdx_iff_getElem?.mpr hget, ?_⟩
    rw [show i = v from hid]

/-- The loop over the formulas records the assignment `k` where they are false. -/
theorem foldl_sets_spec (val : ℕ → Bool) (fs : List (ℕ × Formula A × ℕ)) (k i : ℕ) {sets : List (Finset ℕ)}
    {s : Finset ℕ} (hs : sets[i]? = some s) :
    ∃ s', (fs.foldl (fun sets f =>
        if val f.1 then sets else sets.modify f.2.2 (insert k)) sets)[i]? = some s' ∧
      ∀ j, j ∈ s' ↔ j ∈ s ∨ j = k ∧ ∃ f ∈ fs, f.2.2 = i ∧ val f.1 = false := by
  induction fs generalizing sets s with
  | nil => exact ⟨s, hs, fun j => by simp⟩
  | cons f fs ih =>
    rw [foldl_cons]
    cases hval : val f.1 with
    | true =>
      rw [if_pos rfl]
      obtain ⟨s', hs', hmem⟩ := ih hs
      exact ⟨s', hs', fun j => by simp [hmem, hval]⟩
    | false =>
      rw [if_neg Bool.false_ne_true]
      by_cases hi : f.2.2 = i
      · have hins : (sets.modify f.2.2 (insert k))[i]? = some (insert k s) := by
          rw [hi, getElem?_modify_eq, hs]
          rfl
        obtain ⟨s', hs', hmem⟩ := ih hins
        refine ⟨s', hs', fun j => ?_⟩
        rw [hmem, Finset.mem_insert]
        constructor
        · rintro ((rfl | hj) | ⟨rfl, g, hg, hval'⟩)
          · exact .inr ⟨rfl, f, mem_cons_self, hi, hval⟩
          · exact .inl hj
          · exact .inr ⟨rfl, g, mem_cons_of_mem f hg, hval'⟩
        · rintro (hj | ⟨rfl, -⟩)
          · exact .inl (.inr hj)
          · exact .inl (.inl rfl)
      · have hother : (sets.modify f.2.2 (insert k))[i]? = some s := by
          rw [getElem?_modify_ne _ _ hi, hs]
        obtain ⟨s', hs', hmem⟩ := ih hother
        exact ⟨s', hs', fun j => by simp [hmem, hi]⟩

variable {i : ℕ}

/-- The recorded assignments of a formula are those that make it false. -/
theorem after_mSets (vals : List (ℕ → Bool)) (hi : i < formulas.length) :
    ∃ s, (after formulas vals).mSets[i]? = some s ∧
      ∀ k, k ∈ s ↔ ∃ val, vals[k]? = some val ∧ val i = false := by
  induction vals using List.reverseRecOn with
  | nil =>
    refine ⟨∅, ?_, by simp⟩
    show (formulas.map _)[i]? = _
    rw [getElem?_map, getElem?_eq_getElem hi]
    rfl
  | append_singleton vals val ih =>
    obtain ⟨s, hs, hmem⟩ := ih
    obtain ⟨s', hs', hmem'⟩ := foldl_sets_spec val (create formulas).mFormulas vals.length i hs
    have hform : (∃ f ∈ (create formulas).mFormulas, f.2.2 = i ∧ val f.1 = false) ↔
        val i = false := by
      constructor
      · rintro ⟨f, hf, rfl, hval⟩
        rwa [(mem_mFormulas.mp hf).2]
      · intro hval
        exact ⟨(i, formulas[i], i), mem_mFormulas.mpr ⟨getElem?_eq_getElem hi, rfl⟩, rfl, hval⟩
    refine ⟨s', ?_, fun k => ?_⟩
    · rw [after_append, processAssignment, after_mFormulas, after_mAssignments]
      exact hs'
    · rw [hmem', hmem, hform]
      rcases lt_trichotomy k vals.length with hk | rfl | hk
      · rw [getElem?_append_left hk]
        simp [hk.ne]
      · simp
      · rw [getElem?_eq_none hk.le, getElem?_eq_none (by rw [length_append]; exact hk)]
        simp [hk.ne']

/-! ## Recorded assignments -/

section Semantics

variable (interp : σ → A → Bool)

/-- The truth of the formulas, by their ids. -/
def truth (formulas : List (Formula A)) (s : σ) (i : ℕ) : Bool :=
  match formulas[i]? with
  | some f => f.eval (interp s)
  | none => false

/-- The assignments that are recorded one after the other: each comes from an interpretation, and
makes false some formula that an earlier one makes true. -/
structure Recorded (formulas : List (Formula A)) (vals : List (ℕ → Bool)) : Prop where
  realized : ∀ val ∈ vals, ∃ s, ∀ i < formulas.length, val i = truth interp formulas s i
  excluded : vals.Pairwise fun val val' => ∃ i < formulas.length, val i = true ∧ val' i = false

variable {interp}

theorem truth_eq {f : Formula A} {s : σ} (h : formulas[i]? = some f) :
    truth interp formulas s i = f.eval (interp s) := by
  rw [truth, h]

variable {m : SelectorModel σ}

/-- What the solver was given at the start: the selectors are the truth of the formulas, and not
all of them are true. -/
theorem models_create : Models interp m (create formulas).mSolver ↔
    (∀ i < formulas.length, m.2 i = truth interp formulas m.1 i) ∧
      ∃ f ∈ formulas, f.eval (interp m.1) = false := by
  have hselector : ∀ p : Formula A × ℕ, (selector p).eval (Sum.elim (interp m.1) m.2) = true ↔
      m.2 p.2 = p.1.eval (interp m.1) := by
    intro p
    simp [selector]
  rw [Models, create]
  simp only [mem_append, mem_map, mem_singleton]
  constructor
  · intro h
    refine ⟨fun i hi => ?_, ?_⟩
    · have hmem : (formulas[i], i) ∈ formulas.zipIdx :=
        mem_zipIdx_iff_getElem?.mpr (getElem?_eq_getElem hi)
      rw [truth_eq (getElem?_eq_getElem hi)]
      exact (hselector _).mp (h _ (.inl ⟨_, hmem, rfl⟩))
    · have hor := h _ (.inr rfl)
      simpa using hor
  · rintro ⟨hselectors, hfalse⟩ f (⟨p, hp, rfl⟩ | rfl)
    · have hget := mem_zipIdx_iff_getElem?.mp hp
      rw [hselector, hselectors p.2 (List.getElem?_eq_some_iff.mp hget).1, truth_eq hget]
    · simpa using hfalse

/-- The exclusion of an assignment asks for a selector to become false. -/
theorem exclusion_eval :
    (exclusion formulas val).eval (Sum.elim (interp m.1) m.2) = true ↔
      ∃ i < formulas.length, val i = true ∧ m.2 i = false := by
  simp only [exclusion, Formula.eval_app, Connective.eval_or, any_eq_true, mem_map,
    mem_filter, id_eq]
  constructor
  · rintro ⟨_, ⟨_, ⟨f, ⟨hf, hval⟩, rfl⟩, rfl⟩, heval⟩
    refine ⟨f.1, (List.getElem?_eq_some_iff.mp (mem_mFormulas.mp hf).1).1, hval, ?_⟩
    simpa using heval
  · rintro ⟨i, hi, hval, hfalse⟩
    refine ⟨_, ⟨_, ⟨(i, formulas[i], i), ⟨?_, hval⟩, rfl⟩, rfl⟩, ?_⟩
    · exact mem_mFormulas.mpr ⟨getElem?_eq_getElem hi, rfl⟩
    · simpa using hfalse

theorem models_after : Models interp m (after formulas vals).mSolver ↔
    Models interp m (create formulas).mSolver ∧
      ∀ val ∈ vals, ∃ i < formulas.length, val i = true ∧ m.2 i = false := by
  rw [after_mSolver, Models, forall_mem_append, forall_mem_map]
  simp only [exclusion_eval, Models]

/-- A model of the solver is recorded. -/
theorem Recorded.append (h : Recorded interp formulas vals)
    (hm : Models interp m (after formulas vals).mSolver) :
    Recorded interp formulas (vals ++ [m.2]) := by
  obtain ⟨hcrea, hexcl⟩ := models_after.mp hm
  refine ⟨?_, ?_⟩
  · intro val hval
    rcases mem_append.mp hval with hval | hval
    · exact h.realized val hval
    · rw [mem_singleton.mp hval]
      exact ⟨m.1, (models_create.mp hcrea).1⟩
  · rw [pairwise_append]
    refine ⟨h.excluded, pairwise_singleton _ _, fun val hval val' hval' => ?_⟩
    rw [mem_singleton.mp hval']
    exact hexcl val hval

/-- There are at most as many recorded assignments as sets of formulas. -/
theorem Recorded.length_le (h : Recorded interp formulas vals) :
    vals.length ≤ Fintype.card (Fin formulas.length → Bool) := by
  rw [← length_map (f := fun val (i : Fin formulas.length) => val i)]
  apply List.Nodup.length_le_card
  rw [List.Nodup, pairwise_map]
  refine h.excluded.imp ?_
  rintro val val' ⟨i, hi, htrue, hfalse⟩ heq
  have hi' := congrFun heq ⟨i, hi⟩
  rw [htrue, hfalse] at hi'
  cases hi'

variable {check : List (Formula (A ⊕ ℕ)) → CheckResult σ}

/-- More checks than needed do not change the result. -/
theorem compute_unique {n n' : ℕ} {core a b : UnsatCore A} (ha : compute check n core = some a)
    (hb : compute check n' core = some b) : a = b := by
  induction n generalizing core n' with
  | zero => cases ha
  | succ n ih =>
    cases n' with
    | zero => cases hb
    | succ n' =>
      rw [compute] at ha hb
      split at ha
      · next model hres =>
        rw [hres] at hb
        exact ih ha hb
      · next hres =>
        rw [hres] at hb
        cases ha
        cases hb
        rfl
      · next hres =>
        rw [hres] at hb
        cases ha
        cases hb
        rfl

/-- The loop ends, and then no model is left. -/
theorem compute_spec (hchk : SolverCorrect interp check) (n : ℕ)
    (hvals : Recorded interp formulas vals)
    (hn : Fintype.card (Fin formulas.length → Bool) < vals.length + n) :
    ∃ vals', Recorded interp formulas (vals ++ vals') ∧
      compute check n (after formulas vals) = some (after formulas (vals ++ vals')) ∧
      ∀ m, ¬ Models interp m (after formulas (vals ++ vals')).mSolver := by
  induction n generalizing vals with
  | zero => exact absurd hvals.length_le (Nat.not_le.mpr hn)
  | succ n ih =>
    rw [compute]
    cases hres : check (after formulas vals).mSolver with
    | sat m =>
      have happend := hvals.append (hchk.sat _ _ hres)
      obtain ⟨vals', hrecd, hcomp, hnone⟩ := ih happend (by
        rw [length_append, length_singleton]
        omega)
      refine ⟨m.2 :: vals', ?_, ?_, ?_⟩
      · rwa [append_assoc] at hrecd
      · show compute check n ((after formulas vals).processAssignment m.2) = _
        rw [← after_append, hcomp, append_assoc]
        rfl
      · simpa using hnone
    | unsat =>
      refine ⟨[], ?_, ?_, ?_⟩
      · rwa [append_nil]
      · rw [append_nil]
      · rw [append_nil]
        exact hchk.unsat _ hres
    | unknown => exact absurd hres (hchk.decides _)

/-! ## The core -/

/-- The bit sets that are handed to the covering. -/
def coverSets (formulas : List (Formula A)) (vals : List (ℕ → Bool)) : List (ℕ × Finset ℕ) :=
  (after formulas vals).mFormulas.map fun f => (f.1, (after formulas vals).mSets.getD f.2.2 ∅)

theorem mem_coverSets {p : ℕ × Finset ℕ} (hp : p ∈ coverSets formulas vals) :
    p.1 < formulas.length ∧ ∀ k, k ∈ p.2 ↔ ∃ val, vals[k]? = some val ∧ val p.1 = false := by
  obtain ⟨f, hf, rfl⟩ := mem_map.mp hp
  rw [after_mFormulas] at hf
  obtain ⟨hget, hid⟩ := mem_mFormulas.mp hf
  have hlt := (List.getElem?_eq_some_iff.mp hget).1
  obtain ⟨s, hs, hmem⟩ := after_mSets vals hlt
  refine ⟨hlt, fun k => ?_⟩
  show k ∈ (after formulas vals).mSets.getD f.2.2 ∅ ↔ _
  rw [hid, getD_eq_getElem?_getD, hs, Option.getD_some, hmem]

theorem exists_mem_coverSets (vals : List (ℕ → Bool)) (hi : i < formulas.length) :
    ∃ p ∈ coverSets formulas vals, p.1 = i := by
  refine ⟨_, mem_map_of_mem (a := (i, formulas[i], i)) ?_, rfl⟩
  rw [after_mFormulas]
  exact mem_mFormulas.mpr ⟨getElem?_eq_getElem hi, rfl⟩

/-- The formulas of the variables that the covering returns. -/
def coreOf (formulas : List (Formula A)) (vars : List ℕ) : List (Formula A) :=
  vars.filterMap fun v => ((create formulas).mFormulas.find? fun f => f.1 = v).map fun f => f.2.1

theorem find_mFormulas (hi : i < formulas.length) :
    ((create formulas).mFormulas.find? fun f => f.1 = i).map (fun f => f.2.1) =
      some formulas[i] := by
  have hmem : (i, formulas[i], i) ∈ (create formulas).mFormulas :=
    mem_mFormulas.mpr ⟨getElem?_eq_getElem hi, rfl⟩
  cases hfind : (create formulas).mFormulas.find? fun f => f.1 = i with
  | none =>
    have hnone := find?_eq_none.mp hfind _ hmem
    simp at hnone
  | some f =>
    have hf := mem_of_find?_eq_some hfind
    have hkey : f.1 = i := by simpa using find?_some hfind
    rw [Option.map_some, ← getElem?_eq_getElem hi, ← hkey, (mem_mFormulas.mp hf).1]

theorem mem_coreOf {vars : List ℕ} (hvars : ∀ v ∈ vars, v < formulas.length) {f : Formula A} :
    f ∈ coreOf formulas vars ↔ ∃ v ∈ vars, formulas[v]? = some f := by
  rw [coreOf, mem_filterMap]
  constructor
  · rintro ⟨v, hv, hf⟩
    rw [find_mFormulas (hvars v hv)] at hf
    exact ⟨v, hv, by rw [getElem?_eq_getElem (hvars v hv), hf]⟩
  · rintro ⟨v, hv, hf⟩
    refine ⟨v, hv, ?_⟩
    rw [find_mFormulas (hvars v hv), ← hf, getElem?_eq_getElem (hvars v hv)]

theorem computeCore_eq (covering : ℕ → List (ℕ × Finset ℕ) → List ℕ) {n : ℕ}
    (h : compute check n (create formulas) = some (after formulas vals)) :
    computeCore check covering n formulas =
      some (coreOf formulas (covering (after formulas vals).mSets.length (coverSets formulas vals))) := by
  rw [computeCore, h, Option.map_some, coreOf, coverSets, after_mFormulas]

/-- The core is a part of the formulas. -/
theorem coreOf_subset {covering : ℕ → List (ℕ × Finset ℕ) → List ℕ}
    (hcov : CoveringCorrect covering) (k : ℕ) :
    (∀ v ∈ covering k (coverSets formulas vals), v < formulas.length) ∧
      ∀ f ∈ coreOf formulas (covering k (coverSets formulas vals)), f ∈ formulas := by
  have hvars : ∀ v ∈ covering k (coverSets formulas vals), v < formulas.length := by
    intro v hv
    obtain ⟨p, hp, rfl⟩ := mem_map.mp (hcov.subset _ _ v hv)
    exact (mem_coverSets hp).1
  refine ⟨hvars, fun f hf => ?_⟩
  obtain ⟨v, -, hget⟩ := (mem_coreOf hvars).mp hf
  exact mem_of_getElem? hget

/-- Every recorded assignment falsifies the core. -/
theorem coreOf_falsified {covering : ℕ → List (ℕ × Finset ℕ) → List ℕ}
    (hcovering : CoveringCorrect covering) (n : ℕ) {k : ℕ} (hk : vals[k]? = some val)
    (hfalse : ∃ i < formulas.length, val i = false) :
    ∃ i, ∃ f ∈ coreOf formulas (covering n (coverSets formulas vals)),
      formulas[i]? = some f ∧ val i = false := by
  obtain ⟨i, hi, hval⟩ := hfalse
  obtain ⟨p, hp, hpi⟩ := exists_mem_coverSets vals hi
  have hcov : ∃ p ∈ coverSets formulas vals, k ∈ p.2 :=
    ⟨p, hp, ((mem_coverSets hp).2 k).mpr ⟨val, hk, hpi ▸ hval⟩⟩
  obtain ⟨v, hv, q, hq, rfl, hkq⟩ := hcovering.covers n _ k hcov
  obtain ⟨val', hk', hval'⟩ := ((mem_coverSets hq).2 k).mp hkq
  rw [hk] at hk'
  cases hk'
  have hlt := (mem_coverSets hq).1
  have hget := getElem?_eq_getElem hlt
  exact ⟨q.1, formulas[q.1], (mem_coreOf (coreOf_subset hcovering n).1).mpr ⟨q.1, hv, hget⟩, hget,
    hval'⟩

variable (hunsat : ∀ s, ∃ f ∈ formulas, f.eval (interp s) = false)

include hunsat

/-- Without comparable interpretations all of them are recorded. -/
theorem computesCore_of_incomparable (h : Incomparable interp formulas) :
    ComputesCore interp formulas := by
  intro check hchk covering hcov
  have hstart : Recorded interp formulas [] := ⟨nofun, List.Pairwise.nil⟩
  obtain ⟨vals, hrecd, hcomp, hnone⟩ := compute_spec hchk
    (Fintype.card (Fin formulas.length → Bool) + 1) hstart (by simp)
  rw [nil_append] at hrecd hcomp hnone
  refine ⟨_, _, computeCore_eq covering hcomp, (coreOf_subset hcov _).2, fun s => ?_⟩
  -- the interpretation is excluded by a recorded one, which makes the same formulas true
  have hexcl : ∃ val ∈ vals, ∀ i < formulas.length, val i = true →
      truth interp formulas s i = true := by
    by_contra hnot
    push Not at hnot
    refine hnone (s, truth interp formulas s) (models_after.mpr ⟨?_, fun val hval => ?_⟩)
    · exact models_create.mpr ⟨fun i _ => rfl, hunsat s⟩
    · obtain ⟨i, hi, htrue, hfalse⟩ := hnot val hval
      exact ⟨i, hi, htrue, by simpa using hfalse⟩
  obtain ⟨val, hval, hsub⟩ := hexcl
  obtain ⟨s', hs'⟩ := hrecd.realized val hval
  have hmore : ∀ f ∈ formulas, f.eval (interp s') = true → f.eval (interp s) = true := by
    intro f hf htrue
    obtain ⟨i, hi, rfl⟩ := getElem_of_mem hf
    have hget := getElem?_eq_getElem hi
    rw [← truth_eq hget]
    exact hsub i hi (by rw [hs' i hi, truth_eq hget, htrue])
  obtain ⟨k, hk⟩ := getElem?_of_mem hval
  have hfalse : ∃ i < formulas.length, val i = false := by
    obtain ⟨f, hf, hfalse⟩ := hunsat s'
    obtain ⟨i, hi, rfl⟩ := getElem_of_mem hf
    exact ⟨i, hi, by rw [hs' i hi, truth_eq (getElem?_eq_getElem hi), hfalse]⟩
  obtain ⟨i, f, hf, hget, hval'⟩ := coreOf_falsified hcov _ hk hfalse
  refine ⟨f, hf, ?_⟩
  by_contra htrue
  rw [Bool.not_eq_false] at htrue
  have hmem := mem_of_getElem? hget
  have hi := (List.getElem?_eq_some_iff.mp hget).1
  rw [hs' i hi, truth_eq hget, h s' s hmore f hmem htrue] at hval'
  cases hval'

open Classical in
/-- When one interpretation makes more formulas true than another one, a solver may return the
latter first, and a covering the formulas that the former makes true. -/
theorem not_computesCore_of_comparable (s₀ s : σ)
    (hsub : ∀ f ∈ formulas, f.eval (interp s₀) = true → f.eval (interp s) = true)
    (hmore : ∃ f ∈ formulas, f.eval (interp s) = true ∧ f.eval (interp s₀) = false) :
    ¬ ComputesCore interp formulas := by
  intro hcore
  obtain ⟨check, hcheckdef⟩ : ∃ check : List (Formula (A ⊕ ℕ)) → CheckResult σ, check = fun fs =>
      if Models interp (s₀, truth interp formulas s₀) fs then
        .sat (s₀, truth interp formulas s₀)
      else if h : ∃ m, Models interp m fs then .sat h.choose else .unsat := ⟨_, rfl⟩
  have hchk : SolverCorrect interp check := by
    subst hcheckdef
    constructor
    case sat =>
      intro fs m hres
      split_ifs at hres with h₀ h
      · cases hres
        exact h₀
      · cases hres
        exact h.choose_spec
    case unsat =>
      intro fs hres m hm
      split_ifs at hres with h₀ h
      exact h ⟨m, hm⟩
    case decides =>
      intro fs
      split_ifs <;> nofun
  have hstart : Recorded interp formulas [] := ⟨nofun, List.Pairwise.nil⟩
  have hfst : Models interp (s₀, truth interp formulas s₀) (after formulas []).mSolver :=
    models_create.mpr ⟨fun i _ => rfl, hunsat s₀⟩
  -- the loop records `s₀` first
  have hrun : ∀ n, compute check (n + 1) (create formulas) =
      compute check n (after formulas [truth interp formulas s₀]) := by
    intro n
    have hres : check (create formulas).mSolver = .sat (s₀, truth interp formulas s₀) := by
      rw [hcheckdef]
      exact if_pos hfst
    rw [compute, hres]
    rfl
  have hrecorded₀ : Recorded interp formulas [truth interp formulas s₀] := hstart.append hfst
  obtain ⟨vals, hrecd, hcompute, -⟩ := compute_spec hchk
    (Fintype.card (Fin formulas.length → Bool)) hrecorded₀ (by
      rw [length_singleton]
      omega)
  have hend := (hrun _).trans hcompute
  -- every recorded assignment makes a formula false that `s` makes true
  have hcov : ∀ val ∈ [truth interp formulas s₀] ++ vals,
      ∃ i < formulas.length, truth interp formulas s i = true ∧ val i = false := by
    intro val hval
    rcases mem_append.mp hval with hval | hval
    · obtain ⟨f, hf, htrue, hfalse⟩ := hmore
      obtain ⟨i, hi, rfl⟩ := getElem_of_mem hf
      have hget := getElem?_eq_getElem hi
      rw [mem_singleton.mp hval]
      exact ⟨i, hi, by rw [truth_eq hget, htrue], by rw [truth_eq hget, hfalse]⟩
    · obtain ⟨i, hi, htrue, hfalse⟩ := (pairwise_append.mp hrecd.excluded).2.2 _
        (mem_singleton_self _) val hval
      have hget := getElem?_eq_getElem hi
      refine ⟨i, hi, ?_, hfalse⟩
      rw [truth_eq hget] at htrue ⊢
      exact hsub _ (getElem_mem hi) htrue
  obtain ⟨covering, hcoveringdef⟩ : ∃ covering : ℕ → List (ℕ × Finset ℕ) → List ℕ,
      covering = fun _ sets =>
        if ∀ p ∈ sets, ∀ k ∈ p.2, ∃ q ∈ sets, truth interp formulas s q.1 = true ∧ k ∈ q.2 then
          (sets.map Prod.fst).filter (truth interp formulas s)
        else sets.map Prod.fst := ⟨_, rfl⟩
  have hcovering : CoveringCorrect covering := by
    subst hcoveringdef
    constructor
    case subset =>
      intro n sets v hv
      split_ifs at hv
      · exact (mem_filter.mp hv).1
      · exact hv
    case covers =>
      rintro n sets k ⟨p, hp, hk⟩
      split_ifs with hall
      · obtain ⟨q, hq, htrue, hkq⟩ := hall p hp k hk
        exact ⟨q.1, mem_filter.mpr ⟨mem_map_of_mem hq, htrue⟩, q, hq, rfl, hkq⟩
      · exact ⟨p.1, mem_map_of_mem hp, p, hp, rfl, hk⟩
  obtain ⟨n, core, hcomp, -, hfalse⟩ := hcore check hchk covering hcovering
  rw [computeCore, Option.map_eq_some_iff] at hcomp
  obtain ⟨last, hlast, hcore_eq⟩ := hcomp
  have hlast_eq := compute_unique hlast hend
  have hcoreOf := computeCore_eq covering hend
  rw [computeCore, hend, Option.map_some, Option.some_inj] at hcoreOf
  rw [hlast_eq, hcoreOf] at hcore_eq
  subst hcore_eq
  obtain ⟨f, hf, hfalse⟩ := hfalse s
  obtain ⟨v, hv, hget⟩ := (mem_coreOf (coreOf_subset hcovering _).1).mp hf
  rw [hcoveringdef] at hv
  simp only at hv
  rw [if_pos] at hv
  · have htrue := (mem_filter.mp hv).2
    rw [truth_eq hget, hfalse] at htrue
    cases htrue
  · intro p hp k hk
    obtain ⟨val, hval, -⟩ := ((mem_coverSets hp).2 k).mp hk
    obtain ⟨i, hi, htrue, hval'⟩ := hcov val (mem_of_getElem? hval)
    obtain ⟨q, hq, rfl⟩ := exists_mem_coverSets ([truth interp formulas s₀] ++ vals) hi
    exact ⟨q, hq, htrue, ((mem_coverSets hq).2 k).mpr ⟨val, hval, hval'⟩⟩

/-- The computation finds an unsatisfiable core of unsatisfiable formulas, for all models the
solver may return, exactly if no interpretation makes more of the formulas true than another. -/
theorem computesCore_iff : ComputesCore interp formulas ↔ Incomparable interp formulas := by
  constructor
  · intro hcore s s' hsub f hf htrue
    by_contra hfalse
    rw [Bool.not_eq_true] at hfalse
    exact not_computesCore_of_comparable hunsat _ _ hsub ⟨f, hf, htrue, hfalse⟩ hcore
  · exact computesCore_of_incomparable hunsat

end Semantics

/-! ### Two inputs -/

/-- Interpretations of two propositional variables. -/
def propositional : Bool × Bool → Bool → Bool := fun s a => bif a then s.1 else s.2

/-- The formulas `a` and `¬ a`: each interpretation makes one of them true. -/
theorem computesCore_iff_complementary :
    ComputesCore propositional [.atom true, .app .not [.atom true]] := by
  refine (computesCore_iff ?_).mpr ?_
  · rintro ⟨a, b⟩
    cases a <;> simp [propositional]
  · rintro ⟨a, b⟩ ⟨a', b'⟩
    cases a <;> cases a' <;> simp [propositional]

/-- The formulas `a`, `b` and `¬ a`: after the models `a, ¬ b` and `¬ a, ¬ b` no model is left,
and `b` covers both. -/
theorem not_computesCore_pair :
    ¬ ComputesCore propositional [.atom true, .atom false, .app .not [.atom true]] := by
  refine not_computesCore_of_comparable ?_ (true, false) (true, true) ?_ ?_
  · rintro ⟨a, b⟩
    cases a <;> simp [propositional]
  · simp [propositional]
  · simp [propositional]

end UnsatCore

end Smtrat
