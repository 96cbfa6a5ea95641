import Smtrat.STrop.SignedPowers
import Smtrat.STrop.Updates

/-!
# What additions, removals and checks keep

The relations stored with a separator are those of the received constraints that belong to it, the
counter and the infeasible subsets witness those that cannot be met together.  For this a formula
may only be removed if no other received one has the same normalization.
-/

namespace Smtrat.STrop

open SparsePoly PropFormula List Function Option

universe u v

/-! ## Relations -/

section Relations

instance : Fintype Relation where
  elems := {.eq, .neq, .less, .leq, .greater, .geq}
  complete r := by cases r <;> decide

instance : Fintype Direction where
  elems := {.both, .negative, .positive}
  complete d := by cases d <;> decide

/-- The method applies to the relations. -/
def Compatible (relations : Finset Relation) : Prop :=
  .eq ∉ relations ∧ ¬ (.leq ∈ relations ∧ .geq ∈ relations) ∧
    ∀ r ∈ relations, ∀ r' ∈ relations, r' ∉ conflicting r

instance (relations : Finset Relation) : Decidable (Compatible relations) := by
  unfold Compatible
  infer_instance

/-- The next direction supports all relations. -/
theorem Compatible.supports : ∀ (relations : Finset Relation) (direction : Option Direction),
    Compatible relations → ∀ r ∈ relations,
      ∃ d, nextDirection ⟨relations, direction⟩ = some d ∧ d.Supports r := by
  decide +kernel

/-- The number of reasons not to apply the method. -/
def prohibitions (relations : Finset Relation) : ℤ :=
  (if .eq ∈ relations then 1 else 0) + if .leq ∈ relations ∧ .geq ∈ relations then 1 else 0

theorem prohibitions_insert : ∀ (relations : Finset Relation) (r : Relation),
    prohibitions (insert r relations) ≤
      prohibitions relations + if prohibits r (insert r relations) then 1 else 0 := by
  decide +kernel

theorem prohibitions_erase : ∀ (relations : Finset Relation) (r : Relation), r ∈ relations →
    prohibitions (relations.erase r) ≤
      prohibitions relations - if prohibits r (relations.erase r) then 1 else 0 := by
  decide +kernel

theorem prohibitions_nonneg (relations : Finset Relation) : 0 ≤ prohibitions relations := by
  unfold prohibitions
  split <;> split <;> norm_num

theorem conflicting_symm {r r' : Relation} (h : r' ∈ conflicting r) : r ∈ conflicting r' := by
  cases r <;> cases r' <;> revert h <;> decide

end Relations

/-- A bound for all sums of values is a bound after one value has changed. -/
theorem sum_update_le {α : Type u} [DecidableEq α] {f : α → ℤ} {bound δ : ℤ}
    (h : ∀ S : Finset α, ∑ i ∈ S, f i ≤ bound) {a : α} {v : ℤ} (hf : ∀ i, 0 ≤ f i) (hv : 0 ≤ v)
    (hchange : v ≤ f a + δ) (S : Finset α) : ∑ i ∈ S, update f a v i ≤ bound + δ := by
  have hnonneg (i : α) : 0 ≤ update f a v i := by
    by_cases hi : i = a
    · rwa [hi, update_self]
    · rw [update_of_ne hi]
      exact hf i
  have hsum := h (insert a S)
  rw [← Finset.sum_erase_add _ _ (Finset.mem_insert_self a S)] at hsum
  calc ∑ i ∈ S, update f a v i
      ≤ ∑ i ∈ insert a S, update f a v i :=
        Finset.sum_le_sum_of_subset_of_nonneg (Finset.subset_insert a S) fun i _ _ => hnonneg i
    _ = ∑ i ∈ (insert a S).erase a, f i + v := by
        rw [← Finset.sum_erase_add _ _ (Finset.mem_insert_self a S), update_self]
        refine congrArg (· + v) (Finset.sum_congr rfl fun i hi => ?_)
        rw [update_of_ne (Finset.ne_of_mem_erase hi)]
    _ ≤ bound + δ := by linarith

namespace STropModule

variable {V : Type u} {B : Type v} [DecidableEq V] [DecidableEq B] (lib : Library V B)
  (s : STropModule V B)

/-! ## The invariant -/

/-- Constants and the constraints that are stored as such. -/
def Admissible (f : Formula (Atom V B)) : Prop :=
  (∃ b, f = .const b) ∨ ∃ c, f = .atom (.constraint c) ∧ lib.stored c

/-- The method has applied, and the inner solver has found a model. -/
structure Solved : Prop where
  feasible : s.mInfeasibleSubsets = []
  prohibited : s.mRelationalConflicts = 0
  settled : ∀ p, nextDirection (s.mSeparators p) = (s.mSeparators p).mActiveDirection
  used : ∀ x ∈ s.moments, lib.int x → s.mUsed x = s.receivedVariable x
  model : ∀ f ∈ s.inner, s.model.toAssignment.Satisfies f

structure Inv : Prop where
  synchronised : Synchronised lib s
  settled : ∀ p, p ∉ s.mChangedSeparators →
    nextDirection (s.mSeparators p) = (s.mSeparators p).mActiveDirection
  admissible : ∀ f ∈ s.received, Admissible lib f
  nodup : s.received.Nodup
  relations : ∀ p r, r ∈ (s.mSeparators p).mRelations ↔
    ∃ f ∈ s.received, normalizationOf f = some (p, r)
  prohibited : ∀ S : Finset (Poly V ℚ),
    ∑ p ∈ S, prohibitions (s.mSeparators p).mRelations ≤ s.mRelationalConflicts
  conflicts : ∀ p, ∀ r ∈ (s.mSeparators p).mRelations, ∀ r' ∈ (s.mSeparators p).mRelations,
    r' ∈ conflicting r → ∃ subset ∈ s.mInfeasibleSubsets,
      ∀ g ∈ subset, g = lib.formula p r ∨ g = lib.formula p r'
  falseReceived : .const false ∈ s.received → [.const false] ∈ s.mInfeasibleSubsets
  solved : s.answer = some .sat → s.mCheckedWithBackends = false → Solved lib s

omit [DecidableEq B] in
theorem Inv.initial : Inv lib (initial : STropModule V B) where
  synchronised :=
    { asserted := by
        have hact : (STropModule.initial : STropModule V B).active lib = fun _ => none := by
          funext i
          cases i <;> rfl
        rw [hact]
        exact Assertions.Inv.empty
      moments := nofun
      used := nofun }
  settled := fun _ _ => rfl
  admissible := nofun
  nodup := nodup_nil
  relations := by simp [STropModule.initial]
  prohibited := by simp [STropModule.initial, prohibitions]
  conflicts := by simp [STropModule.initial]
  falseReceived := nofun
  solved := nofun

variable {lib s}

omit [DecidableEq V] [DecidableEq B] in
/-- A formula that names a stored relation has it as its normalization. -/
theorem Inv.normalizationOf_formula (hadm : ∀ f ∈ s.received, Admissible lib f)
    {p : Poly V ℚ} {r : Relation} (h : ∃ f ∈ s.received, normalizationOf f = some (p, r)) :
    normalizationOf (lib.formula p r) = some (p, r) := by
  obtain ⟨f, hf, hnorm⟩ := h
  rcases hadm f hf with ⟨b, rfl⟩ | ⟨c, rfl, hc⟩
  · cases hnorm
  · have hnorm : normalization c = (p, r) := some.inj hnorm
    have hform := lib.normalizationOf_formula c hc
    rwa [hnorm] at hform

/-! ## Changes of the relations of a separator -/

/-- The relations of a separator have been replaced, and it is marked as changed. -/
structure Rerelated (s : STropModule V B) (p : Poly V ℚ) (relations : Finset Relation) (δ : ℤ)
    (s' : STropModule V B) : Prop where
  mSeparators : s'.mSeparators = update s.mSeparators p
    ⟨relations, (s.mSeparators p).mActiveDirection⟩
  mChangedSeparators : s'.mChangedSeparators =
    if p ∈ s.mChangedSeparators then s.mChangedSeparators else s.mChangedSeparators ++ [p]
  mRelationalConflicts : s'.mRelationalConflicts = s.mRelationalConflicts + δ
  mUsed : s'.mUsed = s.mUsed
  inner : s'.inner = s.inner
  moments : s'.moments = s.moments

section Rerelated

variable {p : Poly V ℚ} {relations : Finset Relation} {δ : ℤ} {s' : STropModule V B}

omit [DecidableEq B] in
theorem Rerelated.mSeparators_self (h : Rerelated s p relations δ s') :
    (s'.mSeparators p).mRelations = relations := by
  rw [h.mSeparators, update_self]

omit [DecidableEq B] in
theorem Rerelated.mSeparators_of_ne (h : Rerelated s p relations δ s') {q : Poly V ℚ}
    (hq : q ≠ p) : s'.mSeparators q = s.mSeparators q := by
  rw [h.mSeparators, update_of_ne hq]

omit [DecidableEq B] in
theorem Rerelated.synchronised (h : Rerelated s p relations δ s') (hs : Synchronised lib s) :
    Synchronised lib s' := by
  refine hs.congr (fun q => ?_) h.mUsed h.inner h.moments
  by_cases hq : q = p
  · rw [hq, h.mSeparators, update_self]
  · rw [h.mSeparators_of_ne hq]

omit [DecidableEq B] in
theorem Rerelated.settled (h : Rerelated s p relations δ s')
    (hs : ∀ q, q ∉ s.mChangedSeparators →
      nextDirection (s.mSeparators q) = (s.mSeparators q).mActiveDirection) (q : Poly V ℚ)
    (hq : q ∉ s'.mChangedSeparators) :
    nextDirection (s'.mSeparators q) = (s'.mSeparators q).mActiveDirection := by
  obtain ⟨hqp, hq⟩ : q ≠ p ∧ q ∉ s.mChangedSeparators := by
    rw [h.mChangedSeparators] at hq
    split at hq
    · next hp => exact ⟨fun hqp => hq (hqp ▸ hp), hq⟩
    · simpa [not_or, and_comm] using hq
  rw [h.mSeparators_of_ne hqp]
  exact hs q hq

omit [DecidableEq B] in
theorem Rerelated.prohibited (h : Rerelated s p relations δ s')
    (hs : ∀ S : Finset (Poly V ℚ),
      ∑ q ∈ S, prohibitions (s.mSeparators q).mRelations ≤ s.mRelationalConflicts)
    (hδ : prohibitions relations ≤ prohibitions (s.mSeparators p).mRelations + δ)
    (S : Finset (Poly V ℚ)) :
    ∑ q ∈ S, prohibitions (s'.mSeparators q).mRelations ≤ s'.mRelationalConflicts := by
  have hbd := sum_update_le (f := fun q => prohibitions (s.mSeparators q).mRelations) hs
    (fun q => prohibitions_nonneg _) (prohibitions_nonneg relations) hδ S
  rw [h.mRelationalConflicts]
  refine le_of_eq_of_le (Finset.sum_congr rfl fun q _ => ?_) hbd
  by_cases hq : q = p
  · rw [hq, h.mSeparators_self, update_self]
  · rw [h.mSeparators_of_ne hq, update_of_ne hq]

end Rerelated

/-! ## Additions -/

omit [DecidableEq B] in
theorem Inv.add (h : Inv lib s) {f : Formula (Atom V B)} (hf : Admissible lib f)
    (hnew : f ∉ s.received) : Inv lib (s.add lib f) := by
  have hadm : ∀ g ∈ s.received ++ [f], Admissible lib g := by
    intro g hg
    rcases mem_append.mp hg with hg | hg
    · exact h.admissible g hg
    · exact mem_singleton.mp hg ▸ hf
  have hnodup : (s.received ++ [f]).Nodup := by
    rw [nodup_append]
    exact ⟨h.nodup, nodup_singleton f, fun a ha b hb => by
      rw [mem_singleton.mp hb]
      exact fun hab => hnew (hab ▸ ha)⟩
  rcases hf with ⟨b, rfl⟩ | ⟨c, rfl, hc⟩
  · have hrels (p) (r) : r ∈ (s.mSeparators p).mRelations ↔
        ∃ g ∈ s.received ++ [.const b], normalizationOf g = some (p, r) := by
      rw [h.relations]
      simp [normalizationOf]
    cases b with
    | false =>
      refine ⟨h.synchronised.congr (fun _ => rfl) rfl rfl rfl, h.settled, hadm, hnodup,
        hrels, h.prohibited, fun p r hr r' hr' hconf => ?_, fun _ => ?_, nofun⟩
      · obtain ⟨subset, hsubset, hmem⟩ := h.conflicts p r hr r' hr' hconf
        exact ⟨subset, mem_append_left _ hsubset, hmem⟩
      · exact mem_append_right _ (mem_singleton.mpr rfl)
    | true =>
      refine ⟨h.synchronised.congr (fun _ => rfl) rfl rfl rfl, h.settled, hadm, hnodup,
        hrels, h.prohibited, h.conflicts, fun hfalse => ?_, nofun⟩
      exact h.falseReceived (by simpa [STropModule.add, addCore] using hfalse)
  · rcases hnorm : normalization c with ⟨p, relation⟩
    have hrerel : Rerelated s p (insert relation (s.mSeparators p).mRelations)
        (if prohibits relation (insert relation (s.mSeparators p).mRelations) then 1 else 0)
        (s.add lib (.atom (.constraint c))) := by
      constructor <;> rw [STropModule.add, addCore, hnorm]
    have hrec : (s.add lib (.atom (.constraint c))).received =
        s.received ++ [.atom (.constraint c)] := rfl
    have hsubs : (s.add lib (.atom (.constraint c))).mInfeasibleSubsets =
        s.mInfeasibleSubsets ++ ((conflicting relation).filter
          (· ∈ insert relation (s.mSeparators p).mRelations)).map fun r =>
            [lib.formula p relation, lib.formula p r] := by
      rw [STropModule.add, addCore, hnorm]
    refine ⟨hrerel.synchronised h.synchronised, hrerel.settled h.settled, hadm,
      hnodup, fun q r => ?_, hrerel.prohibited h.prohibited (prohibitions_insert _ _),
      fun q r hr r' hr' hconf => ?_, fun hfalse => ?_, nofun⟩
    · have hlast : (∃ g ∈ s.received ++ [.atom (.constraint c)],
          normalizationOf g = some (q, r)) ↔
          r ∈ (s.mSeparators q).mRelations ∨ (p = q ∧ relation = r) := by
        rw [h.relations]
        simp [normalizationOf, hnorm, or_and_right, exists_or]
      rw [hrec, hlast]
      by_cases hqp : q = p
      · rw [hqp, hrerel.mSeparators_self, Finset.mem_insert, or_comm, eq_comm (a := r)]
        simp
      · have hpq : ¬ p = q := fun hpq => hqp hpq.symm
        rw [hrerel.mSeparators_of_ne hqp]
        simp [hpq]
    · rw [hsubs]
      by_cases hqp : q = p
      · rw [hqp, hrerel.mSeparators_self] at hr hr'
        rw [hqp]
        have hsubset {r : Relation} (hr : r ∈ insert relation (s.mSeparators p).mRelations)
            (hconf : r ∈ conflicting relation) : [lib.formula p relation, lib.formula p r] ∈
              s.mInfeasibleSubsets ++ ((conflicting relation).filter
                (· ∈ insert relation (s.mSeparators p).mRelations)).map fun r =>
                  [lib.formula p relation, lib.formula p r] := by
          refine mem_append_right _ (List.mem_map.mpr ⟨r, ?_, rfl⟩)
          exact mem_filter.mpr ⟨hconf, decide_eq_true hr⟩
        rcases Finset.mem_insert.mp hr with rfl | hrold
        · exact ⟨_, hsubset hr' hconf, by simp⟩
        · rcases Finset.mem_insert.mp hr' with rfl | hrold'
          · exact ⟨_, hsubset hr (conflicting_symm hconf), by simp⟩
          · obtain ⟨subset, hmem, hsub⟩ := h.conflicts p r hrold r' hrold' hconf
            exact ⟨subset, mem_append_left _ hmem, hsub⟩
      · rw [hrerel.mSeparators_of_ne hqp] at hr hr'
        obtain ⟨subset, hmem, hsub⟩ := h.conflicts q r hr r' hr' hconf
        exact ⟨subset, mem_append_left _ hmem, hsub⟩
    · rw [hsubs]
      rw [hrec] at hfalse
      exact mem_append_left _ (h.falseReceived (by simpa using hfalse))

/-! ## Removals -/

/-- No other received formula has the same normalization. -/
def Unshared (s : STropModule V B) (f : Formula (Atom V B)) : Prop :=
  ∀ g ∈ s.received, (normalizationOf f).isSome → normalizationOf g = normalizationOf f → g = f

theorem Inv.remove (h : Inv lib s) {f : Formula (Atom V B)} (hf : f ∈ s.received)
    (hunshared : Unshared s f) : Inv lib (s.remove f) := by
  have hmem {g : Formula (Atom V B)} : g ∈ s.received.erase f ↔ g ≠ f ∧ g ∈ s.received :=
    h.nodup.mem_erase_iff
  have hadm : ∀ g ∈ s.received.erase f, Admissible lib g := fun g hg =>
    h.admissible g (hmem.mp hg).2
  have hnodup : (s.received.erase f).Nodup := h.nodup.erase f
  have hkeep {subset : List (Formula (Atom V B))} (hsubset : subset ∈ s.mInfeasibleSubsets)
      (hnot : f ∉ subset) : subset ∈ s.mInfeasibleSubsets.filter (f ∉ ·) :=
    mem_filter.mpr ⟨hsubset, decide_eq_true hnot⟩
  have hfalse (hfalse : .const false ∈ s.received.erase f) :
      [.const false] ∈ s.mInfeasibleSubsets.filter (f ∉ ·) := by
    obtain ⟨hne, hold⟩ := hmem.mp hfalse
    exact hkeep (h.falseReceived hold) (by simpa [eq_comm] using hne)
  -- the formulas for relations that are left are not removed
  have hconfs (q : Poly V ℚ) (r r' : Relation)
      (hr : ∃ g ∈ s.received.erase f, normalizationOf g = some (q, r))
      (hr' : ∃ g ∈ s.received.erase f, normalizationOf g = some (q, r'))
      (hconf : r' ∈ conflicting r) : ∃ subset ∈ s.mInfeasibleSubsets.filter (f ∉ ·),
        ∀ g ∈ subset, g = lib.formula q r ∨ g = lib.formula q r' := by
    have hother {r : Relation}
        (hr : ∃ g ∈ s.received.erase f, normalizationOf g = some (q, r)) :
        r ∈ (s.mSeparators q).mRelations ∧ f ≠ lib.formula q r := by
      obtain ⟨g, hg, hnorm⟩ := hr
      obtain ⟨hne, hold⟩ := hmem.mp hg
      refine ⟨(h.relations q r).mpr ⟨g, hold, hnorm⟩, fun heq => ?_⟩
      have hform := Inv.normalizationOf_formula h.admissible ⟨g, hold, hnorm⟩
      rw [← heq] at hform
      exact hne (hunshared g hold (by rw [hform]; rfl) (hnorm.trans hform.symm))
    obtain ⟨hold, hne⟩ := hother hr
    obtain ⟨hold', hne'⟩ := hother hr'
    obtain ⟨subset, hsubset, hsub⟩ := h.conflicts q r hold r' hold' hconf
    exact ⟨subset, hkeep hsubset fun hfs => (hsub f hfs).elim hne hne', hsub⟩
  rcases h.admissible f hf with ⟨b, rfl⟩ | ⟨c, rfl, hc⟩
  · have hrels (p) (r) : r ∈ (s.mSeparators p).mRelations ↔
        ∃ g ∈ s.received.erase (.const b), normalizationOf g = some (p, r) := by
      rw [h.relations]
      refine exists_congr fun g => and_congr_left fun hg => ?_
      rw [hmem]
      refine (and_iff_right ?_).symm
      rintro rfl
      cases hg
    exact ⟨h.synchronised.congr (fun _ => rfl) rfl rfl rfl, h.settled, hadm, hnodup,
      hrels, h.prohibited, fun q r hr r' hr' hconf =>
        hconfs q r r' ((hrels q r).mp hr) ((hrels q r').mp hr') hconf, hfalse, nofun⟩
  · rcases hnorm : normalization c with ⟨p, relation⟩
    have hnormOf : normalizationOf (.atom (.constraint c) : Formula (Atom V B)) =
        some (p, relation) := congrArg some hnorm
    have hstor : relation ∈ (s.mSeparators p).mRelations := (h.relations _ _).mpr ⟨_, hf, hnormOf⟩
    have hrerel : Rerelated s p ((s.mSeparators p).mRelations.erase relation)
        (-if prohibits relation ((s.mSeparators p).mRelations.erase relation) then 1 else 0)
        (s.remove (.atom (.constraint c))) := by
      constructor <;> rw [STropModule.remove, removeCore, hnorm]
      rfl
    have hrels (q) (r) : r ∈ ((s.remove (.atom (.constraint c))).mSeparators q).mRelations ↔
        ∃ g ∈ s.received.erase (.atom (.constraint c)), normalizationOf g = some (q, r) := by
      have hleft : (∃ g ∈ s.received.erase (.atom (.constraint c)),
          normalizationOf g = some (q, r)) ↔
          r ∈ (s.mSeparators q).mRelations ∧ ¬ (p = q ∧ relation = r) := by
        rw [h.relations]
        constructor
        · rintro ⟨g, hg, hgnorm⟩
          obtain ⟨hne, hold⟩ := hmem.mp hg
          refine ⟨⟨g, hold, hgnorm⟩, ?_⟩
          rintro ⟨rfl, rfl⟩
          exact hne (hunshared g hold (by rw [hnormOf]; rfl) (hgnorm.trans hnormOf.symm))
        · rintro ⟨⟨g, hold, hgnorm⟩, hne⟩
          refine ⟨g, hmem.mpr ⟨?_, hold⟩, hgnorm⟩
          rintro rfl
          rw [hnormOf, some.injEq, Prod.mk.injEq] at hgnorm
          exact hne hgnorm
      rw [hleft]
      by_cases hqp : q = p
      · rw [hqp, hrerel.mSeparators_self, Finset.mem_erase, and_comm]
        simp [eq_comm (a := relation)]
      · have hpq : ¬ p = q := fun hpq => hqp hpq.symm
        rw [hrerel.mSeparators_of_ne hqp]
        simp [hpq]
    refine ⟨hrerel.synchronised h.synchronised, hrerel.settled h.settled, hadm,
      hnodup, hrels, hrerel.prohibited h.prohibited ?_,
      fun q r hr r' hr' hconf =>
        hconfs q r r' ((hrels q r).mp hr) ((hrels q r').mp hr') hconf, hfalse, nofun⟩
    rw [← sub_eq_add_neg]
    exact prohibitions_erase _ _ hstor

/-! ## Checks -/

omit [DecidableEq B] in
/-- The state after a check by the backends. -/
theorem Inv.runBackends (h : Inv lib s) (reply : BackendsReply V B) :
    Inv lib (s.runBackends reply) := by
  have hkeep {subset : List (Formula (Atom V B))} (hsub : subset ∈ s.mInfeasibleSubsets) :
      subset ∈ (s.runBackends reply).mInfeasibleSubsets := by
    unfold STropModule.runBackends
    dsimp only
    split
    · exact mem_append_left _ hsub
    · exact hsub
  refine ⟨h.synchronised.congr (fun _ => rfl) rfl rfl rfl, h.settled, h.admissible, h.nodup,
    h.relations, h.prohibited, fun p r hr r' hr' hconf => ?_, fun hfalse => ?_, nofun⟩
  · obtain ⟨subset, hsub, hmem⟩ := h.conflicts p r hr r' hr' hconf
    exact ⟨subset, hkeep hsub, hmem⟩
  · exact hkeep (h.falseReceived hfalse)

omit [DecidableEq B] in
/-- The state after the formulas of the inner solver have been updated. -/
theorem Inv.updated (h : Inv lib s) {s' : STropModule V B} (hs' : Updated lib s s')
    (conflicts : List (List (Poly V ℚ × Direction))) (checkedWithBackends : Bool)
    (model : LRAModel V) (answer : Option Answer)
    (hslv : answer = some .sat → checkedWithBackends = false →
      ∀ f ∈ s'.inner, model.toAssignment.Satisfies f)
    (hfeas : s.mInfeasibleSubsets = []) (happl : s.mRelationalConflicts = 0) :
    Inv lib { s' with
      mLinearizationConflicts := conflicts, mCheckedWithBackends := checkedWithBackends,
      model := model, answer := answer } := by
  have hrec : s'.received = s.received := by rw [hs'.frame]
  have hsubs : s'.mInfeasibleSubsets = s.mInfeasibleSubsets := by rw [hs'.frame]
  have hconfs : s'.mRelationalConflicts = s.mRelationalConflicts := by rw [hs'.frame]
  have hrels (p : Poly V ℚ) : (s'.mSeparators p).mRelations = (s.mSeparators p).mRelations := by
    rw [hs'.mSeparators, Separator.redirected]
  have hsettled (p : Poly V ℚ) :
      nextDirection (s'.mSeparators p) = (s'.mSeparators p).mActiveDirection := by
    rw [hs'.mSeparators, nextDirection_redirected, Separator.redirected]
  refine ⟨hs'.synchronised.congr (fun _ => rfl) rfl rfl rfl, fun p _ => hsettled p, ?_, ?_, ?_, ?_,
    ?_, ?_, fun hsat hchecked => ?_⟩
  · simpa only [hrec] using h.admissible
  · simpa only [hrec] using h.nodup
  · simpa only [hrec, hrels] using h.relations
  · simpa only [hconfs, hrels] using h.prohibited
  · simpa only [hsubs, hrels] using h.conflicts
  · simpa only [hrec, hsubs] using h.falseReceived
  · refine ⟨hsubs.trans hfeas, hconfs.trans happl, hsettled, fun x hx hint => ?_,
      hslv hsat hchecked⟩
    have hvar : s'.receivedVariable x = s.receivedVariable x := by
      rw [receivedVariable, receivedVariable, hrec]
    exact (hs'.mUsed x hx hint).trans hvar.symm

/-- Checks that may update the formulas of the inner solver withdraw formulas apart from others. -/
def CheckedApart (lib : Library V B) (s : STropModule V B) : Prop :=
  s.mInfeasibleSubsets = [] → s.applicable → s.WithdrawsApart lib

omit [DecidableEq B] in
theorem Inv.checkCore (h : Inv lib s) (hapart : CheckedApart lib s) (solver : LASolver V)
    (reply : BackendsReply V B) :
    ∃ s', s.checkCore lib solver reply = some s' ∧ Inv lib s' := by
  unfold STropModule.checkCore
  by_cases hfeas : s.mInfeasibleSubsets = []
  · rw [if_neg (not_not.mpr hfeas)]
    by_cases happl : s.applicable = true
    · obtain ⟨s', hs', hupdated⟩ := updateLinearization_spec h.synchronised h.settled
        (hapart hfeas happl)
      have hcnt : s.mRelationalConflicts = 0 := by
        simp only [applicable, Bool.and_eq_true, decide_eq_true_eq] at happl
        exact happl.1.1
      rw [if_pos happl, hs']
      refine ⟨_, rfl, ?_⟩
      dsimp only
      cases hreply : solver.check s'.inner with
      | sat model =>
        exact h.updated hupdated _ _ _ _ (fun _ _ => solver.sound _ _ hreply) hfeas hcnt
      | other subsets =>
        exact (h.updated hupdated (s'.mLinearizationConflicts ++ s'.learn lib subsets)
          s'.mCheckedWithBackends s'.model none nofun hfeas hcnt).runBackends reply
    · rw [if_neg happl]
      exact ⟨_, rfl, h.runBackends reply⟩
  · rw [if_pos hfeas]
    exact ⟨_, rfl, h.synchronised.congr (fun _ => rfl) rfl rfl rfl, h.settled, h.admissible,
      h.nodup, h.relations, h.prohibited, h.conflicts, h.falseReceived, nofun⟩

end STropModule

end Smtrat.STrop
