import Smtrat.SAT.PassedFormula

/-!
# Counting assignments

Between two adaptations the counters of the abstractions say which constraints have to be added or
removed.  A listed constraint is relevant and its literal is true, and a relevant constraint whose
literal is true is listed, unless it is equivalent to true.  Assigning and resetting literals, and
creating them, keep this.
-/

namespace Smtrat

open PropFormula List Function

universe u v

namespace SAT

variable {B : Type u} {C : Type v}

/-! ## One abstraction -/

/-- The counter of an abstraction agrees with its literal: `isTrue` says that the literal is true,
`changed` that its variable is among the changed ones. -/
structure Abstraction.Tracked {A : Type u} (equivalentToTrue : Formula A → Bool)
    (isTrue changed : Prop) (a : Abstraction A) : Prop where
  counted : a.Counted
  changed : a.updateInfo ≠ 0 → changed
  sound : a.Listed → a.consistencyRelevant = true ∧ isTrue
  complete : a.consistencyRelevant = true → isTrue → equivalentToTrue a.reabstraction = false →
    a.Listed

namespace Abstraction.Tracked

variable {A : Type u} {equivalentToTrue : Formula A → Bool} {p q r : Prop} {a : Abstraction A}

theorem mono (h : a.Tracked equivalentToTrue p q) (hr : q → r) :
    a.Tracked equivalentToTrue p r :=
  ⟨h.counted, hr ∘ h.changed, h.sound, h.complete⟩

theorem congr (h : a.Tracked equivalentToTrue p q) (hr : p ↔ r) :
    a.Tracked equivalentToTrue r q :=
  ⟨h.counted, h.changed, fun hl => ⟨(h.sound hl).1, hr.mp (h.sound hl).2⟩,
    fun hc hr' => h.complete hc (hr.mpr hr')⟩

theorem counted_setUpdateInfo (h : a.Counted) {n : Int}
    (hp : a.position.isSome → n = 0 ∨ n = -1) (hn : a.position = none → n = 0 ∨ n = 1) :
    (a.setUpdateInfo n).Counted :=
  ⟨hp, hn, h.updatedReabstraction⟩

/-- Nothing is counted for a constraint that is irrelevant or equivalent to true. -/
theorem assign_skip (h : a.Tracked equivalentToTrue p q) (hp : ¬ p)
    (hs : (a.consistencyRelevant && !equivalentToTrue a.reabstraction) = false) :
    a.Tracked equivalentToTrue True q where
  counted := h.counted
  changed := h.changed
  sound := fun hl => absurd (h.sound hl).2 hp
  complete := fun hc _ ht => by simp [hc, ht] at hs

/-- The counter of a relevant constraint whose literal becomes true. -/
theorem assign (h : a.Tracked equivalentToTrue p q) (hp : ¬ p) (hc : a.consistencyRelevant = true) :
    (a.setUpdateInfo (a.updateInfo + 1)).Tracked equivalentToTrue True
      (q ∨ 0 < a.updateInfo + 1) := by
  have hl : ¬ a.Listed := fun hl => hp (h.sound hl).2
  cases hpos : a.position with
  | none =>
    have h0 : a.updateInfo = 0 :=
      (h.counted.absent hpos).resolve_right fun h1 => hl (by simp [Listed, hpos, h1])
    refine ⟨counted_setUpdateInfo h.counted (by simp [hpos]) fun _ => Or.inr (by simp [h0]),
      fun _ => Or.inr (by simp [h0]), fun _ => ⟨hc, trivial⟩, fun _ _ _ => ?_⟩
    simp [Listed, setUpdateInfo, hpos, h0]
  | some it =>
    have h1 : a.updateInfo = -1 :=
      (h.counted.passed (by simp [hpos])).resolve_left fun h0 => hl (by simp [Listed, hpos, h0])
    refine ⟨counted_setUpdateInfo h.counted (fun _ => Or.inl (by simp [h1])) (by simp [hpos]),
      fun _ => Or.inl (h.changed (by simp [h1])), fun _ => ⟨hc, trivial⟩, fun _ _ _ => ?_⟩
    simp [Listed, setUpdateInfo, hpos, h1]

theorem of_not_listed (hc : a.Counted) (hq : a.updateInfo ≠ 0 → q) (hl : ¬ a.Listed) :
    a.Tracked equivalentToTrue False q :=
  ⟨hc, hq, fun h => absurd h hl, fun _ => False.elim⟩

/-- The constraint stays in the passed formula until the next adaptation. -/
theorem reset_passed (h : a.Tracked equivalentToTrue p q) (hpos : a.position.isSome)
    (hu : 0 ≤ a.updateInfo) : (a.setUpdateInfo (a.updateInfo - 1)).Tracked equivalentToTrue False
      (q ∨ a.updateInfo - 1 < 0) := by
  have h0 : a.updateInfo = 0 := by
    rcases h.counted.passed hpos with h0 | h1
    · exact h0
    · omega
  refine of_not_listed (counted_setUpdateInfo h.counted (fun _ => Or.inr (by simp [h0])) ?_)
    (fun _ => Or.inr (by simp [h0])) (by simp [Listed, setUpdateInfo, hpos, h0])
  intro hn
  simp [hn] at hpos

/-- The constraint is not added after all. -/
theorem reset_absent (h : a.Tracked equivalentToTrue p q) (hpos : a.position = none) :
    (a.setUpdateInfo 0).Tracked equivalentToTrue False q :=
  of_not_listed (counted_setUpdateInfo h.counted (by simp [hpos]) fun _ => Or.inl rfl)
    (fun h0 => absurd rfl h0) (by simp [Listed, setUpdateInfo, hpos])

theorem reset_irrelevant (h : a.Tracked equivalentToTrue p q)
    (hc : a.consistencyRelevant = false) : a.Tracked equivalentToTrue False q :=
  of_not_listed h.counted h.changed fun hl => Bool.false_ne_true (hc.symm.trans (h.sound hl).1)

/-- A constraint becomes relevant while its literal is true. -/
theorem activate_true (h : a.Tracked equivalentToTrue p q) (hc : a.consistencyRelevant = false)
    (hp : p) : (a.setUpdateInfo (a.updateInfo + 1)).setRelevant.Tracked equivalentToTrue p
      (q ∨ 0 < a.updateInfo + 1) := by
  have h' := (h.reset_irrelevant hc).congr (r := False) Iff.rfl
  have hre : (a.setRelevant).Tracked equivalentToTrue False q :=
    of_not_listed ⟨h'.counted.passed, h'.counted.absent, h'.counted.updatedReabstraction⟩
      h'.changed fun hl => (h'.sound hl).2
  exact (hre.assign id rfl).congr (iff_of_true trivial hp)

theorem activate_not_true (h : a.Tracked equivalentToTrue p q) (hp : ¬ p) :
    a.setRelevant.Tracked equivalentToTrue p q where
  counted := ⟨h.counted.passed, h.counted.absent, h.counted.updatedReabstraction⟩
  changed := h.changed
  sound := fun hl => absurd (h.sound hl).2 hp
  complete := fun _ hp' => absurd hp' hp

end Abstraction.Tracked

/-! ## The state -/

/-- Whatever holds between the operations, but for the trail. -/
structure Tracks (equivalentToTrue : Formula (Atom B C) → Bool) (s : State B C) : Prop where
  abstracted : Abstracted s.passedFormula s.mBooleanConstraintMap
  tracked : ∀ l a, s.mBooleanConstraintMap l = some a →
    a.Tracked equivalentToTrue (s.value l = some true) (l.var ∈ s.mChangedBooleans)
  unused : ∀ l, s.nVars ≤ l.var → s.assigns l.var = none ∧ s.mBooleanConstraintMap l = none
  literals : ∀ f l, s.mConstraintLiteralMap f = some l ↔
    ∃ a, s.mBooleanConstraintMap l = some a ∧ a.reabstraction = f
  sides : ∀ l a c, s.mBooleanConstraintMap l = some a →
    a.reabstraction = literal (.constraint c) l.sign →
      ∃ a', s.mBooleanConstraintMap l.neg = some a' ∧
        a'.reabstraction = literal (.constraint c) l.neg.sign
  propositional : s.mReceivedFormulaPurelyPropositional = true →
    ∀ l, s.mBooleanConstraintMap l = none

namespace Tracks

variable {equivalentToTrue : Formula (Atom B C) → Bool} {s : State B C}

theorem side (h : Tracks equivalentToTrue s) {l : Lit}
    (hl : s.mBooleanConstraintMap l = none) : s.mBooleanConstraintMap l.neg = none := by
  cases hn : s.mBooleanConstraintMap l.neg with
  | none => rfl
  | some a =>
    obtain ⟨c, hc⟩ := h.abstracted.abstracts.atomic _ a hn
    obtain ⟨a', ha', -⟩ := h.sides _ a c hn hc
    rw [Lit.neg_neg, hl] at ha'
    cases ha'

/-- Variables without an abstraction can be assigned and reset freely. -/
theorem assign (h : Tracks equivalentToTrue s) {v : Var}
    (hv : ∀ l, l.var = v → s.mBooleanConstraintMap l = none) (hlt : v < s.nVars) (b : Option Bool)
    (trail : List Lit) :
    Tracks equivalentToTrue { s with assigns := update s.assigns v b, trail := trail } where
  abstracted := h.abstracted
  tracked := by
    intro k a ha
    have hk : k.var ≠ v := fun hk => by
      dsimp only at ha
      rw [hv k hk] at ha
      cases ha
    refine (h.tracked k a ha).congr ?_
    rw [State.value, State.value, Assigns.value, Assigns.value]
    simp only [update_of_ne hk]
  unused := by
    intro l hl
    have hne : l.var ≠ v := fun hv => absurd hlt (Nat.not_lt.mpr (hv ▸ hl))
    simpa [update_of_ne hne] using h.unused l hl
  literals := h.literals
  sides := h.sides
  propositional := h.propositional

/-- The abstraction of a literal is replaced while its variable is assigned or reset. -/
theorem replace (h : Tracks equivalentToTrue s) {l : Lit} {a : Abstraction (Atom B C)}
    (ha : s.mBooleanConstraintMap l = some a) (a' : Abstraction (Atom B C))
    (hre : a'.reabstraction = a.reabstraction)
    (hpos : a'.position = a.position) (hor : ∀ v, a.origins = some v → a'.origins = some v)
    {assigns : Assigns} {changed : List Var} (hne : ∀ v, v ≠ l.var → assigns v = s.assigns v)
    (hneg : assigns.value l.neg = some true ↔ s.value l.neg = some true)
    (hch : ∀ v ∈ s.mChangedBooleans, v ∈ changed)
    (ha' : a'.Tracked equivalentToTrue (assigns.value l = some true) (l.var ∈ changed))
    (trail : List Lit) (answer : Answer) :
    Tracks equivalentToTrue { s with
      assigns := assigns
      trail := trail
      mChangedBooleans := changed
      mCurrentAssignmentConsistent := answer
      mBooleanConstraintMap := update s.mBooleanConstraintMap l (some a') } where
  abstracted := h.abstracted.update ha hre hpos hor ha'.counted
  tracked := by
    intro k b hb
    dsimp only at hb
    by_cases hk : k = l
    · subst hk
      obtain rfl := by simpa using hb
      exact ha'
    · rw [update_of_ne hk] at hb
      refine ((h.tracked k b hb).mono (hch _)).congr ?_
      by_cases hv : k.var = l.var
      · obtain rfl := (Lit.eq_or_eq_neg hv).resolve_left hk
        exact hneg.symm
      · simp [State.value, Assigns.value, hne _ hv]
  unused := by
    intro k hk
    have hv : k.var ≠ l.var := fun hv => by
      rw [(h.unused l (hv ▸ hk)).2] at ha
      cases ha
    have hkl : k ≠ l := fun hkl => hv (congrArg _ hkl)
    simpa [update_of_ne hkl, hne _ hv] using h.unused k hk
  literals := by
    intro f k
    rw [h.literals]
    by_cases hk : k = l
    · subst hk
      simp [ha, hre]
    · simp [update_of_ne hk]
  sides := by
    intro k b c hb hc
    dsimp only at hb ⊢
    have hold : ∃ b', s.mBooleanConstraintMap k = some b' ∧ b'.reabstraction = b.reabstraction := by
      by_cases hk : k = l
      · subst hk
        obtain rfl : a' = b := by simpa using hb
        exact ⟨a, ha, hre.symm⟩
      · rw [update_of_ne hk] at hb
        exact ⟨b, hb, rfl⟩
    obtain ⟨b', hb', hre'⟩ := hold
    obtain ⟨d, hd, hdc⟩ := h.sides k b' c hb' (hre'.trans hc)
    by_cases hk : k.neg = l
    · subst hk
      obtain rfl := Option.some.inj (ha.symm.trans hd)
      exact ⟨a', update_self _ _ _, hre.trans hdc⟩
    · exact ⟨d, by rw [update_of_ne hk, hd], hdc⟩
  propositional := by
    intro hp
    have := h.propositional hp l
    rw [ha] at this
    cases this

end Tracks

/-- The backends' model satisfies the constraints that wait to be added to the passed formula, as
long as the last check is taken for an answer about the current assignment. -/
def Covered (equivalentToTrue : Formula (Atom B C) → Bool) (s : State B C) : Prop :=
  s.mCurrentAssignmentConsistent = .sat → ∀ l a, s.mBooleanConstraintMap l = some a →
    0 < a.updateInfo → equivalentToTrue a.reabstraction = false →
      s.backends.model a.reabstraction = true

/-- The abstraction of a literal is replaced by one that waits for nothing new, unless the model
satisfies its constraint. -/
theorem Covered.replace {equivalentToTrue : Formula (Atom B C) → Bool} {s s' : State B C}
    (h : Covered equivalentToTrue s) {l : Lit} {a : Abstraction (Atom B C)}
    (ha : s.mBooleanConstraintMap l = some a) (a' : Abstraction (Atom B C))
    (hre : a'.reabstraction = a.reabstraction)
    (hM : s'.mBooleanConstraintMap = update s.mBooleanConstraintMap l (some a'))
    (hb : s'.backends = s.backends)
    (hs : s'.mCurrentAssignmentConsistent = .sat → s.mCurrentAssignmentConsistent = .sat)
    (hn : s'.mCurrentAssignmentConsistent = .sat → 0 < a'.updateInfo →
      equivalentToTrue a.reabstraction = false →
        0 < a.updateInfo ∨ s.backends.model a.reabstraction = true) :
    Covered equivalentToTrue s' := by
  intro hsat k b hkb hpos hnt
  rw [hM] at hkb
  rw [hb]
  by_cases hk : k = l
  · subst hk
    obtain rfl : a' = b := by simpa using hkb
    rw [hre] at hnt ⊢
    rcases hn hsat hpos hnt with h0 | hm
    · exact h (hs hsat) k a ha h0 hnt
    · exact hm
  · rw [update_of_ne hk] at hkb
    exact h (hs hsat) k b hkb hpos hnt

namespace State

variable {equivalentToTrue : Formula (Atom B C) → Bool} {s : State B C} {l : Lit}

/-- Counting an assignment replaces one abstraction. -/
theorem countAssigned_spec {a : Abstraction (Atom B C)} (ha : s.mBooleanConstraintMap l = some a)
    {p : Prop} (hp : ¬ p) (h : a.Tracked equivalentToTrue p (l.var ∈ s.mChangedBooleans)) :
    ∃ n changed answer, s.countAssigned equivalentToTrue l a = { s with
        mChangedBooleans := changed
        mCurrentAssignmentConsistent := answer
        mBooleanConstraintMap := update s.mBooleanConstraintMap l (some (a.setUpdateInfo n)) } ∧
      (∀ v ∈ s.mChangedBooleans, v ∈ changed) ∧
      (a.setUpdateInfo n).Tracked equivalentToTrue True (l.var ∈ changed) ∧
      (answer = .sat → s.mCurrentAssignmentConsistent = .sat ∧
        (0 < n → equivalentToTrue a.reabstraction = false → 0 < a.updateInfo ∨
          s.backends.model a.reabstraction = true)) := by
  have hu := h.counted.updatedReabstraction
  cases hs : a.consistencyRelevant && !equivalentToTrue a.reabstraction with
  | false =>
    refine ⟨a.updateInfo, s.mChangedBooleans, s.mCurrentAssignmentConsistent, ?_,
      fun _ hv => hv, h.assign_skip hp hs, fun hsat => ⟨hsat, fun hn _ => Or.inl hn⟩⟩
    rw [countAssigned, hu, hs]
    exact (setAbstraction_self ha).symm
  | true =>
    have hc : a.consistencyRelevant = true := by simp at hs; exact hs.1
    have ht := h.assign hp hc
    by_cases hn : 0 < a.updateInfo + 1
    · have hin : l.var ∈ s.mChangedBooleans ++ [l.var] := by simp
      by_cases hsat : s.backends.currentlySatisfied a.reabstraction = 1
      · refine ⟨a.updateInfo + 1, s.mChangedBooleans ++ [l.var], s.mCurrentAssignmentConsistent,
          ?_, fun v hv => mem_append_left _ hv, ht.mono fun _ => hin, fun h' => ⟨h', fun _ _ =>
            Or.inr (s.backends.model_of_currentlySatisfied _ hsat)⟩⟩
        simp [countAssigned, hu, hs, hn, hsat, pushChanged, setAbstraction]
      · refine ⟨a.updateInfo + 1, s.mChangedBooleans ++ [l.var], .unknown, ?_,
          fun v hv => mem_append_left _ hv, ht.mono fun _ => hin, fun h' => by cases h'⟩
        simp [countAssigned, hu, hs, hn, hsat, pushChanged, setAbstraction]
    · refine ⟨a.updateInfo + 1, s.mChangedBooleans, s.mCurrentAssignmentConsistent, ?_,
        fun v hv => hv, ht.mono fun hor => hor.resolve_right hn,
        fun h' => ⟨h', fun h1 _ => absurd h1 hn⟩⟩
      simp [countAssigned, hu, hs, hn, setAbstraction]

/-- Counting a reset replaces one abstraction. -/
theorem countReset_spec {a : Abstraction (Atom B C)} (ha : s.mBooleanConstraintMap l = some a)
    {p : Prop} (h : a.Tracked equivalentToTrue p (l.var ∈ s.mChangedBooleans)) :
    ∃ n changed, s.countReset l a = { s with
        mChangedBooleans := changed
        mBooleanConstraintMap := update s.mBooleanConstraintMap l (some (a.setUpdateInfo n)) } ∧
      (∀ v ∈ s.mChangedBooleans, v ∈ changed) ∧
      (a.setUpdateInfo n).Tracked equivalentToTrue False (l.var ∈ changed) ∧
      (0 < n → 0 < a.updateInfo) := by
  cases hpos : a.position with
  | some it =>
    have hsome : a.position.isSome := by simp [hpos]
    by_cases hu : 0 ≤ a.updateInfo
    · have ht := h.reset_passed hsome hu
      have h0 : a.updateInfo = 0 := by
        rcases h.counted.passed hsome with h0 | h1 <;> omega
      refine ⟨a.updateInfo - 1, s.mChangedBooleans ++ [l.var], ?_,
        fun v hv => mem_append_left _ hv, ht.mono fun _ => by simp, by omega⟩
      simp [countReset, hpos, h0, pushChanged, setAbstraction]
    · refine ⟨a.updateInfo, s.mChangedBooleans, ?_, fun v hv => hv,
        .of_not_listed h.counted h.changed ?_, id⟩
      · rw [countReset, if_pos hsome, if_neg hu]
        exact (setAbstraction_self ha).symm
      · show ¬ a.Listed
        simp only [Abstraction.Listed, hsome, if_true]
        omega
  | none =>
    have hnone : ¬ a.position.isSome := by simp [hpos]
    cases hc : a.consistencyRelevant with
    | true =>
      refine ⟨0, s.mChangedBooleans, ?_, fun v hv => hv, h.reset_absent hpos, by omega⟩
      simp [countReset, hpos, hc, setAbstraction]
    | false =>
      refine ⟨a.updateInfo, s.mChangedBooleans, ?_, fun v hv => hv, h.reset_irrelevant hc, id⟩
      rw [countReset, if_neg hnone, hc]
      exact (setAbstraction_self ha).symm

theorem uncheckedEnqueue_spec (h : Tracks equivalentToTrue s) (hv : s.value l = none)
    (hlt : l.var < s.nVars) : Tracks equivalentToTrue (s.uncheckedEnqueue equivalentToTrue l) ∧
      (Covered equivalentToTrue s →
        Covered equivalentToTrue (s.uncheckedEnqueue equivalentToTrue l)) := by
  have hfree : (∀ k, k.var = l.var → s.mBooleanConstraintMap k = none) →
      Tracks equivalentToTrue { s with
        assigns := s.assigns.enqueue l, trail := s.trail ++ [l] } :=
    fun hv => h.assign hv hlt _ _
  have hcov : Covered equivalentToTrue s → Covered equivalentToTrue { s with
      assigns := s.assigns.enqueue l, trail := s.trail ++ [l] } := fun hc => hc
  rw [uncheckedEnqueue]
  split_ifs with hp
  · exact ⟨hfree fun k _ => h.propositional hp k, hcov⟩
  cases ha : s.mBooleanConstraintMap l with
  | none =>
    refine ⟨hfree fun k hk => ?_, hcov⟩
    rcases Lit.eq_or_eq_neg hk with rfl | rfl
    · exact ha
    · exact h.side ha
  | some a =>
    have hnt : ¬ s.value l = some true := by simp [hv]
    have hneg : s.value l.neg ≠ some true := by
      rw [value, Ne, Assigns.value_neg_eq_true, ← value, hv]
      exact nofun
    have ht := h.tracked l a ha
    obtain ⟨n, changed, answer, heq, hch, ht', hsat⟩ := countAssigned_spec
      (s := { s with assigns := s.assigns.enqueue l, trail := s.trail ++ [l] }) ha hnt ht
    dsimp only at heq ⊢
    rw [heq]
    constructor
    · have htrue : (s.assigns.enqueue l).value l = some true := Assigns.value_enqueue
      exact h.replace ha (a.setUpdateInfo n) rfl rfl (fun _ => id)
        (fun v hv => update_of_ne hv _ _) (iff_of_false (by simp [Assigns.value_eq_true, Assigns.enqueue]) hneg) hch
        (ht'.congr (iff_of_true trivial htrue)) _ _
    · intro hc
      exact hc.replace ha (a.setUpdateInfo n) rfl rfl rfl (fun h' => (hsat h').1)
        fun h' => (hsat h').2

/-- Resets the variable of a literal that is true. -/
theorem resetVariableAssignment_spec (h : Tracks equivalentToTrue s) (hv : s.value l = some true)
    (hlt : l.var < s.nVars) : Tracks equivalentToTrue (s.resetVariableAssignment l.var) ∧
      (Covered equivalentToTrue s →
        Covered equivalentToTrue (s.resetVariableAssignment l.var)) := by
  have hl : mkLit l.var (s.assigns l.var = some false) = l := by
    have := Assigns.value_eq_true.mp hv
    obtain ⟨v, b⟩ := l
    cases b <;> simp_all [mkLit]
  have hfree : (∀ k, k.var = l.var → s.mBooleanConstraintMap k = none) →
      Tracks equivalentToTrue { s with assigns := s.assigns.reset l.var } :=
    fun hv => h.assign hv hlt _ _
  have hcov : Covered equivalentToTrue s → Covered equivalentToTrue { s with
      assigns := s.assigns.reset l.var } := fun hc => hc
  rw [resetVariableAssignment, hl]
  split_ifs with hp
  · exact ⟨hfree fun k _ => h.propositional hp k, hcov⟩
  cases ha : s.mBooleanConstraintMap l with
  | none =>
    refine ⟨hfree fun k hk => ?_, hcov⟩
    rcases Lit.eq_or_eq_neg hk with rfl | rfl
    · exact ha
    · exact h.side ha
  | some a =>
    have hneg : s.value l.neg ≠ some true := by
      rw [value, Ne, Assigns.value_neg_eq_true, ← value, hv]
      exact nofun
    obtain ⟨n, changed, heq, hch, ht', hn⟩ := countReset_spec ha (h.tracked l a ha)
    dsimp only
    rw [heq]
    constructor
    · have hnone : ∀ k : Lit, k.var = l.var → (s.assigns.reset l.var).value k ≠ some true := by
        intro k hk
        rw [Assigns.value_reset hk]
        exact nofun
      exact h.replace ha (a.setUpdateInfo n) rfl rfl (fun _ => id)
        (fun v hv => update_of_ne hv _ _) (iff_of_false (hnone _ rfl) hneg) hch
        (ht'.congr (iff_of_false id (hnone l rfl))) _ _
    · intro hc
      exact hc.replace ha (a.setUpdateInfo n) rfl rfl rfl id fun _ hpos _ => Or.inl (hn hpos)

end State

end SAT

end Smtrat
