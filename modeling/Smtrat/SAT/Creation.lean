import Smtrat.SAT.Updates

/-!
# Creating literals

A literal for a constraint that is abstracted already may become relevant while it is true; the
constraint then waits to be added to the passed formula, like one whose literal is assigned.
-/

namespace Smtrat

open PropFormula Function Option

universe u v

namespace SAT

variable {B : Type u} {C : Type v}

theorem literal_injective {a b : Atom B C} {x y : Bool} (h : literal a x = literal b y) :
    a = b ∧ x = y := by
  cases x <;> cases y <;> simp_all [literal]

variable {a : Abstraction (Atom B C)}

namespace Tracks

variable {equivalentToTrue : Formula (Atom B C) → Bool} {s : State B C} {l : Lit}

theorem newVar (h : Tracks equivalentToTrue s) (dvar : Bool) :
    Tracks equivalentToTrue (s.newVar dvar) where
  abstracted := h.abstracted
  tracked := h.tracked
  unused := fun l hl => h.unused l (Nat.le_of_succ_le hl)
  literals := h.literals
  sides := h.sides
  propositional := h.propositional

theorem setDecisionVar (h : Tracks equivalentToTrue s) (v : Var) (b : Bool) :
    Tracks equivalentToTrue (s.setDecisionVar v b) := by
  cases b with
  | false => exact h
  | true => exact ⟨h.abstracted, h.tracked, h.unused, h.literals, h.sides, h.propositional⟩

/-- The abstraction of a literal is replaced, nothing else changes but the changed variables. -/
theorem setAbstraction (h : Tracks equivalentToTrue s) {a' : Abstraction (Atom B C)}
    (ha : s.mBooleanConstraintMap l = some a) (hre : a'.reabstraction = a.reabstraction)
    (hpos : a'.position = a.position) (hor : ∀ v, a.origins = some v → a'.origins = some v)
    (ha' : a'.Tracked equivalentToTrue (s.value l = some true) (l.var ∈ s.mChangedBooleans)) :
    Tracks equivalentToTrue (s.setAbstraction l a') :=
  h.replace ha a' hre hpos hor (fun _ _ => rfl) Iff.rfl (fun _ hv => hv) ha' s.trail
    s.mCurrentAssignmentConsistent

end Tracks

/-! ## Origins -/

/-- Vectors of origins are created and extended without touching the passed formula. -/
theorem Linked.setVectors {m m' : ModuleInput (Atom B C)} {M : AbstractionMap B C}
    (h : Linked m M) (hm : m'.WellFormed) (he : m'.elements = m.elements) : Linked m' M :=
  ⟨hm, he ▸ h.position, he ▸ h.element⟩

namespace Tracks

variable {equivalentToTrue : Formula (Atom B C) → Bool} {s : State B C} {l : Lit}

theorem setVectors (h : Tracks equivalentToTrue s) {m : ModuleInput (Atom B C)}
    (hm : m.WellFormed) (he : m.elements = s.passedFormula.elements) :
    Tracks equivalentToTrue { s with passedFormula := m } :=
  ⟨⟨h.abstracted.abstracts, h.abstracted.linked.setVectors hm he, h.abstracted.counted⟩,
    h.tracked, h.unused, h.literals, h.sides, h.propositional⟩

theorem pushOrigin (h : Tracks equivalentToTrue s)
    (ha : s.mBooleanConstraintMap l = some a) (origin : Formula (Atom B C)) :
    Tracks equivalentToTrue (s.pushOrigin l a origin) := by
  have hwf := h.abstracted.linked.wellFormed
  cases hor : a.origins with
  | some v =>
    simp only [State.pushOrigin, hor]
    exact h.setVectors (hwf.setVector _ _) rfl
  | none =>
    simp only [State.pushOrigin, hor]
    have h' := h.setVectors (hwf.allocate [origin]) rfl
    refine h'.setAbstraction ha rfl rfl (by simp [hor]) ?_
    have ht := h.tracked l a ha
    exact ⟨⟨ht.counted.passed, ht.counted.absent, ht.counted.updatedReabstraction⟩, ht.changed,
      ht.sound, ht.complete⟩

end Tracks

/-! ## Constraints that exist -/

/-- The abstraction that `createLiteral` makes relevant while its literal is true. -/
def State.activated [DecidableEq B] [DecidableEq C] (s : State B C) (content : Atom B C)
    (negated : Bool) (origin : Formula (Atom B C)) : Option (Abstraction (Atom B C)) :=
  if origin = .const true && negated then none
  else (s.mConstraintLiteralMap (literal content negated)).bind fun l =>
    (s.mBooleanConstraintMap l).filter fun a => !a.consistencyRelevant && s.value l = some true

variable {negated : Bool}

namespace Tracks

variable {equivalentToTrue : Formula (Atom B C) → Bool} {s : State B C} {l : Lit}

theorem activate_spec (h : Tracks equivalentToTrue s) (ha : s.mBooleanConstraintMap l = some a) :
    Tracks equivalentToTrue (s.activate l a) ∧
      ((a.consistencyRelevant = false → s.value l = some true →
          s.mCurrentAssignmentConsistent = .sat → equivalentToTrue a.reabstraction = false →
            s.backends.model a.reabstraction = true) →
        Covered equivalentToTrue s → Covered equivalentToTrue (s.activate l a)) := by
  have ht := h.tracked l a ha
  cases hc : a.consistencyRelevant with
  | true =>
    rw [State.activate, if_pos hc]
    exact ⟨h, fun _ => id⟩
  | false =>
    have hc' : ¬ a.consistencyRelevant = true := by simp [hc]
    by_cases hv : s.value l = some true
    · have hrep := fun (changed : List Var) (hch : ∀ v ∈ s.mChangedBooleans, v ∈ changed) =>
        h.replace ha (a.setUpdateInfo (a.updateInfo + 1)).setRelevant rfl rfl (fun _ => id)
          (fun _ _ => rfl) Iff.rfl hch
      have hcov : ∀ changed, (s.mCurrentAssignmentConsistent = .sat →
          equivalentToTrue a.reabstraction = false → s.backends.model a.reabstraction = true) →
          Covered equivalentToTrue s →
            Covered equivalentToTrue { s with
              mChangedBooleans := changed
              mBooleanConstraintMap := update s.mBooleanConstraintMap l
                (some (a.setUpdateInfo (a.updateInfo + 1)).setRelevant) } :=
        fun _ hm hs => hs.replace ha (a.setUpdateInfo (a.updateInfo + 1)).setRelevant
          rfl rfl rfl id fun h' _ hnt => Or.inr (hm h' hnt)
      have ht' := ht.activate_true hc hv
      rw [State.activate, if_neg hc', if_pos hv]
      by_cases hn : 0 < a.updateInfo + 1
      · simp only [if_pos hn]
        refine ⟨hrep (s.mChangedBooleans ++ [l.var]) (fun v hv => List.mem_append_left _ hv)
          (ht'.mono fun _ => by simp) _ _, fun hm => hcov _ (hm trivial hv)⟩
      · simp only [if_neg hn]
        exact ⟨hrep s.mChangedBooleans (fun v hv => hv) (ht'.mono fun hor => hor.resolve_right hn)
          _ _, fun hm => hcov _ (hm trivial hv)⟩
    · rw [State.activate, if_neg hc', if_neg hv]
      refine ⟨h.setAbstraction ha rfl rfl (fun _ => id) (ht.activate_not_true hv), ?_⟩
      exact fun _ hs => hs.replace ha a.setRelevant rfl rfl rfl id fun _ h0 _ => Or.inl h0

theorem activate_map (s : State B C) (ha : s.mBooleanConstraintMap l = some a) :
    ∃ a', (s.activate l a).mBooleanConstraintMap l = some a' := by
  rw [State.activate]
  split_ifs
  · exact ⟨a, ha⟩
  all_goals exact ⟨_, update_self _ _ _⟩

theorem pushOrigin_covered (ha : s.mBooleanConstraintMap l = some a) (origin : Formula (Atom B C))
    (hs : Covered equivalentToTrue s) : Covered equivalentToTrue (s.pushOrigin l a origin) := by
  rw [State.pushOrigin]
  split
  · exact hs.replace ha { a with origins := some s.passedFormula.nextVector }
      rfl rfl rfl id fun _ h0 _ => Or.inl h0
  · exact hs

/-- The activation of a constraint, and the origin it gets. -/
theorem activate_pushOrigin (h : Tracks equivalentToTrue s)
    (ha : s.mBooleanConstraintMap l = some a) (origin : Formula (Atom B C)) :
    ∃ a', (s.activate l a).mBooleanConstraintMap l = some a' ∧
      Tracks equivalentToTrue ((s.activate l a).pushOrigin l a' origin) ∧
      (Covered equivalentToTrue (s.activate l a) →
        Covered equivalentToTrue ((s.activate l a).pushOrigin l a' origin)) := by
  obtain ⟨a', ha'⟩ := activate_map s ha
  exact ⟨a', ha', (h.activate_spec ha).1.pushOrigin ha' origin, pushOrigin_covered ha' origin⟩

variable [DecidableEq B] [DecidableEq C]

theorem reuseConstraint_spec (h : Tracks equivalentToTrue s) {content : Atom B C}
    {origin : Formula (Atom B C)}
    (hl : s.mConstraintLiteralMap (literal content negated) = some l) (decisionRelevant : Bool) :
    Tracks equivalentToTrue (s.reuseConstraint l negated origin decisionRelevant) ∧
      ((∀ a, s.activated content negated origin = some a →
          s.mCurrentAssignmentConsistent = .sat → equivalentToTrue a.reabstraction = false →
            s.backends.model a.reabstraction = true) →
        Covered equivalentToTrue s →
          Covered equivalentToTrue (s.reuseConstraint l negated origin decisionRelevant)) := by
  have h₀ := h.setDecisionVar l.var decisionRelevant
  obtain ⟨a, ha, -⟩ := (h.literals _ l).mp hl
  have hact : s.activated content negated origin =
      if origin = .const true && negated then none
      else (some a).filter fun a => !a.consistencyRelevant && s.value l = some true := by
    rw [State.activated, hl, bind_some, ha]
  rw [State.reuseConstraint]
  generalize hs₀ : s.setDecisionVar l.var decisionRelevant = s₀ at h₀
  have hsame : s₀.mBooleanConstraintMap l = some a ∧ s₀.value l = s.value l ∧
      s₀.mCurrentAssignmentConsistent = s.mCurrentAssignmentConsistent ∧
      s₀.backends = s.backends ∧ (Covered equivalentToTrue s → Covered equivalentToTrue s₀) := by
    subst hs₀
    cases decisionRelevant <;> exact ⟨ha, rfl, rfl, rfl, fun h => h⟩
  obtain ⟨ha₀, hv₀, hc₀, hb₀, hcov₀⟩ := hsame
  by_cases hskip : (origin = .const true && negated) = true
  · simp only [if_pos hskip]
    exact ⟨h₀, fun _ => hcov₀⟩
  · simp only [if_neg hskip, ha₀]
    obtain ⟨htr, hcov⟩ := h₀.activate_spec ha₀
    have hcov' : (∀ b, s.activated content negated origin = some b →
        s.mCurrentAssignmentConsistent = .sat → equivalentToTrue b.reabstraction = false →
          s.backends.model b.reabstraction = true) → Covered equivalentToTrue s →
        Covered equivalentToTrue (s₀.activate l a) := by
      intro hm hs
      refine hcov (fun hc hv hsat hnt => ?_) (hcov₀ hs)
      rw [hb₀]
      refine hm a ?_ (hc₀ ▸ hsat) hnt
      rw [hact, if_neg hskip, filter_some, hc, ← hv₀, hv]
      rfl
    by_cases htrue : origin = .const true
    · simp only [if_pos htrue]
      exact ⟨htr, hcov'⟩
    · obtain ⟨a', ha', htr', hpush⟩ := h₀.activate_pushOrigin ha₀ origin
      simp only [if_neg htrue, ha']
      exact ⟨htr', fun hm hs => hpush (hcov' hm hs)⟩

end Tracks

/-! ## New constraints -/

namespace Tracks

variable {equivalentToTrue : Formula (Atom B C) → Bool} {s : State B C} {l : Lit}

/-- The abstraction of a literal that is not true becomes relevant. -/
theorem setRelevant (h : Tracks equivalentToTrue s) (hv : s.value l ≠ some true) :
    Tracks equivalentToTrue (s.setRelevant l) := by
  rw [State.setRelevant]
  cases ha : s.mBooleanConstraintMap l with
  | none => exact h
  | some a =>
    exact h.setAbstraction ha rfl rfl (fun _ => id) ((h.tracked l a ha).activate_not_true hv)

theorem value_setRelevant (s : State B C) (l k : Lit) : (s.setRelevant l).value k = s.value k := by
  rw [State.setRelevant]
  split <;> rfl

theorem setRelevant_covered (hs : Covered equivalentToTrue s) (l : Lit) :
    Covered equivalentToTrue (s.setRelevant l) := by
  rw [State.setRelevant]
  cases ha : s.mBooleanConstraintMap l with
  | none => exact hs
  | some a => exact hs.replace ha a.setRelevant rfl rfl rfl id fun _ h0 _ => Or.inl h0

theorem addRelevantOrigin_spec (h : Tracks equivalentToTrue s) (hv : s.value l ≠ some true)
    (origin : Formula (Atom B C)) :
    Tracks equivalentToTrue (s.addRelevantOrigin l origin) ∧
      (Covered equivalentToTrue s → Covered equivalentToTrue (s.addRelevantOrigin l origin)) := by
  rw [State.addRelevantOrigin]
  cases ha : s.mBooleanConstraintMap l with
  | none => exact ⟨h, id⟩
  | some a =>
    have h' := h.setRelevant hv
    have hs' := fun (hs : Covered equivalentToTrue s) => setRelevant_covered hs l
    simp only [State.setRelevant, ha] at h' hs'
    have ha' := update_self l (some a.setRelevant) s.mBooleanConstraintMap
    exact ⟨h'.pushOrigin ha' origin, fun hs => pushOrigin_covered ha' origin (hs' hs)⟩

/-- No abstraction for `c` exists, whatever the sign. -/
theorem no_abstraction (h : Tracks equivalentToTrue s) {c : C}
    (hc : s.mConstraintLiteralMap (literal (.constraint c) negated) = none) {k : Lit} (ha : s.mBooleanConstraintMap k = some a) (b : Bool) :
    a.reabstraction ≠ literal (.constraint c) b := by
  intro hre
  obtain ⟨c', hc'⟩ := h.abstracted.abstracts.atomic k a ha
  obtain ⟨hcc, rfl⟩ := literal_injective (hre.symm.trans hc')
  obtain rfl : c = c' := by cases hcc; rfl
  have hex : ∃ k' a', s.mBooleanConstraintMap k' = some a' ∧
      a'.reabstraction = literal (.constraint c) negated := by
    by_cases hn : negated = k.sign
    · exact ⟨k, a, ha, hn ▸ hre⟩
    · obtain ⟨a', ha', hre'⟩ := h.sides k a c ha hre
      have hn' : negated = k.neg.sign := by
        rw [Lit.sign_neg]
        exact Bool.eq_not_of_ne hn
      exact ⟨k.neg, a', ha', hn' ▸ hre'⟩
  obtain ⟨k', a', ha', hre'⟩ := hex
  rw [(h.literals _ k').mpr ⟨a', ha', hre'⟩] at hc
  cases hc

variable [DecidableEq B] [DecidableEq C]

theorem newConstraint_map (s : State B C) (c : C) (dr : Bool) (k : Lit) :
    (s.newConstraint c dr).mBooleanConstraintMap k =
      if k.var = s.nVars then some (.new (literal (.constraint c) k.sign))
      else s.mBooleanConstraintMap k := by
  obtain ⟨v, b⟩ := k
  by_cases hv : v = s.nVars
  · subst hv
    cases b <;> simp [State.newConstraint, State.setAbstraction, mkLit]
  · have hne : ∀ x, (⟨v, b⟩ : Lit) ≠ mkLit s.nVars x := fun x hx => hv (congrArg Lit.var hx)
    simp only [State.newConstraint, State.setAbstraction, update_of_ne (hne _), if_neg hv]
    rfl

theorem newConstraint_literals_new (s : State B C) (c : C) (dr b : Bool) :
    (s.newConstraint c dr).mConstraintLiteralMap (literal (.constraint c) b) =
      some (mkLit s.nVars b) := by
  have hne : literal (.constraint c : Atom B C) false ≠ literal (.constraint c) true :=
    fun h => by cases (literal_injective h).2
  cases b with
  | false => simp [State.newConstraint, update_of_ne hne]
  | true => simp [State.newConstraint]

theorem newConstraint_literals_old (s : State B C) (c : C) (dr : Bool) {f : Formula (Atom B C)}
    (hf : ∀ b, f ≠ literal (.constraint c) b) :
    (s.newConstraint c dr).mConstraintLiteralMap f = s.mConstraintLiteralMap f := by
  simp only [State.newConstraint, update_of_ne (hf _)]
  rfl

theorem new_tracked {A : Type u} (equivalentToTrue : Formula A → Bool) (f : Formula A)
    (p q : Prop) : (Abstraction.new f).Tracked equivalentToTrue p q where
  counted := ⟨nofun, fun _ => Or.inl rfl, rfl⟩
  changed := fun h => absurd rfl h
  sound := by simp [Abstraction.Listed, Abstraction.new]
  complete := nofun

theorem newConstraint (h : Tracks equivalentToTrue s) {c : C}
    (hc : s.mConstraintLiteralMap (literal (.constraint c) negated) = none)
    (hp : s.mReceivedFormulaPurelyPropositional = false) (dr : Bool) :
    Tracks equivalentToTrue (s.newConstraint c dr) := by
  have hM := newConstraint_map s c dr
  have hfresh : ∀ k : Lit, k.var = s.nVars → s.mBooleanConstraintMap k = none :=
    fun k hk => (h.unused k (Nat.le_of_eq hk.symm)).2
  -- an abstraction is one of the two new ones, or an old one
  have hcases : ∀ k a, (s.newConstraint c dr).mBooleanConstraintMap k = some a →
      (k.var = s.nVars ∧ a = .new (literal (.constraint c) k.sign)) ∨
        (k.var ≠ s.nVars ∧ s.mBooleanConstraintMap k = some a) := by
    intro k a ha
    rw [hM] at ha
    split_ifs at ha with hk
    · exact Or.inl ⟨hk, (some.inj ha).symm⟩
    · exact Or.inr ⟨hk, ha⟩
  constructor
  case abstracted =>
    refine ⟨⟨?_, ?_⟩, ⟨h.abstracted.linked.wellFormed, ?_, ?_⟩, ?_⟩
    · intro k a k' a' ha ha' hre
      rcases hcases k a ha with ⟨hk, rfl⟩ | ⟨hk, ha⟩ <;>
        rcases hcases k' a' ha' with ⟨hk', rfl⟩ | ⟨hk', ha'⟩
      · exact Lit.ext (hk.trans hk'.symm) (literal_injective hre).2
      · exact absurd hre.symm (h.no_abstraction hc ha' _)
      · exact absurd hre (h.no_abstraction hc ha _)
      · exact h.abstracted.abstracts.distinct k a k' a' ha ha' hre
    · intro k a ha
      rcases hcases k a ha with ⟨hk, rfl⟩ | ⟨hk, ha⟩
      · exact ⟨c, rfl⟩
      · exact h.abstracted.abstracts.atomic k a ha
    · intro k a it ha hit
      rcases hcases k a ha with ⟨hk, rfl⟩ | ⟨hk, ha⟩
      · cases hit
      · exact h.abstracted.linked.position k a it ha hit
    · intro e he
      obtain ⟨k, a, ha, hpos⟩ := h.abstracted.linked.element e he
      refine ⟨k, a, ?_, hpos⟩
      rw [hM, if_neg fun hk => ?_]
      · exact ha
      · rw [hfresh k hk] at ha
        cases ha
    · intro k a ha
      rcases hcases k a ha with ⟨hk, rfl⟩ | ⟨hk, ha⟩
      · exact ⟨nofun, fun _ => Or.inl rfl, rfl⟩
      · exact h.abstracted.counted k a ha
  case tracked =>
    intro k a ha
    rcases hcases k a ha with ⟨hk, rfl⟩ | ⟨hk, ha⟩
    · exact new_tracked _ _ _ _
    · exact h.tracked k a ha
  case unused =>
    intro k hk
    have hlt : s.nVars < k.var := hk
    refine ⟨(h.unused k (Nat.le_of_lt hlt)).1, ?_⟩
    rw [hM, if_neg (Nat.ne_of_gt hlt)]
    exact (h.unused k (Nat.le_of_lt hlt)).2
  case literals =>
    intro f k
    by_cases hf : ∃ b, f = literal (.constraint c) b
    · obtain ⟨b, rfl⟩ := hf
      rw [newConstraint_literals_new, some_inj]
      constructor
      · rintro rfl
        exact ⟨_, (hM _).trans (if_pos rfl), rfl⟩
      · rintro ⟨a, ha, hre⟩
        rcases hcases k a ha with ⟨hk, rfl⟩ | ⟨hk, ha⟩
        · exact Lit.ext hk.symm (literal_injective hre).2.symm
        · exact absurd hre (h.no_abstraction hc ha _)
    · rw [newConstraint_literals_old s c dr fun b hb => hf ⟨b, hb⟩, h.literals]
      constructor
      · rintro ⟨a, ha, hre⟩
        refine ⟨a, (hM k).trans ((if_neg fun hk => ?_).trans ha), hre⟩
        rw [hfresh k hk] at ha
        cases ha
      · rintro ⟨a, ha, hre⟩
        rcases hcases k a ha with ⟨hk, rfl⟩ | ⟨hk, ha⟩
        · exact absurd ⟨k.sign, hre.symm⟩ hf
        · exact ⟨a, ha, hre⟩
  case sides =>
    intro k a d ha hre
    rcases hcases k a ha with ⟨hk, rfl⟩ | ⟨hk, ha⟩
    · obtain ⟨hcd, -⟩ := literal_injective hre
      obtain rfl : c = d := by cases hcd; rfl
      exact ⟨_, (hM k.neg).trans (if_pos hk), rfl⟩
    · obtain ⟨a', ha', hre'⟩ := h.sides k a d ha hre
      exact ⟨a', ((hM k.neg).trans (if_neg hk)).trans ha', hre'⟩
  case propositional =>
    exact fun hp' => absurd (hp.symm.trans hp') Bool.false_ne_true

/-- A new constraint does not wait for anything. -/
theorem newConstraint_covered (hs : Covered equivalentToTrue s) (c : C) (dr : Bool) :
    Covered equivalentToTrue (s.newConstraint c dr) := by
  intro hsat k a ha hpos hnt
  rw [newConstraint_map] at ha
  split_ifs at ha with hk
  · obtain rfl := some.inj ha
    cases hpos
  · exact hs hsat k a ha hpos hnt

theorem value_newConstraint (h : Tracks equivalentToTrue s) (c : C) (dr b : Bool) :
    (s.newConstraint c dr).value (mkLit s.nVars b) ≠ some true := by
  have hnone : (s.newConstraint c dr).value (mkLit s.nVars b) = none :=
    Assigns.value_eq_none.mpr (h.unused (mkLit s.nVars b) (Nat.le_refl _)).1
  rw [hnone]
  exact nofun

theorem createLiteral_spec (h : Tracks equivalentToTrue s) {content : Atom B C}
    (hp : ∀ c, content = .constraint c → s.mReceivedFormulaPurelyPropositional = false)
    (negated : Bool) (origin : Formula (Atom B C)) (dr : Bool) :
    Tracks equivalentToTrue (s.createLiteral content negated origin dr).2 ∧
      ((∀ a, s.activated content negated origin = some a →
          s.mCurrentAssignmentConsistent = .sat → equivalentToTrue a.reabstraction = false →
            s.backends.model a.reabstraction = true) →
        Covered equivalentToTrue s →
          Covered equivalentToTrue (s.createLiteral content negated origin dr).2) := by
  cases content with
  | bool b =>
    simp only [State.createLiteral]
    split
    · refine ⟨h.setDecisionVar _ _, fun _ hs => ?_⟩
      cases dr <;> exact hs
    · have h' := h.newVar dr
      exact ⟨⟨h'.abstracted, h'.tracked, h'.unused, h'.literals, h'.sides, h'.propositional⟩,
        fun _ hs => hs⟩
  | constraint c =>
    simp only [State.createLiteral]
    split
    next l hl => exact h.reuseConstraint_spec hl dr
    next hnone =>
      have h' := h.newConstraint hnone (hp c rfl) dr
      have hv := h.value_newConstraint c dr
      have hcov := fun hs : Covered equivalentToTrue s => newConstraint_covered hs c dr
      split_ifs
      · have h₁ := h'.setRelevant (hv negated)
        have hv' : ((s.newConstraint c dr).setRelevant (mkLit s.nVars negated)).value
            (mkLit s.nVars negated).neg ≠ some true := by
          rw [value_setRelevant]
          exact hv (!negated)
        exact ⟨h₁.setRelevant hv', fun _ hs =>
          setRelevant_covered (setRelevant_covered (hcov hs) _) _⟩
      · have hadd := h'.addRelevantOrigin_spec (hv negated) origin
        exact ⟨hadd.1, fun _ hs => hadd.2 (hcov hs)⟩

end Tracks

/-! ## The assignment -/

namespace State

variable (s : State B C)

/-- Two states with the same assignment. -/
def SameAssignment (s' : State B C) : Prop := s'.trail = s.trail ∧ s'.assigns = s.assigns

theorem SameAssignment.trans {s s₁ s₂ : State B C} (h : s.SameAssignment s₁)
    (h' : s₁.SameAssignment s₂) : s.SameAssignment s₂ :=
  ⟨h'.1.trans h.1, h'.2.trans h.2⟩

theorem sameAssignment_setDecisionVar (v : Var) (b : Bool) :
    s.SameAssignment (s.setDecisionVar v b) := by
  cases b <;> exact ⟨rfl, rfl⟩

variable (l : Lit)

theorem sameAssignment_pushOrigin (a : Abstraction (Atom B C))
    (origin : Formula (Atom B C)) : s.SameAssignment (s.pushOrigin l a origin) := by
  rw [pushOrigin]
  split <;> exact ⟨rfl, rfl⟩

theorem sameAssignment_setRelevant : s.SameAssignment (s.setRelevant l) := by
  rw [setRelevant]
  split <;> exact ⟨rfl, rfl⟩

theorem sameAssignment_addRelevantOrigin (origin : Formula (Atom B C)) :
    s.SameAssignment (s.addRelevantOrigin l origin) := by
  rw [addRelevantOrigin]
  split
  · exact ⟨rfl, rfl⟩
  · exact sameAssignment_pushOrigin (s.setAbstraction l _) l _ origin

theorem sameAssignment_activate (a : Abstraction (Atom B C)) :
    s.SameAssignment (s.activate l a) := by
  rw [activate]
  split_ifs <;> exact ⟨rfl, rfl⟩

variable [DecidableEq B] [DecidableEq C]

theorem sameAssignment_reuseConstraint (negated : Bool) (origin : Formula (Atom B C)) (dr : Bool) :
    s.SameAssignment (s.reuseConstraint l negated origin dr) := by
  have h₀ := sameAssignment_setDecisionVar s l.var dr
  simp only [reuseConstraint]
  by_cases hskip : (origin = .const true && negated) = true
  · rw [if_pos hskip]
    exact h₀
  · rw [if_neg hskip]
    split
    · exact h₀
    · next a _ =>
      have h₁ := h₀.trans (sameAssignment_activate _ l a)
      split_ifs
      · exact h₁
      · split
        · exact h₁
        · exact h₁.trans (sameAssignment_pushOrigin _ l _ origin)

theorem sameAssignment_createLiteral (content : Atom B C) (negated : Bool)
    (origin : Formula (Atom B C)) (dr : Bool) :
    s.SameAssignment (s.createLiteral content negated origin dr).2 := by
  cases content with
  | bool b =>
    simp only [createLiteral]
    split
    · exact sameAssignment_setDecisionVar s _ dr
    · exact ⟨rfl, rfl⟩
  | constraint c =>
    simp only [createLiteral]
    split
    · exact sameAssignment_reuseConstraint s _ negated origin dr
    · have h₀ : s.SameAssignment (s.newConstraint c dr) := ⟨rfl, rfl⟩
      split_ifs
      · exact (h₀.trans (sameAssignment_setRelevant _ _)).trans (sameAssignment_setRelevant _ _)
      · exact h₀.trans (sameAssignment_addRelevantOrigin _ _ origin)

end State

end SAT

end Smtrat
