import Smtrat.Modules.OriginBookkeeping
import Smtrat.SAT.Abstraction

/-!
# Adapting the passed formula

An abstraction is listed if its constraint will be in the passed formula after the next adaptation.
Adapting makes the changes that are waiting and keeps which abstractions are listed.
-/

namespace Smtrat

open PropFormula Function Option

universe u v

namespace SAT

variable {B : Type u} {C : Type v}

/-! ## Erasing and adding one constraint -/

section ModuleInput

variable [DecidableEq B] [DecidableEq C] {m : ModuleInput (Atom B C)}

theorem add_literal (given : ModuleInput.Given (Atom B C)) (content : Atom B C) (negated : Bool) :
    m.add given (literal content negated) true = m.addElement given (literal content negated) := by
  cases negated <;> simp [literal, ModuleInput.add]

variable {e : FormulaWithOrigins (Atom B C)} {os : Option Nat}

/-- A formula with the origins that are removed is erased. -/
theorem removeOrigins_eq (hm : m.WellFormed)
    (he : e ∈ m.elements) (hos : e.mOrigins = none ∨ e.mOrigins = os) :
    State.removeOrigins m e.position os = m.erase e.position ∨
      State.removeOrigins m e.position os = (m.setOrigins e.position none).erase e.position := by
  have hp := hm.pOrigins_eq he
  cases h : e.mOrigins with
  | none => exact Or.inl (by simp [State.removeOrigins, ModuleInput.removeOrigins, hp, h])
  | some v =>
    have hv : os = some v := by simpa [h, eq_comm] using hos
    exact Or.inr (by simp [State.removeOrigins, ModuleInput.removeOrigins, hp, h, hv])

theorem mem_removeOrigins (hm : m.WellFormed)
    (he : e ∈ m.elements) (hos : e.mOrigins = none ∨ e.mOrigins = os)
    (e' : FormulaWithOrigins (Atom B C)) :
    e' ∈ (State.removeOrigins m e.position os).elements ↔
      e' ∈ m.elements ∧ e'.position ≠ e.position := by
  rcases removeOrigins_eq hm he hos with h | h <;> rw [h]
  · exact hm.mem_erase he rfl
  · have hmem : { e with mOrigins := none } ∈ (m.setOrigins e.position none).elements :=
      ModuleInput.WellFormed.mem_setOrigins.mpr ⟨e, he, by simp⟩
    rw [(hm.setOrigins _ _).mem_erase hmem rfl, ModuleInput.WellFormed.mem_setOrigins]
    constructor
    · rintro ⟨⟨e₁, he₁, rfl⟩, hne⟩
      split_ifs at hne ⊢ with h₁
      · exact absurd h₁ hne
      · exact ⟨he₁, h₁⟩
    · rintro ⟨he', hne⟩
      exact ⟨⟨e', he', by rw [if_neg hne]⟩, hne⟩

theorem removeOrigins_wellFormed (hm : m.WellFormed)
    (he : e ∈ m.elements) (hos : e.mOrigins = none ∨ e.mOrigins = os) :
    (State.removeOrigins m e.position os).WellFormed := by
  rcases removeOrigins_eq hm he hos with h | h <;> rw [h]
  · exact hm.erase he rfl
  · have hmem : { e with mOrigins := none } ∈ (m.setOrigins e.position none).elements :=
      ModuleInput.WellFormed.mem_setOrigins.mpr ⟨e, he, by simp⟩
    exact (hm.setOrigins _ _).erase hmem rfl

end ModuleInput

/-! ## Abstractions and their places in the passed formula -/

/-- The abstractions of the literals. -/
abbrev AbstractionMap (B : Type u) (C : Type v) := Lit → Option (Abstraction (Atom B C))

/-- Different literals abstract different constraints. -/
structure Abstracts (M : AbstractionMap B C) : Prop where
  distinct : ∀ l a l' a', M l = some a → M l' = some a' → a.reabstraction = a'.reabstraction → l = l'
  atomic : ∀ l a, M l = some a → ∃ c, a.reabstraction = literal (.constraint c) l.sign

variable {l : Lit} {a a' : Abstraction (Atom B C)}

theorem Abstracts.update {M : AbstractionMap B C} (h : Abstracts M) (ha : M l = some a)
    (hre : a'.reabstraction = a.reabstraction) : Abstracts (Function.update M l (some a')) := by
  have key : ∀ k b, Function.update M l (some a') k = some b →
      ∃ b', M k = some b' ∧ b'.reabstraction = b.reabstraction := by
    intro k b hb
    by_cases hk : k = l
    · subst hk
      obtain rfl : a' = b := by simpa using hb
      exact ⟨a, ha, hre.symm⟩
    · rw [update_of_ne hk] at hb
      exact ⟨b, hb, rfl⟩
  constructor
  · intro k b k' b' hb hb' heq
    obtain ⟨d, hd, hdb⟩ := key k b hb
    obtain ⟨d', hd', hdb'⟩ := key k' b' hb'
    exact h.distinct k d k' d' hd hd' (hdb.trans (heq.trans hdb'.symm))
  · intro k b hb
    obtain ⟨d, hd, hdb⟩ := key k b hb
    rw [← hdb]
    exact h.atomic k d hd

/-- The passed formula contains the constraints of the abstractions that have a position in it. -/
structure Linked (m : ModuleInput (Atom B C)) (M : AbstractionMap B C) : Prop where
  wellFormed : m.WellFormed
  position : ∀ l a it, M l = some a → a.position = some it → ∃ e ∈ m.elements,
    e.position = it ∧ e.mFormula = a.reabstraction ∧ (e.mOrigins = none ∨ e.mOrigins = a.origins)
  element : ∀ e ∈ m.elements, ∃ l a, M l = some a ∧ a.position = some e.position

namespace Linked

variable {m : ModuleInput (Atom B C)} {M : AbstractionMap B C} (h : Linked m M)

include h

theorem find_eq_none (hM : Abstracts M) (ha : M l = some a)
    (hp : a.position = none) : m.find a.reabstraction = none := by
  cases hf : m.find a.reabstraction with
  | none => rfl
  | some it =>
    obtain ⟨e, he, hef, -⟩ := (h.wellFormed.find_iff _ _).mp hf
    obtain ⟨l', a', ha', hp'⟩ := h.element e he
    obtain ⟨e', he', hpos, hform, -⟩ := h.position l' a' _ ha' hp'
    obtain rfl := h.wellFormed.eq_of_position he' he hpos
    obtain rfl := hM.distinct l a l' a' ha ha' (hef.symm.trans hform)
    obtain rfl : a = a' := some.inj (ha.symm.trans ha')
    rw [hp] at hp'
    cases hp'

/-- The abstraction at a literal is replaced by one for the same constraint, at the same place. -/
theorem update (ha : M l = some a) (a' : Abstraction (Atom B C))
    (hre : a'.reabstraction = a.reabstraction) (hpos : a'.position = a.position)
    (hor : ∀ e ∈ m.elements, a.position = some e.position →
      e.mOrigins = none ∨ e.mOrigins = a.origins → e.mOrigins = none ∨ e.mOrigins = a'.origins) :
    Linked m (Function.update M l (some a')) where
  wellFormed := h.wellFormed
  position := by
    intro k b it hb hit
    by_cases hk : k = l
    · subst hk
      obtain rfl : a' = b := by simpa using hb
      rw [hpos] at hit
      obtain ⟨e, he, rfl, hf, ho⟩ := h.position k a it ha hit
      exact ⟨e, he, rfl, hf.trans hre.symm, hor e he hit ho⟩
    · rw [update_of_ne hk] at hb
      exact h.position k b it hb hit
  element := by
    intro e he
    obtain ⟨k, b, hb, hp⟩ := h.element e he
    by_cases hk : k = l
    · subst hk
      obtain rfl : a = b := some.inj (ha.symm.trans hb)
      exact ⟨k, a', by simp, hpos.trans hp⟩
    · exact ⟨k, b, by rw [update_of_ne hk, hb], hp⟩

variable [DecidableEq B] [DecidableEq C]

/-- A constraint is erased from the passed formula. -/
theorem withdraw (hM : Abstracts M) (ha : M l = some a) {it : Nat} (hit : a.position = some it) :
    Linked (State.removeOrigins m it a.origins)
      (Function.update M l (some { a with position := none })) := by
  obtain ⟨e, he, rfl, hf, hor⟩ := h.position l a it ha hit
  have hmem := mem_removeOrigins h.wellFormed he hor
  refine ⟨removeOrigins_wellFormed h.wellFormed he hor, ?_, ?_⟩
  · intro k b it hb hbit
    have hk : k ≠ l := by
      rintro rfl
      obtain rfl := by simpa using hb
      cases hbit
    rw [update_of_ne hk] at hb
    obtain ⟨e', he', hp', hf', hor'⟩ := h.position k b it hb hbit
    refine ⟨e', (hmem e').mpr ⟨he', fun hp => hk ?_⟩, hp', hf', hor'⟩
    obtain rfl := h.wellFormed.eq_of_position he' he hp
    exact hM.distinct k b l a hb ha (hf'.symm.trans hf)
  · intro e' he'
    obtain ⟨he', hne⟩ := (hmem e').mp he'
    obtain ⟨k, b, hb, hp⟩ := h.element e' he'
    have hk : k ≠ l := by
      rintro rfl
      obtain rfl : a = b := some.inj (ha.symm.trans hb)
      exact hne (some.inj (hp.symm.trans hit))
    exact ⟨k, b, by rw [update_of_ne hk, hb], hp⟩

/-- A constraint is added to the passed formula. -/
theorem pass (hM : Abstracts M) (ha : M l = some a) (hp : a.position = none) :
    m.add (.shared a.origins) a.reabstraction true
        = ((some m.nextPosition, true), m.emplaceBack a.reabstraction a.origins) ∧
      Linked (m.emplaceBack a.reabstraction a.origins)
        (Function.update M l (some { a with position := some m.nextPosition })) := by
  have hf := h.find_eq_none hM ha hp
  constructor
  · obtain ⟨c, hc⟩ := hM.atomic l a ha
    rw [hc] at hf ⊢
    rw [add_literal, ModuleInput.addElement_shared_of_none hf]
  · refine ⟨h.wellFormed.emplaceBack hf _, ?_, ?_⟩
    · intro k b it hb hit
      by_cases hk : k = l
      · subst hk
        obtain rfl := by simpa using hb
        obtain rfl := some.inj hit
        exact ⟨_, ModuleInput.WellFormed.mem_emplaceBack.mpr (Or.inr rfl), rfl, rfl, Or.inr rfl⟩
      · rw [update_of_ne hk] at hb
        obtain ⟨e, he, h'⟩ := h.position k b it hb hit
        exact ⟨e, ModuleInput.WellFormed.mem_emplaceBack.mpr (Or.inl he), h'⟩
    · intro e he
      rcases ModuleInput.WellFormed.mem_emplaceBack.mp he with he | rfl
      · obtain ⟨k, b, hb, hbp⟩ := h.element e he
        have hk : k ≠ l := by
          rintro rfl
          obtain rfl : a = b := some.inj (ha.symm.trans hb)
          rw [hp] at hbp
          cases hbp
        exact ⟨k, b, by rw [update_of_ne hk, hb], hbp⟩
      · exact ⟨l, _, update_self _ _ _, rfl⟩

end Linked

/-! ## Counting -/

namespace Abstraction

variable {A : Type u}

/-- The constraint is in the passed formula after the next adaptation. -/
def Listed (a : Abstraction A) : Prop :=
  if a.position.isSome then a.updateInfo = 0 else a.updateInfo = 1

/-- At most one change is waiting. -/
structure Counted (a : Abstraction A) : Prop where
  passed : a.position.isSome → a.updateInfo = 0 ∨ a.updateInfo = -1
  absent : a.position = none → a.updateInfo = 0 ∨ a.updateInfo = 1
  updatedReabstraction : a.updatedReabstraction = false

/-- What an adaptation does to an abstraction. -/
structure Adapted (a a' : Abstraction A) : Prop where
  reabstraction : a'.reabstraction = a.reabstraction
  consistencyRelevant : a'.consistencyRelevant = a.consistencyRelevant
  counted : a'.Counted
  listed : a'.Listed ↔ a.Listed
  updateInfo : a.updateInfo = 0 → a'.updateInfo = 0

theorem Adapted.refl {a : Abstraction A} (h : a.Counted) : a.Adapted a :=
  ⟨rfl, rfl, h, Iff.rfl, id⟩

theorem Adapted.trans {a b c : Abstraction A} (h : a.Adapted b) (h' : b.Adapted c) : a.Adapted c :=
  ⟨h'.reabstraction.trans h.reabstraction, h'.consistencyRelevant.trans h.consistencyRelevant,
    h'.counted, h'.listed.trans h.listed, h'.updateInfo ∘ h.updateInfo⟩

theorem listed_of_updateInfo {a : Abstraction A} (h : a.updateInfo = 0) :
    a.Listed ↔ a.position.isSome := by
  cases hp : a.position.isSome <;> simp [Listed, hp, h]

end Abstraction

/-! ## Adaptations -/

/-- The abstractions of a state, with what the passed formula holds of them. -/
structure Abstracted (m : ModuleInput (Atom B C)) (M : AbstractionMap B C) : Prop where
  abstracts : Abstracts M
  linked : Linked m M
  counted : ∀ l a, M l = some a → a.Counted

theorem Abstracted.update {m : ModuleInput (Atom B C)} {M : AbstractionMap B C}
    (h : Abstracted m M) (ha : M l = some a)
    (hre : a'.reabstraction = a.reabstraction) (hpos : a'.position = a.position)
    (hor : ∀ v, a.origins = some v → a'.origins = some v) (hc : a'.Counted) :
    Abstracted m (Function.update M l (some a')) where
  abstracts := h.abstracts.update ha hre
  linked := by
    refine h.linked.update ha a' hre hpos fun e _ _ ho => ho.elim Or.inl fun ho => ?_
    cases hv : a.origins with
    | none => exact Or.inl (ho.trans hv)
    | some v => exact Or.inr ((ho.trans hv).trans (hor v hv).symm)
  counted := by
    intro k b hb
    by_cases hk : k = l
    · subst hk
      obtain rfl : a' = b := by simpa using hb
      exact hc
    · rw [update_of_ne hk] at hb
      exact h.counted k b hb

namespace State

variable {s : State B C}

theorem setAbstraction_self
    (ha : s.mBooleanConstraintMap l = some a) : s.setAbstraction l a = s := by
  rw [setAbstraction, ← ha, update_eq_self]

/-- What an adaptation changes. -/
structure Adapts (s s' : State B C) : Prop where
  frame : ∃ m M b, s' = { s with
    passedFormula := m, mBooleanConstraintMap := M, mChangedPassedFormula := b }
  abstracted : Abstracted s'.passedFormula s'.mBooleanConstraintMap
  adapted : ∀ l, Option.Rel Abstraction.Adapted (s.mBooleanConstraintMap l)
    (s'.mBooleanConstraintMap l)

theorem Adapts.refl (h : Abstracted s.passedFormula s.mBooleanConstraintMap) :
    s.Adapts s := by
  refine ⟨⟨_, _, _, rfl⟩, h, fun l => ?_⟩
  cases ha : s.mBooleanConstraintMap l with
  | none => exact .none
  | some a => exact .some (.refl (h.counted l a ha))

theorem option_rel_trans {A : Type u} {a b c : Option (Abstraction A)}
    (h : Option.Rel Abstraction.Adapted a b) (h' : Option.Rel Abstraction.Adapted b c) :
    Option.Rel Abstraction.Adapted a c := by
  cases h with
  | none => exact h'
  | some ha =>
    cases h' with
    | some hb => exact .some (ha.trans hb)

theorem Adapts.trans {s₁ s₂ : State B C} (h : s.Adapts s₁) (h' : s₁.Adapts s₂) : s.Adapts s₂ := by
  obtain ⟨⟨m, M, b, rfl⟩, -, hM⟩ := h
  obtain ⟨⟨m', M', b', rfl⟩, hab, hM'⟩ := h'
  refine ⟨⟨m', M', b', rfl⟩, hab, fun l => ?_⟩
  exact option_rel_trans (hM l) (hM' l)

theorem Adapts.updateInfo {s' : State B C} (h : s.Adapts s')
    (hs : ∀ a, s.mBooleanConstraintMap l = some a → a.updateInfo = 0) :
    ∀ a, s'.mBooleanConstraintMap l = some a → a.updateInfo = 0 := by
  intro a' ha'
  have := h.adapted l
  rw [ha'] at this
  cases hs' : s.mBooleanConstraintMap l with
  | none => rw [hs'] at this; cases this
  | some a =>
    rw [hs'] at this
    cases this with
    | some had => exact had.updateInfo (hs a hs')

variable [DecidableEq B] [DecidableEq C]

/-- The three ways an abstraction is adapted: nothing is waiting, its constraint is erased, or it is
added. -/
theorem adaptAbstraction_cases (h : Abstracted s.passedFormula s.mBooleanConstraintMap)
    (ha : s.mBooleanConstraintMap l = some a) :
    (a.updateInfo = 0 ∧ s.adaptAbstraction l = s) ∨
    (a.updateInfo = -1 ∧ ∃ it, a.position = some it ∧
      s.adaptAbstraction l = { s with
        passedFormula := removeOrigins s.passedFormula it a.origins
        mChangedPassedFormula := true
        mBooleanConstraintMap := Function.update s.mBooleanConstraintMap l
          (some { a with position := none, updateInfo := 0 }) }) ∨
    (a.updateInfo = 1 ∧ a.position = none ∧
      s.adaptAbstraction l = { s with
        passedFormula := s.passedFormula.emplaceBack a.reabstraction a.origins
        mChangedPassedFormula := true
        mBooleanConstraintMap := Function.update s.mBooleanConstraintMap l
          (some { a with position := some s.passedFormula.nextPosition, updateInfo := 0 }) }) := by
  have hc := h.counted l a ha
  have hu := hc.updatedReabstraction
  have hsame : a.updateInfo = 0 → s.adaptAbstraction l = s := fun h0 => by
    have hself : { a with updateInfo := 0, updatedReabstraction := false } = a := by rw [← h0, ← hu]
    simp [adaptAbstraction, ha, withdraw, pass, hu, h0, hself, setAbstraction_self ha]
  cases hp : a.position with
  | none =>
    rcases hc.absent hp with h0 | h1
    · exact Or.inl ⟨h0, hsame h0⟩
    · refine Or.inr (Or.inr ⟨h1, rfl, ?_⟩)
      have hadd := (h.linked.pass h.abstracts ha hp).1
      simp [adaptAbstraction, ha, withdraw, pass, hu, h1, setAbstraction, hadd]
  | some it =>
    rcases hc.passed (by simp [hp]) with h0 | h1
    · exact Or.inl ⟨h0, hsame h0⟩
    · refine Or.inr (Or.inl ⟨h1, it, rfl, ?_⟩)
      simp [adaptAbstraction, ha, withdraw, pass, hu, h1, setAbstraction, hp]

omit [DecidableEq B] [DecidableEq C] in
/-- One abstraction is replaced, and the passed formula changed accordingly. -/
theorem adapts_update (h : Abstracted s.passedFormula s.mBooleanConstraintMap)
    {a₁ : Abstraction (Atom B C)} (ha : s.mBooleanConstraintMap l = some a)
    {m : ModuleInput (Atom B C)}
    (hm : Linked m (Function.update s.mBooleanConstraintMap l (some a₁)))
    (ha' : a' = a₁.setUpdateInfo 0) (had : a.Adapted a') :
    s.Adapts { s with
      passedFormula := m
      mChangedPassedFormula := true
      mBooleanConstraintMap := Function.update s.mBooleanConstraintMap l (some a') } := by
  subst ha'
  refine ⟨⟨_, _, _, rfl⟩, ⟨h.abstracts.update ha had.reabstraction, ?_, ?_⟩, fun k => ?_⟩
  · have hself := update_self l (some a₁) s.mBooleanConstraintMap
    have hupd := hm.update hself (a₁.setUpdateInfo 0) rfl rfl fun _ _ _ ho => ho
    rwa [update_idem] at hupd
  · intro k b hb
    dsimp only at hb
    by_cases hk : k = l
    · subst hk
      obtain rfl := by simpa using hb
      exact had.counted
    · rw [update_of_ne hk] at hb
      exact h.counted k b hb
  · by_cases hk : k = l
    · subst hk
      simpa [ha] using had
    · simp only [update_of_ne hk]
      exact (Adapts.refl h).adapted k

theorem adaptAbstraction_adapts (h : Abstracted s.passedFormula s.mBooleanConstraintMap) (l : Lit) :
    s.Adapts (s.adaptAbstraction l) ∧
      ∀ a, (s.adaptAbstraction l).mBooleanConstraintMap l = some a → a.updateInfo = 0 := by
  cases ha : s.mBooleanConstraintMap l with
  | none =>
    have hs : s.adaptAbstraction l = s := by simp [adaptAbstraction, ha]
    rw [hs]
    exact ⟨.refl h, by simp [ha]⟩
  | some a =>
    have hc := h.counted l a ha
    rcases adaptAbstraction_cases h ha with ⟨h0, hs⟩ | ⟨h1, it, hit, hs⟩ | ⟨h1, hp, hs⟩
    · rw [hs]
      exact ⟨.refl h, by rw [ha]; rintro b ⟨⟩; exact h0⟩
    · have had : a.Adapted { a with position := none, updateInfo := 0 } :=
        ⟨rfl, rfl, ⟨nofun, fun _ => Or.inl rfl, hc.updatedReabstraction⟩,
          by simp [Abstraction.Listed, hit, h1], fun h0 => absurd (h1.symm.trans h0) (by decide)⟩
      rw [hs]
      refine ⟨adapts_update h ha (h.linked.withdraw h.abstracts ha hit) rfl had, ?_⟩
      intro b hb
      obtain rfl := by simpa using hb
      rfl
    · have had : a.Adapted { a with position := some s.passedFormula.nextPosition, updateInfo := 0 } :=
        ⟨rfl, rfl, ⟨fun _ => Or.inl rfl, nofun, hc.updatedReabstraction⟩,
          by simp [Abstraction.Listed, hp, h1], fun h0 => absurd (h1.symm.trans h0) (by decide)⟩
      rw [hs]
      refine ⟨adapts_update h ha (h.linked.pass h.abstracts ha hp).2 rfl had, ?_⟩
      intro b hb
      obtain rfl := by simpa using hb
      rfl

theorem adaptVariable_adapts (h : Abstracted s.passedFormula s.mBooleanConstraintMap) (v : Var) :
    s.Adapts (s.adaptVariable v) ∧ ∀ l a, l.var = v →
      (s.adaptVariable v).mBooleanConstraintMap l = some a → a.updateInfo = 0 := by
  obtain ⟨h₁, hu₁⟩ := adaptAbstraction_adapts h (mkLit v false)
  obtain ⟨h₂, hu₂⟩ := adaptAbstraction_adapts h₁.abstracted (mkLit v true)
  refine ⟨h₁.trans h₂, ?_⟩
  rintro ⟨w, b⟩ a rfl ha
  cases b with
  | true => exact hu₂ a ha
  | false => exact h₂.updateInfo hu₁ a ha

theorem foldl_adaptVariable
    (h : Abstracted s.passedFormula s.mBooleanConstraintMap) (vs : List Var) :
    s.Adapts (vs.foldl adaptVariable s) ∧ ∀ l a, l.var ∈ vs →
      (vs.foldl adaptVariable s).mBooleanConstraintMap l = some a → a.updateInfo = 0 := by
  induction vs generalizing s with
  | nil => exact ⟨.refl h, nofun⟩
  | cons v vs ih =>
    obtain ⟨h₁, hu₁⟩ := adaptVariable_adapts h v
    obtain ⟨h₂, hu₂⟩ := ih h₁.abstracted
    refine ⟨h₁.trans h₂, fun l a hl ha => ?_⟩
    rcases List.mem_cons.mp hl with hv | hl
    · exact h₂.updateInfo (fun b hb => hu₁ l b hv hb) a ha
    · exact hu₂ l a hl ha

end State

end SAT

end Smtrat
