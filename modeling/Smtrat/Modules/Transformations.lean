import Smtrat.Modules.OriginBookkeeping

/-!
# Transformed formulas

A module that transforms each received formula on its own passes the result with the formula as its
origin.  Atoms of received and of passed formulas differ, origins are received formulas.
-/

namespace Smtrat.ModuleInput

open PropFormula List

universe u v

variable {A : Type u} {B : Type v}

/-- A received formula with what has been made of it. -/
abbrev Transformation (A : Type u) (B : Type v) := Formula A × Formula B

/-- The conjuncts of a transformed formula have the formula as their origin. -/
def originsOf (pairs : List (Transformation A B)) : OriginRelation (A ⊕ B) :=
  fun g o => ∃ p ∈ pairs, o = p.1.map .inl ∧ g ∈ conjuncts (p.2.map .inr)

/-- Exactly the transformed formulas are passed. -/
structure Passes (m : ModuleInput (A ⊕ B)) (pairs : List (Transformation A B)) : Prop where
  represents : m.Represents (originsOf pairs)
  unshared : ∀ g, m.Unshared g

theorem Passes.empty : (ModuleInput.empty : ModuleInput (A ⊕ B)).Passes [] where
  represents := {
    wellFormed := empty_wellFormed
    origins := nofun
    stored := fun f => by simp [ModuleInput.empty, contains, originsOf] }
  unshared := nofun

theorem Passes.mem_formulas {m : ModuleInput (A ⊕ B)} {pairs : List (Transformation A B)}
    (h : m.Passes pairs) {g : Formula (A ⊕ B)} :
    g ∈ m.formulas ↔ ∃ p ∈ pairs, g ∈ conjuncts (p.2.map .inr) := by
  rw [formulas, mem_map, ← h.represents.wellFormed.contains_iff, h.represents.stored]
  constructor
  · rintro ⟨_, p, hp, -, hg⟩
    exact ⟨p, hp, hg⟩
  · rintro ⟨p, hp, hg⟩
    exact ⟨_, p, hp, rfl, hg⟩

/-- The conjuncts of a transformed formula hold together if and only if it does. -/
theorem forall_conjuncts_map_inr {β : B → Bool} {h : Formula B} :
    (∀ g ∈ conjuncts (h.map Sum.inr : Formula (A ⊕ B)),
      g.eval (Sum.elim (fun _ => false) β) = true) ↔ h.eval β = true := by
  rw [forall_conjuncts_eval, Formula.eval_map]
  rfl

/-- The passed formulas hold if and only if the transformed ones do. -/
theorem Passes.forall_eval {m : ModuleInput (A ⊕ B)} {pairs : List (Transformation A B)}
    (h : m.Passes pairs) (β : B → Bool) :
    (∀ g ∈ m.formulas, g.eval (Sum.elim (fun _ => false) β) = true) ↔
      ∀ p ∈ pairs, p.2.eval β = true := by
  constructor
  · intro hall p hp
    exact forall_conjuncts_map_inr.mp fun g hg => hall g (h.mem_formulas.mpr ⟨p, hp, hg⟩)
  · intro hall g hg
    obtain ⟨p, hp, hg⟩ := h.mem_formulas.mp hg
    exact forall_conjuncts_map_inr.mpr (hall p hp) g hg

/-! ## Additions and removals -/

theorem giveAll_originsOf (pairs : List (Transformation A B)) (p : Transformation A B)
    (g o : Formula (A ⊕ B)) :
    (originsOf pairs).giveAll (conjuncts (p.2.map .inr)) [p.1.map .inl] g o ↔
      originsOf (p :: pairs) g o := by
  simp only [OriginRelation.giveAll, originsOf, mem_singleton, exists_mem_cons_iff]
  rw [or_comm, and_comm (a := o = p.1.map .inl)]

section DecidableEq

variable [DecidableEq A] [DecidableEq B] {m : ModuleInput (A ⊕ B)}
  {pairs : List (Transformation A B)}

theorem Passes.add (h : m.Passes pairs) (p : Transformation A B) :
    (add (.single (p.1.map .inl)) (p.2.map .inr) true m).2.Passes (p :: pairs) := by
  rw [add_snd_true]
  exact ⟨(h.represents.addElements_single (fun g _ => h.unshared g) _).congr
      (giveAll_originsOf pairs p),
    h.represents.unshared_addElements h.unshared _⟩

theorem hasPart_map_inl (f g : Formula A) :
    hasPart (f.map .inl : Formula (A ⊕ B)) (g.map .inl) = hasPart f g := by
  have hinj : Function.Injective (Sum.inl : A → A ⊕ B) := fun _ _ => Sum.inl.inj
  simp [hasPart, (Formula.map_injective hinj).eq_iff, Formula.contains_map hinj,
    Formula.isConjunction_map]

theorem remove_originsOf {f : Formula A} (hpart : ∀ p ∈ pairs, p.1 ≠ f → hasPart p.1 f = false)
    (g o : Formula (A ⊕ B)) : (originsOf pairs).remove (f.map .inl) g o ↔
      originsOf (pairs.filter fun p => p.1 ≠ f) g o := by
  have hkept : ∀ p ∈ pairs, hasPart p.1 f = false ↔ p.1 ≠ f := by
    refine fun p hp => ⟨?_, hpart p hp⟩
    rintro hparts rfl
    simp [hasPart] at hparts
  constructor
  · rintro ⟨⟨p, hp, rfl, hg⟩, hparts⟩
    rw [hasPart_map_inl, hkept p hp] at hparts
    exact ⟨p, mem_filter.mpr ⟨hp, by simpa using hparts⟩, rfl, hg⟩
  · rintro ⟨p, hp, rfl, hg⟩
    obtain ⟨hp, hne⟩ := mem_filter.mp hp
    refine ⟨⟨p, hp, rfl, hg⟩, ?_⟩
    rw [hasPart_map_inl, hkept p hp]
    simpa using hne

/-- A removal is right if no other received formula is a conjunction with the formula. -/
theorem Passes.remove (h : m.Passes pairs) {f : Formula A}
    (hpart : ∀ p ∈ pairs, p.1 ≠ f → hasPart p.1 f = false) :
    (m.removeReceived (f.map .inl)).Passes (pairs.filter fun p => p.1 ≠ f) :=
  ⟨(h.represents.removeReceived _).congr (remove_originsOf hpart),
    fun g => h.represents.unshared_removeReceived _ (h.unshared g)⟩

omit [DecidableEq B] in
/-- The received formulas after a removal. -/
theorem map_filter_ne {received : List (Formula A)} (hrec : pairs.map (·.1) = received)
    (hnodup : received.Nodup) (f : Formula A) :
    (pairs.filter fun p => p.1 ≠ f).map (·.1) = received.erase f := by
  rw [hnodup.erase_eq_filter, ← hrec, filter_map]
  refine congrArg _ (filter_congr fun p _ => ?_)
  rw [Bool.eq_iff_iff]
  simp

end DecidableEq

end Smtrat.ModuleInput
