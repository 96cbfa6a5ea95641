import Smtrat.Curry.Soundness
import Smtrat.Modules.Transformations

/-!
# Runs

The passed formulas are as satisfiable as the received ones as long as equalities with applications
are added with positive polarity only: the definitions stand next to the equality that uses them,
and where the formula may hold without the equality nothing makes them hold.
-/

namespace Smtrat.Curry

open PropFormula ModuleInput Stores List

universe u

variable {Var F S : Type u} {sig : Signature Var F S} {pool : FormulaPool CurryEquality}

/-! ## The invariant -/

namespace State

/-- What the passed formulas of a state come from. -/
structure Stands (sig : Signature Var F S) (pool : FormulaPool CurryEquality) (s : State Var F)
    (pairs : List (Transformation (UEquality Var F) CurryEquality)) : Prop where
  received : pairs.map (·.1) = s.received
  nodup : s.received.Nodup
  stores : s.module.stores.Inv sig
  transformed : ∀ p ∈ pairs, Transformed sig pool s.module.stores p.1 p.2
  onlyPositive : ∀ f ∈ s.received, f.OnlyPositive UEquality.HasApplication true
  passes : s.module.mpPassedFormula.Passes pairs

variable {s : State Var F} {pairs : List (Transformation (UEquality Var F) CurryEquality)}

theorem Stands.initial : (State.initial : State Var F).Stands sig pool [] where
  received := rfl
  nodup := nodup_nil
  stores := .initial
  transformed := nofun
  onlyPositive := nofun
  passes := .empty

/-! ## Satisfiability -/

theorem Stands.forall_received (h : s.Stands sig pool pairs) {α : UEquality Var F → Bool} :
    (∀ f ∈ s.received, f.eval α = true) ↔ ∀ p ∈ pairs, p.1.eval α = true := by
  rw [← h.received, forall_mem_map]

open Classical in
/-- The passed formulas are satisfiable if and only if the received ones are. -/
theorem Stands.satisfiable_iff (h : s.Stands sig pool pairs) :
    s.PassedSatisfiable ↔ s.ReceivedSatisfiable sig := by
  constructor
  · rintro ⟨M, β, hβ, hpass⟩
    let α : UEquality Var F → Bool := fun e =>
      decide ((interpretation sig M s.module.stores).Holds e)
    have hα : ∀ e, α e = true ↔ (interpretation sig M s.module.stores).Holds e := fun e =>
      decide_eq_true_iff
    refine ⟨interpretation sig M s.module.stores, α, hα, h.forall_received.mpr fun p hp => ?_⟩
    have hpos := h.onlyPositive p.1 (h.received ▸ mem_map_of_mem hp)
    exact (h.transformed p hp).eval_interpretation hpos hα hβ
      ((h.passes.forall_eval β).mp hpass p hp)
  · rintro ⟨I, α, hα, hrec⟩
    obtain ⟨value, hrealizes⟩ := h.stores.realizable I
    let β : CurryEquality → Bool := fun c => decide ((curryModel I value).Holds c)
    have hβ : ∀ c, β c = true ↔ (curryModel I value).Holds c := fun c => decide_eq_true_iff
    refine ⟨curryModel I value, β, hβ, (h.passes.forall_eval β).mpr fun p hp => ?_⟩
    rw [(h.transformed p hp).eval_eq hrealizes hα hβ]
    exact h.forall_received.mp hrec p hp

/-! ## Steps -/

variable [DecidableEq Var] [DecidableEq F]

theorem Stands.addCore (h : s.Stands sig pool pairs) {f : Formula (UEquality Var F)}
    (hf : f ∉ s.received) (hwf : ∀ e, f.Mentions e → e.WellFormed sig)
    (hpos : f.OnlyPositive UEquality.HasApplication true) :
    Stands sig pool ⟨s.module.addCore pool f, f :: s.received⟩
      ((f, (CurryModule.transform pool f s.module.stores).1) :: pairs) := by
  obtain ⟨hinv, hext, htransformed⟩ := transform_spec pool h.stores hwf
  constructor
  case received => rw [map_cons, h.received]
  case nodup => exact nodup_cons.mpr ⟨hf, h.nodup⟩
  case stores => exact hinv
  case transformed =>
    intro p hp
    rcases mem_cons.mp hp with rfl | hp
    · exact htransformed
    · exact (h.transformed p hp).mono hext
  case onlyPositive =>
    intro g hg
    rcases mem_cons.mp hg with rfl | hg
    · exact hpos
    · exact h.onlyPositive g hg
  case passes => exact h.passes.add (f, _)

theorem Stands.remove (h : s.Stands sig pool pairs) {f : Formula (UEquality Var F)}
    (hpart : ∀ g ∈ s.received, g ≠ f → hasPart g f = false) :
    Stands sig pool ⟨s.module.remove f, s.received.erase f⟩ (pairs.filter fun p => p.1 ≠ f) := by
  have hpairs : ∀ p ∈ pairs, p.1 ∈ s.received := fun p hp =>
    h.received ▸ mem_map_of_mem hp
  constructor
  case received => exact map_filter_ne h.received h.nodup f
  case nodup => exact h.nodup.erase f
  case stores => exact h.stores
  case transformed => exact fun p hp => h.transformed p (mem_of_mem_filter hp)
  case onlyPositive => exact fun g hg => h.onlyPositive g (mem_of_mem_erase hg)
  case passes => exact h.passes.remove fun p hp => hpart p.1 (hpairs p hp)

/-! ## Careful runs -/

/-- Equalities with applications occur with positive polarity only, and no other received formula
has a formula as a conjunct that is removed. -/
def Careful (sig : Signature Var F S) (s : State Var F) : Action Var F → Prop
  | .add f => (f ∉ s.received ∧ ∀ e, f.Mentions e → e.WellFormed sig) ∧
      f.OnlyPositive UEquality.HasApplication true
  | .remove f => f ∈ s.received ∧ ∀ g ∈ s.received, g ≠ f → hasPart g f = false

/-- In all runs of actions that meet a condition, the passed formulas are satisfiable if and only
if the received ones are. -/
def Meets (sig : Signature Var F S) (pool : FormulaPool CurryEquality)
    (allowed : State Var F → Action Var F → Prop) [∀ s a, Decidable (allowed s a)] : Prop :=
  ∀ as s, Run.run (Run.guarded allowed (step pool)) initial as = some s →
    (s.PassedSatisfiable ↔ s.ReceivedSatisfiable sig)

theorem Stands.step (h : s.Stands sig pool pairs) {a : Action Var F} (ha : Careful sig s a)
    {s' : State Var F} (hstep : step pool s a = some s') : ∃ pairs', s'.Stands sig pool pairs' := by
  cases a with
  | add f =>
    obtain rfl := Option.some.inj hstep
    exact ⟨_, h.addCore ha.1.1 ha.1.2 ha.2⟩
  | remove f =>
    obtain rfl := Option.some.inj hstep
    exact ⟨_, h.remove ha.2⟩

variable (sig pool)

open Classical in
/-- The passed formulas are equisatisfiable in all runs of careful actions. -/
theorem equisatisfiable_careful : Meets sig pool (Careful sig) := by
  intro as s hrun
  obtain ⟨pairs, hstands⟩ : ∃ pairs, s.Stands sig pool pairs := by
    refine Run.guarded_invariant (P := fun s => ∃ pairs, Stands sig pool s pairs)
      (fun s a s' hs ha hstep => ?_) ⟨[], .initial⟩ hrun
    obtain ⟨pairs, hstands⟩ := hs
    exact hstands.step ha hstep
  exact hstands.satisfiable_iff

end State

/-! ## An equality under a negation -/

section Examples

open State

def signature : Signature ℕ ℕ Unit := ⟨fun _ => (), fun _ => (), fun _ => 1⟩

def applied : ℕ → UTerm ℕ ℕ := fun x => .inst 0 [.var x]

/-- The variables are equal, but a function differs on them. -/
def negated : Formula (UEquality ℕ ℕ) :=
  .app .and [.atom ⟨.var 0, .var 1, false⟩, .app .not [.atom ⟨applied 0, applied 1, false⟩]]

theorem negated_wellFormed (e : UEquality ℕ ℕ) (he : negated.Mentions e) :
    e.WellFormed signature := by
  have hterm : ∀ x, (applied x).WellFormed signature := fun x =>
    .inst rfl fun t ht => mem_singleton.mp ht ▸ .var x
  have hcases : ⟨.var 0, .var 1, false⟩ = e ∨ ⟨applied 0, applied 1, false⟩ = e := by
    simpa [negated] using he
  rcases hcases with rfl | rfl
  · exact ⟨.var 0, .var 1, rfl⟩
  · exact ⟨hterm 0, hterm 1, rfl⟩

/-- The function has another value than its names. -/
def violating : CurryModel.{0} := ⟨Bool, fun _ _ => true, fun _ => false⟩

def isApplied : CurryTerm → Bool
  | .var _ => false
  | .app _ _ => true

theorem holds_violating (e : CurryEquality) :
    ((isApplied e.lhs = isApplied e.rhs) != e.negated) = true ↔ violating.Holds e := by
  have heval : ∀ c : CurryTerm, violating.eval c = isApplied c := by
    rintro (_ | _) <;> rfl
  rw [CurryModel.Holds, heval, heval]
  cases e.negated
  · simp only [Bool.bne_false, decide_eq_true_eq, if_neg Bool.false_ne_true]
    exact Iff.rfl
  · simp only [Bool.bne_true, Bool.not_eq_true', decide_eq_false_iff_not, if_true]
    exact Iff.rfl

/-- The passed formula holds where the definitions are violated. -/
theorem passed_negated : PassedSatisfiable
    ⟨CurryModule.initial.addCore (.verbatim CurryEquality) negated, [negated]⟩ := by
  refine ⟨violating, _, holds_violating, ?_⟩
  decide +kernel

theorem received_negated (m : CurryModule ℕ ℕ) :
    ¬ ReceivedSatisfiable signature ⟨m, [negated]⟩ := by
  rintro ⟨I, α, hα, hrec⟩
  have hneg := hrec negated (mem_singleton_self _)
  have hsides : α ⟨.var 0, .var 1, false⟩ = true ∧ α ⟨applied 0, applied 1, false⟩ = false := by
    simpa [negated] using hneg
  have hargs : I.eval (.var 0) = I.eval (.var 1) := by
    simpa [Interpretation.Holds] using (hα _).mp hsides.1
  have happlied : α ⟨applied 0, applied 1, false⟩ = true := by
    rw [hα, Interpretation.Holds, if_neg Bool.false_ne_true, applied, applied,
      Interpretation.eval_inst, Interpretation.eval_inst, map_singleton, map_singleton,
      hargs]
  rw [hsides.2] at happlied
  cases happlied

open Classical in
/-- The definitions need not hold where the equality that uses them is negated. -/
theorem not_equisatisfiable_permitted :
    ¬ Meets signature (.verbatim CurryEquality) (Permitted signature) := by
  intro hmeets
  have hpermitted : Permitted signature State.initial (.add negated) :=
    ⟨not_mem_nil, negated_wellFormed⟩
  have hrun : Run.run (Run.guarded (Permitted signature) (step (.verbatim CurryEquality)))
      State.initial [.add negated] =
        some ⟨CurryModule.initial.addCore (.verbatim CurryEquality) negated, [negated]⟩ :=
    Run.run_cons.mpr ⟨_, Run.guarded_eq_some.mpr ⟨hpermitted, rfl⟩, rfl⟩
  exact received_negated _ ((hmeets _ _ hrun).mp passed_negated)

end Examples

end Smtrat.Curry
