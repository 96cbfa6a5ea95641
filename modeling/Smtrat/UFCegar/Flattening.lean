import Smtrat.UFCegar.UFCegarModule

/-!
# Flattening

Terms get names, different ones for different terms, and keep them.
-/

namespace Smtrat.UFCegar

open PropFormula List Function Option
open Curry (UTerm UEquality Signature Interpretation)

universe u

variable {Var F S : Type u} {sig : Signature Var F S}

/-- The terms that are flattened. -/
def Admissible (sig : Signature Var F S) (t : UTerm Var F) : Prop := t.WellFormed sig ∧ Simple t

theorem admissible_var (sig : Signature Var F S) (v : Var) : Admissible sig (.var v : UTerm Var F) :=
  ⟨.var v, trivial⟩

namespace Stores

variable {s t r : Stores Var F}

/-! ## Names -/

def Named (s : Stores Var F) (term : UTerm Var F) : Prop := (s.termStore term).isSome

/-- The name of a term that has one. -/
def name (s : Stores Var F) (term : UTerm Var F) : ℕ := (s.termStore term).getD 0

variable {term : UTerm Var F}

theorem Named.termStore (h : s.Named term) : s.termStore term = some (s.name term) := by
  obtain ⟨n, hn⟩ := isSome_iff_exists.mp h
  rw [name, hn, getD_some]

theorem named_of_eq {n : ℕ} (h : s.termStore term = some n) :
    s.Named term := by
  rw [Named, h]
  rfl

theorem name_of_eq {n : ℕ} (h : s.termStore term = some n) : s.name term = n := by
  rw [name, h, getD_some]

/-- Terms keep their names. -/
def Extends (s t : Stores Var F) : Prop :=
  ∀ term n, s.termStore term = some n → t.termStore term = some n

theorem Extends.named (h : Extends s t) (hterm : s.Named term) :
    t.Named term :=
  named_of_eq (h term _ hterm.termStore)

theorem Extends.name (h : Extends s t) (hterm : s.Named term) : t.name term = s.name term :=
  name_of_eq (h term _ hterm.termStore)

/-- The equality of the names of the sides. -/
def flat (s : Stores Var F) (e : UEquality Var F) : FlatEquality :=
  ⟨s.name e.lhs, s.name e.rhs, e.negated⟩

/-! ## The invariant -/

structure Inv (sig : Signature Var F S) (s : Stores Var F) : Prop where
  below : ∀ {term n}, s.termStore term = some n → n < s.nextVariable
  injective : ∀ {term term' n}, s.termStore term = some n → s.termStore term' = some n →
    term = term'
  instances : ∀ i, i ∈ s.instances ↔ s.Named i.term
  nodup : s.instances.Nodup
  formulas : ∀ {e c}, s.formulaStore e = some c → c = s.flat e ∧ s.Named e.lhs ∧ s.Named e.rhs
  admissible : ∀ {term}, s.Named term → Admissible sig term
  pending : s.pending = []

theorem Inv.initial : Inv sig (Stores.initial : Stores Var F) where
  below h := by cases h
  injective h := by cases h
  instances i := by simp [Stores.initial, Named]
  nodup := nodup_nil
  formulas h := by cases h
  admissible h := by cases h
  pending := rfl

theorem Inv.flattened (h : Inv sig s) : s.flattenedFunctionCalls = true := by
  simp only [flattenedFunctionCalls, List.all_eq_true]
  intro i hi arg harg
  obtain ⟨v, rfl⟩ := (h.admissible ((h.instances i).mp hi)).2 arg harg
  rfl

/-- The later stores satisfy the invariant, and no pair has been treated in between. -/
structure Grows (sig : Signature Var F S) (s t : Stores Var F) : Prop where
  inv : Inv sig t
  extends_ : Extends s t
  refined : t.refined = s.refined

theorem Grows.refl (h : Inv sig s) : Grows sig s s := ⟨h, fun _ _ => id, rfl⟩

theorem Grows.trans (h : Grows sig s t) (h' : Grows sig t r) : Grows sig s r :=
  ⟨h'.inv, fun term n hn => h'.extends_ term n (h.extends_ term n hn), h'.refined.trans h.refined⟩

/-! ## Specifications -/

section Specifications

variable [DecidableEq Var] [DecidableEq F]

variable {l : List (UFInstance Var F)} {i : UFInstance Var F}

theorem mem_emplace {j : UFInstance Var F} : j ∈ emplace i l ↔ j ∈ l ∨ j = i := by
  rw [emplace]
  split_ifs with h
  · exact ⟨Or.inl, fun hj => hj.elim id fun heq => heq ▸ h⟩
  · rw [mem_append, mem_singleton]

theorem nodup_emplace (h : l.Nodup) : (emplace i l).Nodup := by
  rw [emplace]
  split_ifs with hi
  · exact h
  · exact (perm_append_singleton i l).nodup_iff.mpr (nodup_cons.mpr ⟨hi, h⟩)

theorem mem_emplaceTerm : i ∈ emplaceTerm l term ↔ i ∈ l ∨ i.term = term := by
  cases term with
  | var v => simp [emplaceTerm, UFInstance.term]
  | inst f args =>
    obtain ⟨g, args'⟩ := i
    simp [emplaceTerm, mem_emplace, UFInstance.term]

theorem nodup_emplaceTerm (h : l.Nodup) (term : UTerm Var F) : (emplaceTerm l term).Nodup := by
  cases term with
  | var v => exact h
  | inst f args => exact nodup_emplace h

/-- A term gets a new name. -/
theorem Inv.nameTerm (h : Inv sig s) (hterm : Admissible sig term)
    (hnone : s.termStore term = none) : Grows sig s { s with
      instances := emplaceTerm s.instances term
      termStore := update s.termStore term (some s.nextVariable)
      nextVariable := s.nextVariable + 1 } := by
  have hcases : ∀ {term' n},
      update s.termStore term (some s.nextVariable) term' = some n →
        (term' = term ∧ n = s.nextVariable) ∨ s.termStore term' = some n := by
    intro term' n hn
    by_cases heq : term' = term
    · rw [heq, update_self] at hn
      exact .inl ⟨heq, (some.inj hn).symm⟩
    · rw [update_of_ne heq] at hn
      exact .inr hn
  have hext : Extends s { s with
      instances := emplaceTerm s.instances term
      termStore := update s.termStore term (some s.nextVariable)
      nextVariable := s.nextVariable + 1 } := by
    intro term' n hn
    have hne : term' ≠ term := by
      rintro rfl
      rw [hnone] at hn
      cases hn
    exact (update_of_ne hne _ _).trans hn
  refine ⟨?_, hext, rfl⟩
  constructor
  case below =>
    intro term' n hn
    rcases hcases hn with ⟨-, rfl⟩ | hn
    · exact Nat.lt_succ_self _
    · exact Nat.lt_succ_of_lt (h.below hn)
  case injective =>
    intro term₁ term₂ n h₁ h₂
    rcases hcases h₁ with ⟨rfl, rfl⟩ | h₁
    · rcases hcases h₂ with ⟨rfl, -⟩ | h₂
      · rfl
      · exact absurd (h.below h₂) (Nat.lt_irrefl _)
    · rcases hcases h₂ with ⟨-, rfl⟩ | h₂
      · exact absurd (h.below h₁) (Nat.lt_irrefl _)
      · exact h.injective h₁ h₂
  case instances =>
    intro i
    have hnamed : (update s.termStore term (some s.nextVariable) i.term).isSome ↔
        s.Named i.term ∨ i.term = term := by
      by_cases heq : i.term = term
      · rw [heq, update_self]
        simp
      · rw [update_of_ne heq]
        simp [Named, heq]
    exact (mem_emplaceTerm.trans (or_congr_left (h.instances i))).trans hnamed.symm
  case nodup => exact nodup_emplaceTerm h.nodup term
  case formulas =>
    intro e c hc
    obtain ⟨rfl, hl, hr⟩ := h.formulas hc
    refine ⟨?_, hext.named hl, hext.named hr⟩
    rw [flat, flat, hext.name hl, hext.name hr]
  case admissible =>
    intro term' hterm'
    obtain ⟨n, hn⟩ := isSome_iff_exists.mp hterm'
    rcases hcases hn with ⟨rfl, -⟩ | hn
    · exact hterm
    · exact h.admissible (named_of_eq hn)
  case pending => exact h.pending

theorem flattenTerm_spec (hterm : Admissible sig term) (h : Inv sig s) :
    Grows sig s (flattenTerm term s).2 ∧
      (flattenTerm term s).2.termStore term = some (flattenTerm term s).1 := by
  rw [flattenTerm]
  split
  case h_1 res hres => exact ⟨.refl h, hres⟩
  case h_2 hnone => exact ⟨h.nameTerm hterm hnone, update_self ..⟩

omit [DecidableEq F] [DecidableEq Var] in
theorem Inv.rememberFormula [DecidableEq (UEquality Var F)] (h : Inv sig s) {e : UEquality Var F}
    (hl : s.Named e.lhs) (hr : s.Named e.rhs) :
    Grows sig s { s with
      formulaStore := update s.formulaStore e (some (s.flat e)) } := by
  refine ⟨⟨h.below, h.injective, h.instances, h.nodup, ?_, h.admissible, h.pending⟩,
    fun _ _ => id, rfl⟩
  intro e' c hc
  change update s.formulaStore e (some (s.flat e)) e' = some c at hc
  by_cases heq : e' = e
  · subst heq
    rw [update_self, some.injEq] at hc
    exact ⟨hc.symm, hl, hr⟩
  · rw [update_of_ne heq] at hc
    exact h.formulas hc

theorem flatten_spec {e : UEquality Var F} (hl : Admissible sig e.lhs)
    (hr : Admissible sig e.rhs) (h : Inv sig s) : Grows sig s (flatten e s).2 ∧
      (flatten e s).1 = (flatten e s).2.flat e ∧ (flatten e s).2.Named e.lhs ∧
        (flatten e s).2.Named e.rhs := by
  cases hstore : s.formulaStore e with
  | some res =>
    rw [flatten, hstore]
    exact ⟨.refl h, h.formulas hstore⟩
  | none =>
    obtain ⟨hgrows₁, hnamel⟩ := flattenTerm_spec hl h
    obtain ⟨hgrows₂, hnamer⟩ := flattenTerm_spec hr hgrows₁.inv
    have hnamel := hgrows₂.extends_ _ _ hnamel
    have hflat : (flattenTerm e.rhs (flattenTerm e.lhs s).2).2.flat e =
        ⟨(flattenTerm e.lhs s).1, (flattenTerm e.rhs (flattenTerm e.lhs s).2).1, e.negated⟩ := by
      rw [flat, name_of_eq hnamel, name_of_eq hnamer]
    have hgrows₃ := hgrows₂.inv.rememberFormula (named_of_eq hnamel) (named_of_eq hnamer)
    rw [hflat] at hgrows₃
    rw [flatten, hstore]
    exact ⟨(hgrows₁.trans hgrows₂).trans hgrows₃, hflat.symm, named_of_eq hnamel,
      named_of_eq hnamer⟩

theorem flattenTerm_of_named (h : s.Named term) : flattenTerm term s = (s.name term, s) := by
  rw [flattenTerm, h.termStore]

theorem instances_flattenTerm_var (v : Var) (s : Stores Var F) :
    (flattenTerm (.var v) s).2.instances = s.instances := by
  rw [flattenTerm]
  split <;> rfl

/-- The equalities of the names of arguments. -/
def argumentEqualities (s : Stores Var F) (args : List (UTerm Var F × UTerm Var F)) :
    List (Formula FlatEquality) :=
  args.map fun q => .atom ⟨s.name q.1, s.name q.2, false⟩

omit [DecidableEq Var] [DecidableEq F] in
theorem Extends.argumentEqualities (h : Extends s t) {args : List (UTerm Var F × UTerm Var F)}
    (hargs : ∀ q ∈ args, s.Named q.1 ∧ s.Named q.2) :
    t.argumentEqualities args = s.argumentEqualities args := by
  refine map_congr_left fun q hq => ?_
  rw [h.name (hargs q hq).1, h.name (hargs q hq).2]

theorem flattenArgs_spec {record : UTerm Var F → Stores Var F → Stores Var F}
    (hrecord : ∀ v s, record (.var v) s = s) {args : List (UTerm Var F × UTerm Var F)}
    (hargs : ∀ q ∈ args, (∃ v, q.1 = .var v) ∧ ∃ v, q.2 = .var v) (h : Inv sig s) :
    Grows sig s (flattenArgs record args s).2 ∧
      (flattenArgs record args s).1 = (flattenArgs record args s).2.argumentEqualities args ∧
        (∀ q ∈ args, (flattenArgs record args s).2.Named q.1 ∧
          (flattenArgs record args s).2.Named q.2) ∧
        (flattenArgs record args s).2.instances = s.instances := by
  induction args generalizing s with
  | nil => exact ⟨.refl h, rfl, nofun, rfl⟩
  | cons q args ih =>
    obtain ⟨⟨v, hv⟩, ⟨w, hw⟩⟩ := hargs q mem_cons_self
    obtain ⟨x, y⟩ := q
    obtain rfl : x = .var v := hv
    obtain rfl : y = .var w := hw
    obtain ⟨hgrows₁, hnamel⟩ := flattenTerm_spec (admissible_var sig v) h
    obtain ⟨hgrows₂, hnamer⟩ := flattenTerm_spec (admissible_var sig w) hgrows₁.inv
    obtain ⟨hgrows₃, heqs, hnamed, hinsts⟩ :=
      ih (fun q hq => hargs q (mem_cons_of_mem _ hq)) hgrows₂.inv
    have hnamel := hgrows₃.extends_ _ _ (hgrows₂.extends_ _ _ hnamel)
    have hnamer := hgrows₃.extends_ _ _ hnamer
    rw [flattenArgs, hrecord, hrecord]
    refine ⟨(hgrows₁.trans hgrows₂).trans hgrows₃, ?_, ?_, ?_⟩
    · refine congrArg₂ List.cons ?_ heqs
      dsimp only
      rw [name_of_eq hnamel, name_of_eq hnamer]
    · exact forall_mem_cons.mpr ⟨⟨named_of_eq hnamel, named_of_eq hnamer⟩, hnamed⟩
    · exact hinsts.trans ((instances_flattenTerm_var w _).trans (instances_flattenTerm_var v s))

end Specifications

/-! ## Functional constraints -/

/-- The constraint that belongs to a pair. -/
def constraintFormula (pool : FormulaPool FlatEquality) (s : Stores Var F)
    (p : InstancePair Var F) : Formula FlatEquality :=
  pool.create .implies [pool.create .and (s.argumentEqualities (p.1.args.zip p.2.args)),
    .atom ⟨s.name p.1.term, s.name p.2.term, false⟩]

/-- All terms of a constraint have names. -/
structure Constrainable (s : Stores Var F) (p : InstancePair Var F) : Prop where
  sameFunction : p.1.uninterpretedFunction = p.2.uninterpretedFunction
  fst : s.Named p.1.term
  snd : s.Named p.2.term
  args : ∀ q ∈ p.1.args.zip p.2.args, s.Named q.1 ∧ s.Named q.2

theorem Constrainable.mono (hext : Extends s t) {p : InstancePair Var F}
    (h : s.Constrainable p) : t.Constrainable p :=
  ⟨h.sameFunction, hext.named h.fst, hext.named h.snd, fun q hq =>
    ⟨hext.named (h.args q hq).1, hext.named (h.args q hq).2⟩⟩

theorem Constrainable.constraintFormula_eq (pool : FormulaPool FlatEquality)
    (hext : Extends s t) {p : InstancePair Var F} (h : s.Constrainable p) :
    t.constraintFormula pool p = s.constraintFormula pool p := by
  rw [constraintFormula, constraintFormula, hext.argumentEqualities h.args,
    hext.name h.fst, hext.name h.snd]

end Stores

end Smtrat.UFCegar
