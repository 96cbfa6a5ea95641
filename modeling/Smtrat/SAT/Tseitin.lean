import Smtrat.SAT.UseCounter

/-!
# What the clauses of formulas mean

The literal of a formula has its value if the clauses that define the formula are stored, and so for
its subformulas.  For a received formula it is enough that its own clauses are stored.
-/

namespace Smtrat.SAT

open PropFormula List

universe u

variable {A : Type u} (var : Content A ↪ Var)

/-- The clauses by which a nested formula is defined. -/
def definition : Formula A → List Clause
  | .app c fs => tseitinClauses (createLiteral var (.app c fs)) c (fs.map (createLiteral var))
  | _ => []

/-- The clauses of a received formula. -/
def assertion : Formula A → List Clause
  | .app c fs => topClauses c (fs.map (createLiteral var))
  | _ => []

variable {var} {f g h k : Formula A} {c : Connective} {fs : List (Formula A)} {α : A → Bool}
  {v : Valuation}

/-! ## Literals of formulas -/

theorem exists_app_of_isCompound (hf : isCompound f = true) : ∃ c fs, f = .app c fs ∧ c ≠ .not := by
  cases f with
  | const b => cases hf
  | atom a => cases hf
  | app c fs =>
    refine ⟨c, fs, rfl, ?_⟩
    rintro rfl
    cases hf

theorem createLiteral_compound (hf : isCompound f = true) :
    createLiteral var f = mkLit (var (.tseitin f)) false := by
  obtain ⟨c, fs, rfl, -⟩ := exists_app_of_isCompound hf
  cases c with
  | not => cases hf
  | and | or | implies | xor | iff | ite => rw [createLiteral] <;> nofun

theorem createLiteral_not : createLiteral var (.app .not [f]) = (createLiteral var f).neg := by
  rw [createLiteral]

theorem removeNegations_not : removeNegations (.app .not [f]) = removeNegations f := by
  rw [removeNegations]

theorem removeNegations_compound (hf : isCompound f = true) : removeNegations f = f := by
  cases f with
  | const b => rfl
  | atom a => rfl
  | app c fs =>
    cases c with
    | not => cases hf
    | and | or | implies | xor | iff | ite => rw [removeNegations]; nofun

theorem wellFormedAll_iff : wellFormedAll fs = true ↔ ∀ f ∈ fs, wellFormed f = true := by
  induction fs with
  | nil => simp [wellFormedAll]
  | cons f fs ih => simp [wellFormedAll, ih]

theorem wellFormed_app (hf : wellFormed (.app c fs) = true) :
    hasArity c fs.length = true ∧ (∀ f ∈ fs, wellFormed f = true) ∧
      (c = .not → ∀ f ∈ fs, isNegation f = false) := by
  rw [wellFormed, Bool.and_eq_true, Bool.and_eq_true, wellFormedAll_iff] at hf
  refine ⟨hf.1.1, hf.1.2, fun hc f hmem => ?_⟩
  have hneg := hf.2
  simp only [hc, decide_true, Bool.true_and, Bool.not_eq_true', any_eq_false] at hneg
  simpa using hneg f hmem

theorem wellFormed_subformulas (hf : wellFormed f = true) :
    ∀ k ∈ f.subformulas, wellFormed k = true := by
  cases f with
  | const b => cases hf
  | atom a => nofun
  | app c fs => exact (wellFormed_app hf).2.1

theorem wellFormed_parts (hf : wellFormed f = true) (hg : g ∈ parts f) : wellFormed g = true := by
  induction f using Formula.induction with
  | hconst b => cases hf
  | hatom a =>
    rw [parts, mem_singleton] at hg
    rwa [hg]
  | happ c fs ih =>
    obtain rfl | ⟨k, hk, hg⟩ := mem_parts_app.mp hg
    · exact hf
    · exact ih k hk ((wellFormed_app hf).2.1 k hk) hg

/-- A formula of the pool is no negation or negates such a formula. -/
theorem negation_cases (hf : wellFormed f = true) : isNegation f = false ∨
    ∃ g, f = .app .not [g] ∧ wellFormed g = true ∧ isNegation g = false := by
  cases f with
  | const b => cases hf
  | atom a => exact Or.inl rfl
  | app c fs =>
    cases c with
    | not =>
      obtain ⟨harity, hfs, hneg⟩ := wellFormed_app hf
      match fs, harity with
      | [f], _ =>
        exact Or.inr ⟨f, rfl, hfs f mem_cons_self, hneg rfl f mem_cons_self⟩
    | and | or | implies | xor | iff | ite => exact Or.inl rfl

theorem positive_cases (hf : wellFormed f = true) (hneg : isNegation f = false) :
    (∃ a, f = .atom a) ∨ isCompound f = true := by
  cases f with
  | const b => cases hf
  | atom a => exact Or.inl ⟨a, rfl⟩
  | app c fs =>
    cases c with
    | not => cases hneg
    | and | or | implies | xor | iff | ite => exact Or.inr rfl

theorem isLiteral_compound (hf : isCompound f = true) : isLiteral f = false := by
  cases f with
  | const b => rfl
  | atom a => cases hf
  | app c fs =>
    cases c with
    | not => cases hf
    | and | or | implies | xor | iff | ite => rfl

/-- What the variable of a formula without negation stands for. -/
def content : Formula A → Content A
  | .atom a => .original a
  | f => .tseitin f

theorem content_injective : Function.Injective (content (A := A)) := by
  intro f g hfg
  cases f <;> cases g <;> cases hfg <;> rfl

theorem content_compound (hf : isCompound f = true) : content f = .tseitin f := by
  cases f with
  | const b => rfl
  | atom a => cases hf
  | app c fs => rfl

theorem removeNegations_positive (hf : wellFormed f = true) (hneg : isNegation f = false) :
    removeNegations f = f := by
  obtain ⟨a, rfl⟩ | hc := positive_cases hf hneg
  · rfl
  · exact removeNegations_compound hc

/-- Without its negation a formula of the pool is an atom or compound. -/
theorem removeNegations_wellFormed (hf : wellFormed f = true) :
    wellFormed (removeNegations f) = true ∧ isNegation (removeNegations f) = false ∧
      removeNegations f ∈ parts f := by
  obtain hneg | ⟨g, rfl, hg, hneg⟩ := negation_cases hf
  · rw [removeNegations_positive hf hneg]
    exact ⟨hf, hneg, mem_parts_self f⟩
  · rw [removeNegations_not, removeNegations_positive hg hneg]
    exact ⟨hg, hneg, mem_parts_app.mpr (Or.inr ⟨g, mem_cons_self, mem_parts_self g⟩)⟩

theorem removeNegations_eq (hf : wellFormed f = true) :
    f = if isNegation f then .app .not [removeNegations f] else removeNegations f := by
  obtain hneg | ⟨g, rfl, hg, hneg⟩ := negation_cases hf
  · rw [hneg, removeNegations_positive hf hneg]
    rfl
  · rw [removeNegations_not, removeNegations_positive hg hneg]
    rfl

theorem createLiteral_positive (hf : wellFormed f = true) (hneg : isNegation f = false) :
    createLiteral var f = mkLit (var (content f)) false := by
  obtain ⟨a, rfl⟩ | hc := positive_cases hf hneg
  · rw [createLiteral, content]
  · rw [createLiteral_compound hc, content_compound hc]

theorem createLiteral_eq (hf : wellFormed f = true) :
    createLiteral var f = mkLit (var (content (removeNegations f))) (isNegation f) := by
  obtain hneg | ⟨g, rfl, hg, hneg⟩ := negation_cases hf
  · rw [createLiteral_positive hf hneg, removeNegations_positive hf hneg, hneg]
  · rw [createLiteral_not, removeNegations_not, createLiteral_positive hg hneg,
      removeNegations_positive hg hneg]
    rfl

theorem createLiteral_injective (hf : wellFormed f = true) (hg : wellFormed g = true)
    (hfg : createLiteral var f = createLiteral var g) : f = g := by
  rw [createLiteral_eq hf, createLiteral_eq hg] at hfg
  have hcont : removeNegations f = removeNegations g :=
    content_injective (var.injective (congrArg Lit.var hfg))
  have hsign : isNegation f = isNegation g := congrArg Lit.sign hfg
  rw [removeNegations_eq hf, removeNegations_eq hg, hcont, hsign]

theorem createLiteral_var_injective (hf : isCompound f = true) (hg : isCompound g = true)
    (hfg : (createLiteral var f).var = (createLiteral var g).var) : f = g := by
  rw [createLiteral_compound hf, createLiteral_compound hg] at hfg
  exact Content.tseitin.inj (var.injective hfg)

/-! ## Values -/

variable (var) in
/-- The valuation under which every literal has the value of its formula. -/
noncomputable def canonical (α : A → Bool) : Valuation :=
  Function.extend var
    (fun x => match x with
      | .original a => α a
      | .tseitin f => f.eval α)
    fun _ => false

theorem holds_canonical (hf : wellFormed f = true) :
    (createLiteral var f).Holds (canonical var α) ↔ f.eval α = true := by
  have hpos : ∀ f : Formula A, wellFormed f = true → isNegation f = false →
      ((createLiteral var f).Holds (canonical var α) ↔ f.eval α = true) := by
    intro f hf hneg
    obtain ⟨a, rfl⟩ | hc := positive_cases hf hneg
    · simp [createLiteral, Lit.Holds, mkLit, canonical, var.injective.extend_apply]
    · simp [createLiteral_compound hc, Lit.Holds, mkLit, canonical, var.injective.extend_apply]
  obtain hneg | ⟨g, rfl, hg, hneg⟩ := negation_cases hf
  · exact hpos f hf hneg
  · rw [createLiteral_not, Lit.holds_neg, hpos g hg hneg]
    simp

/-- The values of the arguments of a formula. -/
theorem values_createLiteral
    (hfs : ∀ k ∈ fs, (createLiteral var k).Holds v ↔ k.eval α = true) :
    values v (fs.map (createLiteral var)) = fs.map (Formula.eval α) := by
  rw [values, map_map]
  apply map_congr_left
  intro k hk
  simp [hfs k hk]

theorem definition_holds (hop : c ≠ .not) (hf : wellFormed (.app c fs) = true)
    (hfs : ∀ k ∈ fs, (createLiteral var k).Holds v ↔ k.eval α = true) :
    (∀ cl ∈ definition var (.app c fs), cl.Holds v) ↔
      ((createLiteral var (.app c fs)).Holds v ↔ (Formula.app c fs).eval α = true) := by
  have harity : hasArity c (fs.map (createLiteral var)).length = true := by
    rw [length_map]
    exact (wellFormed_app hf).1
  rw [definition, tseitinClauses_holds hop harity, values_createLiteral hfs, Formula.eval_app]

theorem assertion_holds (hop : c ≠ .not) (hand : c ≠ .and) (hf : wellFormed (.app c fs) = true)
    (hfs : ∀ k ∈ fs, (createLiteral var k).Holds v ↔ k.eval α = true) :
    (∀ cl ∈ assertion var (.app c fs), cl.Holds v) ↔ (Formula.app c fs).eval α = true := by
  have harity : hasArity c (fs.map (createLiteral var)).length = true := by
    rw [length_map]
    exact (wellFormed_app hf).1
  rw [assertion, topClauses_holds hop hand harity, values_createLiteral hfs, Formula.eval_app]

end Smtrat.SAT
