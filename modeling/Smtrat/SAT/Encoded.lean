import Smtrat.SAT.Tseitin

/-!
# The clause database

A literal may be used for its formula when the clauses that define the formula are stored, or when it
is assumed, which is the case for received formulas only.  Under this invariant the clauses and the
assumptions say the same as the received formulas.
-/

namespace Smtrat.SAT

open PropFormula

universe u

variable {A : Type u} (var : Content A ↪ Var)

def isDisjunction : Formula A → Bool
  | .app .or _ => true
  | _ => false

namespace CnfState

/-- All clauses and all assumptions are true. -/
def Satisfied (s : CnfState A) (v : Valuation) : Prop :=
  (∀ c, s.Stored c → c.Holds v) ∧ ∀ l ∈ s.assumptions, l.Holds v

/-- The literal of the formula may be used. -/
def Known (s : CnfState A) (f : Formula A) : Prop :=
  isCompound (removeNegations f) = true → ∃ i, s.info (removeNegations f) = some i ∧
    (i.mClauses = definition var (removeNegations f) ∨
      createLiteral var (removeNegations f) ∈ s.assumptions)

/-- What is stored for a formula. -/
structure Entry (received : List (Formula A)) (s : CnfState A) (h : Formula A) (i : CNFInfos) :
    Prop where
  compound : isCompound h = true
  wellFormed : wellFormed h = true
  mLiteral : i.mLiteral = createLiteral var h
  mCounter : 0 < i.mCounter
  mClauses : i.mClauses = definition var h ∨
    i.mClauses = assertion var h ∧ h ∈ received ∧ h.isConjunction = false
  args : ∀ k ∈ h.subformulas, s.Known var k

/-- What makes a received formula true. -/
inductive Covered (s : CnfState A) (f : Formula A) : Prop where
  | const (h : f = .const true)
  | assumed (h : createLiteral var f ∈ s.assumptions) (hf : wellFormed f = true)
      (hk : s.Known var f)
  | asserted (i : CNFInfos) (h : s.info f = some i) (hi : i.mClauses = assertion var f)
      (hand : f.isConjunction = false)

/-- The clauses and the assumptions belong to the received formulas. -/
structure Encoded (received : List (Formula A)) (s : CnfState A) : Prop where
  entry : ∀ h i, s.info h = some i → s.Entry var received h i
  covered : ∀ f ∈ received, s.Covered var f
  assumptions : ∀ l ∈ s.assumptions, ∃ f ∈ received, wellFormed f = true ∧ l = createLiteral var f
  nodup : s.assumptions.Nodup
  mFormulaAssumptionMap : ∀ f l, s.mFormulaAssumptionMap f = some l →
    wellFormed f = true ∧ l = createLiteral var f ∧ l ∈ s.assumptions
  literal : ∀ f ∈ received, isLiteral f = true → (s.mFormulaAssumptionMap f).isSome = true
  mAssumedTseitinVariable : ∀ f, isCompound f = true → wellFormed f = true →
    (s.mAssumedTseitinVariable (createLiteral var f).var = true ↔
      createLiteral var f ∈ s.assumptions)
  mNonassumedTseitinVariable : ∀ h i, s.info h = some i → isDisjunction h = true →
    i.mClauses = assertion var h → createLiteral var h ∉ s.assumptions →
      s.mNonassumedTseitinVariable (createLiteral var h).var = true

variable {var} {received : List (Formula A)} {s : CnfState A} {f g h k : Formula A}
  {i : CNFInfos} {v : Valuation} {α : A → Bool}

@[simp] theorem known_not : s.Known var (.app .not [f]) ↔ s.Known var f := by
  rw [Known, Known, removeNegations_not]

/-! ## Values of literals -/

theorem Entry.holds_iff (he : s.Entry var received h i)
    (hargs : ∀ k ∈ h.subformulas, (createLiteral var k).Holds v ↔ k.eval α = true) :
    (∀ c ∈ definition var h, c.Holds v) ↔ ((createLiteral var h).Holds v ↔ h.eval α = true) := by
  obtain ⟨c, fs, rfl, hop⟩ := exists_app_of_isCompound he.compound
  exact definition_holds hop he.wellFormed hargs

theorem Entry.asserted_iff (he : s.Entry var received h i) (hand : h.isConjunction = false)
    (hargs : ∀ k ∈ h.subformulas, (createLiteral var k).Holds v ↔ k.eval α = true) :
    (∀ c ∈ assertion var h, c.Holds v) ↔ h.eval α = true := by
  obtain ⟨c, fs, rfl, hop⟩ := exists_app_of_isCompound he.compound
  have hand : c ≠ .and := by
    rintro rfl
    cases hand
  exact assertion_holds hop hand he.wellFormed hargs

theorem Satisfied.entry (hv : s.Satisfied v) (hi : s.info h = some i) :
    ∀ c ∈ i.mClauses, c.Holds v :=
  fun c hc => hv.1 c ⟨h, i, hi, hc⟩

/-- A literal that may be used has the value of its formula. -/
theorem Encoded.known_holds (hs : s.Encoded var received) (hv : s.Satisfied v)
    (hf : wellFormed f = true) (hk : s.Known var f) :
    (createLiteral var f).Holds v ↔ f.eval (fun a => v (var (.original a))) = true := by
  induction f using Formula.induction with
  | hconst b => cases hf
  | hatom a => simp [createLiteral, Lit.Holds, mkLit]
  | happ c fs ih =>
    obtain ⟨-, hfs, -⟩ := wellFormed_app hf
    obtain hneg | ⟨g, hg, hgf, -⟩ := negation_cases hf
    · obtain ⟨a, ⟨⟩⟩ | hc := positive_cases hf hneg
      have hrem := removeNegations_compound hc
      rw [Known, hrem] at hk
      obtain ⟨i, hi, hk⟩ := hk hc
      have he := hs.entry _ i hi
      have hargs := fun k hmem => ih k hmem (hfs k hmem) (he.args k hmem)
      have hsat := hv.entry hi
      obtain hdef | ⟨hasrt, -, hand⟩ := he.mClauses
      · rw [hdef, he.holds_iff hargs] at hsat
        exact hsat
      · obtain hdef | hassum := hk
        · rw [hdef, he.holds_iff hargs] at hsat
          exact hsat
        · rw [hasrt, he.asserted_iff hand hargs] at hsat
          exact iff_of_true (hv.2 _ hassum) hsat
    · obtain ⟨rfl, rfl⟩ : c = .not ∧ fs = [g] := by
        cases hg
        exact ⟨rfl, rfl⟩
      rw [createLiteral_not, Lit.holds_neg, ih g List.mem_cons_self hgf (known_not.mp hk)]
      simp

/-- The clauses and the assumptions say the same as the received formulas. -/
theorem Encoded.satisfied_iff (hs : s.Encoded var received) :
    (∃ v, (∀ a, v (var (.original a)) = α a) ∧ s.Satisfied v) ↔
      ∀ f ∈ received, f.eval α = true := by
  constructor
  · rintro ⟨v, hα, hv⟩ f hf
    obtain rfl : (fun a => v (var (.original a))) = α := by
      funext a
      exact hα a
    cases hs.covered f hf with
    | const h => rw [h, Formula.eval_const]
    | assumed h hwf hk => exact (hs.known_holds hv hwf hk).mp (hv.2 _ h)
    | asserted i h hi hand =>
      have he := hs.entry f i h
      have hargs := fun k hk =>
        hs.known_holds hv (wellFormed_subformulas he.wellFormed k hk) (he.args k hk)
      have hsat := hv.entry h
      rwa [hi, he.asserted_iff hand hargs] at hsat
  · intro hα
    refine ⟨canonical var α, fun a => var.injective.extend_apply _ _ (.original a), ?_, ?_⟩
    · rintro c ⟨h, i, hi, hc⟩
      have he := hs.entry h i hi
      have hargs : ∀ k ∈ h.subformulas,
          (createLiteral var k).Holds (canonical var α) ↔ k.eval α = true :=
        fun k hk => holds_canonical (wellFormed_subformulas he.wellFormed k hk)
      obtain hdef | ⟨hasrt, hmem, hand⟩ := he.mClauses
      · rw [hdef] at hc
        exact (he.holds_iff hargs).mpr (holds_canonical he.wellFormed) c hc
      · rw [hasrt] at hc
        exact (he.asserted_iff hand hargs).mpr (hα h hmem) c hc
    · intro l hl
      obtain ⟨f, hf, hwf, rfl⟩ := hs.assumptions l hl
      exact (holds_canonical hwf).mpr (hα f hf)

end CnfState

end Smtrat.SAT
