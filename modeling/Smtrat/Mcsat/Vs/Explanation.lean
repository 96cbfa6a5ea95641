import Smtrat.Mcsat.Vs.Candidates

/-!
# Explanations are valid and conflicting

Where all literals hold, the branch of a test candidate that meets them holds.  Where the model leaves
no value for the variable, each branch contains a literal that its test candidate does not meet.
-/

/-!
## Explanations by virtual substitution

A variable is eliminated from a formula by a disjunction over its test candidates: each is substituted
into the literals, and its side conditions are added.  Literals that hold in the model for a candidate
are not part of the conflict and are left out.
-/

namespace Smtrat.Mcsat.Vs

open Smtrat.VS

universe u v

section Replace

variable {σ : Type u} {A : Type v} [DecidableEq (Mcsat.Formula σ A)]
  (create : PropFormula.Connective → List (FormulaT σ A) → FormulaT σ A)
  (l : Mcsat.Formula σ A) (g : FormulaT σ A)

mutual

/-- `FormulaSubstitutor::substitute`, for a literal. -/
def replace : FormulaT σ A → FormulaT σ A
  | .const b => .const b
  | .atom a => if a = l then g else .atom a
  | .app c fs => create c (replaceAll fs)

def replaceAll : List (FormulaT σ A) → List (FormulaT σ A)
  | [] => []
  | f :: fs => replace f :: replaceAll fs

end

@[simp] theorem replaceAll_eq_map (fs : List (FormulaT σ A)) :
    replaceAll create l g fs = fs.map (replace create l g) := by
  induction fs with
  | nil => rfl
  | cons f fs ih => rw [replaceAll, ih, List.map_cons]

@[simp] theorem replace_const (b : Bool) : replace create l g (.const b) = .const b := by
  rw [replace]

@[simp] theorem replace_atom (a : Mcsat.Formula σ A) :
    replace create l g (.atom a) = if a = l then g else .atom a := by
  rw [replace]

@[simp] theorem replace_app (c : PropFormula.Connective) (fs : List (FormulaT σ A)) :
    replace create l g (.app c fs) = create c (fs.map (replace create l g)) := by
  rw [replace, replaceAll_eq_map]

end Replace

section Generator

variable {σ : Type u} {A : Type v} [DecidableEq σ] [RealAlgebraicNumber A]
  (lib : ExplanationLibrary σ A) (fresh : SubVars σ)

/-- `ExplanationGenerator`, with the setting `reduceConflictConstraints`. -/
structure ExplanationGenerator (σ : Type u) (A : Type v) where
  mConstraints : List (Mcsat.Formula σ A)
  mVariableOrdering : List σ
  mTargetVar : σ
  mModel : Model σ A
  reduceConflictConstraints : Bool

namespace ExplanationGenerator

variable (generator : ExplanationGenerator σ A)

/-- From the target variable to the last variable that occurs. -/
def getUnassignedVariables : List σ :=
  let freeVariables := generator.mConstraints.flatMap (·.variables)
  match generator.mVariableOrdering.dropWhile (· ≠ generator.mTargetVar) with
  | [] => []
  | firstVar :: rest => firstVar :: rest.rdropWhile (· ∉ freeVariables)

/-- A test candidate is substituted into one of the literals. -/
def substituteInto (tc : TestCandidate σ) (branchResult : FormulaT σ A) (constr : Mcsat.Formula σ A) :
    Option (FormulaT σ A) :=
  if branchResult.contains (.atom constr) then
    (substituteLiteral lib fresh tc.substitution constr).map fun substitutionResult =>
      -- a literal that holds in the model is not part of the conflict
      let substitutionResult :=
        if generator.reduceConflictConstraints &&
          lib.evaluate substitutionResult generator.mModel = some true
        then .const true else substitutionResult
      replace lib.create constr substitutionResult branchResult
  else some branchResult

/-- The formula of a test candidate. -/
def branch (inputFormula : FormulaT σ A) (tc : TestCandidate σ) : Option (FormulaT σ A) :=
  (generator.mConstraints.foldlM (substituteInto lib fresh generator tc) inputFormula).map
    fun branchResult =>
      lib.create .and (branchResult :: (lib.elements tc.sideCondition).map ofConstraint)

def eliminateVariable (inputFormula : FormulaT σ A) (var : σ) : Option (FormulaT σ A) :=
  (generateTestCandidates lib var (getFormulaAtoms inputFormula)).bind fun testCandidates =>
    (testCandidates.mapM (branch lib fresh generator inputFormula)).map (lib.create .or)

/-- The formula for the variables eliminated one after another. -/
def eliminated : Option (FormulaT σ A) :=
  (getUnassignedVariables generator).foldlM (eliminateVariable lib fresh generator)
    (lib.create .and (generator.mConstraints.map .atom))

def eliminateVariables : Option (FormulaT σ A) :=
  (eliminated lib fresh generator).map fun res =>
    lib.create .or (res :: generator.mConstraints.map fun c => .atom c.negated)

end ExplanationGenerator

end Generator

end Smtrat.Mcsat.Vs

namespace Smtrat.Mcsat.Vs

open SparsePoly Smtrat.VS Filter List Function Option

universe u v

variable {σ : Type u} {A : Type v} [DecidableEq σ] [RealAlgebraicNumber A] {α β : σ → ℝ} {x : σ}
  {lib : ExplanationLibrary σ A}

/-! ## Replacing a literal -/

variable {l : Mcsat.Formula σ A}

section Replace

variable {c : Mcsat.Formula σ A} {f g : FormulaT σ A}

theorem positive_replace (hf : Positive f) (hg : Positive g) :
    Positive (replace lib.create c g f) := by
  induction hf with
  | const b =>
    rw [replace_const]
    exact .const b
  | atom a =>
    rw [replace_atom]
    split_ifs
    · exact hg
    · exact .atom a
  | and fs _ ih =>
    rw [replace_app]
    exact lib.positive_and _ (List.forall_mem_map.mpr ih)
  | or fs _ ih =>
    rw [replace_app]
    exact lib.positive_or _ (List.forall_mem_map.mpr ih)

theorem mentions_replace (h : (replace lib.create c g f).Mentions l) :
    (f.Mentions l ∧ l ≠ c) ∨ g.Mentions l := by
  induction f using PropFormula.Formula.induction with
  | hconst b =>
    rw [replace_const] at h
    exact absurd h (PropFormula.Formula.mentions_const l b)
  | hatom a =>
    rw [replace_atom] at h
    split_ifs at h with hac
    · exact .inr h
    · obtain rfl := (PropFormula.Formula.mentions_atom l a).mp h
      exact .inl ⟨h, hac⟩
  | happ k fs ih =>
    rw [replace_app] at h
    obtain ⟨f', hf', hment⟩ := lib.mentions_create l k _ h
    obtain ⟨f, hf, rfl⟩ := List.mem_map.mp hf'
    refine (ih f hf hment).imp_left fun ⟨hmem, hne⟩ => ⟨?_, hne⟩
    exact (PropFormula.Formula.mentions_app l k fs).mpr ⟨f, hf, hmem⟩

/-- Replacing a literal by what follows from it. -/
theorem holds_replace (hf : Positive f) (hg : c.Sat β → Holds β g) (h : Holds β f) :
    Holds β (replace lib.create c g f) := by
  induction hf with
  | const b => rwa [replace_const]
  | atom a =>
    rw [replace_atom]
    split_ifs with hac
    · exact hg (hac ▸ (holds_atom a).mp h)
    · exact h
  | and fs _ ih =>
    rw [replace_app, holds_create_and, List.forall_mem_map]
    exact fun f hf => ih f hf ((holds_and fs).mp h f hf)
  | or fs _ ih =>
    rw [replace_app, holds_create_or]
    obtain ⟨f, hf, h⟩ := (holds_or fs).mp h
    exact ⟨_, List.mem_map_of_mem hf, ih f hf h⟩

/-- Replacing a literal by what implies it. -/
theorem holds_of_replace (hf : Positive f) (hg : Holds β g → c.Sat β)
    (h : Holds β (replace lib.create c g f)) : Holds β f := by
  induction hf with
  | const b => rwa [replace_const] at h
  | atom a =>
    rw [replace_atom] at h
    split_ifs at h with hac
    · exact (holds_atom a).mpr (hac ▸ hg h)
    · exact h
  | and fs _ ih =>
    rw [replace_app, holds_create_and, List.forall_mem_map] at h
    exact (holds_and fs).mpr fun f hf => ih f hf (h f hf)
  | or fs _ ih =>
    rw [replace_app, holds_create_or] at h
    obtain ⟨f', hf', h⟩ := h
    obtain ⟨f, hf, rfl⟩ := List.mem_map.mp hf'
    exact (holds_or fs).mpr ⟨f, hf, ih f hf h⟩

end Replace

/-! ## The branch of a test candidate -/

/-- A literal does not depend on the variable. -/
def FreeLiteral (x : σ) (l : Mcsat.Formula σ A) : Prop :=
  ∀ (α : σ → ℝ) (r : ℝ), l.Sat (update α x r) ↔ l.Sat α

/-- The literals of a branch that depend on the variable are among those left, and are found. -/
structure BranchInv (x : σ) (rest : List (Mcsat.Formula σ A)) (f : FormulaT σ A) : Prop where
  positive : Positive f
  found : ∀ l, f.Mentions l → ¬ FreeLiteral x l → l ∈ rest ∧ f.contains (.atom l) = true

theorem BranchInv.free {f : FormulaT σ A} (h : BranchInv x [] f) : Free x f := by
  intro l hl
  by_contra hdep
  exact absurd (h.found l hl hdep).1 not_mem_nil

section Branch

variable {fresh : SubVars σ} {generator : ExplanationGenerator σ A} {tc : TestCandidate σ}
  {f f' : FormulaT σ A} {c : Mcsat.Formula σ A} {rest : List (Mcsat.Formula σ A)}

/-- What a literal is replaced by. -/
def replacement (lib : ExplanationLibrary σ A) (generator : ExplanationGenerator σ A)
    (substitutionResult : FormulaT σ A) : FormulaT σ A :=
  if generator.reduceConflictConstraints &&
    lib.evaluate substitutionResult generator.mModel = some true
  then .const true else substitutionResult

/-- What is evaluated to true in the model is true. -/
def TrueInModel (lib : ExplanationLibrary σ A) (fresh : SubVars σ) (generator : ExplanationGenerator σ A)
    (tc : TestCandidate σ) (α : σ → ℝ) (l : Mcsat.Formula σ A) : Prop :=
  ∀ g, substituteLiteral lib fresh tc.substitution l = some g →
    lib.evaluate g generator.mModel = some true → Holds α g

theorem substituteInto_cases (h : generator.substituteInto lib fresh tc f c = some f') :
    (f.contains (.atom c) = false ∧ f' = f) ∨
      ∃ g, substituteLiteral lib fresh tc.substitution c = some g ∧
        f' = replace lib.create c (replacement lib generator g) f := by
  rw [ExplanationGenerator.substituteInto] at h
  split_ifs at h with hcont
  · obtain ⟨g, hg, rfl⟩ := map_eq_some_iff.mp h
    exact .inr ⟨g, hg, rfl⟩
  · exact .inl ⟨Bool.eq_false_iff.mpr hcont, (some.inj h).symm⟩

variable (hfresh : fresh.subVar1 ≠ fresh.subVar2) (hvar : tc.substitution.var = x)
  (hx : x ∉ SubstitutionType.variables tc.substitution.type)
  (hsubVar2 : fresh.subVar2 ∉ SubstitutionType.variables tc.substitution.type)

include hfresh hvar hx hsubVar2

theorem substituted_of_literal (hc : Supported c) {g : FormulaT σ A}
    (h : substituteLiteral lib fresh tc.substitution c = some g) :
    Substituted x tc.substitution.type (fun α => c.Sat α) g := by
  subst hvar
  exact substituteLiteral_spec hfresh hx hsubVar2 hc h

theorem BranchInv.step (h : BranchInv x (c :: rest) f) (hc : Supported c)
    (hstep : generator.substituteInto lib fresh tc f c = some f') : BranchInv x rest f' := by
  rcases substituteInto_cases hstep with ⟨hcont, rfl⟩ | ⟨g, hg, rfl⟩
  · refine ⟨h.positive, fun l hl hdep => ?_⟩
    obtain ⟨hmem, hfound⟩ := h.found l hl hdep
    refine ⟨(mem_cons.mp hmem).resolve_left ?_, hfound⟩
    rintro rfl
    rw [hcont] at hfound
    exact Bool.false_ne_true hfound
  · have hspec := substituted_of_literal hfresh hvar hx hsubVar2 hc hg
    have hpos : Positive (replacement lib generator g) := by
      rw [replacement]
      split_ifs
      · exact .const true
      · exact hspec.positive
    have hfree : Free x (replacement lib generator g) := by
      rw [replacement]
      split_ifs
      · exact fun l hl => absurd hl (PropFormula.Formula.mentions_const l true)
      · exact hspec.free
    refine ⟨positive_replace h.positive hpos, fun l hl hdep => ?_⟩
    have hnew (l : Mcsat.Formula σ A) (hdep : ¬ FreeLiteral x l) :
        ¬ (replacement lib generator g).Mentions l := fun hl => hdep (hfree l hl)
    obtain ⟨hment, hne⟩ := (mentions_replace hl).resolve_right (hnew l hdep)
    obtain ⟨hmem, hfound⟩ := h.found l hment hdep
    refine ⟨(mem_cons.mp hmem).resolve_left hne, ?_⟩
    -- the literal is the formula itself or one of its subformulas, and stays there
    cases f with
    | const b => exact absurd hment (PropFormula.Formula.mentions_const l b)
    | atom a =>
      obtain rfl := (PropFormula.Formula.mentions_atom l a).mp hment
      rw [replace_atom, if_neg hne]
      simp [PropFormula.Formula.contains]
    | app k fs =>
      have hfs : .atom l ∈ fs := by
        rcases (Bool.or_eq_true _ _).mp hfound with heq | hmem
        · cases of_decide_eq_true heq
        · exact of_decide_eq_true hmem
      rw [replace_app] at hl ⊢
      refine lib.contains_create l k _ (List.mem_map.mpr ⟨.atom l, hfs, ?_⟩) hl
      rw [replace_atom, if_neg hne]

/-- The truth of the branch at a point that represents the test candidate. -/
theorem holds_step (hf : Positive f) (hc : Supported c)
    (hstep : generator.substituteInto lib fresh tc f c = some f')
    (hside : SideConditions α tc.substitution.type) {r : ℝ} (hr : c.Sat (update α x r) ↔
      ∀ᶠ s in points α tc.substitution.type, c.Sat (update α x s)) :
    (Holds (update α x r) f → Holds (update α x r) f') ∧
      (TrueInModel lib fresh generator tc α c → Holds (update α x r) f' →
        Holds (update α x r) f) := by
  rcases substituteInto_cases hstep with ⟨-, rfl⟩ | ⟨g, hg, rfl⟩
  · exact ⟨id, fun _ => id⟩
  · have hspec := substituted_of_literal hfresh hvar hx hsubVar2 hc hg
    have hiff : Holds (update α x r) g ↔ c.Sat (update α x r) := by
      rw [hspec.free.holds_update, hspec.holds α hside, hr]
    constructor
    · refine holds_replace hf fun hsat => ?_
      rw [replacement]
      split_ifs
      · exact (holds_const true).mpr rfl
      · exact hiff.mpr hsat
    · refine fun htrue => holds_of_replace hf fun hholds => ?_
      rw [replacement] at hholds
      split_ifs at hholds with hdropped
      · -- the literal holds in the model
        rw [← hiff, hspec.free.holds_update]
        exact htrue g hg (of_decide_eq_true ((Bool.and_eq_true _ _).mp hdropped).2)
      · exact hiff.mp hholds

/-- All literals are replaced. -/
theorem foldlM_spec (hsupp : ∀ l ∈ rest, Supported l) (h : BranchInv x rest f)
    (hfold : rest.foldlM (generator.substituteInto lib fresh tc) f = some f') :
    Free x f' ∧ ∀ α : σ → ℝ, SideConditions α tc.substitution.type → ∀ r : ℝ,
      (∀ l ∈ rest, (l.Sat (update α x r) ↔
        ∀ᶠ s in points α tc.substitution.type, l.Sat (update α x s))) →
      (Holds (update α x r) f → Holds (update α x r) f') ∧
        ((∀ l ∈ rest, TrueInModel lib fresh generator tc α l) →
          Holds (update α x r) f' → Holds (update α x r) f) := by
  induction rest generalizing f with
  | nil =>
    obtain rfl : f = f' := some.inj hfold
    exact ⟨h.free, fun _ _ _ _ => ⟨id, fun _ => id⟩⟩
  | cons c rest ih =>
    rw [foldlM_cons] at hfold
    obtain ⟨f₁, hstep, hfold⟩ := bind_eq_some_iff.mp hfold
    have hc := hsupp c mem_cons_self
    have h₁ := h.step hfresh hvar hx hsubVar2 hc hstep
    obtain ⟨hfree, hrest⟩ := ih (fun l hl => hsupp l (mem_cons_of_mem c hl)) h₁ hfold
    refine ⟨hfree, fun α hside r hr => ?_⟩
    obtain ⟨hmono, hback⟩ := holds_step hfresh hvar hx hsubVar2 h.positive hc hstep hside
      (hr c mem_cons_self)
    obtain ⟨hmono', hback'⟩ := hrest α hside r fun l hl => hr l (mem_cons_of_mem c hl)
    refine ⟨fun hf => hmono' (hmono hf), fun htrue hf' => ?_⟩
    exact hback (htrue c mem_cons_self) (hback' (fun l hl => htrue l (mem_cons_of_mem c hl)) hf')

end Branch

/-! ## The explanation -/

section Explanation

variable {fresh : SubVars σ} {generator : ExplanationGenerator σ A} {tc : TestCandidate σ}
  (hfresh : fresh.subVar1 ≠ fresh.subVar2) (hsupp : ∀ l ∈ generator.mConstraints, Supported l)
  (hsubVar2 : ∀ l ∈ generator.mConstraints, fresh.subVar2 ∉ l.variables)

/-- The conjunction of the literals. -/
abbrev conjunction (lib : ExplanationLibrary σ A) (generator : ExplanationGenerator σ A) :
    FormulaT σ A :=
  lib.create .and (generator.mConstraints.map .atom)

theorem holds_conjunction :
    Holds α (conjunction lib generator) ↔ ∀ l ∈ generator.mConstraints, l.Sat α := by
  rw [holds_create_and, List.forall_mem_map]
  exact forall₂_congr fun l _ => holds_atom l

theorem mem_of_mentions (h : (conjunction lib generator).Mentions l) :
    l ∈ generator.mConstraints := by
  obtain ⟨f, hf, hl⟩ := lib.mentions_create l .and _ h
  obtain ⟨l', hl', rfl⟩ := List.mem_map.mp hf
  exact (PropFormula.Formula.mentions_atom l l').mp hl ▸ hl'

theorem branchInv_conjunction : BranchInv x generator.mConstraints (conjunction lib generator) where
  positive := lib.positive_and _ (List.forall_mem_map.mpr fun l _ => .atom l)
  found l hl _ := ⟨mem_of_mentions hl,
    lib.contains_create l .and _ (List.mem_map_of_mem (mem_of_mentions hl)) hl⟩

include hsupp in
theorem mem_atoms_conjunction :
    l ∈ getFormulaAtoms (conjunction lib generator) ↔ (conjunction lib generator).Mentions l := by
  rw [getFormulaAtoms, mem_filter, PropFormula.Formula.mem_atoms, and_iff_left_of_imp]
  intro hl
  have hl := hsupp l (mem_of_mentions hl)
  cases l with
  | constraint c => rfl
  | varcompare v => rfl
  | true | false | varassign => exact hl.elim

/-- Where the side conditions of a test candidate do not hold, neither does its branch. -/
theorem sat_of_branch {b : FormulaT σ A}
    (hb : generator.branch lib fresh (conjunction lib generator) tc = some b) (h : Holds α b) :
    ∀ sc ∈ tc.sideCondition, sc.Sat α := by
  obtain ⟨f, -, rfl⟩ := map_eq_some_iff.mp hb
  rw [holds_create_and, forall_mem_cons, List.forall_mem_map] at h
  intro sc hsc
  rw [← holds_ofConstraint (A := A)]
  exact h.2 sc ((lib.mem_elements _ _).mpr hsc)

include hfresh hsupp hsubVar2

/-- A branch holds exactly if its side conditions hold and the conjunction holds near its candidate. -/
theorem branch_spec {candidates : List (TestCandidate σ)}
    (hcands : generateTestCandidates lib x (getFormulaAtoms (conjunction lib generator))
      = some candidates) (htc : tc ∈ candidates) {b : FormulaT σ A}
    (hb : generator.branch lib fresh (conjunction lib generator) tc = some b) (α : σ → ℝ)
    (hside : ∀ sc ∈ tc.sideCondition, sc.Sat α) : ∃ r : ℝ,
      (∀ l ∈ generator.mConstraints, (l.Sat (update α x r) ↔
        ∀ᶠ s in points α tc.substitution.type, l.Sat (update α x s))) ∧
      (Holds (update α x r) (conjunction lib generator) → Holds α b) ∧
      ((∀ l ∈ generator.mConstraints, TrueInModel lib fresh generator tc α l) → Holds α b →
        Holds (update α x r) (conjunction lib generator)) := by
  have hcand := isCandidate_of_mem hcands htc
  obtain ⟨f, hfold, rfl⟩ := map_eq_some_iff.mp hb
  have hx : x ∉ SubstitutionType.variables tc.substitution.type :=
    fun hmem => (hcand.vars x hmem).2 rfl
  have hfreshVar : fresh.subVar2 ∉ SubstitutionType.variables tc.substitution.type := by
    intro hmem
    obtain ⟨⟨l, hl, hvariable⟩, -⟩ := hcand.vars _ hmem
    exact hsubVar2 l (mem_of_mentions ((mem_atoms_conjunction hsupp).mp hl)) hvariable
  obtain ⟨hfree, htruth⟩ :=
    foldlM_spec hfresh hcand.var hx hfreshVar hsupp branchInv_conjunction hfold
  obtain ⟨r, hr⟩ := exists_representative (l := points α tc.substitution.type) generator.mConstraints
    fun l hl => decided_literal (hsupp l hl) x tc.substitution.type
  obtain ⟨hmono, hback⟩ := htruth α (hcand.defined α hside) r hr
  have hsides : ∀ sc ∈ lib.elements tc.sideCondition, Holds α (ofConstraint sc : FormulaT σ A) := by
    intro sc hsc
    rw [holds_ofConstraint]
    exact hside sc ((lib.mem_elements _ _).mp hsc)
  have hiff : Holds α (lib.create .and (f :: (lib.elements tc.sideCondition).map ofConstraint)) ↔
      Holds (update α x r) f := by
    rw [holds_create_and, forall_mem_cons, List.forall_mem_map, and_iff_left hsides,
      hfree.holds_update]
  exact ⟨r, hr, fun h => hiff.mpr (hmono h), fun htrue h => hback htrue (hiff.mp h)⟩

/-- The eliminated conjunction follows from the literals. -/
theorem holds_eliminateVariable (hprov : Provided x generator.mConstraints) {res : FormulaT σ A}
    (h : generator.eliminateVariable lib fresh (conjunction lib generator) x = some res)
    (hα : ∀ l ∈ generator.mConstraints, l.Sat α) : Holds α res := by
  obtain ⟨candidates, hcands, h⟩ := bind_eq_some_iff.mp h
  obtain ⟨branches, hbrs, rfl⟩ := map_eq_some_iff.mp h
  have hatoms (l : Mcsat.Formula σ A) (hl : l ∈ getFormulaAtoms (conjunction lib generator)) :
      l ∈ generator.mConstraints := mem_of_mentions ((mem_atoms_conjunction hsupp).mp hl)
  have hprov' : Provided x (getFormulaAtoms (conjunction lib generator)) := by
    intro v hv hvar hneg
    obtain ⟨w, hw, hrest⟩ := hprov v (hatoms _ hv) hvar hneg
    refine ⟨w, (mem_atoms_conjunction hsupp).mpr ?_, hrest⟩
    rcases lib.mentions_and generator.mConstraints with ⟨b, hb⟩ | hall
    · -- a constant has no literals
      have hment := (mem_atoms_conjunction hsupp).mp hv
      rw [conjunction, hb] at hment
      exact absurd hment (PropFormula.Formula.mentions_const _ b)
    · exact hall _ hw
  obtain ⟨tc, htc, hside, hmeets⟩ := exists_meeting_candidate hcands hprov'
    (fun l hl => hsupp l (hatoms l hl)) fun l hl => hα l (hatoms l hl)
  obtain ⟨b, hb, hbranch⟩ := exists_result hbrs htc
  obtain ⟨r, hr, hfwd, -⟩ :=
    branch_spec hfresh hsupp hsubVar2 hcands htc hbranch α hside
  rw [holds_create_or]
  refine ⟨b, hb, hfwd ((holds_congr fun l hl => ?_).mpr (holds_conjunction.mpr hα))⟩
  have hmem := mem_of_mentions hl
  exact iff_of_true ((hr l hmem).mpr (hmeets l ((mem_atoms_conjunction hsupp).mpr hl))) (hα l hmem)

/-- The eliminated conjunction is false where the model leaves no value for the variable. -/
theorem not_holds_eliminateVariable (hopen : generator.mModel x = none)
    (hconf : ∀ α : σ → ℝ, generator.mModel.Agrees α → ¬ ∀ l ∈ generator.mConstraints, l.Sat α)
    {res : FormulaT σ A}
    (h : generator.eliminateVariable lib fresh (conjunction lib generator) x = some res)
    (hagrees : generator.mModel.Agrees α) : ¬ Holds α res := by
  obtain ⟨candidates, hcands, h⟩ := bind_eq_some_iff.mp h
  obtain ⟨branches, hbrs, rfl⟩ := map_eq_some_iff.mp h
  rw [holds_create_or]
  rintro ⟨b, hb, hholds⟩
  obtain ⟨tc, htc, hbranch⟩ := exists_argument hbrs hb
  obtain ⟨r, -, -, hback⟩ := branch_spec hfresh hsupp hsubVar2 hcands htc hbranch α
    (sat_of_branch hbranch hholds)
  exact hconf _ (hagrees.update hopen r)
    (holds_conjunction.mp (hback (fun l _ g _ htrue => (lib.evaluate_sound g _ true htrue _ hagrees).mpr rfl) hholds))

omit [RealAlgebraicNumber A] hfresh hsupp hsubVar2 in
/-- Only the target variable is eliminated. -/
theorem getUnassignedVariables_eq (hord : ∃ before after,
    generator.mVariableOrdering = before ++ generator.mTargetVar :: after ∧
      generator.mTargetVar ∉ before ∧ ∀ y ∈ after, ∀ l ∈ generator.mConstraints, y ∉ l.variables) :
    generator.getUnassignedVariables = [generator.mTargetVar] := by
  obtain ⟨before, after, hord, hbef, hafter⟩ := hord
  have hdrop : (before ++ generator.mTargetVar :: after).dropWhile (· ≠ generator.mTargetVar)
      = generator.mTargetVar :: after := by
    rw [dropWhile_append_of_pos, dropWhile_cons_of_neg]
    · simp
    · intro y hy
      refine decide_eq_true ?_
      rintro rfl
      exact hbef hy
  have hrest : after.rdropWhile (· ∉ generator.mConstraints.flatMap (·.variables)) = [] := by
    refine rdropWhile_eq_nil_iff.mpr fun y hy => decide_eq_true fun hmem => ?_
    obtain ⟨l, hl, hvariable⟩ := mem_flatMap.mp hmem
    exact hafter y hy l hl hvariable
  rw [ExplanationGenerator.getUnassignedVariables, hord, hdrop]
  exact congrArg _ hrest

omit hfresh hsupp hsubVar2 in
theorem eliminateVariables_eq (hvars : generator.getUnassignedVariables = [x])
    {explanation : FormulaT σ A} (h : generator.eliminateVariables lib fresh = some explanation) :
    ∃ res, generator.eliminateVariable lib fresh (conjunction lib generator) x = some res ∧
      explanation = lib.create .or (res :: generator.mConstraints.map fun c => .atom c.negated) := by
  obtain ⟨res, hres, rfl⟩ := map_eq_some_iff.mp h
  rw [ExplanationGenerator.eliminated, hvars] at hres
  obtain ⟨res', hres', hend⟩ := bind_eq_some_iff.mp hres
  obtain rfl : res' = res := some.inj hend
  exact ⟨res', hres', rfl⟩

omit hfresh hsupp hsubVar2 in
theorem isSome_branch (hsubst : ∀ l ∈ generator.mConstraints,
    (substituteLiteral lib fresh tc.substitution l).isSome) (f : FormulaT σ A) :
    (generator.branch lib fresh f tc).isSome := by
  rw [ExplanationGenerator.branch, isSome_map]
  generalize generator.mConstraints = rest at hsubst
  induction rest generalizing f with
  | nil => rfl
  | cons l rest ih =>
    obtain ⟨g, hg⟩ := isSome_iff_exists.mp (hsubst l mem_cons_self)
    have hrest (f : FormulaT σ A) := ih f fun l hl => hsubst l (mem_cons_of_mem _ hl)
    rw [foldlM_cons, ExplanationGenerator.substituteInto, hg]
    split_ifs
    · exact hrest _
    · exact hrest f

omit hfresh hsupp hsubVar2 in
/-- An explanation is found if all substitutions succeed. -/
theorem isSome_eliminateVariables (hvars : generator.getUnassignedVariables = [x])
    {candidates : List (TestCandidate σ)}
    (hcands : generateTestCandidates lib x (getFormulaAtoms (conjunction lib generator))
      = some candidates)
    (hsubst : ∀ tc ∈ candidates, ∀ l ∈ generator.mConstraints,
      (substituteLiteral lib fresh tc.substitution l).isSome) :
    (generator.eliminateVariables lib fresh).isSome := by
  have hcands : generateTestCandidates lib x (getFormulaAtoms (lib.create .and
      (generator.mConstraints.map .atom))) = some candidates := hcands
  obtain ⟨branches, hbrs⟩ := isSome_iff_exists.mp
    (isSome_mapM fun tc htc => isSome_branch (hsubst tc htc) (conjunction lib generator))
  rw [ExplanationGenerator.eliminateVariables, isSome_map, ExplanationGenerator.eliminated,
    hvars, foldlM_cons, ExplanationGenerator.eliminateVariable, hcands,
    bind_some, hbrs]
  rfl

omit hfresh hsupp hsubVar2 in
theorem sat_negated (hl : Supported l) : l.negated.Sat α ↔ ¬ l.Sat α := by
  cases l with
  | constraint c => exact Relation.evaluate_inverse c.relation _ _
  | varcompare v =>
    obtain ⟨n, hval⟩ := hl
    rw [Formula.negated, sat_varcompare hval,
      sat_varcompare (v := { v with negated := !v.negated }) hval, ← Relation.evaluate_inverse]
    cases hneg : v.negated with
    | true => simp [varcompRelation, hneg]
    | false => simp [varcompRelation, hneg]
  | true | false | varassign => exact hl.elim

end Explanation

/-- The explanation is valid, and false in the model where the literals are asserted. -/
theorem eliminateVariables_explains (lib : ExplanationLibrary σ A) (fresh : SubVars σ)
    (generator : ExplanationGenerator σ A) (hfresh : fresh.subVar1 ≠ fresh.subVar2)
    (hsubVar2 : ∀ l ∈ generator.mConstraints, fresh.subVar2 ∉ l.variables)
    (hsupported : ∀ l ∈ generator.mConstraints, Supported l)
    (hordering : ∃ before after, generator.mVariableOrdering = before ++ generator.mTargetVar :: after ∧
      generator.mTargetVar ∉ before ∧ ∀ y ∈ after, ∀ l ∈ generator.mConstraints, y ∉ l.variables)
    (hopen : generator.mModel generator.mTargetVar = none)
    (hconflict : ∀ α : σ → ℝ, generator.mModel.Agrees α → ¬ ∀ l ∈ generator.mConstraints, l.Sat α)
    (hprovided : Provided generator.mTargetVar generator.mConstraints) (explanation : FormulaT σ A)
    (h : generator.eliminateVariables lib fresh = some explanation) :
    (∀ α : σ → ℝ, Holds α explanation) ∧ ∃ res, explanation =
        lib.create .or (res :: generator.mConstraints.map fun c => .atom c.negated) ∧
      ∀ α : σ → ℝ, generator.mModel.Agrees α → ¬ Holds α res := by
  obtain ⟨res, hres, rfl⟩ := eliminateVariables_eq (getUnassignedVariables_eq hordering) h
  refine ⟨fun α => ?_, res, rfl, fun α hagrees =>
    not_holds_eliminateVariable hfresh hsupported hsubVar2 hopen hconflict hres hagrees⟩
  rw [holds_create_or]
  by_cases hall : ∀ l ∈ generator.mConstraints, l.Sat α
  · exact ⟨res, mem_cons_self,
      holds_eliminateVariable hfresh hsupported hsubVar2 hprovided hres hall⟩
  · push Not at hall
    obtain ⟨l, hl, hsat⟩ := hall
    refine ⟨.atom l.negated, mem_cons_of_mem _ (List.mem_map.mpr ⟨l, hl, rfl⟩), ?_⟩
    rw [holds_atom, sat_negated (hsupported l hl)]
    exact hsat

section Example

/-- The leading coefficient is a constant that is not zero, so the polynomial has finitely many zeros. -/
private def constantLeading (x : ℕ) (p : Poly ℕ ℚ) : Bool :=
  let lcoeff := Poly.coefficient x (Poly.maxDegree x p) p
  isConstant lcoeff && constantValue lcoeff ≠ 0

private theorem univariate_ne_zero {x : ℕ} {p : Poly ℕ ℚ} (h : constantLeading x p) (α : ℕ → ℝ) :
    Poly.univariate x α p ≠ 0 := by
  obtain ⟨hconst, hne⟩ := (Bool.and_eq_true _ _).mp h
  have hne := of_decide_eq_true hne
  intro hzero
  have hcoeff := congrArg (Polynomial.coeff · (Poly.maxDegree x p)) hzero
  rw [Poly.coeff_univariate, ← cast_constantValue hconst α, Polynomial.coeff_zero] at hcoeff
  exact hne (by exact_mod_cast hcoeff)

/-- An equation with finitely many zeros is false near minus infinity and near a point. -/
private def substituteEquation : ConstraintT ℕ → Substitution ℕ →
    Option (DisjunctionOfConstraintConjunctions ℕ)
  | .proper ⟨lhs, .eq⟩, ⟨x, .minusInfinity⟩ => if constantLeading x lhs then some [] else none
  | .proper ⟨lhs, .eq⟩, ⟨x, .plusEpsilon _⟩ => if constantLeading x lhs then some [] else none
  | _, _ => none

private theorem substituteEquation_cases {c : ConstraintT ℕ} {subs : Substitution ℕ}
    {res : DisjunctionOfConstraintConjunctions ℕ} (h : substituteEquation c subs = some res) :
    res = [] ∧ ∀ α : ℕ → ℝ, ¬ Meets α c subs.var subs.type := by
  have hmeets {lhs : Poly ℕ ℚ} {x : ℕ} (hlead : constantLeading x lhs) (α : ℕ → ℝ) {l : Filter ℝ}
      (hl : PolynomialSign.Decides l) : ¬ Along l .eq (Poly.univariate x α lhs) := by
    rw [along_eq_iff hl]
    exact univariate_ne_zero hlead α
  rw [substituteEquation.eq_def] at h
  split at h
  · split_ifs at h with hlead
    refine ⟨(some.inj h).symm, fun α => ?_⟩
    rw [meets_minusInfinity]
    exact hmeets hlead α PolynomialSign.decides_atBot
  · split_ifs at h with hlead
    refine ⟨(some.inj h).symm, fun α => ?_⟩
    rw [meets_plusEpsilon]
    exact hmeets hlead α (PolynomialSign.decides_right _)
  · cases h

private theorem sqrt_two_of_root {z : ℝ} (hlow : 1 < z) : z ^ 2 - 2 = 0 ↔ z = √2 := by
  constructor
  · intro h
    rw [eq_comm, Real.sqrt_eq_iff_mul_self_eq_of_pos (by linarith)]
    linarith
  · rintro rfl
    rw [Real.sq_sqrt (by norm_num), sub_self]

open Classical in
/-- Constants are evaluated, equations with finitely many zeros are substituted into, and the square root
of two is represented by an interval. -/
private noncomputable def exampleLibrary : ExplanationLibrary ℕ ℝ where
  constraint p r :=
    if isConstant p then .constant (decide (r.evaluate (constantValue p) 0)) else .proper ⟨p, r⟩
  sat_constraint p r α := by
    split_ifs with hconstant
    · rw [ConstraintT.Sat, decide_eq_true_iff, ← cast_constantValue hconstant, evaluate_cast]
    · rfl
  factorization _ := none
  factorization_pos := nofun
  factorization_eval := nofun
  sqrtEx := id
  sqrtEx_defined := EliminationLibrary.defined_id
  sqrtEx_value := EliminationLibrary.value_id
  constraint_constant p r h := ⟨_, if_pos h⟩
  constraint_eq p c h := by
    split_ifs at h
    rw [← ConstraintT.proper.inj h]
  constraint_variables p r := by
    split_ifs
    · exact nil_subset _
    · exact List.Subset.refl _
  factorization_variables := nofun
  sqrtEx_variables _ := List.Subset.refl _
  substitute := substituteEquation
  substitute_exact c subs res h α _ := by
    obtain ⟨rfl, hmeets⟩ := substituteEquation_cases h
    exact iff_of_false not_holds_nil (hmeets α)
  substitute_variables c subs res h conj hconj := by
    obtain ⟨rfl, -⟩ := substituteEquation_cases h
    exact absurd hconj not_mem_nil
  elements := Finset.toList
  mem_elements _ _ := Finset.mem_toList
  create := .app
  holds_create _ _ _ := Iff.rfl
  mentions_create l c fs h := (PropFormula.Formula.mentions_app l c fs).mp h
  positive_and := .and
  positive_or := .or
  contains_create l c fs hl _ := by
    rw [PropFormula.Formula.contains, Bool.or_eq_true]
    exact .inr (decide_eq_true hl)
  mentions_and ls := .inr fun l hl =>
    (PropFormula.Formula.mentions_app l _ _).mpr ⟨.atom l, List.mem_map_of_mem hl,
      (PropFormula.Formula.mentions_atom l l).mpr rfl⟩
  evaluate f m :=
    if ∀ α : ℕ → ℝ, m.Agrees α → Holds α f then some true
    else if ∀ α : ℕ → ℝ, m.Agrees α → ¬ Holds α f then some false else none
  evaluate_sound f m b h α hα := by
    split_ifs at h with htrue hfalse
    · rw [← some.inj h]
      exact iff_of_true (htrue α hα) rfl
    · rw [← some.inj h]
      exact iff_of_false (hfalse α hα) Bool.false_ne_true
  isInterval a := decide (a = √2)
  getIRPolynomial _ := [⟨1, [(9, 2)]⟩, ⟨-2, []⟩]
  mainVar _ := 9
  lower _ := 1
  upper _ := 2
  irPolynomial_variables _ _ y hy := by
    simpa [Poly.variables] using hy
  irPolynomial_root a ha α z hlower _ := by
    rw [show a = √2 from of_decide_eq_true ha, Poly.eval_univariate]
    have hlower : (1 : ℝ) < z := by exact_mod_cast hlower
    rw [show RealAlgebraicNumber.toReal √2 = √2 from rfl, ← sqrt_two_of_root hlower]
    simp [Term.eval]
    rfl
  lower_lt a ha := by
    rw [show a = √2 from of_decide_eq_true ha, show RealAlgebraicNumber.toReal √2 = √2 from rfl,
      Real.lt_sqrt (by norm_num)]
    norm_num
  lt_upper a ha := by
    rw [show a = √2 from of_decide_eq_true ha, show RealAlgebraicNumber.toReal √2 = √2 from rfl,
      Real.sqrt_lt' (by norm_num)]
    norm_num

private def exampleVars : SubVars ℕ := ⟨7, 8⟩

/-- The equation `x0 ^ 2 + 1 = 0`. -/
private def positiveEquation : Mcsat.Formula ℕ ℝ := .constraint ⟨[⟨1, [(0, 2)]⟩, ⟨1, []⟩], .eq⟩

private def positiveGenerator : ExplanationGenerator ℕ ℝ :=
  ⟨[positiveEquation], [1, 0], 0, fun _ => none, true⟩

/-- The only test candidate is minus infinity. -/
private theorem candidates_positiveEquation :
    generateTestCandidates exampleLibrary 0 [positiveEquation]
      = some [⟨⟨0, .minusInfinity⟩, ∅⟩] := by
  have hzeros : generateZeros exampleLibrary ⟨[⟨1, [(0, 2)]⟩, ⟨1, []⟩], .eq⟩ 0 = some [] := by
    decide +kernel
  rw [generateTestCandidates, mapM_cons, candidatesOf, positiveEquation, generateZerosLiteral,
    hzeros]
  rfl

theorem eliminateVariables_explains_positive : ∃ explanation,
    positiveGenerator.eliminateVariables exampleLibrary exampleVars = some explanation ∧
      (∀ α : ℕ → ℝ, Holds α explanation) ∧ ∃ res, explanation = exampleLibrary.create .or
          (res :: positiveGenerator.mConstraints.map fun c => .atom c.negated) ∧
        ∀ α : ℕ → ℝ, positiveGenerator.mModel.Agrees α → ¬ Holds α res := by
  have hvars : positiveGenerator.getUnassignedVariables = [0] := by
    decide +kernel
  have hsome : (positiveGenerator.eliminateVariables exampleLibrary exampleVars).isSome := by
    refine isSome_eliminateVariables hvars candidates_positiveEquation fun tc htc l hl => ?_
    rw [mem_singleton.mp htc, mem_singleton.mp hl]
    decide +kernel
  obtain ⟨explanation, hexpl⟩ := isSome_iff_exists.mp hsome
  refine ⟨explanation, hexpl, eliminateVariables_explains exampleLibrary exampleVars
    positiveGenerator (by decide) ?_ ?_ ⟨[1], [], rfl, by decide, fun y hy => absurd hy not_mem_nil⟩
    rfl ?_ ?_ explanation hexpl⟩
  · intro l hl
    rw [mem_singleton.mp hl]
    decide
  · intro l hl
    rw [mem_singleton.mp hl]
    trivial
  · intro α _ hall
    have hsat := hall positiveEquation mem_cons_self
    simp [positiveEquation, Formula.Sat, Constraint.Sat, Relation.evaluate, Term.eval] at hsat
    nlinarith [sq_nonneg (α 0)]
  · intro v hv
    cases mem_singleton.mp hv

/-- The comparison `x0 = √2`, written as a negation. -/
private noncomputable def negatedComparison : Mcsat.Formula ℕ ℝ :=
  .varcompare ⟨0, .number (.ran √2), .neq, true⟩

/-- The inequation `x1 - 1 >= 0`. -/
private def parameterConstraint : Mcsat.Formula ℕ ℝ := .constraint ⟨[⟨1, [(1, 1)]⟩, ⟨-1, []⟩], .geq⟩

private noncomputable def negatedGenerator : ExplanationGenerator ℕ ℝ :=
  ⟨[negatedComparison, parameterConstraint], [1, 0], 0,
    fun y => if y = 1 then some (.rational 0) else none, true⟩

/-- The root is written as `(0 + sqrt(8)) / 2`. -/
private def rootTerm : SqrtEx ℕ := ⟨[], [⟨1, []⟩], [⟨8, []⟩], [⟨2, []⟩]⟩

private theorem zero_sqrt_two :
    generateZerosNumber exampleLibrary (√2 : ℝ) = some (rootTerm, ∅) := by
  have hnumeric : ¬ RealAlgebraicNumber.isNumeric (√2 : ℝ) = true := by
    classical
    intro h
    have hrational : ∃ q : ℚ, (q : ℝ) = √2 := of_decide_eq_true h
    exact irrational_sqrt_two hrational
  have hival : exampleLibrary.isInterval √2 = true := decide_eq_true rfl
  rw [generateZerosNumber, if_neg hnumeric, if_pos hival]
  have hzeros : generateZeros exampleLibrary ⟨[⟨1, [(9, 2)]⟩, ⟨-2, []⟩], .eq⟩ 9
      = some [(⟨[], [⟨-1, []⟩], [⟨8, []⟩], [⟨2, []⟩]⟩, ∅), (rootTerm, ∅)] := by
    decide +kernel
  show (generateZeros exampleLibrary ⟨[⟨1, [(9, 2)]⟩, ⟨-2, []⟩], .eq⟩ 9).bind _ = _
  rw [hzeros, bind_some]
  show List.find? (fun zero : Zero ℕ =>
    rationalLessThanSqrtEx 1 zero.1 && sqrtExLessThanRational zero.1 2) _ = _
  decide +kernel

/-- The test candidate is behind the root, not at it. -/
private theorem candidates_negated :
    generateTestCandidates exampleLibrary 0 [negatedComparison, parameterConstraint]
      = some [⟨⟨0, .minusInfinity⟩, ∅⟩, ⟨⟨0, .plusEpsilon rootTerm⟩, ∅⟩] := by
  have hcmp : candidatesOf exampleLibrary 0 negatedComparison
      = some [⟨⟨0, .plusEpsilon rootTerm⟩, ∅⟩] := by
    rw [candidatesOf, negatedComparison, generateZerosLiteral, if_pos rfl, generateZerosValue,
      zero_sqrt_two]
    rfl
  have hcon : candidatesOf exampleLibrary 0 parameterConstraint = some [] := by
    decide +kernel
  rw [generateTestCandidates, mapM_cons, hcmp, mapM_cons, hcon]
  decide +kernel

private theorem sat_parameterConstraint (α : ℕ → ℝ) : parameterConstraint.Sat α ↔ 1 ≤ α 1 := by
  simp [parameterConstraint, Formula.Sat, Constraint.Sat, Relation.evaluate, Term.eval]

private theorem supported_negated : ∀ l ∈ negatedGenerator.mConstraints, Supported l := by
  intro l hl
  rcases mem_pair.mp hl with rfl | rfl
  · exact ⟨_, rfl⟩
  · trivial

private theorem subVar2_negated :
    ∀ l ∈ negatedGenerator.mConstraints, exampleVars.subVar2 ∉ l.variables := by
  intro l hl
  rcases mem_pair.mp hl with rfl | rfl
  · decide
  · decide

private theorem ordering_negated : ∃ before after, negatedGenerator.mVariableOrdering
    = before ++ negatedGenerator.mTargetVar :: after ∧ negatedGenerator.mTargetVar ∉ before ∧
      ∀ y ∈ after, ∀ l ∈ negatedGenerator.mConstraints, y ∉ l.variables :=
  ⟨[1], [], rfl, by decide, fun y hy => absurd hy not_mem_nil⟩

/-- Near the test candidates the comparison is false. -/
private theorem not_eventually_comparison (α : ℕ → ℝ) {type : SubstitutionType ℕ}
    (htype : type = .minusInfinity ∨ type = .plusEpsilon rootTerm) :
    ¬ ∀ᶠ r in points α type, negatedComparison.Sat (update α 0 r) := by
  have hsat (r : ℝ) : negatedComparison.Sat (update α 0 r) ↔
      Relation.eq.evaluate ((Polynomial.X - Polynomial.C √2 : Polynomial ℝ).eval r) 0 := by
    rw [negatedComparison, sat_varcompare rfl, Polynomial.eval_sub, Polynomial.eval_X,
      Polynomial.eval_C, Relation.evaluate_sub_zero, update_self]
    rfl
  simp only [hsat]
  rcases htype with rfl | rfl
  · exact fun h => Polynomial.X_sub_C_ne_zero _ ((along_eq_iff PolynomialSign.decides_atBot).mp h)
  · exact fun h =>
      Polynomial.X_sub_C_ne_zero _ ((along_eq_iff (PolynomialSign.decides_right _)).mp h)

private theorem isSome_negated :
    (negatedGenerator.eliminateVariables exampleLibrary exampleVars).isSome := by
  refine isSome_eliminateVariables (getUnassignedVariables_eq ordering_negated) candidates_negated
    fun tc htc l hl => ?_
  rcases mem_pair.mp hl with rfl | rfl
  · rcases mem_pair.mp htc with rfl | rfl
    · decide +kernel
    · rw [negatedComparison, substituteLiteral, substituteComparison, if_pos rfl]
      dsimp only
      rw [generateZerosValue, zero_sqrt_two]
      decide +kernel
  · rcases mem_pair.mp htc with rfl | rfl
    · rfl
    · rfl

theorem not_eliminateVariables_explains :
    ¬ ∀ (lib : ExplanationLibrary ℕ ℝ) (fresh : SubVars ℕ) (generator : ExplanationGenerator ℕ ℝ),
        generator.reduceConflictConstraints = true → fresh.subVar1 ≠ fresh.subVar2 →
        (∀ l ∈ generator.mConstraints, fresh.subVar2 ∉ l.variables) →
        (∀ l ∈ generator.mConstraints, Supported l) →
        (∃ before after, generator.mVariableOrdering = before ++ generator.mTargetVar :: after ∧
          generator.mTargetVar ∉ before ∧
            ∀ y ∈ after, ∀ l ∈ generator.mConstraints, y ∉ l.variables) →
        generator.mModel generator.mTargetVar = none →
        (∀ α : ℕ → ℝ, generator.mModel.Agrees α → ¬ ∀ l ∈ generator.mConstraints, l.Sat α) →
        ∀ explanation, generator.eliminateVariables lib fresh = some explanation →
          ∀ α : ℕ → ℝ, Holds α explanation := by
  intro hall
  have hmod (α : ℕ → ℝ) (h : negatedGenerator.mModel.Agrees α) : α 1 = 0 := by
    have hval := h 1 (.rational 0) rfl
    rw [hval, Number.toReal, Rat.cast_zero]
  obtain ⟨explanation, hexpl⟩ := isSome_iff_exists.mp isSome_negated
  set α : ℕ → ℝ := fun y => if y = 0 then √2 else 1 with hα
  have hconf (α : ℕ → ℝ) (hagrees : negatedGenerator.mModel.Agrees α) :
      ¬ ∀ l ∈ negatedGenerator.mConstraints, l.Sat α := by
    intro hsat
    have hone := (sat_parameterConstraint α).mp
      (hsat parameterConstraint (mem_cons_of_mem _ mem_cons_self))
    rw [hmod α hagrees] at hone
    exact absurd hone (by norm_num)
  have hvalid := hall exampleLibrary exampleVars negatedGenerator rfl (by decide) subVar2_negated
    supported_negated ordering_negated rfl hconf explanation hexpl α
  obtain ⟨res, hres, rfl⟩ :=
    eliminateVariables_eq (getUnassignedVariables_eq ordering_negated) hexpl
  -- the literals hold, so the eliminated conjunction would have to
  have hcmp : negatedComparison.Sat α := by
    rw [negatedComparison, sat_varcompare rfl]
    exact if_pos rfl
  have hlits : ∀ l ∈ negatedGenerator.mConstraints, l.Sat α := by
    intro l hl
    rcases mem_pair.mp hl with rfl | rfl
    · exact hcmp
    · exact (sat_parameterConstraint α).mpr (by simp [hα])
  rw [holds_create_or] at hvalid
  obtain ⟨f, hf, hholds⟩ := hvalid
  rcases mem_cons.mp hf with rfl | hf
  · obtain ⟨candidates, hcands, hres⟩ := bind_eq_some_iff.mp hres
    obtain ⟨branches, hbrs, rfl⟩ := map_eq_some_iff.mp hres
    obtain rfl := some.inj (hcands.symm.trans candidates_negated)
    rw [holds_create_or] at hholds
    obtain ⟨b, hb, hholds⟩ := hholds
    obtain ⟨tc, htc, hbranch⟩ := exists_argument hbrs hb
    obtain ⟨r, hr, -, hback⟩ := branch_spec (by decide) supported_negated subVar2_negated
      hcands htc hbranch α (sat_of_branch hbranch hholds)
    obtain ⟨type, rfl, htype⟩ : ∃ type, tc = ⟨⟨0, type⟩, ∅⟩ ∧
        (type = .minusInfinity ∨ type = .plusEpsilon rootTerm) := by
      rcases mem_pair.mp htc with rfl | rfl
      · exact ⟨_, rfl, .inl rfl⟩
      · exact ⟨_, rfl, .inr rfl⟩
    have hdfn (β : ℕ → ℝ) : SideConditions β type :=
      (isCandidate_of_mem hcands htc).defined β fun sc hsc => absurd hsc (Finset.notMem_empty sc)
    have hvars (y : ℕ) : y ∉ SubstitutionType.variables type := by
      rcases htype with rfl | rfl
      · exact not_mem_nil
      · exact not_mem_nil
    have hspec {l : Mcsat.Formula ℕ ℝ} {g : FormulaT ℕ ℝ} (hl : l ∈ negatedGenerator.mConstraints)
        (hg : substituteLiteral exampleLibrary exampleVars ⟨0, type⟩ l = some g) (β : ℕ → ℝ) :
        Holds β g ↔ ∀ᶠ s in points β type, l.Sat (update β 0 s) :=
      (substituteLiteral_spec (by decide) (hvars _) (hvars _) (supported_negated l hl)
        hg).holds β (hdfn β)
    have htrue : ∀ l ∈ negatedGenerator.mConstraints,
        TrueInModel exampleLibrary exampleVars negatedGenerator ⟨⟨0, type⟩, ∅⟩ α l := by
      intro l hl g hg htrue
      rw [hspec hl hg]
      rcases mem_pair.mp hl with rfl | rfl
      · -- the comparison is not true in the model
        have hagrees : negatedGenerator.mModel.Agrees fun _ : ℕ => (0 : ℝ) := by
          intro y v hv
          obtain ⟨-, hv⟩ := ite_none_right_eq_some.mp hv
          obtain rfl := some.inj hv
          exact Rat.cast_zero.symm
        have hzero := (exampleLibrary.evaluate_sound g _ true htrue _ hagrees).mpr rfl
        exact absurd ((hspec hl hg _).mp hzero) (not_eventually_comparison _ htype)
      · refine Filter.Eventually.of_forall fun s => (sat_parameterConstraint _).mpr ?_
        simp [hα]
    have hsat := holds_conjunction.mp (hback htrue hholds) negatedComparison mem_cons_self
    exact not_eventually_comparison α htype ((hr negatedComparison mem_cons_self).mp hsat)
  · obtain ⟨l, hl, rfl⟩ := List.mem_map.mp hf
    exact (sat_negated (supported_negated l hl)).mp ((holds_atom _).mp hholds) (hlits l hl)

end Example

end Smtrat.Mcsat.Vs
