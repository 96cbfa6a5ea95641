import Smtrat.FPP.FPPModule

/-!
# Checks and runs

An iteration keeps that the partial model extends the assignments of the current formula to such of
the received ones, as long as the preprocessing does not say that the formula is satisfiable and
does not return to variables it has eliminated before.
-/

namespace Smtrat.FPP

open PropFormula SparsePoly ModuleInput List Option

universe u v w x y

variable {U : Type u} {B : Type v} {β : Type w} {γ : Type x} {M : Type y}
  {adm : Set (Assignment (SolverVariable U) B)} {lib : ModelLibrary M adm}
  [DecidableEq U] [DecidableEq B] {cfg : Configuration U B β γ lib}

/-- Nothing is asserted, and there is neither a backtrack point nor an objective. -/
abbrev Clean (m : Manager U B β) : Prop := m.Restored [] [] []

namespace Loop

variable {l l' : Loop U B β M} {full : Bool} {answer : Answer} {m : Manager U B β}
  {received : List (Formula (Atom (SolverVariable U) B))}
  {es : List (FormulaWithOrigins (Atom (SolverVariable U) B))} {os : List (Objective U)}
  {points : List (Option ℕ × ℤ)}

/-! ## Calls of the preprocessing -/

theorem callPreprocessor_based (h : l.mPreprocessor.Restored es os points)
    (hcall : l.callPreprocessor cfg full = some (answer, m)) : m.Based es os points := by
  have hadded := h.push.add cfg.preprocessor.backend l.formulaBeforePreprocessing true
  exact (Manager.check_restored _ _ _ _ hadded.wellFormed hcall).based hadded

omit [DecidableEq U] [DecidableEq B] in
/-- Without objectives the formulas are checked once. -/
theorem backendCheck_eq (bk : Backend U B β) {m₀ : Manager U B β}
    (hc : m₀.backendCheck bk full false = (answer, m)) :
    m₀.received = [] ∧ answer = .sat ∨
      bk.checkCore m₀.received m₀.mpPrimaryBackend.mObjective full false
        m₀.mpPrimaryBackend.state = (answer, m.mpPrimaryBackend.state) := by
  rw [Manager.backendCheck] at hc
  split_ifs at hc with hempty
  · obtain ⟨rfl, -⟩ := Prod.mk.inj hc
    exact Or.inl ⟨List.isEmpty_iff.mp hempty, rfl⟩
  · obtain ⟨rfl, rfl⟩ := Prod.mk.inj hc
    exact Or.inr rfl

/-- The preprocessing checks the conjuncts of the current formula. -/
theorem callPreprocessor_spec (h : Clean l.mPreprocessor)
    (hcall : l.callPreprocessor cfg full = some (answer, m)) :
    ∃ fs, (∀ f, f ∈ fs ↔ f ∈ conjuncts l.formulaBeforePreprocessing) ∧
      (fs = [] ∧ answer = .sat ∨ ∃ x s, cfg.preprocessor.backend.checkCore fs x full false s =
        (answer, m.mpPrimaryBackend.state)) := by
  have hpush : l.mPreprocessor.push.mpPassedFormula.formulas = [] := by
    rw [formulas, Manager.push, h.elements, map_nil]
  obtain ⟨hpass, -, hobjs⟩ := Manager.add_passed cfg.preprocessor.backend
    l.mPreprocessor.push l.formulaBeforePreprocessing true
  have hmem := (h.push.wellFormed.add (.shared none) l.formulaBeforePreprocessing).2
  rw [← hpass, hpush] at hmem
  refine ⟨_, fun f => (hmem f).trans (or_iff_right not_mem_nil), ?_⟩
  have hnone : (l.mPreprocessor.push.add cfg.preprocessor.backend
      l.formulaBeforePreprocessing true).2.mObjectives = [] := hobjs.trans h.objectives
  rw [callPreprocessor, Manager.check, hnone] at hcall
  exact (backendCheck_eq _ (some.inj hcall)).imp_right fun hc => ⟨_, _, hc⟩

/-! ## Iterations -/

/-- The partial model extends the assignments that satisfy the current formula. -/
structure Simplifies (lib : ModelLibrary M adm)
    (received : List (Formula (Atom (SolverVariable U) B))) (l : Loop U B β M) : Prop where
  clean : Clean l.mPreprocessor
  satisfiable : Satisfiable adm received → Satisfiable adm [l.formulaBeforePreprocessing]
  extension : Extends lib received l.formulaBeforePreprocessing l.mPartialModel

/-- The preprocessing does not say that the formula is satisfiable, and neither its model nor the
simplified formula returns to variables that have been eliminated. -/
def Proper (cfg : Configuration U B β γ lib) (full : Bool) (l : Loop U B β M) : Prop :=
  ∀ answer m, l.callPreprocessor cfg full = some (answer, m) → answer ≠ .sat ∧
    (answer = .unknown →
      Separate lib l.mPartialModel (cfg.preprocessor.model m.mpPrimaryBackend.state) ∧
        ((cfg.preprocessor.getReceivedFormulaSimplified m.mpPrimaryBackend.state).1 = true →
          ∀ v ∈ variablesOf
              (cfg.preprocessor.getReceivedFormulaSimplified m.mpPrimaryBackend.state).2,
            v ∉ lib.assigned l.mPartialModel))

/-- What is found to be unsatisfiable is. -/
theorem Simplifies.not_satisfiable (h : l.Simplifies lib received)
    (hcall : l.callPreprocessor cfg full = some (.unsat, m)) : ¬ Satisfiable adm received := by
  obtain ⟨fs, hfs, ⟨-, hans⟩ | ⟨x, s, hc⟩⟩ := callPreprocessor_spec h.clean hcall
  · cases hans
  · intro hsat
    refine cfg.preprocessor.checkCore_unsat fs x full s _ hc ?_
    exact (satisfiable_iff_conjuncts hfs).mp (h.satisfiable hsat)

/-- The model of the preprocessing, if the formula has been simplified and if it has not been. -/
theorem Simplifies.call (h : l.Simplifies lib received)
    (hcall : l.callPreprocessor cfg full = some (.unknown, m)) :
    (∀ g, cfg.preprocessor.getReceivedFormulaSimplified m.mpPrimaryBackend.state = (true, g) →
      (Satisfiable adm received → Satisfiable adm [g]) ∧
        Extends lib [l.formulaBeforePreprocessing] g
          (cfg.preprocessor.model m.mpPrimaryBackend.state)) ∧
      ((cfg.preprocessor.getReceivedFormulaSimplified m.mpPrimaryBackend.state).1 = false →
        Extends lib [l.formulaBeforePreprocessing] l.formulaBeforePreprocessing
          (cfg.preprocessor.model m.mpPrimaryBackend.state)) := by
  obtain ⟨fs, hfs, ⟨-, hans⟩ | ⟨x, s, hc⟩⟩ := callPreprocessor_spec h.clean hcall
  · cases hans
  · constructor
    · intro g hg
      obtain ⟨hsat, hext⟩ :=
        cfg.preprocessor.checkCore_simplified fs x full s _ hc (by rw [hg])
      rw [hg] at hsat hext
      refine ⟨fun hrec => hsat ?_, hext.of_conjuncts hfs⟩
      exact (satisfiable_iff_conjuncts hfs).mp (h.satisfiable hrec)
    · intro hg
      have hext := cfg.preprocessor.checkCore_unchanged fs x full s _ hc hg
      refine (hext.of_conjuncts hfs).congr (fun v hv => ?_) fun a ha => ?_
      · obtain ⟨f, hf, hv⟩ := (mem_variablesOf_conjuncts hfs).mp hv
        obtain ⟨p, hp, hv⟩ := mem_variablesOf.mp hv
        exact mem_variablesOf.mpr ⟨p, (Formula.mentions_app p .and fs).mpr ⟨f, hf, hp⟩, hv⟩
      · exact (satisfies_app_and a fs).mpr ((satisfies_iff_conjuncts hfs a).mp ha)

omit [DecidableEq B] in
theorem state_updateModel (bk : Backend U B β) :
    (m.updateModel bk).mpPrimaryBackend.state = m.mpPrimaryBackend.state := by
  rw [Manager.updateModel]
  split_ifs <;> rfl

variable {last : Bool}

/-- Everything above the backtrack point is removed. -/
theorem useResult_restored (h : m.Based es os points)
    (huse : l.useResult cfg answer m = (last, l')) : l'.mPreprocessor.Restored es os points := by
  simp only [useResult] at huse
  split_ifs at huse with hans hnew <;> obtain ⟨-, rfl⟩ := Prod.mk.inj huse
  · exact h.pop cfg.preprocessor.backend cfg.int
  · exact (h.updateModel cfg.preprocessor.backend).pop cfg.preprocessor.backend cfg.int
  · exact (h.updateModel cfg.preprocessor.backend).pop cfg.preprocessor.backend cfg.int

/-- An answer ends the loop. -/
theorem useResult_of_ne (hans : answer ≠ .unknown)
    (huse : l.useResult cfg answer m = (last, l')) : last = true ∧ l'.answer = answer := by
  simp only [useResult, if_pos hans] at huse
  obtain ⟨rfl, rfl⟩ := Prod.mk.inj huse
  exact ⟨rfl, rfl⟩

/-- An iteration in which the preprocessing has no answer. -/
theorem Simplifies.useResult (h : l.Simplifies lib received) (hproper : l.Proper cfg full)
    (hcall : l.callPreprocessor cfg full = some (.unknown, m))
    (huse : l.useResult cfg .unknown m = (last, l')) :
    l'.Simplifies lib received ∧ l'.answer = .unknown ∧
      l'.mFormulaAfterPreprocessing = l'.formulaBeforePreprocessing := by
  obtain ⟨hsep, hvars⟩ := (hproper .unknown m hcall).2 rfl
  obtain ⟨hsimp, hunchanged⟩ := h.call hcall
  have hclean := ((callPreprocessor_based h.clean hcall).updateModel cfg.preprocessor.backend).pop
    cfg.preprocessor.backend cfg.int
  simp only [Loop.useResult, ne_eq, not_true_eq_false, if_false, state_updateModel] at huse
  rcases hres : cfg.preprocessor.getReceivedFormulaSimplified m.mpPrimaryBackend.state
    with ⟨changed, g⟩
  rw [hres] at huse hsimp hunchanged hvars
  split_ifs at huse with hnew
  case pos =>
    obtain ⟨-, rfl⟩ := Prod.mk.inj huse
    obtain ⟨rfl, -⟩ := hnew
    obtain ⟨hsat, hext⟩ := hsimp g rfl
    exact ⟨⟨hclean, hsat, h.extension.trans hext hsep (hvars rfl)⟩, rfl, rfl⟩
  case neg =>
    obtain ⟨-, rfl⟩ := Prod.mk.inj huse
    have hext : Extends lib [l.formulaBeforePreprocessing] l.formulaBeforePreprocessing
        (cfg.preprocessor.model m.mpPrimaryBackend.state) := by
      cases changed with
      | false => exact hunchanged rfl
      | true =>
        have hsame : l.formulaBeforePreprocessing = g := by
          by_contra hne
          exact hnew ⟨rfl, hne⟩
        exact hsame ▸ (hsimp g rfl).2
    exact ⟨⟨hclean, h.satisfiable, h.extension.trans hext hsep h.extension.eliminated⟩, rfl, rfl⟩

/-! ## The loop -/

/-- All iterations are proper. -/
def ProperLoop (cfg : Configuration U B β γ lib) (full : Bool) : ℕ → ℕ → Loop U B β M → Prop
  | 0, _, _ => True
  | n + 1, iterations, l => Continues cfg iterations → l.Proper cfg full ∧
      ∀ answer m l', l.callPreprocessor cfg full = some (answer, m) →
        l.useResult cfg answer m = (false, l') → ProperLoop cfg full n (iterations + 1) l'

/-- What the loop ends with: a correct answer, or the formula for the backends. -/
structure Preprocessed (lib : ModelLibrary M adm)
    (received : List (Formula (Atom (SolverVariable U) B))) (l : Loop U B β M) : Prop where
  clean : Clean l.mPreprocessor
  not_sat : l.answer ≠ .sat
  unsat : l.answer = .unsat → ¬ Satisfiable adm received
  unknown : l.answer = .unknown → l.Simplifies lib received ∧
    l.mFormulaAfterPreprocessing = l.formulaBeforePreprocessing

omit [DecidableEq U] [DecidableEq B] in
theorem Simplifies.preprocessed (h : l.Simplifies lib received) (hans : l.answer = .unknown)
    (hafter : l.mFormulaAfterPreprocessing = l.formulaBeforePreprocessing) :
    l.Preprocessed lib received where
  clean := h.clean
  not_sat := by rw [hans]; exact nofun
  unsat := by rw [hans]; exact nofun
  unknown _ := ⟨h, hafter⟩

variable {n iterations : ℕ}

theorem Simplifies.preprocess (h : l.Simplifies lib received)
    (hmax : cfg.max_iterations ≠ 0) (hans : l.answer = .unknown)
    (hafter : 0 < iterations → l.mFormulaAfterPreprocessing = l.formulaBeforePreprocessing)
    (hproper : l.ProperLoop cfg full n iterations)
    (hloop : l.preprocess cfg full n iterations = some l') : l'.Preprocessed lib received := by
  induction n generalizing iterations l with
  | zero => cases hloop
  | succ n ih =>
    rw [Loop.preprocess] at hloop
    split_ifs at hloop with hcontinues
    case neg =>
      obtain rfl := some.inj hloop
      refine h.preprocessed hans (hafter (Nat.pos_of_ne_zero ?_))
      rintro rfl
      exact hcontinues (by rw [Continues]; omega)
    case pos =>
      obtain ⟨hnow, hnext⟩ := hproper hcontinues
      split at hloop
      case h_1 => cases hloop
      case h_2 answer m hcall =>
        have hbased := callPreprocessor_based h.clean hcall
        by_cases hunk : answer = .unknown
        case neg =>
          split at hloop
          case h_1 l₁ huse =>
            obtain rfl := some.inj hloop
            obtain ⟨-, hl₁⟩ := useResult_of_ne hunk huse
            refine ⟨useResult_restored hbased huse, hl₁ ▸ (hnow answer m hcall).1, ?_, ?_⟩
            · intro hunsat
              obtain rfl := hl₁.symm.trans hunsat
              exact h.not_satisfiable hcall
            · exact fun heq => absurd (hl₁.symm.trans heq) hunk
          case h_2 l₁ huse => cases (useResult_of_ne hunk huse).1
        case pos =>
          subst hunk
          split at hloop
          case h_1 l₁ huse =>
            obtain rfl := some.inj hloop
            obtain ⟨hl₁, hans₁, hafter₁⟩ := h.useResult hnow hcall huse
            exact hl₁.preprocessed hans₁ hafter₁
          case h_2 l₁ huse =>
            obtain ⟨hl₁, hans₁, hafter₁⟩ := h.useResult hnow hcall huse
            exact ih hl₁ hans₁ (fun _ => hafter₁) (hnext _ _ _ hcall huse) hloop

/-- What is asserted and which objectives there are stays. -/
theorem preprocess_restored (h : l.mPreprocessor.Restored es os points)
    (hloop : l.preprocess cfg full n iterations = some l') :
    l'.mPreprocessor.Restored es os points := by
  induction n generalizing iterations l with
  | zero => cases hloop
  | succ n ih =>
    rw [Loop.preprocess] at hloop
    split_ifs at hloop
    case neg =>
      obtain rfl := some.inj hloop
      exact h
    case pos =>
      split at hloop
      case h_1 => cases hloop
      case h_2 answer m hcall =>
        have hbased := callPreprocessor_based h hcall
        split at hloop
        case h_1 l₁ huse =>
          obtain rfl := some.inj hloop
          exact useResult_restored hbased huse
        case h_2 l₁ huse => exact ih (useResult_restored hbased huse) hloop

/-- The preprocessing can be called when there are no objectives. -/
theorem callPreprocessor_isSome (cfg : Configuration U B β γ lib) (full : Bool) (h : Clean l.mPreprocessor) :
    ∃ answer m, l.callPreprocessor cfg full = some (answer, m) := by
  obtain ⟨-, -, hobjs⟩ := Manager.add_passed cfg.preprocessor.backend
    l.mPreprocessor.push l.formulaBeforePreprocessing true
  rw [callPreprocessor, Manager.check, hobjs.trans h.objectives]
  exact ⟨_, _, rfl⟩

/-- A limited number of iterations comes to an end. -/
theorem exists_preprocess (full : Bool) (h : Clean l.mPreprocessor)
    (hmax : (iterations : ℤ) ≤ cfg.max_iterations)
    (hn : cfg.max_iterations < (iterations : ℤ) + n) :
    ∃ l', l.preprocess cfg full n iterations = some l' := by
  induction n generalizing iterations l with
  | zero => omega
  | succ n ih =>
    rw [Loop.preprocess]
    split_ifs with hcontinues
    case neg => exact ⟨l, rfl⟩
    case pos =>
      obtain ⟨answer, m, hcall⟩ := callPreprocessor_isSome cfg full h
      rw [hcall]
      dsimp only
      split
      case h_1 l₁ huse => exact ⟨l₁, rfl⟩
      case h_2 l₁ huse =>
        have hlt : (iterations : ℤ) < cfg.max_iterations :=
          hcontinues.resolve_left fun hneg => by omega
        refine ih (useResult_restored (callPreprocessor_based h hcall) huse) ?_ ?_
        · push_cast
          omega
        · push_cast
          omega

end Loop

/-! ## Checks -/

namespace FPPModule

variable {m m' : FPPModule U B β γ M} {received : List (Formula (Atom (SolverVariable U) B))}
  {final full : Bool} {objective : Option (SolverVariable U)} {answer : Answer} {fuel : ℕ}

/-- The bound on the iterations is not zero, the check is not a minimizing one, and its iterations
are proper. -/
def ProperCheck (cfg : Configuration U B β γ lib) (fuel : ℕ)
    (received : List (Formula (Atom (SolverVariable U) B))) (full : Bool)
    (objective : Option (SolverVariable U)) (m : FPPModule U B β γ M) : Prop :=
  cfg.max_iterations ≠ 0 ∧ objective = none ∧
    (m.enter cfg received objective).ProperLoop cfg full fuel 0

/-- What a check is to guarantee. -/
structure Correct (cfg : Configuration U B β γ lib)
    (received : List (Formula (Atom (SolverVariable U) B))) (m : FPPModule U B β γ M)
    (answer : Answer) (m' : FPPModule U B β γ M) : Prop where
  unsat : answer = .unsat → ¬ Satisfiable adm received
  sat : answer = .sat → IsModel lib (m'.updateModel cfg received) received
  assertions : m'.mPreprocessor.received = m.mPreprocessor.received
  objectives : m'.mPreprocessor.mObjectives = m.mPreprocessor.mObjectives

/-- What holds between the actions. -/
structure Inv (m : FPPModule U B β γ M) : Prop where
  clean : Clean m.mPreprocessor
  passed : m.mpPassedFormula.WellFormed

omit [DecidableEq U] [DecidableEq B] in
theorem enter_simplifies (h : Inv m) : (m.enter cfg received none).Simplifies lib received where
  clean := h.clean
  satisfiable := by
    rintro ⟨a, ha, hsat⟩
    refine ⟨a, ha, forall_mem_singleton.mpr ?_⟩
    exact (satisfies_create a cfg.pool .and received).mpr ((satisfies_app_and a received).mpr hsat)
  extension := extends_empty fun a ha =>
    (satisfies_app_and a received).mp ((satisfies_create a cfg.pool .and received).mp ha)

theorem clearPassedFormula_spec {p : ModuleInput (Atom (SolverVariable U) B)}
    (hp : p.WellFormed) :
    (clearPassedFormula p).WellFormed ∧ (clearPassedFormula p).elements = [] :=
  hp.foldl_erase _ fun _ he => List.mem_map_of_mem he

variable {minimize : Bool}

/-- The backends get the conjuncts of the formula that is left. -/
theorem runBackends_spec (hp : m.mpPassedFormula.WellFormed)
    (hrun : m.runBackends cfg final full minimize = (answer, m')) :
    m'.mpPassedFormula.WellFormed ∧
      m'.mFormulaAfterPreprocessing = m.mFormulaAfterPreprocessing ∧
      m'.mPartialModel = m.mPartialModel ∧ m'.mPreprocessor = m.mPreprocessor ∧
      ∃ fs, (∀ f, f ∈ fs ↔ f ∈ conjuncts m.mFormulaAfterPreprocessing) ∧
        cfg.backends.run fs final full minimize m.backends = (answer, m'.backends) := by
  obtain ⟨hwf, hnil⟩ := clearPassedFormula_spec hp
  obtain ⟨hwf', hmem⟩ := hwf.add (.shared none) m.mFormulaAfterPreprocessing
  obtain ⟨rfl, rfl⟩ := Prod.mk.inj hrun
  refine ⟨hwf', rfl, rfl, rfl, _, fun f => (hmem f).trans (or_iff_right ?_), rfl⟩
  rw [formulas, hnil]
  exact not_mem_nil

/-- The backends have found a model of the formula that is left. -/
structure Solved (cfg : Configuration U B β γ lib)
    (received : List (Formula (Atom (SolverVariable U) B))) (m : FPPModule U B β γ M) : Prop where
  extension : Extends lib received m.mFormulaAfterPreprocessing m.mPartialModel
  backends : ∃ fs final full minimize b,
    (∀ f, f ∈ fs ↔ f ∈ conjuncts m.mFormulaAfterPreprocessing) ∧
      cfg.backends.run fs final full minimize b = (.sat, m.backends)

omit [DecidableEq U] [DecidableEq B] in
/-- The models of the backends and of all iterations are united. -/
theorem Solved.isModel_updateModel (h : m.Solved cfg received) (hstate : m.mSolverState ≠ .unsat) :
    IsModel lib (m.updateModel cfg received) received := by
  obtain ⟨fs, final, full, minimize, b, hfs, hrun⟩ := h.backends
  obtain ⟨hmod, hvars⟩ := cfg.backends.run_sat fs final full minimize b _ hrun
  rw [updateModel, if_neg hstate]
  refine h.extension.isModel ((isModel_iff_conjuncts hfs).mpr hmod) ?_
  refine Set.disjoint_right.mpr fun v hv hmem => h.extension.eliminated v ?_ hmem
  obtain ⟨f, hf, hv⟩ := mem_flatMap.mp (hvars v hv)
  exact (mem_variablesOf_conjuncts hfs).mpr ⟨f, hf, hv⟩

/-- The answer of the backends for the formula that the loop ends with. -/
theorem runBackends_correct (h : Clean m.mPreprocessor) (hp : m.mpPassedFormula.WellFormed)
    (hextension : Extends lib received m.mFormulaAfterPreprocessing m.mPartialModel)
    (hsatisfiable : Satisfiable adm received → Satisfiable adm [m.mFormulaAfterPreprocessing]) (hrun : m.runBackends cfg final full minimize = (answer, m')) :
    Inv m' ∧ (answer = .unsat → ¬ Satisfiable adm received) ∧
      (answer = .sat → m'.Solved cfg received) := by
  obtain ⟨hwf, hafter, hpartial, hpreprocessor, fs, hfs, hres⟩ := runBackends_spec hp hrun
  refine ⟨⟨hpreprocessor ▸ h, hwf⟩, ?_, ?_⟩
  · rintro rfl hsat
    refine cfg.backends.run_unsat fs final full minimize _ _ hres ?_
    exact (satisfiable_iff_conjuncts hfs).mp (hsatisfiable hsat)
  · rintro rfl
    refine ⟨?_, fs, final, full, minimize, m.backends, ?_, hres⟩
    · rw [hafter, hpartial]
      exact hextension
    · rw [hafter]
      exact hfs

theorem leave_correct {l : Loop U B β M} (hl : l.Preprocessed lib received)
    (hp : m.mpPassedFormula.WellFormed)
    (hleave : m.leave cfg received final full minimize l = (answer, m')) :
    Inv m' ∧ (answer = .unsat → ¬ Satisfiable adm received) ∧
      (answer = .sat → m'.Solved cfg received) := by
  simp only [leave] at hleave
  by_cases hunk : l.answer = .unknown
  case pos =>
    rw [if_pos hunk] at hleave
    obtain ⟨hsimplifies, hafter⟩ := hl.unknown hunk
    let m₀ : FPPModule U B β γ M := { m with
      mFormulaAfterPreprocessing := l.mFormulaAfterPreprocessing
      mPartialModel := l.mPartialModel
      mPreprocessor := l.mPreprocessor }
    have hextension : Extends lib received l.mFormulaAfterPreprocessing l.mPartialModel :=
      hafter ▸ hsimplifies.extension
    have hsat : Satisfiable adm received →
        Satisfiable adm [l.mFormulaAfterPreprocessing] := hafter ▸ hsimplifies.satisfiable
    rcases hrun : m₀.runBackends cfg final full minimize with ⟨result, m₁⟩
    obtain ⟨hinv, hunsat, hslv⟩ :=
      runBackends_correct (m := m₀) hl.clean hp hextension hsat hrun
    rw [show runBackends cfg final full minimize _ = (result, m₁) from hrun] at hleave
    split_ifs at hleave with hres
    · obtain ⟨rfl, rfl⟩ := Prod.mk.inj hleave
      exact ⟨⟨hinv.clean, hinv.passed⟩, hunsat, fun heq => by rw [hres] at heq; cases heq⟩
    · obtain ⟨rfl, rfl⟩ := Prod.mk.inj hleave
      exact ⟨hinv, hunsat, hslv⟩
  case neg =>
    rw [if_neg hunk] at hleave
    split_ifs at hleave with hres
    · obtain ⟨rfl, rfl⟩ := Prod.mk.inj hleave
      exact ⟨⟨hl.clean, hp⟩, hl.unsat, fun heq => absurd heq hl.not_sat⟩
    · obtain ⟨rfl, rfl⟩ := Prod.mk.inj hleave
      exact ⟨⟨hl.clean, hp⟩, hl.unsat, fun heq => absurd heq hl.not_sat⟩

omit [DecidableEq U] [DecidableEq B] in
/-- Without received formulas nothing is left of a model. -/
theorem isModel_updateModel_nil (hstate : m.mSolverState ≠ .unsat) :
    IsModel lib (m.updateModel cfg []) [] := by
  rw [updateModel, if_neg hstate]
  exact isModel_exclude_nil cfg.admissible _

omit [DecidableEq U] [DecidableEq B] in
theorem Inv.unchanged (h : Inv m) (h' : Inv m') :
    m'.mPreprocessor.received = m.mPreprocessor.received ∧
      m'.mPreprocessor.mObjectives = m.mPreprocessor.mObjectives := by
  rw [Manager.received, Manager.received, formulas, formulas, h.clean.elements, h'.clean.elements,
    h.clean.objectives, h'.clean.objectives]
  exact ⟨rfl, rfl⟩

theorem Inv.check (h : Inv m) (hproper : m.ProperCheck cfg fuel received full objective)
    (hchk : m.check cfg fuel received final full objective = some (answer, m')) :
    Inv m' ∧ Correct cfg received m answer m' := by
  rw [FPPModule.check] at hchk
  split_ifs at hchk with hempty
  case pos =>
    obtain rfl := List.isEmpty_iff.mp hempty
    obtain ⟨rfl, rfl⟩ := Prod.mk.inj (some.inj hchk)
    exact ⟨⟨h.clean, h.passed⟩, nofun, fun _ => isModel_updateModel_nil nofun, rfl, rfl⟩
  case neg =>
    obtain ⟨⟨result, m₁⟩, hcore, heq⟩ := map_eq_some_iff.mp hchk
    obtain ⟨rfl, rfl⟩ := Prod.mk.inj heq
    obtain ⟨hmax, rfl, hproper⟩ := hproper
    obtain ⟨l, hloop, hleave⟩ := map_eq_some_iff.mp hcore
    have hl := (enter_simplifies h).preprocess hmax rfl (fun h => absurd h (lt_irrefl 0)) hproper
      hloop
    obtain ⟨hinv, hunsat, hslv⟩ := leave_correct hl h.passed hleave
    obtain ⟨hrec, hobjs⟩ := h.unchanged hinv
    refine ⟨⟨hinv.clean, hinv.passed⟩, hunsat, fun hsat => ?_, hrec, hobjs⟩
    have hslv' := hslv hsat
    exact Solved.isModel_updateModel ⟨hslv'.extension, hslv'.backends⟩
      (by dsimp only; rw [hsat]; exact nofun)

/-- With a bound on the iterations there is a result. -/
theorem Inv.exists_check (h : Inv m) (received : List (Formula (Atom (SolverVariable U) B)))
    (final full : Bool) (hobjective : objective = none)
    (hmax : 0 ≤ cfg.max_iterations) (hfuel : cfg.max_iterations < fuel) :
    ∃ answer m', m.check cfg fuel received final full objective = some (answer, m') := by
  subst hobjective
  rw [FPPModule.check]
  split_ifs
  case pos => exact ⟨_, _, rfl⟩
  case neg =>
    have hclean : Clean (m.enter cfg received none).mPreprocessor := h.clean
    have hfuel : cfg.max_iterations < ((0 : ℕ) : ℤ) + fuel := by simpa using hfuel
    obtain ⟨l, hloop⟩ := Loop.exists_preprocess full hclean hmax hfuel
    rw [checkCore, hloop]
    exact ⟨_, _, rfl⟩

/-! ## Minimizing checks -/

omit [DecidableEq U] [DecidableEq B] in
theorem addObjective_spec (cfg : Configuration U B β γ lib) (x : SolverVariable U) (m : Manager U B β) :
    ∃ o, (m.addObjective cfg.int (Poly.var x) true).mObjectives = m.mObjectives ++ [o] ∧
      (m.addObjective cfg.int (Poly.var x) true).mpPassedFormula = m.mpPassedFormula := by
  rw [Manager.addObjective]
  split_ifs <;> split <;> exact ⟨_, rfl, rfl⟩

theorem leave_mPreprocessor {l : Loop U B β M}
    (hleave : m.leave cfg received final full minimize l = (answer, m')) :
    m'.mPreprocessor = l.mPreprocessor := by
  simp only [leave, runBackends] at hleave
  split_ifs at hleave <;> obtain ⟨-, rfl⟩ := Prod.mk.inj hleave <;> rfl

/-- A minimizing check leaves an objective behind. -/
theorem check_minimizing (h : m.mPreprocessor.mpPassedFormula.WellFormed) (hne : received ≠ [])
    {x : SolverVariable U}
    (hchk : m.check cfg fuel received final full (some x) = some (answer, m')) :
    ∃ o, m'.mPreprocessor.mObjectives = m.mPreprocessor.mObjectives ++ [o] := by
  rw [FPPModule.check, if_neg (by rwa [List.isEmpty_iff])] at hchk
  obtain ⟨⟨result, m₁⟩, hcore, heq⟩ := map_eq_some_iff.mp hchk
  obtain ⟨-, rfl⟩ := Prod.mk.inj heq
  obtain ⟨l, hloop, hleave⟩ := map_eq_some_iff.mp hcore
  obtain ⟨o, ho, hpass⟩ := addObjective_spec cfg x m.mPreprocessor
  refine ⟨o, ?_⟩
  have hrest := Loop.preprocess_restored (.refl (by exact hpass ▸ h)) hloop
  rw [leave_mPreprocessor hleave, hrest.objectives]
  exact ho

end FPPModule

/-! ## Runs -/

/-- The module with the formulas it has received. -/
structure State (U : Type u) (B : Type v) (β : Type w) (γ : Type x) (M : Type y) where
  module : FPPModule U B β γ M
  received : List (Formula (Atom (SolverVariable U) B))

inductive Action (U : Type u) (B : Type v) where
  | inform (constraint : Atom (SolverVariable U) B)
  | add (f : Formula (Atom (SolverVariable U) B))
  | remove (f : Formula (Atom (SolverVariable U) B))
  | check (fuel : ℕ) (final full : Bool) (objective : Option (SolverVariable U))

namespace State

def step (cfg : Configuration U B β γ lib) (s : State U B β γ M) :
    Action U B → Option (State U B β γ M)
  | .inform constraint => some { s with module := s.module.informCore cfg constraint }
  | .add f => some { s with received := s.received ++ [f] }
  | .remove f => some ⟨s.module.remove f, s.received.erase f⟩
  | .check fuel final full objective =>
    (s.module.check cfg fuel s.received final full objective).map fun r => { s with module := r.2 }

/-- The checks are proper. -/
def Careful (cfg : Configuration U B β γ lib) (s : State U B β γ M) : Action U B → Prop
  | .check fuel _ full objective => s.module.ProperCheck cfg fuel s.received full objective
  | _ => True

/-- In all runs of actions that meet a condition the checks are correct. -/
def Meets (cfg : Configuration U B β γ lib) (allowed : State U B β γ M → Action U B → Prop)
    [∀ s a, Decidable (allowed s a)] : Prop :=
  ∀ f m b c as s, Run.run (Run.guarded allowed (step cfg)) ⟨.initial f m b c, []⟩ as = some s →
    ∀ fuel final full objective, allowed s (.check fuel final full objective) →
      ∀ answer m', s.module.check cfg fuel s.received final full objective = some (answer, m') →
        s.module.Correct cfg s.received answer m'

/-- With a bound on the iterations the checks have a result. -/
def Returns (cfg : Configuration U B β γ lib) (allowed : State U B β γ M → Action U B → Prop)
    [∀ s a, Decidable (allowed s a)] : Prop :=
  0 ≤ cfg.max_iterations →
    ∀ f m b c as s, Run.run (Run.guarded allowed (step cfg)) ⟨.initial f m b c, []⟩ as = some s →
      ∀ fuel final full objective, allowed s (.check fuel final full objective) →
        cfg.max_iterations < fuel →
          ∃ r, s.module.check cfg fuel s.received final full objective = some r

theorem inv_step {s s' : State U B β γ M} (h : s.module.Inv) {a : Action U B}
    (ha : Careful cfg s a) (hstep : step cfg s a = some s') : s'.module.Inv := by
  cases a with
  | inform constraint =>
    obtain rfl := some.inj hstep
    exact ⟨⟨h.clean.wellFormed, h.clean.points, h.clean.elements, h.clean.objectives⟩, h.passed⟩
  | add f =>
    obtain rfl := some.inj hstep
    exact h
  | remove f =>
    obtain rfl := some.inj hstep
    exact ⟨h.clean, h.passed.removeReceived f⟩
  | check fuel final full objective =>
    obtain ⟨⟨answer, m⟩, hchk, rfl⟩ := map_eq_some_iff.mp hstep
    exact (h.check ha hchk).1

open Classical in
theorem inv_run {f : Formula (Atom (SolverVariable U) B)} {m : M} {b : β} {c : γ}
    {as : List (Action U B)} {s : State U B β γ M}
    (hrun : Run.run (Run.guarded (Careful cfg) (step cfg)) ⟨.initial f m b c, []⟩ as = some s) :
    s.module.Inv :=
  Run.guarded_invariant (P := fun s : State U B β γ M => s.module.Inv)
    (fun _ _ _ h ha hstep => inv_step h ha hstep)
    ⟨⟨empty_wellFormed, rfl, rfl, rfl⟩, empty_wellFormed⟩ hrun

open Classical in
/-- The checks of all careful runs are correct. -/
theorem correct_careful (cfg : Configuration U B β γ lib) :
    Meets cfg (Careful cfg) ∧ Returns cfg (Careful cfg) := by
  constructor
  · intro f m b c as s hrun fuel final full objective hproper answer m' hchk
    exact ((inv_run hrun).check hproper hchk).2
  · intro hmax f m b c as s hrun fuel final full objective hproper hfuel
    obtain ⟨answer, m', hchk⟩ :=
      (inv_run hrun).exists_check s.received final full hproper.2.1 hmax hfuel
    exact ⟨_, hchk⟩

end State

/-! ## A minimizing check -/

section Examples

open State

/-- Neither the preprocessing nor the backends have an answer. -/
def undecided : Configuration ℕ ℕ Unit Unit (constants (V := SolverVariable ℕ) (B := ℕ)) where
  max_iterations := 5
  pool := .verbatim _
  constraints := .verbatim _ _
  int _ := false
  preprocessor := {
    backend := ⟨fun _ s => s, fun _ s => (true, s), fun _ s => s,
      fun _ _ _ _ s => (.unknown, s), fun _ _ => none⟩
    getReceivedFormulaSimplified := fun _ => (false, .const true)
    model := fun _ _ => none
    checkCore_sat := nofun
    checkCore_unsat := nofun
    checkCore_simplified := nofun
    checkCore_unchanged := fun fs _ _ _ _ _ _ => extends_empty fun a => (satisfies_app_and a fs).mp }
  backends := ⟨fun _ _ _ _ s => (.unknown, s), fun _ _ => none, nofun, nofun⟩
  admissible := ⟨⟨fun _ => 0, fun _ => false, fun _ => false⟩, Set.mem_univ _⟩

/-- The objective of the first minimizing check is left in the preprocessing. -/
theorem not_correct_all : ¬ Meets undecided fun _ _ => True := by
  intro h
  have hcorr := h (.const true) (fun _ => none) () () [.add (.atom (.bool 0))] _ rfl
    6 true true (some (.user 0)) trivial
  obtain ⟨⟨answer, m'⟩, hchk⟩ : ∃ r, FPPModule.check undecided 6 [.atom (.bool 0)] true true
      (some (.user 0)) (.initial (.const true) (fun _ => none) () ()) = some r := ⟨_, rfl⟩
  obtain ⟨o, ho⟩ := FPPModule.check_minimizing empty_wellFormed (cons_ne_nil _ _) hchk
  rw [(hcorr answer m' hchk).objectives] at ho
  exact cons_ne_nil o [] ho.symm

end Examples

end Smtrat.FPP
