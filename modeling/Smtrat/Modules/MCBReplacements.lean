import Smtrat.Math.Combination
import Smtrat.Modules.MCBModule

/-!
# Correctness of multiple-choice blasting

An assignment is chosen if each Boolean variable tells whether its equation holds.  For such an
assignment the replacement changes no formula.  A model of the received formulas can be chosen by
the values of the new variables; a model of the rewritten formula is chosen once the substitutions
have been evaluated.
-/

namespace Smtrat

open SparsePoly PropFormula List

universe u v

variable {V : Type u} {B : Type v}

/-! ## Default values -/

namespace MCBModelSubstitution

theorem le_raiseDefault (d : ℚ) (a : B × ℚ) : d ≤ raiseDefault d a := by
  rw [raiseDefault]
  split_ifs with h
  · exact h.trans ((Int.le_ceil a.2).trans (lt_add_one _).le)
  · exact le_rfl

theorem lt_raiseDefault (d : ℚ) (a : B × ℚ) : a.2 < raiseDefault d a := by
  rw [raiseDefault]
  split_ifs with h
  · exact (Int.le_ceil a.2).trans_lt (lt_add_one _)
  · exact not_le.mp h

theorem le_foldl_raiseDefault (as : List (B × ℚ)) (d : ℚ) : d ≤ as.foldl raiseDefault d :=
  List.foldlRecOn as _ le_rfl fun e he a _ => he.trans (le_raiseDefault e a)

theorem lt_foldl_raiseDefault {as : List (B × ℚ)} {a : B × ℚ} (ha : a ∈ as) (d : ℚ) :
    a.2 < as.foldl raiseDefault d := by
  induction as generalizing d with
  | nil => cases ha
  | cons e as ih =>
    rcases mem_cons.mp ha with rfl | ha
    · exact (lt_raiseDefault d a).trans_le (le_foldl_raiseDefault as _)
    · exact ih ha _

end MCBModelSubstitution

/-! ## Formulas -/

section Satisfies

variable (a : Assignment V B) (pool : FormulaPool (Atom V B))

@[simp] theorem satisfies_create_and (fs : List (Formula (Atom V B))) :
    a.Satisfies (pool.create .and fs) ↔ ∀ f ∈ fs, a.Satisfies f := by
  simp [Assignment.Satisfies]

@[simp] theorem satisfies_create_iff (f g : Formula (Atom V B)) :
    a.Satisfies (pool.create .iff [f, g]) ↔ (a.Satisfies f ↔ a.Satisfies g) := by
  simp only [Assignment.Satisfies, FormulaPool.eval_create, map_cons, map_nil,
    Connective.eval_iff, beq_iff_eq]
  exact Bool.eq_iff_iff

@[simp] theorem satisfies_create_exclusion (f g : Formula (Atom V B)) :
    a.Satisfies (pool.create .or [pool.create .not [f], pool.create .not [g]])
      ↔ ¬ (a.Satisfies f ∧ a.Satisfies g) := by
  simp only [Assignment.Satisfies, FormulaPool.eval_create, map_cons, map_nil,
    Connective.eval_or, Connective.eval_not, any_cons, any_nil, id, Bool.or_false,
    Bool.or_eq_true, Bool.not_eq_true', not_and_or, Bool.not_eq_true]

end Satisfies

/-- An assignment can be changed at Boolean variables that do not occur. -/
theorem satisfies_congr_bool {a b : Assignment V B} {f : Formula (Atom V B)}
    (harith : a.arith = b.arith) (hthy : a.theory = b.theory)
    (h : ∀ x, f.Mentions (.bool x) → a.bool x = b.bool x) : a.Satisfies f ↔ b.Satisfies f := by
  rw [Assignment.Satisfies, Assignment.Satisfies, Formula.eval_congr fun p hp => ?_]
  refine decide_eq_decide.mpr ?_
  cases p with
  | bool x => rw [Atom.Holds, Atom.Holds, h x hp]
  | constraint c => rw [Atom.Holds, Atom.Holds, harith]
  | theory t => rw [Atom.Holds, Atom.Holds, hthy]

theorem FormulaLibrary.satisfies_substitute (lib : FormulaLibrary V B) {a : Assignment V B}
    {f : Formula (Atom V B)} {repl : List (Formula (Atom V B) × Formula (Atom V B))}
    (h : ∀ r ∈ repl, a.Satisfies r.1 ↔ a.Satisfies r.2) :
    a.Satisfies (lib.substitutor.substitute f repl) ↔ a.Satisfies f := by
  rw [Assignment.Satisfies, lib.substitutor.eval_substitute _ _ _ fun r hr => ?_]
  · exact Iff.rfl
  · exact Bool.eq_iff_iff.mpr (h r hr)

namespace MCBModule

/-! ## Collecting choices -/

variable (lib : FormulaLibrary V B)

theorem collectBounds_correct {cb : ConstraintBounds V B} (h : cb.Correct)
    (f : Formula (Atom V B)) : (collectBounds lib cb f false).Correct := by
  refine List.foldlRecOn _ _ h fun cb hcb g _ => ?_
  split_ifs with hg
  · exact lib.addConstraintBound_correct cb g hg hcb
  · exact hcb

theorem eval_getSingleVariable {p : Poly V ℚ} {x : V} (h : getSingleVariable p = some x)
    (α : V → ℝ) : Poly.eval α p = α x := by
  match p, h with
  | [⟨c, [(y, 1)]⟩], h =>
    rw [getSingleVariable, Option.ite_none_right_eq_some] at h
    obtain ⟨rfl, hy⟩ := h
    cases hy
    simp [Term.eval]

theorem exists_of_mem_choicesOf {bounds : List (ℚ × Relation × Formula (Atom V B))}
    {c : ℚ × Formula (Atom V B)} (h : c ∈ choicesOf bounds) :
    ∃ e ∈ bounds, e.2.1 = .eq ∧ c = (e.1, e.2.2) := by
  obtain ⟨e, he, rfl⟩ := mem_map.mp h
  exact ⟨e, ( takeWhile_prefix _).subset he, of_decide_eq_true (all_eq_true.mp all_takeWhile e he), rfl⟩

/-- Each formula is the equation of the variable with the value, for which there is one choice, and
the Boolean variables are distinct new ones.  No substitution is stored yet. -/
structure WellFormed (start : Nat) (m : MCBModule V B) : Prop where
  mAssignments : m.mAssignments = []
  start_le : start ≤ m.created
  formula : ∀ c ∈ m.mChoices, ∀ a : Assignment V B,
    a.Satisfies c.formula ↔ a.arith c.var = algebraMap ℚ ℝ c.value
  choice : ∀ c ∈ m.mChoices, ∃ n, start ≤ n ∧ n < m.created ∧ c.choice = lib.freshBooleanVariable n
  choice_inj : ∀ c ∈ m.mChoices, ∀ d ∈ m.mChoices, c.choice = d.choice → c = d
  value_inj : ∀ c ∈ m.mChoices, ∀ d ∈ m.mChoices, c.var = d.var → c.value = d.value → c = d

variable {m : MCBModule V B}

theorem wellFormed_empty (hm : m.mAssignments = []) :
    WellFormed lib m.created { m with mChoices := [] } where
  mAssignments := hm
  start_le := le_rfl
  formula := nofun
  choice := nofun
  choice_inj := nofun
  value_inj := nofun

variable {lib} [DecidableEq V] {start : Nat}

theorem WellFormed.addChoice (h : WellFormed lib start m) {x : V} {c : ℚ × Formula (Atom V B)}
    (hc : ∀ a : Assignment V B, a.Satisfies c.2 ↔ a.arith x = algebraMap ℚ ℝ c.1) :
    WellFormed lib start (addChoice lib x m c) := by
  rw [MCBModule.addChoice]
  split_ifs with hany
  · exact h
  · have hval : ∀ d ∈ m.mChoices, d.var = x → d.value ≠ c.1 := by
      simpa using hany
    have hchoice : ∀ d ∈ m.mChoices, d.choice ≠ lib.freshBooleanVariable m.created := by
      intro d hd heq
      obtain ⟨n, -, hlt, hn⟩ := h.choice d hd
      exact hlt.ne (lib.fresh_injective (hn.symm.trans heq))
    constructor
    case mAssignments => exact h.mAssignments
    case start_le => exact h.start_le.trans (Nat.le_succ _)
    case formula =>
      intro d hd
      rcases mem_append.mp hd with hd | hd
      · exact h.formula d hd
      · cases mem_singleton.mp hd
        exact hc
    case choice =>
      intro d hd
      rcases mem_append.mp hd with hd | hd
      · obtain ⟨n, hn, hlt, heq⟩ := h.choice d hd
        exact ⟨n, hn, hlt.trans (Nat.lt_succ_self _), heq⟩
      · cases mem_singleton.mp hd
        exact ⟨m.created, h.start_le, Nat.lt_succ_self _, rfl⟩
    case choice_inj =>
      intro d hd e he heq
      rcases mem_append.mp hd with hd | hd <;> rcases mem_append.mp he with he | he
      · exact h.choice_inj d hd e he heq
      · cases mem_singleton.mp he
        exact absurd heq (hchoice d hd)
      · cases mem_singleton.mp hd
        exact absurd heq.symm (hchoice e he)
      · rw [mem_singleton.mp hd, mem_singleton.mp he]
    case value_inj =>
      intro d hd e he hvar heq
      rcases mem_append.mp hd with hd | hd <;> rcases mem_append.mp he with he | he
      · exact h.value_inj d hd e he hvar heq
      · cases mem_singleton.mp he
        exact absurd heq (hval d hd hvar)
      · cases mem_singleton.mp hd
        exact absurd heq.symm (hval e he hvar.symm)
      · rw [mem_singleton.mp hd, mem_singleton.mp he]

theorem WellFormed.addChoices (h : WellFormed lib start m)
    {poly : Poly V ℚ × List (ℚ × Relation × Formula (Atom V B))}
    (hpoly : ∀ e ∈ poly.2, e.2.1 = .eq → ∀ a : Assignment V B,
      a.Satisfies e.2.2 ↔ Poly.eval a.arith poly.1 = algebraMap ℚ ℝ e.1) :
    WellFormed lib start (addChoices lib m poly) := by
  rw [MCBModule.addChoices]
  split
  · exact h
  · rename_i x hx
    dsimp only
    split_ifs
    · exact h
    · refine List.foldlRecOn _ _ h fun m hm c hc => hm.addChoice fun a => ?_
      obtain ⟨e, he, heq, rfl⟩ := exists_of_mem_choicesOf hc
      rw [hpoly e he heq a, eval_getSingleVariable hx]

theorem WellFormed.collectChoices (h : WellFormed lib start m) (f : Formula (Atom V B)) :
    WellFormed lib start (collectChoices lib m f) := by
  unfold MCBModule.collectChoices
  split
  · rename_i fs
    have hempty : ConstraintBounds.Correct ([] : ConstraintBounds V B) := nofun
    have hcorr := collectBounds_correct lib hempty (.app .or fs)
    exact List.foldlRecOn _ _ h fun m hm poly hp => hm.addChoices (hcorr poly hp)
  · exact h

/-- The choices of a check are those of the formulas that have not been checked before. -/
theorem wellFormed_collect (hm : m.mAssignments = []) (unchecked : List (Formula (Atom V B))) :
    WellFormed lib m.created (unchecked.foldl
      (fun m f => (lib.visit f).foldl (collectChoices lib) m) { m with mChoices := [] }) :=
  List.foldlRecOn unchecked _ (wellFormed_empty lib hm) fun _ hn f _ =>
    List.foldlRecOn (lib.visit f) _ hn fun _ hk g _ => hk.collectChoices g

/-! ## Replacing the equations -/

variable {c : Choice V B}

theorem mem_choicesAt {x : V} : c ∈ m.choicesAt x ↔ c ∈ m.mChoices ∧ c.var = x := by
  rw [choicesAt, mem_filter, decide_eq_true_eq]

section Emplace

variable {K W : Type*} [DecidableEq K]

theorem mem_of_mem_emplace {as : List (K × W)} {k : K} {w : W} {e : K × W}
    (h : e ∈ emplace as k w) : e ∈ as ∨ e = (k, w) := by
  rw [emplace] at h
  split_ifs at h
  · exact .inl h
  · exact (mem_append.mp h).imp_right mem_singleton.mp

/-- Keys that are distinct and new get the values they are emplaced with. -/
theorem foldl_emplace {xs : List K} (hnodup : xs.Nodup) (w : K → W) {as : List (K × W)}
    (hnew : ∀ x ∈ xs, ∀ e ∈ as, e.1 ≠ x) :
    xs.foldl (fun as x => emplace as x (w x)) as = as ++ xs.map fun x => (x, w x) := by
  induction xs generalizing as with
  | nil => simp
  | cons x xs ih =>
    obtain ⟨hx, hnodup⟩ := nodup_cons.mp hnodup
    have hemplace : emplace as x (w x) = as ++ [(x, w x)] := by
      refine if_neg fun hany => ?_
      obtain ⟨e, he, hkey⟩ := any_eq_true.mp hany
      exact hnew x mem_cons_self e he (of_decide_eq_true hkey)
    rw [foldl_cons, hemplace, ih hnodup, append_assoc]
    · rfl
    · intro y hy e he
      rcases mem_append.mp he with he | he
      · exact hnew y (mem_cons_of_mem x hy) e he
      · rw [mem_singleton.mp he]
        rintro rfl
        exact hx hy

end Emplace

/-- Each Boolean variable tells whether its equation holds. -/
def Chosen (m : MCBModule V B) (a : Assignment V B) : Prop :=
  ∀ c ∈ m.mChoices, a.bool c.choice = true ↔ a.arith c.var = algebraMap ℚ ℝ c.value

theorem satisfies_equivalences {a : Assignment V B} {x : V} :
    (∀ g ∈ equivalences lib m x, a.Satisfies g) ↔
      ∀ c ∈ m.choicesAt x, a.bool c.choice = true ↔ a.Satisfies c.formula := by
  simp only [equivalences, forall_mem_map, satisfies_create_iff, satisfies_atom, Atom.Holds]

section LinearOrder

variable [LinearOrder B]

/-- The replacements, as the map from the equations to the Boolean variables. -/
def replacements (m : MCBModule V B) : List (Formula (Atom V B) × Formula (Atom V B)) :=
  m.mChoices.foldl (fun repl c => emplace repl c.formula (Formula.atom (.bool c.choice))) []

theorem exists_of_mem_replacements {r : Formula (Atom V B) × Formula (Atom V B)}
    (h : r ∈ m.replacements) :
    ∃ c ∈ m.mChoices, r = (c.formula, Formula.atom (.bool c.choice)) := by
  revert r
  rw [replacements]
  induction m.mChoices using List.reverseRecOn with
  | nil => exact fun hr => absurd hr not_mem_nil
  | append_singleton cs c ih =>
    intro r hr
    rw [foldl_append] at hr
    rcases mem_of_mem_emplace hr with hr | rfl
    · obtain ⟨d, hd, heq⟩ := ih hr
      exact ⟨d, mem_append_left _ hd, heq⟩
    · exact ⟨c, mem_append_right _ mem_cons_self, rfl⟩

/-- The replacement of the equations in a formula. -/
def replaced (lib : FormulaLibrary V B) (m : MCBModule V B) (f : Formula (Atom V B)) :
    Formula (Atom V B) :=
  lib.substitutor.substitute f m.replacements

/-- A chosen assignment does not see the replacement. -/
theorem Chosen.satisfies_replaced {a : Assignment V B} (h : Chosen m a)
    (hm : WellFormed lib start m) (f : Formula (Atom V B)) :
    a.Satisfies (replaced lib m f) ↔ a.Satisfies f := by
  refine lib.satisfies_substitute fun r hr => ?_
  obtain ⟨c, hc, rfl⟩ := exists_of_mem_replacements hr
  rw [hm.formula c hc a, satisfies_atom, ← h c hc]
  exact Iff.rfl

/-- What is added for a variable. -/
def sideConditions (lib : FormulaLibrary V B) (m : MCBModule V B) (f : Formula (Atom V B)) :
    List (Formula (Atom V B)) :=
  m.vars.flatMap fun x => (if x ∈ gatherVariables (replaced lib m f)
    then equivalences lib m x else []) ++ exclusions lib m x

theorem satisfies_exclusions {a : Assignment V B} {x : V} :
    (∀ g ∈ exclusions lib m x, a.Satisfies g) ↔
      ∀ c ∈ m.choicesAt x, ∀ d ∈ m.choicesAt x, c.choice < d.choice →
        ¬ (a.bool c.choice = true ∧ a.bool d.choice = true) := by
  simp only [exclusions, forall_mem_flatMap, forall_mem_map, mem_filter,
    decide_eq_true_eq, not_le, satisfies_create_exclusion, satisfies_atom, Atom.Holds, and_imp]

theorem Chosen.satisfies_sideConditions {a : Assignment V B} (h : Chosen m a)
    (hm : WellFormed lib start m) (f : Formula (Atom V B)) :
    ∀ g ∈ sideConditions lib m f, a.Satisfies g := by
  rw [sideConditions, forall_mem_flatMap]
  intro x _
  rw [forall_mem_append]
  constructor
  · split_ifs
    · refine satisfies_equivalences.mpr fun c hc => ?_
      have hmem := (mem_choicesAt.mp hc).1
      rw [h c hmem, hm.formula c hmem]
    · exact nofun
  · refine satisfies_exclusions.mpr fun c hc d hd hlt => ?_
    obtain ⟨hc, hcx⟩ := mem_choicesAt.mp hc
    obtain ⟨hd, hdx⟩ := mem_choicesAt.mp hd
    rintro ⟨hctrue, hdtrue⟩
    have hval : algebraMap ℚ ℝ c.value = algebraMap ℚ ℝ d.value := by
      rw [← (h c hc).mp hctrue, ← (h d hd).mp hdtrue, hcx, hdx]
    have hcd := hm.value_inj c hc d hd (hcx.trans hdx.symm) (Rat.cast_injective hval)
    exact hlt.ne (congrArg Choice.choice hcd)

theorem satisfies_applyReplacements (hne : m.mChoices ≠ []) {f : Formula (Atom V B)}
    {a : Assignment V B} :
    a.Satisfies (applyReplacements lib m f).1 ↔
      (∀ g ∈ sideConditions lib m f, a.Satisfies g) ∧ a.Satisfies (replaced lib m f) := by
  have hres : (applyReplacements lib m f).1 =
      if (sideConditions lib m f).isEmpty then replaced lib m f
      else lib.pool.create .and (sideConditions lib m f ++ [replaced lib m f]) := by
    rw [applyReplacements, if_neg (by simpa using hne)]
    rfl
  rw [hres]
  split_ifs with hempty
  · rw [List.isEmpty_iff.mp hempty]
    exact ⟨fun h => ⟨nofun, h⟩, And.right⟩
  · rw [satisfies_create_and, forall_mem_append, forall_mem_singleton]

end LinearOrder

/-! ## Models of the rewritten formula -/

section Choose

variable [DecidableEq B]

omit [DecidableEq V]

/-- The assignment that gives the Boolean variables the truth values of their equations. -/
noncomputable def choose (m : MCBModule V B) (a : Assignment V B) : Assignment V B where
  arith := a.arith
  theory := a.theory
  bool := fun b =>
    match m.mChoices.find? fun c => c.choice = b with
    | some c => decide (a.arith c.var = algebraMap ℚ ℝ c.value)
    | none => a.bool b

theorem chosen_choose (hm : WellFormed lib start m) (a : Assignment V B) :
    Chosen m (m.choose a) := by
  intro c hc
  have hfind : (m.mChoices.find? fun d => d.choice = c.choice) = some c := by
    cases hd : m.mChoices.find? fun d => d.choice = c.choice with
    | none => exact absurd (decide_eq_true rfl) (find?_eq_none.mp hd c hc)
    | some d =>
      have heq : d.choice = c.choice := by simpa using find?_some hd
      rw [hm.choice_inj d (mem_of_find?_eq_some hd) c hc heq]
  simp only [choose, hfind, decide_eq_true_eq]

/-- A formula without new variables does not see the choice. -/
theorem satisfies_choose (hm : WellFormed lib start m) {f : Formula (Atom V B)}
    (hf : ∀ n, start ≤ n → ¬ f.Mentions (.bool (lib.freshBooleanVariable n)))
    (a : Assignment V B) : (m.choose a).Satisfies f ↔ a.Satisfies f := by
  refine satisfies_congr_bool rfl rfl fun b hb => ?_
  have hfind : (m.mChoices.find? fun c => c.choice = b) = none := by
    refine find?_eq_none.mpr fun c hc hcb => ?_
    obtain ⟨n, hn, -, hchoice⟩ := hm.choice c hc
    rw [← of_decide_eq_true hcb, hchoice] at hb
    exact hf n hn hb
  simp only [choose, hfind]

end Choose

/-- The assignment agrees with a model of the backends, except that the variables with a
substitution have the values the substitutions evaluate to. -/
structure Extends (mAssignments : List (V × MCBModelSubstitution B)) (a b : Assignment V B) :
    Prop where
  bool : b.bool = a.bool
  theory : b.theory = a.theory
  other : ∀ x, (∀ e ∈ mAssignments, e.1 ≠ x) → b.arith x = a.arith x
  substituted : ∀ e ∈ mAssignments, b.arith e.1 = algebraMap ℚ ℝ (e.2.evaluateSubstitution b.bool)

/-- There is such an assignment, however the substitutions are evaluated. -/
theorem exists_extends {mAssignments : List (V × MCBModelSubstitution B)}
    (hnodup : (mAssignments.map Prod.fst).Nodup) (a : Assignment V B) :
    ∃ b, Extends mAssignments a b := by
  refine ⟨{ a with arith := fun x => match Combination.find x mAssignments with
    | some s => algebraMap ℚ ℝ (s.evaluateSubstitution a.bool)
    | none => a.arith x }, rfl, rfl, fun x hx => ?_, fun e he => ?_⟩
  · have hfind : Combination.find x mAssignments = none := by
      rw [Combination.find_eq_none, mem_map]
      rintro ⟨e, he, hex⟩
      exact hx e he hex
    simp only [hfind]
  · simp only [Combination.find_of_mem hnodup he]

section Evaluate

variable {x : V} {b : Assignment V B}

/-- At most one choice of a variable is true. -/
def Exclusive (m : MCBModule V B) (x : V) (bool : B → Bool) : Prop :=
  ∀ c ∈ m.choicesAt x, ∀ d ∈ m.choicesAt x, bool c.choice = true → bool d.choice = true → c = d

variable {bool : B → Bool}

/-- The substitution has the value of the choice that is true. -/
theorem evaluateSubstitution_of_true (hexcl : Exclusive m x bool) (hc : c ∈ m.choicesAt x)
    (htrue : bool c.choice = true) :
    (m.substitution x).evaluateSubstitution bool = c.value := by
  have hfind : ((m.choicesAt x).map fun d => (d.choice, d.value)).find? (fun e => bool e.1)
      = some (c.choice, c.value) := by
    rw [find?_map]
    cases hd : (m.choicesAt x).find? ((fun e : B × ℚ => bool e.1) ∘ fun d => (d.choice, d.value)) with
    | none => exact absurd htrue (find?_eq_none.mp hd c hc)
    | some d =>
      have hdtrue : bool d.choice = true := by simpa using find?_some hd
      rw [hexcl d (mem_of_find?_eq_some hd) c hc hdtrue htrue, Option.map_some]
  rw [MCBModelSubstitution.evaluateSubstitution, substitution, MCBModelSubstitution.create, hfind]

theorem evaluateSubstitution_eq_default (hfalse : ∀ c ∈ m.choicesAt x, bool c.choice = false) :
    (m.substitution x).evaluateSubstitution bool = (m.substitution x).mDefault := by
  have hfind : ((m.choicesAt x).map fun d => (d.choice, d.value)).find? (fun e => bool e.1)
      = none := by
    rw [find?_map, Option.map_eq_none_iff, find?_eq_none]
    intro d hd
    simp [hfalse d hd]
  rw [MCBModelSubstitution.evaluateSubstitution, substitution, MCBModelSubstitution.create, hfind]

/-- Without a choice that is true, the substitution has a value above those of all choices. -/
theorem evaluateSubstitution_of_false (hfalse : ∀ c ∈ m.choicesAt x, bool c.choice = false)
    (hc : c ∈ m.choicesAt x) : c.value < (m.substitution x).evaluateSubstitution bool := by
  have hmem : (c.choice, c.value) ∈ (m.choicesAt x).map fun d => (d.choice, d.value) :=
    mem_map_of_mem hc
  rw [evaluateSubstitution_eq_default hfalse]
  exact MCBModelSubstitution.lt_foldl_raiseDefault hmem 0

/-- What is known of a variable that has been eliminated. -/
structure TakesChoice (m : MCBModule V B) (b : Assignment V B) (x : V) : Prop where
  exclusive : Exclusive m x b.bool
  value : b.arith x = algebraMap ℚ ℝ ((m.substitution x).evaluateSubstitution b.bool)

/-- The value of the variable is that of a choice if and only if the choice is true. -/
theorem TakesChoice.iff (h : TakesChoice m b x) (hm : WellFormed lib start m)
    (hc : c ∈ m.choicesAt x) : b.bool c.choice = true ↔ b.arith x = algebraMap ℚ ℝ c.value := by
  rw [h.value]
  constructor
  · intro htrue
    rw [evaluateSubstitution_of_true h.exclusive hc htrue]
  · intro heq
    have heq := Rat.cast_injective heq
    by_cases hall : ∀ d ∈ m.choicesAt x, b.bool d.choice = false
    · exact absurd heq (evaluateSubstitution_of_false hall hc).ne'
    · obtain ⟨d, hd, htrue⟩ : ∃ d ∈ m.choicesAt x, b.bool d.choice = true := by
        simpa using hall
      rw [evaluateSubstitution_of_true h.exclusive hd htrue] at heq
      obtain ⟨hdmem, hdx⟩ := mem_choicesAt.mp hd
      obtain ⟨hcmem, hcx⟩ := mem_choicesAt.mp hc
      rwa [← hm.value_inj d hdmem c hcmem (hdx.trans hcx.symm) heq]

end Evaluate

section Received

variable [LinearOrder B] {f : Formula (Atom V B)} {a b : Assignment V B}

theorem exclusive_of_satisfies (hm : WellFormed lib start m)
    {x : V}
    (h : ∀ g ∈ exclusions lib m x, a.Satisfies g) : Exclusive m x a.bool := by
  intro c hc d hd hctrue hdtrue
  rw [satisfies_exclusions] at h
  rcases lt_trichotomy c.choice d.choice with hlt | heq | hlt
  · exact absurd ⟨hctrue, hdtrue⟩ (h c hc d hd hlt)
  · exact hm.choice_inj c (mem_choicesAt.mp hc).1 d (mem_choicesAt.mp hd).1 heq
  · exact absurd ⟨hdtrue, hctrue⟩ (h d hd c hc hlt)

/-- The variables that no longer occur get a substitution. -/
def eliminated (lib : FormulaLibrary V B) (m : MCBModule V B) (f : Formula (Atom V B)) : List V :=
  m.vars.filter fun x => x ∉ gatherVariables (replaced lib m f)

theorem nodup_eliminated (f : Formula (Atom V B)) : (eliminated lib m f).Nodup :=
  (nodup_dedup _).filter _

theorem mAssignments_applyReplacements (hm : WellFormed lib start m) (f : Formula (Atom V B)) :
    (applyReplacements lib m f).2.mAssignments
      = (eliminated lib m f).map fun x => (x, m.substitution x) := by
  rw [applyReplacements]
  split_ifs with hempty
  · rw [hm.mAssignments, eliminated, vars, List.isEmpty_iff.mp hempty]
    rfl
  · change (eliminated lib m f).foldl (fun as x => emplace as x (m.substitution x)) m.mAssignments
      = _
    rw [hm.mAssignments, foldl_emplace (nodup_eliminated f) _ fun _ _ _ he => absurd he not_mem_nil,
      nil_append]

theorem mem_eliminated {x : V} :
    x ∈ eliminated lib m f ↔ x ∈ m.vars ∧ x ∉ gatherVariables (replaced lib m f) := by
  rw [eliminated, mem_filter, decide_eq_true_eq]

theorem mem_sideConditions {x : V} (hx : x ∈ m.vars) {g : Formula (Atom V B)}
    (hg : g ∈ exclusions lib m x ∨
      x ∈ gatherVariables (replaced lib m f) ∧ g ∈ equivalences lib m x) :
    g ∈ sideConditions lib m f := by
  refine mem_flatMap.mpr ⟨x, hx, ?_⟩
  rcases hg with hg | ⟨hmem, hg⟩
  · exact mem_append_right _ hg
  · rw [if_pos hmem]
    exact mem_append_left _ hg

/-- The substitutions for the eliminated variables extend a model. -/
def ExtendsEliminated (lib : FormulaLibrary V B) (m : MCBModule V B) (f : Formula (Atom V B))
    (a b : Assignment V B) : Prop :=
  Extends ((eliminated lib m f).map fun x => (x, m.substitution x)) a b

theorem ExtendsEliminated.arith_eq (h : ExtendsEliminated lib m f a b) {x : V}
    (hx : x ∉ eliminated lib m f) : b.arith x = a.arith x := by
  refine h.other x fun e he => ?_
  obtain ⟨y, hy, rfl⟩ := mem_map.mp he
  rintro rfl
  exact hx hy

theorem ExtendsEliminated.takesChoice (h : ExtendsEliminated lib m f a b)
    (hm : WellFormed lib start m) (ha : ∀ g ∈ sideConditions lib m f, a.Satisfies g) {x : V}
    (hx : x ∈ eliminated lib m f) : TakesChoice m b x where
  exclusive := by
    rw [h.bool]
    exact exclusive_of_satisfies hm fun g hg =>
      ha g (mem_sideConditions (mem_eliminated.mp hx).1 (.inl hg))
  value := h.substituted _ (mem_map_of_mem hx)

/-- The equations of eliminated variables hold by their values, the others by the equivalences. -/
theorem ExtendsEliminated.chosen (h : ExtendsEliminated lib m f a b)
    (hm : WellFormed lib start m) (ha : ∀ g ∈ sideConditions lib m f, a.Satisfies g) :
    Chosen m b := by
  intro c hc
  have hat : c ∈ m.choicesAt c.var := mem_choicesAt.mpr ⟨hc, rfl⟩
  by_cases hx : c.var ∈ eliminated lib m f
  · exact (h.takesChoice hm ha hx).iff hm hat
  · have hvars : c.var ∈ m.vars := mem_dedup.mpr (mem_map_of_mem hc)
    have hmem : c.var ∈ gatherVariables (replaced lib m f) :=
      not_not.mp fun hn => hx (mem_eliminated.mpr ⟨hvars, hn⟩)
    have heq := satisfies_equivalences.mp
      (fun g hg => ha g (mem_sideConditions hvars (.inr ⟨hmem, hg⟩))) c hat
    rw [h.bool, heq, hm.formula c hc, h.arith_eq hx]

/-- The formula after the replacements does not depend on the eliminated variables. -/
theorem ExtendsEliminated.satisfies_replaced (h : ExtendsEliminated lib m f a b) :
    b.Satisfies (replaced lib m f) ↔ a.Satisfies (replaced lib m f) :=
  satisfies_congr h.bool h.theory fun _ hx =>
    h.arith_eq fun hmem => (mem_eliminated.mp hmem).2 hx

end Received

/-! ## Checks -/

section Check

variable [LinearOrder B] {f : Formula (Atom V B)}

theorem satisfiable_applyReplacements (hm : WellFormed lib start m)
    (hf : ∀ n, start ≤ n → ¬ f.Mentions (.bool (lib.freshBooleanVariable n))) :
    (∃ a : Assignment V B, a.Satisfies f) →
      ∃ a : Assignment V B, a.Satisfies (applyReplacements lib m f).1 := by
  rintro ⟨a, ha⟩
  by_cases hne : m.mChoices = []
  · refine ⟨a, ?_⟩
    rwa [applyReplacements, if_pos (List.isEmpty_iff.mpr hne)]
  · have hchosen := chosen_choose hm a
    refine ⟨m.choose a, (satisfies_applyReplacements hne).mpr
      ⟨hchosen.satisfies_sideConditions hm f, ?_⟩⟩
    rwa [hchosen.satisfies_replaced hm, satisfies_choose hm hf]

theorem extends_applyReplacements (hm : WellFormed lib start m) {a b : Assignment V B}
    (ha : a.Satisfies (applyReplacements lib m f).1) (hb : ExtendsEliminated lib m f a b) :
    b.Satisfies f ∧ ∀ x ∈ eliminated lib m f, TakesChoice m b x := by
  by_cases hne : m.mChoices = []
  · have hvars : m.vars = [] := by rw [vars, hne]; rfl
    have hempty : eliminated lib m f = [] := by rw [eliminated, hvars]; rfl
    rw [applyReplacements, if_pos (List.isEmpty_iff.mpr hne)] at ha
    refine ⟨(satisfies_congr hb.bool hb.theory fun x _ => hb.arith_eq ?_).mpr ha, ?_⟩ <;>
      simp [hempty]
  · obtain ⟨hside, hres⟩ := (satisfies_applyReplacements hne).mp ha
    refine ⟨?_, fun x hx => hb.takesChoice hm hside hx⟩
    rwa [← (hb.chosen hm hside).satisfies_replaced hm, hb.satisfies_replaced]

/-- The variable has the value of a choice that is true, or without one a default value above the
values of all its choices. -/
def ChoiceOrDefault (m : MCBModule V B) (b : Assignment V B) (x : V) : Prop :=
  (∃ c ∈ m.choicesAt x, b.bool c.choice = true ∧ b.arith x = algebraMap ℚ ℝ c.value) ∨
    (∀ c ∈ m.choicesAt x, b.bool c.choice = false ∧ algebraMap ℚ ℝ c.value < b.arith x) ∧
      b.arith x = algebraMap ℚ ℝ (m.substitution x).mDefault

omit [LinearOrder B] in
theorem TakesChoice.choiceOrDefault {b : Assignment V B} {x : V} (h : TakesChoice m b x) :
    ChoiceOrDefault m b x := by
  by_cases hall : ∀ c ∈ m.choicesAt x, b.bool c.choice = false
  · refine .inr ⟨fun c hc => ⟨hall c hc, ?_⟩, ?_⟩
    · rw [h.value]
      exact Rat.cast_lt.mpr (evaluateSubstitution_of_false hall hc)
    · rw [h.value, evaluateSubstitution_eq_default hall]
  · obtain ⟨c, hc, htrue⟩ : ∃ c ∈ m.choicesAt x, b.bool c.choice = true := by
      simpa using hall
    refine .inl ⟨c, hc, htrue, ?_⟩
    rw [h.value, evaluateSubstitution_of_true h.exclusive hc htrue]

theorem applyReplacements_rewrites (hm : WellFormed lib start m)
    (hf : ∀ n, start ≤ n → ¬ f.Mentions (.bool (lib.freshBooleanVariable n))) :
    ((∃ a : Assignment V B, a.Satisfies f)
      ↔ ∃ a : Assignment V B, a.Satisfies (applyReplacements lib m f).1) ∧
    ∀ a : Assignment V B, a.Satisfies (applyReplacements lib m f).1 →
      (∃ b, Extends (applyReplacements lib m f).2.mAssignments a b) ∧
      ∀ b, Extends (applyReplacements lib m f).2.mAssignments a b → b.Satisfies f ∧
        ∀ e ∈ (applyReplacements lib m f).2.mAssignments,
          ChoiceOrDefault (applyReplacements lib m f).2 b e.1 := by
  have hents := mAssignments_applyReplacements hm f
  have hkeys : (((eliminated lib m f).map fun x => (x, m.substitution x)).map Prod.fst).Nodup := by
    rw [map_map]
    exact (map_id _).symm ▸ nodup_eliminated f
  have hat : ∀ x, (applyReplacements lib m f).2.choicesAt x = m.choicesAt x := by
    intro x
    rw [choicesAt, applyReplacements]
    split_ifs <;> rfl
  have hsubst : ∀ x, (applyReplacements lib m f).2.substitution x = m.substitution x := by
    intro x
    rw [substitution, hat]
    rfl
  rw [hents]
  refine ⟨⟨satisfiable_applyReplacements hm hf, ?_⟩, fun a ha => ⟨exists_extends hkeys a, ?_⟩⟩
  · rintro ⟨a, ha⟩
    obtain ⟨b, hb⟩ := exists_extends hkeys a
    exact ⟨b, (extends_applyReplacements hm ha hb).1⟩
  · intro b hb
    obtain ⟨hf, hchoice⟩ := extends_applyReplacements hm ha hb
    refine ⟨hf, fun e he => ?_⟩
    obtain ⟨x, hx, rfl⟩ := mem_map.mp he
    have hx := (hchoice x hx).choiceOrDefault
    rwa [ChoiceOrDefault, hsubst, hat]

end Check

/-! ## A library for bounds of single variables -/

section Example

/-- The bound is added to those of its polynomial. -/
private def addBound (cb : ConstraintBounds Nat Nat) (f : Formula (Atom Nat Nat)) (_ : Bool) :
    ConstraintBounds Nat Nat :=
  match f with
  | .atom (.constraint ⟨[t, ⟨c, []⟩], r⟩) =>
    (cb.filter fun p => p.1 ≠ [t]) ++ [([t], (Combination.find [t] cb).getD [] ++ [(-c, r, f)])]
  | _ => cb

private theorem addBound_correct {cb : ConstraintBounds Nat Nat} (h : cb.Correct)
    (f : Formula (Atom Nat Nat)) (conjunction : Bool) :
    ConstraintBounds.Correct (addBound cb f conjunction) := by
  unfold addBound
  split
  · rename_i t c r
    intro p hp e he
    rcases mem_append.mp hp with hp | hp
    · exact h p (mem_filter.mp hp).1 e he
    · cases mem_singleton.mp hp
      rcases mem_append.mp he with he | he
      · cases hfind : Combination.find [t] cb with
        | none => simp [hfind] at he
        | some es =>
          rw [hfind] at he
          exact h ([t], es) (Combination.mem_of_find hfind) e he
      · cases mem_singleton.mp he
        rintro rfl a
        rw [satisfies_atom, Atom.Holds, Constraint.Sat, Relation.evaluate]
        simp [Term.eval, add_eq_zero_iff_eq_neg]
  · exact h

/-- The library, for formulas that are flat. -/
private def flatLibrary : FormulaLibrary Nat Nat where
  visit := fun f => f :: f.subformulas
  addConstraintBound := addBound
  addConstraintBound_correct := fun _ f _ h => addBound_correct h f false
  substitutor := FormulaSubstitutor.topmost _
  pool := FormulaPool.verbatim _
  freshBooleanVariable := Nat.succ
  fresh_injective := Nat.succ_injective

/-- `x0 = q`. -/
private def equation (q : ℚ) : Formula (Atom Nat Nat) :=
  .atom (.constraint ⟨[⟨1, [(0, 1)]⟩, ⟨-q, []⟩], .eq⟩)

/-- `x0 = 1 or x0 = 2 or b0`. -/
private def threeChoices : Formula (Atom Nat Nat) :=
  .app .or [equation 1, equation 2, .atom (.bool 0)]

private theorem fresh_threeChoices : ∀ f ∈ [threeChoices], ∀ n, 0 ≤ n →
    ¬ f.Mentions (.bool (flatLibrary.freshBooleanVariable n)) := by
  intro f hf n _
  cases mem_singleton.mp hf
  simp [threeChoices, equation, flatLibrary]

end Example

end MCBModule

end Smtrat
