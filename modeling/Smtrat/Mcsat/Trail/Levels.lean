import Smtrat.Mcsat.Trail.Solver

/-!
# The stack of theory levels

The levels carry the variables of the variable order, so that the variables of the decided levels are
assigned in this order.  Levels without a decision have no univariate variables, apart from the level
of the non-theory variables.
-/

namespace Smtrat.Mcsat

open SAT List Function Option

variable {σ A : Type*}

/-! ## Decided levels -/

/-- The decision literals, that of the topmost level first. -/
def decisions (stack : List (TheoryLevel σ)) : List Lit := stack.filterMap (·.decisionLiteral)

/-- The variables of the levels with a decision literal, that of the topmost level first. -/
def decidedVariables (stack : List (TheoryLevel σ)) : List σ :=
  stack.filterMap fun l => l.decisionLiteral.bind fun _ => l.theoryVariable

/-- All univariate variables. -/
def univariate (stack : List (TheoryLevel σ)) : List Var := stack.flatMap (·.univariateVariables)

/-- The levels fit the variable order. -/
def Numbered (order : List σ) : List (TheoryLevel σ) → Prop
  | [] => False
  | [l] => l.theoryVariable = none ∧ l.decisionLiteral = none
  | l :: rest =>
    (∀ x, l.theoryVariable = some x → order[rest.length - 1]? = some x) ∧
      (l.decisionLiteral ≠ none → l.theoryVariable ≠ none) ∧
      (l.decisionLiteral = none → l.univariateVariables = []) ∧ Numbered order rest

section Numbered

variable {order : List σ} {l : TheoryLevel σ} {rest stack : List (TheoryLevel σ)}

theorem Numbered.ne_nil (h : Numbered order stack) : stack ≠ [] := by
  rintro rfl
  exact h

theorem numbered_cons (hrest : rest ≠ []) : Numbered order (l :: rest) ↔
    (∀ x, l.theoryVariable = some x → order[rest.length - 1]? = some x) ∧
      (l.decisionLiteral ≠ none → l.theoryVariable ≠ none) ∧
      (l.decisionLiteral = none → l.univariateVariables = []) ∧ Numbered order rest := by
  cases rest with
  | nil => exact absurd rfl hrest
  | cons _ _ => exact Iff.rfl

theorem Numbered.tail (h : Numbered order (l :: rest)) (hrest : rest ≠ []) :
    Numbered order rest :=
  ((numbered_cons hrest).mp h).2.2.2

/-- The lowest level has no decision. -/
theorem Numbered.rest_ne_nil (h : Numbered order (l :: rest)) (hl : l.decisionLiteral ≠ none) :
    rest ≠ [] := by
  rintro rfl
  exact hl h.2

/-- A level with a decision is not the lowest one. -/
theorem Numbered.mem_dropLast (h : Numbered order stack) (hl : l ∈ stack)
    (hdec : l.decisionLiteral ≠ none) : l ∈ stack.dropLast := by
  induction stack with
  | nil => exact absurd hl not_mem_nil
  | cons k rest ih =>
    by_cases hrest : rest = []
    · subst hrest
      obtain rfl := mem_singleton.mp hl
      exact absurd h.2 hdec
    · rw [dropLast_cons_of_ne_nil hrest]
      rcases mem_cons.mp hl with rfl | hl
      · exact mem_cons_self
      · exact mem_cons_of_mem _ (ih (h.tail hrest) hl)

theorem decisions_of_undecided (hl : l.decisionLiteral = none) :
    decisions (l :: rest) = decisions rest :=
  filterMap_cons_none hl

theorem decidedVariables_of_undecided (hl : l.decisionLiteral = none) :
    decidedVariables (l :: rest) = decidedVariables rest :=
  filterMap_cons_none (by rw [hl, bind_none])

theorem decidedVariables_of_decided {lit : Lit} {x : σ} (hl : l.decisionLiteral = some lit)
    (hx : l.theoryVariable = some x) :
    decidedVariables (l :: rest) = x :: decidedVariables rest :=
  filterMap_cons_some (by rw [hl, bind_some, hx])

theorem decisions_of_decided {lit : Lit} (hl : l.decisionLiteral = some lit) :
    decisions (l :: rest) = lit :: decisions rest :=
  filterMap_cons_some hl

/-- The variables of the decided levels appear in the variable order. -/
theorem Numbered.decidedVariables_sublist (h : Numbered order stack) :
    (decidedVariables stack).reverse.Sublist (order.take (stack.length - 1)) := by
  induction stack with
  | nil => exact h.elim
  | cons l rest ih =>
    cases hl : l.decisionLiteral with
    | none =>
      rw [decidedVariables_of_undecided hl]
      by_cases hrest : rest = []
      · subst hrest
        exact nil_sublist _
      · refine (ih (h.tail hrest)).trans (take_sublist_take_left ?_)
        rw [length_cons]
        omega
    | some lit =>
      have hrest := h.rest_ne_nil (by rw [hl]; exact some_ne_none lit)
      obtain ⟨hvar, hdec, -, htail⟩ := (numbered_cons hrest).mp h
      obtain ⟨x, hx⟩ := ne_none_iff_exists'.mp (hdec (by rw [hl]; exact some_ne_none lit))
      have hpos : 0 < rest.length := length_pos_iff.mpr hrest
      have htake : order.take rest.length = order.take (rest.length - 1) ++ [x] := by
        conv_lhs => rw [← Nat.sub_add_cancel hpos]
        rw [take_add_one, hvar x hx, toList_some]
      rw [decidedVariables_of_decided hl hx, reverse_cons, length_cons, Nat.add_sub_cancel, htake]
      exact (ih htail).append (List.Sublist.refl _)

/-- A decided variable has its level at its place in the variable order. -/
theorem Numbered.levelAt {x : σ} (h : Numbered order stack) (hx : x ∈ decidedVariables stack) :
    ∃ above l below, stack = above ++ l :: below ∧ below ≠ [] ∧ l.decisionLiteral ≠ none ∧
      order[below.length - 1]? = some x := by
  induction stack with
  | nil => exact absurd hx not_mem_nil
  | cons l rest ih =>
    cases hl : l.decisionLiteral with
    | none =>
      rw [decidedVariables_of_undecided hl] at hx
      have hrest : rest ≠ [] := by
        rintro rfl
        exact absurd hx not_mem_nil
      obtain ⟨above, k, below, rfl, hk⟩ := ih (h.tail hrest) hx
      exact ⟨l :: above, k, below, rfl, hk⟩
    | some lit =>
      have hne : l.decisionLiteral ≠ none := by
        rw [hl]
        exact some_ne_none lit
      have hrest := h.rest_ne_nil hne
      obtain ⟨hvar, hdec, -, htail⟩ := (numbered_cons hrest).mp h
      obtain ⟨y, hy⟩ := ne_none_iff_exists'.mp (hdec hne)
      rw [decidedVariables_of_decided hl hy] at hx
      rcases mem_cons.mp hx with rfl | hx
      · exact ⟨[], l, rest, rfl, hrest, hne, hvar x hy⟩
      · obtain ⟨above, k, below, rfl, hk⟩ := ih htail hx
        exact ⟨l :: above, k, below, rfl, hk⟩

/-! ## Adding a univariate variable -/

theorem length_addUnivariate (level : ℕ) (v : Var) (stack : List (TheoryLevel σ)) :
    (Mixin.addUnivariate level v stack).length = stack.length := by
  induction stack with
  | nil => rfl
  | cons l rest ih =>
    rw [Mixin.addUnivariate]
    split_ifs
    · rfl
    · rw [length_cons, ih, length_cons]

theorem filterMap_addUnivariate {B : Type*} (p : TheoryLevel σ → Option B)
    (hp : ∀ l vs, p { l with univariateVariables := vs } = p l) (level : ℕ) (v : Var)
    (stack : List (TheoryLevel σ)) :
    (Mixin.addUnivariate level v stack).filterMap p = stack.filterMap p := by
  induction stack with
  | nil => rfl
  | cons l rest ih =>
    rw [Mixin.addUnivariate]
    split_ifs
    · rw [filterMap_cons, filterMap_cons, hp]
    · rw [filterMap_cons, filterMap_cons, ih]

theorem univariate_addUnivariate {level : ℕ} (v : Var) (h : level < stack.length) :
    (univariate (Mixin.addUnivariate level v stack)).Perm (v :: univariate stack) := by
  induction stack with
  | nil => exact absurd h (Nat.not_lt_zero _)
  | cons l rest ih =>
    rw [Mixin.addUnivariate]
    split_ifs with hlev
    · show ((l.univariateVariables ++ [v]) ++ univariate rest).Perm
        (v :: (l.univariateVariables ++ univariate rest))
      rw [append_assoc]
      exact perm_middle
    · have hlt : level < rest.length := by
        rw [length_cons] at h
        omega
      show (l.univariateVariables ++ univariate (Mixin.addUnivariate level v rest)).Perm
        (v :: (l.univariateVariables ++ univariate rest))
      exact ((ih hlt).append_left _).trans perm_middle

/-- A variable is only added to the lowest level or to a decided one. -/
theorem Numbered.addUnivariate {level : ℕ} (v : Var) (h : Numbered order stack)
    (hlev : ∀ above l below, stack = above ++ l :: below → below.length = level →
      below = [] ∨ l.decisionLiteral ≠ none) :
    Numbered order (Mixin.addUnivariate level v stack) := by
  induction stack with
  | nil => exact h.elim
  | cons l rest ih =>
    rw [Mixin.addUnivariate]
    by_cases hrest : rest = []
    · subst hrest
      split_ifs
      · exact h
      · exact h
    · obtain ⟨hvar, hdec, hempty, htail⟩ := (numbered_cons hrest).mp h
      split_ifs with hlen
      · have hl := (hlev [] l rest rfl hlen).resolve_left hrest
        exact (numbered_cons hrest).mpr ⟨hvar, hdec, fun hnone => absurd hnone hl, htail⟩
      · have hlength := length_addUnivariate level v rest
        have hne : Mixin.addUnivariate level v rest ≠ [] := by
          rw [← length_pos_iff, hlength]
          exact length_pos_iff.mpr hrest
        refine (numbered_cons hne).mpr ⟨?_, hdec, hempty, ih htail ?_⟩
        · rwa [hlength]
        · intro above k below heq
          exact hlev (l :: above) k below (by rw [heq]; rfl)

end Numbered

/-! ## The theory level of an abstraction -/

section TheoryLevel

variable [DecidableEq σ] {evaluates : Mixin.Evaluates σ A} {order : List σ} {f : Formula σ A}
  {model : Model σ A}

theorem Model.isSome_of_erase {x y : σ} (h : (model.erase x y).isSome) : (model y).isSome := by
  by_cases hyx : y = x
  · rw [hyx, Model.erase, update_self] at h
    exact absurd h Bool.false_ne_true
  · rwa [Model.erase, update_of_ne hyx] at h

/-- Only a variable with a value changes the evaluation when it is erased. -/
theorem theoryLevelLoop_assigned (hlocal : Mixin.Local evaluates) {level : ℕ}
    (hmod : evaluates f model) {n : ℕ}
    (hn : Mixin.theoryLevelLoop evaluates order f level model = n + 1) :
    n < level ∧ ∃ x, order[n]? = some x ∧ (model x).isSome := by
  induction level generalizing model with
  | zero => exact absurd hn (Nat.succ_ne_zero n).symm
  | succ level ih =>
    rw [Mixin.theoryLevelLoop] at hn
    cases hx : order[level]? with
    | none =>
      rw [hx] at hn
      obtain ⟨hlt, hrest⟩ := ih hmod hn
      exact ⟨Nat.lt_succ_of_lt hlt, hrest⟩
    | some x =>
      rw [hx] at hn
      dsimp only at hn
      have hnext (herased : evaluates f (model.erase x))
          (hn : Mixin.theoryLevelLoop evaluates order f level (model.erase x) = n + 1) :
          n < level + 1 ∧ ∃ x, order[n]? = some x ∧ (model x).isSome := by
        obtain ⟨hlt, y, hy, hsome⟩ := ih herased hn
        exact ⟨Nat.lt_succ_of_lt hlt, y, hy, Model.isSome_of_erase hsome⟩
      split_ifs at hn with hmem heval
      · obtain rfl : level = n := Nat.succ_injective hn
        refine ⟨Nat.lt_succ_self _, x, hx, ?_⟩
        by_contra hnone
        rw [Model.erase, update_eq_self_iff.mpr (not_isSome_iff_eq_none.mp hnone).symm, hmod] at heval
        exact absurd heval Bool.false_ne_true
      · exact hnext (by simpa using heval) hn
      · refine hnext ?_ hn
        have hsame : evaluates f (model.erase x) = evaluates f model := by
          refine hlocal f _ _ fun y hy => update_of_ne ?_ _ _
          rintro rfl
          exact hmem hy
        rw [hsame]
        exact hmod

end TheoryLevel

end Smtrat.Mcsat
