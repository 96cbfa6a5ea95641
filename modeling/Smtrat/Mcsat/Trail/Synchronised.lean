import Smtrat.Common.Run
import Smtrat.Mcsat.Trail.Invariant

/-!
# The trail, the theory levels and the backend are synchronised

As long as a theory decision does not return more values than are inserted, every step of the search
keeps the three stacks together.  The values are pushed before their literals, so within a theory
decision some assigned variables wait for their level.
-/

namespace Smtrat.Mcsat

open SAT List

variable {σ A : Type*}

/-! ## The literals of the backend's stacks -/

/-- The literal is asserted as a constraint. -/
def asConstraint : Option (Formula σ A) → Option (Formula σ A)
  | some (.constraint c) => some (.constraint c)
  | _ => none

/-- The literal is asserted as a bound. -/
def asBound : Option (Formula σ A) → Option (Formula σ A)
  | some (.varcompare v) => some (.varcompare v)
  | _ => none

/-- The variables that are added to the theory levels. -/
def addedVariables (map : List (Option (Formula σ A × Formula σ A))) : List Var :=
  (List.range map.length).filter fun v => (map[v]?).any Solver.isAdded

theorem addedVariables_append (map : List (Option (Formula σ A × Formula σ A)))
    (a : Option (Formula σ A × Formula σ A)) :
    addedVariables (map ++ [a])
      = addedVariables map ++ if Solver.isAdded a then [map.length] else [] := by
  rw [addedVariables, length_append, length_singleton, range_succ, filter_append, addedVariables]
  congr 1
  · refine filter_congr fun v hv => ?_
    rw [getElem?_append_left (mem_range.mp hv)]
  · rw [filter_singleton, getElem?_concat_length, Option.any_some]
    cases Solver.isAdded a <;> rfl

section Assignment

variable {m : Mixin σ A} {f : Option (Formula σ A)}

theorem constraints_doAssignment (m : Mixin σ A) (f : Option (Formula σ A)) :
    (m.doAssignment f).backend.constraints = m.backend.constraints ++ (asConstraint f).toList ∧
      (m.doAssignment f).backend.mvBounds = m.backend.mvBounds ++ (asBound f).toList := by
  rcases f with _ | f
  · exact ⟨(append_nil _).symm, (append_nil _).symm⟩
  · cases f with
    | true | false | varassign => exact ⟨(append_nil _).symm, (append_nil _).symm⟩
    | constraint c => exact ⟨rfl, (append_nil _).symm⟩
    | varcompare v => exact ⟨(append_nil _).symm, rfl⟩

theorem constraints_undoAssignment {cs bs : List (Formula σ A)}
    (hcs : m.backend.constraints = cs ++ (asConstraint f).toList)
    (hbs : m.backend.mvBounds = bs ++ (asBound f).toList) :
    (m.undoAssignment f).backend.constraints = cs ∧ (m.undoAssignment f).backend.mvBounds = bs := by
  rcases f with _ | f
  · exact ⟨hcs.trans (append_nil _), hbs.trans (append_nil _)⟩
  · cases f with
    | true | false | varassign =>
      exact ⟨hcs.trans (append_nil _), hbs.trans (append_nil _)⟩
    | constraint c =>
      refine ⟨?_, hbs.trans (append_nil _)⟩
      show m.backend.constraints.dropLast = cs
      rw [hcs]
      exact dropLast_concat
    | varcompare v =>
      refine ⟨hcs.trans (append_nil _), ?_⟩
      show m.backend.mvBounds.dropLast = bs
      rw [hbs]
      exact dropLast_concat

end Assignment

/-- The levels do not see the constraints of the backend. -/
theorem Mixin.InSync.congr {m m' : Mixin σ A} {pending : List σ} (h : m.InSync pending)
    (hstack : m'.theoryStack = m.theoryStack)
    (hasgn : m'.backend.assignedVariables = m.backend.assignedVariables)
    (hmod : m'.backend.model = m.backend.model)
    (horder : m'.backend.variableOrder = m.backend.variableOrder) : m'.InSync pending where
  numbered := by rw [hstack, horder]; exact h.numbered
  nodup := by rw [horder]; exact h.nodup
  top := by rw [hstack]; exact h.top
  assigned := by rw [hasgn, hstack]; exact h.assigned
  model := by rw [hasgn, hmod]; exact h.model
  upcoming := by rw [horder, hstack]; exact h.upcoming
  current := by rw [hstack]; exact h.current

theorem Mixin.InSync.doAssignment {m : Mixin σ A} {pending : List σ} (h : m.InSync pending)
    (f : Option (Formula σ A)) : (m.doAssignment f).InSync pending := by
  rcases f with _ | f
  · exact h
  · cases f with
    | true | false | constraint | varcompare | varassign => exact h.congr rfl rfl rfl rfl

theorem Mixin.InSync.undoAssignment {m : Mixin σ A} {pending : List σ} (h : m.InSync pending)
    (f : Option (Formula σ A)) : (m.undoAssignment f).InSync pending := by
  rcases f with _ | f
  · exact h
  · cases f with
    | true | false | constraint | varcompare | varassign => exact h.congr rfl rfl rfl rfl

theorem Mixin.stacks_doAssignment (m : Mixin σ A) (f : Option (Formula σ A)) :
    (m.doAssignment f).theoryStack = m.theoryStack ∧
      (m.doAssignment f).undecidedVariables = m.undecidedVariables := by
  rw [Mixin.doAssignment]
  cases theoryConstraint f with
  | none => exact ⟨rfl, rfl⟩
  | some f => exact ⟨rfl, rfl⟩

theorem Mixin.stacks_undoAssignment (m : Mixin σ A) (f : Option (Formula σ A)) :
    (m.undoAssignment f).theoryStack = m.theoryStack ∧
      (m.undoAssignment f).undecidedVariables = m.undecidedVariables := by
  rw [Mixin.undoAssignment]
  cases theoryConstraint f with
  | none => exact ⟨rfl, rfl⟩
  | some f => exact ⟨rfl, rfl⟩

namespace Solver

/-! ## The invariant -/

/-- The invariant of the search; the variables `pending` are assigned and wait for their level. -/
structure Inv (s : Solver σ A) (pending : List σ) : Prop where
  inSync : s.mcsat.InSync pending
  decisions : (decisions s.mcsat.theoryStack).Sublist s.trail
  literals : ∀ l ∈ s.trail, l.var < s.booleanConstraintMap.length
  constraints : s.mcsat.backend.constraints
    = s.trail.reverse.filterMap fun l => asConstraint (s.reabstractLiteral l)
  mvBounds : s.mcsat.backend.mvBounds
    = s.trail.reverse.filterMap fun l => asBound (s.reabstractLiteral l)
  univariate : (s.mcsat.undecidedVariables ++ univariate s.mcsat.theoryStack).Perm
    (addedVariables s.booleanConstraintMap)

variable {s : Solver σ A} {pending : List σ}

theorem inv_init (assumptions : List Lit) : (init assumptions : Solver σ A).Inv [] where
  inSync :=
    { numbered := ⟨rfl, rfl⟩
      nodup := nodup_nil
      top := by
        intro l rest hcons
        rw [← (List.cons.inj hcons).1]
        rfl
      assigned := rfl
      model := fun x => iff_of_false Bool.false_ne_true not_mem_nil
      upcoming := nil_prefix
      current := fun hpend => absurd rfl hpend }
  decisions := nil_sublist _
  literals := fun _ hl => absurd hl not_mem_nil
  constraints := rfl
  mvBounds := rfl
  univariate := List.Perm.refl _

/-! ## Enqueueing -/

theorem Inv.newDecisionLevel (h : s.Inv pending) : s.newDecisionLevel.Inv pending := { h with }

variable {l : Lit}

theorem Inv.uncheckedEnqueue (h : s.Inv pending)
    (hl : l.var < s.booleanConstraintMap.length) : (s.uncheckedEnqueue l).Inv pending where
  inSync := h.inSync.doAssignment _
  decisions := by
    show (Mcsat.decisions (s.mcsat.doAssignment _).theoryStack).Sublist (l :: s.trail)
    rw [(Mixin.stacks_doAssignment s.mcsat _).1]
    exact h.decisions.cons l
  literals := forall_mem_cons.mpr ⟨hl, h.literals⟩
  constraints := by
    show (s.mcsat.doAssignment _).backend.constraints = (l :: s.trail).reverse.filterMap _
    rw [(constraints_doAssignment s.mcsat _).1, h.constraints, reverse_cons, filterMap_append]
    congr 1
  mvBounds := by
    show (s.mcsat.doAssignment _).backend.mvBounds = (l :: s.trail).reverse.filterMap _
    rw [(constraints_doAssignment s.mcsat _).2, h.mvBounds, reverse_cons, filterMap_append]
    congr 1
  univariate := by
    show ((s.mcsat.doAssignment _).undecidedVariables
      ++ Mcsat.univariate (s.mcsat.doAssignment _).theoryStack).Perm _
    rw [(Mixin.stacks_doAssignment s.mcsat _).1, (Mixin.stacks_doAssignment s.mcsat _).2]
    exact h.univariate

/-! ## New variables -/

theorem reabstractLiteral_append {map : List (Option (Formula σ A × Formula σ A))} {m : Mixin σ A}
    {a : Option (Formula σ A × Formula σ A)} (hl : l.var < s.booleanConstraintMap.length)
    (hmap : map = s.booleanConstraintMap ++ [a]) :
    ({ s with booleanConstraintMap := map, mcsat := m } : Solver σ A).reabstractLiteral l
      = s.reabstractLiteral l := by
  subst hmap
  rw [reabstractLiteral, reabstractLiteral, getElem?_append_left hl]

/-- A variable is created, and the levels take it in if they have to. -/
theorem Inv.grow (h : s.Inv pending) {a : Option (Formula σ A × Formula σ A)} {m : Mixin σ A}
    {pending' : List σ} (hsync : m.InSync pending')
    (hdecs : Mcsat.decisions m.theoryStack = Mcsat.decisions s.mcsat.theoryStack)
    (hcons : m.backend.constraints = s.mcsat.backend.constraints)
    (hbds : m.backend.mvBounds = s.mcsat.backend.mvBounds)
    (hunivariate : (m.undecidedVariables ++ Mcsat.univariate m.theoryStack).Perm
      ((if isAdded a then [s.booleanConstraintMap.length] else [])
        ++ (s.mcsat.undecidedVariables ++ Mcsat.univariate s.mcsat.theoryStack))) :
    ({ s with booleanConstraintMap := s.booleanConstraintMap ++ [a], mcsat := m } :
      Solver σ A).Inv pending' where
  inSync := hsync
  decisions := by
    show (Mcsat.decisions m.theoryStack).Sublist s.trail
    rw [hdecs]
    exact h.decisions
  literals := by
    intro l hl
    rw [length_append]
    exact Nat.lt_add_right 1 (h.literals l hl)
  constraints := by
    show m.backend.constraints = _
    rw [hcons, h.constraints]
    refine filterMap_congr fun l hl => ?_
    rw [reabstractLiteral_append (h.literals l (mem_reverse.mp hl)) rfl]
  mvBounds := by
    show m.backend.mvBounds = _
    rw [hbds, h.mvBounds]
    refine filterMap_congr fun l hl => ?_
    rw [reabstractLiteral_append (h.literals l (mem_reverse.mp hl)) rfl]
  univariate := by
    rw [addedVariables_append]
    exact hunivariate.trans (perm_append_comm.trans (h.univariate.append_right _))

/-- Literals that do not stand for a constraint are undone without effect. -/
theorem revertAssignments_eq {theoryDecisions : List Lit}
    (h : ∀ l ∈ theoryDecisions, Mixin.theoryConstraint (s.reabstractLiteral l) = none) :
    s.revertAssignments theoryDecisions = s := by
  have hundo : theoryDecisions.reverse.foldl
      (fun m l => m.undoAssignment (s.reabstractLiteral l)) s.mcsat = s.mcsat := by
    refine List.foldlRecOn (motive := fun m => m = s.mcsat) _ _ rfl ?_
    rintro m rfl l hl
    rw [Mixin.undoAssignment, h l (mem_reverse.mp hl)]
  rw [revertAssignments, hundo]

/-! ## The start of a check -/

/-- Levels above the lowest one have no variable as long as there is no variable order. -/
theorem numbered_of_nil {stack : List (TheoryLevel σ)} (h : Numbered [] stack)
    (hlen : stack.length ≤ 2) (order : List σ) : Numbered order stack := by
  match stack, h, hlen with
  | [_], h, _ => exact h
  | [l, base], h, _ =>
    obtain ⟨hvar, hdec, hempty, hbase⟩ := (numbered_cons (cons_ne_nil base [])).mp h
    exact (numbered_cons (cons_ne_nil base [])).mpr
      ⟨fun x hx => (nomatch hvar x hx), hdec, hempty, hbase⟩

theorem Inv.setVariableOrder (h : s.Inv []) (order : List σ)
    (horder : order ≠ s.mcsat.backend.variableOrder →
      s.mcsat.backend.variableOrder = [] ∧ s.mcsat.level ≤ 1 ∧ order.Nodup) :
    ({ s with mcsat := { s.mcsat with backend := { s.mcsat.backend with
      variableOrder := order } } } : Solver σ A).Inv [] := by
  by_cases hsame : order = s.mcsat.backend.variableOrder
  · rw [hsame]
    exact h
  · obtain ⟨hempty, hlev, hnodup⟩ := horder hsame
    have hlen : s.mcsat.theoryStack.length ≤ 2 := by
      rw [Mixin.level] at hlev
      omega
    exact
      { h with
        inSync :=
          { h.inSync with
            numbered := numbered_of_nil (hempty ▸ h.inSync.numbered) hlen order
            nodup := hnodup
            upcoming := nil_prefix } }

theorem Inv.pickTheoryBranchLit (h : s.Inv []) :
    ({ s with mcsat := s.mcsat.pickTheoryBranchLit } : Solver σ A).Inv [] := by
  have hsync := h.inSync.pickTheoryBranchLit
  rw [Mixin.pickTheoryBranchLit_eq] at hsync ⊢
  exact { h with inSync := hsync }

theorem Inv.startCheck (h : s.Inv []) {order : List σ} (hlev : s.mcsat.level ≤ 1)
    (hnodup : order.Nodup) : (s.startCheck order).Inv [] := by
  refine Inv.pickTheoryBranchLit (s := { s with mcsat := { s.mcsat with
    backend := { s.mcsat.backend with variableOrder :=
      if s.mcsat.backend.variableOrder = [] then order else s.mcsat.backend.variableOrder } } })
    (h.setVariableOrder _ fun hne => ?_)
  by_cases hempty : s.mcsat.backend.variableOrder = []
  · rw [if_pos hempty]
    exact ⟨hempty, hlev, hnodup⟩
  · exact absurd (if_neg hempty) hne

variable [DecidableEq σ]

variable {evaluates : Mixin.Evaluates σ A}

theorem Inv.newVariable (hlocal : Mixin.Local evaluates)
    (h : s.Inv []) (a : Option (Formula σ A × Formula σ A)) :
    (s.newVariable evaluates a).Inv [] := by
  rw [Solver.newVariable]
  by_cases hadded : isAdded a
  · obtain ⟨hsync, hdecs, hperm⟩ := h.inSync.addVariable hlocal (a.map Prod.fst)
      s.booleanConstraintMap.length
    rw [if_pos hadded]
    refine h.grow hsync hdecs ?_ ?_ ?_
    · rw [Mixin.addVariable]
      cases s.mcsat.theoryLevel evaluates (a.map Prod.fst) <;> rfl
    · rw [Mixin.addVariable]
      cases s.mcsat.theoryLevel evaluates (a.map Prod.fst) <;> rfl
    · rw [if_pos hadded]
      exact hperm
  · rw [if_neg hadded]
    refine h.grow h.inSync rfl rfl rfl ?_
    rw [if_neg hadded]
    rfl

/-- The literal of a theory decision. -/
theorem Inv.createLiteral [DecidableEq A] (evaluates : Mixin.Evaluates σ A) (h : s.Inv pending)
    (value : σ × Number A) :
    let created := s.createLiteral evaluates (Mixin.representingFormula value)
    created.2.Inv pending ∧ created.2.mcsat = s.mcsat ∧ created.2.trail = s.trail ∧
      created.1.var < created.2.booleanConstraintMap.length ∧
      created.2.reabstractLiteral created.1 = some (Mixin.representingFormula value) := by
  rw [Solver.createLiteral]
  cases hfind : s.booleanConstraintMap.findIdx? fun abstraction =>
      abstraction = some (Mixin.representingFormula value,
        (Mixin.representingFormula value).negated) with
  | some v =>
    obtain ⟨hlt, hv, -⟩ := findIdx?_eq_some_iff_getElem.mp hfind
    refine ⟨h, rfl, rfl, hlt, ?_⟩
    rw [reabstractLiteral]
    show ((s.booleanConstraintMap[v]?).join).map _ = _
    rw [getElem?_eq_getElem hlt, of_decide_eq_true hv]
    rfl
  | none =>
    have hmcsat : (s.newVariable evaluates (some (Mixin.representingFormula value,
        (Mixin.representingFormula value).negated))).mcsat = s.mcsat := rfl
    refine ⟨?_, rfl, rfl, ?_, ?_⟩
    · exact h.grow h.inSync rfl rfl rfl (List.Perm.refl _)
    · show s.booleanConstraintMap.length < (s.booleanConstraintMap ++ [_]).length
      rw [length_append]
      exact Nat.lt_succ_self _
    · rw [reabstractLiteral]
      show (((s.booleanConstraintMap ++ [_])[s.booleanConstraintMap.length]?).join).map _ = _
      rw [getElem?_concat_length]
      rfl

/-! ## Cancelling -/

/-- The topmost literal of the trail is undone. -/
theorem Inv.cancelLiteral {rest : List Lit} (h : s.Inv []) (htrail : s.trail = l :: rest)
    (lim : List ℕ) : ({ s.cancelLiteral l with trail := rest, trailLim := lim } :
      Solver σ A).Inv [] := by
  obtain ⟨hretr, hsub⟩ := h.inSync.backtrackTo (htrail ▸ h.decisions)
  obtain ⟨hstack, hundecided⟩ := Mixin.stacks_undoAssignment (s.mcsat.backtrackTo l)
    (s.reabstractLiteral l)
  have hsplit (f : Option (Formula σ A) → Option (Formula σ A)) :
      s.trail.reverse.filterMap (fun l => f (s.reabstractLiteral l))
        = rest.reverse.filterMap (fun l => f (s.reabstractLiteral l))
          ++ (f (s.reabstractLiteral l)).toList := by
    rw [htrail, reverse_cons, filterMap_append]
    congr 1
  obtain ⟨hcons, hbds⟩ := constraints_undoAssignment
    (hretr.constraints.trans (h.constraints.trans (hsplit asConstraint)))
    (hretr.mvBounds.trans (h.mvBounds.trans (hsplit asBound)))
  exact
    { inSync := hretr.inSync.undoAssignment _
      decisions := by
        show (Mcsat.decisions (((s.mcsat.backtrackTo l).undoAssignment _).theoryStack)).Sublist rest
        rw [hstack]
        exact hsub
      literals := fun k hk => h.literals k (htrail ▸ mem_cons_of_mem l hk)
      constraints := hcons
      mvBounds := hbds
      univariate := by
        show (((s.mcsat.backtrackTo l).undoAssignment _).undecidedVariables
          ++ Mcsat.univariate ((s.mcsat.backtrackTo l).undoAssignment _).theoryStack).Perm _
        rw [hstack, hundecided]
        exact hretr.univariate.trans h.univariate }

/-- The literals of a part of the trail are undone before the trail is cut. -/
theorem Inv.cancelLiterals {ls rest : List Lit} (lim : List ℕ)
    (h : ({ s with trail := ls ++ rest } : Solver σ A).Inv []) :
    ({ ls.foldl Solver.cancelLiteral s with trail := rest, trailLim := lim } :
      Solver σ A).Inv [] := by
  induction ls generalizing s with
  | nil => exact { h with }
  | cons l ls ih =>
    rw [foldl_cons]
    exact ih (h.cancelLiteral rfl s.trailLim)

theorem Inv.cancelUntil (h : s.Inv []) (level : ℕ) (force : Bool) :
    (s.cancelUntil level force).Inv [] := by
  rw [Solver.cancelUntil]
  dsimp only
  split_ifs
  all_goals first
    | exact h
    | exact Inv.cancelLiterals _ (by rw [take_append_drop]; exact h)

theorem Inv.cancelLoop (lit : Lit) {ls : List Lit} (h : s.Inv []) (htrail : s.trail = ls) :
    (Solver.cancelLoop lit ls s).Inv [] := by
  induction ls generalizing s with
  | nil => exact h
  | cons l rest ih =>
    rw [Solver.cancelLoop]
    have hstep := h.cancelLiteral htrail
      (if s.trailLim.head? = some rest.length then s.trailLim.tail else s.trailLim)
    by_cases hl : l = lit
    · rw [if_pos hl]
      exact hstep
    · rw [if_neg hl]
      exact ih hstep rfl

/-! ## Theory decisions -/

theorem backend_makeDecision (evaluates : Mixin.Evaluates σ A)
    (reabstract : Var → Option (Formula σ A)) (m : Mixin σ A) (lit : Lit) :
    (m.makeDecision evaluates reabstract lit).pickTheoryBranchLit.backend = m.backend ∧
      (m.makeDecision evaluates reabstract lit).pickTheoryBranchLit.undecidedVariables
        = (m.makeDecision evaluates reabstract lit).undecidedVariables := by
  rw [Mixin.pickTheoryBranchLit_eq, Mixin.makeDecision]
  cases m.theoryStack with
  | nil => exact ⟨rfl, rfl⟩
  | cons l rest => exact ⟨rfl, rfl⟩

variable [DecidableEq A]

/-- One value of a theory decision is inserted: its level is decided and its literal enqueued. -/
theorem Inv.insertAssignment {x : σ} (h : s.Inv (x :: pending)) (value : σ × Number A) :
    (s.insertAssignment evaluates (Mixin.representingFormula value)).Inv pending := by
  obtain ⟨hcrea, -, -, hlit, hreabstract⟩ := h.createLiteral evaluates value
  rw [Solver.insertAssignment]
  generalize s.createLiteral evaluates (Mixin.representingFormula value) = created at *
  obtain ⟨lit, s⟩ := created
  dsimp only at *
  obtain ⟨hsync, hdecs, hperm⟩ := hcrea.inSync.makeDecision evaluates s.reabstractVariable lit
  obtain ⟨hbackend, hundecided⟩ := backend_makeDecision evaluates s.reabstractVariable s.mcsat lit
  generalize (s.mcsat.makeDecision evaluates s.reabstractVariable lit).pickTheoryBranchLit = m at *
  -- the literal assigns a variable, so the backend does not get a constraint
  have henqueue : (({ s with mcsat := m } : Solver σ A).newDecisionLevel.uncheckedEnqueue lit)
      = { s with mcsat := m, trailLim := s.trail.length :: s.trailLim, trail := lit :: s.trail } := by
    show ({ s with mcsat := m.doAssignment (s.reabstractLiteral lit), trailLim := _, trail := _ } :
      Solver σ A) = _
    rw [hreabstract]
    rfl
  have hnone : asConstraint (s.reabstractLiteral lit) = none ∧
      asBound (s.reabstractLiteral lit) = none := by
    rw [hreabstract]
    exact ⟨rfl, rfl⟩
  rw [henqueue]
  exact
    { inSync := hsync
      decisions := by
        show (Mcsat.decisions m.theoryStack).Sublist (lit :: s.trail)
        rw [hdecs]
        exact hcrea.decisions.cons_cons lit
      literals := forall_mem_cons.mpr ⟨hlit, hcrea.literals⟩
      constraints := by
        show m.backend.constraints = (lit :: s.trail).reverse.filterMap
          fun l => asConstraint (s.reabstractLiteral l)
        have hlast : [lit].filterMap (fun l => asConstraint (s.reabstractLiteral l)) = [] :=
          filterMap_cons_none hnone.1
        rw [hbackend, hcrea.constraints, reverse_cons, filterMap_append, hlast, append_nil]
      mvBounds := by
        show m.backend.mvBounds = (lit :: s.trail).reverse.filterMap
          fun l => asBound (s.reabstractLiteral l)
        have hlast : [lit].filterMap (fun l => asBound (s.reabstractLiteral l)) = [] :=
          filterMap_cons_none hnone.2
        rw [hbackend, hcrea.mvBounds, reverse_cons, filterMap_append, hlast, append_nil]
      univariate := by
        show (m.undecidedVariables ++ Mcsat.univariate m.theoryStack).Perm _
        rw [hundecided]
        exact hperm.trans hcrea.univariate }

theorem Inv.insertAll {values : List (σ × Number A)} (h : s.Inv (values.map (·.1))) :
    (values.foldl (fun s value => s.insertAssignment evaluates
      (Mixin.representingFormula value)) s).Inv [] := by
  induction values generalizing s with
  | nil => exact h
  | cons value values ih =>
    rw [foldl_cons]
    exact ih (h.insertAssignment value)

/-- A theory decision with at most as many values as are inserted. -/
theorem Inv.theoryDecision {numInsert : ℕ} (h : s.Inv [])
    {values : List (σ × Number A)} (hmay : s.mcsat.mayDoAssignment) (hne : values ≠ [])
    (hvals : values.map (·.1) <+: s.mcsat.backend.variableOrder.drop (s.mcsat.level - 1))
    (hlen : values.length ≤ numInsert) :
    (s.theoryDecision evaluates numInsert values).Inv [] := by
  rw [Solver.theoryDecision, take_of_length_le hlen]
  have hpushed := Mixin.InSync.pushed_foldl s.mcsat.backend values
  refine Inv.insertAll
    { inSync := h.inSync.makeTheoryDecision hvals hmay hne
      decisions := h.decisions
      literals := h.literals
      constraints := hpushed.constraints.trans h.constraints
      mvBounds := hpushed.mvBounds.trans h.mvBounds
      univariate := h.univariate }

end Solver

end Smtrat.Mcsat

/-!
## Runs of the search

A step of the search keeps the invariant unless a theory decision returns more values than are
inserted: the values beyond `mcsat_num_insert_assignments` stay in the backend without a level.
-/

namespace Smtrat.Mcsat

open SAT

variable {σ A : Type*} [DecidableEq σ]

/-- The trail, the theory levels and the backend agree. -/
structure Solver.Synchronised (s : Solver σ A) : Prop where
  /-- The assigned variables are those of the decided levels, in level order. -/
  assigned : s.mcsat.backend.assignedVariables = (decidedVariables s.mcsat.theoryStack).reverse
  model : ∀ x, (s.mcsat.backend.model x).isSome ↔ x ∈ s.mcsat.backend.assignedVariables
  /-- The decision literals are on the trail, in level order. -/
  decisions : (decisions s.mcsat.theoryStack).Sublist s.trail
  constraints : s.mcsat.backend.constraints
    = s.trail.reverse.filterMap fun l => asConstraint (s.reabstractLiteral l)
  mvBounds : s.mcsat.backend.mvBounds
    = s.trail.reverse.filterMap fun l => asBound (s.reabstractLiteral l)
  /-- An abstraction is undecided or univariate in one level, and only once. -/
  univariate : ∀ v, (s.mcsat.undecidedVariables ++ univariate s.mcsat.theoryStack).count v
    = if v ∈ addedVariables s.booleanConstraintMap then 1 else 0

/-- A theory decision returns at most as many values as are inserted. -/
def Event.Inserted (numInsert : ℕ) : Event σ A → Prop
  | .theoryDecision values => values.length ≤ numInsert
  | _ => True

instance (numInsert : ℕ) (e : Event σ A) : Decidable (e.Inserted numInsert) :=
  match e with
  | .theoryDecision _ => inferInstanceAs (Decidable (_ ≤ _))
  | .startCheck _ => inferInstanceAs (Decidable True)
  | .newVariable _ => inferInstanceAs (Decidable True)
  | .newDecisionLevel => inferInstanceAs (Decidable True)
  | .enqueue _ _ => inferInstanceAs (Decidable True)
  | .cancelUntil _ _ => inferInstanceAs (Decidable True)
  | .cancelIncludingLiteral _ => inferInstanceAs (Decidable True)
  | .revertAssignments _ => inferInstanceAs (Decidable True)

namespace Solver

variable {s s' : Solver σ A}

omit [DecidableEq σ] in
theorem Inv.synchronised (h : s.Inv []) : s.Synchronised where
  assigned := h.inSync.assigned.trans (List.append_nil _)
  model := h.inSync.model
  decisions := h.decisions
  constraints := h.constraints
  mvBounds := h.mvBounds
  univariate := by
    intro v
    rw [h.univariate.count_eq]
    exact (List.nodup_range.filter _).count

variable [DecidableEq A] {evaluates : Mixin.Evaluates σ A} {numInsert : ℕ}

theorem Inv.step (hlocal : Mixin.Local evaluates) (h : s.Inv []) {e : Event σ A}
    (hins : e.Inserted numInsert) (hstep : s.step evaluates numInsert e = some s') :
    s'.Inv [] := by
  rw [Solver.step] at hstep
  by_cases hposs : e.Possible s
  · rw [if_pos hposs] at hstep
    obtain rfl := Option.some_inj.mp hstep
    cases e with
    | startCheck order => exact h.startCheck hposs.1 hposs.2
    | newVariable abstraction => exact h.newVariable hlocal abstraction
    | newDecisionLevel => exact h.newDecisionLevel
    | enqueue l decision =>
      show ((if decision then s.newDecisionLevel else s).uncheckedEnqueue l).Inv []
      cases decision with
      | false => exact h.uncheckedEnqueue hposs
      | true => exact h.newDecisionLevel.uncheckedEnqueue hposs
    | theoryDecision values =>
      exact h.theoryDecision hposs.1 hposs.2.1 hposs.2.2 hins
    | cancelUntil level force => exact h.cancelUntil level force
    | cancelIncludingLiteral l => exact h.cancelLoop l rfl
    | revertAssignments theoryDecisions =>
      show (s.revertAssignments theoryDecisions).Inv []
      rw [revertAssignments_eq hposs]
      exact h
  · rw [if_neg hposs] at hstep
    exact nomatch hstep

/-- In every run whose theory decisions return at most as many values as are inserted, the trail, the
levels and the backend are synchronised. -/
theorem synchronised_of_run (hlocal : Mixin.Local evaluates) {assumptions : List Lit}
    {events : List (Event σ A)}
    (hrun : Run.run (Run.guarded (fun _ e => e.Inserted numInsert)
      (Solver.step evaluates numInsert)) (init assumptions) events = some s) :
    s.Synchronised := by
  refine Inv.synchronised (Run.run_invariant (P := fun s => s.Inv []) ?_ (inv_init assumptions) hrun)
  intro s e s' h hstep
  obtain ⟨hins, hstep⟩ := Run.guarded_eq_some.mp hstep
  exact h.step hlocal hins hstep

/-- Two variables are decided at once, and the second decision is taken back. -/
def twoDecisions : List (Event ℕ ℕ) :=
  [.newVariable none, .startCheck [0, 1, 2], .enqueue (mkLit 0 false) true,
    .theoryDecision [(0, .rational 1), (1, .rational 2)], .cancelIncludingLiteral (mkLit 2 false)]

theorem synchronised_of_run_two : ∃ s, Run.run (Run.guarded (fun _ e => e.Inserted 2)
      (Solver.step (fun _ _ => false) 2)) (init []) twoDecisions = some s ∧
    s.mcsat.backend.assignedVariables = [0] ∧ s.Synchronised :=
  ⟨_, rfl, rfl, @synchronised_of_run ℕ ℕ _ _ _ (fun _ _ => false) 2 (fun _ _ _ _ => rfl) []
    twoDecisions rfl⟩

/-- Three values are pushed, two of them are inserted. -/
theorem not_synchronised_three : ∃ s, Run.run (Solver.step (fun _ _ => false) 2)
      (init [] : Solver ℕ ℕ)
      [.startCheck [0, 1, 2],
        .theoryDecision [(0, .rational 1), (1, .rational 2), (2, .rational 3)]] = some s ∧
    ¬ s.Synchronised :=
  ⟨_, rfl, fun h => absurd h.assigned (by decide)⟩

end Solver

end Smtrat.Mcsat
