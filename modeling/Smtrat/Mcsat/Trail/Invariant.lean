import Smtrat.Mcsat.Trail.Levels

/-!
# Theory levels and the assignment of the backend

The assigned variables of the backend are the variables of the decided levels, followed by values that
were pushed but have no level yet.  Between the steps of the search nothing is pending.
-/

namespace Smtrat.Mcsat

open SAT List Function

variable {σ A : Type*}

/-- The levels and the assignment of the backend belong together; the variables `pending` are assigned
and get the next levels. -/
structure Mixin.InSync (m : Mixin σ A) (pending : List σ) : Prop where
  numbered : Numbered m.backend.variableOrder m.theoryStack
  nodup : m.backend.variableOrder.Nodup
  top : ∀ l rest, m.theoryStack = l :: rest → l.decisionLiteral = none
  assigned : m.backend.assignedVariables = (decidedVariables m.theoryStack).reverse ++ pending
  model : ∀ x, (m.backend.model x).isSome ↔ x ∈ m.backend.assignedVariables
  upcoming : pending <+: m.backend.variableOrder.drop (m.theoryStack.length - 2)
  current : pending ≠ [] → ∃ l rest, m.theoryStack = l :: rest ∧ rest ≠ [] ∧
    l.theoryVariable = pending.head?

theorem Mixin.pickTheoryBranchLit_eq (m : Mixin σ A) :
    m.pickTheoryBranchLit = m.pushLevel m.backend.variableOrder[m.level]? := by
  rw [pickTheoryBranchLit, hasNextVariable]
  by_cases hlt : m.level < m.backend.variableOrder.length
  · rw [if_pos (decide_eq_true hlt), nextVariable]
  · rw [if_neg (by simpa using hlt), getElem?_eq_none (not_lt.mp hlt)]

/-- What stays when levels are retracted. -/
structure Mixin.Retracted (m m' : Mixin σ A) : Prop where
  inSync : m'.InSync []
  univariate : (m'.undecidedVariables ++ univariate m'.theoryStack).Perm
    (m.undecidedVariables ++ univariate m.theoryStack)
  constraints : m'.backend.constraints = m.backend.constraints
  mvBounds : m'.backend.mvBounds = m.backend.mvBounds

theorem Mixin.Retracted.trans {m₁ m₂ m₃ : Mixin σ A} (h : Retracted m₁ m₂) (h' : Retracted m₂ m₃) :
    Retracted m₁ m₃ where
  inSync := h'.inSync
  univariate := h'.univariate.trans h.univariate
  constraints := h'.constraints.trans h.constraints
  mvBounds := h'.mvBounds.trans h.mvBounds

variable {lit : Lit} {l : TheoryLevel σ} {rest : List (TheoryLevel σ)}

theorem Mixin.levelsAbove_cons (hrest : rest ≠ []) (hl : l.decisionLiteral ≠ some lit) :
    levelsAbove lit (l :: rest) = (levelsAbove lit rest).map (· + 1) := by
  rw [levelsAbove, dropLast_cons_of_ne_nil hrest, findIdx?_cons,
    if_neg (by simpa using hl)]
  rfl

variable {n : ℕ}

theorem Mixin.rest_ne_nil_of_levelsAbove (h : levelsAbove lit (l :: rest) = some n) :
    rest ≠ [] := by
  rintro rfl
  exact nomatch h

namespace Mixin.InSync

variable {m : Mixin σ A} {pending : List σ}

theorem exists_cons (h : m.InSync pending) :
    ∃ l rest, m.theoryStack = l :: rest ∧ l.decisionLiteral = none := by
  obtain ⟨l, rest, hcons⟩ := exists_cons_of_ne_nil h.numbered.ne_nil
  exact ⟨l, rest, hcons, h.top l rest hcons⟩

/-- The decided variables come in front of the current level. -/
theorem decidedVariables_sublist (h : m.InSync pending) :
    (decidedVariables m.theoryStack).reverse.Sublist
      (m.backend.variableOrder.take (m.theoryStack.length - 2)) := by
  obtain ⟨l, rest, hcons, htop⟩ := h.exists_cons
  have hnum := h.numbered
  rw [hcons] at hnum ⊢
  rw [decidedVariables_of_undecided htop]
  by_cases hrest : rest = []
  · rw [hrest]
    exact nil_sublist _
  · exact (hnum.tail hrest).decidedVariables_sublist

theorem assigned_sublist (h : m.InSync pending) :
    m.backend.assignedVariables.Sublist m.backend.variableOrder := by
  rw [h.assigned]
  conv_rhs => rw [← take_append_drop (m.theoryStack.length - 2) m.backend.variableOrder]
  exact h.decidedVariables_sublist.append h.upcoming.sublist

theorem not_mem_decisions (h : m.InSync [])
    (hnone : levelsAbove lit m.theoryStack = none) : lit ∉ decisions m.theoryStack := by
  intro hmem
  obtain ⟨l, hl, hlit⟩ := mem_filterMap.mp hmem
  have hlast : l ∈ m.theoryStack.dropLast := h.numbered.mem_dropLast hl
    (by rw [hlit]; exact Option.some_ne_none lit)
  rw [levelsAbove, findIdx?_eq_none_iff] at hnone
  exact absurd hlit (by simpa using hnone l hlast)

/-! ## Pushing and adding -/

theorem pickTheoryBranchLit (h : m.InSync []) : m.pickTheoryBranchLit.InSync [] := by
  rw [pickTheoryBranchLit_eq]
  have hne := h.numbered.ne_nil
  exact
    { numbered := (numbered_cons hne).mpr ⟨fun x hx => hx, fun hl => absurd rfl hl, fun _ => rfl,
        h.numbered⟩
      nodup := h.nodup
      top := by
        intro l rest hcons
        rw [← (List.cons.inj hcons).1]
      assigned := by
        rw [pushLevel, decidedVariables_of_undecided rfl]
        exact h.assigned
      model := h.model
      upcoming := nil_prefix
      current := fun hpend => absurd rfl hpend }

variable [DecidableEq σ]

variable {evaluates : Evaluates σ A} {f : Option (Formula σ A)}

/-- A positive theory level is that of an assigned variable. -/
theorem exists_of_theoryLevel (hlocal : Local evaluates)
    (hlev : m.theoryLevel evaluates f = some (n + 1)) :
    n < m.level ∧ ∃ x, m.backend.variableOrder[n]? = some x ∧ (m.backend.model x).isSome := by
  cases f with
  | none => cases hlev
  | some f =>
    rw [theoryLevel] at hlev
    split_ifs at hlev with hvars heval
    · cases hlev
    · exact theoryLevelLoop_assigned hlocal (by simpa using heval) (Option.some_inj.mp hlev)

theorem theoryLevel_lt (hlocal : Local evaluates) (h : m.InSync pending)
    (hlev : m.theoryLevel evaluates f = some n) :
    n < m.theoryStack.length := by
  have hpos := length_pos_iff.mpr h.numbered.ne_nil
  cases n with
  | zero => exact hpos
  | succ n =>
    have hlt := (exists_of_theoryLevel hlocal hlev).1
    rw [level] at hlt
    omega

/-- The level with a positive theory level is decided. -/
theorem decided_of_theoryLevel (hlocal : Local evaluates) (h : m.InSync [])
    (hlev : m.theoryLevel evaluates f = some (n + 1)) {above below : List (TheoryLevel σ)} (hstack : m.theoryStack = above ++ l :: below)
    (hlen : below.length = n + 1) : l.decisionLiteral ≠ none := by
  obtain ⟨-, x, hx, hsome⟩ := exists_of_theoryLevel hlocal hlev
  have hmem : x ∈ decidedVariables m.theoryStack := by
    rw [h.model, h.assigned, append_nil, mem_reverse] at hsome
    exact hsome
  obtain ⟨above', k, below', hstack', hbelow, hk, hx'⟩ := h.numbered.levelAt hmem
  -- the variable order has the variable only once
  have hindex : n = below'.length - 1 :=
    (getElem?_inj (List.getElem?_eq_some_iff.mp hx).1 h.nodup).mp (hx.trans hx'.symm)
  have hpos := length_pos_iff.mpr hbelow
  rw [hstack] at hstack'
  have hsame := (append_inj' hstack' (by simp only [length_cons]; omega)).2
  rwa [(List.cons.inj hsame).1]

/-- A variable is added to the undecided ones, to the lowest level or to a decided level. -/
theorem addVariable (hlocal : Local evaluates) (h : m.InSync [])
    (f : Option (Formula σ A)) (v : Var) :
    (m.addVariable evaluates f v).InSync [] ∧
      decisions (m.addVariable evaluates f v).theoryStack = decisions m.theoryStack ∧
      ((m.addVariable evaluates f v).undecidedVariables ++
        univariate (m.addVariable evaluates f v).theoryStack).Perm
          (v :: (m.undecidedVariables ++ univariate m.theoryStack)) := by
  rw [Mixin.addVariable]
  cases hlev : m.theoryLevel evaluates f with
  | none =>
    refine ⟨{ h with }, rfl, ?_⟩
    rw [append_assoc]
    exact perm_middle
  | some level =>
    have hdec : ∀ above l below, m.theoryStack = above ++ l :: below →
        below.length = level → below = [] ∨ l.decisionLiteral ≠ none := by
      intro above l below hstack hlen
      cases level with
      | zero => exact .inl (length_eq_zero_iff.mp hlen)
      | succ n => exact .inr (h.decided_of_theoryLevel hlocal hlev hstack hlen)
    have hlt := h.theoryLevel_lt hlocal hlev
    have hdecs : decisions (addUnivariate level v m.theoryStack)
        = decisions m.theoryStack :=
      filterMap_addUnivariate (fun l => l.decisionLiteral) (fun _ _ => rfl) level v _
    have hvars : decidedVariables (addUnivariate level v m.theoryStack)
        = decidedVariables m.theoryStack :=
      filterMap_addUnivariate (fun l => l.decisionLiteral.bind fun _ => l.theoryVariable)
        (fun _ _ => rfl) level v _
    refine ⟨?_, hdecs, ?_⟩
    · exact
        { numbered := h.numbered.addUnivariate v hdec
          nodup := h.nodup
          top := by
            intro l rest hcons
            obtain ⟨k, below, hstack, hk⟩ := h.exists_cons
            have hmap := filterMap_addUnivariate
              (fun l : TheoryLevel σ => some l.decisionLiteral) (fun _ _ => rfl) level v
              m.theoryStack
            rw [show addUnivariate level v m.theoryStack = l :: rest from hcons, hstack] at hmap
            rw [(List.cons.inj hmap).1, hk]
          assigned := by
            rw [hvars]
            exact h.assigned
          model := h.model
          upcoming := nil_prefix
          current := fun hpend => absurd rfl hpend }
    · exact ((univariate_addUnivariate v hlt).append_left _).trans perm_middle

/-! ## Theory decisions -/

omit [DecidableEq σ] in
/-- The first of the upcoming variables and those behind it. -/
theorem prefix_drop_cons {order xs : List σ} {x : σ} (h : x :: xs <+: order.drop n) :
    order[n]? = some x ∧ xs <+: order.drop (n + 1) := by
  obtain ⟨tail, htail⟩ := h
  constructor
  · rw [← Nat.add_zero n, ← getElem?_drop, ← htail]
    rfl
  · refine ⟨tail, ?_⟩
    rw [← drop_drop, ← htail]
    rfl

/-- The values `values` were pushed, and nothing else changed. -/
structure Pushed (b : Bookkeeping σ A) (values : List (σ × Number A)) (b' : Bookkeeping σ A) :
    Prop where
  assigned : b'.assignedVariables = b.assignedVariables ++ values.map (·.1)
  model : ∀ x, (b'.model x).isSome ↔ (b.model x).isSome ∨ x ∈ values.map (·.1)
  order : b'.variableOrder = b.variableOrder
  constraints : b'.constraints = b.constraints
  mvBounds : b'.mvBounds = b.mvBounds

theorem pushed_foldl (b : Bookkeeping σ A) (values : List (σ × Number A)) :
    Pushed b values (values.foldl (fun b value =>
      b.pushAssignment value.1 value.2 (representingFormula value)) b) := by
  induction values generalizing b with
  | nil => exact ⟨(append_nil _).symm, fun x => by simp, rfl, rfl, rfl⟩
  | cons value values ih =>
    have hrest := ih (b.pushAssignment value.1 value.2 (representingFormula value))
    refine ⟨?_, fun x => ?_, hrest.order, hrest.constraints, hrest.mvBounds⟩
    · rw [foldl_cons, hrest.assigned, map_cons]
      exact append_assoc _ _ _
    · rw [foldl_cons, hrest.model, map_cons, mem_cons, ← or_assoc]
      refine or_congr_left ?_
      show (update b.model value.1 (some value.2) x).isSome ↔ _
      by_cases hx : x = value.1
      · simp [hx]
      · simp [hx]

/-- The values of a theory decision are pushed. -/
theorem makeTheoryDecision (h : m.InSync []) {values : List (σ × Number A)}
    (hvals : values.map (·.1) <+: m.backend.variableOrder.drop (m.level - 1))
    (hmay : m.mayDoAssignment) (hne : values ≠ []) :
    (m.makeTheoryDecision values).InSync (values.map (·.1)) := by
  obtain ⟨l, rest, hstack, htop⟩ := h.exists_cons
  have hpushed := pushed_foldl m.backend values
  have hnum := h.numbered
  have hlev : m.level - 1 = m.theoryStack.length - 2 := by rw [level, Nat.sub_sub]
  rw [mayDoAssignment, hstack] at hmay
  obtain ⟨x, hx⟩ := Option.isSome_iff_exists.mp (Bool.and_eq_true_iff.mp hmay).1
  have hrest : rest ≠ [] := by
    rintro rfl
    rw [hstack] at hnum
    exact absurd (hx.symm.trans hnum.1) (Option.some_ne_none x)
  have hpl := ((numbered_cons hrest).mp (hstack ▸ hnum)).1 x hx
  exact
    { numbered := by
        show Numbered (values.foldl _ m.backend).variableOrder m.theoryStack
        rwa [hpushed.order]
      nodup := by
        show (values.foldl _ m.backend).variableOrder.Nodup
        rw [hpushed.order]
        exact h.nodup
      top := h.top
      assigned := by
        show (values.foldl _ m.backend).assignedVariables = _
        rw [hpushed.assigned, h.assigned, append_nil]
        rfl
      model := by
        intro y
        show ((values.foldl _ m.backend).model y).isSome ↔
          y ∈ (values.foldl _ m.backend).assignedVariables
        rw [hpushed.model, hpushed.assigned, mem_append, h.model]
      upcoming := by
        show _ <+: (values.foldl _ m.backend).variableOrder.drop (m.theoryStack.length - 2)
        rwa [hpushed.order, ← hlev]
      current := by
        intro _
        refine ⟨l, rest, hstack, hrest, ?_⟩
        obtain ⟨y, ys, hys⟩ := exists_cons_of_ne_nil (map_eq_nil_iff.not.mpr hne)
        have hhead := (prefix_drop_cons (hys ▸ hvals)).1
        rw [hys, hx, head?_cons, ← hpl, ← hhead, level, hstack, length_cons,
          Nat.add_sub_cancel] }

/-- The first pending variable gets the current level, and the next level is pushed. -/
theorem makeDecision (evaluates : Evaluates σ A) (reabstract : Var → Option (Formula σ A)) {x : σ}
    (h : m.InSync (x :: pending)) (lit : Lit) :
    (m.makeDecision evaluates reabstract lit).pickTheoryBranchLit.InSync pending ∧
      decisions (m.makeDecision evaluates reabstract lit).pickTheoryBranchLit.theoryStack
        = lit :: decisions m.theoryStack ∧
      ((m.makeDecision evaluates reabstract lit).undecidedVariables ++
        univariate (m.makeDecision evaluates reabstract lit).pickTheoryBranchLit.theoryStack).Perm
          (m.undecidedVariables ++ univariate m.theoryStack) := by
  obtain ⟨l, rest, hstack, hrest, hvar⟩ := h.current (cons_ne_nil x pending)
  have htop := h.top l rest hstack
  obtain ⟨hpl, -, hempty, htail⟩ := (numbered_cons hrest).mp (hstack ▸ h.numbered)
  have hpos := length_pos_iff.mpr hrest
  set here := fun v => Mixin.theoryLevel evaluates { m with theoryStack :=
    { l with decisionLiteral := some lit } :: rest } (reabstract v) = some rest.length with hhere
  have hmake : m.makeDecision evaluates reabstract lit = { m with
      theoryStack := ⟨l.theoryVariable, some lit,
        l.univariateVariables ++ m.undecidedVariables.filter (here ·)⟩ :: rest
      undecidedVariables := m.undecidedVariables.filter (¬ here ·) } := by
    rw [Mixin.makeDecision, hstack]
    rfl
  rw [pickTheoryBranchLit_eq, hmake]
  have hvars : decidedVariables (⟨l.theoryVariable, some lit,
      l.univariateVariables ++ m.undecidedVariables.filter (here ·)⟩ :: rest)
      = x :: decidedVariables m.theoryStack := by
    refine (decidedVariables_of_decided (l := ⟨l.theoryVariable, some lit, _⟩) rfl hvar).trans ?_
    rw [hstack, decidedVariables_of_undecided htop]
  have hlen : m.theoryStack.length - 2 + 1 = rest.length := by
    rw [hstack, length_cons]
    omega
  have hupcoming : pending <+: m.backend.variableOrder.drop rest.length := by
    rw [← hlen]
    exact (prefix_drop_cons h.upcoming).2
  refine ⟨?_, ?_, ?_⟩
  · exact
      { numbered := by
          refine (numbered_cons (cons_ne_nil _ _)).mpr ⟨fun y hy => hy,
            fun hl => absurd rfl hl, fun _ => rfl, ?_⟩
          refine (numbered_cons hrest).mpr ⟨hpl, fun _ => ?_, fun hl => ?_, htail⟩
          · rw [hvar]
            exact Option.some_ne_none x
          · exact absurd hl (Option.some_ne_none lit)
        nodup := h.nodup
        top := by
          intro k below hcons
          rw [← (List.cons.inj hcons).1]
        assigned := by
          show m.backend.assignedVariables = _
          rw [pushLevel, decidedVariables_of_undecided rfl, hvars, h.assigned,
            reverse_cons, append_assoc]
          rfl
        model := h.model
        upcoming := hupcoming
        current := by
          intro hpend
          obtain ⟨y, ys, rfl⟩ := exists_cons_of_ne_nil hpend
          exact ⟨_, _, rfl, cons_ne_nil _ _, (prefix_drop_cons hupcoming).1⟩ }
  · rw [pushLevel, decisions_of_undecided rfl, decisions_of_decided rfl, hstack,
      decisions_of_undecided htop]
  · have hsplit := filter_append_perm (fun v => decide (here v)) m.undecidedVariables
    simp only [← decide_not] at hsplit
    show (m.undecidedVariables.filter (¬ here ·) ++ ([] ++ ((l.univariateVariables ++
      m.undecidedVariables.filter (here ·)) ++ univariate rest))).Perm _
    rw [hstack, hempty htop, nil_append, nil_append, ← append_assoc]
    show List.Perm _ (m.undecidedVariables ++ (l.univariateVariables ++ univariate rest))
    rw [hempty htop, nil_append]
    exact (perm_append_comm.trans hsplit).append_right _

/-! ## Backtracking -/

/-- A level is retracted: the decision of the level below is undone with its value. -/
theorem retractLevel (h : m.InSync []) {k : TheoryLevel σ}
    (hstack : m.theoryStack = l :: k :: rest) :
    Retracted m m.retractLevel ∧ m.retractLevel.theoryStack
      = { k with decisionLiteral := none, univariateVariables := [] } :: rest := by
  have htop := h.top l _ hstack
  have hnum := (hstack ▸ h.numbered).tail (cons_ne_nil k rest)
  have hempty := ((numbered_cons (cons_ne_nil k rest)).mp (hstack ▸ h.numbered)).2.2.1 htop
  have hperm : (m.undecidedVariables ++ k.univariateVariables ++ ([] ++ univariate rest)).Perm
      (m.undecidedVariables ++ univariate (l :: k :: rest)) := by
    show List.Perm _ (m.undecidedVariables ++ (l.univariateVariables ++ (k.univariateVariables ++
      univariate rest)))
    rw [hempty, nil_append, nil_append, append_assoc]
  have hcleared : Numbered m.backend.variableOrder
      ({ k with decisionLiteral := none, univariateVariables := [] } :: rest) := by
    by_cases hrest : rest = []
    · subst hrest
      exact ⟨hnum.1, rfl⟩
    · obtain ⟨hpl, -, -, htail⟩ := (numbered_cons hrest).mp hnum
      exact (numbered_cons hrest).mpr ⟨hpl, fun hl => absurd rfl hl, fun _ => rfl, htail⟩
  have hretract (backend : Bookkeeping σ A) (hbackend : m.retractLevel.backend = backend) :
      m.retractLevel =
      { theoryStack := { k with decisionLiteral := none, univariateVariables := [] } :: rest
        undecidedVariables := m.undecidedVariables ++ k.univariateVariables
        backend } := by
    rw [← hbackend, Mixin.retractLevel, hstack]
  cases hk : k.decisionLiteral with
  | none =>
    have hbackend : m.retractLevel.backend = m.backend := by
      simp only [Mixin.retractLevel, hstack, hk]
    rw [hretract m.backend hbackend]
    refine ⟨⟨?_, by rw [hstack]; exact hperm, rfl, rfl⟩, rfl⟩
    exact
      { numbered := hcleared
        nodup := h.nodup
        top := by
          intro l' rest' hcons
          rw [← (List.cons.inj hcons).1]
        assigned := by
          show m.backend.assignedVariables = _
          rw [h.assigned, hstack, decidedVariables_of_undecided htop,
            decidedVariables_of_undecided hk]
          rfl
        model := h.model
        upcoming := nil_prefix
        current := fun hpend => absurd rfl hpend }
  | some lit =>
    have hrest := hnum.rest_ne_nil (by rw [hk]; exact Option.some_ne_none lit)
    obtain ⟨hpl, hdec, -, -⟩ := (numbered_cons hrest).mp hnum
    obtain ⟨x, hx⟩ := Option.ne_none_iff_exists'.mp
      (hdec (by rw [hk]; exact Option.some_ne_none lit))
    have hpos := length_pos_iff.mpr hrest
    have hvar : m.variableAt rest.length = some x := by
      rw [← Nat.sub_add_cancel hpos, Mixin.variableAt]
      exact hpl x hx
    have hasgn : m.backend.assignedVariables = (decidedVariables rest).reverse ++ [x] := by
      rw [h.assigned, hstack, decidedVariables_of_undecided htop,
        decidedVariables_of_decided hk hx, reverse_cons, append_nil]
    have hdrop : m.backend.assignedVariables.dropLast = (decidedVariables rest).reverse := by
      rw [hasgn, dropLast_concat]
    have hbackend : m.retractLevel.backend = m.backend.popAssignment x := by
      simp only [Mixin.retractLevel, hstack, hk, hvar]
    rw [hretract (m.backend.popAssignment x) hbackend]
    refine ⟨⟨?_, by rw [hstack]; exact hperm, rfl, rfl⟩, rfl⟩
    exact
      { numbered := hcleared
        nodup := h.nodup
        top := by
          intro l' rest' hcons
          rw [← (List.cons.inj hcons).1]
        assigned := by
          show m.backend.assignedVariables.dropLast = _
          rw [hdrop, append_nil]
          rfl
        model := by
          intro y
          have hnodup := h.assigned_sublist.nodup h.nodup
          have hmod := h.model y
          show (update m.backend.model x none y).isSome ↔
            y ∈ m.backend.assignedVariables.dropLast
          rw [hasgn] at hnodup hmod
          rw [hdrop]
          by_cases hyx : y = x
          · subst hyx
            rw [update_self]
            refine iff_of_false Bool.false_ne_true fun hmem => ?_
            exact (disjoint_of_nodup_append hnodup) hmem (mem_singleton.mpr rfl)
          · rw [update_of_ne hyx, hmod, mem_append, mem_singleton,
              or_iff_left hyx]
        upcoming := nil_prefix
        current := fun hpend => absurd rfl hpend }

/-- The levels above a decision are retracted one after the other, and with them all decisions down to
this one. -/
theorem retractLevel_iterate (h : m.InSync []) (hn : levelsAbove lit m.theoryStack = some n) :
    Retracted m (Mixin.retractLevel^[n] m) ∧
      ∃ above, decisions m.theoryStack
        = above ++ lit :: decisions (Mixin.retractLevel^[n] m).theoryStack := by
  induction n generalizing m with
  | zero =>
    obtain ⟨l, rest, hstack, htop⟩ := h.exists_cons
    have hrest := rest_ne_nil_of_levelsAbove (hstack ▸ hn)
    rw [hstack, levelsAbove_cons hrest (by rw [htop]; exact (Option.some_ne_none lit).symm)] at hn
    simp at hn
  | succ n ih =>
    obtain ⟨l, rest, hstack, htop⟩ := h.exists_cons
    have hrest := rest_ne_nil_of_levelsAbove (hstack ▸ hn)
    obtain ⟨k, below, rfl⟩ := exists_cons_of_ne_nil hrest
    obtain ⟨hone, hretract⟩ := h.retractLevel hstack
    rw [hstack, levelsAbove_cons hrest (by rw [htop]; exact (Option.some_ne_none lit).symm)] at hn
    have hk : levelsAbove lit (k :: below) = some n := by simpa using hn
    have hbelow := rest_ne_nil_of_levelsAbove hk
    rw [iterate_succ_apply, hstack, decisions_of_undecided htop]
    by_cases hlit : k.decisionLiteral = some lit
    · -- the decision is that of the level below
      have hzero : n = 0 := by
        rw [levelsAbove, dropLast_cons_of_ne_nil hbelow, findIdx?_cons,
          if_pos (by simpa using hlit)] at hk
        exact (Option.some_inj.mp hk).symm
      subst hzero
      refine ⟨hone, [], ?_⟩
      rw [iterate_zero_apply, hretract, decisions_of_decided hlit,
        decisions_of_undecided rfl, nil_append]
    · have hnext : levelsAbove lit m.retractLevel.theoryStack = some n := by
        rw [hretract, levelsAbove_cons hbelow (Option.some_ne_none lit).symm,
          ← levelsAbove_cons hbelow hlit, hk]
      obtain ⟨hrest, above, habove⟩ := ih hone.inSync hnext
      rw [hretract, decisions_of_undecided rfl] at habove
      refine ⟨hone.trans hrest, ?_⟩
      cases hdec : k.decisionLiteral with
      | none => exact ⟨above, by rw [decisions_of_undecided hdec, habove]⟩
      | some d => exact ⟨d :: above, by rw [decisions_of_decided hdec, habove, cons_append]⟩

/-- Undoing the topmost literal of the trail leaves no decision that is not on the trail. -/
theorem backtrackTo (h : m.InSync []) {trail : List Lit}
    (htrail : (decisions m.theoryStack).Sublist (lit :: trail)) :
    Retracted m (m.backtrackTo lit) ∧
      (decisions (m.backtrackTo lit).theoryStack).Sublist trail := by
  rw [Mixin.backtrackTo]
  cases hn : levelsAbove lit m.theoryStack with
  | none =>
    refine ⟨⟨h, List.Perm.refl _, rfl, rfl⟩, ?_⟩
    rcases sublist_cons_iff.mp htrail with hsub | ⟨rest, heq, -⟩
    · exact hsub
    · exact absurd (heq ▸ mem_cons_self) (h.not_mem_decisions hn)
  | some n =>
    obtain ⟨hretr, above, habove⟩ := h.retractLevel_iterate hn
    refine ⟨hretr, ?_⟩
    rw [habove] at htrail
    exact List.Sublist.of_cons_cons ((sublist_append_right _ _).trans htrail)

end Mixin.InSync

end Smtrat.Mcsat
