import Smtrat.SAT.Learning

/-!
# Backtracking and storing

After a conflict the search backtracks and stores what it has learnt; before the next propagation it
backtracks and stores the lemmas.  Decisions stay below the level that is backtracked to, and they
stay assumptions as long as no assumption is added under them.
-/

namespace Smtrat.SAT
open List Function Option

variable {T : Theory} {M : Set Valuation} {s s' : Solver} {trail : List Entry} {e f : Entry}
  {l : Lit} {c : Clause}

namespace Consistent

theorem le_of_mem_dropWhile (h : Consistent T M trail) {level : Nat}
    (he : e ∈ trail.dropWhile (level < ·.level)) : e.level ≤ level := by
  induction h with
  | nil => cases he
  | @cons f rest _ _ hlev _ ih =>
    rw [dropWhile_cons] at he
    split_ifs at he with hf
    · exact ih he
    · have hf : f.level ≤ level := by simpa using hf
      obtain rfl | he := mem_cons.mp he
      · exact hf
      · exact (hlev e he).trans hf

theorem mem_dropWhile (h : Consistent T M trail) {level : Nat} (he : e ∈ trail)
    (hle : e.level ≤ level) : e ∈ trail.dropWhile (level < ·.level) := by
  induction h with
  | nil => cases he
  | @cons f rest _ _ hlev _ ih =>
    rw [dropWhile_cons]
    split_ifs with hf
    · have hf : level < f.level := by simpa using hf
      obtain rfl | he := mem_cons.mp he
      · omega
      · exact ih he
    · exact he

end Consistent

namespace Solver

/-- A decision on a level that is left to an assumption is this assumption. -/
def Assumed (s : Solver) : Prop :=
  ∀ e ∈ s.trail, e.reason = .undef → 0 < e.level → e.level ≤ s.assumptions.length →
    s.assumptions[e.level - 1]? = some e.lit ∧ e.theoryDecision = false

/-- No decision is new, and no assumption is added under a decision. -/
theorem Assumed.extend (h : s.Assumed) {units : List Lit}
    (htrail : ∀ e ∈ s'.trail, e.reason = .undef → 0 < e.level → e ∈ s.trail)
    (hunits : s'.assumptions = s.assumptions ++ units)
    (hor : units = [] ∨ ∀ e ∈ s'.trail, e.level ≤ s.assumptions.length) : s'.Assumed := by
  intro e he hr hpos hle
  have hle' : e.level ≤ s.assumptions.length := by
    obtain rfl | hall := hor
    · rwa [hunits, append_nil] at hle
    · exact hall e he
  obtain ⟨hlit, ht⟩ := h e (htrail e he hr hpos) hr hpos hle'
  refine ⟨?_, ht⟩
  rw [hunits, getElem?_append_left (by omega), hlit]

/-- A new entry with a justification. -/
theorem Invariant.enqueueEntry (h : s.Invariant T M) {reason : Reason} {theoryDecision : Bool}
    (hl : ∀ e ∈ s.trail, e.lit.var ≠ l.var)
    (hj : Justified T M s.trail ⟨l, reason, s.decisionLevel, theoryDecision⟩) :
    (s.enqueueEntry l reason theoryDecision).Invariant T M where
  trail := .cons h.trail hl h.level_le hj
  level_le := by
    intro e he
    obtain rfl | he := mem_cons.mp he
    · exact le_rfl
    · exact h.level_le e he
  level_eq := by
    intro e he
    obtain rfl | he := mem_cons.mp he
    · exact update_self _ _ _
    · exact (update_of_ne (hl e he) _ _).trans (h.level_eq e he)
  level_zero := by
    intro v hv
    by_cases hvl : v = l.var
    · subst hvl
      have hv := (update_self l.var _ _).symm.trans hv
      exact ⟨_, mem_cons_self .., rfl, some.inj hv⟩
    · obtain ⟨e, he, hev, hel⟩ :=
        h.level_zero v ((update_of_ne hvl _ _).symm.trans hv)
      exact ⟨e, mem_cons_of_mem _ he, hev, hel⟩
  clauses := h.clauses
  assumptions := h.assumptions
  lemmas := h.lemmas

/-- A clause makes its only literal without a value true. -/
theorem Invariant.propagate (h : s.Invariant T M) (hl : s.value T l = none) (hlc : l ∈ c)
    (hothers : ∀ q ∈ c, q ≠ l → s.value T q = some false) (hc : c.Follows M) :
    (s.uncheckedEnqueue l (.clause c)).Invariant T M := by
  obtain ⟨hvar, heval⟩ := Theory.value_eq_none hl
  exact h.enqueueEntry hvar (.implied c (Or.inl rfl) rfl heval hlc hothers hc)

/-- A literal that is enqueued changes the values of no other literals. -/
theorem value_uncheckedEnqueue {q : Lit} {reason : Reason} (hne : q.var ≠ l.var) :
    (s.uncheckedEnqueue l reason).value T q = s.value T q := by
  simp only [value, uncheckedEnqueue, enqueueEntry, Assigns.value, Theory.assigns, boolAssigns_cons,
    theoryDecisions_cons, if_neg hne.symm, Bool.false_eq_true, if_false]

theorem assumed_uncheckedEnqueue (h : s.Assumed) : (s.uncheckedEnqueue l (.clause c)).Assumed := by
  intro e he hr
  obtain rfl | he := mem_cons.mp he
  · cases hr
  · exact h e he hr

/-- What `cancelUntil` leaves. -/
theorem cancelUntil_spec (h : s.Invariant T M) (level : Nat) (force : Bool) :
    (s.cancelUntil level force).Invariant T M ∧ (s.cancelUntil level force).trail <:+ s.trail ∧
      (∀ e ∈ s.trail, e.level = 0 → e ∈ (s.cancelUntil level force).trail) ∧
      (s.cancelUntil level force).assumptions = s.assumptions := by
  rw [cancelUntil]
  generalize (if level < s.assumptions.length ∧ force = false then s.assumptions.length
    else level) = n
  split_ifs with hn
  · have hzero : ∀ e ∈ s.trail, e.level = 0 → e ∈ s.trail.dropWhile (n < ·.level) :=
      fun e he hz => h.trail.mem_dropWhile he (by omega)
    exact ⟨h.cut (dropWhile_suffix _) (fun e he => h.trail.le_of_mem_dropWhile he) hzero,
      dropWhile_suffix _, hzero, rfl⟩
  · exact ⟨h, suffix_rfl, fun _ he _ => he, rfl⟩

theorem assumed_cancelUntil (hI : s.Invariant T M) (h : s.Assumed) (level : Nat) (force : Bool) :
    (s.cancelUntil level force).Assumed := by
  obtain ⟨-, hsuf, -, hass⟩ := cancelUntil_spec hI level force
  exact h.extend (fun e he _ _ => hsuf.subset he) (hass.trans (append_nil _).symm) (Or.inl rfl)

theorem decisionLevel_cancelUntil (s : Solver) (level : Nat) :
    (s.cancelUntil level true).decisionLevel = min s.decisionLevel level := by
  simp only [cancelUntil, Bool.true_eq_false, and_false, if_false]
  split_ifs with h
  · exact (Nat.min_eq_right h.le).symm
  · exact (Nat.min_eq_left (Nat.not_lt.mp h)).symm

/-! ## Conflicts -/

theorem marks_init (s : Solver) : Marks T s s.trail .init := by
  refine ⟨suffix_rfl, ?_, ?_⟩
  · intro v hv
    cases hv
  rw [counted, filter_eq_nil_iff.mpr (by simp [Analysis.init])]
  rfl

/-- The learnt clause follows; if it is not new, it has the same literals as the conflict but for
those that are false on level 0. -/
theorem analyze_spec (hM : M ⊆ T.Models) (hI : s.Invariant T M) (hc : c.Follows M) {r : Analyzed}
    (h : s.analyze T c = some r) :
    r.solver.Invariant T M ∧ s.Shrunk r.solver ∧ r.learnt.Follows M ∧
      (r.learnt.length = 1 → r.btlevel = 0) ∧
      (r.newClause = false → r.solver = s ∧ (∀ q ∈ r.learnt, q ∈ c) ∧
        ∀ q ∈ c, q ∈ r.learnt ∨ ∃ e ∈ s.trail, e.lit = q.neg ∧ e.level = 0) := by
  simp only [analyze, bind_eq_bind, bind_eq_some_iff, Prod.exists] at h
  obtain ⟨a, ha, s', a', p, hres, bt, hbt, hr⟩ := h
  obtain rfl := some.inj hr
  have hnil : remaining s.decisionLevel s.trail .init = [] := by
    rw [remaining, counted, filter_eq_nil_iff.mpr (by simp [Analysis.init])]
    rfl
  obtain ⟨hm, hsteps, -, hnew, hmem⟩ :=
    lookAtClause_spec hI (marks_init s) (fun _ _ _ e he _ _ => he) ha
  have hmem' : ∀ q ∈ c, q ∈ remaining s.decisionLevel s.trail a ∨
      ∃ e ∈ s.trail, e.lit = q.neg ∧ e.level = 0 :=
    fun q hq => (hmem q hq).resolve_left (by simp)
  have hfol : Clause.Follows M (remaining s.decisionLevel s.trail a) := by
    refine hc.strengthen fun q hq => (hmem' q hq).imp_right ?_
    rintro ⟨e, he, heq, hzero⟩ α hα
    have hα := hI.trail.holds_zero hM hα he hzero
    rwa [heq, Lit.holds_neg] at hα
  obtain ⟨hI', hsh, hfol', hlt, hone⟩ := resolve_spec hM hI hm hfol hres
  refine ⟨hI', hsh, hfol'.mono fun q hq => mem_sortLemma.mpr hq, fun hlen => ?_, fun hold => ?_⟩
  · rw [backtrackLevel, if_pos hlen] at hbt
    exact (some.inj hbt).symm
  · have hle : a'.resolutionSteps ≤ 0 := by simpa using hold
    have hinit : a.resolutionSteps = -1 := hsteps
    obtain ⟨rfl, hiff⟩ := hone (by omega)
    refine ⟨rfl, fun q hq => ?_, fun q hq => (hmem' q hq).imp_left fun hq => ?_⟩
    · have hq := hnew q ((hiff q).mp (mem_sortLemma.mp hq))
      rw [hnil] at hq
      exact hq.resolve_left (by simp)
    · exact mem_sortLemma.mpr ((hiff q).mpr hq)

/-- A clause is stored. -/
theorem Invariant.storeClause (h : s.Invariant T M) (hc : c.Follows M) :
    { s with clauses := s.clauses ++ [c] }.Invariant T M := by
  refine ⟨h.trail, h.level_le, h.level_eq, h.level_zero, fun d hd => ?_, h.assumptions, h.lemmas⟩
  obtain hd | hd := mem_append.mp hd
  · exact h.clauses d hd
  · rwa [mem_singleton.mp hd]

/-- The first literal of a sorted clause is made true if the second one is false. -/
theorem propagate_spec (hI : s.Invariant T M) {k : Lit} (hl : s.value T l = none)
    (hd : s.value T k = some false →
      c.Follows M ∧ l ∈ c ∧ ∀ q ∈ c, q ≠ l → s.value T q = some false)
    (h : (if s.value T k = some false then some (s.uncheckedEnqueue l (.clause c)) else some s) =
      some s') :
    s'.Invariant T M ∧ (∀ e ∈ s'.trail, e.reason = .undef → 0 < e.level → e ∈ s.trail) ∧
      s'.assumptions = s.assumptions ∧ s'.decisionLevel = s.decisionLevel := by
  split_ifs at h with hk
  · cases h
    obtain ⟨hc, hmem, hothers⟩ := hd hk
    refine ⟨hI.propagate hl hmem hothers hc, fun e he hr _ => ?_, rfl, rfl⟩
    obtain rfl | he := mem_cons.mp he
    · cases hr
    · exact he
  · cases h
    exact ⟨hI, fun e he _ _ => he, rfl, rfl⟩

/-- What is learnt after backtracking. -/
theorem learn_spec (hI : s.Invariant T M) {learnt : Clause} {newClause : Bool}
    (hlearnt : learnt.Follows M) (hc : c.Follows M)
    (hunit : learnt.length = 1 → s.decisionLevel = 0)
    (hold : newClause = false → (∀ q ∈ learnt, q ∈ c) ∧
      ∀ q ∈ c, q ∈ learnt ∨ s.value T q = some false)
    (h : s.learn T c learnt newClause = some s') :
    s'.Invariant T M ∧ (∀ e ∈ s'.trail, e.reason = .undef → 0 < e.level → e ∈ s.trail) ∧
      s'.assumptions = s.assumptions ∧ s'.decisionLevel = s.decisionLevel := by
  rw [learn] at h
  have hsame : ∀ q, q ∈ s.sortLemma T learnt ↔ q ∈ learnt := fun q => mem_sortLemma
  have hlen : (s.sortLemma T learnt).length = learnt.length := length_insertionSort _ _
  cases hsort : s.sortLemma T learnt with
  | nil => simp [hsort] at h
  | cons l rest =>
    rw [hsort] at hsame hlen
    simp only [hsort] at h
    by_cases hl : s.value T l = none
    case neg =>
      rw [if_pos hl] at h
      cases h
    rw [if_neg (not_not.mpr hl)] at h
    have hfol : Clause.Follows M (l :: rest) := hlearnt.mono fun q hq => (hsame q).mpr hq
    cases rest with
    | nil =>
      cases h
      have hzero := hunit (by simpa using hlen.symm)
      have hj : Justified T M s.trail ⟨l, .undef, s.decisionLevel, false⟩ :=
        .unit rfl rfl hzero (Clause.follows_singleton.mp hfol)
      refine ⟨hI.enqueueEntry (Theory.value_eq_none hl).1 hj, fun e he _ hpos => ?_, rfl, rfl⟩
      obtain rfl | he := mem_cons.mp he
      · dsimp only at hpos
        omega
      · exact he
    | cons k rest =>
      have htail := fun hk q hq => value_of_sortLemma_tail hsort hk hq (j := q)
      cases newClause with
      | true =>
        have hothers : s.value T k = some false →
            ∀ q ∈ l :: k :: rest, q ≠ l → s.value T q = some false :=
          fun hk q hq hne => htail hk q ((mem_cons.mp hq).resolve_left hne)
        have hspec := propagate_spec (hI.storeClause hfol) hl
          (fun hk => ⟨hfol, mem_cons_self .., hothers hk⟩) h
        exact hspec
      | false =>
        obtain ⟨hsub, hcov⟩ := hold rfl
        refine propagate_spec hI hl (fun hk => ?_) h
        refine ⟨hc, hsub l ((hsame l).mp (mem_cons_self ..)), fun q hq hne => ?_⟩
        obtain hql | hq := hcov q hq
        · exact htail hk q ((mem_cons.mp ((hsame q).mpr hql)).resolve_left hne)
        · exact hq

/-- The analysis of a conflict adds no assumption, or the search backtracks below the assumptions
that there were. -/
def contained (T : Theory) (s : Solver) (confl : Clause) : Bool :=
  match s.analyze T confl with
  | none => true
  | some r => r.solver.assumptions = s.assumptions ||
      decide (min s.decisionLevel r.btlevel ≤ s.assumptions.length)

theorem handleConflict_spec (hM : M ⊆ T.Models) (hI : s.Invariant T M) (hc : c.Follows M)
    (h : s.handleConflict T c = some s') :
    s'.Invariant T M ∧ (s.Assumed → s.contained T c = true → s'.Assumed) := by
  obtain ⟨r, hr, h⟩ := bind_eq_some_iff.mp h
  obtain ⟨hI₁, ⟨trail, units, htrail, hshrunk⟩, hfol, hunit, hold⟩ := analyze_spec hM hI hc hr
  obtain ⟨hI₂, hsuf, hzero, hass⟩ := cancelUntil_spec hI₁ r.btlevel true
  have hlev := decisionLevel_cancelUntil r.solver r.btlevel
  have hdl : r.solver.decisionLevel = s.decisionLevel := by rw [hshrunk]
  have hunits : r.solver.assumptions = s.assumptions ++ units := by rw [hshrunk]
  obtain ⟨hI', hdec, hass', hlev'⟩ := learn_spec hI₂ hfol hc
    (fun hlen => by rw [hlev, hunit hlen, Nat.min_zero])
    (fun hnew => by
      obtain ⟨heq, hsub, hcov⟩ := hold hnew
      refine ⟨hsub, fun q hq => (hcov q hq).imp_right ?_⟩
      rintro ⟨e, he, heq', hz⟩
      exact hI₂.trail.value_eq_false (hzero e (heq ▸ he) hz) heq') h
  refine ⟨hI', fun hA hcont => ?_⟩
  refine hA.extend (fun e he hu hpos => ?_) (hass'.trans (hass.trans hunits)) ?_
  · have he := hsuf.subset (hdec e he hu hpos)
    rw [hshrunk] at he
    exact htrail.subset he
  · rw [contained, hr, Bool.or_eq_true, decide_eq_true_eq, decide_eq_true_eq] at hcont
    refine hcont.imp (fun heq => ?_) fun hle e he => ?_
    · rwa [hunits, append_right_eq_self] at heq
    · have := hI'.level_le e he
      rw [hlev', hlev, hdl] at this
      omega

end Solver

end Smtrat.SAT
