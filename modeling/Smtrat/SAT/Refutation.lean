import Smtrat.Common.Run
import Smtrat.SAT.Backtrack

/-!
# The answer of the search

The search answers that the clauses are unsatisfiable when a conflict is found, or an assumption is
false, while there are not more decision levels than assumptions.  This is right as long as these
levels belong to the assumptions.  The analysis of a conflict may break that: it adds an assumption
for a theory propagation that is explained by one literal, whatever the search backtracks to.
-/

namespace Smtrat.SAT

open Run List Option

variable {T : Theory} {M : Set Valuation} {s s' : Solver} {e f : Entry} {l : Lit} {c : Clause}

variable {r : Stored}

namespace Solver

/-- There is no valuation, and the decisions are assumptions. -/
structure Refuted (M : Set Valuation) (s : Solver) : Prop where
  empty : ∀ α, α ∉ M
  assumption : ∀ e ∈ s.trail, e.reason = .undef → 0 < e.level →
    e.lit ∈ s.assumptions ∧ e.theoryDecision = false

theorem Assumed.mem (hI : s.Invariant T M) (hA : s.Assumed)
    (hle : s.decisionLevel ≤ s.assumptions.length) (he : e ∈ s.trail) (hr : e.reason = .undef)
    (hpos : 0 < e.level) : e.lit ∈ s.assumptions ∧ e.theoryDecision = false := by
  obtain ⟨hlit, ht⟩ := hA e he hr hpos ((hI.level_le e he).trans hle)
  exact ⟨mem_of_getElem? hlit, ht⟩

/-- As long as there are not more levels than assumptions, a false literal is false under all
valuations. -/
theorem not_holds_of_value (hM : M ⊆ T.Models) (hI : s.Invariant T M) (hA : s.Assumed)
    (hle : s.decisionLevel ≤ s.assumptions.length) {α : Valuation} (hα : α ∈ M)
    (hl : s.value T l = some false) : ¬l.Holds α := by
  refine T.not_holds_of_value (hM hα) (hI.trail.holds hM hα fun e he hr hpos => ?_) hl
  exact hI.assumptions _ (hA.mem hI hle he hr hpos).1 α hα

theorem refuted_of_conflict (hM : M ⊆ T.Models) (hI : s.Invariant T M) (hA : s.Assumed)
    (hle : s.decisionLevel ≤ s.assumptions.length) (hc : c.Follows M)
    (hfalse : ∀ q ∈ c, s.value T q = some false) : s.Refuted M := by
  refine ⟨fun α hα => ?_, fun e he hr hpos => hA.mem hI hle he hr hpos⟩
  obtain ⟨q, hq, hqα⟩ := hc α hα
  exact not_holds_of_value hM hI hA hle hα (hfalse q hq) hqα

/-! ## Lemmas -/

/-- A lemma follows without the literals that are false on level 0. -/
theorem addClause_spec (hM : M ⊆ T.Models) (hI : s.Invariant T M) (hc : c.Follows M) :
    (s.addClause T c).Invariant T M ∧ (s.Assumed → (s.addClause T c).Assumed) := by
  rw [addClause]
  split_ifs with htriv
  · exact ⟨hI, id⟩
  · refine ⟨⟨hI.trail, hI.level_le, hI.level_eq, hI.level_zero, hI.clauses, hI.assumptions, ?_⟩, id⟩
    intro d hd
    obtain hd | hd := mem_append.mp hd
    · exact hI.lemmas d hd
    · rw [mem_singleton.mp hd]
      refine hc.strengthen fun q hq => ?_
      by_cases hz : s.value T q = some false ∧ s.level q.var = some 0
      · refine Or.inr fun α hα => ?_
        obtain ⟨e, he, hev, hel⟩ := hI.level_zero _ hz.2
        have hneg := hI.trail.holds_zero hM hα he hel
        rwa [hI.trail.eq_neg_of_value he hev hz.1, Lit.holds_neg] at hneg
      · refine Or.inl (mem_filter.mpr ⟨?_, ?_⟩)
        · rw [mem_dedup, mem_insertionSort]
          exact hq
        · rw [← Bool.decide_and, decide_eq_false hz, Bool.not_false]

variable {cs : List Clause}

theorem addExplanation_spec (hM : M ⊆ T.Models) (hI : s.Invariant T M)
    (hcs : ∀ c ∈ cs, c.Follows M) :
    (s.addExplanation T cs).Invariant T M ∧ (s.Assumed → (s.addExplanation T cs).Assumed) := by
  rw [addExplanation]
  induction cs generalizing s with
  | nil => exact ⟨hI, id⟩
  | cons c cs ih =>
    obtain ⟨hI₁, hA₁⟩ := addClause_spec hM hI (hcs c (mem_cons_self ..))
    obtain ⟨hI₂, hA₂⟩ := ih hI₁ fun d hd => hcs d (mem_cons_of_mem _ hd)
    exact ⟨hI₂, fun hA => hA₂ (hA₁ hA)⟩

/-- What storing lemmas results in. -/
structure StoredFrom (T : Theory) (M : Set Valuation) (s : Solver) (r : Stored) : Prop where
  invariant : r.solver.Invariant T M
  assumed : s.Assumed → r.solver.Assumed
  failed : r.ok = false → (∀ α, α ∉ M) ∧ r.solver.decisionLevel = 0
  conflict : ∀ c, r.conflict = some c → c.Follows M ∧ ∀ q ∈ c, r.solver.value T q = some false

/-- A literal that follows is not false on level 0. -/
theorem empty_of_unit (hM : M ⊆ T.Models) (hI : s.Invariant T M) (hzero : s.decisionLevel = 0)
    (hl : s.value T l = some false) (hc : Clause.Follows M [l]) (α : Valuation) : α ∉ M := by
  intro hα
  refine T.not_holds_of_value (hM hα) (fun e he => ?_) hl (Clause.follows_singleton.mp hc α hα)
  exact hI.trail.holds_zero hM hα he (by have := hI.level_le e he; omega)

/-- A false literal stays false when another one is enqueued. -/
theorem value_uncheckedEnqueue_eq_false {q : Lit} {reason : Reason} (hl : s.value T l = none)
    (hq : s.value T q = some false) : (s.uncheckedEnqueue l reason).value T q = some false := by
  rw [value_uncheckedEnqueue, hq]
  intro hv
  rw [value, Assigns.value, hv] at hq
  rw [value, Assigns.value_eq_none] at hl
  simp [hl] at hq

theorem storeAll_spec (hM : M ⊆ T.Models) {conflict : Option Clause}
    (hI : s.Invariant T M) (hcs : ∀ c ∈ cs, c.Follows M) (hnil : [] ∈ cs → s.decisionLevel = 0)
    (hconfl : ∀ c, conflict = some c → c.Follows M ∧ ∀ q ∈ c, s.value T q = some false)
    (h : storeAll T cs s conflict = some r) : StoredFrom T M s r := by
  induction cs generalizing s conflict with
  | nil =>
    cases h
    exact ⟨hI, id, nofun, hconfl⟩
  | cons c cs ih =>
    have hc := hcs c (mem_cons_self ..)
    have hcs' := fun d hd => hcs d (mem_cons_of_mem c hd)
    have hnil' := fun hmem => hnil (mem_cons_of_mem c hmem)
    have hfol : Clause.Follows M (s.sortLemma T c) := hc.mono fun q hq => mem_sortLemma.mpr hq
    have hfailed : Invariant T M { s with mLemmas := cs.reverse } :=
      ⟨hI.trail, hI.level_le, hI.level_eq, hI.level_zero, hI.clauses, hI.assumptions,
        fun d hd => hcs' d (mem_reverse.mp hd)⟩
    rw [storeAll] at h
    split at h
    · rename_i hsort
      rw [hsort] at hfol
      have hc : c = [] := by
        have hlen := length_insertionSort (s.lemmaKey T · ≤ s.lemmaKey T ·) c
        rw [show c.insertionSort (s.lemmaKey T · ≤ s.lemmaKey T ·) = [] from hsort] at hlen
        exact length_eq_zero_iff.mp hlen.symm
      cases h
      refine ⟨hfailed, id, fun _ => ⟨fun α hα => ?_, hnil (hc ▸ mem_cons_self ..)⟩,
        fun _ hc => by cases hc⟩
      obtain ⟨q, hq, -⟩ := hfol α hα
      cases hq
    · rename_i l hsort
      rw [hsort] at hfol
      split_ifs at h with hzero
      have hzero := not_not.mp hzero
      split at h
      · rename_i hv
        cases h
        exact ⟨hfailed, id, fun _ => ⟨empty_of_unit hM hI hzero hv hfol, hzero⟩,
          fun _ hc => by cases hc⟩
      · have hstor := ih (hI.pushAssumption (Clause.follows_singleton.mp hfol)) hcs'
          (fun _ => hzero) hconfl h
        refine ⟨hstor.invariant, fun _ => hstor.assumed fun e he _ hpos => ?_, hstor.failed,
          hstor.conflict⟩
        have := hI.level_le e he
        omega
      · exact ih hI hcs' hnil' hconfl h
    · rename_i l k rest hsort
      rw [hsort] at hfol
      have hI₁ := hI.storeClause hfol
      dsimp only at h
      split_ifs at h with hunit hv
      · have hothers : ∀ q ∈ l :: k :: rest, q ≠ l → s.value T q = some false := fun q hq hne =>
          value_of_sortLemma_tail hsort hunit.2 ((mem_cons.mp hq).resolve_left hne)
        have hstor := ih (hI₁.propagate hunit.1 (mem_cons_self ..) hothers hfol) hcs'
          hnil' (fun d hd => ⟨(hconfl d hd).1, fun q hq =>
            value_uncheckedEnqueue_eq_false hunit.1 ((hconfl d hd).2 q hq)⟩) h
        exact ⟨hstor.invariant, fun hA => hstor.assumed (assumed_uncheckedEnqueue hA),
          hstor.failed, hstor.conflict⟩
      · have hfalse : ∀ q ∈ l :: k :: rest, s.value T q = some false := by
          intro q hq
          obtain rfl | hq := mem_cons.mp hq
          · exact hv
          · exact value_of_sortLemma hsort hv hq
        have hstor := ih hI₁ hcs' hnil' (fun d hd => by
          cases hd
          exact ⟨hfol, hfalse⟩) h
        exact ⟨hstor.invariant, hstor.assumed, hstor.failed, hstor.conflict⟩
      · have hstor := ih hI₁ hcs' hnil' hconfl h
        exact ⟨hstor.invariant, hstor.assumed, hstor.failed, hstor.conflict⟩

theorem lemmaLevel_eq_zero (hcs : [] ∈ cs) (level : Nat) : s.lemmaLevel T cs level = 0 := by
  induction cs generalizing level with
  | nil => cases hcs
  | cons c cs ih =>
    rw [lemmaLevel]
    obtain rfl | hcs := mem_cons.mp hcs
    · rfl
    · split
      · rfl
      · split_ifs
        · rfl
        · exact ih hcs _
      · split_ifs
        · exact ih hcs _
        · exact ih hcs _
        · exact ih hcs _

theorem storeLemmas_spec (hM : M ⊆ T.Models) (hI : s.Invariant T M)
    (h : s.storeLemmas T = some r) : StoredFrom T M s r := by
  obtain ⟨hI₁, -⟩ := cancelUntil_spec hI (s.lemmaLevel T s.mLemmas s.decisionLevel) true
  have hI₂ : Invariant T M
      { s.cancelUntil (s.lemmaLevel T s.mLemmas s.decisionLevel) true with mLemmas := [] } :=
    ⟨hI₁.trail, hI₁.level_le, hI₁.level_eq, hI₁.level_zero, hI₁.clauses, hI₁.assumptions,
      fun _ hc => by cases hc⟩
  have hstor := storeAll_spec hM hI₂ (fun c hc => hI.lemmas c (mem_reverse.mp hc)) (fun hnil => by
      refine (decisionLevel_cancelUntil s _).trans ?_
      rw [lemmaLevel_eq_zero (mem_reverse.mp hnil), Nat.min_zero])
    (fun _ hc => by cases hc) h
  exact ⟨hstor.invariant, fun hA => hstor.assumed (assumed_cancelUntil hI hA _ _),
    hstor.failed, hstor.conflict⟩

/-! ## Steps -/

/-- The conflicts that are analysed in a step do not add an assumption under a decision. -/
def unitsContained (T : Theory) (s : Solver) : Search.Action → Bool
  | .conflict c => s.contained T c
  | .storeLemmas => storedContained (s.storeLemmas T)
  | .handleTheoryConflict explanation =>
    storedContained (storeLemmas T (s.addExplanation T explanation))
  | _ => true
where
  storedContained : Option Stored → Bool
    | some ⟨s, true, some c⟩ => s.contained T c
    | _ => true

end Solver

/-- What holds at every moment of a search and when it has returned. -/
structure Search.Sound (T : Theory) (M : Set Valuation) (s : Search) : Prop where
  invariant : s.returnedFalse = false → s.solver.Invariant T M ∧ s.solver.Assumed
  refuted : s.returnedFalse = true → s.solver.Refuted M

namespace Solver

theorem sound_continues (hI : s.Invariant T M) (hA : s.Assumed) : s.continues.Sound T M :=
  ⟨fun _ => ⟨hI, hA⟩, nofun⟩

theorem Refuted.sound (h : s.Refuted M) : s.returnFalse.Sound T M :=
  ⟨nofun, fun _ => h⟩

/-- A new level is opened by the literal of its assumption, or there is no assumption for it. -/
theorem sound_decide (hI : s.Invariant T M) (hA : s.Assumed) {theoryDecision : Bool}
    (hl : ∀ e ∈ s.trail, e.lit.var ≠ l.var)
    (hlit : s.decisionLevel < s.assumptions.length →
      s.assumptions[s.decisionLevel]? = some l ∧ theoryDecision = false) :
    (s.newDecisionLevel.enqueueEntry l .undef theoryDecision).continues.Sound T M := by
  have hI₁ : s.newDecisionLevel.Invariant T M :=
    ⟨hI.trail, fun e he => (hI.level_le e he).trans (Nat.le_succ _), hI.level_eq, hI.level_zero,
      hI.clauses, hI.assumptions, hI.lemmas⟩
  refine sound_continues (hI₁.enqueueEntry hl (.decision rfl (Nat.succ_pos _) fun f hf => ?_)) ?_
  · exact Nat.lt_succ_of_le (hI.level_le f hf)
  · intro e he hr hpos hle
    obtain rfl | he := mem_cons.mp he
    · exact hlit hle
    · exact hA e he hr hpos hle

theorem conflictFound_spec (hM : M ⊆ T.Models) (hI : s.Invariant T M) (hA : s.Assumed)
    (hc : c.Follows M) (hfalse : ∀ q ∈ c, s.value T q = some false)
    (hcont : s.contained T c = true) {r : Search} (h : s.conflictFound T c = some r) :
    r.Sound T M := by
  rw [conflictFound] at h
  split_ifs at h with hle
  · cases h
    exact (refuted_of_conflict hM hI hA hle hc hfalse).sound
  · obtain ⟨s', hs', rfl⟩ := map_eq_some_iff.mp h
    obtain ⟨hI', hA'⟩ := handleConflict_spec hM hI hc hs'
    exact sound_continues hI' (hA' hA hcont)

/-- After lemmas have been stored, a conflict is handled by either of two functions. -/
theorem afterLemmas_spec (hA : s.Assumed) {o : Option Stored} (ho : o = some r)
    (hr : StoredFrom T M s r) {handle : Solver → Clause → Option Search}
    (hhandle : ∀ (s₁ : Solver) c r, s₁.Invariant T M → s₁.Assumed → c.Follows M →
      (∀ q ∈ c, s₁.value T q = some false) → s₁.contained T c = true →
        handle s₁ c = some r → r.Sound T M)
    (hcont : unitsContained.storedContained T o = true) {result : Search}
    (h : afterLemmas r handle = some result) : result.Sound T M := by
  obtain ⟨s₁, ok, conflict⟩ := r
  subst ho
  cases ok with
  | false =>
    cases h
    obtain ⟨hempty, hzero⟩ := hr.failed rfl
    refine Refuted.sound ⟨hempty, fun e he _ hpos => ?_⟩
    have := hr.invariant.level_le e he
    dsimp only at hzero this
    omega
  | true =>
    cases conflict with
    | none =>
      cases h
      exact sound_continues hr.invariant (hr.assumed hA)
    | some c =>
      obtain ⟨hc, hfalse⟩ := hr.conflict c rfl
      exact hhandle s₁ c _ hr.invariant (hr.assumed hA) hc hfalse hcont h

theorem step_spec (hM : M ⊆ T.Models) (hI : s.Invariant T M) (hA : s.Assumed) {action : Search.Action}
    (hcont : s.unitsContained T action = true) {r : Search} (h : s.step T action = some r) :
    r.Sound T M := by
  cases action with
  | propagate c l =>
    simp only [step] at h
    split_ifs at h with hg
    cases h
    obtain ⟨hc, hl, hnone, hothers⟩ := hg
    exact sound_continues (hI.propagate hnone hl hothers (hI.clauses c hc))
      (assumed_uncheckedEnqueue hA)
  | conflict c =>
    simp only [step] at h
    split_ifs at h with hg
    exact conflictFound_spec hM hI hA (hI.clauses c hg.1) hg.2 hcont h
  | addClause c =>
    simp only [step] at h
    split_ifs at h with hg
    cases h
    obtain ⟨hI', hA'⟩ := addClause_spec hM hI ((T.explanation_follows c hg).anti hM)
    exact sound_continues hI' (hA' hA)
  | storeLemmas =>
    obtain ⟨r', hr', h⟩ := bind_eq_some_iff.mp h
    refine afterLemmas_spec hA hr' (storeLemmas_spec hM hI hr') ?_ hcont h
    exact fun s₁ c r hI₁ hA₁ hc hfalse hcont h =>
      conflictFound_spec hM hI₁ hA₁ hc hfalse hcont h
  | assumption =>
    simp only [step] at h
    split at h
    · cases h
    · rename_i p hp
      have hlt : s.decisionLevel < s.assumptions.length := by
        rw [List.getElem?_eq_some_iff] at hp
        exact hp.1
      split at h
      · cases h
        refine sound_continues ⟨hI.trail, fun e he => ?_, hI.level_eq, hI.level_zero, hI.clauses,
          hI.assumptions, hI.lemmas⟩ hA
        exact (hI.level_le e he).trans (Nat.le_succ _)
      · rename_i hv
        cases h
        refine Refuted.sound ⟨fun α hα => ?_, fun e he hr hpos => hA.mem hI hlt.le he hr hpos⟩
        exact not_holds_of_value hM hI hA hlt.le hα hv (hI.assumptions p (mem_of_getElem? hp) α hα)
      · rename_i hv
        cases h
        exact sound_decide hI hA (Theory.value_eq_none hv).1 fun _ => ⟨hp, rfl⟩
  | decide l =>
    simp only [step] at h
    split_ifs at h with hg
    cases h
    obtain ⟨hle, hnone, -⟩ := hg
    exact sound_decide hI hA (boolValue_eq_none.mp hnone) fun hlt => by omega
  | propagateTheory l =>
    simp only [step] at h
    split_ifs at h with hg
    cases h
    obtain ⟨-, hnone, hexp, hmem, hothers⟩ := hg
    obtain ⟨hvar, heval⟩ := Theory.value_eq_none hnone
    have hj : Justified T M s.trail ⟨l.neg, .tPropagation, s.decisionLevel, false⟩ :=
      .implied _ (Or.inr ⟨rfl, rfl⟩) rfl heval hmem hothers ((T.explanation_follows _ hexp).anti hM)
    refine sound_continues (hI.enqueueEntry hvar hj) fun e he hr => ?_
    obtain rfl | he := mem_cons.mp he
    · cases hr
    · exact hA e he hr
  | theoryDecision l =>
    simp only [step] at h
    split_ifs at h with hg
    cases h
    exact sound_decide hI hA (boolValue_eq_none.mp hg.2) fun hlt => by omega
  | handleTheoryConflict explanation =>
    simp only [step] at h
    split_ifs at h with hg
    obtain ⟨r', hr', h⟩ := bind_eq_some_iff.mp h
    obtain ⟨hI₁, hA₁⟩ := addExplanation_spec hM hI fun c hc =>
      (T.explanation_follows c (List.all_eq_true.mp hg c hc)).anti hM
    refine afterLemmas_spec (hA₁ hA) hr' (storeLemmas_spec hM hI₁ hr') ?_ hcont h
    intro s₁ c r hI₁ hA₁ hc _ hcont h
    obtain ⟨s', hs', rfl⟩ := map_eq_some_iff.mp h
    obtain ⟨hI', hA'⟩ := handleConflict_spec hM hI₁ hc hs'
    exact sound_continues hI' (hA' hA₁ hcont)
  | restart =>
    cases h
    exact sound_continues (cancelUntil_spec hI 0 false).1 (assumed_cancelUntil hI hA 0 false)
  | reduceDB kept =>
    cases h
    exact sound_continues ⟨hI.trail, hI.level_le, hI.level_eq, hI.level_zero,
      fun c hc => hI.clauses c (mem_of_mem_filter hc), hI.assumptions, hI.lemmas⟩ hA

end Solver

namespace Search

/-- The condition on a step. -/
def unitsContained (T : Theory) (s : Search) (action : Search.Action) : Prop :=
  s.solver.unitsContained T action = true

instance (s : Search) (action : Search.Action) : Decidable (unitsContained T s action) :=
  inferInstanceAs (Decidable (_ = true))

/-- The valuations of the theory that satisfy clauses and assumptions. -/
def models (T : Theory) (clauses : List Clause) (assumptions : List Lit) : Set Valuation :=
  { α | α ∈ T.Models ∧ (∀ c ∈ clauses, c.Holds α) ∧ ∀ l ∈ assumptions, l.Holds α }

theorem init_sound (clauses : List Clause) (assumptions : List Lit) :
    (init clauses assumptions).Sound T (models T clauses assumptions) := by
  have hlev : ∀ v, (Solver.init clauses assumptions).level v = some 0 → v = mTrueVar := by
    intro v hv
    by_contra hne
    simp [Solver.init, Function.update_of_ne hne] at hv
  have htrue : ∀ α ∈ models T clauses assumptions, (mkLit mTrueVar false).Holds α :=
    fun α hα => T.mTrueVar_eq α hα.1
  refine Solver.sound_continues ⟨.cons .nil (fun _ h => by cases h) (fun _ h => by cases h)
    (.unit rfl rfl rfl htrue), ?_, ?_, ?_, fun c hc α hα => hα.2.1 c hc,
    fun l hl α hα => hα.2.2 l hl, fun _ h => by cases h⟩ ?_
  · intro e he
    rw [mem_singleton.mp he]
    exact le_rfl
  · intro e he
    rw [mem_singleton.mp he]
    rfl
  · intro v hv
    exact ⟨_, mem_singleton_self _, (hlev v hv).symm, rfl⟩
  · intro e he _ hpos
    rw [mem_singleton.mp he] at hpos
    cases hpos

theorem step_sound (hM : M ⊆ T.Models) {s s' : Search} {action : Search.Action} (hs : s.Sound T M)
    (h : guarded (unitsContained T) (step T) s action = some s') : s'.Sound T M := by
  obtain ⟨hcont, h⟩ := guarded_eq_some.mp h
  rw [step] at h
  split_ifs at h with hret
  obtain ⟨hI, hA⟩ := hs.invariant (by simpa using hret)
  exact Solver.step_spec hM hI hA hcont h

/-- If the search returns that the clauses are unsatisfiable under the assumptions, they are, and the
decisions on the trail are assumptions, as long as no analysis adds an assumption under a
decision. -/
theorem returnedFalse_sound {clauses : List Clause} {assumptions : List Lit} {actions : List Search.Action}
    {s : Search}
    (h : run (guarded (unitsContained T) (step T)) (init clauses assumptions) actions = some s)
    (hs : s.returnedFalse = true) :
    (∀ e ∈ s.solver.trail, e.reason = .undef → 0 < e.level →
      e.lit ∈ s.solver.assumptions ∧ e.theoryDecision = false) ∧
      ¬∃ α ∈ T.Models, (∀ c ∈ clauses, c.Holds α) ∧ ∀ l ∈ assumptions, l.Holds α := by
  have hsound : s.Sound T (models T clauses assumptions) :=
    run_invariant (fun _ _ _ hs h => step_sound (fun _ hα => hα.1) hs h)
      (init_sound clauses assumptions) h
  obtain ⟨hempty, hdec⟩ := hsound.refuted hs
  refine ⟨hdec, ?_⟩
  rintro ⟨α, hα⟩
  exact hempty α hα

/-- The theory of a constraint that is always true, as `x² - x + 1 ≥ 0` is; its variable is 5. -/
def validConstraint : Theory where
  Models := { α | α mTrueVar = true ∧ α 5 = true }
  mTrueVar_eq := fun _ hα => hα.1
  evaluate := fun _ _ => none
  evaluate_sound := nofun
  evaluate_cons := fun _ _ _ _ => rfl
  explanation := fun c => c = [mkLit 5 false]
  explanation_follows := by
    intro c hc α hα
    rw [of_decide_eq_true hc]
    exact ⟨_, mem_singleton_self _, hα.2⟩
  explain := fun _ _ _ => [mkLit 5 false]

/-- Unsatisfiable with the constraint, under the assumption that 1 is false. -/
def refutedClauses : List Clause :=
  [[mkLit 1 false, mkLit 2 false, mkLit 5 true], [mkLit 1 false, mkLit 2 true]]

theorem returnedFalse_sound_validConstraint :
    ∃ s, run (guarded (unitsContained validConstraint) (step validConstraint))
        (init refutedClauses [mkLit 1 true])
        [.handleTheoryConflict [[mkLit 5 false]], .assumption, .assumption,
          .propagate [mkLit 1 false, mkLit 2 false, mkLit 5 true] (mkLit 2 false),
          .conflict [mkLit 1 false, mkLit 2 true]] = some s ∧
      (∀ e ∈ s.solver.trail, e.reason = .undef → 0 < e.level →
        e.lit ∈ s.solver.assumptions ∧ e.theoryDecision = false) ∧
      ¬∃ α ∈ validConstraint.Models, (∀ c ∈ refutedClauses, c.Holds α) ∧
        ∀ l ∈ [mkLit 1 true], l.Holds α := by
  have hrun : (run (guarded (unitsContained validConstraint) (step validConstraint))
      (init refutedClauses [mkLit 1 true])
      [.handleTheoryConflict [[mkLit 5 false]], .assumption, .assumption,
        .propagate [mkLit 1 false, mkLit 2 false, mkLit 5 true] (mkLit 2 false),
        .conflict [mkLit 1 false, mkLit 2 true]]).map (·.returnedFalse) = some true := by
    decide +kernel
  obtain ⟨s, hs, hret⟩ := map_eq_some_iff.mp hrun
  exact ⟨s, hs, returnedFalse_sound hs hret⟩

/-- What a search has derived: clauses, lemmas and the literals on level 0 follow, and so do all
literals on the trail from its decisions. -/
structure Derives (T : Theory) (M : Set Valuation) (s : Solver) : Prop where
  clauses : ∀ c ∈ s.clauses ++ s.mLemmas, c.Follows M
  level_zero : ∀ e ∈ s.trail, e.level = 0 → ∀ α ∈ M, e.lit.Holds α
  trail : ∀ α ∈ M, (∀ e ∈ s.trail, e.reason = .undef → 0 < e.level → e.lit.Holds α) →
    ∀ e ∈ s.trail, e.lit.Holds α

/-- At every moment before a search returns, what it has derived is true in all models of the
clauses and assumptions, as long as no analysis adds an assumption under a decision. -/
theorem derives_of_run {clauses : List Clause} {assumptions : List Lit}
    {actions : List Search.Action} {s : Search}
    (h : run (guarded (unitsContained T) (step T)) (init clauses assumptions) actions = some s)
    (hs : s.returnedFalse = false) : Derives T (models T clauses assumptions) s.solver := by
  have hsound : s.Sound T (models T clauses assumptions) :=
    run_invariant (fun _ _ _ hs h => step_sound (fun _ hα => hα.1) hs h)
      (init_sound clauses assumptions) h
  obtain ⟨hI, -⟩ := hsound.invariant hs
  constructor
  case clauses =>
    intro c hc
    exact (mem_append.mp hc).elim (hI.clauses c) (hI.lemmas c)
  case level_zero => exact fun e he hzero α hα => hI.trail.holds_zero (fun _ hα => hα.1) hα he hzero
  case trail => exact fun α hα hdec e he => hI.trail.holds (fun _ hα => hα.1) hα hdec e he

/-- 1 must be true. -/
def learningClauses : List Clause :=
  [[mkLit 1 false, mkLit 2 false], [mkLit 1 false, mkLit 2 true]]

/-- The decision that 1 is false ends in a conflict, from which 1 is learnt. -/
def learningActions : List Search.Action :=
  [.decide (mkLit 1 true), .propagate [mkLit 1 false, mkLit 2 false] (mkLit 2 false),
    .conflict [mkLit 1 false, mkLit 2 true]]

theorem derives_of_run_learning :
    ∃ s, run (guarded (unitsContained validConstraint) (step validConstraint))
        (init learningClauses []) learningActions = some s ∧
      Derives validConstraint (models validConstraint learningClauses []) s.solver := by
  have hrun : (run (guarded (unitsContained validConstraint) (step validConstraint))
      (init learningClauses []) learningActions).map (·.returnedFalse) = some false := by
    decide +kernel
  obtain ⟨s, hs, hret⟩ := map_eq_some_iff.mp hrun
  exact ⟨s, hs, derives_of_run hs hret⟩

/-- Clauses that are satisfiable; 1 must be true, and one of 2 and the negated constraint. -/
def satisfiableClauses : List Clause :=
  [[mkLit 5 true, mkLit 2 false, mkLit 3 false], [mkLit 5 true, mkLit 2 false, mkLit 3 true],
    [mkLit 1 false, mkLit 4 false, mkLit 5 true], [mkLit 1 false, mkLit 4 true, mkLit 5 true]]

/-- The constraint is propagated under two decisions; its explanation becomes an assumption while
the first decision stays. -/
def misledActions : List Search.Action :=
  [.decide (mkLit 1 true), .decide (mkLit 2 true), .propagateTheory (mkLit 5 true),
    .propagate [mkLit 5 true, mkLit 2 false, mkLit 3 false] (mkLit 3 false),
    .conflict [mkLit 5 true, mkLit 2 false, mkLit 3 true],
    .propagateTheory (mkLit 5 true),
    .propagate [mkLit 1 false, mkLit 4 false, mkLit 5 true] (mkLit 4 false),
    .conflict [mkLit 1 false, mkLit 4 true, mkLit 5 true]]

/-- A conflict with a decision is taken for a refutation. -/
theorem returnedFalse_under_decision :
    ∃ s, run (step validConstraint) (init satisfiableClauses []) misledActions = some s ∧
      s.returnedFalse = true ∧
      (∃ e ∈ s.solver.trail, e.reason = .undef ∧ 0 < e.level ∧ e.lit ∉ s.solver.assumptions) ∧
      ∃ α ∈ validConstraint.Models, ∀ c ∈ satisfiableClauses, c.Holds α := by
  have hrun : (run (step validConstraint) (init satisfiableClauses []) misledActions).map
        (fun s => (s.returnedFalse, s.solver.trail, s.solver.assumptions)) =
      some (true, [⟨mkLit 4 false,
          .clause [mkLit 1 false, mkLit 4 false, mkLit 5 true], 1, false⟩,
        ⟨mkLit 5 false, .tPropagation, 1, false⟩, ⟨mkLit 1 true, .undef, 1, false⟩,
        ⟨mkLit mTrueVar false, .undef, 0, false⟩], [mkLit 5 false]) := by
    decide +kernel
  obtain ⟨s, hs, hres⟩ := map_eq_some_iff.mp hrun
  obtain ⟨hret, htrail, hass⟩ : s.returnedFalse = true ∧ _ ∧ _ := by simpa using hres
  refine ⟨s, hs, hret, ⟨⟨mkLit 1 true, .undef, 1, false⟩, ?_, rfl, Nat.one_pos, ?_⟩,
    fun _ => true, ⟨rfl, rfl⟩, by decide⟩
  · rw [htrail]
    decide
  · rw [hass]
    decide

end Search

end Smtrat.SAT
