import Smtrat.Common.Run
import Smtrat.CAD.Projection.FullRun
import Smtrat.CAD.Projection.NoneOrderedRun

/-!
# Backtracking of projections

The ordered projection may only lose polynomials of a level if one of them stays.  The unordered ones
never lose any.
-/

namespace Smtrat.CAD

universe u

open Saturation List

variable {P : Type u} {op : ProjectionOperator P} {dim : ℕ}

/-! ## Removals -/

variable {t : Tracked (ProjectionNU P) P}

/-- A removal is right if and only if the other constraints still demand all polynomials. -/
theorem ProjectionNU.Inv.removePolynomial_iff (h : Inv op dim t) (cid : ℕ) :
    (Exact (op.plain dim) (t.constraints.filter (·.1 ≠ cid))
        (t.projection.removePolynomial dim cid).2.polynomialById ∧
      Removed t.projection.polynomialById (t.projection.removePolynomial dim cid).2.polynomialById
        (t.projection.removePolynomial dim cid).1) ↔
    ∀ level, ∀ q ∈ t.projection.levels level,
      Reach (op.plain dim) (polynomialsOf (t.constraints.filter (·.1 ≠ cid))) level q := by
  have hsame : (t.projection.removePolynomial dim cid).2 = t.projection :=
    (h.wellFormed.removeLevels_eq dim 1 {cid}).1
  constructor
  · rintro ⟨hexact, -⟩ level q hq
    rw [hsame] at hexact
    exact (hexact level q).mp (h.wellFormed.exists_polynomialById.mpr hq)
  · intro hkeeps
    refine ⟨?_, h.wellFormed.removePolynomial_removed dim cid⟩
    rw [hsame]
    exact Inv.exact (t := ⟨_, t.projection⟩) ⟨h.wellFormed, h.levels_filter hkeeps⟩

theorem ProjectionF.Inv.removePolynomial_iff {t : Tracked (ProjectionF P) P} (h : Inv op dim t)
    (cid : ℕ) :
    (ExactAside (op.forwarding dim) (t.constraints.filter (·.1 ≠ cid))
        (t.projection.removePolynomial dim cid).2.polynomialById
        (· ∈ (t.projection.removePolynomial dim cid).2.projectionQueue) ∧
      Removed t.projection.polynomialById (t.projection.removePolynomial dim cid).2.polynomialById
        (t.projection.removePolynomial dim cid).1) ↔
    ∀ level, ∀ q ∈ t.projection.levels level,
      Reach (op.forwarding dim) (polynomialsOf (t.constraints.filter (·.1 ≠ cid))) level q := by
  constructor
  · rintro ⟨haside, -⟩ level q hq
    obtain ⟨id, hid⟩ := InvAside.wellFormed h |>.exists_polynomialById.mpr hq
    refine haside.sound level id q ?_
    rw [removePolynomial_eq (InvAside.wellFormed h)]
    exact hid
  · intro hkeeps
    exact ⟨(InvAside.removePolynomial h hkeeps).aside,
      removePolynomial_removed (InvAside.wellFormed h) cid⟩

variable {cid : ℕ} {p : P}

/-- If constraints share their polynomial then one of them may go. -/
theorem polynomialsOf_filter_of_shared {constraints : List (ℕ × P)} (shared : ℕ)
    (hcid : ∀ q, (cid, q) ∈ constraints → q = p) (hshared : (shared, p) ∈ constraints)
    (hne : shared ≠ cid) :
    polynomialsOf (constraints.filter (·.1 ≠ cid)) = polynomialsOf constraints := by
  ext q
  constructor
  · rintro ⟨c, hc⟩
    exact ⟨c, (mem_filter.mp hc).1⟩
  · rintro ⟨c, hc⟩
    by_cases heq : c = cid
    · subst heq
      rw [hcid q hc]
      exact ⟨shared, mem_filter.mpr ⟨hshared, decide_eq_true hne⟩⟩
    · exact ⟨c, mem_filter.mpr ⟨hc, decide_eq_true heq⟩⟩

theorem ProjectionNU.Inv.keeps_of_shared (h : Inv op dim t) (shared : ℕ)
    (hcid : ∀ q, (cid, q) ∈ t.constraints → q = p)
    (hshared : (shared, p) ∈ t.constraints) (hne : shared ≠ cid) :
    Keeps op dim t (.removePolynomial p cid) := by
  intro level q hq
  rw [polynomialsOf_filter_of_shared shared hcid hshared hne]
  exact (h.exact level q).mp (h.wellFormed.exists_polynomialById.mpr hq)

variable [LinearOrder P]

/-- The last constraint can be removed if and only if no level loses all of its polynomials. -/
theorem ProjectionNO.Inv.removePolynomial_iff {t : Tracked (ProjectionNO P) P} (h : Inv op dim t)
    (hdim : 0 < dim) (hhead : t.constraints.head? = some (cid, p)) :
    (∃ calls s', ProjectionNO.removePolynomial dim cid t.projection = some (calls, s') ∧
      Exact (op.forwarding dim) t.constraints.tail s'.polynomialById ∧
      Removed t.projection.polynomialById s'.polynomialById calls) ↔
    KeepsLevels cid t.projection := by
  constructor
  · rintro ⟨calls, s', hs', -⟩ level hne
    obtain ⟨e, he⟩ := exists_mem_of_ne_nil _ hne
    have hreach : e.1 ∈ t.projection.levels level := ⟨e.2, he⟩
    rw [h.levels] at hreach
    have hle := ProjectionOperator.reach_le_dim hdim hreach
    exact keeps_of_removeLevels hs' hreach.one_le (by omega) hne
  · intro hkeeps
    obtain ⟨calls, s', hs', hinv, hfilt, hcalls⟩ := h.removePolynomial hdim hhead hkeeps
    refine ⟨calls, s', hs', hinv.exact, removed_of_append (fun level => ?_) hcalls⟩
    rw [hfilt]
    have hlatest : t.projection.Latest cid := by
      refine h.latest fun c hc => ?_
      obtain ⟨rest, hrest⟩ := head?_eq_some_iff.mp hhead
      have hincr := h.increasing
      rw [hrest] at hc hincr
      rcases mem_cons.mp hc with rfl | hc
      · exact le_rfl
      · exact ((pairwise_cons.mp hincr).1 c hc).le
    obtain ⟨front, hfront, -⟩ := filter_eq_of_pairwise (h.sorted level) (hlatest level)
    exact ⟨front, hfront⟩

/-! ## Runs -/

variable {pool : IDPool} {less : ProjectionF.Comparator P}

variable {events : List (ProjectionEvent P)}

open Classical in
theorem ProjectionNO.inv_of_run (hdim : 0 < dim) {t : Tracked (ProjectionNO P) P}
    (h : Run.run (Run.guarded Keeps (step op dim)) ⟨[], init⟩ events = some t) : Inv op dim t := by
  exact Run.guarded_invariant (fun _ _ _ ht hkeeps hstep => ht.step hdim hkeeps hstep) inv_init h

open Classical in
theorem ProjectionNU.inv_of_run (hdim : 0 < dim)
    (h : Run.run (Run.guarded (Keeps op dim) (step op pool dim)) ⟨[], init⟩ events = some t) :
    Inv op dim t := by
  exact Run.guarded_invariant (fun _ _ _ ht hkeeps hstep => ht.step hdim hkeeps hstep) inv_init h

open Classical in
theorem ProjectionF.inv_of_run (hdim : 0 < dim) {t : Tracked (ProjectionF P) P}
    (h : Run.run (Run.guarded (Keeps op dim) (step op pool less dim)) ⟨[], init⟩ events = some t) :
    Inv op dim t := by
  exact Run.guarded_invariant (fun _ _ _ ht hkeeps hstep => ht.step hdim hkeeps hstep) inv_init h

open Classical in
/-- In all runs whose removals only concern what may go, the levels hold exactly what is reachable from
the constraints, and a further removal keeps this and reports what it drops if and only if it only
concerns what may go, too: for the ordered projection some polynomial of every level, for the others
nothing. -/
theorem backtracking_of_run (op : ProjectionOperator P) (pool : IDPool)
    (less : ProjectionF.Comparator P) (hdim : 0 < dim) :
    (∀ events t, Run.run (Run.guarded ProjectionNO.Keeps (ProjectionNO.step op dim))
        ⟨[], ProjectionNO.init⟩ events = some t →
      Exact (op.forwarding dim) t.constraints t.projection.polynomialById ∧
      (t.constraints = [] → ∀ level id, t.projection.polynomialById level id = none) ∧
      ∀ cid p, t.constraints.head? = some (cid, p) →
        ((∃ calls s', ProjectionNO.removePolynomial dim cid t.projection = some (calls, s') ∧
          Exact (op.forwarding dim) t.constraints.tail s'.polynomialById ∧
          Removed t.projection.polynomialById s'.polynomialById calls) ↔
        ProjectionNO.Keeps t (.removePolynomial p cid))) ∧
    (∀ events t, Run.run (Run.guarded (ProjectionNU.Keeps op dim) (ProjectionNU.step op pool dim))
        ⟨[], ProjectionNU.init⟩ events = some t →
      Exact (op.plain dim) t.constraints t.projection.polynomialById ∧
      (t.constraints = [] → ∀ level id, t.projection.polynomialById level id = none) ∧
      ∀ cid p, (cid, p) ∈ t.constraints →
        ((Exact (op.plain dim) (t.constraints.filter (·.1 ≠ cid))
            (t.projection.removePolynomial dim cid).2.polynomialById ∧
          Removed t.projection.polynomialById
            (t.projection.removePolynomial dim cid).2.polynomialById
            (t.projection.removePolynomial dim cid).1) ↔
        ProjectionNU.Keeps op dim t (.removePolynomial p cid))) ∧
    ∀ events t, Run.run (Run.guarded (ProjectionF.Keeps op dim) (ProjectionF.step op pool less dim))
        ⟨[], ProjectionF.init⟩ events = some t →
      ExactAside (op.forwarding dim) t.constraints t.projection.polynomialById
        (· ∈ t.projection.projectionQueue) ∧
      (t.projection.projectionQueue = [] →
        Exact (op.forwarding dim) t.constraints t.projection.polynomialById) ∧
      (t.constraints = [] → ∀ level id, t.projection.polynomialById level id = none) ∧
      (∃ r, t.projection.projectNewPolynomial op pool less dim = some r ∧
        (r.1 = ∅ → Exact (op.forwarding dim) t.constraints r.2.polynomialById)) ∧
      ∀ cid p, (cid, p) ∈ t.constraints →
        ((ExactAside (op.forwarding dim) (t.constraints.filter (·.1 ≠ cid))
            (t.projection.removePolynomial dim cid).2.polynomialById
            (· ∈ (t.projection.removePolynomial dim cid).2.projectionQueue) ∧
          Removed t.projection.polynomialById
            (t.projection.removePolynomial dim cid).2.polynomialById
            (t.projection.removePolynomial dim cid).1) ↔
        ProjectionF.Keeps op dim t (.removePolynomial p cid)) := by
  refine ⟨fun events t h => ?_, fun events t h => ?_, fun events t h => ?_⟩
  · have hinv := ProjectionNO.inv_of_run hdim h
    have hexact := hinv.exact
    refine ⟨hexact, fun hnil => ?_, fun cid p hhead => hinv.removePolynomial_iff hdim hhead⟩
    rw [hnil] at hexact
    exact hexact.empty
  · have hinv := ProjectionNU.inv_of_run hdim h
    have hexact := hinv.exact
    refine ⟨hexact, fun hnil => ?_, fun cid _ _ => hinv.removePolynomial_iff cid⟩
    rw [hnil] at hexact
    exact hexact.empty
  · have hinv := ProjectionF.inv_of_run hdim h
    have haside := ProjectionF.InvAside.aside hinv
    refine ⟨haside, fun hqueue => haside.exact fun qe hqe => ?_, fun hnil => ?_, ?_,
      fun cid _ _ => ProjectionF.Inv.removePolynomial_iff hinv cid⟩
    · have hqe : qe ∈ t.projection.projectionQueue := hqe
      rw [hqueue] at hqe
      exact not_mem_nil hqe
    · rw [hnil] at haside
      exact haside.empty
    · obtain ⟨r, hr, hinv', hdone⟩ := ProjectionF.InvAside.project pool less hdim hinv le_rfl
      refine ⟨r, hr, fun hempty => hinv'.aside.exact fun qe hqe => ?_⟩
      rw [hdone hempty] at hqe
      exact not_mem_nil hqe

/-! ## An operator -/

/-- Numbers are polynomials here, with sums as resultants. -/
def sumOperator : ProjectionOperator ℕ where
  isZero p := p = 0
  isNumber _ := false
  isConstant _ := false
  switchVariable _ p := p
  single _ p := [p]
  paired _ p q := [p + q]
  paired_comm _ p q r hr := by rwa [Nat.add_comm q p]

/-- Ids are used one after the other. -/
def consecutiveIDs : IDPool where
  get used := if used = ∅ then 0 else used.sup id + 1
  get_notMem used := by
    split_ifs with hempty
    · rw [hempty]
      exact Finset.notMem_empty 0
    · intro hmem
      exact absurd (Finset.le_sup (f := id) hmem) (Nat.not_succ_le_self _)

open Classical in
theorem ProjectionNO.run_of_last : ∃ t, Run.run (Run.guarded Keeps (step sumOperator 2)) ⟨[], init⟩
    [.addPolynomial 1 0 false, .addPolynomial 2 1 false, .removePolynomial 2 1] = some t ∧
    t.constraints = [(0, 1)] := by
  refine ⟨_, Run.run_cons.mpr ⟨_, Run.guarded_eq_some.mpr ⟨trivial, rfl⟩,
    Run.run_cons.mpr ⟨_, Run.guarded_eq_some.mpr ⟨trivial, rfl⟩,
    Run.run_cons.mpr ⟨_, Run.guarded_eq_some.mpr ⟨?_, rfl⟩, rfl⟩⟩⟩, rfl⟩
  -- the first polynomial is on both levels
  rintro (_ | _ | _ | level) hlev
  · exact absurd rfl hlev
  · exact ⟨(1, 0), by decide⟩
  · exact ⟨(1, 0), by decide⟩
  · exact absurd rfl hlev

open Classical in
theorem ProjectionNU.run_of_shared : ∃ t, Run.run (Run.guarded (Keeps sumOperator 2)
    (step sumOperator consecutiveIDs 2)) ⟨[], init⟩
    ([.addPolynomial 1 0 false, .addPolynomial 1 1 false] ++ [.removePolynomial 1 0]) = some t ∧
    t.constraints = [(1, 1)] := by
  have hadded : Run.run (Run.guarded (Keeps sumOperator 2) (step sumOperator consecutiveIDs 2))
      ⟨[], init⟩ [.addPolynomial 1 0 false, .addPolynomial 1 1 false] = some _ :=
    Run.run_cons.mpr ⟨_, Run.guarded_eq_some.mpr ⟨trivial, rfl⟩,
      Run.run_cons.mpr ⟨_, Run.guarded_eq_some.mpr ⟨trivial, rfl⟩, rfl⟩⟩
  have hkeeps : Keeps sumOperator 2 _ (.removePolynomial 1 0) :=
    (inv_of_run (by decide) hadded).keeps_of_shared 1 (by simp) (by simp) (by decide)
  exact ⟨_, Run.run_append.mpr ⟨_, hadded,
    Run.run_cons.mpr ⟨_, Run.guarded_eq_some.mpr ⟨hkeeps, rfl⟩, rfl⟩⟩, rfl⟩

theorem backtracking_of_run_shared :
    (∃ s : ProjectionNO ℕ, Exact (sumOperator.forwarding 2) [(0, 1)] s.polynomialById) ∧
    (∃ s : ProjectionNU ℕ, Exact (sumOperator.plain 2) [(1, 1)] s.polynomialById) ∧
    ∃ s : ProjectionF ℕ, ExactAside (sumOperator.forwarding 2) [(1, 1)] s.polynomialById
      (· ∈ s.projectionQueue) := by
  classical
  obtain ⟨hno, hnu, hf⟩ :=
    backtracking_of_run sumOperator consecutiveIDs (fun _ _ => false) (show 0 < 2 by decide)
  obtain ⟨⟨_, no⟩, hrun, rfl⟩ := ProjectionNO.run_of_last
  obtain ⟨⟨_, nu⟩, hrun', rfl⟩ := ProjectionNU.run_of_shared
  refine ⟨⟨no, (hno _ _ hrun).1⟩, ⟨nu, (hnu _ _ hrun').1⟩, ⟨_, (hf [.addPolynomial 1 1 false,
    .projectNewPolynomial] _ (Run.run_cons.mpr ⟨_, Run.guarded_eq_some.mpr ⟨trivial, rfl⟩,
      Run.run_cons.mpr ⟨_, Run.guarded_eq_some.mpr ⟨trivial, rfl⟩, rfl⟩⟩)).1⟩⟩

/-- Without a second constraint, nothing is removed, and the ordered projection fails. -/
theorem not_backtracking :
    (∃ t, Run.run (ProjectionNO.step sumOperator 2) ⟨[], ProjectionNO.init⟩
        [.addPolynomial 1 0 false] = some t ∧
      ProjectionNO.removePolynomial 2 0 t.projection = none) ∧
    (∃ t, Run.run (ProjectionNU.step sumOperator consecutiveIDs 2) ⟨[], ProjectionNU.init⟩
        [.addPolynomial 1 0 false, .removePolynomial 1 0] = some t ∧
      t.constraints = [] ∧ t.projection.polynomialById 1 0 = some 1) ∧
    ∃ t, Run.run (ProjectionF.step sumOperator consecutiveIDs (fun _ _ => false) 2)
        ⟨[], ProjectionF.init⟩
        [.addPolynomial 1 0 false, .projectNewPolynomial, .removePolynomial 1 0] = some t ∧
      t.constraints = [] ∧ t.projection.polynomialById 1 0 = some 1 :=
  ⟨⟨_, rfl, rfl⟩, ⟨_, rfl, rfl, rfl⟩, ⟨_, rfl, rfl, rfl⟩⟩

end Smtrat.CAD
