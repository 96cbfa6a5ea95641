import Smtrat.Mcsat.Arithmetic.Collected

/-!
# What the assignment finder returns

The cover records for every collected literal the cells with a sample where it does not hold.  A cell
that is left has a sample where all examined literals hold; if none is left, the core is a set of
asserted literals of which one fails in every cell.  Assigned comparisons are not examined.
-/

/-!
## The cells a literal refutes

The loop over the roots of a literal refutes whole runs of cells from one sample each.  The cells it
refutes are those with a sample where the literal does not hold.
-/

namespace Smtrat.Mcsat

open SparsePoly LineCells RealAlgebraicNumber List

variable {σ A : Type*} [RealAlgebraicNumber A]

section Loop

variable {ri : RootIndexer A} {roots : List A} {satisfies : A → Bool} {S : ℝ → Prop}

theorem mem_ite_union {b c : Finset ℕ} {p : Bool} {i : ℕ} :
    i ∈ (if p then b else b ∪ c) ↔ i ∈ b ∨ p = false ∧ i ∈ c := by
  cases p <;> simp

theorem mem_ite_insert {b : Finset ℕ} {p : Bool} {i j : ℕ} :
    i ∈ (if p then b else insert j b) ↔ i ∈ b ∨ p = false ∧ i = j := by
  cases p <;> simp [or_comm]

/-- The loop from a root on: the cells behind `last` are run through. -/
theorem mem_refutedCells (h : ri.Processed) (hsat : ∀ a, satisfies a ↔ S (toReal a))
    (hsub : roots ⊆ ri.roots) (hsorted : roots.Pairwise (· < ·)) {last : ℕ}
    (hlast : last ≤ 2 * ri.size) (hfront : ∀ r ∈ roots, last ≤ 2 * ri.index r)
    (hcells : ∀ i j, last ≤ i → i ≤ 2 * ri.size → last ≤ j → j ≤ 2 * ri.size →
      (∀ r ∈ roots, (i < 2 * ri.index r + 1 ↔ j < 2 * ri.index r + 1) ∧
        (2 * ri.index r + 1 < i ↔ 2 * ri.index r + 1 < j)) →
      (S (toReal (ri.sampleFrom i)) ↔ S (toReal (ri.sampleFrom j))))
    (b : Finset ℕ) (i : ℕ) :
    i ∈ AssignmentFinder.refutedCells satisfies ri roots last b
      ↔ i ∈ b ∨ last ≤ i ∧ i ≤ 2 * ri.size ∧ ¬ S (toReal (ri.sampleFrom i)) := by
  have hfalse (a : A) : satisfies a = false ↔ ¬ S (toReal a) := by
    rw [← hsat, Bool.not_eq_true]
  induction roots generalizing last b with
  | nil =>
    rw [AssignmentFinder.refutedCells, mem_ite_union, hfalse, Finset.mem_Icc, mul_comm ri.size]
    refine or_congr_right
      ⟨fun ⟨hnot, hle, hge⟩ => ⟨hle, hge, ?_⟩, fun ⟨hle, hge, hnot⟩ => ⟨?_, hle, hge⟩⟩
    · rwa [← hcells last i le_rfl hlast hle hge fun r hr => absurd hr not_mem_nil]
    · rwa [hcells last i le_rfl hlast hle hge fun r hr => absurd hr not_mem_nil]
  | cons r roots ih =>
    obtain ⟨hr, htail⟩ := cons_subset.mp hsub
    obtain ⟨hbehind, htailsorted⟩ := pairwise_cons.mp hsorted
    obtain ⟨hindex, hsmp⟩ := h.index_spec hr
    have hfst := hfront r mem_cons_self
    have hnext : ∀ s ∈ roots, ri.index r < ri.index s := fun s hs =>
      h.index_lt hr (htail hs) (hbehind s hs)
    -- up to the root, every sample is in the cell of the sample in front of the root
    have hrun {j : ℕ} (hj : last ≤ j) (hj' : j ≤ 2 * ri.index r) :
        S (toReal (ri.sampleFrom j)) ↔ S (toReal (ri.sampleFrom (2 * ri.index r))) := by
      refine hcells j _ hj (by omega) hfst (by omega) (forall_mem_cons.mpr ⟨?_, ?_⟩)
      · omega
      · intro s hs
        have := hnext s hs
        omega
    have hrest := ih htail htailsorted
      (show 2 * ri.index r + 2 ≤ 2 * ri.size by omega)
      (fun s hs => by have := hnext s hs; omega)
      (fun j k hj hj' hk hk' hjk => hcells j k (by omega) hj' (by omega) hk'
        (forall_mem_cons.mpr ⟨by omega, hjk⟩))
    rw [AssignmentFinder.refutedCells]
    refine (hrest _).trans ?_
    rw [mem_ite_insert, mem_ite_union, hfalse, hfalse, Finset.mem_Icc]
    constructor
    · rintro (((hb | ⟨hnot, hle, hge⟩) | ⟨hnot, rfl⟩) | ⟨hle, hge, hnot⟩)
      · exact .inl hb
      · exact .inr ⟨hle, by omega, by rwa [hrun hle hge]⟩
      · exact .inr ⟨by omega, by omega, by rwa [hsmp]⟩
      · exact .inr ⟨by omega, hge, hnot⟩
    · rintro (hb | ⟨hle, hge, hnot⟩)
      · exact .inl (.inl (.inl hb))
      · rcases lt_trichotomy i (2 * ri.index r + 1) with hlt | rfl | hgt
        · exact .inl (.inl (.inr ⟨by rwa [← hrun hle (by omega)], hle, by omega⟩))
        · exact .inl (.inr ⟨by rwa [hsmp] at hnot, rfl⟩)
        · exact .inr ⟨by omega, hge, hnot⟩

/-- A literal that respects the cells between its roots refutes the cells with a sample where it does
not hold. -/
theorem mem_refutedCells_of_respects (h : ri.Processed) (hsat : ∀ a, satisfies a ↔ S (toReal a))
    (hsub : roots ⊆ ri.roots) (hsorted : roots.Pairwise (· < ·))
    (hrespects : Respects (roots.map toReal) S) (i : ℕ) :
    i ∈ AssignmentFinder.refutedCells satisfies ri roots 0 ∅
      ↔ i ≤ 2 * ri.size ∧ ¬ S (toReal (ri.sampleFrom i)) := by
  rw [mem_refutedCells h hsat hsub hsorted (Nat.zero_le _) (fun _ _ => Nat.zero_le _)]
  · simp
  · intro i j _ hi _ hj hij
    exact hrespects _ _ (h.sameCell_sampleFrom hsub hi hj hij)

end Loop

end Smtrat.Mcsat

namespace Smtrat.Mcsat

open SparsePoly LineCells RealAlgebraicNumber List

variable {σ A : Type*}

/-! ## The cover -/

section Fold

variable [LinearOrder (Formula σ A)]

/-- The literals of the entries with a bit. -/
def refuting (l : List (Formula σ A × Finset ℕ)) : List (Formula σ A) :=
  (l.filter fun d => d.2 ≠ ∅).map (·.1)

theorem refutes_foldl_addAny (bits : Formula σ A → Finset ℕ) {l : List (Formula σ A × Finset ℕ)}
    {cover : Covering (Formula σ A)} {added : List (Formula σ A)}
    (hl : ∀ d ∈ l, d.2 = bits d.1) (h : cover.Refutes bits added) :
    (l.foldl AssignmentFinder.addAny cover).Refutes bits (added ++ refuting l) := by
  induction l generalizing cover added with
  | nil => rwa [refuting, filter_nil, map_nil, append_nil]
  | cons d l ih =>
    obtain ⟨hd, hl⟩ := forall_mem_cons.mp hl
    rw [foldl_cons, AssignmentFinder.addAny, refuting]
    by_cases hempty : d.2 = ∅
    · rw [if_pos hempty, filter_cons_of_neg (by simpa using hempty)]
      exact ih hl h
    · rw [if_neg hempty, filter_cons_of_pos (by simpa using hempty), map_cons, hd,
        ← singleton_append, ← append_assoc]
      exact ih hl (h.add d.1)

theorem size_foldl_addAny (l : List (Formula σ A × Finset ℕ)) (cover : Covering (Formula σ A)) :
    (l.foldl AssignmentFinder.addAny cover).size = cover.size := by
  induction l generalizing cover with
  | nil => rfl
  | cons d l ih =>
    rw [foldl_cons, ih, AssignmentFinder.addAny]
    split_ifs
    · rfl
    · rfl

end Fold

variable {f : Formula σ A}

theorem mem_refuting {l : List (Formula σ A × Finset ℕ)} :
    f ∈ refuting l ↔ ∃ d ∈ l, d.1 = f ∧ d.2 ≠ ∅ := by
  simp only [refuting, mem_map, mem_filter, decide_eq_true_eq]
  exact ⟨fun ⟨d, ⟨hd, hne⟩, hf⟩ => ⟨d, hd, hf, hne⟩, fun ⟨d, hd, hf, hne⟩ => ⟨d, ⟨hd, hne⟩, hf⟩⟩

/-- The collected literals, in the form the cover is computed from. -/
def Kept (af : AssignmentFinder σ A) (f : Formula σ A) : Prop :=
  (∃ w, (f, w) ∈ af.rootMap) ∨ f ∈ af.mvBounds

theorem selectAssignment_mem [RealAlgebraicNumber A] (af : AssignmentFinder σ A)
    {cover : Covering (Formula σ A)}
    (h : ¬ cover.conflicts) :
    ∃ i ∈ cover.okay, af.selectAssignment cover = some (af.ri.sampleFrom i) := by
  have hne : cover.satisfyingSamples ≠ [] := by
    intro hnil
    refine h (decide_eq_true (Finset.eq_empty_of_forall_notMem fun i hi => ?_))
    rw [← Covering.mem_satisfyingSamples, hnil] at hi
    exact not_mem_nil hi
  obtain ⟨first, rest, hcons⟩ := exists_cons_of_ne_nil hne
  have hmem : rest.foldl (fun min s => if af.compare_assignments s min then s else min) first
      ∈ cover.satisfyingSamples := by
    rw [hcons]
    refine List.foldlRecOn rest _ mem_cons_self fun i hi s hs => ?_
    split_ifs
    · exact mem_cons_of_mem _ hs
    · exact hi
  refine ⟨_, Covering.mem_satisfyingSamples.mp hmem, ?_⟩
  rw [AssignmentFinder.selectAssignment, hcons]

variable [DecidableEq σ] [RealAlgebraicNumber A]

/-- The cells with a sample where the literal does not hold. -/
noncomputable def refuted (α : σ → ℝ) (x : σ) (ri : RootIndexer A) (f : Formula σ A) : Finset ℕ :=
  haveI : DecidablePred fun i => ¬ f.At α x (toReal (ri.sampleFrom i)) := Classical.decPred _
  (Finset.range (ri.size * 2 + 1)).filter fun i => ¬ f.At α x (toReal (ri.sampleFrom i))

theorem mem_refuted {α : σ → ℝ} {x : σ} {ri : RootIndexer A} {i : ℕ} :
    i ∈ refuted α x ri f ↔ i ≤ 2 * ri.size ∧ ¬ f.At α x (toReal (ri.sampleFrom i)) := by
  refine (@Finset.mem_filter _ _ (Classical.decPred _) _ _).trans ?_
  rw [Finset.mem_range, mul_comm, Nat.lt_succ_iff]

theorem refutedSamples_eq (carl : Evaluation σ A) (af : AssignmentFinder σ A) {α : σ → ℝ}
    (hα : af.model.Agrees α) (hf : af.model.CoversBut af.var f) :
    af.refutedSamples carl f = refuted α af.var af.ri f := by
  ext i
  rw [AssignmentFinder.refutedSamples, Finset.mem_filter, Finset.mem_range, mem_refuted, mul_comm,
    Nat.lt_succ_iff, carl.evaluate_eq_false_iff (hf.covers_assign _) (hα.assign _ _)]
  rfl

theorem Collected.processed_ri {α : σ → ℝ} {m : Model σ A} {x : σ} {added : List (Formula σ A)}
    {af : AssignmentFinder σ A} (h : Collected m α x added af) :
    af.processed.ri.Processed ∧ ∀ r ∈ af.ri.roots, r ∈ af.processed.ri.roots := by
  have hri : af.processed.ri = RootIndexer.process ⟨af.ri.roots, [], []⟩ := by
    rw [← h.ri]
    rfl
  rw [hri]
  exact ⟨RootIndexer.process_processed _, fun r hr => RootIndexer.mem_process_roots.mpr hr⟩

/-- A kept literal that fails on the sample of a cell is asserted, and fails in the cell. -/
theorem Collected.not_at_of_sameCell {α : σ → ℝ} {m : Model σ A} {x : σ}
    {added : List (Formula σ A)} {af : AssignmentFinder σ A} (h : Collected m α x added af)
    (hf : Kept af f) {s t : ℝ} (hs : ¬ f.At α x s)
    (hcell : SameCell (af.processed.ri.roots.map toReal) t s) :
    f ∈ added ∧ Examined m x f ∧ ¬ f.At α x t := by
  rcases hf with ⟨w, hw⟩ | hf
  · obtain ⟨hmem, he⟩ := h.rootMap _ hw
    have hlocal : SameCell (w.1.map toReal) t s := hcell.mono (by
      intro c hc
      obtain ⟨r, hr, rfl⟩ := mem_map.mp hc
      exact mem_map_of_mem (h.processed_ri.2 r (he.subset hr)))
    exact ⟨hmem, he.examined, mt (he.respects t s hlocal).mp hs⟩
  · obtain ⟨-, ⟨hmem, hexam, hconst⟩ | hsat⟩ := h.mvBounds f hf
    · exact ⟨hmem, hexam, mt (hconst t s).mp hs⟩
    · exact absurd (hsat s) hs

section Cover

variable [LinearOrder (Formula σ A)] (carl : Evaluation σ A) {α : σ → ℝ} {m : Model σ A} {x : σ}
  {added : List (Formula σ A)} {af : AssignmentFinder σ A}

/-- The cover refutes the cells with a sample where a kept literal does not hold. -/
theorem Collected.cover (h : Collected m α x added af) (hα : m.Agrees α) :
    ∃ refuting : List (Formula σ A),
      (af.processed.computeCover carl).Refutes (refuted α x af.processed.ri) refuting ∧
        (af.processed.computeCover carl).size = af.processed.ri.size * 2 + 1 ∧
        ∀ f, f ∈ refuting ↔ Kept af f ∧ refuted α x af.processed.ri f ≠ ∅ := by
  obtain ⟨hproc, hroots⟩ := h.processed_ri
  obtain rfl := h.var
  obtain rfl := h.model
  set ri := af.processed.ri with hri
  have hent : ∀ c ∈ af.rootMap, AssignmentFinder.refutedCells
      (af.processed.satisfies carl c.2.2) ri c.2.1 0 ∅ = refuted α af.var ri c.1 := by
    intro c hc
    have he := (h.rootMap c hc).2
    ext i
    have hsat : ∀ a, af.processed.satisfies carl c.2.2 a ↔ c.1.At α af.var (toReal a) := by
      intro a
      rw [← he.sat_new]
      exact carl.getD_evaluate_iff (he.coversBut_new.covers_assign _) (hα.assign _ _)
    rw [mem_refutedCells_of_respects hproc hsat (fun r hr => hroots r (he.subset hr)) he.sorted
      he.respects, mem_refuted]
  have hbd : ∀ b ∈ af.mvBounds, af.processed.refutedSamples carl b = refuted α af.var ri b :=
    fun b hb => refutedSamples_eq carl af.processed hα (h.mvBounds b hb).1
  have hfst := refutes_foldl_addAny (refuted α af.var ri) (l := af.rootMap.map fun c => (c.1,
      AssignmentFinder.refutedCells (af.processed.satisfies carl c.2.2) ri c.2.1 0 ∅))
    (by
      intro d hd
      obtain ⟨c, hc, rfl⟩ := mem_map.mp hd
      exact hent c hc) (Covering.refutes_ofIntervals _ (ri.size * 2 + 1))
  have hsnd := refutes_foldl_addAny (refuted α af.var ri)
    (l := af.mvBounds.map fun c => (c, af.processed.refutedSamples carl c)) (by
      intro d hd
      obtain ⟨c, hc, rfl⟩ := mem_map.mp hd
      exact hbd c hc) hfst
  refine ⟨_, hsnd, ?_, fun f => ?_⟩
  · exact (size_foldl_addAny _ _).trans (size_foldl_addAny _ _)
  · rw [nil_append, mem_append, mem_refuting, mem_refuting]
    constructor
    · rintro (⟨d, hd, rfl, hne⟩ | ⟨d, hd, rfl, hne⟩)
      · obtain ⟨c, hc, rfl⟩ := mem_map.mp hd
        exact ⟨.inl ⟨c.2, hc⟩, by rwa [← hent c hc]⟩
      · obtain ⟨c, hc, rfl⟩ := mem_map.mp hd
        exact ⟨.inr hc, by rwa [← hbd c hc]⟩
    · rintro ⟨⟨w, hw⟩ | hf, hne⟩
      · exact .inl ⟨_, mem_map_of_mem hw, rfl, by rwa [hent _ hw]⟩
      · exact .inr ⟨_, mem_map_of_mem hf, rfl, by rwa [hbd f hf]⟩

end Cover

/-! ## The value and the conflict -/

section Result

variable [LinearOrder (Formula σ A)] (carl : Evaluation σ A) {α : σ → ℝ} {m : Model σ A} {x : σ}
  {added : List (Formula σ A)} {af : AssignmentFinder σ A}

/-- The number the model gets. -/
theorem toReal_assignment (a : A) :
    (if isNumeric a then Number.rational (value a) else Number.ran a).toReal = toReal a := by
  split_ifs with hnumeric
  · rw [← ofRational_value hnumeric, Number.toReal, toReal_ofRational, ofRational_value hnumeric]
  · rfl

theorem Collected.findAssignment (h : Collected m α x added af) (hα : m.Agrees α) :
    (∃ v : Number A, af.findAssignment carl = some (.values [(x, v)]) ∧
      ∀ f ∈ added, Examined m x f → f.At α x v.toReal) ∨
    ∃ fs, af.findAssignment carl = some (.conflict fs) ∧
      (∀ f ∈ fs, f ∈ added ∧ Examined m x f) ∧ ∀ t, ∃ f ∈ fs, ¬ f.At α x t := by
  obtain ⟨hproc, -⟩ := h.processed_ri
  obtain ⟨refuting, hrefutes, hsize, hmem⟩ := h.cover carl hα
  by_cases hconf : (af.processed.computeCover carl).conflicts
  · obtain ⟨core, hcore, hsub, hcov⟩ := hrefutes.buildConflictingCore hconf
    refine .inr ⟨core, ?_, fun f hf => ?_, fun t => ?_⟩
    · rw [AssignmentFinder.findAssignment, if_pos hconf, hcore, Option.map_some]
    · obtain ⟨hkept, hne⟩ := (hmem f).mp (hsub f hf)
      obtain ⟨i, hi⟩ := Finset.nonempty_iff_ne_empty.mpr hne
      obtain ⟨hadded, hexam, -⟩ := h.not_at_of_sameCell hkept (mem_refuted.mp hi).2
        (fun c _ => ⟨Iff.rfl, Iff.rfl⟩)
      exact ⟨hadded, hexam⟩
    · obtain ⟨i, hi, hcell⟩ := hproc.exists_sampleFrom t
      obtain ⟨f, hf, hbit⟩ := hcov i (by rw [hsize]; omega)
      obtain ⟨hkept, -⟩ := (hmem f).mp (hsub f hf)
      exact ⟨f, hf, (h.not_at_of_sameCell hkept (mem_refuted.mp hbit).2 hcell).2.2⟩
  · obtain ⟨i, hi, hselect⟩ := selectAssignment_mem af.processed hconf
    have hval : af.findAssignment carl = some (.values [(x,
        if isNumeric (af.processed.ri.sampleFrom i)
        then .rational (value (af.processed.ri.sampleFrom i))
        else .ran (af.processed.ri.sampleFrom i))]) := by
      rw [AssignmentFinder.findAssignment, if_neg hconf, hselect, Option.map_some,
        show af.processed.var = x from h.var]
    refine .inl ⟨_, hval, fun f hf hexam => ?_⟩
    · rw [toReal_assignment]
      obtain ⟨hlt, hokay⟩ := (hrefutes.okay i).mp hi
      rw [hsize] at hlt
      by_contra hnot
      have hbit : i ∈ refuted α x af.processed.ri f := mem_refuted.mpr ⟨by omega, hnot⟩
      rcases h.handled f hf hexam with hsat | hkept
      · exact hnot (hsat _)
      · exact hokay f ((hmem f).mpr ⟨hkept, Finset.ne_empty_of_mem hbit⟩) hbit

end Result

end Smtrat.Mcsat
