import Smtrat.Datastructures.OrderedSet

/-!
# Coverings

The line is divided into the cells `0, 1, ..., n - 1`.  Every literal comes with the cells it refutes;
if no cell is left, a greedy choice of literals is a conflict.  Bit sets are finite sets of numbers.
-/

namespace Smtrat.Mcsat
open List

/-- `Covering` -/
structure Covering (F : Type*) where
  data : List (F × Finset ℕ)
  okay : Finset ℕ
  /-- The number of bits of `okay`. -/
  size : ℕ

namespace Covering

variable {F : Type*}

def ofIntervals (intervals : ℕ) : Covering F := ⟨[], Finset.range intervals, intervals⟩

def conflicts (cover : Covering F) : Bool := decide (cover.okay = ∅)

def satisfyingSamples (cover : Covering F) : List ℕ := cover.okay.sort (· ≤ ·)

/-- The first entry with the most bits. -/
def maxit (first : F × Finset ℕ) (data : List (F × Finset ℕ)) : F × Finset ℕ :=
  data.foldl (fun maxit it => if maxit.2.card < it.2.card then it else maxit) first

theorem maxit_mem (first : F × Finset ℕ) (data : List (F × Finset ℕ)) :
    maxit first data ∈ first :: data := by
  induction data generalizing first with
  | nil => exact mem_cons_self
  | cons d data ih =>
    show maxit (if first.2.card < d.2.card then d else first) data ∈ _
    split_ifs with hcard
    · exact mem_cons_of_mem _ (ih d)
    · rcases mem_cons.mp (ih first) with h | h
      · exact mem_cons.mpr (.inl h)
      · exact mem_cons_of_mem _ (mem_cons_of_mem _ h)

theorem mem_satisfyingSamples {cover : Covering F} {i : ℕ} :
    i ∈ cover.satisfyingSamples ↔ i ∈ cover.okay :=
  Finset.mem_sort _

/-- Every literal has its own set of refuted cells, and the other cells are okay. -/
structure Refutes (cover : Covering F) (bits : F → Finset ℕ) (added : List F) : Prop where
  data : ∀ d ∈ cover.data, d.1 ∈ added ∧ d.2 = bits d.1
  mem : ∀ c ∈ added, (c, bits c) ∈ cover.data
  okay : ∀ i, i ∈ cover.okay ↔ i < cover.size ∧ ∀ c ∈ added, i ∉ bits c

theorem refutes_ofIntervals (bits : F → Finset ℕ) (n : ℕ) : (ofIntervals n).Refutes bits [] where
  data := fun _ hd => absurd hd not_mem_nil
  mem := fun _ hc => absurd hc not_mem_nil
  okay := fun _ => Finset.mem_range.trans (and_iff_left fun _ hc => absurd hc not_mem_nil).symm

section Order

variable [LinearOrder F]

def add (cover : Covering F) (c : F) (b : Finset ℕ) : Covering F :=
  { cover with data := OrderedMap.emplace c b cover.data, okay := cover.okay \ b }

/-- The loop of `buildConflictingCore`.  Without entries the maximum is undefined. -/
def coreLoop (data : List (F × Finset ℕ)) (covered : Finset ℕ) : Option (List F) :=
  if covered = ∅ then some []
  else
    match data with
    | [] => none
    | first :: rest =>
      let it := maxit first rest
      let covered := covered \ it.2
      let data := ((first :: rest).erase it).map fun d => (d.1, d.2 ∩ covered)
      (coreLoop data covered).map (it.1 :: ·)
termination_by data.length
decreasing_by
  rw [length_map, length_erase_of_mem (maxit_mem first rest)]
  exact Nat.lt_succ_self _

def buildConflictingCore (cover : Covering F) : Option (List F) :=
  coreLoop cover.data (Finset.range cover.size)

/-- Entries that cover all cells have a core that covers them. -/
theorem coreLoop_spec (data : List (F × Finset ℕ)) (covered : Finset ℕ)
    (hcover : ∀ i ∈ covered, ∃ d ∈ data, i ∈ d.2) :
    ∃ core, coreLoop data covered = some core ∧ (∀ c ∈ core, ∃ d ∈ data, d.1 = c) ∧
      ∀ i ∈ covered, ∃ d ∈ data, d.1 ∈ core ∧ i ∈ d.2 := by
  fun_induction coreLoop data covered with
  | case1 data =>
    exact ⟨[], rfl, fun c hc => absurd hc not_mem_nil,
      fun i hi => absurd hi (Finset.notMem_empty i)⟩
  | case2 covered hne =>
    obtain ⟨i, hi⟩ := Finset.nonempty_iff_ne_empty.mpr hne
    obtain ⟨d, hd, -⟩ := hcover i hi
    exact absurd hd not_mem_nil
  | case3 covered hne first rest it covered' data' ih =>
    have hit : it ∈ first :: rest := maxit_mem first rest
    have hdata : ∀ d ∈ data', ∃ e ∈ first :: rest, e.1 = d.1 ∧ d.2 ⊆ e.2 := by
      intro d hd
      obtain ⟨e, he, rfl⟩ := mem_map.mp hd
      exact ⟨e, mem_of_mem_erase he, rfl, Finset.inter_subset_left⟩
    have hcover' : ∀ i ∈ covered', ∃ d ∈ data', i ∈ d.2 := by
      intro i hi
      obtain ⟨hmem, hnot⟩ := Finset.mem_sdiff.mp hi
      obtain ⟨d, hd, hid⟩ := hcover i hmem
      have hne : d ≠ it := by
        rintro rfl
        exact hnot hid
      exact ⟨_, mem_map_of_mem ((mem_erase_of_ne hne).mpr hd), Finset.mem_inter.mpr ⟨hid, hi⟩⟩
    obtain ⟨core, hcore, hkeys, hcov⟩ := ih hcover'
    refine ⟨it.1 :: core, by rw [hcore]; rfl, fun c hc => ?_, fun i hi => ?_⟩
    · rcases mem_cons.mp hc with rfl | hc
      · exact ⟨it, hit, rfl⟩
      · obtain ⟨d, hd, rfl⟩ := hkeys c hc
        obtain ⟨e, he, hkey, -⟩ := hdata d hd
        exact ⟨e, he, hkey⟩
    · by_cases hbit : i ∈ it.2
      · exact ⟨it, hit, mem_cons_self, hbit⟩
      · obtain ⟨d, hd, hcore, hid⟩ := hcov i (Finset.mem_sdiff.mpr ⟨hi, hbit⟩)
        obtain ⟨e, he, hkey, hsub⟩ := hdata d hd
        exact ⟨e, he, mem_cons_of_mem _ (hkey ▸ hcore), hsub hid⟩

variable {cover : Covering F} {bits : F → Finset ℕ} {added : List F}

theorem Refutes.add (h : cover.Refutes bits added) (c : F) :
    (cover.add c (bits c)).Refutes bits (added ++ [c]) where
  data := by
    intro d hd
    rcases OrderedMap.mem_emplace hd with hd | rfl
    · exact ⟨mem_append_left _ (h.data d hd).1, (h.data d hd).2⟩
    · exact ⟨mem_append_right _ (mem_singleton.mpr rfl), rfl⟩
  mem := by
    intro d hd
    rcases mem_append.mp hd with hd | hd
    · exact OrderedMap.mem_emplace_of_mem (h.mem d hd)
    · obtain rfl := mem_singleton.mp hd
      obtain ⟨w, hw⟩ := OrderedMap.exists_mem_emplace d (bits d) cover.data
      have hbits : w = bits d := by
        rcases OrderedMap.mem_emplace hw with hold | heq
        · exact (h.data _ hold).2
        · exact (Prod.mk.inj heq).2
      rw [hbits] at hw
      exact hw
  okay := by
    intro i
    show i ∈ cover.okay \ bits c ↔ i < cover.size ∧ _
    rw [Finset.mem_sdiff, h.okay, and_assoc]
    simp only [mem_append, mem_singleton, or_imp, forall_and, forall_eq]

/-- Without an okay cell the core is a set of added literals that refute every cell. -/
theorem Refutes.buildConflictingCore (h : cover.Refutes bits added) (hconf : cover.conflicts) :
    ∃ core, cover.buildConflictingCore = some core ∧ (∀ c ∈ core, c ∈ added) ∧
      ∀ i < cover.size, ∃ c ∈ core, i ∈ bits c := by
  have hempty : cover.okay = ∅ := of_decide_eq_true hconf
  have hcover : ∀ i ∈ Finset.range cover.size, ∃ d ∈ cover.data, i ∈ d.2 := by
    intro i hi
    have hnot := mt (h.okay i).mpr (by rw [hempty]; exact Finset.notMem_empty i)
    simp only [not_and, not_forall, not_not] at hnot
    obtain ⟨c, hc, hbit⟩ := hnot (Finset.mem_range.mp hi)
    exact ⟨_, h.mem c hc, hbit⟩
  obtain ⟨core, hcore, hkeys, hcov⟩ := coreLoop_spec cover.data _ hcover
  refine ⟨core, hcore, fun c hc => ?_, fun i hi => ?_⟩
  · obtain ⟨d, hd, rfl⟩ := hkeys c hc
    exact (h.data d hd).1
  · obtain ⟨d, hd, hmem, hbit⟩ := hcov i (Finset.mem_range.mpr hi)
    exact ⟨d.1, hmem, (h.data d hd).2 ▸ hbit⟩

end Order

end Covering

end Smtrat.Mcsat
