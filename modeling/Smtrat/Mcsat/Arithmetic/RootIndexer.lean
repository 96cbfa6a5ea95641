import Smtrat.Datastructures.OrderedSet
import Smtrat.Math.LineCells
import Smtrat.Mcsat.Arithmetic.RealAlgebraicNumber

/-!
# The root indexer

The roots of all literals are sorted; between them, below and above lie the sample points.  Sample
`2 * n + 1` is the `n`-th root, the samples with even numbers lie in the open cells.
-/

namespace Smtrat.Mcsat

open RealAlgebraicNumber LineCells List

variable {A : Type*}

variable {l : List A}

section Unique

variable [DecidableEq A]

/-- `std::unique` -/
def unique : List A → List A
  | a :: b :: l => if a = b then unique (b :: l) else a :: unique (b :: l)
  | l => l

theorem mem_unique {a : A} : a ∈ unique l ↔ a ∈ l := by
  fun_induction unique l with
  | case1 b l ih => rw [ih, mem_cons, mem_cons, mem_cons]; simp
  | case2 b c l hne ih => rw [mem_cons, mem_cons, ih]
  | case3 l hl => rfl

end Unique

variable [RealAlgebraicNumber A]

theorem unique_sorted (h : l.Pairwise (· ≤ ·)) : (unique l).Pairwise (· < ·) := by
  fun_induction unique l with
  | case1 b l ih => exact ih (pairwise_cons.mp h).2
  | case2 b c l hne ih =>
    obtain ⟨hb, htail⟩ := pairwise_cons.mp h
    refine pairwise_cons.mpr ⟨fun d hd => ?_, ih htail⟩
    have hbc : b < c := lt_of_le_of_ne (hb c mem_cons_self) hne
    rcases mem_cons.mp (mem_unique.mp hd) with rfl | hd
    · exact hbc
    · exact hbc.trans_le ((pairwise_cons.mp htail).1 d hd)
  | case3 l hl =>
    match l with
    | [] => exact List.Pairwise.nil
    | [a] => exact pairwise_singleton _ a
    | a :: b :: l => exact absurd rfl (hl a b l)

/-! ## Samples -/

/-- The samples behind a root: one below each following root, the root, and one above the last. -/
def samplesAfter (last : A) : List A → List A
  | [] => [sampleAbove last]
  | r :: roots => sampleBetween last r :: r :: samplesAfter r roots

def samplesOf : List A → List A
  | [] => [ofRational 0]
  | r :: roots => sampleBelow r :: r :: samplesAfter r roots

/-- `RootIndexer` -/
structure RootIndexer (A : Type*) where
  roots : List A
  map : List (A × ℕ)
  samples : List A

namespace RootIndexer

def empty : RootIndexer A := ⟨[], [], []⟩

def add (ri : RootIndexer A) (list : List A) : RootIndexer A := { ri with roots := ri.roots ++ list }

def process (ri : RootIndexer A) : RootIndexer A :=
  let roots := unique (ri.roots.mergeSort (· ≤ ·))
  { roots := roots
    map := roots.zipIdx.foldl (fun m p => OrderedMap.emplace p.1 p.2 m) ri.map
    samples := ri.samples ++ samplesOf roots }

def size (ri : RootIndexer A) : ℕ := ri.roots.length

/-- `operator[]`; the root is in the map. -/
def index (ri : RootIndexer A) (ran : A) : ℕ := (OrderedMap.find ran ri.map).getD 0

def sampleFrom (ri : RootIndexer A) (n : ℕ) : A := ri.samples.getD n (ofRational 0)

end RootIndexer

section Samples

variable {last r : A} {roots : List A}

theorem length_samplesAfter (last : A) (roots : List A) :
    (samplesAfter last roots).length = 2 * roots.length + 1 := by
  induction roots generalizing last with
  | nil => rfl
  | cons r roots ih =>
    rw [samplesAfter, length_cons, length_cons, ih, length_cons]
    ring

theorem length_samplesOf (roots : List A) : (samplesOf roots).length = 2 * roots.length + 1 := by
  cases roots with
  | nil => rfl
  | cons r roots =>
    rw [samplesOf, length_cons, length_cons, length_samplesAfter, length_cons]
    ring

theorem samplesAfter_sorted (h : (last :: roots).Pairwise (· < ·)) :
    (last :: samplesAfter last roots).Pairwise (· < ·) := by
  induction roots generalizing last with
  | nil => exact pairwise_pair.mpr (lt_sampleAbove last)
  | cons r roots ih =>
    have hr := (pairwise_cons.mp h).1 r mem_cons_self
    have hrest := ih (pairwise_cons.mp h).2
    have hlt := lt_sampleBetween hr
    have hgt := sampleBetween_lt hr
    rw [samplesAfter, pairwise_cons, pairwise_cons]
    have hbehind := (pairwise_cons.mp hrest).1
    refine ⟨fun a ha => ?_, fun a ha => ?_, hrest⟩
    · rcases mem_cons.mp ha with rfl | ha
      · exact hlt
      · rcases mem_cons.mp ha with rfl | ha
        · exact hr
        · exact hr.trans (hbehind a ha)
    · rcases mem_cons.mp ha with rfl | ha
      · exact hgt
      · exact hgt.trans (hbehind a ha)

theorem samplesOf_sorted (h : roots.Pairwise (· < ·)) : (samplesOf roots).Pairwise (· < ·) := by
  cases roots with
  | nil => exact pairwise_singleton _ _
  | cons r roots =>
    have hrest := samplesAfter_sorted h
    refine pairwise_cons.mpr ⟨fun a ha => ?_, hrest⟩
    rcases mem_cons.mp ha with rfl | ha
    · exact sampleBelow_lt a
    · exact (sampleBelow_lt r).trans ((pairwise_cons.mp hrest).1 a ha)

theorem samplesAfter_root (last : A) (roots : List A) (n : ℕ) :
    (samplesAfter last roots)[2 * n + 1]? = roots[n]? := by
  induction roots generalizing last n with
  | nil => rfl
  | cons r roots ih =>
    cases n with
    | zero => rfl
    | succ n => exact ih r n

theorem samplesOf_root (roots : List A) (n : ℕ) : (samplesOf roots)[2 * n + 1]? = roots[n]? := by
  cases roots with
  | nil => rfl
  | cons r roots =>
    cases n with
    | zero => rfl
    | succ n => exact samplesAfter_root r roots n

variable {t : ℝ}

/-- All points in front of a list of cuts are in the same cell. -/
theorem sameCell_of_lt {cuts : List ℝ} {s : ℝ} (hs : ∀ c ∈ cuts, s < c) (ht : ∀ c ∈ cuts, t < c) :
    SameCell cuts s t :=
  fun c hc => ⟨iff_of_true (hs c hc) (ht c hc), iff_of_false (hs c hc).not_gt (ht c hc).not_gt⟩

/-- A point behind a cut is not told apart by it from another such point. -/
theorem sameCell_cons_of_gt {cuts : List ℝ} {s c : ℝ} (hs : c < s) (ht : c < t)
    (h : SameCell cuts s t) : SameCell (c :: cuts) s t := by
  intro d hd
  rcases mem_cons.mp hd with rfl | hd
  · exact ⟨iff_of_false hs.not_gt ht.not_gt, iff_of_true hs ht⟩
  · exact h d hd

theorem map_toReal_lt {a : A} (h : ∀ b ∈ l, a < b) : ∀ c ∈ l.map toReal, toReal a < c := by
  intro c hc
  obtain ⟨b, hb, rfl⟩ := mem_map.mp hc
  exact toReal_strictMono (h b hb)

/-- A point in front of a root, at it or behind it is in the cell of a sample. -/
theorem exists_sample_cons {r a₀ : A} (ha₀ : a₀ < r) (h : (r :: roots).Pairwise (· < ·))
    (hafter : toReal r < t → ∃ a ∈ samplesAfter r roots, SameCell (roots.map toReal) t (toReal a)) :
    ∃ a ∈ a₀ :: r :: samplesAfter r roots, SameCell ((r :: roots).map toReal) t (toReal a) := by
  have hbehind := map_toReal_lt (pairwise_cons.mp h).1
  rcases lt_trichotomy t (toReal r) with hlt | rfl | hgt
  · have hsmp := toReal_strictMono ha₀
    refine ⟨_, mem_cons_self, sameCell_of_lt ?_ ?_⟩
    · exact forall_mem_cons.mpr ⟨hlt, fun c hc => hlt.trans (hbehind c hc)⟩
    · exact forall_mem_cons.mpr ⟨hsmp, fun c hc => hsmp.trans (hbehind c hc)⟩
  · exact ⟨r, mem_cons_of_mem _ mem_cons_self, fun c _ => ⟨Iff.rfl, Iff.rfl⟩⟩
  · obtain ⟨a, ha, hcell⟩ := hafter hgt
    have hra := toReal_strictMono ((pairwise_cons.mp (samplesAfter_sorted h)).1 a ha)
    exact ⟨a, mem_cons_of_mem _ (mem_cons_of_mem _ ha), sameCell_cons_of_gt hgt hra hcell⟩

/-- Behind a root every point has a sample in its cell. -/
theorem exists_sampleAfter (h : (last :: roots).Pairwise (· < ·)) (ht : toReal last < t) :
    ∃ a ∈ samplesAfter last roots, SameCell (roots.map toReal) t (toReal a) := by
  induction roots generalizing last with
  | nil => exact ⟨_, mem_cons_self, fun c hc => absurd hc not_mem_nil⟩
  | cons r roots ih =>
    obtain ⟨hlast, htail⟩ := pairwise_cons.mp h
    exact exists_sample_cons (sampleBetween_lt (hlast r mem_cons_self)) htail (ih htail)

/-- Every point has a sample in its cell. -/
theorem exists_sample (h : roots.Pairwise (· < ·)) (t : ℝ) :
    ∃ a ∈ samplesOf roots, SameCell (roots.map toReal) t (toReal a) := by
  cases roots with
  | nil => exact ⟨_, mem_cons_self, fun c hc => absurd hc not_mem_nil⟩
  | cons r roots => exact exists_sample_cons (sampleBelow_lt r) h (exists_sampleAfter h)

end Samples

namespace RootIndexer

variable {i : ℕ}

theorem sampleFrom_eq {ri : RootIndexer A} (h : i < ri.samples.length) :
    ri.sampleFrom i = ri.samples[i] := by
  rw [sampleFrom, getD_eq_getElem?_getD, getElem?_eq_getElem h, Option.getD_some]

/-! ## The processed indexer -/

/-- The state after `process`: roots, their numbers and the samples belong together. -/
structure Processed (ri : RootIndexer A) : Prop where
  sorted : ri.roots.Pairwise (· < ·)
  samples : ri.samples = samplesOf ri.roots
  index : ∀ n r, ri.roots[n]? = some r → ri.index r = n

variable {r : A}

theorem find_foldl_emplace_of_not_mem {l : List (A × ℕ)} {m : List (A × ℕ)} (h : r ∉ l.map (·.1)) :
    OrderedMap.find r (l.foldl (fun m p => OrderedMap.emplace p.1 p.2 m) m)
      = OrderedMap.find r m := by
  induction l generalizing m with
  | nil => rfl
  | cons p l ih =>
    rw [map_cons, mem_cons, not_or] at h
    rw [foldl_cons, ih h.2, OrderedMap.find_emplace_of_ne h.1]

theorem find_foldl_emplace {l : List (A × ℕ)} {m : List (A × ℕ)} {p : A × ℕ}
    (hnodup : (l.map (·.1)).Nodup) (hp : p ∈ l) (hm : OrderedMap.find p.1 m = none) :
    OrderedMap.find p.1 (l.foldl (fun m p => OrderedMap.emplace p.1 p.2 m) m) = some p.2 := by
  induction l generalizing m with
  | nil => exact absurd hp not_mem_nil
  | cons q l ih =>
    rw [map_cons, nodup_cons] at hnodup
    rw [foldl_cons]
    rcases mem_cons.mp hp with rfl | hp
    · rw [find_foldl_emplace_of_not_mem hnodup.1, OrderedMap.find_emplace_self hm]
    · refine ih hnodup.2 hp ?_
      have hne : p.1 ≠ q.1 := fun heq => hnodup.1 (heq ▸ mem_map_of_mem hp)
      rw [OrderedMap.find_emplace_of_ne hne, hm]

theorem process_processed (roots : List A) : (process ⟨roots, [], []⟩).Processed where
  sorted := by
    have hsorted := pairwise_mergeSort' (· ≤ ·) roots
    exact unique_sorted hsorted
  samples := nil_append _
  index := by
    intro n r hr
    have hsorted := unique_sorted (pairwise_mergeSort' (· ≤ ·) roots)
    have hmem : (r, n) ∈ (process ⟨roots, [], []⟩).roots.zipIdx :=
      mem_zipIdx_iff_getElem?.mpr hr
    have hnodup : ((process ⟨roots, [], []⟩).roots.zipIdx.map (·.1)).Nodup := by
      rw [zipIdx_map_fst]
      exact hsorted.imp fun hlt => hlt.ne
    have hfind := find_foldl_emplace (m := []) hnodup hmem rfl
    exact congrArg (fun o => Option.getD o 0) hfind

theorem mem_process_roots {roots : List A} : r ∈ (process ⟨roots, [], []⟩).roots ↔ r ∈ roots := by
  show r ∈ unique (roots.mergeSort (· ≤ ·)) ↔ r ∈ roots
  rw [mem_unique, mem_mergeSort]

namespace Processed

variable {ri : RootIndexer A} (h : ri.Processed)

include h

theorem length_samples : ri.samples.length = 2 * ri.size + 1 := by
  rw [h.samples, length_samplesOf, size]

variable {j : ℕ}

/-- The samples are numbered from left to right. -/
theorem sampleFrom_strictMonoOn : StrictMonoOn ri.sampleFrom (Set.Iic (2 * ri.size)) := by
  intro i hi j hj hij
  have hlen := h.length_samples
  have hsorted := samplesOf_sorted h.sorted
  rw [← h.samples] at hsorted
  rw [Set.mem_Iic] at hi hj
  rw [sampleFrom_eq (by omega : i < ri.samples.length),
    sampleFrom_eq (by omega : j < ri.samples.length)]
  exact pairwise_iff_getElem.mp hsorted i j _ _ hij

theorem index_spec (hr : r ∈ ri.roots) :
    ri.index r < ri.size ∧ ri.sampleFrom (2 * ri.index r + 1) = r := by
  obtain ⟨n, hn⟩ := mem_iff_getElem?.mp hr
  have hindex := h.index n r hn
  have hroot := samplesOf_root ri.roots n
  rw [← h.samples, hn] at hroot
  rw [hindex]
  refine ⟨(List.getElem?_eq_some_iff.mp hn).1, ?_⟩
  rw [sampleFrom, getD_eq_getElem?_getD, hroot, Option.getD_some]

theorem index_lt {s : A} (hr : r ∈ ri.roots) (hs : s ∈ ri.roots) (hrs : r < s) :
    ri.index r < ri.index s := by
  obtain ⟨hr, hsampler⟩ := h.index_spec hr
  obtain ⟨hs, hsamples⟩ := h.index_spec hs
  have hiff := h.sampleFrom_strictMonoOn.lt_iff_lt
    (show 2 * ri.index r + 1 ≤ _ by omega) (show 2 * ri.index s + 1 ≤ _ by omega)
  rw [hsampler, hsamples] at hiff
  have hlt := hiff.mp hrs
  omega

/-- Comparing a sample with a root is comparing the numbers. -/
theorem sampleFrom_lt_root (hr : r ∈ ri.roots) (hj : j ≤ 2 * ri.size) :
    ri.sampleFrom j < r ↔ j < 2 * ri.index r + 1 := by
  obtain ⟨hindex, hsmp⟩ := h.index_spec hr
  have hiff := h.sampleFrom_strictMonoOn.lt_iff_lt hj (show 2 * ri.index r + 1 ≤ _ by omega)
  rwa [hsmp] at hiff

theorem root_lt_sampleFrom (hr : r ∈ ri.roots) (hj : j ≤ 2 * ri.size) :
    r < ri.sampleFrom j ↔ 2 * ri.index r + 1 < j := by
  obtain ⟨hindex, hsmp⟩ := h.index_spec hr
  have hiff := h.sampleFrom_strictMonoOn.lt_iff_lt (show 2 * ri.index r + 1 ≤ _ by omega) hj
  rwa [hsmp] at hiff

/-- Every point has a numbered sample in its cell. -/
theorem exists_sampleFrom (t : ℝ) :
    ∃ i ≤ 2 * ri.size, SameCell (ri.roots.map toReal) t (toReal (ri.sampleFrom i)) := by
  obtain ⟨a, ha, hcell⟩ := exists_sample h.sorted t
  rw [← h.samples] at ha
  obtain ⟨i, hi, rfl⟩ := mem_iff_getElem.mp ha
  refine ⟨i, by have := h.length_samples; omega, ?_⟩
  rwa [sampleFrom_eq hi]

/-- Samples whose numbers compare alike with those of the roots are in the same cell. -/
theorem sameCell_sampleFrom {roots : List A} (hsub : roots ⊆ ri.roots)
    (hi : i ≤ 2 * ri.size) (hj : j ≤ 2 * ri.size)
    (hij : ∀ r ∈ roots, (i < 2 * ri.index r + 1 ↔ j < 2 * ri.index r + 1) ∧
      (2 * ri.index r + 1 < i ↔ 2 * ri.index r + 1 < j)) :
    SameCell (roots.map toReal) (toReal (ri.sampleFrom i)) (toReal (ri.sampleFrom j)) := by
  intro c hc
  obtain ⟨r, hr, rfl⟩ := mem_map.mp hc
  obtain ⟨hlt, hgt⟩ := hij r hr
  rw [toReal_strictMono.lt_iff_lt, toReal_strictMono.lt_iff_lt, toReal_strictMono.lt_iff_lt,
    toReal_strictMono.lt_iff_lt, h.sampleFrom_lt_root (hsub hr) hi,
    h.sampleFrom_lt_root (hsub hr) hj, h.root_lt_sampleFrom (hsub hr) hi,
    h.root_lt_sampleFrom (hsub hr) hj]
  exact ⟨hlt, hgt⟩

end Processed

end RootIndexer

end Smtrat.Mcsat
