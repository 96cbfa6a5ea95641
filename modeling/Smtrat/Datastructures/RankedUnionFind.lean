import Smtrat.Math.ParentForest

/-!
# Union-find with ranks

Every entry of the array has a parent and a rank, which may share a word.  The rank of a root is at
most the logarithm of the size of its class, so that the paths that are compressed fit into a buffer
whose length is the number of bits of an index.
-/

namespace Smtrat.RankedUnionFind

open ParentForest List Function Option

universe u

/-! ## Ranks and classes -/

/-- `uf_rank_and_class<false>`. -/
structure SeparateRankAndClass where
  M_class : BitVec 64
  M_rank : BitVec 64
deriving DecidableEq

/-- `uf_rank_and_class<true>`: the most significant byte is the rank. -/
structure CompressedRankAndClass where
  M_rank_and_class : BitVec 64
deriving DecidableEq

def UfRankAndClass : Bool → Type
  | false => SeparateRankAndClass
  | true => CompressedRankAndClass

def classMask : BitVec 64 := (1#64 <<< 56) - 1

namespace UfRankAndClass

/-- The constructor from a class index. -/
def ofClass : (compression : Bool) → ℕ → UfRankAndClass compression
  | false, classIndex => SeparateRankAndClass.mk (BitVec.ofNat 64 classIndex) 0
  | true, classIndex => CompressedRankAndClass.mk (BitVec.ofNat 64 classIndex)

def rank : {compression : Bool} → UfRankAndClass compression → ℕ
  | false, e => (SeparateRankAndClass.M_rank e).toNat
  | true, e => (CompressedRankAndClass.M_rank_and_class e >>> 56).toNat

/-- `class_`. -/
def classIndex : {compression : Bool} → UfRankAndClass compression → ℕ
  | false, e => (SeparateRankAndClass.M_class e).toNat
  | true, e => (CompressedRankAndClass.M_rank_and_class e &&& classMask).toNat

def setClass : {compression : Bool} → UfRankAndClass compression → ℕ → UfRankAndClass compression
  | false, e, newclass => { (e : SeparateRankAndClass) with M_class := BitVec.ofNat 64 newclass }
  | true, e, newclass => CompressedRankAndClass.mk
      ((CompressedRankAndClass.M_rank_and_class e &&& ~~~classMask) ||| BitVec.ofNat 64 newclass)

def incrementRank : {compression : Bool} → UfRankAndClass compression → UfRankAndClass compression
  | false, e => { (e : SeparateRankAndClass) with M_rank := SeparateRankAndClass.M_rank e + 1 }
  | true, e => CompressedRankAndClass.mk (CompressedRankAndClass.M_rank_and_class e + (1#64 <<< 56))

/-- The number of indices a class can have. -/
def capacity (compression : Bool) : ℕ := if compression then 2 ^ 56 else 2 ^ 64

theorem getLsbD_classMask (i : ℕ) : classMask.getLsbD i = decide (i < 56) := by
  by_cases hi : i < 64
  · revert i
    decide
  · have h56 : ¬ i < 56 := by omega
    simp [BitVec.getLsbD_of_ge _ _ (not_lt.mp hi), h56]

theorem toNat_and_classMask (w : BitVec 64) : (w &&& classMask).toNat = w.toNat % 2 ^ 56 := by
  have hmask : classMask.toNat = 2 ^ 56 - 1 := by decide
  rw [BitVec.toNat_and, hmask, Nat.and_two_pow_sub_one_eq_mod]

theorem toNat_ushiftRight_rank (w : BitVec 64) : (w >>> 56).toNat = w.toNat / 2 ^ 56 := by
  rw [BitVec.toNat_ushiftRight, Nat.shiftRight_eq_div_pow]

variable {compression : Bool} {c : ℕ}

theorem capacity_le (compression : Bool) : capacity compression ≤ 2 ^ 64 := by
  cases compression <;> norm_num [capacity]

theorem classIndex_ofClass (h : c < capacity compression) : (ofClass compression c).classIndex = c := by
  cases compression with
  | false => exact Nat.mod_eq_of_lt h
  | true =>
    change (BitVec.ofNat 64 c &&& classMask).toNat = c
    rw [toNat_and_classMask, BitVec.toNat_ofNat, Nat.mod_eq_of_lt (h.trans_le (capacity_le true))]
    exact Nat.mod_eq_of_lt h

theorem rank_ofClass (h : c < capacity compression) : (ofClass compression c).rank = 0 := by
  cases compression with
  | false => rfl
  | true =>
    change (BitVec.ofNat 64 c >>> 56).toNat = 0
    rw [toNat_ushiftRight_rank, BitVec.toNat_ofNat,
      Nat.mod_eq_of_lt (h.trans_le (capacity_le true))]
    exact Nat.div_eq_of_lt h

theorem classIndex_setClass (e : UfRankAndClass compression) (h : c < capacity compression) :
    (e.setClass c).classIndex = c := by
  cases compression with
  | false => exact Nat.mod_eq_of_lt h
  | true =>
    have hword : ((CompressedRankAndClass.M_rank_and_class e &&& ~~~classMask) ||| BitVec.ofNat 64 c) &&&
        classMask = BitVec.ofNat 64 c := by
      refine BitVec.eq_of_getLsbD_eq fun i hi => ?_
      simp only [BitVec.getLsbD_and, BitVec.getLsbD_or, BitVec.getLsbD_not, getLsbD_classMask,
        BitVec.getLsbD_ofNat, hi]
      by_cases h56 : i < 56
      · simp [h56]
      · have hbit : c.testBit i = false :=
          Nat.testBit_lt_two_pow (h.trans_le (Nat.pow_le_pow_right two_pos (not_lt.mp h56)))
        simp [h56, hbit]
    calc (setClass e c).classIndex = (BitVec.ofNat 64 c).toNat := congrArg BitVec.toNat hword
      _ = c := by rw [BitVec.toNat_ofNat, Nat.mod_eq_of_lt (h.trans_le (capacity_le true))]

theorem rank_setClass (e : UfRankAndClass compression) (h : c < capacity compression) :
    (e.setClass c).rank = e.rank := by
  cases compression with
  | false => rfl
  | true =>
    have hword : ((CompressedRankAndClass.M_rank_and_class e &&& ~~~classMask) ||| BitVec.ofNat 64 c) >>>
        56 = CompressedRankAndClass.M_rank_and_class e >>> 56 := by
      refine BitVec.eq_of_getLsbD_eq fun i _ => ?_
      have hbit : c.testBit (56 + i) = false :=
        Nat.testBit_lt_two_pow (h.trans_le (Nat.pow_le_pow_right two_pos (Nat.le_add_right _ _)))
      simp only [BitVec.getLsbD_ushiftRight, BitVec.getLsbD_and, BitVec.getLsbD_or, BitVec.getLsbD_not,
        getLsbD_classMask, BitVec.getLsbD_ofNat, hbit]
      by_cases hlt : 56 + i < 64
      · simp [hlt]
      · simp [hlt, BitVec.getLsbD_of_ge _ _ (not_lt.mp hlt)]
    exact congrArg BitVec.toNat hword

theorem classIndex_incrementRank (e : UfRankAndClass compression) :
    e.incrementRank.classIndex = e.classIndex := by
  cases compression with
  | false => rfl
  | true =>
    have hone : (1#64 <<< 56).toNat = 2 ^ 56 := by decide
    change (CompressedRankAndClass.M_rank_and_class e + (1#64 <<< 56) &&& classMask).toNat =
      (CompressedRankAndClass.M_rank_and_class e &&& classMask).toNat
    rw [toNat_and_classMask, toNat_and_classMask, BitVec.toNat_add, hone]
    omega

/-- A rank that is less than the greatest byte is incremented without an overflow. -/
theorem rank_incrementRank (e : UfRankAndClass compression) (h : e.rank < 255) :
    e.incrementRank.rank = e.rank + 1 := by
  cases compression with
  | false =>
    change (SeparateRankAndClass.M_rank e).toNat < 255 at h
    change (SeparateRankAndClass.M_rank e + 1).toNat = (SeparateRankAndClass.M_rank e).toNat + 1
    rw [BitVec.toNat_add]
    exact Nat.mod_eq_of_lt (by simp; omega)
  | true =>
    have hone : (1#64 <<< 56).toNat = 2 ^ 56 := by decide
    have hlt := (CompressedRankAndClass.M_rank_and_class e).isLt
    change (CompressedRankAndClass.M_rank_and_class e >>> 56).toNat < 255 at h
    change ((CompressedRankAndClass.M_rank_and_class e + (1#64 <<< 56)) >>> 56).toNat =
      (CompressedRankAndClass.M_rank_and_class e >>> 56).toNat + 1
    rw [toNat_ushiftRight_rank] at h ⊢
    rw [toNat_ushiftRight_rank, BitVec.toNat_add, hone]
    omega

end UfRankAndClass

/-! ## The array -/

/-- `uf_data_wrapper`, which has no value of interest where `T` is `void`. -/
structure UfDataWrapper (T : Type u) (compression : Bool) where
  value : T
  rankAndClass : UfRankAndClass compression

structure UnionFind (T : Type u) (compression : Bool) where
  M_array : List (UfDataWrapper T compression)

def MaxTracebackLength : ℕ := 64

namespace UnionFind

variable {T : Type u} {compression : Bool}

def size (d : UnionFind T compression) : ℕ := d.M_array.length

/-- `initialize` with a sequence of values. -/
def initialized (values : List T) : UnionFind T compression :=
  ⟨values.zipIdx.map fun v => ⟨v.1, .ofClass compression v.2⟩⟩

def add (d : UnionFind T compression) (value : T) : ℕ × UnionFind T compression :=
  let result := d.M_array.length
  (result, ⟨d.M_array ++ [⟨value, .ofClass compression result⟩]⟩)

/-- The rank of the entry at an index. -/
def rank (d : UnionFind T compression) (i : ℕ) : ℕ := (d.M_array[i]?.map (·.rankAndClass.rank)).getD 0

def setClass (d : UnionFind T compression) (i newclass : ℕ) : UnionFind T compression :=
  ⟨d.M_array.modify i fun e => { e with rankAndClass := e.rankAndClass.setClass newclass }⟩

def incrementRank (d : UnionFind T compression) (i : ℕ) : UnionFind T compression :=
  ⟨d.M_array.modify i fun e => { e with rankAndClass := e.rankAndClass.incrementRank }⟩

/-- The loop of `P_do_find`, for the number of places that are left in the traceback array.  There is no
result if an index is out of range or the array is too short. -/
def traceback (d : UnionFind T compression) : ℕ → ℕ → Option (ℕ × List ℕ)
  | room, index =>
    match d.M_array[index]? with
    | none => none
    | some entry =>
      let next := entry.rankAndClass.classIndex
      if index = next then some (index, [])
      else
        match room with
        | 0 => none
        | room + 1 => (traceback d room next).map fun r => (r.1, index :: r.2)

/-- The compression of the path. -/
def compress (d : UnionFind T compression) (index : ℕ) (path : List ℕ) : UnionFind T compression :=
  path.foldl (fun d i => d.setClass i index) d

/-- `find`, which calls `P_do_find`. -/
def find (d : UnionFind T compression) (index : ℕ) : Option (ℕ × UnionFind T compression) :=
  (d.traceback MaxTracebackLength index).map fun r => (r.1, d.compress r.1 r.2)

/-- `P_union_by_rank` for two representatives. -/
def unionByRank (d : UnionFind T compression) (index1 index2 : ℕ) : ℕ × UnionFind T compression :=
  if d.rank index1 < d.rank index2 then (index2, d.setClass index1 index2)
  else if d.rank index1 > d.rank index2 then (index1, d.setClass index2 index1)
  else (index1, (d.incrementRank index1).setClass index2 index1)

/-- `union_`, which says whether it changed anything. -/
def union (d : UnionFind T compression) (index1 index2 : ℕ) : Option (Bool × UnionFind T compression) :=
  match d.find index1 with
  | none => none
  | some (index1, d) =>
    match d.find index2 with
    | none => none
    | some (index2, d) =>
      if index1 ≠ index2 then some (true, (d.unionByRank index1 index2).2) else some (false, d)

/-- The structures that calls with valid indices build, with the unions that were performed. -/
inductive Reachable : UnionFind T compression → List (ℕ × ℕ) → Prop
  | initialized (values : List T) : Reachable (initialized values) []
  | add {d : UnionFind T compression} {pairs : List (ℕ × ℕ)} (h : Reachable d pairs) (value : T) :
      Reachable (d.add value).2 pairs
  | find {d d' : UnionFind T compression} {pairs : List (ℕ × ℕ)} {i r : ℕ} (h : Reachable d pairs)
      (hi : i < d.size) (hfind : d.find i = some (r, d')) : Reachable d' pairs
  | union {d d' : UnionFind T compression} {pairs : List (ℕ × ℕ)} {i j : ℕ} {b : Bool}
      (h : Reachable d pairs) (hi : i < d.size) (hj : j < d.size)
      (hunion : d.union i j = some (b, d')) : Reachable d' ((i, j) :: pairs)

/-! ## Updates -/

def classes (d : UnionFind T compression) : List ℕ := d.M_array.map (·.rankAndClass.classIndex)

@[simp] theorem length_classes (d : UnionFind T compression) : d.classes.length = d.size :=
  length_map _

@[simp] theorem size_setClass (d : UnionFind T compression) (i c : ℕ) : (d.setClass i c).size = d.size :=
  length_modify _ _ _

@[simp] theorem size_incrementRank (d : UnionFind T compression) (i : ℕ) :
    (d.incrementRank i).size = d.size :=
  length_modify _ _ _

theorem getElem?_classes (d : UnionFind T compression) (i : ℕ) :
    d.classes[i]? = d.M_array[i]?.map (·.rankAndClass.classIndex) := by
  rw [classes, getElem?_map]

@[simp] theorem size_compress (d : UnionFind T compression) (r : ℕ) (path : List ℕ) :
    (d.compress r path).size = d.size := by
  rw [compress]
  induction path generalizing d with
  | nil => rfl
  | cons k path ih => rw [foldl_cons, ih, size_setClass]

theorem size_find {d d' : UnionFind T compression} {i r : ℕ} (h : d.find i = some (r, d')) :
    d'.size = d.size := by
  obtain ⟨path, -, heq⟩ := map_eq_some_iff.mp h
  obtain ⟨-, rfl⟩ := Prod.mk.inj heq
  exact size_compress _ _ _

@[simp] theorem size_unionByRank (d : UnionFind T compression) (i j : ℕ) :
    (d.unionByRank i j).2.size = d.size := by
  rw [unionByRank]
  split_ifs <;> simp

theorem size_union {d d' : UnionFind T compression} {i j : ℕ} {b : Bool}
    (h : d.union i j = some (b, d')) : d'.size = d.size := by
  rw [union] at h
  split at h
  case h_1 => cases h
  case h_2 r d₁ hr =>
    split at h
    case h_1 => cases h
    case h_2 s d₂ hs =>
      have hsize : d₂.size = d.size := (size_find hs).trans (size_find hr)
      split_ifs at h with hne
      · cases h
        rw [size_unionByRank, hsize]
      · cases h
        exact hsize

theorem rank_of_size_le {d : UnionFind T compression} {i : ℕ} (h : d.size ≤ i) : d.rank i = 0 := by
  rw [rank, getElem?_eq_none h]
  rfl

variable {d : UnionFind T compression} {c : ℕ}

theorem classes_setClass (hc : c < UfRankAndClass.capacity compression) (i : ℕ) :
    (d.setClass i c).classes = d.classes.set i c := by
  refine ext_getElem? fun j => ?_
  rw [getElem?_classes, setClass, getElem?_modify, getElem?_set, getElem?_classes, length_classes]
  by_cases hij : i = j
  · obtain rfl := hij
    cases hget : d.M_array[i]? with
    | none =>
      have hi : ¬ i < d.size := not_lt.mpr (List.getElem?_eq_none_iff.mp hget)
      simp [hi]
    | some e =>
      have hi : i < d.size := (List.getElem?_eq_some_iff.mp hget).1
      simp [hi, UfRankAndClass.classIndex_setClass _ hc]
  · simp [hij]

theorem rank_setClass (hc : c < UfRankAndClass.capacity compression) (i : ℕ) :
    (d.setClass i c).rank = d.rank := by
  funext j
  rw [rank, rank, setClass, getElem?_modify]
  by_cases hij : i = j
  · obtain rfl := hij
    cases d.M_array[i]? with
    | none => rfl
    | some e => simp [UfRankAndClass.rank_setClass _ hc]
  · simp [hij]

theorem classes_incrementRank (i : ℕ) : (d.incrementRank i).classes = d.classes := by
  refine ext_getElem? fun j => ?_
  rw [getElem?_classes, getElem?_classes, incrementRank, getElem?_modify]
  by_cases hij : i = j
  · obtain rfl := hij
    cases d.M_array[i]? with
    | none => rfl
    | some e => simp [UfRankAndClass.classIndex_incrementRank]
  · simp [hij]

theorem rank_incrementRank {i : ℕ} (hi : i < d.size) (hrank : d.rank i < 255) :
    (d.incrementRank i).rank = update d.rank i (d.rank i + 1) := by
  funext j
  by_cases hij : i = j
  · obtain rfl := hij
    have hget : d.M_array[i]? = some d.M_array[i] := getElem?_eq_getElem hi
    rw [rank, hget] at hrank
    rw [update_self, rank, rank, incrementRank, getElem?_modify, hget]
    simp [UfRankAndClass.rank_incrementRank _ hrank]
  · rw [update_of_ne (Ne.symm hij), rank, rank, incrementRank, getElem?_modify]
    simp [hij]

/-! ## Operations -/

/-- The entries are a forest with ranks, whose roots are given. -/
def Represents (d : UnionFind T compression) (root : ℕ → ℕ) : Prop :=
  IsRankedForest d.classes d.rank root

variable {root : ℕ → ℕ}

theorem Represents.add (h : d.Represents root) (hsize : d.size < UfRankAndClass.capacity compression)
    (value : T) : (d.add value).2.Represents root := by
  have hcls : (d.add value).2.classes = d.classes ++ [d.classes.length] := by
    rw [length_classes, classes, UnionFind.add, map_append, map_singleton]
    exact congrArg (d.classes ++ [·]) (UfRankAndClass.classIndex_ofClass hsize)
  have hrank : (d.add value).2.rank = d.rank := by
    funext i
    rcases lt_trichotomy i d.size with hi | rfl | hi
    · rw [rank, rank, UnionFind.add, getElem?_append_left hi]
    · rw [rank_of_size_le le_rfl, rank, UnionFind.add, size, getElem?_concat_length]
      exact UfRankAndClass.rank_ofClass hsize
    · rw [rank_of_size_le hi.le, rank_of_size_le]
      rw [UnionFind.add, size, length_append]
      exact hi
  rw [Represents, hcls, hrank]
  exact IsRankedForest.extend h

theorem initialized_concat (values : List T) (value : T) :
    (initialized (values ++ [value]) : UnionFind T compression) = ((initialized values).add value).2 := by
  rw [initialized, UnionFind.add, initialized, zipIdx_append, map_append]
  simp

theorem represents_initialized (values : List T)
    (hsize : values.length ≤ UfRankAndClass.capacity compression) :
    (initialized values : UnionFind T compression).Represents id := by
  induction values using List.reverseRecOn with
  | nil => exact isRankedForest_nil
  | append_singleton values value ih =>
    rw [length_append, length_singleton] at hsize
    rw [initialized_concat]
    refine (ih (Nat.le_of_succ_le hsize)).add ?_ value
    rw [size, initialized, length_map, length_zipIdx]
    exact hsize

/-- The loop ends at the root if there is room for the difference of the ranks. -/
theorem Represents.traceback_eq (h : d.Represents root) (room : ℕ) {i : ℕ} (hi : i < d.size)
    (hroom : d.rank (root i) ≤ room + d.rank i) :
    ∃ path, d.traceback room i = some (root i, path) ∧ ∀ k ∈ path, k < d.size ∧ root k = root i := by
  have hget : d.M_array[i]? = some d.M_array[i] := getElem?_eq_getElem hi
  have hpar : d.classes[i]? = some d.M_array[i].rankAndClass.classIndex := by
    rw [getElem?_classes, hget]
    rfl
  rw [traceback.eq_def]
  simp only [hget]
  generalize d.M_array[i].rankAndClass.classIndex = next at hpar
  by_cases heq : i = next
  · obtain rfl := heq
    rw [if_pos rfl, h.root_self hpar]
    exact ⟨[], rfl, forall_mem_nil _⟩
  · have hnext : next < d.size := by
      rw [← length_classes]
      exact h.closed hpar
    have hroot : root next = root i := h.root_parent hpar
    have hlt : d.rank i < d.rank next := h.rank_lt i next hpar (Ne.symm heq)
    have hle : d.rank next ≤ d.rank (root next) := by
      refine h.rank_le_root h.rank_lt ?_
      rwa [length_classes]
    rw [if_neg heq]
    cases room with
    | zero =>
      rw [hroot] at hle
      omega
    | succ room =>
      obtain ⟨path, hpath, hmem⟩ := h.traceback_eq room hnext (by rw [hroot]; omega)
      simp only [hpath, map_some]
      refine ⟨i :: path, by rw [hroot], forall_mem_cons.mpr ⟨⟨hi, rfl⟩, fun k hk => ?_⟩⟩
      rw [← hroot]
      exact hmem k hk
termination_by room

theorem Represents.compress (h : d.Represents root) (hsize : d.size ≤ UfRankAndClass.capacity compression)
    {r : ℕ} {path : List ℕ} (hpath : ∀ k ∈ path, k < d.size ∧ root k = r) :
    (d.compress r path).Represents root := by
  rw [UnionFind.compress]
  induction path generalizing d with
  | nil => exact h
  | cons k path ih =>
    obtain ⟨⟨hk, rfl⟩, hpath⟩ := forall_mem_cons.mp hpath
    have hklength : k < d.classes.length := by rwa [length_classes]
    have hlt : root k < d.size := by
      rw [← length_classes]
      exact h.root_lt hklength
    have hstep : (d.setClass k (root k)).Represents root := by
      rw [Represents, classes_setClass (hlt.trans_le hsize), rank_setClass (hlt.trans_le hsize)]
      exact IsRankedForest.compress h hklength
    exact ih hstep (by rwa [size_setClass]) (by simpa only [size_setClass] using hpath)

theorem Represents.rank_root_le (h : d.Represents root) (hsize : d.size ≤ UfRankAndClass.capacity compression)
    {i : ℕ} (hi : i < d.size) : d.rank (root i) ≤ MaxTracebackLength := by
  have hlog := h.rank_root_le_log (i := i) (by rwa [length_classes])
  have hclass := classSize_le root d.classes.length (root i)
  rw [length_classes] at hlog hclass
  calc d.rank (root i) ≤ Nat.log 2 (classSize root d.size (root i)) := hlog
    _ ≤ Nat.log 2 (2 ^ 64) :=
        Nat.log_mono_right ((hclass.trans hsize).trans (UfRankAndClass.capacity_le compression))
    _ = MaxTracebackLength := by rw [Nat.log_pow Nat.one_lt_two]; rfl

/-- A call returns the root, and the structure that is left has the same roots. -/
theorem Represents.find (h : d.Represents root) (hsize : d.size ≤ UfRankAndClass.capacity compression)
    {i : ℕ} (hi : i < d.size) :
    ∃ d', d.find i = some (root i, d') ∧ d'.Represents root := by
  have hrank := h.rank_root_le hsize hi
  obtain ⟨path, htraceback, hpath⟩ := h.traceback_eq MaxTracebackLength hi (by omega)
  refine ⟨d.compress (root i) path, ?_, h.compress hsize hpath⟩
  rw [UnionFind.find, htraceback]
  rfl

/-- The union of two representatives links one of them to the other. -/
theorem Represents.unionByRank (h : d.Represents root)
    (hsize : d.size ≤ UfRankAndClass.capacity compression) {r s : ℕ} (hr : r < d.size) (hs : s < d.size)
    (hrootr : root r = r) (hroots : root s = s) (hne : r ≠ s) :
    ∃ root', (root' = link root r s ∨ root' = link root s r) ∧
      (d.unionByRank r s).2.Represents root' := by
  have hpar : ∀ {k}, k < d.size → root k = k → d.classes[k]? = some k := by
    intro k hk hroot
    have hpar := h.parents_root (i := k) (by rwa [length_classes])
    rwa [hroot] at hpar
  have hupd : ∀ k, update d.rank k (d.rank k) = d.rank := fun k => update_eq_self k _
  rw [UnionFind.unionByRank]
  by_cases hlt : d.rank r < d.rank s
  · refine ⟨link root s r, .inr rfl, ?_⟩
    rw [if_pos hlt]
    rw [Represents, classes_setClass (hs.trans_le hsize), rank_setClass (hs.trans_le hsize), ← hupd s]
    exact IsRankedForest.link h (hpar hs hroots) (hpar hr hrootr) hne.symm hlt (.inl rfl)
  · refine ⟨link root r s, .inl rfl, ?_⟩
    rw [if_neg hlt]
    by_cases hgt : d.rank r > d.rank s
    · rw [if_pos hgt]
      rw [Represents, classes_setClass (hr.trans_le hsize), rank_setClass (hr.trans_le hsize), ← hupd r]
      exact IsRankedForest.link h (hpar hr hrootr) (hpar hs hroots) hne hgt (.inl rfl)
    · have heq : d.rank r = d.rank s := by omega
      have hbd := h.rank_root_le hsize hr
      have hbyte : d.rank r < 255 := by
        rw [hrootr] at hbd
        exact hbd.trans_lt (by decide)
      rw [if_neg hgt]
      rw [Represents, classes_setClass (hr.trans_le hsize), rank_setClass (hr.trans_le hsize),
        classes_incrementRank, rank_incrementRank hr hbyte]
      exact IsRankedForest.link h (hpar hr hrootr) (hpar hs hroots) hne (by omega) (.inr ⟨heq, rfl⟩)

theorem Represents.union (h : d.Represents root) (hsize : d.size ≤ UfRankAndClass.capacity compression)
    {i j : ℕ} (hi : i < d.size) (hj : j < d.size) :
    ∃ b d' root', d.union i j = some (b, d') ∧ (b = true ↔ root i ≠ root j) ∧ d'.Represents root' ∧
      (root i = root j ∧ root' = root ∨ root' = link root (root i) (root j) ∨
        root' = link root (root j) (root i)) := by
  obtain ⟨d₁, hfindi, h₁⟩ := h.find hsize hi
  have hsize₁ : d₁.size = d.size := size_find hfindi
  obtain ⟨d₂, hfindj, h₂⟩ := h₁.find (hsize₁.trans_le hsize) (hsize₁ ▸ hj)
  have hsize₂ : d₂.size = d₁.size := size_find hfindj
  rw [UnionFind.union, hfindi]
  simp only [hfindj]
  by_cases heq : root i = root j
  · refine ⟨false, d₂, root, ?_, by simp [heq], h₂, .inl ⟨heq, rfl⟩⟩
    rw [if_neg (not_not.mpr heq)]
  · have hlt : ∀ {k}, k < d.size → root k < d₂.size := by
      intro k hk
      rw [hsize₂, hsize₁, ← length_classes]
      exact h.root_lt (by rwa [length_classes])
    obtain ⟨root', hroot', h₃⟩ := h₂.unionByRank ((hsize₂.trans hsize₁).trans_le hsize) (hlt hi)
      (hlt hj) (h.root_root i) (h.root_root j) heq
    refine ⟨true, _, root', ?_, by simp [heq], h₃, .inr hroot'⟩
    rw [if_pos heq]

/-! ## Runs -/

/-- In every structure that is built the roots describe the unions. -/
theorem Reachable.spec {pairs : List (ℕ × ℕ)} (h : Reachable d pairs)
    (hsize : d.size ≤ UfRankAndClass.capacity compression) :
    ∃ root, d.Represents root ∧ Classes root pairs := by
  induction h with
  | initialized values =>
    refine ⟨id, represents_initialized values ?_, classes_nil⟩
    rwa [size, UnionFind.initialized, length_map, length_zipIdx] at hsize
  | @add d pairs h value ih =>
    have hlt : d.size < UfRankAndClass.capacity compression := by
      rw [UnionFind.add, size, length_append] at hsize
      exact hsize
    obtain ⟨root, hrep, hcls⟩ := ih hlt.le
    exact ⟨root, hrep.add hlt value, hcls⟩
  | @find d d' pairs i r h hi hfind ih =>
    rw [size_find hfind] at hsize
    obtain ⟨root, hrep, hcls⟩ := ih hsize
    obtain ⟨d'', hfind', hrep'⟩ := hrep.find hsize hi
    cases hfind.symm.trans hfind'
    exact ⟨root, hrep', hcls⟩
  | @union d d' pairs i j b h hi hj hunion ih =>
    rw [size_union hunion] at hsize
    obtain ⟨root, hrep, hcls⟩ := ih hsize
    obtain ⟨b', d'', root', hunion', -, hrep', hroot'⟩ := hrep.union hsize hi hj
    cases hunion.symm.trans hunion'
    refine ⟨root', hrep', ?_⟩
    rcases hroot' with ⟨heq, rfl⟩ | rfl | rfl
    · exact hcls.cons_same heq
    · exact hcls.cons_link (.inl ⟨rfl, rfl⟩)
    · exact hcls.cons_link (.inr ⟨rfl, rfl⟩)

/-- All calls with valid indices return, and the roots that are found describe the unions.  The depth of an
index is at most the rank of its root, which is at most the logarithm of the size of the class. -/
theorem reachable_correct {pairs : List (ℕ × ℕ)} (h : Reachable d pairs)
    (hsize : d.size ≤ UfRankAndClass.capacity compression) :
    ∃ root : ℕ → ℕ,
      (∀ i < d.size, ∃ d', d.find i = some (root i, d') ∧
        ∀ k < d.size, ∃ d'', d'.find k = some (root k, d'')) ∧
      (∀ i < d.size, ∀ j < d.size, ∃ b d', d.union i j = some (b, d') ∧ (b = true ↔ root i ≠ root j)) ∧
      (∀ i < d.size, ∀ j < d.size, root i = root j ↔ Connected pairs i j) ∧
      ∀ i < d.size, (∃ n, Depth d.classes i n ∧ n ≤ d.rank (root i)) ∧
        d.rank (root i) ≤ Nat.log 2 (classSize root d.size (root i)) := by
  obtain ⟨root, hrep, hcls⟩ := h.spec hsize
  refine ⟨root, fun i hi => ?_, fun i hi j hj => ?_, fun i _ j _ => hcls i j, fun i hi => ?_⟩
  · obtain ⟨d', hfind, hrep'⟩ := hrep.find hsize hi
    refine ⟨d', hfind, fun k hk => ?_⟩
    have hsizes : d'.size = d.size := size_find hfind
    obtain ⟨d'', hfind', -⟩ := hrep'.find (hsizes.trans_le hsize) (hsizes ▸ hk)
    exact ⟨d'', hfind'⟩
  · obtain ⟨b, d', root', hunion, hb, -⟩ := hrep.union hsize hi hj
    exact ⟨b, d', hunion, hb⟩
  · rw [← length_classes] at hi ⊢
    obtain ⟨n, hdepth, hle⟩ := hrep.exists_depth hi
    exact ⟨⟨n, hdepth, by omega⟩, hrep.rank_root_le_log hi⟩

section Example

/-- Three elements with a union of the first two, whose ranks share words with the classes. -/
def joined : UnionFind Unit true := ((initialized [(), (), ()]).unionByRank 0 1).2

theorem reachable_correct_joined :
    ∃ root : ℕ → ℕ, (∀ i < 3, ∃ d', joined.find i = some (root i, d')) ∧ root 0 = root 1 := by
  have hreach : Reachable joined [(0, 1)] :=
    .union (b := true) (.initialized [(), (), ()]) (i := 0) (j := 1) (by decide) (by decide) rfl
  obtain ⟨root, hfind, -, hcls, -⟩ := reachable_correct hreach (by decide)
  have hsize : joined.size = 3 := rfl
  rw [hsize] at hfind hcls
  refine ⟨root, fun i hi => ?_, (hcls 0 (by decide) 1 (by decide)).mpr (Connected.of_mem (by decide))⟩
  obtain ⟨d', hd', -⟩ := hfind i hi
  exact ⟨d', hd'⟩

end Example

end UnionFind

end Smtrat.RankedUnionFind
