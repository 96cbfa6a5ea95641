import Mathlib

/-!
# Sparse linear combinations and rows

A sparse linear combination is a list of entries, each an index with its coefficient.  It is
evaluated at a family of vectors of any module, so that one fact about the list serves for the
polynomials an entry stands for, for the values it is assigned and for its real solutions.

A row equates a multiple of one vector with a combination of others.  The two steps of an
elimination are stated for rows: exchanging the sides of a row, and substituting one row in
another after both were scaled.
-/

namespace Combination
open List Function

variable {ι K M : Type*}

section Eval

variable [Semiring K] [AddCommMonoid M] [Module K M]

/-- The combination of the vectors `f` that the entries describe. -/
def eval (f : ι → M) (es : List (ι × K)) : M := (es.map fun e => e.2 • f e.1).sum

@[simp] theorem eval_nil (f : ι → M) : eval f ([] : List (ι × K)) = 0 := rfl

@[simp] theorem eval_cons (f : ι → M) (e : ι × K) (es : List (ι × K)) :
    eval f (e :: es) = e.2 • f e.1 + eval f es := by
  simp only [eval, map_cons, sum_cons]

@[simp] theorem eval_append (f : ι → M) (es es' : List (ι × K)) :
    eval f (es ++ es') = eval f es + eval f es' := by
  simp only [eval, map_append, sum_append]

theorem eval_perm {f : ι → M} {es es' : List (ι × K)} (h : es.Perm es') :
    eval f es = eval f es' := (h.map _).sum_eq

theorem eval_congr {f g : ι → M} {es : List (ι × K)} (h : ∀ e ∈ es, f e.1 = g e.1) :
    eval f es = eval g es := by
  induction es with
  | nil => rfl
  | cons e es ih =>
    rw [eval_cons, eval_cons, h e mem_cons_self, ih fun d hd => h d (mem_cons_of_mem _ hd)]

/-- A linear map may be applied before or after the combination. -/
theorem map_eval {N : Type*} [AddCommMonoid N] [Module K N] (φ : M →ₗ[K] N) (f : ι → M)
    (es : List (ι × K)) : φ (eval f es) = eval (fun i => φ (f i)) es := by
  induction es with
  | nil => exact map_zero φ
  | cons e es ih => rw [eval_cons, eval_cons, map_add, map_smul, ih]

end Eval

/-- A combination grows with its terms. -/
theorem eval_le_eval [Semiring K] [AddCommMonoid M] [PartialOrder M] [IsOrderedAddMonoid M]
    [Module K M] {f g : ι → M} {es : List (ι × K)} (h : ∀ e ∈ es, e.2 • f e.1 ≤ e.2 • g e.1) :
    eval f es ≤ eval g es := by
  induction es with
  | nil => exact le_rfl
  | cons e es ih =>
    rw [eval_cons, eval_cons]
    exact add_le_add (h e mem_cons_self) (ih fun d hd => h d (mem_cons_of_mem _ hd))

/-! ## Operations on the entries -/

/-- All coefficients multiplied by `k`. -/
def scale [Mul K] (k : K) (es : List (ι × K)) : List (ι × K) := es.map fun e => (e.1, k * e.2)

theorem scale_keys [Mul K] (k : K) (es : List (ι × K)) :
    (scale k es).map Prod.fst = es.map Prod.fst := by
  rw [scale, map_map]
  rfl

theorem eval_scale [CommSemiring K] [AddCommMonoid M] [Module K M] (k : K) (f : ι → M)
    (es : List (ι × K)) : eval f (scale k es) = k • eval f es := by
  induction es with
  | nil => exact (smul_zero k).symm
  | cons e es ih =>
    rw [eval_cons, smul_add, ← ih, smul_smul]
    rfl

/-- Put a new entry in front of the first index that is not `before` it. -/
def insertEntry (before : ι → ι → Bool) (e : ι × K) : List (ι × K) → List (ι × K)
  | [] => [e]
  | d :: es => if before d.1 e.1 then d :: insertEntry before e es else e :: d :: es

theorem insertEntry_perm (before : ι → ι → Bool) (e : ι × K) (es : List (ι × K)) :
    (insertEntry before e es).Perm (e :: es) := by
  induction es with
  | nil => rfl
  | cons d es ih =>
    rw [insertEntry]
    split_ifs
    · exact (ih.cons d).trans (List.Perm.swap e d es)
    · rfl

variable {a k : K}

section Keyed

variable [DecidableEq ι]

/-- The entries of other indices than `c`. -/
def others (c : ι) (es : List (ι × K)) : List (ι × K) := es.filter fun e => e.1 ≠ c

/-- The index `c` renamed to `r`. -/
def relabel (c r : ι) (es : List (ι × K)) : List (ι × K) :=
  es.map fun e => if e.1 = c then (r, e.2) else e

/-- The coefficient at `r` replaced by `x`. -/
def setContent (r : ι) (x : K) (es : List (ι × K)) : List (ι × K) :=
  es.map fun e => if e.1 = r then (r, x) else e

/-- The coefficient at `c`, if there is an entry. -/
def find (c : ι) (es : List (ι × K)) : Option K := (es.find? fun e => e.1 = c).map Prod.snd

theorem mem_of_find {c : ι} {es : List (ι × K)} (h : find c es = some a) : (c, a) ∈ es := by
  obtain ⟨e, he, rfl⟩ := Option.map_eq_some_iff.mp h
  have hkey : e.1 = c := by simpa using find?_some he
  rw [← hkey]
  exact mem_of_find?_eq_some he

theorem find_isSome {c : ι} {es : List (ι × K)} : (find c es).isSome ↔ c ∈ es.map Prod.fst := by
  rw [find, Option.isSome_map, find?_isSome, mem_map]
  simp only [decide_eq_true_eq]

theorem find_eq_none {c : ι} {es : List (ι × K)} : find c es = none ↔ c ∉ es.map Prod.fst := by
  rw [← find_isSome, Option.not_isSome_iff_eq_none]

theorem find_of_mem {c : ι} {es : List (ι × K)} (hnd : (es.map Prod.fst).Nodup)
    (h : (c, a) ∈ es) : find c es = some a := by
  induction es with
  | nil => cases h
  | cons e es ih =>
    rw [map_cons, nodup_cons] at hnd
    rcases mem_cons.mp h with rfl | h
    · simp [find]
    · have hne : e.1 ≠ c := fun hec => hnd.1 (hec ▸ mem_map_of_mem h)
      rw [find, find?_cons_of_neg (by simpa using hne)]
      exact ih hnd.2 h

theorem others_eq_self {c : ι} {es : List (ι × K)} (h : c ∉ es.map Prod.fst) :
    others c es = es := by
  apply filter_eq_self.mpr
  intro e he
  rw [decide_eq_true_eq]
  rintro rfl
  exact h (mem_map_of_mem he)

variable {e : ι × K}

theorem mem_others {c : ι} {es : List (ι × K)} : e ∈ others c es ↔ e ∈ es ∧ e.1 ≠ c := by
  rw [others, mem_filter, decide_eq_true_eq]

theorem others_keys_sublist (c : ι) (es : List (ι × K)) :
    ((others c es).map Prod.fst).Sublist (es.map Prod.fst) :=
  List.Sublist.map Prod.fst filter_sublist

theorem relabel_keys (c r : ι) (es : List (ι × K)) :
    (relabel c r es).map Prod.fst = (es.map Prod.fst).map fun i => if i = c then r else i := by
  rw [relabel, map_map, map_map]
  apply map_congr_left
  intro e _
  by_cases h : e.1 = c <;> simp [h]

variable {r : ι}

theorem relabel_eq_self {c : ι} {es : List (ι × K)} (h : c ∉ es.map Prod.fst) :
    relabel c r es = es := by
  rw [relabel, map_congr_left (g := id), map_id]
  intro e he
  apply if_neg
  rintro rfl
  exact h (mem_map_of_mem he)

theorem setContent_keys (r : ι) (x : K) (es : List (ι × K)) :
    (setContent r x es).map Prod.fst = es.map Prod.fst := by
  rw [setContent, map_map]
  apply map_congr_left
  intro e _
  by_cases h : e.1 = r <;> simp [h]

theorem others_setContent (r : ι) (x : K) (es : List (ι × K)) :
    others r (setContent r x es) = others r es := by
  induction es with
  | nil => rfl
  | cons e es ih =>
    rw [others, others, setContent, map_cons] at *
    by_cases h : e.1 = r
    · rw [if_pos h, filter_cons_of_neg (by simp), filter_cons_of_neg (by simpa using h)]
      exact ih
    · rw [if_neg h, filter_cons_of_pos (by simpa using h), filter_cons_of_pos (by simpa using h)]
      exact congrArg _ ih

theorem mem_setContent {x : K} {es : List (ι × K)} (h : r ∈ es.map Prod.fst) :
    (r, x) ∈ setContent r x es := by
  obtain ⟨e, he, rfl⟩ := mem_map.mp h
  exact mem_map.mpr ⟨e, he, if_pos rfl⟩

/-- Renaming an index to one that does not occur. -/
theorem others_relabel {c : ι} {es : List (ι × K)} (h : r ∉ es.map Prod.fst) :
    others r (relabel c r es) = others c es := by
  induction es with
  | nil => rfl
  | cons e es ih =>
    rw [map_cons, mem_cons, not_or] at h
    have hes : others r (relabel c r es) = others c es := ih h.2
    rw [others, others, relabel, map_cons] at *
    by_cases hec : e.1 = c
    · rw [if_pos hec, filter_cons_of_neg (by simp), filter_cons_of_neg (by simpa using hec)]
      exact hes
    · rw [if_neg hec, filter_cons_of_pos (by simpa using Ne.symm h.1),
        filter_cons_of_pos (by simpa using hec)]
      exact congrArg _ hes

theorem find_relabel {c : ι} {es : List (ι × K)} (h : r ∉ es.map Prod.fst) :
    find r (relabel c r es) = find c es := by
  induction es with
  | nil => rfl
  | cons e es ih =>
    rw [map_cons, mem_cons, not_or] at h
    have hes : find r (relabel c r es) = find c es := ih h.2
    rw [find, relabel, map_cons, find] at *
    by_cases hec : e.1 = c
    · rw [if_pos hec, find?_cons_of_pos (by simp), find?_cons_of_pos (by simpa using hec)]
      rfl
    · rw [if_neg hec, find?_cons_of_neg (by simpa using Ne.symm h.1),
        find?_cons_of_neg (by simpa using hec)]
      exact hes

theorem nodup_relabel {c : ι} {es : List (ι × K)} (hnd : (es.map Prod.fst).Nodup)
    (h : r ∉ es.map Prod.fst) :
    ((relabel c r es).map Prod.fst).Nodup := by
  rw [relabel_keys]
  apply hnd.map_on
  intro i hi j hj hij
  have hir : i ≠ r := fun hir => h (hir ▸ hi)
  have hjr : j ≠ r := fun hjr => h (hjr ▸ hj)
  by_cases hic : i = c <;> by_cases hjc : j = c <;> simp_all

theorem others_scale [Mul K] (c : ι) (k : K) (es : List (ι × K)) :
    others c (scale k es) = scale k (others c es) := by
  rw [others, others, scale, scale, filter_map]
  rfl

/-- Add `x` to the coefficient of an existing entry, removing the entry when it becomes zero. -/
def addContent [Add K] [Zero K] [DecidableEq K] (c : ι) (x : K) : List (ι × K) → List (ι × K)
  | [] => []
  | (d, y) :: es =>
    if d = c then if y + x = 0 then es else (d, y + x) :: es
    else (d, y) :: addContent c x es

/-- Add `x` to the coefficient at `c`: an existing entry is updated, and removed when it
becomes zero; otherwise a new one is put at its place. -/
def addToEntry [Add K] [Zero K] [DecidableEq K] (before : ι → ι → Bool) (c : ι) (x : K)
    (es : List (ι × K)) : List (ι × K) :=
  if c ∈ es.map Prod.fst then addContent c x es else insertEntry before (c, x) es

section AddToEntry

variable [DecidableEq K] {before : ι → ι → Bool} {c : ι}

theorem eval_addContent [Ring K] [AddCommGroup M] [Module K M] (f : ι → M) (x : K)
    {es : List (ι × K)} (h : c ∈ es.map Prod.fst) :
    eval f (addContent c x es) = eval f es + x • f c := by
  induction es with
  | nil => cases h
  | cons e es ih =>
    obtain ⟨d, y⟩ := e
    rw [addContent]
    split_ifs with hdc hzero
    · subst hdc
      rw [eval_cons, add_right_comm, ← add_smul, hzero, zero_smul, zero_add]
    · subst hdc
      rw [eval_cons, eval_cons, add_smul, add_right_comm]
    · rw [eval_cons, ih ((mem_cons.mp h).resolve_left (Ne.symm hdc)), eval_cons, add_assoc]

theorem eval_addToEntry [Ring K] [AddCommGroup M] [Module K M] (f : ι → M) (c : ι) (x : K)
    (es : List (ι × K)) : eval f (addToEntry before c x es) = eval f es + x • f c := by
  rw [addToEntry]
  split_ifs with h
  · exact eval_addContent f x h
  · rw [eval_perm (insertEntry_perm before (c, x) es), eval_cons, add_comm]

variable [Add K] [Zero K] {x : K} {es : List (ι × K)}

theorem mem_of_mem_addContent {i : ι} (h : (i, a) ∈ addContent c x es) :
    i = c ∧ a ≠ 0 ∨ (i, a) ∈ es := by
  induction es with
  | nil => cases h
  | cons e es ih =>
    obtain ⟨d, y⟩ := e
    rw [addContent] at h
    split_ifs at h with hdc hzero
    · exact .inr (mem_cons_of_mem _ h)
    · rcases mem_cons.mp h with hia | h
      · obtain ⟨rfl, rfl⟩ := Prod.mk.inj hia
        exact .inl ⟨hdc, hzero⟩
      · exact .inr (mem_cons_of_mem _ h)
    · rcases mem_cons.mp h with hia | h
      · exact .inr (hia ▸ mem_cons_self)
      · exact (ih h).imp id (mem_cons_of_mem _)

/-- What an addition leaves in the list: old entries and an entry at `c`. -/
theorem mem_of_mem_addToEntry {i : ι} (h : (i, a) ∈ addToEntry before c x es) :
    i = c ∧ (a = x ∨ a ≠ 0) ∨ (i, a) ∈ es := by
  rw [addToEntry] at h
  split_ifs at h
  · exact (mem_of_mem_addContent h).imp (And.imp_right .inr) id
  · rcases mem_cons.mp ((insertEntry_perm before (c, x) es).mem_iff.mp h) with hia | h
    · obtain ⟨rfl, rfl⟩ := Prod.mk.inj hia
      exact .inl ⟨rfl, .inl rfl⟩
    · exact .inr h

theorem keys_addContent_sublist : ((addContent c x es).map Prod.fst).Sublist (es.map Prod.fst) := by
  induction es with
  | nil => exact List.Sublist.slnil
  | cons e es ih =>
    obtain ⟨d, y⟩ := e
    rw [addContent]
    split_ifs
    · exact sublist_cons_self _ _
    · exact List.Sublist.refl _
    · exact ih.cons_cons d

theorem nodup_addToEntry (h : (es.map Prod.fst).Nodup) :
    ((addToEntry before c x es).map Prod.fst).Nodup := by
  rw [addToEntry]
  split_ifs with hc
  · exact h.sublist keys_addContent_sublist
  · rw [((insertEntry_perm before (c, x) es).map Prod.fst).nodup_iff, map_cons, nodup_cons]
    exact ⟨hc, h⟩

theorem mem_addContent_of_ne (hne : e.1 ≠ c) (h : e ∈ es) : e ∈ addContent c x es := by
  induction es with
  | nil => cases h
  | cons d es ih =>
    obtain ⟨d, y⟩ := d
    rw [addContent]
    split_ifs with hdc
    · refine (mem_cons.mp h).resolve_left ?_
      rintro rfl
      exact hne hdc
    · refine mem_cons_of_mem _ ((mem_cons.mp h).resolve_left ?_)
      rintro rfl
      exact hne hdc
    · exact (mem_cons.mp h).elim (fun hd => hd ▸ mem_cons_self) fun h => mem_cons_of_mem _ (ih h)

/-- Entries at other indices stay. -/
theorem mem_addToEntry_of_ne (hne : e.1 ≠ c) (h : e ∈ es) : e ∈ addToEntry before c x es := by
  rw [addToEntry]
  split_ifs
  · exact mem_addContent_of_ne hne h
  · exact (insertEntry_perm before (c, x) es).mem_iff.mpr (mem_cons_of_mem _ h)

end AddToEntry

/-- A multiple of the entries of one list added to those of another, one after the other. -/
def addScaled [Mul K] [Add K] [Zero K] [DecidableEq K] (before : ι → ι → Bool) (k : K)
    (added es : List (ι × K)) : List (ι × K) :=
  added.foldl (fun es e => addToEntry before e.1 (k * e.2) es) es

section AddScaled

variable [DecidableEq K] {before : ι → ι → Bool}

theorem eval_addScaled [CommRing K] [AddCommGroup M] [Module K M] (f : ι → M) (k : K)
    (added es : List (ι × K)) :
    eval f (addScaled before k added es) = eval f es + k • eval f added := by
  induction added generalizing es with
  | nil =>
    show eval f es = _
    rw [eval_nil, smul_zero, add_zero]
  | cons e added ih =>
    rw [addScaled, foldl_cons, ← addScaled, ih, eval_addToEntry, eval_cons, smul_add,
      mul_smul, add_assoc]

variable [MulZeroClass K] [Add K]

variable {added : List (ι × K)}

theorem nodup_addScaled {es : List (ι × K)} (h : (es.map Prod.fst).Nodup) :
    ((addScaled before k added es).map Prod.fst).Nodup := by
  induction added generalizing es with
  | nil => exact h
  | cons e added ih => exact ih (nodup_addToEntry h)

/-- Entries at indices that are not added to stay. -/
theorem mem_addScaled_of_not_key {es : List (ι × K)}
    (hkey : e.1 ∉ added.map Prod.fst) (h : e ∈ es) : e ∈ addScaled before k added es := by
  induction added generalizing es with
  | nil => exact h
  | cons d added ih =>
    rw [map_cons, mem_cons, not_or] at hkey
    exact ih hkey.2 (mem_addToEntry_of_ne hkey.1 h)

/-- The entries of a sum: those of one list, and new ones that are not zero. -/
theorem mem_of_mem_addScaled [NoZeroDivisors K] (hk : k ≠ 0) {es : List (ι × K)}
    (hne : ∀ e ∈ added, e.2 ≠ 0) (h : e ∈ addScaled before k added es) :
    e.1 ∈ added.map Prod.fst ∧ e.2 ≠ 0 ∨ e ∈ es := by
  induction added generalizing es with
  | nil => exact .inr h
  | cons d added ih =>
    obtain ⟨i, x⟩ := e
    rcases ih (fun e he => hne e (mem_cons_of_mem _ he)) h with ⟨hkey, hzero⟩ | hmem
    · exact .inl ⟨mem_cons_of_mem _ hkey, hzero⟩
    · rcases mem_of_mem_addToEntry hmem with ⟨rfl, hx⟩ | hmem
      · refine .inl ⟨mem_cons_self, ?_⟩
        rcases hx with rfl | hx
        · exact mul_ne_zero hk (hne d mem_cons_self)
        · exact hx
      · exact .inr hmem

end AddScaled

/-! ## Splitting an entry off -/

section Split

variable [Ring K] [AddCommGroup M] [Module K M] {f : ι → M} {c : ι} {es : List (ι × K)}

theorem eval_of_mem (hnd : (es.map Prod.fst).Nodup) (h : (c, a) ∈ es) :
    eval f es = a • f c + eval f (others c es) := by
  induction es with
  | nil => cases h
  | cons e es ih =>
    rw [map_cons, nodup_cons] at hnd
    rcases mem_cons.mp h with rfl | h
    · rw [others, filter_cons_of_neg (by simp), ← others, others_eq_self hnd.1, eval_cons]
    · have hne : e.1 ≠ c := fun hec => hnd.1 (hec ▸ mem_map_of_mem h)
      rw [others, filter_cons_of_pos (by simpa using hne), ← others, eval_cons, eval_cons,
        ih hnd.2 h, add_left_comm]

theorem eval_relabel (r : ι) :
    eval f (relabel c r es) = eval (fun i => if i = c then f r else f i) es := by
  induction es with
  | nil => rfl
  | cons e es ih =>
    rw [eval_cons, ← ih, relabel, map_cons, eval_cons]
    by_cases h : e.1 = c <;> simp [h, relabel]

/-- The combination after the coefficient of one index was replaced. -/
theorem eval_setContent {x : K} (hnd : (es.map Prod.fst).Nodup) (h : r ∈ es.map Prod.fst) :
    eval f (setContent r x es) = x • f r + eval f (others r es) := by
  rw [eval_of_mem (by rwa [setContent_keys]) (mem_setContent h), others_setContent]

/-- An entry replaced by an entry for another index. -/
theorem eval_relabel_setContent {x : K} (hnd : (es.map Prod.fst).Nodup) (h : c ∈ es.map Prod.fst) :
    eval f (relabel c r (setContent c x es)) = x • f r + eval f (others c es) := by
  rw [eval_relabel, eval_setContent hnd h, if_pos rfl]
  congr 1
  apply eval_congr
  intro e he
  exact if_neg (mem_others.mp he).2

end Split

end Keyed

/-! ## Coefficients of listed indices -/

section Listed

variable [CommRing K] [AddCommGroup M] [Module K M] {f : ι → M} {g : ι → K} {is : List ι}

theorem eval_map_smul (k : K) :
    eval f (is.map fun i => (i, k * g i)) = k • eval f (is.map fun i => (i, g i)) := by
  rw [← eval_scale, scale, map_map]
  rfl

/-- A change of one coefficient in a list without repetitions. -/
theorem eval_map_update [DecidableEq ι] {c : ι} (hnd : is.Nodup) (hc : c ∈ is) (x : K) :
    eval f (is.map fun i => (i, update g c (g c + x) i)) =
      eval f (is.map fun i => (i, g i)) + x • f c := by
  induction is with
  | nil => cases hc
  | cons i is ih =>
    rw [nodup_cons] at hnd
    rw [map_cons, map_cons, eval_cons, eval_cons]
    rcases mem_cons.mp hc with rfl | hc
    · have htail : (is.map fun i => (i, update g c (g c + x) i)) = is.map fun i => (i, g i) := by
        apply map_congr_left
        intro i hi
        have hic : i ≠ c := fun hic => hnd.1 (hic ▸ hi)
        rw [update_of_ne hic]
      rw [htail, update_self, add_smul, add_right_comm]
    · have hic : i ≠ c := fun hic => hnd.1 (hic ▸ hc)
      rw [ih hnd.2 hc, update_of_ne hic, add_assoc]

/-- The entries of zero coefficients may be left out. -/
theorem eval_filterMap_ne_zero [DecidableEq K] :
    eval f (is.filterMap fun i => if g i = 0 then none else some (i, g i)) =
      eval f (is.map fun i => (i, g i)) := by
  induction is with
  | nil => rfl
  | cons i is ih =>
    rw [map_cons, eval_cons, ← ih, filterMap_cons]
    by_cases hi : g i = 0
    · rw [if_pos hi, hi, zero_smul, zero_add]
    · rw [if_neg hi, eval_cons]

end Listed

/-! ## Rows -/

/-- A multiple of one vector equated with a combination of others. -/
structure Row (ι K : Type*) where
  /-- The multiple of the vector the row belongs to. -/
  factor : K
  /-- The combination, from left to right. -/
  entries : List (ι × K)
deriving DecidableEq, Repr

namespace Row

section

variable [Semiring K] [AddCommMonoid M] [Module K M]

/-- The row of `v` holds at the vectors `f`. -/
def Holds (f : ι → M) (v : ι) (row : Row ι K) : Prop := row.factor • f v = eval f row.entries

theorem Holds.map {N : Type*} [AddCommMonoid N] [Module K N] {f : ι → M} {v : ι} {row : Row ι K}
    (h : row.Holds f v) (φ : M →ₗ[K] N) : row.Holds (fun i => φ (f i)) v := by
  rw [Holds, ← map_smul, h, map_eval]

end

variable [Field K] [AddCommGroup M] [Module K M] {f : ι → M}

variable {m : K}

/-- Solving a row for the vector of one of its entries. -/
theorem exchange_iff [DecidableEq ι] {c : ι} {y : M} {es : List (ι × K)}
    (hnd : (es.map Prod.fst).Nodup)
    (h : (c, a) ∈ es) :
    m • y = eval f es ↔ a • f c = m • y + eval f (scale (-1) (others c es)) := by
  rw [eval_of_mem hnd h, eval_scale, neg_one_smul, ← sub_eq_add_neg, eq_sub_iff_add_eq, eq_comm]

/-- Substituting the row `p • x = k • y + s` for `x` in a row, both scaled to the same multiple
of `x`. -/
theorem substitute_iff {b p : K} {x y z s t : M} {ca cb : K} (hp : p • x = k • y + s)
    (hcb : cb ≠ 0) (h : ca * p = cb * b) :
    m • z = b • x + t ↔ (m * cb) • z = (ca * k) • y + (cb • t + ca • s) := by
  have hx : cb • (b • x + t) = (ca * k) • y + (cb • t + ca • s) := by
    rw [smul_add, smul_smul, ← h, mul_smul, hp, smul_add, smul_smul]
    abel
  rw [← hx, mul_comm, mul_smul]
  exact (smul_right_injective M hcb).eq_iff.symm

/-- Dividing both sides of a row by a number. -/
theorem divide_iff {g : K} {z : M} {es : List (ι × K)} (hg : g ≠ 0) :
    m • z = eval f es ↔ (m / g) • z = eval f (scale g⁻¹ es) := by
  rw [eval_scale, div_eq_inv_mul, mul_smul]
  exact (smul_right_injective M (inv_ne_zero hg)).eq_iff.symm

end Row

end Combination
