import Smtrat.Math.ParentForest

/-!
# The backtrackable union-find structure

A `PersistentUnionFind` has parents and ranks in persistent vectors, so that older versions stay
available: `Backtrackable` keeps a version for every merge, named by the merged values, and falls
back to the one before a merge.  An access outside of a vector is undefined, which is `none` here.
-/

namespace Smtrat.UnionFind

open ParentForest List Option

structure PersistentUnionFind where
  parents : List ℕ
  ranks : List ℕ
deriving DecidableEq, Repr

namespace PersistentUnionFind

def empty : PersistentUnionFind := ⟨[], []⟩

/-- One entry for each index from the number of entries to `size` inclusively. -/
def resize (uf : PersistentUnionFind) (size : ℕ) : PersistentUnionFind :=
  (List.range' uf.parents.length (size + 1 - uf.parents.length)).foldl
    (fun uf i => ⟨uf.parents ++ [i], uf.ranks ++ [0]⟩) uf

/-- The braces in `tmp{size + 1}` and `Ranks{size + 1, 0}` list the elements of the vectors. -/
def initSize (uf : PersistentUnionFind) (size : ℕ) : PersistentUnionFind :=
  if uf.parents = [] then resize ⟨[0], [size + 1, 0]⟩ size else uf.resize size

/-- The parents with a compressed path, and the representative.  The recursion is as deep as the
path to the root, which is at most the number of entries. -/
def findImpl : ℕ → List ℕ → ℕ → Option (List ℕ × ℕ)
  | 0, _, _ => none
  | n + 1, parents, i =>
    match parents[i]? with
    | none => none
    | some fi =>
      if fi = i then some (parents, i)
      else (findImpl n parents fi).map fun p => (p.1.set i p.2, p.2)

def find (uf : PersistentUnionFind) (val : ℕ) : Option (PersistentUnionFind × ℕ) :=
  (findImpl uf.parents.length uf.parents val).map fun p => ({ uf with parents := p.1 }, p.2)

/-- The structure with the paths that were compressed, and the merged one. -/
def merge (uf : PersistentUnionFind) (a b : ℕ) :
    Option (PersistentUnionFind × PersistentUnionFind) := do
  let (uf, ra) ← uf.find a
  let (uf, rb) ← uf.find b
  if ra ≠ rb then
    let ranka ← uf.ranks[ra]?
    let rankb ← uf.ranks[rb]?
    if ranka > rankb then
      some (uf, ⟨uf.parents.set rb ra, uf.ranks⟩)
    else if ranka < rankb then
      some (uf, ⟨uf.parents.set ra rb, uf.ranks⟩)
    else
      some (uf, ⟨uf.parents.set rb ra, uf.ranks.set ra (ranka + 1)⟩)
  else
    some (uf, uf)

/-- The parents form a forest whose classes are those of the pairs. -/
structure Represents (uf : PersistentUnionFind) (root : ℕ → ℕ) (pairs : List (ℕ × ℕ)) : Prop where
  forest : IsForest uf.parents root
  classes : Classes root pairs
  ranked : uf.parents.length ≤ uf.ranks.length

variable {uf : PersistentUnionFind} {root : ℕ → ℕ} {pairs : List (ℕ × ℕ)}

/-! ## Growth -/

theorem Represents.resize (h : uf.Represents root pairs) (size : ℕ) :
    (uf.resize size).Represents root pairs ∧
      (uf.resize size).parents.length = max uf.parents.length (size + 1) := by
  have key : ∀ (n : ℕ) (uf : PersistentUnionFind), uf.Represents root pairs →
      ((List.range' uf.parents.length n).foldl
        (fun uf i => (⟨uf.parents ++ [i], uf.ranks ++ [0]⟩ : PersistentUnionFind)) uf).Represents
          root pairs ∧
      ((List.range' uf.parents.length n).foldl
        (fun uf i => (⟨uf.parents ++ [i], uf.ranks ++ [0]⟩ : PersistentUnionFind))
          uf).parents.length = uf.parents.length + n := by
    intro n
    induction n with
    | zero => exact fun uf h => ⟨h, rfl⟩
    | succ n ih =>
      intro uf h
      have hranked := h.ranked
      have hext : (⟨uf.parents ++ [uf.parents.length], uf.ranks ++ [0]⟩ :
          PersistentUnionFind).Represents root pairs := by
        refine ⟨h.forest.extend, h.classes, ?_⟩
        simp only [length_append, length_singleton]
        omega
      obtain ⟨hrep, hlen⟩ := ih _ hext
      simp only [length_append, length_singleton] at hrep hlen
      rw [range'_succ, foldl_cons]
      refine ⟨hrep, ?_⟩
      rw [hlen]
      omega
  obtain ⟨hrep, hlen⟩ := key (size + 1 - uf.parents.length) uf h
  refine ⟨hrep, ?_⟩
  rw [PersistentUnionFind.resize, hlen]
  omega

theorem Represents.initSize (h : uf.Represents root pairs) (size : ℕ) :
    (uf.initSize size).Represents root pairs ∧
      (uf.initSize size).parents.length = max uf.parents.length (size + 1) := by
  rw [PersistentUnionFind.initSize]
  split_ifs with hempty
  · have hfor := h.forest
    rw [hempty] at hfor
    have hstart : (⟨[0], [size + 1, 0]⟩ : PersistentUnionFind).Represents root pairs :=
      ⟨hfor.extend, h.classes, by simp⟩
    obtain ⟨hrep, hlen⟩ := hstart.resize size
    refine ⟨hrep, ?_⟩
    rw [hlen, hempty, length_singleton, length_nil]
    omega
  · exact h.resize size

/-! ## Representatives -/

theorem findImpl_spec {parents : List ℕ} (h : IsForest parents root) {rank : ℕ → ℕ}
    (hrank : ∀ i j : ℕ, parents[i]? = some j → j ≠ i → rank i < rank j) {n i : ℕ}
    (hi : i < parents.length) (hn : above rank parents.length i < n) :
    ∃ parents', findImpl n parents i = some (parents', root i) ∧ IsForest parents' root ∧
      parents'.length = parents.length := by
  induction n generalizing i with
  | zero => exact absurd hn (Nat.not_lt_zero _)
  | succ n ih =>
    have hget := getElem?_eq_getElem hi
    rw [findImpl, hget]
    simp only
    split_ifs with hroot
    · rw [hroot] at hget
      exact ⟨parents, by rw [h.root_self hget], h, rfl⟩
    · have hclo := h.closed hget
      have hlt := above_lt_above hclo (hrank i _ hget hroot)
      obtain ⟨parents', hfind, hfor, hlen⟩ := ih hclo (by omega)
      rw [h.root_parent hget] at hfind
      refine ⟨parents'.set i (root i), ?_, hfor.compress (hlen ▸ hi), ?_⟩
      · rw [hfind, map_some]
      · rw [length_set, hlen]

/-- An index with an entry is found, and the structure keeps its classes. -/
theorem Represents.find (h : uf.Represents root pairs) {i : ℕ} (hi : i < uf.parents.length) :
    ∃ uf' : PersistentUnionFind, uf.find i = some (uf', root i) ∧ uf'.Represents root pairs ∧
      uf'.parents.length = uf.parents.length := by
  obtain ⟨rank, hrank⟩ := h.forest.acyclic
  obtain ⟨parents', hfind, hfor, hlen⟩ := findImpl_spec h.forest hrank hi (above_lt hi)
  refine ⟨⟨parents', uf.ranks⟩, ?_, ⟨hfor, h.classes, ?_⟩, hlen⟩
  · rw [PersistentUnionFind.find, hfind, map_some]
  · exact hlen ▸ h.ranked

/-- Two indices with entries are merged. -/
theorem Represents.merge (h : uf.Represents root pairs) {a b : ℕ} (ha : a < uf.parents.length)
    (hb : b < uf.parents.length) :
    ∃ uf' merged root', uf.merge a b = some (uf', merged) ∧ uf'.Represents root pairs ∧
      merged.Represents root' ((a, b) :: pairs) ∧ uf'.parents.length = uf.parents.length ∧
      merged.parents.length = uf.parents.length := by
  obtain ⟨uf₁, hfinda, hrep₁, hlen₁⟩ := h.find ha
  obtain ⟨uf₂, hfindb, hrep₂, hlen₂⟩ := hrep₁.find (hlen₁ ▸ hb)
  have hlen := hlen₂.trans hlen₁
  have hfor := hrep₂.forest
  have hra := hfor.parents_root (hlen ▸ ha)
  have hrb := hfor.parents_root (hlen ▸ hb)
  have hlink : ∀ r s, uf₂.parents[r]? = some r → uf₂.parents[s]? = some s → r ≠ s →
      (root a = r ∧ root b = s ∨ root a = s ∧ root b = r) → ∀ ranks : List ℕ,
      ranks.length = uf₂.ranks.length →
      (⟨uf₂.parents.set s r, ranks⟩ : PersistentUnionFind).Represents (link root r s)
        ((a, b) :: pairs) := by
    intro r s hr hs hne hab ranks hranks
    refine ⟨hfor.link hr hs hne, h.classes.cons_link hab, ?_⟩
    rw [length_set, hranks]
    exact hrep₂.ranked
  rw [PersistentUnionFind.merge, hfinda]
  simp only [bind_eq_bind, bind_some]
  rw [hfindb]
  simp only [bind_some]
  by_cases hab : root a = root b
  · rw [if_neg (not_not.mpr hab)]
    exact ⟨uf₂, uf₂, root, rfl, hrep₂, ⟨hfor, h.classes.cons_same hab, hrep₂.ranked⟩, hlen, hlen⟩
  · have hltra := (hfor.closed hra).trans_le hrep₂.ranked
    have hltrb := (hfor.closed hrb).trans_le hrep₂.ranked
    rw [if_pos hab, getElem?_eq_getElem hltra, getElem?_eq_getElem hltrb]
    simp only [bind_some]
    split_ifs
    · exact ⟨uf₂, _, _, rfl, hrep₂, hlink _ _ hra hrb hab (.inl ⟨rfl, rfl⟩) _ rfl, hlen,
        by rw [length_set, hlen]⟩
    · exact ⟨uf₂, _, _, rfl, hrep₂, hlink _ _ hrb hra (Ne.symm hab) (.inr ⟨rfl, rfl⟩) _ rfl,
        hlen, by rw [length_set, hlen]⟩
    · exact ⟨uf₂, _, _, rfl, hrep₂,
        hlink _ _ hra hrb hab (.inl ⟨rfl, rfl⟩) _ (length_set), hlen,
        by rw [length_set, hlen]⟩

end PersistentUnionFind

/-! ## Versions -/

/-- The values whose merge made a version; the origin, which the code names by the greatest
values, has none. -/
abbrev Timestamp := Option (ℕ × ℕ)

/-- The versions, the current one first. -/
structure Backtrackable where
  history : List (Timestamp × PersistentUnionFind)
deriving DecidableEq, Repr

namespace Backtrackable

def initial : Backtrackable := ⟨[(none, .empty)]⟩

/-- The number of entries of the current version. -/
def size (c : Backtrackable) : ℕ :=
  match c.history with
  | [] => 0
  | (_, uf) :: _ => uf.parents.length

def initSize (c : Backtrackable) (size : ℕ) : Backtrackable :=
  match c.history with
  | [] => c
  | (ts, uf) :: older => ⟨(ts, uf.initSize size) :: older⟩

def find (c : Backtrackable) (val : ℕ) : Option (Backtrackable × ℕ) :=
  match c.history with
  | [] => none
  | (ts, uf) :: older => (uf.find val).map fun p => (⟨(ts, p.1) :: older⟩, p.2)

def merge (c : Backtrackable) (a b : ℕ) : Option Backtrackable :=
  match c.history with
  | [] => none
  | (ts, uf) :: older =>
    (uf.merge a b).map fun p => ⟨(some (a, b), p.2) :: (ts, p.1) :: older⟩

/-- The versions before the latest one of a merge. -/
def versionsBefore (c : Backtrackable) (a b : ℕ) : Backtrackable :=
  ⟨(c.history.dropWhile fun ver => ver.1 ≠ some (a, b)).tail⟩

def backtrack (c : Backtrackable) (a b : ℕ) : Option Backtrackable :=
  if c.history.any fun ver => ver.1 = some (a, b) then some (c.versionsBefore a b) else none

/-- The versions have the classes of the pairs that were merged, the latest one first. -/
inductive Versions : List (Timestamp × PersistentUnionFind) → List (ℕ × ℕ) → Prop
  | origin {uf : PersistentUnionFind} {root : ℕ → ℕ} :
      uf.Represents root [] → Versions [(none, uf)] []
  | merged {uf : PersistentUnionFind} {root : ℕ → ℕ} {a b : ℕ} {pairs : List (ℕ × ℕ)}
      {older : List (Timestamp × PersistentUnionFind)} :
      uf.Represents root ((a, b) :: pairs) → Versions older pairs → Versions ((some (a, b), uf) :: older) ((a, b) :: pairs)

variable {c : Backtrackable} {pairs : List (ℕ × ℕ)}

theorem size_eq {ts : Timestamp} {uf : PersistentUnionFind}
    {older : List (Timestamp × PersistentUnionFind)} (h : c.history = (ts, uf) :: older) :
    c.size = uf.parents.length := by
  rw [size, h]

/-- The versions are those of the pairs, and the current one has these roots. -/
def Represents (c : Backtrackable) (root : ℕ → ℕ) (pairs : List (ℕ × ℕ)) : Prop :=
  Versions c.history pairs ∧ ∃ ts uf older, c.history = (ts, uf) :: older ∧ uf.Represents root pairs

theorem Versions.represents (h : Versions c.history pairs) : ∃ root, c.Represents root pairs := by
  have h' := h
  generalize hhistory : c.history = history at h
  cases h with
  | origin hrep => exact ⟨_, h', _, _, _, hhistory, hrep⟩
  | merged hrep holder => exact ⟨_, h', _, _, _, hhistory, hrep⟩

variable {root : ℕ → ℕ}

theorem Represents.classes (h : c.Represents root pairs) : Classes root pairs := by
  obtain ⟨-, ts, uf, older, -, hrep⟩ := h
  exact hrep.classes

/-- The current version may be exchanged for one with the same classes. -/
theorem Versions.exchange {ts : Timestamp} {uf uf' : PersistentUnionFind}
    {older : List (Timestamp × PersistentUnionFind)} (h : Versions ((ts, uf) :: older) pairs)
    (h' : uf'.Represents root pairs) : Versions ((ts, uf') :: older) pairs := by
  cases h with
  | origin _ => exact .origin h'
  | merged _ holder => exact .merged h' holder

theorem Versions.initSize (h : Versions c.history pairs) (size : ℕ) :
    Versions (c.initSize size).history pairs ∧ (c.initSize size).size = max c.size (size + 1) := by
  obtain ⟨root, -, ts, uf, older, hhistory, hrep⟩ := h.represents
  obtain ⟨hrep', hlen⟩ := hrep.initSize size
  rw [Backtrackable.initSize, size_eq hhistory, hhistory]
  rw [hhistory] at h
  exact ⟨h.exchange hrep', hlen⟩

theorem Represents.find (h : c.Represents root pairs) {i : ℕ} (hi : i < c.size) :
    ∃ c' : Backtrackable, c.find i = some (c', root i) ∧ c'.Represents root pairs ∧
      c'.size = c.size := by
  obtain ⟨hvers, ts, uf, older, hhistory, hrep⟩ := h
  rw [hhistory] at hvers
  rw [size_eq hhistory] at hi ⊢
  obtain ⟨uf', hfind, hrep', hlen⟩ := hrep.find hi
  refine ⟨⟨(ts, uf') :: older⟩, ?_, ⟨hvers.exchange hrep', _, _, _, rfl, hrep'⟩, hlen⟩
  rw [Backtrackable.find, hhistory]
  simp only [hfind, map_some]

theorem Versions.merge (h : Versions c.history pairs) {a b : ℕ} (ha : a < c.size)
    (hb : b < c.size) : ∃ c' : Backtrackable, c.merge a b = some c' ∧
      Versions c'.history ((a, b) :: pairs) ∧ c'.size = c.size := by
  obtain ⟨root, -, ts, uf, older, hhistory, hrep⟩ := h.represents
  rw [hhistory] at h
  rw [size_eq hhistory] at ha hb ⊢
  obtain ⟨uf', merged, root', hmerge, hrep', hmerged, -, hlen⟩ := hrep.merge ha hb
  refine ⟨⟨(some (a, b), merged) :: (ts, uf') :: older⟩, ?_, .merged hmerged (h.exchange hrep'),
    hlen⟩
  rw [Backtrackable.merge, hhistory]
  simp only [hmerge, map_some]

/-- A merge that is the latest one of its values is taken back with all later ones. -/
theorem Versions.backtrack {newer older : List (ℕ × ℕ)} {a b : ℕ}
    (h : Versions c.history (newer ++ (a, b) :: older)) (hnew : (a, b) ∉ newer) :
    c.backtrack a b = some (c.versionsBefore a b) ∧
      Versions (c.versionsBefore a b).history older := by
  obtain ⟨history⟩ := c
  rw [Backtrackable.backtrack, versionsBefore]
  simp only at h ⊢
  induction newer generalizing history with
  | nil =>
    cases h with
    | merged hrep holder => exact ⟨by simp, by simpa using holder⟩
  | cons p newer ih =>
    obtain ⟨x, y⟩ := p
    cases h with
    | merged hrep holder =>
      obtain ⟨hp, hnew⟩ := ne_and_not_mem_of_not_mem_cons hnew
      obtain ⟨hback, hvers⟩ := ih hnew _ holder
      have hne : some (x, y) ≠ some (a, b) := fun heq => hp (some.inj heq).symm
      simp only [ne_eq] at hback hvers
      simp only [any_cons, dropWhile_cons, ne_eq, hne, not_false_eq_true,
        decide_true, decide_false, Bool.false_or, if_true]
      exact ⟨hback, hvers⟩

end Backtrackable

end Smtrat.UnionFind
