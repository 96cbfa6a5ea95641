import Mathlib

/-!
# Forests of parent pointers

A list of parent pointers is a forest if a rank increases along every pointer that leaves its
index.  Compressing a path keeps the roots, and linking one root to another joins the two classes
of the equivalence that the roots describe.
-/

universe u

namespace ParentForest

open Relation List Function Option

/-- The entries lead, without cycles, to the roots that `root` names; an index without an entry
is its own root. -/
structure IsForest (parents : List ℕ) (root : ℕ → ℕ) : Prop where
  closed : ∀ {i j : ℕ}, parents[i]? = some j → j < parents.length
  root_parent : ∀ {i j : ℕ}, parents[i]? = some j → root j = root i
  root_self : ∀ {i : ℕ}, parents[i]? = some i → root i = i
  root_outside : ∀ {i : ℕ}, parents.length ≤ i → root i = i
  acyclic : ∃ rank : ℕ → ℕ, ∀ i j : ℕ, parents[i]? = some j → j ≠ i → rank i < rank j

variable {i r s : ℕ}

section Forest

variable {parents : List ℕ} {root : ℕ → ℕ}

/-- How many indices have a greater rank. -/
def above (rank : ℕ → ℕ) (n i : ℕ) : ℕ := ((Finset.range n).filter fun k => rank i < rank k).card

variable {rank : ℕ → ℕ}

theorem above_lt_above {n j : ℕ} (hj : j < n) (h : rank i < rank j) :
    above rank n j < above rank n i := by
  apply Finset.card_lt_card
  refine ⟨fun k hk => ?_, fun hsub => ?_⟩
  · obtain ⟨hk, hlt⟩ := Finset.mem_filter.mp hk
    exact Finset.mem_filter.mpr ⟨hk, h.trans hlt⟩
  · have hmem := hsub (Finset.mem_filter.mpr ⟨Finset.mem_range.mpr hj, h⟩)
    exact absurd (Finset.mem_filter.mp hmem).2 (lt_irrefl _)

theorem above_lt {n : ℕ} (hi : i < n) : above rank n i < n := by
  have hsub : (Finset.range n).filter (fun k => rank i < rank k) ⊂ Finset.range n := by
    refine ⟨Finset.filter_subset _ _, fun hsub => ?_⟩
    have hmem := hsub (Finset.mem_range.mpr hi)
    exact absurd (Finset.mem_filter.mp hmem).2 (lt_irrefl _)
  have hcard := Finset.card_lt_card hsub
  rwa [Finset.card_range] at hcard

/-- What holds at the roots and at an index whose parent has it holds at every index. -/
theorem IsForest.parent_induction (h : IsForest parents root) (P : ℕ → Prop)
    (hroot : ∀ i, parents[i]? = some i → P i)
    (hstep : ∀ i j, parents[i]? = some j → j ≠ i → P j → P i) (hi : i < parents.length) :
    P i := by
  obtain ⟨rank, hrank⟩ := h.acyclic
  induction hn : above rank parents.length i using Nat.strong_induction_on generalizing i with
  | _ n ih =>
    have hget := getElem?_eq_getElem hi
    by_cases hj : parents[i] = i
    · rw [hj] at hget
      exact hroot i hget
    · have hclo := h.closed hget
      have hlt := above_lt_above hclo (hrank i _ hget hj)
      exact hstep i _ hget hj (ih _ (hn ▸ hlt) hclo rfl)

theorem IsForest.parents_root (h : IsForest parents root) (hi : i < parents.length) :
    parents[root i]? = some (root i) := by
  refine h.parent_induction (fun i => parents[root i]? = some (root i)) (fun i hi => ?_)
    (fun i j hj _ ih => ?_) hi
  · rw [h.root_self hi, hi]
  · rw [← h.root_parent hj, ih]

theorem IsForest.root_lt (h : IsForest parents root) (hi : i < parents.length) :
    root i < parents.length :=
  h.closed (h.parents_root hi)

theorem IsForest.root_root (h : IsForest parents root) (i : ℕ) : root (root i) = root i := by
  rcases lt_or_ge i parents.length with hi | hi
  · exact h.root_self (h.parents_root hi)
  · rw [h.root_outside hi, h.root_outside hi]

theorem IsForest.rank_le_root (h : IsForest parents root)
    (hrank : ∀ i j, parents[i]? = some j → j ≠ i → rank i < rank j)
    (hi : i < parents.length) : rank i ≤ rank (root i) := by
  refine h.parent_induction (fun i => rank i ≤ rank (root i)) (fun i hi => ?_)
    (fun i j hj hne ih => ?_) hi
  · rw [h.root_self hi]
  · rw [← h.root_parent hj]
    exact (hrank i j hj hne).le.trans ih

/-- No entries: every index is its own root. -/
theorem isForest_nil : IsForest [] id where
  closed h := by cases h
  root_parent h := by cases h
  root_self _ := rfl
  root_outside _ := rfl
  acyclic := ⟨id, fun i j h => by cases h⟩

/-- A new index that points to itself. -/
theorem IsForest.extend (h : IsForest parents root) :
    IsForest (parents ++ [parents.length]) root := by
  have hent : ∀ {i j}, (parents ++ [parents.length])[i]? = some j →
      parents[i]? = some j ∨ i = parents.length ∧ j = parents.length := by
    intro i j hj
    rcases lt_or_ge i parents.length with hi | hi
    · rw [getElem?_append_left hi] at hj
      exact .inl hj
    · rw [getElem?_append_right hi, getElem?_singleton] at hj
      split_ifs at hj with hzero
      · exact .inr ⟨by omega, (some.inj hj).symm⟩
  constructor
  case closed =>
    intro i j hj
    rw [length_append, length_singleton]
    rcases hent hj with hj | ⟨-, rfl⟩
    · exact (h.closed hj).trans (Nat.lt_succ_self _)
    · exact Nat.lt_succ_self _
  case root_parent =>
    intro i j hj
    rcases hent hj with hj | ⟨rfl, rfl⟩
    · exact h.root_parent hj
    · rfl
  case root_self =>
    intro i hi
    rcases hent hi with hi | ⟨rfl, -⟩
    · exact h.root_self hi
    · exact h.root_outside le_rfl
  case root_outside =>
    intro i hi
    rw [length_append, length_singleton] at hi
    exact h.root_outside (by omega)
  case acyclic =>
    obtain ⟨rank, hrank⟩ := h.acyclic
    refine ⟨rank, fun i j hj hne => ?_⟩
    rcases hent hj with hj | ⟨rfl, rfl⟩
    · exact hrank i j hj hne
    · exact absurd rfl hne

theorem getElem?_set_eq_some {k j l : ℕ} (hj : (parents.set i k)[j]? = some l) :
    j = i ∧ l = k ∨ j ≠ i ∧ parents[j]? = some l := by
  by_cases hji : j = i
  · rw [hji, getElem?_set_self'] at hj
    obtain ⟨_, -, hl⟩ := map_eq_some_iff.mp hj
    exact .inl ⟨hji, hl.symm⟩
  · rw [getElem?_set_ne (Ne.symm hji)] at hj
    exact .inr ⟨hji, hj⟩

/-- A rank still increases along the pointers when an index is pointed to its root. -/
theorem IsForest.rank_lt_compress (h : IsForest parents root)
    (hrank : ∀ i j, parents[i]? = some j → j ≠ i → rank i < rank j) (hi : i < parents.length) :
    ∀ j l, (parents.set i (root i))[j]? = some l → l ≠ j → rank j < rank l := by
  intro j l hj hne
  rcases getElem?_set_eq_some hj with ⟨rfl, rfl⟩ | ⟨-, hj⟩
  · have hget := getElem?_eq_getElem hi
    have hpar : parents[j] ≠ j := by
      intro heq
      rw [heq] at hget
      exact hne (h.root_self hget)
    calc rank j < rank parents[j] := hrank j _ hget hpar
      _ ≤ rank (root parents[j]) := h.rank_le_root hrank (h.closed hget)
      _ = rank (root j) := by rw [h.root_parent hget]
  · exact hrank j l hj hne

/-- An index may be pointed to its root. -/
theorem IsForest.compress (h : IsForest parents root) (hi : i < parents.length) :
    IsForest (parents.set i (root i)) root := by
  constructor
  case closed =>
    intro j l hj
    rw [length_set]
    rcases getElem?_set_eq_some hj with ⟨-, rfl⟩ | ⟨-, hj⟩
    · exact h.root_lt hi
    · exact h.closed hj
  case root_parent =>
    intro j l hj
    rcases getElem?_set_eq_some hj with ⟨rfl, rfl⟩ | ⟨-, hj⟩
    · exact h.root_root j
    · exact h.root_parent hj
  case root_self =>
    intro j hj
    rcases getElem?_set_eq_some hj with ⟨rfl, hroot⟩ | ⟨-, hj⟩
    · exact hroot.symm
    · exact h.root_self hj
  case root_outside =>
    intro j hj
    rw [length_set] at hj
    exact h.root_outside hj
  case acyclic =>
    obtain ⟨rank, hrank⟩ := h.acyclic
    exact ⟨rank, h.rank_lt_compress hrank hi⟩

/-- The roots after the root `s` has been pointed to the root `r`. -/
def link (root : ℕ → ℕ) (r s : ℕ) (k : ℕ) : ℕ := if root k = s then r else root k

/-- A root may be pointed to another one. -/
theorem IsForest.link (h : IsForest parents root) (hr : parents[r]? = some r)
    (hs : parents[s]? = some s) (hne : r ≠ s) :
    IsForest (parents.set s r) (link root r s) := by
  have hrootr := h.root_self hr
  have hroots := h.root_self hs
  constructor
  case closed =>
    intro j l hj
    rw [length_set]
    rcases getElem?_set_eq_some hj with ⟨-, rfl⟩ | ⟨-, hj⟩
    · exact h.closed hr
    · exact h.closed hj
  case root_parent =>
    intro j l hj
    rcases getElem?_set_eq_some hj with ⟨rfl, rfl⟩ | ⟨-, hj⟩
    · rw [ParentForest.link, ParentForest.link, hrootr, hroots, if_neg hne, if_pos rfl]
    · rw [ParentForest.link, ParentForest.link, h.root_parent hj]
  case root_self =>
    intro j hj
    rcases getElem?_set_eq_some hj with ⟨rfl, heq⟩ | ⟨hjs, hj⟩
    · exact absurd heq.symm hne
    · rw [ParentForest.link, h.root_self hj, if_neg hjs]
  case root_outside =>
    intro j hj
    rw [length_set] at hj
    rw [ParentForest.link, h.root_outside hj, if_neg]
    rintro rfl
    exact absurd (h.closed hs) (not_lt.mpr hj)
  case acyclic =>
    obtain ⟨rank, hrank⟩ := h.acyclic
    -- the class of `r` is lifted above everything in the class of `s`
    refine ⟨fun k => if root k = r then rank k + rank s + 1 else rank k, fun j l hj hjl => ?_⟩
    simp only
    rcases getElem?_set_eq_some hj with ⟨rfl, rfl⟩ | ⟨-, hj⟩
    · rw [hrootr, hroots, if_pos rfl, if_neg hne.symm]
      omega
    · have := hrank j l hj hjl
      rw [h.root_parent hj]
      split_ifs
      · omega
      · exact this

end Forest

/-! ## Ranks -/

section Ranks

/-- The number of indices with a root. -/
def classSize (root : ℕ → ℕ) (n r : ℕ) : ℕ := ((Finset.range n).filter fun k => root k = r).card

/-- The rank of a root is at most the logarithm of the size of its class. -/
structure IsRankedForest (parents : List ℕ) (rank root : ℕ → ℕ) : Prop extends IsForest parents root where
  rank_lt : ∀ i j : ℕ, parents[i]? = some j → j ≠ i → rank i < rank j
  rank_outside : ∀ {i : ℕ}, parents.length ≤ i → rank i = 0
  two_pow_rank : ∀ {r : ℕ}, parents[r]? = some r → 2 ^ rank r ≤ classSize root parents.length r

/-- An index is a number of pointers away from its root. -/
inductive Depth (parents : List ℕ) : ℕ → ℕ → Prop
  | root {i : ℕ} : parents[i]? = some i → Depth parents i 0
  | parent {i j n : ℕ} : parents[i]? = some j → j ≠ i → Depth parents j n → Depth parents i (n + 1)

variable {parents : List ℕ} {rank root : ℕ → ℕ}

theorem isRankedForest_nil : IsRankedForest [] (fun _ => 0) id where
  toIsForest := isForest_nil
  rank_lt i j h := by cases h
  rank_outside _ := rfl
  two_pow_rank h := by cases h

theorem IsRankedForest.extend (h : IsRankedForest parents rank root) :
    IsRankedForest (parents ++ [parents.length]) rank root where
  toIsForest := h.toIsForest.extend
  rank_lt i j hj hne := by
    rcases lt_or_ge i parents.length with hi | hi
    · rw [getElem?_append_left hi] at hj
      exact h.rank_lt i j hj hne
    · rw [getElem?_append_right hi, getElem?_singleton] at hj
      split_ifs at hj with hzero
      exact absurd (by rw [← some.inj hj]; omega) hne
  rank_outside hi := by
    rw [length_append, length_singleton] at hi
    exact h.rank_outside (by omega)
  two_pow_rank {r} hr := by
    have hmono : classSize root parents.length r ≤ classSize root (parents ++ [parents.length]).length r := by
      refine Finset.card_le_card (Finset.filter_subset_filter _ (Finset.range_mono ?_))
      rw [length_append]
      exact Nat.le_add_right _ _
    rcases lt_or_ge r parents.length with hlt | hge
    · rw [getElem?_append_left hlt] at hr
      exact (h.two_pow_rank hr).trans hmono
    · have hlen := (List.getElem?_eq_some_iff.mp hr).1
      rw [length_append, length_singleton] at hlen
      rw [h.rank_outside hge, Nat.pow_zero]
      refine Finset.card_pos.mpr ⟨r, Finset.mem_filter.mpr ⟨Finset.mem_range.mpr ?_, h.root_outside hge⟩⟩
      rwa [length_append, length_singleton]

theorem IsRankedForest.compress (h : IsRankedForest parents rank root) (hi : i < parents.length) :
    IsRankedForest (parents.set i (root i)) rank root where
  toIsForest := h.toIsForest.compress hi
  rank_lt := h.toIsForest.rank_lt_compress h.rank_lt hi
  rank_outside hj := by
    rw [length_set] at hj
    exact h.rank_outside hj
  two_pow_rank {r} hr := by
    rw [length_set]
    rcases getElem?_set_eq_some hr with ⟨rfl, hroot⟩ | ⟨-, hr⟩
    · have hr := h.parents_root hi
      rw [← hroot] at hr
      exact h.two_pow_rank hr
    · exact h.two_pow_rank hr

/-- The size of the joined class. -/
theorem classSize_link (hne : r ≠ s) (n : ℕ) :
    classSize (link root r s) n r = classSize root n r + classSize root n s := by
  rw [classSize, classSize, classSize, ← Finset.card_union_of_disjoint]
  · congr 1
    ext k
    rw [Finset.mem_filter, Finset.mem_union, Finset.mem_filter, Finset.mem_filter, link]
    split_ifs with hk
    · simp [hk, hne.symm]
    · simp [hk]
  · refine Finset.disjoint_filter.mpr fun k _ hr hs => hne (hr.symm.trans hs)

theorem classSize_link_of_ne {t : ℕ} (hr : t ≠ r) (hs : t ≠ s) (n : ℕ) :
    classSize (link root r s) n t = classSize root n t := by
  rw [classSize, classSize]
  congr 1
  ext k
  rw [Finset.mem_filter, Finset.mem_filter, link]
  split_ifs with hk
  · simp [hk, hr.symm, hs.symm]
  · rfl

/-- A root may be pointed to another one whose rank is greater, or gets greater where the two ranks are
equal. -/
theorem IsRankedForest.link (h : IsRankedForest parents rank root) {k : ℕ}
    (hr : parents[r]? = some r) (hs : parents[s]? = some s) (hne : r ≠ s) (hlt : rank s < k)
    (hk : rank r = k ∨ rank r = rank s ∧ k = rank r + 1) :
    IsRankedForest (parents.set s r) (update rank r k) (link root r s) where
  toIsForest := h.toIsForest.link hr hs hne
  rank_lt i j hj hji := by
    have hle : rank r ≤ k := by omega
    rcases getElem?_set_eq_some hj with ⟨rfl, rfl⟩ | ⟨his, hold⟩
    · rwa [update_of_ne hne.symm, update_self]
    · have hlt := h.rank_lt i j hold hji
      have hir : i ≠ r := by
        rintro rfl
        exact hji (some.inj (hold.symm.trans hr))
      rw [update_of_ne hir]
      by_cases hjr : j = r
      · rw [hjr, update_self]
        rw [hjr] at hlt
        omega
      · rwa [update_of_ne hjr]
  rank_outside {i} hi := by
    rw [length_set] at hi
    have hir : i ≠ r := by
      rintro rfl
      exact absurd (List.getElem?_eq_some_iff.mp hr).1 (not_lt.mpr hi)
    rw [update_of_ne hir, h.rank_outside hi]
  two_pow_rank {t} ht := by
    rw [length_set]
    rcases getElem?_set_eq_some ht with ⟨rfl, heq⟩ | ⟨hts, ht⟩
    · exact absurd heq.symm hne
    · by_cases htr : t = r
      · rw [htr, update_self, classSize_link hne]
        have hsizer := h.two_pow_rank hr
        have hsizes := h.two_pow_rank hs
        rcases hk with rfl | ⟨heq, rfl⟩
        · omega
        · rw [Nat.pow_succ]
          rw [← heq] at hsizes
          omega
      · rw [update_of_ne htr, classSize_link_of_ne htr hts]
        exact h.two_pow_rank ht

/-- An index is at most as deep as the rank of its root. -/
theorem IsRankedForest.exists_depth (h : IsRankedForest parents rank root)
    (hi : i < parents.length) : ∃ n, Depth parents i n ∧ n + rank i ≤ rank (root i) := by
  refine h.parent_induction (fun i => ∃ n, Depth parents i n ∧ n + rank i ≤ rank (root i))
    (fun i hi => ?_) (fun i j hj hne ⟨n, hdepth, hle⟩ => ?_) hi
  · exact ⟨0, .root hi, by rw [h.root_self hi, Nat.zero_add]⟩
  · have hlt := h.rank_lt i j hj hne
    rw [h.root_parent hj] at hle
    exact ⟨n + 1, .parent hj hne hdepth, by omega⟩

theorem IsRankedForest.rank_root_le_log (h : IsRankedForest parents rank root)
    (hi : i < parents.length) : rank (root i) ≤ Nat.log 2 (classSize root parents.length (root i)) := by
  have hsize := h.two_pow_rank (h.parents_root hi)
  have hpos : 0 < classSize root parents.length (root i) := (Nat.two_pow_pos _).trans_le hsize
  exact (Nat.le_log_iff_pow_le Nat.one_lt_two hpos.ne').mpr hsize

theorem classSize_le (root : ℕ → ℕ) (n r : ℕ) : classSize root n r ≤ n :=
  (Finset.card_filter_le _ _).trans_eq (Finset.card_range n)

end Ranks

/-! ## Classes -/

section Classes

variable {α : Type u} {β : Type*}

/-- The connection by pairs. -/
def Connected (pairs : List (α × α)) : α → α → Prop := EqvGen fun a b => (a, b) ∈ pairs

theorem Connected.refl (pairs : List (α × α)) (x : α) : Connected pairs x x := EqvGen.refl x

variable {x y : α} {pairs : List (α × α)}

theorem Connected.symm (h : Connected pairs x y) :
    Connected pairs y x :=
  EqvGen.symm x y h

theorem Connected.trans {z : α} (h : Connected pairs x y)
    (h' : Connected pairs y z) : Connected pairs x z :=
  EqvGen.trans x y z h h'

theorem Connected.of_mem (h : (x, y) ∈ pairs) :
    Connected pairs x y :=
  EqvGen.rel x y h

theorem Connected.mono {pairs' : List (α × α)} (h : pairs ⊆ pairs')
    (hxy : Connected pairs x y) : Connected pairs' x y :=
  EqvGen.mono (fun _ _ hab => h hab) x y hxy

theorem connected_congr {pairs' : List (α × α)} (h : ∀ p, p ∈ pairs ↔ p ∈ pairs') :
    Connected pairs x y ↔ Connected pairs' x y :=
  ⟨Connected.mono fun p hp => (h p).mp hp, Connected.mono fun p hp => (h p).mpr hp⟩

/-- What a function identifies in every pair it identifies in the classes. -/
theorem Connected.lift {f : α → β} (hf : ∀ p ∈ pairs, f p.1 = f p.2) (h : Connected pairs x y) :
    f x = f y := by
  induction h with
  | rel x y hxy => exact hf (x, y) hxy
  | refl x => rfl
  | symm x y _ ih => exact ih.symm
  | trans x y z _ _ ih ih' => exact ih.trans ih'

theorem connected_nil : Connected [] x y ↔ x = y := by
  constructor
  · intro h
    exact h.lift (f := id) fun p hp => absurd hp not_mem_nil
  · rintro rfl
    exact Connected.refl [] x

theorem Connected.map (f : α → β) (h : Connected pairs x y) :
    Connected (pairs.map (Prod.map f f)) (f x) (f y) := by
  induction h with
  | rel x y hxy => exact Connected.of_mem (List.mem_map_of_mem (f := Prod.map f f) hxy)
  | refl x => exact Connected.refl _ _
  | symm x y _ ih => exact ih.symm
  | trans x y z _ _ ih ih' => exact ih.trans ih'

/-- The connection of names that are numbered differently is the one of their numbers. -/
theorem connected_map_iff {f : α → β} {S : α → Prop}
    (hinj : ∀ x y, S x → S y → f x = f y → x = y) (hS : ∀ p ∈ pairs, S p.1 ∧ S p.2)
    (hx : S x) (hy : S y) :
    Connected (pairs.map (Prod.map f f)) (f x) (f y) ↔ Connected pairs x y := by
  constructor
  · have key : ∀ m n, Connected (pairs.map (Prod.map f f)) m n →
        m = n ∨ ∃ x y, S x ∧ S y ∧ f x = m ∧ f y = n ∧ Connected pairs x y := by
      intro m n h
      induction h with
      | rel m n hmn =>
        obtain ⟨p, hp, heq⟩ := List.mem_map.mp hmn
        obtain ⟨rfl, rfl⟩ := Prod.mk.inj heq
        exact .inr ⟨p.1, p.2, (hS p hp).1, (hS p hp).2, rfl, rfl, Connected.of_mem hp⟩
      | refl m => exact .inl rfl
      | symm m n _ ih =>
        rcases ih with rfl | ⟨x, y, hx, hy, rfl, rfl, hxy⟩
        · exact .inl rfl
        · exact .inr ⟨y, x, hy, hx, rfl, rfl, hxy.symm⟩
      | trans m n k _ _ ih ih' =>
        rcases ih with rfl | ⟨x, y, hx, hy, rfl, rfl, hxy⟩
        · exact ih'
        · rcases ih' with rfl | ⟨y', z, hy', hz, heq, rfl, hyz⟩
          · exact .inr ⟨x, y, hx, hy, rfl, rfl, hxy⟩
          · obtain rfl := hinj y' y hy' hy heq
            exact .inr ⟨x, z, hx, hz, rfl, rfl, hxy.trans hyz⟩
    intro h
    rcases key _ _ h with heq | ⟨x', y', hx', hy', hfx, hfy, hxy⟩
    · obtain rfl := hinj x y hx hy heq
      exact Connected.refl pairs x
    · obtain rfl := hinj x' x hx' hx hfx
      obtain rfl := hinj y' y hy' hy hfy
      exact hxy
  · exact Connected.map f

/-- The roots describe the classes of the pairs. -/
def Classes (root : α → α) (pairs : List (α × α)) : Prop :=
  ∀ x y, root x = root y ↔ Connected pairs x y

theorem classes_nil : Classes (id : α → α) [] := fun _ _ => connected_nil.symm

/-- A pair in one class adds nothing. -/
theorem Classes.cons_same {root : α → α} (h : Classes root pairs)
    (hxy : root x = root y) : Classes root ((x, y) :: pairs) := by
  intro z w
  constructor
  · intro hzw
    exact ((h z w).mp hzw).mono (subset_cons_self _ _)
  · refine fun hzw => hzw.lift fun p hp => ?_
    rcases mem_cons.mp hp with rfl | hp
    · exact hxy
    · exact (h p.1 p.2).mpr (Connected.of_mem hp)

end Classes

/-- A link between the roots of a pair adds the pair. -/
theorem Classes.cons_link {root : ℕ → ℕ} {pairs : List (ℕ × ℕ)} (h : Classes root pairs)
    {x y : ℕ} (hrs : root x = r ∧ root y = s ∨ root x = s ∧ root y = r) :
    Classes (link root r s) ((x, y) :: pairs) := by
  have hpair : ∀ z w, root z = s → root w = r → Connected ((x, y) :: pairs) z w := by
    intro z w hz hw
    have hxy : Connected ((x, y) :: pairs) x y := Connected.of_mem mem_cons_self
    have hold : ∀ z w, root z = root w → Connected ((x, y) :: pairs) z w :=
      fun z w hzw => ((h z w).mp hzw).mono (subset_cons_self _ _)
    rcases hrs with ⟨hx, hy⟩ | ⟨hx, hy⟩
    · exact ((hold z y (hz.trans hy.symm)).trans hxy.symm).trans (hold x w (hx.trans hw.symm))
    · exact ((hold z x (hz.trans hx.symm)).trans hxy).trans (hold y w (hy.trans hw.symm))
  intro z w
  constructor
  · intro hzw
    rw [link, link] at hzw
    split_ifs at hzw with hz hw hw
    · exact ((h z w).mp (hz.trans hw.symm)).mono (subset_cons_self _ _)
    · exact hpair z w hz hzw.symm
    · exact (hpair w z hw hzw).symm
    · exact ((h z w).mp hzw).mono (subset_cons_self _ _)
  · refine fun hzw => hzw.lift fun p hp => ?_
    rcases mem_cons.mp hp with rfl | hp
    · rcases hrs with ⟨hx, hy⟩ | ⟨hx, hy⟩
      · simp only [link, hx, hy]
        split_ifs <;> rfl
      · simp only [link, hx, hy]
        split_ifs <;> rfl
    · rw [link, link, (h p.1 p.2).mpr (Connected.of_mem hp)]

end ParentForest
