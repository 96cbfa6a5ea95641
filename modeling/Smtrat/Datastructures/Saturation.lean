import Mathlib

/-!
# Saturation level by level

Elements live on levels.  An element sends what `single` gives to the next level, and two elements of
one level send what `paired` gives.  What arrives at a level may be dropped, or go on to a higher level
before it is put somewhere.  `Reach` is the least family of levels that contains given elements and is
closed under these rules; `Added` says that a family was enlarged no further than the rules demand.
-/

namespace Saturation

universe u

/-- The rules. -/
structure Projector (P : Type u) where
  /-- The number of levels; the last one sends nothing. -/
  dim : ℕ
  /-- Where something that arrives at a level is put. -/
  place : ℕ → P → Option (ℕ × P)
  single : ℕ → P → List P
  paired : ℕ → P → P → List P
  le_of_place : ∀ l p k q, place l p = some (k, q) → l ≤ k
  paired_comm : ∀ l p q r, r ∈ paired l p q → r ∈ paired l q p

variable {P : Type u} (π : Projector P)

/-- What is reachable from the elements `C` that arrive at the first level. -/
inductive Reach (C : Set P) : ℕ → P → Prop
  | base {c p : P} {l : ℕ} (hc : c ∈ C) (hplace : π.place 1 c = some (l, p)) : Reach C l p
  | single {p r q : P} {l k : ℕ} (hp : Reach C l p) (hl : l < π.dim) (hr : r ∈ π.single (l + 1) p)
      (hplace : π.place (l + 1) r = some (k, q)) : Reach C k q
  | paired {p p' r q : P} {l k : ℕ} (hp : Reach C l p) (hp' : Reach C l p') (hne : p ≠ p')
      (hl : l < π.dim) (hr : r ∈ π.paired (l + 1) p p')
      (hplace : π.place (l + 1) r = some (k, q)) : Reach C k q

/-- What arrives at a level as `r` is in the family. -/
def Placed (l : ℕ) (r : P) (S : ℕ → Set P) : Prop := ∀ k q, π.place l r = some (k, q) → q ∈ S k

/-- The family is closed under the rules from a level on. -/
structure ClosedFrom (l : ℕ) (S : ℕ → Set P) : Prop where
  single : ∀ k, l ≤ k → k < π.dim → ∀ p ∈ S k, ∀ r ∈ π.single (k + 1) p, Placed π (k + 1) r S
  paired : ∀ k, l ≤ k → k < π.dim → ∀ p ∈ S k, ∀ q ∈ S k, p ≠ q →
    ∀ r ∈ π.paired (k + 1) p q, Placed π (k + 1) r S

/-- The elements of `Q` were added on level `l` of the family `S`, and what the rules demand. -/
structure Added (l : ℕ) (Q : Set P) (S S' : ℕ → Set P) : Prop where
  subset : ∀ k, S k ⊆ S' k
  below : ∀ k, k < l → S' k = S k
  placed : ∀ r ∈ Q, Placed π l r S'
  closed : ClosedFrom π l S → ClosedFrom π l S'
  least : ∀ T, ClosedFrom π l T → (∀ k, S k ⊆ T k) → (∀ r ∈ Q, Placed π l r T) → ∀ k, S' k ⊆ T k

variable {π} {l : ℕ} {p r : P} {Q Q' C : Set P} {S S' S'' T : ℕ → Set P}

theorem Placed.mono (h : Placed π l r S) (hsub : ∀ k, S k ⊆ S' k) : Placed π l r S' :=
  fun k q hq => hsub k (h k q hq)

theorem Placed.of_none (h : π.place l r = none) : Placed π l r S :=
  fun _ _ hq => absurd (h.symm.trans hq) (Option.some_ne_none _).symm

theorem placed_iff {k : ℕ} (h : π.place l r = some (k, p)) : Placed π l r S ↔ p ∈ S k := by
  constructor
  · intro hpl
    exact hpl k p h
  · intro hp k' q hq
    obtain ⟨rfl, rfl⟩ := Prod.mk.inj (Option.some_inj.mp (h.symm.trans hq))
    exact hp

theorem ClosedFrom.mono {k : ℕ} (h : ClosedFrom π l S) (hle : l ≤ k) : ClosedFrom π k S where
  single k' hk' := h.single k' (hle.trans hk')
  paired k' hk' := h.paired k' (hle.trans hk')

/-! ## Reachable elements -/

theorem closedFrom_reach (C : Set P) (l : ℕ) : ClosedFrom π l fun k => {p | Reach π C k p} where
  single _ _ hk _ hp _ hr _ _ hq := .single hp hk hr hq
  paired _ _ hk _ hp _ hp' hne _ hr _ _ hq := .paired hp hp' hne hk hr hq

theorem placed_reach (hp : p ∈ C) : Placed π 1 p fun k => {q | Reach π C k q} :=
  fun _ _ hq => .base hp hq

/-- Nothing is put on a level below the first one. -/
theorem Reach.one_le {k : ℕ} (h : Reach π C k p) : 1 ≤ k := by
  induction h with
  | base _ hpl => exact π.le_of_place _ _ _ _ hpl
  | single _ _ _ hpl ih => exact (Nat.le_add_left 1 _).trans (π.le_of_place _ _ _ _ hpl)
  | paired _ _ _ _ _ hpl ih ih' =>
    exact (Nat.le_add_left 1 _).trans (π.le_of_place _ _ _ _ hpl)

/-- The reachable elements are in every closed family with the given elements. -/
theorem Reach.mem {k : ℕ} (h : Reach π C k p) (hT : ClosedFrom π 1 T)
    (hC : ∀ c ∈ C, Placed π 1 c T) : p ∈ T k := by
  induction h with
  | base hc hpl => exact hC _ hc _ _ hpl
  | single hp hl hr hpl ih => exact hT.single _ hp.one_le hl _ ih _ hr _ _ hpl
  | paired hp hp' hne hl hr hpl ih ih' =>
    exact hT.paired _ hp.one_le hl _ ih _ ih' hne _ hr _ _ hpl

theorem Reach.mono {C' : Set P} {k : ℕ} (h : Reach π C k p) (hsub : C ⊆ C') : Reach π C' k p :=
  h.mem (T := fun k => {q | Reach π C' k q}) (closedFrom_reach C' 1)
    fun _ hc => placed_reach (hsub hc)

theorem not_reach_empty {k : ℕ} : ¬ Reach π (∅ : Set P) k p := by
  intro h
  exact h.mem (T := fun _ => ∅) ⟨fun _ _ _ _ hp => hp.elim, fun _ _ _ _ hp => hp.elim⟩
    fun _ hc => hc.elim

/-! ## Adding -/

theorem Added.refl (l : ℕ) (S : ℕ → Set P) : Added π l ∅ S S where
  subset _ := subset_rfl
  below _ _ := rfl
  placed _ hr := hr.elim
  closed h := h
  least _ _ hsub _ := hsub

theorem Added.trans (h : Added π l Q S S') (h' : Added π l Q' S' S'') :
    Added π l (Q ∪ Q') S S'' where
  subset k := (h.subset k).trans (h'.subset k)
  below k hk := (h'.below k hk).trans (h.below k hk)
  placed := by
    rintro r (hr | hr)
    · exact (h.placed r hr).mono h'.subset
    · exact h'.placed r hr
  closed hS := h'.closed (h.closed hS)
  least T hT hsub hQ :=
    h'.least T hT (h.least T hT hsub fun r hr => hQ r (.inl hr)) fun r hr => hQ r (.inr hr)

/-- Something that is dropped or was there before. -/
theorem Added.of_placed (h : Placed π l r S) : Added π l {r} S S where
  subset _ := subset_rfl
  below _ _ := rfl
  placed q hq := by
    obtain rfl := Set.mem_singleton_iff.mp hq
    exact h
  closed hS := hS
  least _ _ hsub _ := hsub

/-- Something that goes on to the next level. -/
theorem Added.forward {r' : P} (h : Added π (l + 1) {r'} S S')
    (hpl : π.place l r = π.place (l + 1) r') : Added π l {r} S S' where
  subset := h.subset
  below k hk := h.below k (Nat.lt_succ_of_lt hk)
  placed q hq := by
    obtain rfl := Set.mem_singleton_iff.mp hq
    intro k q' hq'
    exact h.placed r' rfl k q' (hpl ▸ hq')
  closed hS := by
    have hclo := h.closed (hS.mono (Nat.le_succ l))
    have hlev : S' l = S l := h.below l (Nat.lt_succ_self l)
    constructor
    · intro k hk hdim p hp
      rcases hk.eq_or_lt with rfl | hlt
      · intro q hq
        exact (hS.single _ le_rfl hdim p (hlev ▸ hp) q hq).mono h.subset
      · exact hclo.single k hlt hdim p hp
    · intro k hk hdim p hp q hq hne
      rcases hk.eq_or_lt with rfl | hlt
      · intro r' hr'
        exact (hS.paired _ le_rfl hdim p (hlev ▸ hp) q (hlev ▸ hq) hne r' hr').mono h.subset
      · exact hclo.paired k hlt hdim p hp q hq hne
  least T hT hsub hr := h.least T (hT.mono (Nat.le_succ l)) hsub fun q hq => by
    obtain rfl := Set.mem_singleton_iff.mp hq
    intro k q' hq'
    exact hr r rfl k q' (hpl ▸ hq')

/-- What a new element of a level sends on. -/
def sent (π : Projector P) (l : ℕ) (p : P) (S : Set P) : Set P :=
  {r | l < π.dim ∧ (r ∈ π.single (l + 1) p ∨ ∃ q ∈ S, r ∈ π.paired (l + 1) p q)}

/-- An element is put on a level after everything it sends was added. -/
theorem Added.put (h : Added π (l + 1) (sent π l p (S l)) S S')
    (hpl : π.place l r = some (l, p)) (hnew : p ∉ S l) (hlev : S'' l = insert p (S' l))
    (hother : ∀ k, k ≠ l → S'' k = S' k) : Added π l {r} S S'' := by
  have hsame : S' l = S l := h.below l (Nat.lt_succ_self l)
  have hsub' (k : ℕ) : S' k ⊆ S'' k := by
    by_cases hk : k = l
    · subst hk
      rw [hlev]
      exact Set.subset_insert p _
    · rw [hother k hk]
  have hsub (k : ℕ) : S k ⊆ S'' k := (h.subset k).trans (hsub' k)
  have hmem : ∀ q ∈ S'' l, q = p ∨ q ∈ S l := by
    intro q hq
    rw [hlev, hsame] at hq
    exact hq
  constructor
  · exact hsub
  · intro k hk
    rw [hother k hk.ne, h.below k (Nat.lt_succ_of_lt hk)]
  · intro q hq
    obtain rfl := Set.mem_singleton_iff.mp hq
    rw [placed_iff hpl, hlev]
    exact Set.mem_insert p _
  · intro hS
    have hclo := h.closed (hS.mono (Nat.le_succ l))
    have hsent : ∀ r ∈ sent π l p (S l), Placed π (l + 1) r S'' :=
      fun r hr => (h.placed r hr).mono hsub'
    constructor
    · intro k hk hdim q hq r hr
      rcases hk.eq_or_lt with rfl | hlt
      · rcases hmem q hq with rfl | hq
        · exact hsent r ⟨hdim, .inl hr⟩
        · exact (hS.single _ le_rfl hdim q hq r hr).mono hsub
      · rw [hother k hlt.ne'] at hq
        exact (hclo.single k hlt hdim q hq r hr).mono hsub'
    · intro k hk hdim q hq q' hq' hne r hr
      rcases hk.eq_or_lt with rfl | hlt
      · rcases hmem q hq with rfl | hq
        · rcases hmem q' hq' with rfl | hq'
          · exact absurd rfl hne
          · exact hsent r ⟨hdim, .inr ⟨q', hq', hr⟩⟩
        · rcases hmem q' hq' with rfl | hq'
          · exact hsent r ⟨hdim, .inr ⟨q, hq, π.paired_comm _ _ _ _ hr⟩⟩
          · exact (hS.paired _ le_rfl hdim q hq q' hq' hne r hr).mono hsub
      · rw [hother k hlt.ne'] at hq hq'
        exact (hclo.paired k hlt hdim q hq q' hq' hne r hr).mono hsub'
  · intro T hT hST hr
    have hp : p ∈ T l := hr r rfl l p hpl
    have hS'T := h.least T (hT.mono (Nat.le_succ l)) hST (by
      rintro q ⟨hdim, hq | ⟨q', hq', hq⟩⟩
      · exact hT.single l le_rfl hdim p hp q hq
      · exact hT.paired l le_rfl hdim p hp q' (hST l hq') (by rintro rfl; exact hnew hq') q hq)
    intro k
    by_cases hk : k = l
    · subst hk
      rw [hlev]
      exact Set.insert_subset hp (hS'T k)
    · rw [hother k hk]
      exact hS'T k

/-- Adding an element to the reachable ones gives what is reachable with it. -/
theorem Added.reach {c : P} (h : Added π 1 {c} (fun k => {p | Reach π C k p}) S') :
    S' = fun k => {p | Reach π (insert c C) k p} := by
  funext k
  apply Set.Subset.antisymm
  · refine h.least _ (closedFrom_reach _ 1) (fun k p hp => hp.mono (Set.subset_insert c C)) ?_ k
    intro r hr
    obtain rfl := Set.mem_singleton_iff.mp hr
    exact placed_reach (Set.mem_insert r C)
  · intro p hp
    refine hp.mem (h.closed (closedFrom_reach C 1)) fun d hd => ?_
    rcases Set.mem_insert_iff.mp hd with rfl | hd
    · exact h.placed d rfl
    · exact (placed_reach hd).mono h.subset

end Saturation
