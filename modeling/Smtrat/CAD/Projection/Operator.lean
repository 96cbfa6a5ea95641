import Smtrat.Datastructures.Saturation
import Smtrat.Math.Instances

/-!
# Projection operators

The levels of a projection are numbered from one, the variable of a level is eliminated when its
polynomials are projected into the next one.  A projection operator has a part for single polynomials and
one for pairs.
-/

namespace Smtrat.CAD

universe u

open Saturation List Option

/-- `ProjectionOperator`, with what the projection asks of a polynomial.  The argument of the operator is
the level whose variable becomes the main variable. -/
structure ProjectionOperator (P : Type u) where
  isZero : P → Bool
  isNumber : P → Bool
  /-- The polynomial does not contain its main variable. -/
  isConstant : P → Bool
  switchVariable : ℕ → P → P
  single : ℕ → P → List P
  paired : ℕ → P → P → List P
  /-- Resultants are normalized, so the order of the polynomials does not matter. -/
  paired_comm : ∀ l p q r, r ∈ paired l p q → r ∈ paired l q p

/-- Calls `f` for all elements, and unites the results. -/
def forEach {A S : Type*} (f : A → S → Finset ℕ × S) : List A → S → Finset ℕ × S
  | [], s => (∅, s)
  | a :: as, s =>
    let r := f a s
    let rest := forEach f as r.2
    (r.1 ∪ rest.1, rest.2)

namespace ProjectionOperator

variable {P : Type u} (op : ProjectionOperator P)

/-- Checks whether a polynomial can safely be ignored. -/
def canBeRemoved (p : P) : Bool := op.isZero p || op.isNumber p

/-- Checks whether a polynomial can safely be forwarded to the next level. -/
def canBeForwarded (p : P) : Bool := op.isConstant p

/-- Where a polynomial that arrives at a level is put if polynomials are forwarded; the number is that
of the levels above. -/
def forwardFrom : ℕ → ℕ → P → Option (ℕ × P)
  | 0, level, p => if op.canBeRemoved p then none else some (level, p)
  | n + 1, level, p =>
    if op.canBeRemoved p then none
    else if op.canBeForwarded p then forwardFrom n (level + 1) (op.switchVariable (level + 1) p)
    else some (level, p)

variable {op}

theorem le_of_forwardFrom {n level k : ℕ} {p q : P} (h : op.forwardFrom n level p = some (k, q)) :
    level ≤ k := by
  induction n generalizing level p with
  | zero =>
    rw [forwardFrom] at h
    split_ifs at h
    exact (Prod.mk.inj (some_inj.mp h)).1.le
  | succ n ih =>
    rw [forwardFrom] at h
    split_ifs at h
    · exact (Nat.le_succ level).trans (ih h)
    · exact (Prod.mk.inj (some_inj.mp h)).1.le

variable (op)

/-- The projection steps if polynomials are forwarded. -/
def forwarding (dim : ℕ) : Projector P where
  dim := dim
  place level := op.forwardFrom (dim - level) level
  single := op.single
  paired := op.paired
  le_of_place _ _ _ _ h := le_of_forwardFrom h
  paired_comm := op.paired_comm

variable {op}

theorem forwarding_place_dim (dim : ℕ) (p : P) : (op.forwarding dim).place dim p =
    if op.canBeRemoved p then none else some (dim, p) := by
  simp only [forwarding, Nat.sub_self, forwardFrom]

theorem forwarding_place_of_lt {dim level : ℕ} (h : level < dim) (p : P) :
    (op.forwarding dim).place level p = if op.canBeRemoved p then none
      else if op.canBeForwarded p then
        (op.forwarding dim).place (level + 1) (op.switchVariable (level + 1) p)
      else some (level, p) := by
  simp only [forwarding]
  rw [show dim - level = dim - (level + 1) + 1 by omega, forwardFrom]

variable (op)

/-- The projection steps if polynomials stay where they arrive. -/
def plain (dim : ℕ) : Projector P where
  dim := dim
  place level p := if op.canBeRemoved p then none else some (level, p)
  single := op.single
  paired := op.paired
  le_of_place _ _ _ _ h := by
    split_ifs at h
    exact (Prod.mk.inj (some_inj.mp h)).1.le
  paired_comm := op.paired_comm

variable {op}

/-- Polynomials are only put on the levels of the projection. -/
theorem le_of_forwardFrom_dim {n level k dim : ℕ} {p q : P} (hn : n + level = dim)
    (h : op.forwardFrom n level p = some (k, q)) : k ≤ dim := by
  induction n generalizing level p with
  | zero =>
    rw [forwardFrom] at h
    split_ifs at h
    rw [← (Prod.mk.inj (some_inj.mp h)).1]
    omega
  | succ n ih =>
    rw [forwardFrom] at h
    split_ifs at h
    · exact ih (by omega) h
    · rw [← (Prod.mk.inj (some_inj.mp h)).1]
      omega

theorem reach_le_dim {dim : ℕ} (hdim : 0 < dim) {C : Set P} {level : ℕ} {p : P}
    (h : Reach (op.forwarding dim) C level p) : level ≤ dim := by
  have hpl {l k : ℕ} {r q : P} (hl : l ≤ dim)
      (h : (op.forwarding dim).place l r = some (k, q)) : k ≤ dim :=
    le_of_forwardFrom_dim (show dim - l + l = dim by omega) h
  cases h with
  | base _ h => exact hpl hdim h
  | single _ hl _ h => exact hpl hl h
  | paired _ _ _ hl _ h => exact hpl hl h

end ProjectionOperator

/-! ## Loops -/

/-- A loop over polynomials that adds each of them adds them all; `R` is what else a step keeps. -/
theorem forEach_added {A S P : Type*} {π : Projector P} {l : ℕ} {f : A → S → Finset ℕ × S}
    (levels : S → ℕ → Set P) {Q : A → Set P} {R : S → S → Prop} (hrefl : ∀ s, R s s)
    (htrans : ∀ s s' s'', R s s' → R s' s'' → R s s'') (s₀ : S) (as : List A)
    (hf : ∀ a ∈ as, ∀ s, R s₀ s → Added π l (Q a) (levels s) (levels (f a s).2) ∧ R s (f a s).2) :
    Added π l {r | ∃ a ∈ as, r ∈ Q a} (levels s₀) (levels (forEach f as s₀).2) ∧
      R s₀ (forEach f as s₀).2 := by
  induction as generalizing s₀ with
  | nil =>
    refine ⟨?_, hrefl s₀⟩
    have hempty : {r | ∃ a ∈ ([] : List A), r ∈ Q a} = ∅ :=
      Set.eq_empty_of_forall_notMem fun r ⟨a, ha, _⟩ => not_mem_nil ha
    rw [hempty]
    exact Added.refl l (levels s₀)
  | cons a as ih =>
    obtain ⟨hadded, hR⟩ := hf a mem_cons_self s₀ (hrefl s₀)
    obtain ⟨hrest, hR'⟩ := ih (f a s₀).2 fun b hb s hs =>
      hf b (mem_cons_of_mem a hb) s (htrans _ _ _ hR hs)
    refine ⟨?_, htrans _ _ _ hR hR'⟩
    have hunion : {r | ∃ b ∈ a :: as, r ∈ Q b} = Q a ∪ {r | ∃ b ∈ as, r ∈ Q b} := by
      ext r
      simp
    rw [hunion]
    exact hadded.trans hrest

/-- What a polynomial sends on is what the loops over its level project. -/
theorem sent_eq_loops {A P : Type*} {π : Projector P} {level : ℕ} (hlev : level < π.dim) (p : P)
    {S : Set P} (as : List A) (polynomial : A → P) (hS : ∀ q, q ∈ S ↔ ∃ a ∈ as, polynomial a = q) :
    sent π level p S = {r | ∃ np ∈ π.single (level + 1) p, r ∈ ({np} : Set P)} ∪
      {r | ∃ a ∈ as,
        r ∈ {r | ∃ np ∈ π.paired (level + 1) p (polynomial a), r ∈ ({np} : Set P)}} := by
  ext r
  simp only [sent, Set.mem_ofPred_eq, Set.mem_union, Set.mem_singleton_iff, exists_eq_right']
  constructor
  · rintro ⟨-, hr | ⟨q, hq, hr⟩⟩
    · exact .inl hr
    · obtain ⟨a, ha, rfl⟩ := (hS q).mp hq
      exact .inr ⟨a, ha, hr⟩
  · rintro (hr | ⟨a, ha, hr⟩)
    · exact ⟨hlev, .inl hr⟩
    · exact ⟨hlev, .inr ⟨polynomial a, (hS _).mpr ⟨a, ha, rfl⟩, hr⟩⟩

/-- The loops over a level project a polynomial on its own, and then with the others of the level. -/
theorem loops_added {A S P : Type*} {π : Projector P} {level : ℕ} (hlev : level < π.dim) (p : P)
    (levels : S → ℕ → Set P) {R : S → S → Prop} (hrefl : ∀ s, R s s)
    (htrans : ∀ s s' s'', R s s' → R s' s'' → R s s'') (s : S) (single : P → S → Finset ℕ × S)
    (paired : A → P → S → Finset ℕ × S) (as : S → List A) (polynomial : A → P)
    (has : ∀ s' q, q ∈ levels s' level ↔ ∃ a ∈ as s', polynomial a = q)
    (hsingle : ∀ np s', R s s' →
      Added π (level + 1) {np} (levels s') (levels (single np s').2) ∧ R s' (single np s').2)
    (hpaired : ∀ s₁, R s s₁ → ∀ a ∈ as s₁, ∀ np s', R s s' →
      Added π (level + 1) {np} (levels s') (levels (paired a np s').2) ∧ R s' (paired a np s').2) :
    let s₁ := (forEach single (π.single (level + 1) p) s).2
    let s₂ := (forEach (fun a => forEach (paired a) (π.paired (level + 1) p (polynomial a)))
      (as s₁) s₁).2
    Added π (level + 1) (sent π level p (levels s level)) (levels s) (levels s₂) ∧ R s s₂ := by
  intro s₁ s₂
  obtain ⟨h₁, hR⟩ := forEach_added levels (Q := fun np => {np}) hrefl htrans s
    (π.single (level + 1) p) fun np _ => hsingle np
  obtain ⟨h₂, hR'⟩ := forEach_added levels
    (Q := fun a => {r | ∃ np ∈ π.paired (level + 1) p (polynomial a), r ∈ ({np} : Set P)})
    hrefl htrans s₁ (as s₁) fun a ha s' hs' => forEach_added levels hrefl htrans s'
      (π.paired (level + 1) p (polynomial a)) fun np _ s'' hs'' =>
        hpaired s₁ hR a ha np s'' (htrans _ _ _ hR (htrans _ _ _ hs' hs''))
  have hsame : levels s₁ level = levels s level := h₁.below level (Nat.lt_succ_self level)
  rw [sent_eq_loops hlev p (as s₁) polynomial (hsame ▸ has s₁)]
  exact ⟨h₁.trans h₂, htrans _ _ _ hR hR'⟩

/-- The last level sends nothing on. -/
theorem sent_last {P : Type*} {π : Projector P} {level : ℕ} (hlev : π.dim ≤ level) (p : P)
    (S : Set P) : sent π level p S = ∅ :=
  Set.eq_empty_of_forall_notMem fun _ hr => absurd hr.1 (not_lt.mpr hlev)

end Smtrat.CAD

/-!
## Runs of a projection

The constraints add their polynomials to the projection and remove them again.  The levels should always
hold what can be projected from the constraints that are present.
-/

namespace Smtrat.CAD

universe u

open Saturation

inductive ProjectionEvent (P : Type u) where
  | addPolynomial (p : P) (cid : ℕ) (isBound : Bool)
  | removePolynomial (p : P) (cid : ℕ)
  | projectNewPolynomial

/-- A projection and the constraints it was given, the last one in front. -/
structure Tracked (σ P : Type*) where
  constraints : List (ℕ × P)
  projection : σ

variable {P : Type u}

/-- The polynomials of the constraints. -/
def polynomialsOf (constraints : List (ℕ × P)) : Set P := {p | ∃ cid, (cid, p) ∈ constraints}

/-- The levels hold exactly what is reachable from the constraints. -/
def Exact (π : Projector P) (constraints : List (ℕ × P)) (polynomialById : ℕ → ℕ → Option P) :
    Prop :=
  ∀ level p, (∃ id, polynomialById level id = some p) ↔ Reach π (polynomialsOf constraints) level p

/-- The calls of the remove callback name exactly the dropped ids. -/
structure Removed (before after : ℕ → ℕ → Option P) (calls : List (ℕ × Finset ℕ)) : Prop where
  calls : ∀ level id, (∃ removed, (level, removed) ∈ calls ∧ id ∈ removed) ↔
    (before level id).isSome ∧ after level id = none
  kept : ∀ level id p, after level id = some p → before level id = some p

theorem polynomialsOf_cons (cid : ℕ) (p : P) (constraints : List (ℕ × P)) :
    polynomialsOf ((cid, p) :: constraints) = insert p (polynomialsOf constraints) := by
  ext q
  constructor
  · rintro ⟨c, hc⟩
    rcases List.mem_cons.mp hc with h | h
    · exact .inl (Prod.mk.inj h).2
    · exact .inr ⟨c, h⟩
  · rintro (rfl | ⟨c, hc⟩)
    · exact ⟨cid, List.mem_cons_self⟩
    · exact ⟨c, List.mem_cons_of_mem _ hc⟩

theorem polynomialsOf_nil : polynomialsOf ([] : List (ℕ × P)) = ∅ :=
  Set.eq_empty_of_forall_notMem fun _ ⟨_, h⟩ => List.not_mem_nil h

/-- Without constraints all levels are empty. -/
theorem Exact.empty {π : Projector P} {polynomialById : ℕ → ℕ → Option P}
    (h : Exact π [] polynomialById) (level id : ℕ) : polynomialById level id = none := by
  cases hp : polynomialById level id with
  | none => rfl
  | some p =>
    have hreach := (h level p).mp ⟨id, hp⟩
    rw [polynomialsOf_nil] at hreach
    exact absurd hreach not_reach_empty

end Smtrat.CAD
