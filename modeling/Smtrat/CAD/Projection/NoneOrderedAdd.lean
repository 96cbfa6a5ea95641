import Smtrat.CAD.Projection.Operator
import Smtrat.Datastructures.OrderedSet

/-!
# Adding to the ordered projection

A polynomial is added with everything that can be projected from it, and everything that is new stems
from its constraint.
-/

/-!
## Projection without incrementality, backtracking in order

`Projection<Incrementality::NONE, Backtracking::ORDERED>` stores a polynomial together with the latest
constraint it stems from, so that the polynomials of the last constraint are the last ones of every level.
-/

namespace Smtrat.CAD

universe u

open Saturation Function

/-- `Projection<NONE, ORDERED>` -/
structure ProjectionNO (P : Type u) where
  /-- Maps polynomials to a (per level) unique ID. -/
  polynomialIDs : ℕ → List (P × ℕ)
  /-- The polynomials with their origin constraint ids, the last polynomial in front; the id of a
  polynomial is the number of those behind it. -/
  polynomials : ℕ → List (P × ℕ)
  liftingQueues : ℕ → Finset ℕ

namespace ProjectionNO

variable {P : Type u}

def init : ProjectionNO P := ⟨fun _ => [], fun _ => [], fun _ => ∅⟩

/-- The polynomials of the levels. -/
def levels (s : ProjectionNO P) (level : ℕ) : Set P := {p | ∃ o, (p, o) ∈ s.polynomials level}

/-- `hasPolynomialById`, `getPolynomialById` -/
def polynomialById (s : ProjectionNO P) (level id : ℕ) : Option P :=
  (s.polynomials level).reverse[id]?.map (·.1)

variable [LinearOrder P]

/-- Inserts a polynomial with the given origin into the given level. -/
def insertPolynomial (level : ℕ) (p : P) (origin : ℕ) (s : ProjectionNO P) : ProjectionNO P :=
  let id := (s.polynomials level).length
  { polynomials := update s.polynomials level ((p, origin) :: s.polynomials level)
    polynomialIDs := update s.polynomialIDs level
      (OrderedMap.emplace p id (s.polynomialIDs level))
    liftingQueues := update s.liftingQueues level (insert id (s.liftingQueues level)) }

/-- Removes the last polynomial from the given level. -/
def removeLast (level : ℕ) (s : ProjectionNO P) : Option (ProjectionNO P) :=
  match s.polynomials level with
  | [] => none
  | (p, _) :: rest =>
    (OrderedMap.find p (s.polynomialIDs level)).map fun id =>
      { polynomials := update s.polynomials level rest
        polynomialIDs := update s.polynomialIDs level
          (OrderedMap.erase p (s.polynomialIDs level))
        liftingQueues := update s.liftingQueues level ((s.liftingQueues level).erase id) }

variable (op : ProjectionOperator P)

/-- Adds a new polynomial to the given level and performs the projection recursively; the first number
is that of the levels above. -/
def addToProjection :
    ℕ → ℕ → P → ℕ → ProjectionNO P → Finset ℕ × ProjectionNO P
  | 0, level, p, origin, s =>
    if op.canBeRemoved p then (∅, s)
    else match OrderedMap.find p (s.polynomialIDs level) with
      | some _ => (∅, s)
      | none => ({level}, s.insertPolynomial level p origin)
  | n + 1, level, p, origin, s =>
    if op.canBeRemoved p then (∅, s)
    else if op.canBeForwarded p then
      addToProjection n (level + 1) (op.switchVariable (level + 1) p) origin s
    else match OrderedMap.find p (s.polynomialIDs level) with
      | some _ => (∅, s)
      | none =>
        let single := forEach (fun np => addToProjection n (level + 1) np origin)
          (op.single (level + 1) p) s
        let paired := forEach (fun it : P × ℕ =>
            forEach (fun np => addToProjection n (level + 1) np (max origin it.2))
              (op.paired (level + 1) p it.1))
          (single.2.polynomials level).reverse single.2
        -- the polynomial is inserted afterwards to avoid pairwise projection with itself
        (insert level (single.1 ∪ paired.1), paired.2.insertPolynomial level p origin)

def addPolynomial (dim : ℕ) (p : P) (cid : ℕ) (s : ProjectionNO P) :
    Finset ℕ × ProjectionNO P :=
  addToProjection op (dim - 1) 1 p cid s

/-- The loop that removes the last polynomials of a level while they stem from the constraint; the list
is that of the polynomials of the level.  The last element of an empty vector is not defined. -/
def removeLoop (level cid : ℕ) : List (P × ℕ) → ProjectionNO P → Option (Finset ℕ × ProjectionNO P)
  | [], _ => none
  | last :: rest, s =>
    if last.2 = cid then
      (removeLast level { s with
        liftingQueues := update s.liftingQueues level
          ((s.liftingQueues level).erase rest.length) }).bind fun s =>
        (removeLoop level cid rest s).map fun r => (insert rest.length r.1, r.2)
    else some (∅, s)

/-- Removes the polynomials of a constraint from a number of levels, and gives the calls of the remove
callback. -/
def removeLevels (cid : ℕ) : ℕ → ℕ → ProjectionNO P →
    Option (List (ℕ × Finset ℕ) × ProjectionNO P)
  | 0, _, s => some ([], s)
  | n + 1, level, s =>
    if s.polynomials level = [] then removeLevels cid n (level + 1) s
    else (removeLoop level cid (s.polynomials level) s).bind fun (removed, s) =>
      (removeLevels cid n (level + 1) s).map fun (calls, s) => ((level, removed) :: calls, s)

def removePolynomial (dim cid : ℕ) (s : ProjectionNO P) :
    Option (List (ℕ × Finset ℕ) × ProjectionNO P) :=
  removeLevels cid dim 1 s

end ProjectionNO

end Smtrat.CAD

namespace Smtrat.CAD

universe u

open Saturation List Function

namespace ProjectionNO

variable {P : Type u}

/-- The polynomials of a level with their ids. -/
def numbering : List (P × ℕ) → List (P × ℕ)
  | [] => []
  | e :: rest => (e.1, rest.length) :: numbering rest

theorem mem_of_mem_numbering {p : P} {id : ℕ} {polynomials : List (P × ℕ)}
    (h : (p, id) ∈ numbering polynomials) : ∃ o, (p, o) ∈ polynomials := by
  induction polynomials with
  | nil => exact absurd h not_mem_nil
  | cons e rest ih =>
    rcases mem_cons.mp h with h | h
    · rw [(Prod.mk.inj h).1]
      exact ⟨e.2, mem_cons_self⟩
    · obtain ⟨o, ho⟩ := ih h
      exact ⟨o, mem_cons_of_mem _ ho⟩

theorem mem_numbering_of_mem {p : P} {o : ℕ} {polynomials : List (P × ℕ)}
    (h : (p, o) ∈ polynomials) : ∃ id, (p, id) ∈ numbering polynomials := by
  induction polynomials with
  | nil => exact absurd h not_mem_nil
  | cons e rest ih =>
    rcases mem_cons.mp h with rfl | h
    · exact ⟨rest.length, mem_cons_self⟩
    · obtain ⟨id, hid⟩ := ih h
      exact ⟨id, mem_cons_of_mem _ hid⟩

/-- The maps and the lifting queue of a level fit its polynomials. -/
structure LevelWF (polynomials ids : List (P × ℕ)) (queue : Finset ℕ) : Prop where
  nodup : (polynomials.map (·.1)).Nodup
  ids : ∀ e, e ∈ ids ↔ e ∈ numbering polynomials
  queue : queue = Finset.range polynomials.length

def WellFormed (s : ProjectionNO P) : Prop :=
  ∀ level, LevelWF (s.polynomials level) (s.polynomialIDs level) (s.liftingQueues level)

theorem wellFormed_init : (init : ProjectionNO P).WellFormed :=
  fun _ => ⟨nodup_nil, fun _ => Iff.rfl, rfl⟩

/-- What is new stems from the constraint. -/
structure Grown (origin : ℕ) [LinearOrder P] (s s' : ProjectionNO P) : Prop where
  suffix : ∀ level, ∃ new, s'.polynomials level = new ++ s.polynomials level ∧
    ∀ e ∈ new, e.2 = origin
  wellFormed : s.WellFormed → s'.WellFormed

/-- The constraint is not older than those of the polynomials. -/
def Latest (s : ProjectionNO P) (origin : ℕ) : Prop := ∀ level, ∀ e ∈ s.polynomials level, e.2 ≤ origin

variable [LinearOrder P] {s s' s'' : ProjectionNO P} {origin level : ℕ} {p : P}

theorem Grown.refl (s : ProjectionNO P) : Grown origin s s where
  suffix _ := ⟨[], rfl, fun _ he => absurd he not_mem_nil⟩
  wellFormed h := h

theorem Grown.trans (h : Grown origin s s') (h' : Grown origin s' s'') : Grown origin s s'' where
  suffix level := by
    obtain ⟨new, hnew, horig⟩ := h.suffix level
    obtain ⟨new', hnew', horig'⟩ := h'.suffix level
    refine ⟨new' ++ new, by rw [hnew', hnew, append_assoc], fun e he => ?_⟩
    rcases mem_append.mp he with he | he
    · exact horig' e he
    · exact horig e he
  wellFormed hs := h'.wellFormed (h.wellFormed hs)

theorem Latest.grown (h : s.Latest origin) (hs : Grown origin s s') : s'.Latest origin := by
  intro level e he
  obtain ⟨new, hnew, horig⟩ := hs.suffix level
  rw [hnew] at he
  rcases mem_append.mp he with he | he
  · exact (horig e he).le
  · exact h level e he

theorem WellFormed.find_eq_none (h : s.WellFormed) :
    OrderedMap.find p (s.polynomialIDs level) = none ↔ p ∉ s.levels level := by
  rw [OrderedMap.find_eq_none]
  constructor
  · rintro hnone ⟨o, ho⟩
    obtain ⟨id, hid⟩ := mem_numbering_of_mem ho
    exact hnone id (((h level).ids _).mpr hid)
  · intro hp id hid
    exact hp (mem_of_mem_numbering (((h level).ids _).mp hid))

/-! ## Inserting -/

theorem levels_insertPolynomial_self (level : ℕ) (p : P) (origin : ℕ) (s : ProjectionNO P) :
    (s.insertPolynomial level p origin).levels level = insert p (s.levels level) := by
  ext q
  rw [levels, insertPolynomial]
  simp only [update_self, mem_cons, Prod.mk.injEq, Set.mem_ofPred_eq,
    Set.mem_insert_iff]
  constructor
  · rintro ⟨o, ⟨rfl, rfl⟩ | ho⟩
    · exact .inl rfl
    · exact .inr ⟨o, ho⟩
  · rintro (rfl | ⟨o, ho⟩)
    · exact ⟨origin, .inl ⟨rfl, rfl⟩⟩
    · exact ⟨o, .inr ho⟩

theorem levels_insertPolynomial_of_ne {k : ℕ} (h : k ≠ level) (p : P) (origin : ℕ)
    (s : ProjectionNO P) : (s.insertPolynomial level p origin).levels k = s.levels k := by
  rw [levels, levels, insertPolynomial]
  dsimp only
  rw [update_of_ne h]

theorem grown_insertPolynomial (hp : p ∉ s.levels level) :
    Grown origin s (s.insertPolynomial level p origin) where
  suffix k := by
    by_cases hk : k = level
    · subst hk
      refine ⟨[(p, origin)], ?_, fun e he => ?_⟩
      · rw [insertPolynomial]
        exact update_self ..
      · rw [mem_singleton.mp he]
    · refine ⟨[], ?_, fun e he => absurd he not_mem_nil⟩
      rw [insertPolynomial]
      exact update_of_ne hk ..
  wellFormed hs k := by
    rw [insertPolynomial]
    dsimp only
    by_cases hk : k = level
    · subst hk
      rw [update_self, update_self, update_self]
      have hnone := hs.find_eq_none.mpr hp
      exact
        { nodup := by
            rw [map_cons, nodup_cons]
            refine ⟨fun hmem => ?_, (hs k).nodup⟩
            obtain ⟨e, he, heq⟩ := mem_map.mp hmem
            exact hp ⟨e.2, (show e.1 = p from heq) ▸ he⟩
          ids := by
            intro e
            rw [OrderedMap.mem_emplace_iff hnone, numbering, mem_cons, (hs k).ids]
          queue := by
            rw [(hs k).queue, length_cons, Finset.range_add_one] }
    · rw [update_of_ne hk, update_of_ne hk, update_of_ne hk]
      exact hs k

/-! ## The projection -/

section Projection

variable (op : ProjectionOperator P) {dim : ℕ}

variable {op}

theorem added_known {id : ℕ} (hs : s.WellFormed)
    (hpl : (op.forwarding dim).place level p = some (level, p))
    (hfind : OrderedMap.find p (s.polynomialIDs level) = some id) :
    Added (op.forwarding dim) level {p} s.levels s.levels ∧ Grown origin s s := by
  have hmem : p ∈ s.levels level := by
    by_contra hnot
    exact nomatch hfind.symm.trans (hs.find_eq_none.mpr hnot)
  exact ⟨Added.of_placed ((placed_iff hpl).mpr hmem), Grown.refl s⟩

/-- A new polynomial is stored after what it sends on. -/
theorem added_new (hpl : (op.forwarding dim).place level p = some (level, p))
    (hnot : p ∉ s.levels level) (hadded : Added (op.forwarding dim) (level + 1)
      (sent (op.forwarding dim) level p (s.levels level)) s.levels s'.levels)
    (hgrown : Grown origin s s') :
    Added (op.forwarding dim) level {p} s.levels (s'.insertPolynomial level p origin).levels ∧
      Grown origin s (s'.insertPolynomial level p origin) := by
  refine ⟨hadded.put hpl hnot (levels_insertPolynomial_self ..)
    fun k hk => levels_insertPolynomial_of_ne hk .., hgrown.trans (grown_insertPolynomial ?_)⟩
  rwa [hadded.below level (Nat.lt_succ_self level)]

variable (op)

/-- The recursion adds the polynomial and what can be projected from it. -/
theorem addToProjection_spec {n : ℕ} (hn : n + level = dim) (hs : s.WellFormed)
    (horig : s.Latest origin) :
    Added (op.forwarding dim) level {p} s.levels (addToProjection op n level p origin s).2.levels ∧
      Grown origin s (addToProjection op n level p origin s).2 := by
  induction n generalizing level p s with
  | zero =>
    obtain rfl : level = dim := by omega
    have hpl := op.forwarding_place_dim level p
    rw [addToProjection]
    split_ifs with hrem
    · rw [if_pos hrem] at hpl
      exact ⟨Added.of_placed (Placed.of_none hpl), Grown.refl s⟩
    · rw [if_neg hrem] at hpl
      cases hfind : OrderedMap.find p (s.polynomialIDs level) with
      | some id => exact added_known hs hpl hfind
      | none =>
        refine added_new hpl (hs.find_eq_none.mp hfind) ?_ (Grown.refl s)
        rw [sent_last (show (op.forwarding level).dim ≤ level from le_rfl)]
        exact Added.refl _ _
  | succ n ih =>
    have hnext : n + (level + 1) = dim := by omega
    have hpl := op.forwarding_place_of_lt (show level < dim by omega) p
    rw [addToProjection]
    split_ifs with hrem hfwd
    · rw [if_pos hrem] at hpl
      exact ⟨Added.of_placed (Placed.of_none hpl), Grown.refl s⟩
    · rw [if_neg hrem, if_pos hfwd] at hpl
      obtain ⟨hadded, hgrown⟩ := ih hnext hs horig
      exact ⟨hadded.forward hpl, hgrown⟩
    · rw [if_neg hrem, if_neg hfwd] at hpl
      cases hfind : OrderedMap.find p (s.polynomialIDs level) with
      | some id => exact added_known hs hpl hfind
      | none =>
        dsimp only
        obtain ⟨hadded, hgrown⟩ := loops_added (π := op.forwarding dim) (show level < dim by omega) p
          levels Grown.refl (fun _ _ _ => Grown.trans) s
          (fun np => addToProjection op n (level + 1) np origin)
          (fun it np => addToProjection op n (level + 1) np (max origin it.2))
          (fun s' => (s'.polynomials level).reverse) (fun it => it.1) (fun s' q => by simp [levels])
          (fun np s' hs' => ih hnext (hs'.wellFormed hs) (horig.grown hs'))
          fun s₁ hs₁ it hit np s' hs' => by
            rw [max_eq_left (horig.grown hs₁ level it (mem_reverse.mp hit))]
            exact ih hnext (hs'.wellFormed hs) (horig.grown hs')
        exact added_new hpl (hs.find_eq_none.mp hfind) hadded hgrown

end Projection

end ProjectionNO

end Smtrat.CAD
