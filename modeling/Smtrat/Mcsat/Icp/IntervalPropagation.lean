import Smtrat.Datastructures.BoundDeductions

/-!
# Interval propagation

The constraints are contracted to intervals until these exclude the model.  The constraints that the
interval of a variable depends on are kept, so that they explain why it is excluded.
-/

namespace Smtrat.Mcsat.Icp

open SparsePoly VB VB.VariableBounds List Function Option

universe u

variable {V : Type u}

/-! ## Dependencies -/

/-- `Dependencies`; the position of a constraint is its id. -/
structure Dependencies (V : Type u) where
  mConstraints : List (Constraint V)
  mData : V → Finset ℕ

namespace Dependencies

/-- The negated constraints that `v` depends on, in the order of their ids. -/
def get (d : Dependencies V) (v : V) : List (Constraint V) :=
  (d.mConstraints.zipIdx.filter (·.2 ∈ d.mData v)).map (·.1.negation)

/-- The constraint is one that `v` depends on. -/
def On (d : Dependencies V) (v : V) (c : Constraint V) : Prop :=
  ∃ i ∈ d.mData v, d.mConstraints[i]? = some c

variable {d : Dependencies V} {v w : V} {c c' l : Constraint V} {used : List V}

theorem On.mem (h : d.On v c) : c ∈ d.mConstraints :=
  let ⟨_, _, hi⟩ := h
  mem_of_getElem? hi

theorem mem_get : l ∈ d.get v ↔ ∃ c, d.On v c ∧ l = c.negation := by
  rw [get, List.mem_map]
  constructor
  · rintro ⟨⟨c, i⟩, hc, rfl⟩
    obtain ⟨hc, hi⟩ := mem_filter.mp hc
    exact ⟨c, ⟨i, of_decide_eq_true hi, mem_zipIdx_iff_getElem?.mp hc⟩, rfl⟩
  · rintro ⟨c, ⟨i, hi, hc⟩, rfl⟩
    exact ⟨(c, i), mem_filter.mpr ⟨mem_zipIdx_iff_getElem?.mpr hc, decide_eq_true hi⟩, rfl⟩

theorem mem_foldl_union {data : V → Finset ℕ} {bs : Finset ℕ} {i : ℕ} :
    i ∈ used.foldl (fun bs u => bs ∪ data u) bs ↔ i ∈ bs ∨ ∃ u ∈ used, i ∈ data u := by
  induction used generalizing bs with
  | nil => simp
  | cons u used ih =>
    simp only [foldl_cons, ih, Finset.mem_union, exists_mem_cons_iff]
    tauto

variable [DecidableEq V]

def get_constraint_id (d : Dependencies V) (c : Constraint V) : ℕ × Dependencies V :=
  (d.mConstraints.idxOf c,
    if c ∈ d.mConstraints then d else { d with mConstraints := d.mConstraints ++ [c] })

/-- What `v` depends on already is not lost if it is used itself. -/
def add (d : Dependencies V) (v : V) (c : Constraint V) (used : List V) : Dependencies V :=
  let (id, d) := d.get_constraint_id c
  let bs := used.foldl (fun bs used_var => bs ∪ d.mData used_var) (insert id (d.mData v))
  { d with mData := update d.mData v bs }


/-- The ids stay what they are. -/
theorem get_constraint_id_spec : d.mConstraints <+: (d.get_constraint_id c).2.mConstraints ∧
    (d.get_constraint_id c).2.mConstraints[(d.get_constraint_id c).1]? = some c ∧
    (d.get_constraint_id c).2.mConstraints ⊆ c :: d.mConstraints ∧
    (d.get_constraint_id c).2.mData = d.mData := by
  rw [get_constraint_id]
  split_ifs with hc
  · exact ⟨prefix_rfl, List.getElem?_idxOf hc, subset_cons_self _ _, rfl⟩
  · refine ⟨prefix_append _ _, ?_, ?_, rfl⟩
    · simp [List.idxOf_eq_length hc]
    · intro c' hc'
      simpa [or_comm] using hc'

/-- What `v` depends on after a contraction: the constraint, and what its variables depend on. -/
theorem on_add (h : d.On w c' ∨ w = v ∧ (c' = c ∨ ∃ u ∈ used, d.On u c')) :
    (d.add v c used).On w c' := by
  obtain ⟨⟨_, happend⟩, hid, -, hdata⟩ := d.get_constraint_id_spec (c := c)
  have hkept : ∀ {u c'}, d.On u c' → ∃ i ∈ (d.get_constraint_id c).2.mData u,
      (d.get_constraint_id c).2.mConstraints[i]? = some c' := by
    rintro u c' ⟨i, hi, hc'⟩
    refine ⟨i, hdata ▸ hi, ?_⟩
    rw [← happend, getElem?_append_left (List.getElem?_eq_some_iff.mp hc').1, hc']
  by_cases hwv : w = v
  · subst hwv
    have hnew : (d.add w c used).On w c' ↔ ∃ i ∈ used.foldl
        (fun bs u => bs ∪ (d.get_constraint_id c).2.mData u)
        (insert (d.get_constraint_id c).1 ((d.get_constraint_id c).2.mData w)),
        (d.get_constraint_id c).2.mConstraints[i]? = some c' := by
      simp [On, add]
    rw [hnew]
    simp only [mem_foldl_union, Finset.mem_insert]
    rcases h with h | ⟨-, rfl | ⟨u, hu, h⟩⟩
    · obtain ⟨i, hi, hc'⟩ := hkept h
      exact ⟨i, .inl (.inr hi), hc'⟩
    · exact ⟨_, .inl (.inl rfl), hid⟩
    · obtain ⟨i, hi, hc'⟩ := hkept h
      exact ⟨i, .inr ⟨u, hu, hi⟩, hc'⟩
  · obtain ⟨i, hi, hc'⟩ := hkept (h.resolve_right fun h => hwv h.1)
    exact ⟨i, by simpa [add, update_of_ne hwv] using hi, hc'⟩

theorem mem_add (h : c' ∈ (d.add v c used).mConstraints) : c' = c ∨ c' ∈ d.mConstraints :=
  mem_cons.mp (d.get_constraint_id_spec.2.2.1 h)

end Dependencies

/-! ## Intervals -/

/-- `carl::Contractor`, for a constraint and one of its variables, and `carl::sample_stern_brocot`, for
the ends of an interval. -/
structure Library (V : Type u) where
  dependees : Constraint V → V → List V
  contract : Constraint V → V → (V → Interval) → List Interval
  sample_stern_brocot : ℚ → ℚ → ℚ

/-- The intervals are not empty, and from left to right. -/
structure InOrder (intervals : List Interval) : Prop where
  sorted : intervals.Pairwise fun i j => ∀ r s, i.Contains r → j.Contains s → r ≤ s
  nonempty : ∀ i ∈ intervals, ∃ r, i.Contains r

/-- Contractions lose no solutions, and their intervals are part of the box and in order. -/
structure Library.Sound (lib : Library V) : Prop where
  contract : ∀ c v box (α : V → ℝ), c.Sat α →
    (∀ u ∈ lib.dependees c v, (box u).Contains (α u)) → (box v).Contains (α v) →
    ∃ i ∈ lib.contract c v box, i.Contains (α v)
  within : ∀ c v box, ∀ i ∈ lib.contract c v box, ∀ r, i.Contains r → (box v).Contains r
  inOrder : ∀ c v box, (∀ u, ∃ r, (box u).Contains r) → InOrder (lib.contract c v box)
  sample : ∀ l u, l ≤ u → l ≤ lib.sample_stern_brocot l u ∧ lib.sample_stern_brocot l u ≤ u

/-- `operator<` of `carl::LowerBound` -/
def lowerLt : Option (ℚ × Bool) → Option (ℚ × Bool) → Bool
  | _, none => false
  | none, some _ => true
  | some (l, strict), some (m, strict') => l < m || (l = m && !strict && strict')

/-- `operator<` of `carl::UpperBound` -/
def upperLt : Option (ℚ × Bool) → Option (ℚ × Bool) → Bool
  | none, _ => false
  | some _, none => true
  | some (l, strict), some (m, strict') => l < m || (l = m && strict && !strict')

/-- `val < cur` -/
def isBelow (val : ℚ) (cur : Interval) : Bool :=
  cur.lower.any fun l => if l.2 then val ≤ l.1 else val < l.1

def contains (cur : Interval) (val : ℚ) : Bool :=
  cur.lower.all (fun l => if l.2 then l.1 < val else l.1 ≤ val) &&
    cur.upper.all fun u => if u.2 then val < u.1 else val ≤ u.1

/-- An end, which does not matter if it is infinite. -/
def limit (bound : Option (ℚ × Bool)) : ℚ := (bound.map (·.1)).getD 0

def diameter (i : Interval) : ℚ := limit i.upper - limit i.lower

def threshold_priority : ℚ := 1 / 10

def threshold_width : ℚ := 1 / 10

/-! ## Propagation -/

/-- `QueueEntry` -/
structure QueueEntry (V : Type u) where
  priority : ℚ
  var : V
  origin : Constraint V

/-- What a contraction changes of `IntervalPropagation`. -/
structure State (V : Type u) where
  mBox : V → Interval
  mDependencies : Dependencies V

def initial : State V := ⟨fun _ => ⟨none, none⟩, ⟨[], fun _ => ∅⟩⟩

variable (lib : Library V)

def sample_small_rational (lower upper : ℚ) (side : ℤ) : ℚ :=
  let absside : ℚ := side.natAbs
  if side < 0 then
    lib.sample_stern_brocot (lower * absside / absside) ((lower * (absside - 1) + upper) / absside)
  else
    lib.sample_stern_brocot ((lower + upper * (absside - 1)) / absside) (upper * absside / absside)

/-- The interval after a contraction to the intervals from `front` to `back`. -/
def contracted (cur front back : Interval) : Interval :=
  let cur := if lowerLt cur.lower front.lower then ⟨front.lower, cur.upper⟩ else cur
  if upperLt back.upper cur.upper then ⟨cur.lower, back.upper⟩ else cur

/-- The factor that `update_model` returns. -/
def contractionFactor (old cur : Interval) : ℚ :=
  if old.lower.isNone && old.upper.isNone then
    if cur.lower.isNone && cur.upper.isNone then 0 else 1
  else if old.lower.isNone || old.upper.isNone then
    if cur.lower.isNone || cur.upper.isNone then
      if limit old.lower < limit cur.lower ∨ limit cur.upper < limit old.upper then
        threshold_priority / 2
      else 0
    else 1
  else (diameter old - diameter cur) / diameter old

/-- The loop of `find_excluded_interval`: the ends next to a value that is not admissible. -/
def nextEnds (val : ℚ) : List Interval → Option ℚ → Option (Option ℚ × Option ℚ)
  | [], lower => some (lower, none)
  | cur :: admissible, lower =>
    if isBelow val cur then some (lower, cur.lower.map (·.1))
    else if contains cur val then none
    else nextEnds val admissible (cur.upper.map (·.1))

/-- The literals of the excluding disjunction. -/
def excluding (v : V) (val : ℚ) (lower upper : Option ℚ) : List (Constraint V) :=
  (lower.map fun l => limitConstraint v (sample_small_rational lib l val (-100)) .leq).toList ++
    (upper.map fun u => limitConstraint v (sample_small_rational lib val u 100) .geq).toList

/-- The model is given by the values that are rational. -/
def find_excluded_interval (mModel : V → Option ℚ) (v : V) (admissible : List Interval) :
    Option (List (Constraint V)) :=
  (mModel v).bind fun val => (nextEnds val admissible none).bind fun (lower, upper) =>
    if lower.isSome || upper.isSome then some (excluding lib v val lower upper) else none

/-! ## Conditions -/

/-- The intervals have the same ends, which may be strict in one of them only. -/
def SameLimits (i j : Interval) : Prop :=
  i.lower.map (·.1) = j.lower.map (·.1) ∧ i.upper.map (·.1) = j.upper.map (·.1)

instance (i j : Interval) : Decidable (SameLimits i j) := inferInstanceAs (Decidable (_ ∧ _))

/-- No interval has `val` as an end but does not contain it, unless another one does. -/
def EndsAvoided (val : ℚ) (admissible : List Interval) : Prop :=
  (∃ i ∈ admissible, contains i val) ∨
    ∀ i ∈ admissible, i.lower ≠ some (val, true) ∧ i.upper ≠ some (val, true)

instance (val : ℚ) (admissible : List Interval) : Decidable (EndsAvoided val admissible) :=
  inferInstanceAs (Decidable (_ ∨ _))

/-! ## Ends -/

/-- A lower bound holds. -/
def Above (bound : Option (ℚ × Bool)) (r : ℝ) : Prop :=
  ∀ l strict, bound = some (l, strict) → if strict then (l : ℝ) < r else (l : ℝ) ≤ r

/-- An upper bound holds. -/
def Below (bound : Option (ℚ × Bool)) (r : ℝ) : Prop :=
  ∀ u strict, bound = some (u, strict) → if strict then r < (u : ℝ) else r ≤ (u : ℝ)

section Ends

variable {lib} {val : ℚ} {i cur old front back : Interval} {intervals : List Interval} {r s : ℝ}
  {bound : Option (ℚ × Bool)}

theorem Above.mono (h : Above bound r) (hle : r ≤ s) : Above bound s := by
  intro l strict hl
  have hr := h l strict hl
  cases strict
  · exact le_trans hr hle
  · exact lt_of_lt_of_le hr hle

theorem Below.mono (h : Below bound s) (hle : r ≤ s) : Below bound r := by
  intro u strict hu
  have hs := h u strict hu
  cases strict
  · exact le_trans hle hs
  · exact lt_of_le_of_lt hle hs

theorem Above.le {strict : Bool} (h : Above bound r) (hl : bound = some (val, strict)) : val ≤ r := by
  have hr := h val strict hl
  cases strict
  · exact hr
  · exact le_of_lt hr

theorem Below.le {strict : Bool} (h : Below bound r) (hu : bound = some (val, strict)) : r ≤ val := by
  have hr := h val strict hu
  cases strict
  · exact hr
  · exact le_of_lt hr

theorem contains_iff : contains i val = true ↔ i.Contains (val : ℝ) := by
  obtain ⟨_ | ⟨l, strict⟩, _ | ⟨u, strict'⟩⟩ := i <;>
    simp [contains, Interval.Contains]

/-- The ends that `nextEnds` passes. -/
theorem above_of_not (hbelow : isBelow val i = false) (hcont : contains i val = false) :
    ∃ u strict, i.upper = some (u, strict) ∧ if strict then u ≤ val else u < val := by
  obtain ⟨_ | ⟨l, strict⟩, _ | ⟨u, strict'⟩⟩ := i <;>
    simp [contains, isBelow] at hbelow hcont ⊢ <;> grind

/-- The front bounds all intervals from below. -/
theorem InOrder.above (h : InOrder (front :: intervals)) (hi : i ∈ front :: intervals)
    (hr : i.Contains r) : Above front.lower r := by
  obtain ⟨s, hs⟩ := h.nonempty front mem_cons_self
  rcases mem_cons.mp hi with rfl | hi
  · exact hr.1
  · exact Above.mono hs.1 (rel_of_pairwise_cons h.sorted hi s r hs hr)

/-- The back bounds all intervals from above. -/
theorem InOrder.below (h : InOrder (front :: intervals)) (hi : i ∈ front :: intervals)
    (hr : i.Contains r) : Below (intervals.getLast?.getD front).upper r := by
  induction intervals generalizing front i r with
  | nil =>
    obtain rfl := mem_singleton.mp hi
    exact hr.2
  | cons j js ih =>
    have hrest : InOrder (j :: js) := ⟨h.sorted.of_cons, fun k hk =>
      h.nonempty k (mem_cons_of_mem _ hk)⟩
    rw [List.getLast?_cons, getD_some]
    rcases mem_cons.mp hi with rfl | hi
    · obtain ⟨s, hs⟩ := hrest.nonempty j mem_cons_self
      exact Below.mono (ih hrest mem_cons_self hs)
        (rel_of_pairwise_cons h.sorted mem_cons_self r s hr hs)
    · exact ih hrest hi hr

/-- A contraction does not cut off what is in the old box and in one of the intervals. -/
theorem contracted_contains (hold : old.Contains r) (hfront : Above front.lower r)
    (hback : Below back.upper r) : (contracted old front back).Contains r := by
  rw [contracted]
  split_ifs
  · exact ⟨hfront, hback⟩
  · exact ⟨hfront, hold.2⟩
  · exact ⟨hold.1, hback⟩
  · exact hold

/-- The ends are those of the old box or larger, and smaller. -/
theorem contracted_ends : ((contracted old front back).lower = old.lower ∨
      lowerLt old.lower (contracted old front back).lower = true) ∧
    ((contracted old front back).upper = old.upper ∨
      upperLt (contracted old front back).upper old.upper = true) := by
  rw [contracted]
  split_ifs with hlow hup hup
  · exact ⟨.inr hlow, .inr hup⟩
  · exact ⟨.inr hlow, .inl rfl⟩
  · exact ⟨.inl rfl, .inr hup⟩
  · exact ⟨.inl rfl, .inl rfl⟩

/-- A contraction that moves an end has a positive factor. -/
theorem sameLimits_of_factor (hlow : cur.lower = old.lower ∨ lowerLt old.lower cur.lower = true)
    (hup : cur.upper = old.upper ∨ upperLt cur.upper old.upper = true) (hcur : cur.Contains r)
    (hfac : ¬ 0 < contractionFactor old cur) : SameLimits old cur := by
  obtain ⟨_ | ⟨l, _⟩, _ | ⟨u, _⟩⟩ := old <;> obtain ⟨_ | ⟨l', _⟩, _ | ⟨u', _⟩⟩ := cur <;>
    simp [lowerLt, upperLt, contractionFactor, SameLimits, limit, diameter, threshold_priority] at *
  case none.some.none.some => split_ifs at hfac <;> grind
  case some.none.some.none => split_ifs at hfac <;> grind
  case some.some.some.some =>
    have hle : l' ≤ u' := by exact_mod_cast (Above.le hcur.1 rfl).trans (Below.le hcur.2 rfl)
    have hl : l ≤ l' := by grind
    have hu : u' ≤ u := by grind
    by_contra hne
    have hlt : u' - l' < u - l := by grind
    have hpos : 0 < u - l := by linarith
    exact absurd (div_pos (sub_pos.mpr hlt) hpos) (not_lt.mpr hfac)

/-! ## Excluded values -/

theorem lt_of_isBelow (h : isBelow val i = true) : ∃ l strict, i.lower = some (l, strict) ∧
    (if strict then val ≤ l else val < l) ∧ ∀ r, i.Contains r → (l : ℝ) ≤ r ∧ (val : ℝ) < r := by
  obtain ⟨⟨l, strict⟩, hl, hval⟩ := (Option.any_eq_true _ _).mp h
  refine ⟨l, strict, hl, by cases strict <;> simpa using hval, fun r hr => ?_⟩
  have hlow := hr.1 l strict hl
  cases strict
  · have hcast : (val : ℝ) < l := by exact_mod_cast (by simpa using hval : val < l)
    exact ⟨hlow, lt_of_lt_of_le hcast hlow⟩
  · have hcast : (val : ℝ) ≤ l := by exact_mod_cast (by simpa using hval : val ≤ l)
    exact ⟨le_of_lt hlow, lt_of_le_of_lt hcast hlow⟩

/-- The ends lie around the value, and all intervals are beyond them.  They meet the value only where
an interval excludes its end. -/
theorem nextEnds_spec {lower lo up : Option ℚ} (h : nextEnds val intervals lower = some (lo, up))
    (hin : InOrder intervals) :
    (∀ i ∈ intervals, ∀ r, i.Contains r →
      (∃ l, lo = some l ∧ r ≤ (l : ℝ)) ∨ ∃ u, up = some u ∧ (u : ℝ) ≤ r) ∧
    (lo = lower ∨ ∃ i ∈ intervals, ∃ l strict, lo = some l ∧ i.upper = some (l, strict) ∧
      if strict then l ≤ val else l < val) ∧
    (up = none ∨ ∃ i ∈ intervals, ∃ u strict, up = some u ∧ i.lower = some (u, strict) ∧
      if strict then val ≤ u else val < u) ∧
    ∀ i ∈ intervals, contains i val = false := by
  induction intervals generalizing lower with
  | nil =>
    obtain ⟨rfl, rfl⟩ := Prod.mk.inj (some.inj h)
    exact ⟨nofun, .inl rfl, .inl rfl, nofun⟩
  | cons i is ih =>
    have hafter : ∀ j ∈ is, ∀ r s, i.Contains r → j.Contains s → r ≤ s :=
      fun j hj => rel_of_pairwise_cons hin.sorted hj
    obtain ⟨s, hs⟩ := hin.nonempty i mem_cons_self
    rw [nextEnds] at h
    split_ifs at h with hbelow hcont
    · obtain ⟨rfl, rfl⟩ := Prod.mk.inj (some.inj h)
      obtain ⟨l, strict, hl, hval, hlt⟩ := lt_of_isBelow hbelow
      have hall : ∀ j ∈ i :: is, ∀ r, j.Contains r → (l : ℝ) ≤ r ∧ (val : ℝ) < r := by
        intro j hj r hr
        rcases mem_cons.mp hj with rfl | hj
        · exact hlt r hr
        · have hle := hafter j hj s r hs hr
          exact ⟨(hlt s hs).1.trans hle, (hlt s hs).2.trans_le hle⟩
      refine ⟨fun j hj r hr => .inr ⟨l, by rw [hl]; rfl, (hall j hj r hr).1⟩, .inl rfl,
        .inr ⟨i, mem_cons_self, l, strict, by rw [hl]; rfl, hl, hval⟩, fun j hj => ?_⟩
      exact Bool.eq_false_iff.mpr fun hc => lt_irrefl _ (hall j hj val (contains_iff.mp hc)).2
    · have hnot : contains i val = false := Bool.eq_false_iff.mpr hcont
      obtain ⟨u, strict, hu, hval⟩ := above_of_not (Bool.eq_false_iff.mpr hbelow) hnot
      rw [hu] at h
      obtain ⟨hbeyond, hlo, hup, hexcl⟩ := ih h ⟨hin.sorted.of_cons, fun j hj =>
        hin.nonempty j (mem_cons_of_mem i hj)⟩
      have hlo' : ∃ j ∈ i :: is, ∃ l strict, lo = some l ∧ j.upper = some (l, strict) ∧
          (if strict then l ≤ val else l < val) ∧ ∀ r, i.Contains r → r ≤ (l : ℝ) := by
        rcases hlo with hlo | ⟨j, hj, l, strict', hlo, hl, hlt⟩
        · refine ⟨i, mem_cons_self, u, strict, hlo, hu, hval, fun r hr => ?_⟩
          exact Below.le hr.2 hu
        · refine ⟨j, mem_cons_of_mem i hj, l, strict', hlo, hl, hlt, fun r hr => ?_⟩
          obtain ⟨t, ht⟩ := hin.nonempty j (mem_cons_of_mem i hj)
          exact (hafter j hj r t hr ht).trans (Below.le ht.2 hl)
      obtain ⟨j, hj, l, strict', hl, hend, hlt, hi⟩ := hlo'
      refine ⟨fun k hk r hr => ?_, .inr ⟨j, hj, l, strict', hl, hend, hlt⟩, ?_, ?_⟩
      · rcases mem_cons.mp hk with rfl | hk
        · exact .inl ⟨l, hl, hi r hr⟩
        · exact hbeyond k hk r hr
      · exact hup.imp_right fun ⟨k, hk, hrest⟩ => ⟨k, mem_cons_of_mem i hk, hrest⟩
      · exact forall_mem_cons.mpr ⟨hnot, hexcl⟩

/-- The limits that are sampled lie between the end and the value, next to the end. -/
theorem sample_small_rational_spec (hlib : lib.Sound) {l u : ℚ} (h : l ≤ u) :
    (l ≤ sample_small_rational lib l u (-100) ∧
      (l < u → sample_small_rational lib l u (-100) < u)) ∧
    sample_small_rational lib l u 100 ≤ u ∧ (l < u → l < sample_small_rational lib l u 100) := by
  have hbelow := hlib.sample l ((l * 99 + u) / 100) (by linarith)
  have habove := hlib.sample ((l + u * 99) / 100) u (by linarith)
  have heq : sample_small_rational lib l u (-100) =
      lib.sample_stern_brocot l ((l * 99 + u) / 100) := by
    norm_num [sample_small_rational]
  have heq' : sample_small_rational lib l u 100 =
      lib.sample_stern_brocot ((l + u * 99) / 100) u := by
    norm_num [sample_small_rational]
  rw [heq, heq']
  exact ⟨⟨hbelow.1, fun hlt => by linarith⟩, habove.2, fun hlt => by linarith⟩

/-- The disjunction holds wherever an interval does.  It is false in the model unless the value is an
end that an interval excludes. -/
theorem find_excluded_interval_spec {mModel : V → Option ℚ} (hlib : lib.Sound) {v : V}
    {excluded : List (Constraint V)} (hin : InOrder intervals)
    (h : find_excluded_interval lib mModel v intervals = some excluded) :
    (∀ i ∈ intervals, ∀ α : V → ℝ, i.Contains (α v) → ∃ l ∈ excluded, l.Sat α) ∧
    ((mModel v).all (fun val => EndsAvoided val intervals) →
      ∀ l ∈ excluded, ∀ α : V → ℝ, (∀ v q, mModel v = some q → α v = q) → ¬ l.Sat α) := by
  obtain ⟨val, hval, h⟩ := bind_eq_some_iff.mp h
  obtain ⟨⟨lo, up⟩, hends, h⟩ := bind_eq_some_iff.mp h
  obtain ⟨-, heq⟩ := ite_none_right_eq_some.mp h
  obtain rfl := some.inj heq
  obtain ⟨hbeyond, hlo, hup, hexcl⟩ := nextEnds_spec hends hin
  have havoided : EndsAvoided val intervals →
      ∀ i ∈ intervals, i.lower ≠ some (val, true) ∧ i.upper ≠ some (val, true) := by
    refine fun hends => hends.resolve_left ?_
    rintro ⟨j, hj, hc⟩
    exact absurd hc (by rw [hexcl j hj]; exact Bool.false_ne_true)
  have hle : ∀ l, lo = some l → l ≤ val ∧ (EndsAvoided val intervals → l < val) := by
    intro l hl
    obtain ⟨i, hi, l', strict, hl', hend, hlt⟩ := hlo.resolve_left (by simp [hl])
    obtain rfl := some.inj (hl.symm.trans hl')
    cases strict with
    | false => exact ⟨le_of_lt hlt, fun _ => hlt⟩
    | true => exact ⟨hlt, fun hends => lt_of_le_of_ne hlt fun heq => (havoided hends i hi).2 (heq ▸ hend)⟩
  have hge : ∀ u, up = some u → val ≤ u ∧ (EndsAvoided val intervals → val < u) := by
    intro u hu
    obtain ⟨i, hi, u', strict, hu', hend, hlt⟩ := hup.resolve_left (by simp [hu])
    obtain rfl := some.inj (hu.symm.trans hu')
    cases strict with
    | false => exact ⟨le_of_lt hlt, fun _ => hlt⟩
    | true => exact ⟨hlt, fun hends => lt_of_le_of_ne hlt fun heq => (havoided hends i hi).1 (heq ▸ hend)⟩
  simp only [excluding, mem_append, Option.mem_toList, map_eq_some_iff]
  constructor
  · intro i hi α hα
    rcases hbeyond i hi _ hα with ⟨l, hl, hr⟩ | ⟨u, hu, hr⟩
    · refine ⟨_, .inl ⟨l, hl, rfl⟩, (sat_limitConstraint _ _ _ _).mpr ?_⟩
      have hsmp := (sample_small_rational_spec hlib (hle l hl).1).1.1
      exact hr.trans (by exact_mod_cast hsmp)
    · refine ⟨_, .inr ⟨u, hu, rfl⟩, (sat_limitConstraint _ _ _ _).mpr ?_⟩
      have hsmp := (sample_small_rational_spec hlib (hge u hu).1).2.1
      exact ge_trans hr (by exact_mod_cast hsmp)
  · intro hends l hl α hα hsat
    have hends : EndsAvoided val intervals := by simpa [hval] using hends
    rcases hl with ⟨l, hl, rfl⟩ | ⟨u, hu, rfl⟩
    · have hsmp := (sample_small_rational_spec hlib (hle l hl).1).1.2 ((hle l hl).2 hends)
      have hsat := (sat_limitConstraint _ _ _ _).mp hsat
      rw [hα v val hval] at hsat
      exact absurd hsat (not_le.mpr (by exact_mod_cast hsmp))
    · have hsmp := (sample_small_rational_spec hlib (hge u hu).1).2.2 ((hge u hu).2 hends)
      have hsat := (sat_limitConstraint _ _ _ _).mp hsat
      rw [hα v val hval] at hsat
      exact absurd hsat (not_le.mpr (by exact_mod_cast hsmp))

end Ends

/-! ## Rounds -/

variable [DecidableEq V] (mModel : V → Option ℚ)

/-- One round of the loop over the contractors, which may return a clause. -/
def contractWith (c : QueueEntry V) (s : State V) :
    Except (List (Constraint V)) (Bool × QueueEntry V × State V) :=
  let mDependencies := s.mDependencies.add c.var c.origin (lib.dependees c.origin c.var)
  match lib.contract c.origin c.var s.mBox with
  | [] => .error (mDependencies.get c.var)
  | front :: res =>
    match find_excluded_interval lib mModel c.var (front :: res) with
    | some excluded => .error (mDependencies.get c.var ++ excluded)
    | none =>
      let cur := contracted (s.mBox c.var) front (res.getLast?.getD front)
      let factor := contractionFactor (s.mBox c.var) cur
      .ok (0 < factor, { c with priority := 1 / 2 * c.priority + factor * (1 - c.priority) },
        { mBox := update s.mBox c.var cur
          mDependencies := if 0 < factor then mDependencies else s.mDependencies })

/-- The loop over the contractors. -/
def contractAll : List (QueueEntry V) → State V →
    Except (List (Constraint V)) (Bool × List (QueueEntry V) × State V)
  | [], s => .ok (false, [], s)
  | c :: cs, s =>
    match contractWith lib mModel c s with
    | .error clause => .error clause
    | .ok (contracted, c, s) =>
      match contractAll cs s with
      | .error clause => .error clause
      | .ok (contracted', cs, s) => .ok (contracted || contracted', c :: cs, s)

/-- Whether the outer loop goes on. -/
def goesOn (vars : List V) (mContractors : List (QueueEntry V)) (s : State V) : Bool :=
  mContractors.any (fun qe => threshold_priority < qe.priority) && !vars.any fun v =>
    (s.mBox v).lower.isSome && (s.mBox v).upper.isSome && diameter (s.mBox v) < threshold_width

def executeLoop (vars : List V) : ℕ → List (QueueEntry V) → State V →
    Option (Option (List (Constraint V)))
  | 0, _, _ => none
  | fuel + 1, mContractors, s =>
    if goesOn vars mContractors s then
      match contractAll lib mModel mContractors s with
      | .error clause => some (some clause)
      | .ok (contracted, mContractors, s) =>
        if contracted then executeLoop vars fuel mContractors s else some none
    else some none

/-- The contractors of the constructor. -/
def contractors (constraints : List (Constraint V)) : List (QueueEntry V) :=
  (constraints.filter (·.relation ≠ .neq)).flatMap fun c =>
    (Poly.variables c.lhs).dedup.map fun v => ⟨1, v, c⟩

/-- `execute`: `none` means that it has not come to an end with so many rounds. -/
def execute (vars : List V) (constraints : List (Constraint V)) (fuel : ℕ) :
    Option (Option (List (Constraint V))) :=
  executeLoop lib mModel vars fuel (contractors constraints) initial

/-- The value in the model is no end that a contraction excludes, and the interval is the same if its
limits are. -/
def careful (c : QueueEntry V) (s : State V) : Bool :=
  match lib.contract c.origin c.var s.mBox with
  | [] => true
  | front :: res =>
    let cur := contracted (s.mBox c.var) front (res.getLast?.getD front)
    (mModel c.var).all (fun val => EndsAvoided val (front :: res)) &&
      (!SameLimits (s.mBox c.var) cur || cur = s.mBox c.var)

/-- The contractions of a round are careful. -/
def carefulAll : List (QueueEntry V) → State V → Bool
  | [], _ => true
  | c :: cs, s => careful lib mModel c s && match contractWith lib mModel c s with
    | .error _ => true
    | .ok (_, _, s) => carefulAll cs s

def carefulLoop (vars : List V) : ℕ → List (QueueEntry V) → State V → Bool
  | 0, _, _ => true
  | fuel + 1, mContractors, s => !goesOn vars mContractors s ||
    carefulAll lib mModel mContractors s && match contractAll lib mModel mContractors s with
    | .error _ => true
    | .ok (contracted, mContractors, s) => !contracted || carefulLoop vars fuel mContractors s

/-- All contractions of a run are careful. -/
def carefulRun (vars : List V) (constraints : List (Constraint V)) (fuel : ℕ) : Bool :=
  carefulLoop lib mModel vars fuel (contractors constraints) initial

/-- The clause holds everywhere, and its literals are negated constraints or false in the model. -/
structure Explains (constraints clause : List (Constraint V)) : Prop where
  valid : ∀ α : V → ℝ, ∃ l ∈ clause, l.Sat α
  false_in_model : ∀ l ∈ clause, (∃ c ∈ constraints, l = c.negation) ∨
    ∀ α : V → ℝ, (∀ v q, mModel v = some q → α v = q) → ¬ l.Sat α

/-! ## Runs -/

/-- What the box of a variable depends on implies that its value is in the box. -/
structure Inv (constraints : List (Constraint V)) (s : State V) : Prop where
  given : ∀ c ∈ s.mDependencies.mConstraints, c ∈ constraints
  box : ∀ v (α : V → ℝ), (∀ c, s.mDependencies.On v c → c.Sat α) → (s.mBox v).Contains (α v)
  nonempty : ∀ v, ∃ r, (s.mBox v).Contains r

omit [DecidableEq V] in
theorem Inv.initial (constraints : List (Constraint V)) : Inv constraints (initial : State V) where
  given := nofun
  box _ _ _ := ⟨nofun, nofun⟩
  nonempty _ := ⟨0, nofun, nofun⟩

variable {lib mModel} {constraints clause : List (Constraint V)} {c : QueueEntry V} {s : State V}

/-- Where no clause's negated constraint holds, the value is in an interval of the contraction. -/
theorem Inv.contract (h : Inv constraints s) (hlib : lib.Sound) {α : V → ℝ}
    (hα : ∀ c', (s.mDependencies.add c.var c.origin (lib.dependees c.origin c.var)).On c.var c' →
      c'.Sat α) :
    (s.mBox c.var).Contains (α c.var) ∧
      ∃ i ∈ lib.contract c.origin c.var s.mBox, i.Contains (α c.var) := by
  have hbox := h.box c.var α fun c' hc' => hα c' (Dependencies.on_add (.inl hc'))
  refine ⟨hbox, hlib.contract _ _ _ _ (hα _ (Dependencies.on_add (.inr ⟨rfl, .inl rfl⟩)))
    (fun u hu => h.box u α fun c' hc' => hα c' ?_) hbox⟩
  exact Dependencies.on_add (.inr ⟨rfl, .inr ⟨u, hu, hc'⟩⟩)

/-- A clause of negated constraints and literals that are false in the model. -/
theorem Inv.explains (h : Inv constraints s) (horig : c.origin ∈ constraints)
    {excluded : List (Constraint V)} (hvalid : ∀ α : V → ℝ, (∀ c',
      (s.mDependencies.add c.var c.origin (lib.dependees c.origin c.var)).On c.var c' → c'.Sat α) →
      ∃ l ∈ excluded, l.Sat α)
    (hfalse : ∀ l ∈ excluded, ∀ α : V → ℝ, (∀ v q, mModel v = some q → α v = q) → ¬ l.Sat α) :
    Explains mModel constraints ((s.mDependencies.add c.var c.origin
      (lib.dependees c.origin c.var)).get c.var ++ excluded) := by
  constructor
  case valid =>
    intro α
    by_contra! hnot
    have hα : ∀ c', (s.mDependencies.add c.var c.origin (lib.dependees c.origin c.var)).On c.var c' →
        c'.Sat α := by
      intro c' hc'
      have hneg := hnot c'.negation (mem_append_left _ (Dependencies.mem_get.mpr ⟨c', hc', rfl⟩))
      rwa [Constraint.sat_negation, not_not] at hneg
    obtain ⟨l, hl, hsat⟩ := hvalid α hα
    exact hnot l (mem_append_right _ hl) hsat
  case false_in_model =>
    intro l hl
    rcases mem_append.mp hl with hl | hl
    · obtain ⟨c', hc', rfl⟩ := Dependencies.mem_get.mp hl
      rcases Dependencies.mem_add hc'.mem with rfl | hmem
      · exact .inl ⟨_, horig, rfl⟩
      · exact .inl ⟨c', h.given c' hmem, rfl⟩
    · exact .inr (hfalse l hl)

/-- A contraction returns an explanation or keeps the invariant. -/
theorem contractWith_spec (h : Inv constraints s) (hlib : lib.Sound) (horig : c.origin ∈ constraints)
    (hcare : careful lib mModel c s = true) :
    match contractWith lib mModel c s with
    | .error clause => Explains mModel constraints clause
    | .ok (_, c', s') => c'.origin = c.origin ∧ Inv constraints s' := by
  have hin := hlib.inOrder c.origin c.var s.mBox h.nonempty
  rw [careful] at hcare
  rw [contractWith]
  cases hres : lib.contract c.origin c.var s.mBox with
  | nil =>
    dsimp only
    rw [← append_nil (Dependencies.get _ _)]
    refine h.explains horig (fun α hα => ?_) nofun
    obtain ⟨-, i, hi, -⟩ := h.contract hlib hα
    rw [hres] at hi
    exact absurd hi not_mem_nil
  | cons front res =>
    rw [hres] at hin hcare
    obtain ⟨hends, hlims⟩ := (Bool.and_eq_true _ _).mp hcare
    dsimp only
    cases hfind : find_excluded_interval lib mModel c.var (front :: res) with
    | some excluded =>
      obtain ⟨hsat, hfalse⟩ := find_excluded_interval_spec hlib hin hfind
      exact h.explains horig (fun α hα => by
        obtain ⟨-, i, hi, hcont⟩ := h.contract hlib hα
        exact hsat i (hres ▸ hi) α hcont) (hfalse hends)
    | none =>
      refine ⟨rfl, ?_⟩
      obtain ⟨r, hr⟩ := hin.nonempty front mem_cons_self
      have hr' := hlib.within c.origin c.var s.mBox front (hres ▸ mem_cons_self) r hr
      have hcur := contracted_contains hr' (hin.above mem_cons_self hr) (hin.below mem_cons_self hr)
      split_ifs with hfac
      · constructor
        case given =>
          intro c' hc'
          rcases Dependencies.mem_add hc' with rfl | hc'
          · exact horig
          · exact h.given c' hc'
        case box =>
          intro v α hα
          by_cases hv : v = c.var
          · subst hv
            obtain ⟨hbox, i, hi, hcont⟩ := h.contract hlib hα
            dsimp only
            rw [update_self]
            exact contracted_contains hbox (hin.above (hres ▸ hi) hcont)
              (hin.below (hres ▸ hi) hcont)
          · dsimp only
            rw [update_of_ne hv]
            exact h.box v α fun c' hc' => hα c' (Dependencies.on_add (.inl hc'))
        case nonempty =>
          intro v
          dsimp only
          by_cases hv : v = c.var
          · exact ⟨r, by rwa [hv, update_self]⟩
          · rw [update_of_ne hv]
            exact h.nonempty v
      · have hsame := sameLimits_of_factor contracted_ends.1 contracted_ends.2 hcur hfac
        rw [decide_eq_true hsame, Bool.not_true, Bool.false_or, decide_eq_true_eq] at hlims
        rw [hlims, update_eq_self]
        exact h

/-- So does the loop over the contractors. -/
theorem contractAll_spec {cs : List (QueueEntry V)} (h : Inv constraints s) (hlib : lib.Sound)
    (horigs : ∀ c ∈ cs, c.origin ∈ constraints) (hcare : carefulAll lib mModel cs s = true) :
    match contractAll lib mModel cs s with
    | .error clause => Explains mModel constraints clause
    | .ok (_, cs', s') => (∀ c ∈ cs', c.origin ∈ constraints) ∧ Inv constraints s' := by
  induction cs generalizing s with
  | nil => exact ⟨horigs, h⟩
  | cons c cs ih =>
    obtain ⟨horig, horigs⟩ := forall_mem_cons.mp horigs
    rw [carefulAll, Bool.and_eq_true] at hcare
    have hstep := contractWith_spec h hlib horig hcare.1
    rw [contractAll]
    cases hc : contractWith lib mModel c s with
    | error clause => rwa [hc] at hstep
    | ok r =>
      rw [hc] at hstep hcare
      have hrest := ih hstep.2 horigs hcare.2
      dsimp only
      cases hcs : contractAll lib mModel cs r.2.2 with
      | error clause => rwa [hcs] at hrest
      | ok r' =>
        rw [hcs] at hrest
        exact ⟨forall_mem_cons.mpr ⟨hstep.1 ▸ horig, hrest.1⟩, hrest.2⟩

theorem executeLoop_spec {vars : List V} {fuel : ℕ} {cs : List (QueueEntry V)}
    (h : Inv constraints s) (hlib : lib.Sound) (horigs : ∀ c ∈ cs, c.origin ∈ constraints)
    (hcare : carefulLoop lib mModel vars fuel cs s = true)
    (hexec : executeLoop lib mModel vars fuel cs s = some (some clause)) :
    Explains mModel constraints clause := by
  induction fuel generalizing cs s with
  | zero => cases hexec
  | succ fuel ih =>
    rw [executeLoop] at hexec
    rw [carefulLoop] at hcare
    split_ifs at hexec with hgoes
    swap
    · cases hexec
    rw [hgoes, Bool.not_true, Bool.false_or, Bool.and_eq_true] at hcare
    have hround := contractAll_spec h hlib horigs hcare.1
    cases hcs : contractAll lib mModel cs s with
    | error clause' =>
      rw [hcs] at hround hexec
      cases hexec
      exact hround
    | ok r =>
      rw [hcs] at hround hexec hcare
      dsimp only at hexec
      split_ifs at hexec with hcontracted
      · exact ih hround.2 hround.1 (by simpa [hcontracted] using hcare.2) hexec
      · cases hexec

/-- Where the contractions are careful, the clause that is returned is an explanation; and the
disjunction of a value that is not admissible is one. -/
theorem execute_explains (hlib : lib.Sound) (mModel : V → Option ℚ) :
    (∀ vars constraints fuel clause, carefulRun lib mModel vars constraints fuel = true →
      execute lib mModel vars constraints fuel = some (some clause) →
      Explains mModel constraints clause) ∧
    ∀ v admissible excluded, InOrder admissible →
      find_excluded_interval lib mModel v admissible = some excluded →
      (∀ i ∈ admissible, ∀ α : V → ℝ, i.Contains (α v) → ∃ l ∈ excluded, l.Sat α) ∧
      ((mModel v).all (fun val => EndsAvoided val admissible) →
        ∀ l ∈ excluded, ∀ α : V → ℝ, (∀ v q, mModel v = some q → α v = q) → ¬ l.Sat α) := by
  constructor
  · intro vars constraints fuel clause hcare h
    refine executeLoop_spec (Inv.initial constraints) hlib (fun c hc => ?_) hcare h
    obtain ⟨c', hc', hmem⟩ := mem_flatMap.mp hc
    obtain ⟨v, -, rfl⟩ := List.mem_map.mp hmem
    exact (mem_filter.mp hc').1
  · intro v admissible excluded hin h
    exact find_excluded_interval_spec hlib hin h

/-- `y ≥ 0` and `x + y - 1 < 0` -/
def sampleConstraints : List (Constraint ℕ) :=
  [⟨[⟨1, [(1, 1)]⟩], .geq⟩, ⟨[⟨1, [(0, 1)]⟩, ⟨1, [(1, 1)]⟩, ⟨-1, []⟩], .less⟩]

/-- The contractions to `y ∈ [0, ∞)` and `x ∈ (-∞, 1)` -/
def sampleLibrary : Library ℕ where
  dependees c v := (Poly.variables c.lhs).dedup.erase v
  contract c v box :=
    if sampleConstraints[0]? = some c ∧ v = 1 ∧ box 1 = ⟨none, none⟩ then [⟨some (0, false), none⟩]
    else if sampleConstraints[1]? = some c ∧ v = 0 ∧ box 0 = ⟨none, none⟩ ∧
      box 1 = ⟨some (0, false), none⟩ then [⟨none, some (1, true)⟩]
    else [box v]
  sample_stern_brocot l _ := l

theorem sampleLibrary_sound : sampleLibrary.Sound where
  contract c v box α hc hdependees hv := by
    dsimp only [sampleLibrary] at hdependees ⊢
    split_ifs with hfst hsnd
    · obtain ⟨hc', rfl, -⟩ := hfst
      obtain rfl := some.inj hc'
      simpa [Constraint.Sat, Relation.evaluate, Term.eval, Interval.Contains] using hc
    · obtain ⟨hc', rfl, -, hbox⟩ := hsnd
      obtain rfl := some.inj hc'
      have hy : (box 1).Contains (α 1) := hdependees 1 (by decide)
      rw [hbox] at hy
      simp [Constraint.Sat, Relation.evaluate, Term.eval, Interval.Contains] at hc hy ⊢
      linarith
    · exact ⟨_, mem_cons_self, hv⟩
  within c v box i hi r hr := by
    dsimp only [sampleLibrary] at hi
    split_ifs at hi with hfst hsnd
    · obtain ⟨-, rfl, hbox⟩ := hfst
      simp [hbox, Interval.Contains]
    · obtain ⟨-, rfl, hbox, -⟩ := hsnd
      simp [hbox, Interval.Contains]
    · exact mem_singleton.mp hi ▸ hr
  inOrder c v box hbox := by
    dsimp only [sampleLibrary]
    split_ifs
    · exact ⟨pairwise_singleton _ _, by simpa [Interval.Contains] using ⟨0, le_refl 0⟩⟩
    · exact ⟨pairwise_singleton _ _, by simpa [Interval.Contains] using ⟨0, zero_lt_one⟩⟩
    · exact ⟨pairwise_singleton _ _, by simpa using hbox v⟩
  sample l u h := ⟨le_refl l, h⟩

/-- A run in which `x` is two, and one in which it is one -/
theorem sampleLibrary_executes (val : ℚ) (hval : val = 2 ∨ val = 1) :
    execute sampleLibrary (fun v => if v = 0 then some val else none) [0, 1] sampleConstraints 2 =
      some (some (sampleConstraints.map Constraint.negation ++ [limitConstraint 0 1 .leq])) := by
  rcases hval with rfl | rfl <;> decide +kernel

theorem execute_explains_two : Explains (fun v => if v = 0 then some 2 else none) sampleConstraints
    (sampleConstraints.map Constraint.negation ++ [limitConstraint 0 1 .leq]) :=
  (execute_explains sampleLibrary_sound _).1 [0, 1] _ 2 _ (by decide +kernel)
    (sampleLibrary_executes 2 (.inl rfl))

/-- One is an end of the interval that `x` is contracted to, and `x ≤ 1` holds at it. -/
theorem not_execute_explains : ¬ ∀ (lib : Library ℕ), lib.Sound → ∀ mModel vars constraints fuel clause,
    execute lib mModel vars constraints fuel = some (some clause) →
    Explains mModel constraints clause := by
  intro hexplains
  have hfalse := (hexplains sampleLibrary sampleLibrary_sound _ _ _ _ _
    (sampleLibrary_executes 1 (.inr rfl))).false_in_model (limitConstraint 0 1 .leq)
    (mem_append_right _ mem_cons_self)
  rcases hfalse with ⟨c, hc, heq⟩ | hfalse
  · revert c
    decide +kernel
  · refine hfalse (fun _ => 1) (fun v q hv => ?_) ?_
    · split_ifs at hv
      cases hv
      simp
    · rw [sat_limitConstraint]
      simp [Relation.evaluate]

end Smtrat.Mcsat.Icp
