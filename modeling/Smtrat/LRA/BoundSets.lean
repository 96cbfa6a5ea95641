import Smtrat.Datastructures.OrderedSet
import Smtrat.LRA.BoundTypes

/-!
# The bound sets of a variable

A variable keeps its bounds in two sets that are ordered by `Bound::operator<`, and points to the
strongest active bound of each.  Here the bounds are objects with an address, so that two objects
may say the same; that this does not happen follows from the order.
-/

namespace Smtrat.LRA

open Run List Function Option

/-! ## The order of the bounds on one side -/

namespace Bound

variable {b c : Bound} {v : VarId}

/-- The limit of an upper bound, and that it is not an equation. -/
def upperKey (b : Bound) : WithTop (Value ℚ) ×ₗ Bool :=
  toLex ((match b.limit with | none => ⊤ | some l => (l : WithTop (Value ℚ))),
    decide (b.type ≠ .equal))

/-- The limit of a lower bound, and whether it is an equation. -/
def lowerKey (b : Bound) : WithBot (Value ℚ) ×ₗ Bool :=
  toLex ((match b.limit with | none => ⊥ | some l => (l : WithBot (Value ℚ))),
    decide (b.type = .equal))

theorem lt_iff_upperKey (hb : b.IsUpperOf v) (hc : c.IsUpperOf v) :
    b.lt c = true ↔ b.upperKey < c.upperKey := by
  obtain ⟨_, type, limit⟩ := b
  obtain ⟨_, type', limit'⟩ := c
  have h := hb.side
  have h' := hc.side
  have hi := hb.infinite
  have hi' := hc.infinite
  rw [upperKey, upperKey, Prod.Lex.toLex_lt_toLex]
  cases limit <;> cases limit' <;> cases type <;> cases type' <;> simp_all [lt, isUpperBound]

/-- Among upper bounds, `Bound::operator>` is the converse of `Bound::operator<`. -/
theorem gt_iff_upperKey (hb : b.IsUpperOf v) (hc : c.IsUpperOf v) :
    b.gt c = true ↔ c.upperKey < b.upperKey := by
  have hswap : b.gt c = c.lt b := by
    obtain ⟨_, type, limit⟩ := b
    obtain ⟨_, type', limit'⟩ := c
    have h := hb.side
    have h' := hc.side
    have hi := hb.infinite
    have hi' := hc.infinite
    cases limit with
    | none => cases limit' <;> cases type <;> cases type' <;> simp_all [gt, lt, isUpperBound]
    | some l =>
      cases limit' with
      | none => cases type <;> cases type' <;> simp_all [gt, lt, isUpperBound]
      | some l' =>
        have hcomm : (l == l') = (l' == l) := Bool.beq_comm
        simp only [gt, lt, hcomm]
        cases type <;> cases type' <;>
          first | rfl | exact absurd h Bool.false_ne_true | exact absurd h' Bool.false_ne_true
  rw [hswap, lt_iff_upperKey hc hb]

theorem upperKey_eq_iff (hb : b.IsUpperOf v) (hc : c.IsUpperOf v) :
    b.upperKey = c.upperKey ↔ b.type = c.type ∧ b.limit = c.limit := by
  obtain ⟨_, type, limit⟩ := b
  obtain ⟨_, type', limit'⟩ := c
  have h := hb.side
  have h' := hc.side
  rw [upperKey, upperKey, toLex_inj, Prod.mk.injEq]
  cases limit <;> cases limit' <;> cases type <;> cases type' <;> simp_all [isUpperBound]

theorem lowerKey_eq_iff (hb : b.IsLowerOf v) (hc : c.IsLowerOf v) :
    b.lowerKey = c.lowerKey ↔ b.type = c.type ∧ b.limit = c.limit := by
  obtain ⟨_, type, limit⟩ := b
  obtain ⟨_, type', limit'⟩ := c
  have h := hb.side
  have h' := hc.side
  rw [lowerKey, lowerKey, toLex_inj, Prod.mk.injEq]
  cases limit <;> cases limit' <;> cases type <;> cases type' <;> simp_all [isLowerBound]

theorem lt_iff_lowerKey (hb : b.IsLowerOf v) (hc : c.IsLowerOf v) :
    b.lt c = true ↔ b.lowerKey < c.lowerKey := by
  obtain ⟨_, type, limit⟩ := b
  obtain ⟨_, type', limit'⟩ := c
  have h := hb.side
  have h' := hc.side
  have hi := hb.infinite
  have hi' := hc.infinite
  rw [lowerKey, lowerKey, Prod.Lex.toLex_lt_toLex]
  cases limit <;> cases limit' <;> cases type <;> cases type' <;> simp_all [lt, isLowerBound]

end Bound

/-! ## Bound objects and the variable -/

/-- A `lra::Bound` object on the heap. -/
structure BoundObject extends Bound where
  address : ℕ
deriving DecidableEq

/-- The comparison of a `BoundSet`, which looks behind the pointers. -/
def BoundObject.less (b c : BoundObject) : Bool := b.toBound.lt c.toBound

/-- `lra::Variable`, as far as its bounds are concerned, with the part of the heap they are on. -/
structure Variable where
  mId : VarId
  mUpperbounds : List BoundObject
  mLowerbounds : List BoundObject
  mpSupremum : BoundObject
  mpInfimum : BoundObject
  /-- `mpOrigins` of the bound at an address. -/
  origins : ℕ → List Origin
  /-- The address of the next bound that is allocated. -/
  next : ℕ

namespace Variable

/-- The constructor. -/
def new (v : VarId) : Variable where
  mId := v
  mUpperbounds := [⟨.infinite v .upper, 0⟩]
  mLowerbounds := [⟨.infinite v .lower, 1⟩]
  mpSupremum := ⟨.infinite v .upper, 0⟩
  mpInfimum := ⟨.infinite v .lower, 1⟩
  origins a := if a < 2 then [.true] else []
  next := 2

variable (s : Variable)

/-- `Bound::isActive`. -/
def isActive (b : BoundObject) : Bool := !(s.origins b.address).isEmpty

/-- `Variable::addUpperBound`.  The new bound is deleted if there is one like it. -/
def addUpperBound (limit : Value ℚ) : (BoundObject × Bool) × Variable :=
  let newBound : BoundObject := ⟨⟨s.mId, .upper, some limit⟩, s.next⟩
  let result := OrderedSet.insert BoundObject.less newBound s.mUpperbounds
  (result.2, { s with mUpperbounds := result.1, next := s.next + 1 })

/-- `Variable::addLowerBound`. -/
def addLowerBound (limit : Value ℚ) : (BoundObject × Bool) × Variable :=
  let newBound : BoundObject := ⟨⟨s.mId, .lower, some limit⟩, s.next⟩
  let result := OrderedSet.insert BoundObject.less newBound s.mLowerbounds
  (result.2, { s with mLowerbounds := result.1, next := s.next + 1 })

/-- `Variable::addEqualBound`. -/
def addEqualBound (limit : Value ℚ) : (BoundObject × Bool) × Variable :=
  let newBound : BoundObject := ⟨⟨s.mId, .equal, some limit⟩, s.next⟩
  let result := OrderedSet.insert BoundObject.less newBound s.mLowerbounds
  if result.2.2 then
    let resultB := OrderedSet.insert BoundObject.less newBound s.mUpperbounds
    (result.2, { s with
      mLowerbounds := result.1
      mUpperbounds := resultB.1
      next := s.next + 1 })
  else (result.2, { s with mLowerbounds := result.1, next := s.next + 1 })

/-- What `Tableau::activateBound` does to the bounds of the variable. -/
def activateBound (b : BoundObject) (o : Origin) : Variable :=
  let s := { s with origins := update s.origins b.address (s.origins b.address ++ [o]) }
  let s := if b.isUpperBound && s.mpSupremum.gt b.toBound then { s with mpSupremum := b } else s
  if b.isLowerBound && s.mpInfimum.lt b.toBound then { s with mpInfimum := b } else s

/-- The loops of `deactivateBound`, which stop at the last bound. -/
def scan (isActive : BoundObject → Bool) : List BoundObject → Option BoundObject
  | [] => none
  | [b] => some b
  | b :: bs => if isActive b then some b else scan isActive bs

/-- `Variable::deactivateBound`. -/
def deactivateBound (b : BoundObject) : Bool × Variable :=
  let isSup := b.isUpperBound && s.mpSupremum == b
  let isInf := b.isLowerBound && s.mpInfimum == b
  (isSup || isInf, { s with
    mpSupremum := if isSup then (scan s.isActive s.mUpperbounds).getD s.mpSupremum
      else s.mpSupremum
    mpInfimum := if isInf then (scan s.isActive s.mLowerbounds.reverse).getD s.mpInfimum
      else s.mpInfimum })

/-- Origins of a bound are erased, and it is deactivated when none is left. -/
def eraseOrigins (b : BoundObject) (kept : List Origin) : Variable :=
  let active := s.isActive b
  let s := { s with origins := update s.origins b.address kept }
  if active && !s.isActive b then (s.deactivateBound b).2 else s

/-- What happens to the bounds of a variable. -/
inductive Action where
  | addUpperBound (limit : Value ℚ)
  | addLowerBound (limit : Value ℚ)
  | addEqualBound (limit : Value ℚ)
  | activateBound (b : BoundObject) (o : Origin)
  | eraseOrigins (b : BoundObject) (kept : List Origin)

/-- Only bounds of the variable are activated and deactivated, and never the infinite ones. -/
def step : Action → Option Variable
  | .addUpperBound limit => some (s.addUpperBound limit).2
  | .addLowerBound limit => some (s.addLowerBound limit).2
  | .addEqualBound limit => some (s.addEqualBound limit).2
  | .activateBound b o =>
    if b ∈ s.mUpperbounds ∨ b ∈ s.mLowerbounds then some (s.activateBound b o) else none
  | .eraseOrigins b kept =>
    if (b ∈ s.mUpperbounds ∨ b ∈ s.mLowerbounds) ∧ b.isInfinite = false ∧
        kept.Sublist (s.origins b.address)
    then some (s.eraseOrigins b kept) else none

/-! ## The invariant -/

/-- A bound object of the variable. -/
def Has (b : BoundObject) : Prop := b ∈ s.mUpperbounds ∨ b ∈ s.mLowerbounds

/-- The sets are ordered, share the equations, and their objects are known by their address. -/
structure SetsOrdered (s : Variable) : Prop where
  upper : ∀ b ∈ s.mUpperbounds, b.toBound.IsUpperOf s.mId
  lower : ∀ b ∈ s.mLowerbounds, b.toBound.IsLowerOf s.mId
  upper_sorted : OrderedSet.Sorted (fun b : BoundObject => b.upperKey) s.mUpperbounds
  lower_sorted : OrderedSet.Sorted (fun b : BoundObject => b.lowerKey) s.mLowerbounds
  equal : ∀ b : BoundObject, b.type = .equal → (b ∈ s.mUpperbounds ↔ b ∈ s.mLowerbounds)
  address_lt : ∀ b, s.Has b → b.address < s.next
  address_injective : ∀ b c, s.Has b → s.Has c → b.address = c.address → b = c

/-- The supremum and the infimum are the strongest active bounds, and the infinite bounds are
active. -/
structure Ordered (s : Variable) : Prop extends SetsOrdered s where
  unused : ∀ a, s.next ≤ a → s.origins a = []
  supremum_mem : s.mpSupremum ∈ s.mUpperbounds
  supremum_active : s.isActive s.mpSupremum = true
  supremum_le : ∀ b ∈ s.mUpperbounds, s.isActive b = true → s.mpSupremum.upperKey ≤ b.upperKey
  infimum_mem : s.mpInfimum ∈ s.mLowerbounds
  infimum_active : s.isActive s.mpInfimum = true
  le_infimum : ∀ b ∈ s.mLowerbounds, s.isActive b = true → b.lowerKey ≤ s.mpInfimum.lowerKey
  infinite_upper : ∃ b ∈ s.mUpperbounds, b.isInfinite = true ∧ s.isActive b = true
  infinite_lower : ∃ b ∈ s.mLowerbounds, b.isInfinite = true ∧ s.isActive b = true

variable {s} {b c : BoundObject} {v : VarId}

theorem ordered_new (v : VarId) : Ordered (new v) where
  upper b hb := by
    rw [mem_singleton.mp hb]
    exact Bound.isUpperOf_infinite
  lower b hb := by
    rw [mem_singleton.mp hb]
    exact Bound.isLowerOf_infinite
  upper_sorted := pairwise_singleton _ _
  lower_sorted := pairwise_singleton _ _
  equal b hb := by
    constructor
    all_goals
      intro hmem
      rw [mem_singleton.mp hmem] at hb
      cases hb
  address_lt b hb := by
    rcases hb with hb | hb
    · exact mem_singleton.mp hb ▸ Nat.zero_lt_two
    · exact mem_singleton.mp hb ▸ Nat.one_lt_two
  address_injective b c hb hc heq := by
    rcases hb with hb | hb <;> rcases hc with hc | hc <;>
      rw [mem_singleton.mp hb, mem_singleton.mp hc] at heq ⊢ <;> cases heq
  unused a ha := if_neg (Nat.not_lt.mpr ha)
  supremum_mem := mem_singleton_self _
  supremum_active := rfl
  supremum_le b hb _ := by
    rw [mem_singleton.mp hb]
    exact le_rfl
  infimum_mem := mem_singleton_self _
  infimum_active := rfl
  le_infimum b hb _ := by
    rw [mem_singleton.mp hb]
    exact le_rfl
  infinite_upper := ⟨_, mem_singleton_self _, rfl, rfl⟩
  infinite_lower := ⟨_, mem_singleton_self _, rfl, rfl⟩

namespace SetsOrdered

variable (h : SetsOrdered s)

include h

theorem mem_upper (hb : s.Has b) (hside : b.isUpperBound = true) : b ∈ s.mUpperbounds := by
  rcases hb with hb | hb
  · exact hb
  · refine (h.equal b ?_).mpr hb
    have hlow := (h.lower b hb).side
    revert hside hlow
    rw [Bound.isUpperBound, Bound.isLowerBound]
    cases b.type <;> decide

theorem mem_lower (hb : s.Has b) (hside : b.isLowerBound = true) : b ∈ s.mLowerbounds := by
  rcases hb with hb | hb
  · refine (h.equal b ?_).mp hb
    have hup := (h.upper b hb).side
    revert hside hup
    rw [Bound.isUpperBound, Bound.isLowerBound]
    cases b.type <;> decide
  · exact hb

/-- No two bounds of one kind have the same limit. -/
theorem unique (hb : s.Has b) (hc : s.Has c) (htype : b.type = c.type)
    (hlim : b.limit = c.limit) : b = c := by
  by_cases hside : b.isUpperBound = true
  · have hside' : c.isUpperBound = true := by rwa [Bound.isUpperBound, ← htype]
    have hb' := h.mem_upper hb hside
    have hc' := h.mem_upper hc hside'
    exact h.upper_sorted.key_injective hb' hc'
      ((Bound.upperKey_eq_iff (h.upper b hb') (h.upper c hc')).mpr ⟨htype, hlim⟩)
  · have hlow : b.isLowerBound = true := by
      revert hside
      rw [Bound.isUpperBound, Bound.isLowerBound]
      cases b.type <;> decide
    have hlow' : c.isLowerBound = true := by rwa [Bound.isLowerBound, ← htype]
    have hb' := h.mem_lower hb hlow
    have hc' := h.mem_lower hc hlow'
    exact h.lower_sorted.key_injective hb' hc'
      ((Bound.lowerKey_eq_iff (h.lower b hb') (h.lower c hc')).mpr ⟨htype, hlim⟩)

omit h in
theorem follows_upper (s : Variable) : OrderedSet.Follows BoundObject.less
    (fun b : BoundObject => b.upperKey) fun b => b.toBound.IsUpperOf s.mId :=
  fun _ _ => Bound.lt_iff_upperKey

omit h in
theorem follows_lower (s : Variable) : OrderedSet.Follows BoundObject.less
    (fun b : BoundObject => b.lowerKey) fun b => b.toBound.IsLowerOf s.mId :=
  fun _ _ => Bound.lt_iff_lowerKey

theorem insert_upper (hb : b.toBound.IsUpperOf s.mId) :
    OrderedSet.Inserts (fun b : BoundObject => b.upperKey) b s.mUpperbounds
      (OrderedSet.insert BoundObject.less b s.mUpperbounds) :=
  OrderedSet.insert_spec (follows_upper s) hb h.upper h.upper_sorted

theorem insert_lower (hb : b.toBound.IsLowerOf s.mId) :
    OrderedSet.Inserts (fun b : BoundObject => b.lowerKey) b s.mLowerbounds
      (OrderedSet.insert BoundObject.less b s.mLowerbounds) :=
  OrderedSet.insert_spec (follows_lower s) hb h.lower h.lower_sorted

/-- An equation that is new among the lower bounds is new among the upper bounds. -/
theorem insert_equal (hb : b.type = .equal) (hup : b.toBound.IsUpperOf s.mId)
    (hlow : b.toBound.IsLowerOf s.mId)
    (hnew : (OrderedSet.insert BoundObject.less b s.mLowerbounds).2.2 = true) :
    (OrderedSet.insert BoundObject.less b s.mUpperbounds).2.2 = true := by
  have hins := h.insert_upper hup
  by_contra hold
  rcases (hins.mem _).mp hins.found with hmem | ⟨hinserted, -⟩
  · obtain ⟨htype, hlim⟩ :=
      (Bound.upperKey_eq_iff (h.upper _ hmem) hup).mp hins.key_eq
    have hmem' := (h.equal _ (htype.trans hb)).mp hmem
    exact ((h.insert_lower hlow).inserted hnew).2 _ hmem'
      ((Bound.lowerKey_eq_iff (h.lower _ hmem') hlow).mpr ⟨htype, hlim⟩)
  · exact hold hinserted

end SetsOrdered

/-! ### Insertions -/

/-- The sets of a variable when a new bound `n` is entered: among the upper bounds if `p` holds, and
among the lower bounds if `q` does. -/
structure Grows (s : Variable) (n : BoundObject) (p q : Prop)
    (upper lower : List BoundObject) : Prop where
  address : n.address = s.next
  mem_upper : ∀ b, b ∈ upper ↔ b ∈ s.mUpperbounds ∨ p ∧ b = n
  mem_lower : ∀ b, b ∈ lower ↔ b ∈ s.mLowerbounds ∨ q ∧ b = n
  upper_sorted : OrderedSet.Sorted (fun b : BoundObject => b.upperKey) upper
  lower_sorted : OrderedSet.Sorted (fun b : BoundObject => b.lowerKey) lower
  upper : p → n.toBound.IsUpperOf s.mId
  lower : q → n.toBound.IsLowerOf s.mId
  equal : n.type = .equal → (p ↔ q)

section Insertions

variable {n : BoundObject} {p q : Prop} {upper lower : List BoundObject}

theorem SetsOrdered.grow (h : SetsOrdered s) (hg : Grows s n p q upper lower) :
    SetsOrdered { s with mUpperbounds := upper, mLowerbounds := lower, next := s.next + 1 } := by
  have hhas : ∀ b, Has { s with mUpperbounds := upper, mLowerbounds := lower, next := s.next + 1 } b →
      s.Has b ∨ b = n := by
    rintro b (hb | hb)
    · exact ((hg.mem_upper b).mp hb).imp .inl And.right
    · exact ((hg.mem_lower b).mp hb).imp .inr And.right
  have hfresh : ∀ b, s.Has b → b.address ≠ n.address := by
    intro b hb heq
    exact (h.address_lt b hb).ne (heq.trans hg.address)
  constructor
  case upper =>
    intro b hb
    rcases (hg.mem_upper b).mp hb with hb | ⟨hi, rfl⟩
    · exact h.upper b hb
    · exact hg.upper hi
  case lower =>
    intro b hb
    rcases (hg.mem_lower b).mp hb with hb | ⟨hi, rfl⟩
    · exact h.lower b hb
    · exact hg.lower hi
  case upper_sorted => exact hg.upper_sorted
  case lower_sorted => exact hg.lower_sorted
  case equal =>
    intro b hb
    show b ∈ upper ↔ b ∈ lower
    rw [hg.mem_upper, hg.mem_lower, h.equal b hb]
    refine or_congr_right (and_congr_left ?_)
    rintro rfl
    exact hg.equal hb
  case address_lt =>
    intro b hb
    rcases hhas b hb with hb | rfl
    · exact (h.address_lt b hb).trans (Nat.lt_succ_self _)
    · exact hg.address ▸ Nat.lt_succ_self _
  case address_injective =>
    intro b c hb hc heq
    rcases hhas b hb with hb | rfl <;> rcases hhas c hc with hc | rfl
    · exact h.address_injective b c hb hc heq
    · exact absurd heq (hfresh b hb)
    · exact absurd heq.symm (hfresh c hc)
    · rfl

/-- A new bound is not active, so the supremum and the infimum stay. -/
theorem Ordered.grow (h : Ordered s) (hg : Grows s n p q upper lower) :
    Ordered { s with mUpperbounds := upper, mLowerbounds := lower, next := s.next + 1 } := by
  have hn : s.isActive n = false := by
    rw [isActive, h.unused _ hg.address.ge]
    rfl
  have hact : ∀ b, s.isActive b = true → b ≠ n := by
    rintro b hb rfl
    exact Bool.false_ne_true (hn.symm.trans hb)
  refine { h.toSetsOrdered.grow hg with
    unused := fun a ha => h.unused a ((Nat.le_succ _).trans ha)
    supremum_mem := (hg.mem_upper _).mpr (.inl h.supremum_mem)
    supremum_active := h.supremum_active
    supremum_le := fun b hb hb' => ?_
    infimum_mem := (hg.mem_lower _).mpr (.inl h.infimum_mem)
    infimum_active := h.infimum_active
    le_infimum := fun b hb hb' => ?_
    infinite_upper := ?_
    infinite_lower := ?_ }
  · rcases (hg.mem_upper b).mp hb with hb | ⟨-, hbn⟩
    · exact h.supremum_le b hb hb'
    · exact absurd hbn (hact b hb')
  · rcases (hg.mem_lower b).mp hb with hb | ⟨-, hbn⟩
    · exact h.le_infimum b hb hb'
    · exact absurd hbn (hact b hb')
  · obtain ⟨b, hb, hinf⟩ := h.infinite_upper
    exact ⟨b, (hg.mem_upper b).mpr (.inl hb), hinf⟩
  · obtain ⟨b, hb, hinf⟩ := h.infinite_lower
    exact ⟨b, (hg.mem_lower b).mpr (.inl hb), hinf⟩

theorem Ordered.addUpperBound (h : Ordered s) (limit : Value ℚ) :
    Ordered (s.addUpperBound limit).2 := by
  have hbd : (⟨s.mId, .upper, some limit⟩ : Bound).IsUpperOf s.mId :=
    ⟨rfl, rfl, fun hnone => nomatch hnone⟩
  have hins := h.insert_upper (b := ⟨⟨s.mId, .upper, some limit⟩, s.next⟩) hbd
  refine h.grow (q := False) ⟨rfl, hins.mem, fun b => ?_, hins.sorted, h.lower_sorted,
    fun _ => hbd, False.elim, fun heq => nomatch heq⟩
  rw [false_and, or_false]

theorem Ordered.addLowerBound (h : Ordered s) (limit : Value ℚ) :
    Ordered (s.addLowerBound limit).2 := by
  have hbd : (⟨s.mId, .lower, some limit⟩ : Bound).IsLowerOf s.mId :=
    ⟨rfl, rfl, fun hnone => nomatch hnone⟩
  have hins := h.insert_lower (b := ⟨⟨s.mId, .lower, some limit⟩, s.next⟩) hbd
  refine h.grow (p := False) ⟨rfl, fun b => ?_, hins.mem, h.upper_sorted, hins.sorted,
    False.elim, fun _ => hbd, fun heq => nomatch heq⟩
  rw [false_and, or_false]

theorem Ordered.addEqualBound (h : Ordered s) (limit : Value ℚ) :
    Ordered (s.addEqualBound limit).2 := by
  have hup : (⟨s.mId, .equal, some limit⟩ : Bound).IsUpperOf s.mId :=
    ⟨rfl, rfl, fun hnone => nomatch hnone⟩
  have hlow : (⟨s.mId, .equal, some limit⟩ : Bound).IsLowerOf s.mId :=
    ⟨rfl, rfl, fun hnone => nomatch hnone⟩
  have hins := h.insert_lower (b := ⟨⟨s.mId, .equal, some limit⟩, s.next⟩) hlow
  have hins' := h.insert_upper (b := ⟨⟨s.mId, .equal, some limit⟩, s.next⟩) hup
  rw [Variable.addEqualBound]
  dsimp only
  split_ifs with hnew
  · have hnew' := h.insert_equal (b := ⟨⟨s.mId, .equal, some limit⟩, s.next⟩) rfl hup hlow hnew
    exact h.grow ⟨rfl, hins'.mem, hins.mem, hins'.sorted, hins.sorted,
      fun _ => hup, fun _ => hlow, fun _ => iff_of_true hnew' hnew⟩
  · refine h.grow (p := False) ⟨rfl, fun b => ?_, hins.mem, h.upper_sorted,
      hins.sorted, False.elim, fun _ => hlow, fun _ => iff_of_false id hnew⟩
    rw [false_and, or_false]

end Insertions

/-! ### Activation -/

theorem isActive_update (s : Variable) (b c : BoundObject) (os : List Origin) :
    isActive { s with origins := update s.origins b.address os } c =
      if c.address = b.address then !os.isEmpty else s.isActive c := by
  rw [isActive, isActive]
  dsimp only
  by_cases h : c.address = b.address
  · rw [if_pos h, h, update_self]
  · rw [if_neg h, update_of_ne h]

theorem Ordered.activateBound (h : Ordered s) (hb : s.Has b) (o : Origin) :
    Ordered (s.activateBound b o) := by
  -- exactly `b` becomes active, if it was not
  let s₁ : Variable :=
    { s with origins := update s.origins b.address (s.origins b.address ++ [o]) }
  have hact : ∀ c, s.Has c → (s₁.isActive c = true ↔ s.isActive c = true ∨ c = b) := by
    intro c hc
    rw [isActive_update]
    by_cases heq : c.address = b.address
    · rw [if_pos heq]
      exact iff_of_true (by simp) (.inr (h.address_injective c b hc hb heq))
    · rw [if_neg heq]
      refine (or_iff_left ?_).symm
      rintro rfl
      exact heq rfl
  let sup := if b.isUpperBound && s.mpSupremum.gt b.toBound then b else s.mpSupremum
  let inf := if b.isLowerBound && s.mpInfimum.lt b.toBound then b else s.mpInfimum
  have hres : s.activateBound b o = { s₁ with mpSupremum := sup, mpInfimum := inf } := by
    simp only [Variable.activateBound, s₁, sup, inf]
    split_ifs <;> rfl
  have hsup : sup ∈ s.mUpperbounds ∧ s₁.isActive sup = true ∧
      ∀ c ∈ s.mUpperbounds, s₁.isActive c = true → sup.upperKey ≤ c.upperKey := by
    have hold := (hact _ (.inl h.supremum_mem)).mpr (.inl h.supremum_active)
    simp only [sup]
    split_ifs with hif
    · obtain ⟨hside, hgt⟩ := Bool.and_eq_true _ _ ▸ hif
      have hmem := h.mem_upper hb hside
      have hlt := (Bound.gt_iff_upperKey (h.upper _ h.supremum_mem) (h.upper b hmem)).mp hgt
      refine ⟨hmem, (hact b hb).mpr (.inr rfl), fun c hc hc' => ?_⟩
      rcases (hact c (.inl hc)).mp hc' with hc' | rfl
      · exact hlt.le.trans (h.supremum_le c hc hc')
      · exact le_rfl
    · refine ⟨h.supremum_mem, hold, fun c hc hc' => ?_⟩
      rcases (hact c (.inl hc)).mp hc' with hc' | rfl
      · exact h.supremum_le c hc hc'
      · have hside := (h.upper c hc).side
        rw [hside, Bool.true_and,
          Bound.gt_iff_upperKey (h.upper _ h.supremum_mem) (h.upper c hc)] at hif
        exact not_lt.mp hif
  have hinf : inf ∈ s.mLowerbounds ∧ s₁.isActive inf = true ∧
      ∀ c ∈ s.mLowerbounds, s₁.isActive c = true → c.lowerKey ≤ inf.lowerKey := by
    have hold := (hact _ (.inr h.infimum_mem)).mpr (.inl h.infimum_active)
    simp only [inf]
    split_ifs with hif
    · obtain ⟨hside, hlt⟩ := Bool.and_eq_true _ _ ▸ hif
      have hmem := h.mem_lower hb hside
      have hlt := (Bound.lt_iff_lowerKey (h.lower _ h.infimum_mem) (h.lower b hmem)).mp hlt
      refine ⟨hmem, (hact b hb).mpr (.inr rfl), fun c hc hc' => ?_⟩
      rcases (hact c (.inr hc)).mp hc' with hc' | rfl
      · exact (h.le_infimum c hc hc').trans hlt.le
      · exact le_rfl
    · refine ⟨h.infimum_mem, hold, fun c hc hc' => ?_⟩
      rcases (hact c (.inr hc)).mp hc' with hc' | rfl
      · exact h.le_infimum c hc hc'
      · have hside := (h.lower c hc).side
        rw [hside, Bool.true_and,
          Bound.lt_iff_lowerKey (h.lower _ h.infimum_mem) (h.lower c hc)] at hif
        exact not_lt.mp hif
  rw [hres]
  refine { h.toSetsOrdered with
    unused := fun a ha => ?_
    supremum_mem := hsup.1
    supremum_active := hsup.2.1
    supremum_le := hsup.2.2
    infimum_mem := hinf.1
    infimum_active := hinf.2.1
    le_infimum := hinf.2.2
    infinite_upper := ?_
    infinite_lower := ?_ }
  · refine (update_of_ne ?_ _ _).trans (h.unused a ha)
    exact ((h.address_lt b hb).trans_le ha).ne'
  · obtain ⟨c, hc, hinfinite, hc'⟩ := h.infinite_upper
    exact ⟨c, hc, hinfinite, (hact c (.inl hc)).mpr (.inl hc')⟩
  · obtain ⟨c, hc, hinfinite, hc'⟩ := h.infinite_lower
    exact ⟨c, hc, hinfinite, (hact c (.inr hc)).mpr (.inl hc')⟩

/-! ### Deactivation -/

/-- The search for the next bound stops at the first active one, if there is one. -/
theorem scan_eq_find? {isActive : BoundObject → Bool} {bs : List BoundObject}
    (h : ∃ b ∈ bs, isActive b = true) : scan isActive bs = bs.find? isActive := by
  induction bs with
  | nil =>
    obtain ⟨b, hb, -⟩ := h
    cases hb
  | cons b bs ih =>
    obtain ⟨c, hc, hact⟩ := h
    cases hb : isActive b with
    | true =>
      rw [find?_cons, hb]
      cases bs with
      | nil => rfl
      | cons d ds => exact if_pos hb
    | false =>
      have hrest : c ∈ bs := by
        refine (mem_cons.mp hc).resolve_left ?_
        rintro rfl
        exact Bool.false_ne_true (hb.symm.trans hact)
      rw [find?_cons, hb, ← ih ⟨c, hrest, hact⟩]
      cases bs with
      | nil => cases hrest
      | cons d ds => exact if_neg (by simp [hb])

/-- The strongest active bounds after `b` became inactive. -/
theorem Ordered.deactivateBound (h : Ordered s) (hb : s.Has b) (hfin : b.isInfinite = false) :
    Ordered ({ s with origins := update s.origins b.address [] }.deactivateBound b).2 := by
  let s₁ : Variable := { s with origins := update s.origins b.address [] }
  have hact : ∀ c, s.Has c → (s₁.isActive c = true ↔ s.isActive c = true ∧ c ≠ b) := by
    intro c hc
    rw [isActive_update]
    by_cases heq : c.address = b.address
    · rw [if_pos heq]
      exact iff_of_false (by simp) fun hne => hne.2 (h.address_injective c b hc hb heq)
    · rw [if_neg heq]
      refine (and_iff_left ?_).symm
      rintro rfl
      exact heq rfl
  have hinfinite : ∀ c : BoundObject, c.isInfinite = true → c ≠ b := by
    rintro c hc rfl
    exact Bool.false_ne_true (hfin.symm.trans hc)
  obtain ⟨u, hu, hu', huactive⟩ := h.infinite_upper
  obtain ⟨l, hl, hl', hlactive⟩ := h.infinite_lower
  have hu₁ := (hact u (.inl hu)).mpr ⟨huactive, hinfinite u hu'⟩
  have hl₁ := (hact l (.inr hl)).mpr ⟨hlactive, hinfinite l hl'⟩
  -- the supremum is found again if it was `b`
  have hsup : (s₁.deactivateBound b).2.mpSupremum ∈ s.mUpperbounds ∧
      s₁.isActive (s₁.deactivateBound b).2.mpSupremum = true ∧ ∀ c ∈ s.mUpperbounds,
        s₁.isActive c = true → (s₁.deactivateBound b).2.mpSupremum.upperKey ≤ c.upperKey := by
    simp only [Variable.deactivateBound]
    split_ifs with hif
    · have hscan : scan s₁.isActive s.mUpperbounds = s.mUpperbounds.find? s₁.isActive :=
        scan_eq_find? ⟨u, hu, hu₁⟩
      obtain ⟨c, hc⟩ := isSome_iff_exists.mp (find?_isSome.mpr ⟨u, hu, hu₁⟩)
      rw [show s₁.mUpperbounds = s.mUpperbounds from rfl, hscan, hc, getD_some]
      exact ⟨mem_of_find?_eq_some hc, find?_some hc,
        fun d hd hd' => h.upper_sorted.find?_le hc hd hd'⟩
    · have hne : s.mpSupremum ≠ b := by
        rintro rfl
        exact hif (by simp [(h.upper _ h.supremum_mem).side, s₁])
      exact ⟨h.supremum_mem, (hact _ (.inl h.supremum_mem)).mpr ⟨h.supremum_active, hne⟩,
        fun c hc hc' => h.supremum_le c hc ((hact c (.inl hc)).mp hc').1⟩
  have hinf : (s₁.deactivateBound b).2.mpInfimum ∈ s.mLowerbounds ∧
      s₁.isActive (s₁.deactivateBound b).2.mpInfimum = true ∧ ∀ c ∈ s.mLowerbounds,
        s₁.isActive c = true → c.lowerKey ≤ (s₁.deactivateBound b).2.mpInfimum.lowerKey := by
    simp only [Variable.deactivateBound]
    split_ifs with hif
    · have hl₂ : l ∈ s.mLowerbounds.reverse := mem_reverse.mpr hl
      have hscan : scan s₁.isActive s.mLowerbounds.reverse =
          s.mLowerbounds.reverse.find? s₁.isActive := scan_eq_find? ⟨l, hl₂, hl₁⟩
      obtain ⟨c, hc⟩ := isSome_iff_exists.mp (find?_isSome.mpr ⟨l, hl₂, hl₁⟩)
      rw [show s₁.mLowerbounds = s.mLowerbounds from rfl, hscan, hc, getD_some]
      exact ⟨mem_reverse.mp (mem_of_find?_eq_some hc), find?_some hc,
        fun d hd hd' => h.lower_sorted.le_find?_reverse hc hd hd'⟩
    · have hne : s.mpInfimum ≠ b := by
        rintro rfl
        exact hif (by simp [(h.lower _ h.infimum_mem).side, s₁])
      exact ⟨h.infimum_mem, (hact _ (.inr h.infimum_mem)).mpr ⟨h.infimum_active, hne⟩,
        fun c hc hc' => h.le_infimum c hc ((hact c (.inr hc)).mp hc').1⟩
  refine { h.toSetsOrdered with
    unused := fun a ha => ?_
    supremum_mem := hsup.1
    supremum_active := hsup.2.1
    supremum_le := hsup.2.2
    infimum_mem := hinf.1
    infimum_active := hinf.2.1
    le_infimum := hinf.2.2
    infinite_upper := ⟨u, hu, hu', hu₁⟩
    infinite_lower := ⟨l, hl, hl', hl₁⟩ }
  refine (update_of_ne ?_ _ _).trans (h.unused a ha)
  exact ((h.address_lt b hb).trans_le ha).ne'

theorem Ordered.eraseOrigins (h : Ordered s) (hb : s.Has b) (hfin : b.isInfinite = false)
    {kept : List Origin} (hkept : kept.Sublist (s.origins b.address)) :
    Ordered (s.eraseOrigins b kept) := by
  rw [Variable.eraseOrigins, isActive_update, if_pos rfl]
  by_cases hlast : s.isActive b = true ∧ kept = []
  · obtain ⟨hact, rfl⟩ := hlast
    rw [if_pos (by simp [hact])]
    exact h.deactivateBound hb hfin
  · have hsame : (!kept.isEmpty) = s.isActive b := by
      cases hact : s.isActive b with
      | true => simpa [hact] using hlast
      | false =>
        have hnil : s.origins b.address = [] := by simpa [isActive] using hact
        rw [hnil] at hkept
        rw [sublist_nil.mp hkept]
        rfl
    rw [if_neg (by simp [hsame])]
    have hact : ∀ c, isActive { s with origins := update s.origins b.address kept } c =
        s.isActive c := by
      intro c
      rw [isActive_update]
      split_ifs with heq
      · rw [hsame, isActive, isActive, heq]
      · rfl
    refine { h.toSetsOrdered with
      unused := fun a ha => ?_
      supremum_mem := h.supremum_mem
      supremum_active := (hact _).trans h.supremum_active
      supremum_le := fun c hc hc' => h.supremum_le c hc ((hact c).symm.trans hc')
      infimum_mem := h.infimum_mem
      infimum_active := (hact _).trans h.infimum_active
      le_infimum := fun c hc hc' => h.le_infimum c hc ((hact c).symm.trans hc')
      infinite_upper := ?_
      infinite_lower := ?_ }
    · refine (update_of_ne ?_ _ _).trans (h.unused a ha)
      exact ((h.address_lt b hb).trans_le ha).ne'
    · obtain ⟨c, hc, hinf, hc'⟩ := h.infinite_upper
      exact ⟨c, hc, hinf, (hact c).trans hc'⟩
    · obtain ⟨c, hc, hinf, hc'⟩ := h.infinite_lower
      exact ⟨c, hc, hinf, (hact c).trans hc'⟩

/-! ## Runs -/

theorem ordered_step {action : Action} {s' : Variable} (h : Ordered s)
    (hstep : s.step action = some s') : Ordered s' := by
  cases action with
  | addUpperBound limit =>
    cases hstep
    exact h.addUpperBound limit
  | addLowerBound limit =>
    cases hstep
    exact h.addLowerBound limit
  | addEqualBound limit =>
    cases hstep
    exact h.addEqualBound limit
  | activateBound b o =>
    obtain ⟨hb, heq⟩ := ite_none_right_eq_some.mp hstep
    cases heq
    exact h.activateBound hb o
  | eraseOrigins b kept =>
    obtain ⟨⟨hb, hfin, hkept⟩, heq⟩ := ite_none_right_eq_some.mp hstep
    cases heq
    exact h.eraseOrigins hb hfin hkept

/-- After every sequence of operations, the supremum is the least active upper bound and the
infimum the greatest active lower bound, an equation is in both sets or in none, and no two bounds
of one kind have the same limit. -/
theorem bounds_ordered (v : VarId) (actions : List Action) (s : Variable)
    (hrun : run step (new v) actions = some s) :
    (s.mpSupremum ∈ s.mUpperbounds ∧ s.isActive s.mpSupremum = true ∧
      ∀ b ∈ s.mUpperbounds, s.isActive b = true → b ≠ s.mpSupremum →
        s.mpSupremum.lt b.toBound = true) ∧
    (s.mpInfimum ∈ s.mLowerbounds ∧ s.isActive s.mpInfimum = true ∧
      ∀ b ∈ s.mLowerbounds, s.isActive b = true → b ≠ s.mpInfimum →
        b.lt s.mpInfimum.toBound = true) ∧
    (∀ b : BoundObject, b.type = .equal → (b ∈ s.mUpperbounds ↔ b ∈ s.mLowerbounds)) ∧
    (∀ b c, s.Has b → s.Has c → b.type = c.type → b.limit = c.limit → b = c) := by
  have h : Ordered s := run_invariant (fun _ _ _ h hstep => ordered_step h hstep) (ordered_new v) hrun
  refine ⟨⟨h.supremum_mem, h.supremum_active, fun b hb hb' hne => ?_⟩,
    ⟨h.infimum_mem, h.infimum_active, fun b hb hb' hne => ?_⟩, h.equal, fun b c hb hc => ?_⟩
  · rw [Bound.lt_iff_upperKey (h.upper _ h.supremum_mem) (h.upper b hb)]
    refine (h.supremum_le b hb hb').lt_of_ne fun heq => hne ?_
    exact h.upper_sorted.key_injective hb h.supremum_mem heq.symm
  · rw [Bound.lt_iff_lowerKey (h.lower b hb) (h.lower _ h.infimum_mem)]
    refine (h.le_infimum b hb hb').lt_of_ne fun heq => hne ?_
    exact h.lower_sorted.key_injective hb h.infimum_mem heq
  · exact h.unique hb hc

/-- The bounds `x ≤ 1` and `x = 1` become active, and the equation inactive again. -/
def sampleActions : List Action :=
  [.addUpperBound ⟨1, 0⟩, .addEqualBound ⟨1, 0⟩,
    .activateBound ⟨⟨0, .upper, some ⟨1, 0⟩⟩, 2⟩ (.conjunction []),
    .activateBound ⟨⟨0, .equal, some ⟨1, 0⟩⟩, 3⟩ (.conjunction []),
    .eraseOrigins ⟨⟨0, .equal, some ⟨1, 0⟩⟩, 3⟩ []]

theorem bounds_ordered_sample : ∃ s, run step (new 0) sampleActions = some s ∧
    s.mpSupremum = ⟨⟨0, .upper, some ⟨1, 0⟩⟩, 2⟩ ∧ s.isActive s.mpSupremum = true ∧
      ∀ b ∈ s.mUpperbounds, s.isActive b = true → b ≠ s.mpSupremum →
        s.mpSupremum.lt b.toBound = true := by
  have hsome : (run step (new 0) sampleActions).isSome = true := by decide +kernel
  have hsup : (run step (new 0) sampleActions).map mpSupremum =
      some ⟨⟨0, .upper, some ⟨1, 0⟩⟩, 2⟩ := by decide +kernel
  obtain ⟨s, hs⟩ := isSome_iff_exists.mp hsome
  rw [hs, map_some, some.injEq] at hsup
  exact ⟨s, hs, hsup, (bounds_ordered 0 sampleActions s hs).1.2⟩

end Variable

end Smtrat.LRA
