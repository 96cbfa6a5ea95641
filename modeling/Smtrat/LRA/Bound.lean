import Smtrat.LRA.LinearForm

/-!
# Bounds

A bound compares a tableau variable with a limit.  The bound objects of a variable are found by
their type and limit, so these and the variable are used as the identity of the object.  What the
code keeps in the object besides (its origins, its constraint, its complement) is kept in maps.

A bound is active when it has an origin: a conjunction of received constraints it was derived
from.  The two bounds without a limit are always active, with the origin `TRUE`.
-/

namespace Smtrat.LRA
open List Function

/-- A `lra::Variable` object, by the id the allocator gave it. -/
abbrev VarId := ℕ

/-- `Bound::Type`. -/
inductive BoundType where
  | lower | upper | equal
deriving DecidableEq, Repr

/-- `lra::Bound`.  A bound without a limit is the bound at infinity. -/
@[ext]
structure Bound where
  var : VarId
  type : BoundType
  limit : Option (Value ℚ)
deriving DecidableEq, Repr

namespace Bound

def isInfinite (b : Bound) : Bool := b.limit.isNone

/-- `Bound::limit`, which is only read of finite bounds. -/
def limitValue (b : Bound) : Value ℚ := b.limit.getD 0

def isUpperBound (b : Bound) : Bool := b.type != .lower

def isLowerBound (b : Bound) : Bool := b.type != .upper

/-- `Bound::operator<( const Bound& )`. -/
def lt (b c : Bound) : Bool :=
  match b.limit, c.limit with
  | none, none => false
  | none, some _ => b.type == .lower
  | some _, none => c.type == .upper
  | some k, some l =>
    k < l || k == l && (b.type == .lower && c.type == .equal || b.type == .equal && c.type == .upper)

/-- `Bound::operator>( const Bound& )`. -/
def gt (b c : Bound) : Bool :=
  match b.limit, c.limit with
  | none, none => b.type == .upper && c.type == .lower
  | none, some _ => b.type == .upper
  | some _, none => c.type == .lower
  | some k, some l => l < k || k == l && (b.type != .equal && c.type == .equal)

/-- `Bound::operator<( const Value& )`. -/
def ltValue (b : Bound) (x : Value ℚ) : Bool :=
  match b.limit with
  | none => b.type == .lower
  | some l => l < x

/-- `Bound::operator>( const Value& )`. -/
def gtValue (b : Bound) (x : Value ℚ) : Bool :=
  match b.limit with
  | none => b.type == .upper
  | some l => x < l

/-- `Bound::operator==( const Value& )`. -/
def eqValue (b : Bound) (x : Value ℚ) : Bool := b.limit == some x

/-- The bound holds of a value. -/
def Holds (b : Bound) (x : Value ℝ) : Prop :=
  match b.limit with
  | none => True
  | some l =>
    match b.type with
    | .lower => Value.toReal l ≤ x
    | .upper => x ≤ Value.toReal l
    | .equal => x = Value.toReal l

variable {b c : Bound} {l : Value ℚ} {x : Value ℝ}

theorem Holds.le (h : b.Holds x) (hb : b.isUpperBound) (hl : b.limit = some l) :
    x ≤ Value.toReal l := by
  obtain ⟨v, type, limit⟩ := b
  cases hl
  cases type with
  | lower => simp [isUpperBound] at hb
  | upper => exact h
  | equal => exact le_of_eq h

theorem Holds.ge (h : b.Holds x) (hb : b.isLowerBound) (hl : b.limit = some l) :
    Value.toReal l ≤ x := by
  obtain ⟨v, type, limit⟩ := b
  cases hl
  cases type with
  | lower => exact h
  | upper => simp [isLowerBound] at hb
  | equal => exact ge_of_eq h

/-- A strict upper bound is one with a negative infinitesimal part. -/
theorem holds_upper_strict {v : VarId} {k : ℚ} {x : ℝ} :
    (⟨v, .upper, some ⟨k, -1⟩⟩ : Bound).Holds (Value.ofReal x) ↔ x < k := by
  show Value.ofReal x ≤ Value.toReal ⟨k, -1⟩ ↔ x < k
  simp [Value.le_def]

/-- A strict lower bound is one with a positive infinitesimal part. -/
theorem holds_lower_strict {v : VarId} {k : ℚ} {x : ℝ} :
    (⟨v, .lower, some ⟨k, 1⟩⟩ : Bound).Holds (Value.ofReal x) ↔ (k : ℝ) < x := by
  show Value.toReal ⟨k, 1⟩ ≤ Value.ofReal x ↔ (k : ℝ) < x
  simp [Value.le_def]

/-- The bound of a variable at plus or minus infinity. -/
def infinite (v : VarId) (type : BoundType) : Bound := ⟨v, type, none⟩

/-- Insertion in a `BoundSet`, a set of bounds sorted by `lt`. -/
def insert (b : Bound) (bs : List Bound) : List Bound :=
  if b ∈ bs then bs else bs.takeWhile (fun c => !b.lt c) ++ b :: bs.dropWhile fun c => !b.lt c

theorem mem_insert {bs : List Bound} : c ∈ b.insert bs ↔ c = b ∨ c ∈ bs := by
  rw [insert]
  split_ifs with h
  · constructor
    · exact Or.inr
    · rintro (rfl | hc)
      · exact h
      · exact hc
  · have hsplit : c ∈ bs ↔ c ∈ bs.takeWhile (fun c => !b.lt c) ∨
        c ∈ bs.dropWhile fun c => !b.lt c := by
      rw [← mem_append, takeWhile_append_dropWhile]
    rw [mem_append, mem_cons, hsplit, or_left_comm]

end Bound

/-! ## Origins -/

/-- The formulas that occur as origins: `TRUE`, a constraint, or a conjunction of constraints. -/
inductive Origin where
  | true
  | constraint (c : LinearConstraint)
  | conjunction (cs : List LinearConstraint)
deriving DecidableEq

namespace Origin

/-- `FormulaT( carl::FormulaType::AND, .. )`: repeated constraints are dropped, and the
conjunctions of none and of one constraint are simplified. -/
def and (cs : List LinearConstraint) : Origin :=
  match cs.dedup with
  | [] => .true
  | [c] => .constraint c
  | cs => .conjunction cs

/-- The constraints an origin joins. -/
def constraints : Origin → List LinearConstraint
  | .true => []
  | .constraint c => [c]
  | .conjunction cs => cs

/-- The origin is satisfied. -/
def Sat (α : Assignment) (o : Origin) : Prop := ∀ c ∈ o.constraints, c.Sat α

end Origin

/-! ## The bounds of a tableau -/

/-- The bounds of all variables and what is known about them. -/
structure Bounds where
  /-- `mpInfimum` -/
  infimum : VarId → Bound
  /-- `mpSupremum` -/
  supremum : VarId → Bound
  /-- `mLowerbounds` -/
  lowerbounds : VarId → List Bound
  /-- `mUpperbounds` -/
  upperbounds : VarId → List Bound
  /-- `mpOrigins` -/
  origins : Bound → List Origin
  /-- `mAsConstraint`, `TRUE` for the infinite bounds. -/
  asConstraint : Bound → Option LinearConstraint
  /-- `Info::neqRepresentation`, with `none` for `TRUE`. -/
  neqRepresentation : Bound → Option LinearConstraint
  /-- `Info::exists` -/
  boundExists : Bound → Bool
  /-- `Info::complement` -/
  complement : Bound → Option Bound
  /-- `mConstraintToBound` -/
  mConstraintToBound : LinearConstraint → Option (List Bound)

namespace Bounds

/-- Every variable is constructed with its two infinite bounds only. -/
def empty : Bounds where
  infimum v := .infinite v .lower
  supremum v := .infinite v .upper
  lowerbounds v := [.infinite v .lower]
  upperbounds v := [.infinite v .upper]
  origins b := if b.isInfinite then [.true] else []
  asConstraint _ := none
  neqRepresentation _ := none
  boundExists _ := false
  complement _ := none
  mConstraintToBound _ := none

variable (s : Bounds)

def isActive (b : Bound) : Bool := !(s.origins b).isEmpty

def isComplementActive (b : Bound) : Bool :=
  match s.complement b with
  | none => false
  | some c => s.isActive c

def hasBound (v : VarId) : Bool := !((s.infimum v).isInfinite && (s.supremum v).isInfinite)

/-- `Variable::isConflicting`. -/
def isConflicting (v : VarId) : Bool := (s.infimum v).gt (s.supremum v)

/-- `Variable::addUpperBound`.  An existing bound keeps its constraint. -/
def addUpperBound (v : VarId) (limit : Value ℚ) (c : LinearConstraint) : Bound × Bounds :=
  let b : Bound := ⟨v, .upper, some limit⟩
  (b, if b ∈ s.upperbounds v then s else
    { s with
      upperbounds := update s.upperbounds v (b.insert (s.upperbounds v))
      asConstraint := update s.asConstraint b (some c) })

/-- `Variable::addLowerBound`. -/
def addLowerBound (v : VarId) (limit : Value ℚ) (c : LinearConstraint) : Bound × Bounds :=
  let b : Bound := ⟨v, .lower, some limit⟩
  (b, if b ∈ s.lowerbounds v then s else
    { s with
      lowerbounds := update s.lowerbounds v (b.insert (s.lowerbounds v))
      asConstraint := update s.asConstraint b (some c) })

/-- `Variable::addEqualBound`. -/
def addEqualBound (v : VarId) (limit : Value ℚ) (c : LinearConstraint) : Bound × Bounds :=
  let b : Bound := ⟨v, .equal, some limit⟩
  (b, if b ∈ s.lowerbounds v then s else
    { s with
      lowerbounds := update s.lowerbounds v (b.insert (s.lowerbounds v))
      upperbounds := update s.upperbounds v (b.insert (s.upperbounds v))
      asConstraint := update s.asConstraint b (some c) })

/-- `addUpperBound` or `addLowerBound`. -/
def addDirected (upper : Bool) (v : VarId) (limit : Value ℚ) (c : LinearConstraint) :
    Bound × Bounds :=
  if upper then s.addUpperBound v limit c else s.addLowerBound v limit c

/-- `b` is entered in the sets of its side, unless it is there. -/
def Enters (s : Bounds) (b : Bound) (s' : Bounds) : Prop :=
  (b ∈ s.upperbounds b.var ∨ b ∈ s.lowerbounds b.var) ∧ s' = s ∨ ∃ asConstraint, s' = { s with
    upperbounds := if b.isUpperBound then
      update s.upperbounds b.var (b.insert (s.upperbounds b.var)) else s.upperbounds
    lowerbounds := if b.isLowerBound then
      update s.lowerbounds b.var (b.insert (s.lowerbounds b.var)) else s.lowerbounds
    asConstraint }

theorem addDirected_enters (upper : Bool) (v : VarId) (limit : Value ℚ) (c : LinearConstraint) :
    s.Enters ⟨v, if upper then .upper else .lower, some limit⟩ (s.addDirected upper v limit c).2 := by
  rw [addDirected, addUpperBound, addLowerBound]
  split_ifs with hup hold hold
  · exact .inl ⟨.inl hold, rfl⟩
  · exact .inr ⟨_, rfl⟩
  · exact .inl ⟨.inr hold, rfl⟩
  · exact .inr ⟨_, rfl⟩

theorem addEqualBound_enters (v : VarId) (limit : Value ℚ) (c : LinearConstraint) :
    s.Enters ⟨v, .equal, some limit⟩ (s.addEqualBound v limit c).2 := by
  rw [addEqualBound]
  split_ifs with hold
  · exact .inl ⟨.inr hold, rfl⟩
  · exact .inr ⟨_, rfl⟩

/-- The entries that a new bound does not write. -/
structure Keeps (s s' : Bounds) : Prop where
  supremum : s'.supremum = s.supremum
  infimum : s'.infimum = s.infimum
  origins : s'.origins = s.origins
  complement : s'.complement = s.complement
  mConstraintToBound : s'.mConstraintToBound = s.mConstraintToBound

theorem Enters.keeps {s s' : Bounds} {b : Bound} (h : s.Enters b s') : s.Keeps s' := by
  obtain ⟨-, rfl⟩ | ⟨_, rfl⟩ := h <;> exact ⟨rfl, rfl, rfl, rfl, rfl⟩

theorem mem_update_insert {f : VarId → List Bound} {v w : VarId} {b c : Bound} :
    c ∈ update f v (b.insert (f v)) w ↔ c ∈ f w ∨ w = v ∧ c = b := by
  by_cases hw : w = v
  · rw [hw, update_self, Bound.mem_insert, or_comm]
    simp
  · rw [update_of_ne hw]
    simp [hw]

/-- `Variable::deactivateBound`: a bound that was the supremum or the infimum is replaced by the
strongest active one.  The second component tells whether one of them changed. -/
def deactivateBound (b : Bound) : Bounds × Bool :=
  let v := b.var
  let isSup := b.isUpperBound && s.supremum v == b
  let isInf := b.isLowerBound && s.infimum v == b
  ({ s with
      supremum := if isSup then update s.supremum v
        (((s.upperbounds v).find? s.isActive).getD (.infinite v .upper)) else s.supremum
      infimum := if isInf then update s.infimum v
        (((s.lowerbounds v).reverse.find? s.isActive).getD (.infinite v .lower)) else s.infimum },
    isSup || isInf)

end Bounds

end Smtrat.LRA
