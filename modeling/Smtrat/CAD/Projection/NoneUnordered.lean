import Smtrat.CAD.Projection.Operator
import Smtrat.Datastructures.OrderedSet

/-!
# Projection without incrementality, backtracking out of order

`Projection<Incrementality::NONE, Backtracking::UNORDERED>` stores a polynomial with its origins, pairs of
polynomials of the level above; polynomials are not forwarded.
-/

/-!
## Origins

An origin of a polynomial is a level and two ids on it, a single id being given twice.  A polynomial may
have several origins.
-/

namespace Smtrat.CAD
open List

/-- `Origin::BaseType`, with the smaller id first. -/
structure BaseType where
  level : ℕ
  first : ℕ
  second : ℕ
deriving DecidableEq

namespace BaseType

/-- The origin given by two ids. -/
def mk' (level id₁ id₂ : ℕ) : BaseType :=
  if id₂ < id₁ then ⟨level, id₂, id₁⟩ else ⟨level, id₁, id₂⟩

/-- The origin given by a single id. -/
def ofId (level id : ℕ) : BaseType := mk' level id id

@[simp] theorem level_mk' (level id₁ id₂ : ℕ) : (mk' level id₁ id₂).level = level := by
  rw [mk']
  split_ifs <;> rfl

@[simp] theorem level_ofId (level id : ℕ) : (ofId level id).level = level := level_mk' level id id

def lt (a b : BaseType) : Bool :=
  if a.level ≠ b.level then a.level < b.level
  else if a.first ≠ b.first then a.first < b.first
  else a.second < b.second

end BaseType

/-- `Origin` -/
structure Origin where
  data : List BaseType
deriving DecidableEq

namespace Origin

def ofBase (b : BaseType) : Origin := ⟨[b]⟩

/-- `std::sort` and `std::unique` -/
def makeUnique (data : List BaseType) : List BaseType :=
  (data.mergeSort fun a b => !BaseType.lt b a).dedup

/-- `operator+=` -/
def add (o : Origin) (b : BaseType) : Origin := ⟨makeUnique (o.data ++ [b])⟩

def isEmpty (o : Origin) : Bool := o.data.isEmpty

/-- Removes the origins of a level with one of the ids. -/
def erase (level : ℕ) (ids : Finset ℕ) (o : Origin) : Origin :=
  ⟨o.data.filter fun b => ¬ (b.level = level ∧ (b.first ∈ ids ∨ b.second ∈ ids))⟩

variable {o : Origin} {b : BaseType}

theorem mem_add {c : BaseType} : c ∈ (o.add b).data ↔ c ∈ o.data ∨ c = b := by
  rw [add, makeUnique, mem_dedup, (mergeSort_perm _ _).mem_iff, mem_append, mem_singleton]

variable {level : ℕ}

/-- Nothing is erased if no origin is on the level. -/
theorem erase_eq_self (ids : Finset ℕ)
    (h : ∀ b ∈ o.data, b.level ≠ level) : o.erase level ids = o := by
  rw [erase, filter_eq_self.mpr]
  intro b hb
  simp [h b hb]

/-- The origins are on levels below, and there is one. -/
def Below (level : ℕ) (o : Origin) : Prop := o.data ≠ [] ∧ ∀ b ∈ o.data, b.level < level

theorem Below.add (h : o.Below level) (hb : b.level < level) : (o.add b).Below level := by
  refine ⟨?_, fun c hc => ?_⟩
  · exact ne_nil_of_mem (mem_add.mpr (.inr rfl))
  · rcases mem_add.mp hc with hc | rfl
    · exact h.2 c hc
    · exact hb

theorem Below.erase_eq_self (h : o.Below level) (ids : Finset ℕ) : o.erase level ids = o :=
  Origin.erase_eq_self ids fun b hb => (h.2 b hb).ne

end Origin

end Smtrat.CAD

namespace Smtrat.CAD
open Function

universe u

/-- `carl::IDPool`: an id that is not in use. -/
structure IDPool where
  get : Finset ℕ → ℕ
  get_notMem : ∀ used, get used ∉ used

/-- `Projection<NONE, UNORDERED>` -/
structure ProjectionNU (P : Type u) where
  /-- Maps polynomials to a (per level) unique ID. -/
  polynomialIDs : ℕ → List (P × ℕ)
  /-- The polynomials with their origins. -/
  polynomials : ℕ → ℕ → Option (P × Origin)
  /-- The ids in use. -/
  idPools : ℕ → Finset ℕ
  liftingQueues : ℕ → Finset ℕ

namespace ProjectionNU

variable {P : Type u}

def init : ProjectionNU P := ⟨fun _ => [], fun _ _ => none, fun _ => ∅, fun _ => ∅⟩

/-- `hasPolynomialById`, `getPolynomialById` -/
def polynomialById (s : ProjectionNU P) (level id : ℕ) : Option P :=
  (s.polynomials level id).map (·.1)

/-- Replaces the entry of an id. -/
def setPolynomial (s : ProjectionNU P) (level id : ℕ) (entry : Option (P × Origin)) : ProjectionNU P :=
  { s with
    polynomials := update s.polynomials level (update (s.polynomials level) id entry) }

/-- Adds an origin to a polynomial. -/
def addOrigin (s : ProjectionNU P) (level id : ℕ) (origin : BaseType) : ProjectionNU P :=
  s.setPolynomial level id ((s.polynomials level id).map fun e => (e.1, e.2.add origin))

/-- `getID` -/
def getID (pool : IDPool) (level : ℕ) (s : ProjectionNU P) : ℕ × ProjectionNU P :=
  let id := pool.get (s.idPools level)
  (id, { s with idPools := update s.idPools level (insert id (s.idPools level)) })

variable [LinearOrder P]

/-- Stores a new polynomial. -/
def insertPolynomial (level : ℕ) (p : P) (id : ℕ) (origin : BaseType) (s : ProjectionNU P) :
    ProjectionNU P :=
  { s.setPolynomial level id (some (p, Origin.ofBase origin)) with
    polynomialIDs := update s.polynomialIDs level (OrderedMap.emplace p id (s.polynomialIDs level))
    liftingQueues := update s.liftingQueues level (insert id (s.liftingQueues level)) }

variable (op : ProjectionOperator P) (pool : IDPool)

/-- Adds a new polynomial to the given level and performs the projection recursively; the first number
is that of the levels above. -/
def addToProjection :
    ℕ → ℕ → P → BaseType → ProjectionNU P → Finset ℕ × ProjectionNU P
  | 0, level, p, origin, s =>
    if op.canBeRemoved p then (∅, s)
    else match OrderedMap.find p (s.polynomialIDs level) with
      | some id => (∅, s.addOrigin level id origin)
      | none =>
        let new := s.getID pool level
        ({level}, new.2.insertPolynomial level p new.1 origin)
  | n + 1, level, p, origin, s =>
    if op.canBeRemoved p then (∅, s)
    else match OrderedMap.find p (s.polynomialIDs level) with
      | some id => (∅, s.addOrigin level id origin)
      | none =>
        let new := s.getID pool level
        let single := forEach (fun np =>
            addToProjection n (level + 1) np (BaseType.ofId level new.1))
          (op.single (level + 1) p) new.2
        let paired := forEach (fun it : P × ℕ =>
            forEach (fun np =>
              addToProjection n (level + 1) np (BaseType.mk' level new.1 it.2))
              (op.paired (level + 1) p it.1))
          (single.2.polynomialIDs level) single.2
        (insert level (single.1 ∪ paired.1), paired.2.insertPolynomial level p new.1 origin)

def addPolynomial (dim : ℕ) (p : P) (cid : ℕ) (s : ProjectionNU P) : Finset ℕ × ProjectionNU P :=
  addToProjection op pool (dim - 1) 1 p (BaseType.ofId 0 cid) s

omit [LinearOrder P]

/-- Erases origins from the polynomials of a level; the loop over the further levels does the same again
for each of them. -/
def eraseOrigins (level : ℕ) (filter : Finset ℕ) : ℕ → ProjectionNU P → ProjectionNU P
  | 0, s => s
  | n + 1, s =>
    eraseOrigins level filter n ((s.polynomialIDs level).foldl (fun s it =>
      s.setPolynomial level it.2
        ((s.polynomials level it.2).map fun e => (e.1, e.2.erase level filter))) s)

/-- The loop that removes the polynomials without origins from a level; the list is the rest of the map. -/
def removeLoop (level : ℕ) : List (P × ℕ) → ProjectionNU P → Finset ℕ × ProjectionNU P
  | [], s => (∅, { s with polynomialIDs := update s.polynomialIDs level [] })
  | it :: rest, s =>
    if (s.polynomials level it.2).any fun e => e.2.isEmpty then
      let r := removeLoop level rest
        { s.setPolynomial level it.2 none with
          idPools := update s.idPools level ((s.idPools level).erase it.2)
          liftingQueues := update s.liftingQueues level ((s.liftingQueues level).erase it.2) }
      (insert it.2 r.1, r.2)
    else
      let r := removeLoop level rest s
      (r.1, { r.2 with
        polynomialIDs := update r.2.polynomialIDs level (it :: r.2.polynomialIDs level) })

/-- Removes the polynomials of a number of levels, and gives the calls of the remove callback. -/
def removeLevels : ℕ → ℕ → Finset ℕ → ProjectionNU P → List (ℕ × Finset ℕ) × ProjectionNU P
  | 0, _, _, s => ([], s)
  | n + 1, level, filter, s =>
    let s := s.eraseOrigins level filter (n + 1)
    let r := removeLoop level (s.polynomialIDs level) s
    let rest := removeLevels n (level + 1) r.1 r.2
    ((level, r.1) :: rest.1, rest.2)

def removePolynomial (dim cid : ℕ) (s : ProjectionNU P) : List (ℕ × Finset ℕ) × ProjectionNU P :=
  removeLevels dim 1 {cid} s

end ProjectionNU

end Smtrat.CAD
