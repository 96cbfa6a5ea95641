import Smtrat.Common.Run
import Smtrat.Logic.Formula

/-!
# Inputs of modules

A module receives a list of formulas and passes another one to its backends.  Each stored formula
points to a vector of origins, the formulas it is there for.  Several formulas may point to the
same vector, and some of the operations change a vector in place.
-/

namespace Smtrat

open PropFormula Function

universe u

/-- An element of the list of formulas.  Elements keep their position, by which iterators refer
to them, until they are erased. -/
structure FormulaWithOrigins (A : Type u) where
  position : Nat
  mFormula : Formula A
  /-- The vector with the origins, if there is one. -/
  mOrigins : Option Nat
deriving DecidableEq, Repr

/-- `ModuleInput`, together with the memory its vectors of origins live in. -/
structure ModuleInput (A : Type u) where
  /-- The list itself. -/
  elements : List (FormulaWithOrigins A)
  /-- The position of each stored formula. -/
  mFormulaPositionMap : Formula A → Option Nat
  /-- The position of the next element. -/
  nextPosition : Nat
  vectors : Nat → List (Formula A)
  nextVector : Nat

namespace ModuleInput

variable {A : Type u}

def empty : ModuleInput A := ⟨[], fun _ => none, 0, fun _ => [], 0⟩

def formulas (m : ModuleInput A) : List (Formula A) := m.elements.map (·.mFormula)

def find (m : ModuleInput A) (f : Formula A) : Option Nat := m.mFormulaPositionMap f

def contains (m : ModuleInput A) (f : Formula A) : Bool := (m.mFormulaPositionMap f).isSome

/-- The element an iterator refers to. -/
def element (m : ModuleInput A) (it : Nat) : Option (FormulaWithOrigins A) :=
  m.elements.find? (·.position = it)

/-- The pointer of an element to its origins. -/
def pOrigins (m : ModuleInput A) (it : Nat) : Option Nat := (m.element it).bind (·.mOrigins)

/-- The origins of a stored formula. -/
def origins (m : ModuleInput A) (f : Formula A) : List (Formula A) :=
  match (m.find f).bind m.pOrigins with
  | none => []
  | some v => m.vectors v

/-- A new vector; its address is `nextVector`. -/
def allocate (m : ModuleInput A) (os : List (Formula A)) : ModuleInput A :=
  { m with
    vectors := update m.vectors m.nextVector os
    nextVector := m.nextVector + 1 }

def setVector (m : ModuleInput A) (v : Nat) (os : List (Formula A)) : ModuleInput A :=
  { m with vectors := update m.vectors v os }

/-- Lets the element at `it` point to other origins. -/
def setOrigins (m : ModuleInput A) (it : Nat) (v : Option Nat) : ModuleInput A :=
  { m with
    elements := m.elements.map fun e => if e.position = it then { e with mOrigins := v } else e }

/-- The number of formulas stored. -/
def size (m : ModuleInput A) : Nat := m.elements.length

variable [DecidableEq A]

/-- `emplace_back`, and the entry in the map of positions. -/
def emplaceBack (m : ModuleInput A) (f : Formula A) (v : Option Nat) : ModuleInput A :=
  { m with
    elements := m.elements ++ [⟨m.nextPosition, f, v⟩]
    mFormulaPositionMap := update m.mFormulaPositionMap f (some m.nextPosition)
    nextPosition := m.nextPosition + 1 }

def erase (m : ModuleInput A) (it : Nat) : ModuleInput A :=
  match m.element it with
  | none => m
  | some e =>
    { m with
      elements := m.elements.filter (·.position ≠ it)
      mFormulaPositionMap := update m.mFormulaPositionMap e.mFormula none }

/-- The origin is added in place, also where other formulas point to the same vector. -/
def addOrigin (m : ModuleInput A) (it : Nat) (origin : Formula A) : ModuleInput A :=
  match m.pOrigins it with
  | none => (m.allocate [origin]).setOrigins it (some m.nextVector)
  | some v => m.setVector v (m.vectors v ++ [origin])

/-- Origins given as a vector are added to a copy. -/
def addOrigins (m : ModuleInput A) (it : Nat) (os : Nat) : ModuleInput A :=
  match m.pOrigins it with
  | none => m.setOrigins it (some os)
  | some v => (m.allocate (m.vectors v ++ m.vectors os)).setOrigins it (some m.nextVector)

/-- What an addition says about the origins: a single one, or a pointer to a vector of them. -/
inductive Given (A : Type u) where
  | single (origin : Formula A)
  | shared (origins : Option Nat)

/-- The part of `ModuleInput::add` for a formula that is stored as it is: where it is now, and
whether it is new. -/
def addElement (given : Given A) (f : Formula A) (m : ModuleInput A) :
    (Option Nat × Bool) × ModuleInput A :=
  match m.find f, given with
  | none, .single origin =>
    ((some m.nextPosition, true), (m.allocate [origin]).emplaceBack f (some m.nextVector))
  | none, .shared os => ((some m.nextPosition, true), m.emplaceBack f os)
  | some it, .single origin => ((some it, false), m.addOrigin it origin)
  | some it, .shared (some os) => ((some it, false), m.addOrigins it os)
  | some it, .shared none => ((some it, false), m)

mutual

/-- `ModuleInput::add`: a conjunction is stored as its conjuncts.  The result is the first new
element. -/
def add (given : Given A) :
    Formula A → Bool → ModuleInput A → (Option Nat × Bool) × ModuleInput A
  | .app .and fs, true, m => addSubformulas given fs (none, false) m
  | f, _, m => addElement given f m

def addSubformulas (given : Given A) :
    List (Formula A) → Option Nat × Bool → ModuleInput A → (Option Nat × Bool) × ModuleInput A
  | [], res, m => (res, m)
  | f :: fs, res, m =>
    let (r, m) := add given f true m
    addSubformulas given fs (if res.2 then res else r) m

end

/-! ## Removals -/

/-- The origin vanishes with a formula: it is the formula or a conjunction that has it as a part. -/
def hasPart (origin f : Formula A) : Bool :=
  origin = f || (origin.isConjunction && origin.contains f)

/-- The loop of `ModuleInput::removeOrigin` over the rest of a vector: an entry to remove is
overwritten by the last one.  `n` bounds the length of the rest. -/
def removeParts (f : Formula A) : Nat → List (Formula A) → List (Formula A)
  | 0, origs => origs
  | _ + 1, [] => []
  | n + 1, o :: origs =>
    if hasPart o f then
      match origs.getLast? with
      | some back => removeParts f n (back :: origs.dropLast)
      | none => []
    else o :: removeParts f n origs

/-- Whether the formula at `it` has no origin left. -/
def removeOrigin (m : ModuleInput A) (it : Nat) (f : Formula A) : Bool × ModuleInput A :=
  match m.pOrigins it with
  | none => (true, m)
  | some v =>
    let origs := removeParts f (m.vectors v).length (m.vectors v)
    let m := m.setVector v origs
    if origs.isEmpty then (true, m.setOrigins it none) else (false, m)

/-- Overwrites the first entry `o` by the last one. -/
def removeEntry (origs : List (Formula A)) (o : Formula A) : List (Formula A) :=
  match origs.idxOf? o, origs.getLast? with
  | some i, some back => (origs.set i back).dropLast
  | _, _ => origs

/-- Whether the formula at `it` has no origin left without the given ones. -/
def removeOrigins (m : ModuleInput A) (it : Nat) (os : Option Nat) : Bool × ModuleInput A :=
  match m.pOrigins it with
  | none => (true, m)
  | some v =>
    if os = some v then (true, m.setOrigins it none)
    else
      let origs := ((os.map m.vectors).getD []).foldl removeEntry (m.vectors v)
      let m := m.setVector v origs
      if origs.isEmpty then (true, m.setOrigins it none) else (false, m)

/-- One turn of the loop in `Module::remove`. -/
def removeFrom (f : Formula A) (m : ModuleInput A) (it : Nat) : ModuleInput A :=
  let (erasable, m) := m.removeOrigin it f
  if erasable then m.erase it else m

/-- The loop of `Module::remove` over the passed formulas, when `f` is no longer received. -/
def removeReceived (m : ModuleInput A) (f : Formula A) : ModuleInput A :=
  (m.elements.map (·.position)).foldl (removeFrom f) m

end ModuleInput

end Smtrat
