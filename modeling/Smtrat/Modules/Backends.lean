import Smtrat.Common.Atom
import Smtrat.Modules.ModuleInput

/-!
# Modules and their backends

A module hands its passed formulas to the backends that its manager has made for it.  One iterator
separates the formulas all the backends have received already from those none of them has.  The
manager makes a backend when the strategy asks for it for the first time.
-/

namespace Smtrat.Backends

open PropFormula

universe u

/-- The priority of a backend and its vertex in the strategy graph, which tell the backends of a
module apart. -/
abbrev ThreadPriority := Nat × Nat

/-- The calls that a module, or the manager for it, makes of the backends. -/
inductive Call (A : Type u) where
  | add (backend : ThreadPriority) (f : Formula A)
  | remove (backend : ThreadPriority) (f : Formula A)
  /-- A check, with the formulas that the module passes at this time. -/
  | check (backend : ThreadPriority) (passed : List (Formula A))
deriving DecidableEq

/-- What the backends answer while they are run. -/
structure Answers (A : Type u) where
  /-- Whether a backend has an infeasible subset already. -/
  infeasible : ThreadPriority → Bool
  add : ThreadPriority → Formula A → Bool
  check : ThreadPriority → Answer

/-- The part of `Module` that concerns its backends. -/
structure Module (A : Type u) where
  mpPassedFormula : ModuleInput A
  /-- The position of the first formula the backends have not received; the end if there is
  none. -/
  mFirstSubformulaToPass : Option Nat
  mAllBackends : List ThreadPriority
  /-- The calls so far. -/
  calls : List (Call A)

namespace Module

variable {A : Type u}

def initial : Module A := ⟨.empty, none, [], []⟩

/-- The elements from the beginning up to `mFirstSubformulaToPass`. -/
def beforeFirst (s : Module A) : List (FormulaWithOrigins A) :=
  match s.mFirstSubformulaToPass with
  | none => s.mpPassedFormula.elements
  | some it => s.mpPassedFormula.elements.takeWhile (·.position ≠ it)

/-- The elements from `mFirstSubformulaToPass` up to the end. -/
def fromFirst (s : Module A) : List (FormulaWithOrigins A) :=
  match s.mFirstSubformulaToPass with
  | none => []
  | some it => s.mpPassedFormula.elements.dropWhile (·.position ≠ it)

/-- Makes further calls. -/
def call (s : Module A) (cs : List (Call A)) : Module A := { s with calls := s.calls ++ cs }

/-! ## Running the backends -/

/-- The calls that add elements to a backend. -/
def adds (es : List (FormulaWithOrigins A)) (p : ThreadPriority) : List (Call A) :=
  es.map fun e => .add p e.mFormula

/-- A new backend receives the formulas the others have received. -/
def createBackend (s : Module A) (p : ThreadPriority) : Module A :=
  { s with mAllBackends := s.mAllBackends ++ [p] }.call (adds s.beforeFirst p)

/-- One turn of the loop in `Manager::getBackends`. -/
def getBackend (s : Module A) (p : ThreadPriority) : Module A :=
  if p ∈ s.mAllBackends then s else s.createBackend p

/-- `Manager::getBackends`, for the factories that the strategy graph offers: the backends to be
used are theirs. -/
def getBackends (factories : List ThreadPriority) (s : Module A) : Module A :=
  factories.foldl getBackend s

/-- The formulas that are new to the backends are added to all of them, whatever they answer. -/
def passFormulas (s : Module A) : Module A :=
  { s with mFirstSubformulaToPass := none }.call (s.mAllBackends.flatMap (adds s.fromFirst))

def assertionFailed (r : Answers A) (s : Module A) : Bool :=
  s.mAllBackends.any fun p => r.infeasible p || s.fromFirst.any fun e => !r.add p e.mFormula

/-- The loop that runs the used backends until one of them finds an answer. -/
def checkBackends (r : Answers A) : List ThreadPriority → Answer → Module A → Answer × Module A
  | [], result, s => (result, s)
  | p :: ps, result, s =>
    if result = .unknown then
      checkBackends r ps (r.check p) (s.call [.check p s.mpPassedFormula.formulas])
    else (result, s)

def runBackends (factories : List ThreadPriority) (r : Answers A) (s : Module A) :
    Answer × Module A :=
  let s := getBackends factories s
  if factories.isEmpty then (.unknown, s)
  else if s.mFirstSubformulaToPass.isSome then
    if s.assertionFailed r then (.unsat, s.passFormulas)
    else checkBackends r factories .unknown s.passFormulas
  else checkBackends r factories .unknown s

/-! ## Changes of the passed formulas -/

/-- Changes the origins of the passed formulas. -/
def withPassed (s : Module A) (m : ModuleInput A) : Module A := { s with mpPassedFormula := m }

variable [DecidableEq A]

def addSubformulaToPassedFormula (given : ModuleInput.Given A) (f : Formula A)
    (mightBeConjunction : Bool) (s : Module A) : Module A :=
  let (res, passed) := ModuleInput.add given f mightBeConjunction s.mpPassedFormula
  { s with
    mpPassedFormula := passed
    mFirstSubformulaToPass :=
      if res.2 && s.mFirstSubformulaToPass.isNone then res.1 else s.mFirstSubformulaToPass }

/-- The erasure of the element at `it`, if there is one.  Its origins do not matter: they are
cleared or there are none. -/
def eraseSubformulaFromPassedFormula (it : Nat) (s : Module A) : Option (Module A) :=
  (s.mpPassedFormula.element it).map fun e =>
    let erased := { s with mpPassedFormula := s.mpPassedFormula.erase it }
    if s.mFirstSubformulaToPass = some it then
      { erased with mFirstSubformulaToPass := s.fromFirst.tail.head?.map (·.position) }
    else if it ∈ s.fromFirst.map (·.position) then erased
    else erased.call (s.mAllBackends.map (.remove · e.mFormula))

/-- Continues after a removal of origins, which says whether there are none left. -/
def eraseIf (it : Nat) (s : Module A) (res : Bool × ModuleInput A) : Option (Module A) :=
  if res.1 then (s.withPassed res.2).eraseSubformulaFromPassedFormula it
  else some (s.withPassed res.2)

def removeOrigin (it : Nat) (origin : Formula A) (s : Module A) : Option (Module A) :=
  s.eraseIf it (s.mpPassedFormula.removeOrigin it origin)

def removeOrigins (it : Nat) (origins : Option Nat) (s : Module A) : Option (Module A) :=
  s.eraseIf it (s.mpPassedFormula.removeOrigins it origins)

/-! ## Runs -/

/-- What a module does.  `Module::remove` calls `removeOrigin` for the passed formulas one after
the other, and `init` asks for the backends without running them. -/
inductive Action (A : Type u) where
  /-- A vector of origins is made. -/
  | makeOrigins (origins : List (Formula A))
  | addSubformula (given : ModuleInput.Given A) (f : Formula A) (mightBeConjunction : Bool)
  | addOrigin (it : Nat) (origin : Formula A)
  | removeOrigin (it : Nat) (origin : Formula A)
  | removeOrigins (it : Nat) (origins : Option Nat)
  | eraseSubformula (it : Nat)
  | init (factories : List ThreadPriority)
  | runBackends (factories : List ThreadPriority) (answers : Answers A)

def step (s : Module A) : Action A → Option (Module A)
  | .makeOrigins os => some (s.withPassed (s.mpPassedFormula.allocate os))
  | .addSubformula given f b => some (s.addSubformulaToPassedFormula given f b)
  | .addOrigin it o => some (s.withPassed (s.mpPassedFormula.addOrigin it o))
  | .removeOrigin it o => s.removeOrigin it o
  | .removeOrigins it os => s.removeOrigins it os
  | .eraseSubformula it => s.eraseSubformulaFromPassedFormula it
  | .init factories => some (s.getBackends factories)
  | .runBackends factories r => some (s.runBackends factories r).2

end Module

end Smtrat.Backends

/-!
## What backends receive

The calls that are made of the backends determine which formulas each of them has received.
-/

namespace Smtrat

open PropFormula List Function

universe u

variable {A : Type u}

namespace Backends

variable [DecidableEq A]

/-- The formulas each backend has received, after a further call. -/
def Call.receive (r : ThreadPriority → List (Formula A)) : Call A → ThreadPriority → List (Formula A)
  | .add p f => update r p (r p ++ [f])
  | .remove p f => update r p ((r p).erase f)
  | .check _ _ => r

/-- The formulas each backend has received: those added to it and not removed since. -/
def received (cs : List (Call A)) : ThreadPriority → List (Formula A) :=
  cs.foldl Call.receive fun _ => []

/-- A formula is added to a backend that does not have it and removed from one that has it.  A
backend that is checked has exactly the passed formulas, each of them once. -/
def Call.Ok (r : ThreadPriority → List (Formula A)) : Call A → Prop
  | .add p f => f ∉ r p
  | .remove p f => f ∈ r p
  | .check p passed => r p = passed ∧ passed.Nodup

/-- Every call is in order, given the ones before it. -/
def Proper (cs : List (Call A)) : Prop :=
  ∀ before c after, cs = before ++ c :: after → c.Ok (received before)

theorem received_concat (cs : List (Call A)) (c : Call A) :
    received (cs ++ [c]) = c.receive (received cs) :=
  foldl_append

variable {cs : List (Call A)}

theorem Proper.concat (h : Proper cs) {c : Call A} (hc : c.Ok (received cs)) :
    Proper (cs ++ [c]) := by
  intro before d after heq
  rcases eq_nil_or_concat after with rfl | ⟨after, e, rfl⟩
  · obtain ⟨rfl, hd⟩ := append_inj' heq rfl
    cases hd
    exact hc
  · have heq' : cs ++ [c] = (before ++ d :: after) ++ [e] := by
      rw [heq]
      simp
    exact h before d after (append_inj' heq' rfl).1

theorem received_add_self (cs : List (Call A)) (p : ThreadPriority) (f : Formula A) :
    received (cs ++ [.add p f]) p = received cs p ++ [f] := by
  rw [received_concat]
  exact update_self _ _ _

/-- Several formulas are added to one backend. -/
theorem received_adds (cs : List (Call A)) (es : List (FormulaWithOrigins A))
    (p q : ThreadPriority) :
    received (cs ++ Module.adds es p) q
      = if q = p then received cs q ++ es.map (·.mFormula) else received cs q := by
  induction es generalizing cs with
  | nil => simp [Module.adds]
  | cons e es ih =>
    have hcons : cs ++ Module.adds (e :: es) p
        = (cs ++ [.add p e.mFormula]) ++ Module.adds es p := by simp [Module.adds]
    rw [hcons, ih]
    split_ifs with hq
    · subst hq
      rw [received_add_self]
      simp
    · rw [received_concat]
      exact update_of_ne hq _ _

theorem Proper.adds (h : Proper cs) {es : List (FormulaWithOrigins A)}
    {p : ThreadPriority} (hnodup : (received cs p ++ es.map (·.mFormula)).Nodup) :
    Proper (cs ++ Module.adds es p) := by
  induction es generalizing cs with
  | nil => simpa [Module.adds] using h
  | cons e es ih =>
    have hcons : cs ++ Module.adds (e :: es) p
        = (cs ++ [.add p e.mFormula]) ++ Module.adds es p := by simp [Module.adds]
    rw [hcons]
    have hnew : e.mFormula ∉ received cs p := by
      intro hmem
      exact (nodup_append.mp hnodup).2.2 _ hmem _ mem_cons_self rfl
    refine ih (h.concat hnew) ?_
    rw [received_add_self, append_assoc]
    exact hnodup

variable {ps : List ThreadPriority}

/-- Several formulas are added to several backends. -/
theorem received_flatMap_adds (cs : List (Call A)) (es : List (FormulaWithOrigins A))
    (hps : ps.Nodup) (q : ThreadPriority) :
    received (cs ++ ps.flatMap (Module.adds es)) q
      = if q ∈ ps then received cs q ++ es.map (·.mFormula) else received cs q := by
  induction ps generalizing cs with
  | nil => simp
  | cons p ps ih =>
    obtain ⟨hp, hps⟩ := nodup_cons.mp hps
    rw [flatMap_cons, ← append_assoc, ih _ hps, received_adds]
    by_cases hq : q = p
    · subst hq
      simp [hp]
    · simp [hq]

theorem Proper.flatMap_adds (h : Proper cs) {es : List (FormulaWithOrigins A)} (hps : ps.Nodup)
    (hnodup : ∀ p ∈ ps, (received cs p ++ es.map (·.mFormula)).Nodup) :
    Proper (cs ++ ps.flatMap (Module.adds es)) := by
  induction ps generalizing cs with
  | nil => simpa using h
  | cons p ps ih =>
    obtain ⟨hp, hps⟩ := nodup_cons.mp hps
    rw [flatMap_cons, ← append_assoc]
    refine ih (h.adds (hnodup p mem_cons_self)) hps fun q hq => ?_
    have hqp : q ≠ p := fun heq => hp (heq ▸ hq)
    rw [received_adds, if_neg hqp]
    exact hnodup q (mem_cons_of_mem p hq)

/-- A formula is removed from several backends. -/
theorem received_removes (cs : List (Call A)) (hps : ps.Nodup)
    (f : Formula A) (q : ThreadPriority) :
    received (cs ++ ps.map (.remove · f)) q
      = if q ∈ ps then (received cs q).erase f else received cs q := by
  induction ps generalizing cs with
  | nil => simp
  | cons p ps ih =>
    obtain ⟨hp, hps⟩ := nodup_cons.mp hps
    have hcons : cs ++ (p :: ps).map (.remove · f)
        = (cs ++ [.remove p f]) ++ ps.map (.remove · f) := by simp
    rw [hcons, ih _ hps, received_concat, Call.receive]
    by_cases hq : q = p
    · subst hq
      simp [hp]
    · simp [hq]

theorem Proper.removes (h : Proper cs)
    (hps : ps.Nodup) {f : Formula A} (hf : ∀ p ∈ ps, f ∈ received cs p) :
    Proper (cs ++ ps.map (.remove · f)) := by
  induction ps generalizing cs with
  | nil => simpa using h
  | cons p ps ih =>
    obtain ⟨hp, hps⟩ := nodup_cons.mp hps
    have hcons : cs ++ (p :: ps).map (.remove · f)
        = (cs ++ [.remove p f]) ++ ps.map (.remove · f) := by simp
    rw [hcons]
    refine ih (h.concat (hf p mem_cons_self)) hps fun q hq => ?_
    have hqp : q ≠ p := fun heq => hp (heq ▸ hq)
    rw [received_concat, Call.receive, update_of_ne hqp]
    exact hf q (mem_cons_of_mem p hq)

end Backends

end Smtrat
