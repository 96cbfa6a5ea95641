import Mathlib

/-!
# Propositional formulas over arbitrary atoms

Formulas are constants, atoms and connectives applied to lists of formulas.  A solver does not
keep them as written: a formula pool simplifies each node when it is built.  What it does exactly
is left open here, a `FormulaPool` is any way to rebuild a node that keeps its value and mentions
no new atom.
-/

namespace PropFormula
open List

universe u v

/-- The connectives of a formula. -/
inductive Connective where
  | not | and | or | implies | xor | iff | ite
deriving DecidableEq, Repr

/-- The value of a connective; `xor` is the parity of its arguments and `iff` says that they are
all equal. -/
def Connective.eval : Connective → List Bool → Bool
  | .not, [a] => !a
  | .and, as => as.all id
  | .or, as => as.any id
  | .implies, [a, b] => !a || b
  | .xor, as => as.foldr Bool.xor false
  | .iff, as => as.all id || as.all Bool.not
  | .ite, [c, a, b] => bif c then a else b
  | _, _ => false

namespace Connective

@[simp] theorem eval_not (a : Bool) : eval .not [a] = !a := rfl

@[simp] theorem eval_and (as : List Bool) : eval .and as = as.all id := by
  cases as <;> rfl

@[simp] theorem eval_or (as : List Bool) : eval .or as = as.any id := by
  cases as <;> rfl

@[simp] theorem eval_implies (a b : Bool) : eval .implies [a, b] = (!a || b) := rfl

@[simp] theorem eval_xor (a b : Bool) : eval .xor [a, b] = (a ^^ b) := by
  cases a <;> cases b <;> rfl

@[simp] theorem eval_iff (a b : Bool) : eval .iff [a, b] = (a == b) := by
  cases a <;> cases b <;> rfl

@[simp] theorem eval_ite (c a b : Bool) : eval .ite [c, a, b] = bif c then a else b := rfl

end Connective

inductive Formula (A : Type u) where
  | const (b : Bool)
  | atom (a : A)
  | app (c : Connective) (fs : List (Formula A))
deriving Repr

namespace Formula

variable {A : Type u}

mutual

/-- The value of a formula under a valuation of its atoms. -/
def eval (α : A → Bool) : Formula A → Bool
  | const b => b
  | atom a => α a
  | app c fs => c.eval (evalAll α fs)

def evalAll (α : A → Bool) : List (Formula A) → List Bool
  | [] => []
  | f :: fs => eval α f :: evalAll α fs

end

mutual

/-- The formula with other names for its atoms. -/
def map {B : Type v} (g : A → B) : Formula A → Formula B
  | const b => const b
  | atom a => atom (g a)
  | app c fs => app c (mapAll g fs)

def mapAll {B : Type v} (g : A → B) : List (Formula A) → List (Formula B)
  | [] => []
  | f :: fs => map g f :: mapAll g fs

end

mutual

/-- The atom `a` occurs in a formula. -/
def Mentions (a : A) : Formula A → Prop
  | const _ => False
  | atom b => b = a
  | app _ fs => MentionsAny a fs

def MentionsAny (a : A) : List (Formula A) → Prop
  | [] => False
  | f :: fs => Mentions a f ∨ MentionsAny a fs

end

mutual

/-- The atoms that occur in a formula, in order. -/
def atoms : Formula A → List A
  | const _ => []
  | atom a => [a]
  | app _ fs => atomsAll fs

def atomsAll : List (Formula A) → List A
  | [] => []
  | f :: fs => atoms f ++ atomsAll fs

end

/-- Formulas that are not built by a connective. -/
def isAtom : Formula A → Bool
  | const _ => true
  | atom _ => true
  | app _ _ => false

/-- `AND` formulas. -/
def isConjunction : Formula A → Bool
  | app .and _ => true
  | _ => false

def subformulas : Formula A → List (Formula A)
  | const _ => []
  | atom _ => []
  | app _ fs => fs

section DecidableEq

variable [DecidableEq A]

mutual

def decEq : (f g : Formula A) → Decidable (f = g)
  | const b, const c => decidable_of_iff (b = c) (by simp)
  | atom a, atom b => decidable_of_iff (a = b) (by simp)
  | app c fs, app d gs =>
    match decEqAll fs gs with
    | isTrue h => decidable_of_iff (c = d) (by simp [h])
    | isFalse h => isFalse (by simp [h])
  | const _, atom _ | const _, app _ _ | atom _, const _ | atom _, app _ _ | app _ _, const _
  | app _ _, atom _ => isFalse nofun

def decEqAll : (fs gs : List (Formula A)) → Decidable (fs = gs)
  | [], [] => isTrue rfl
  | f :: fs, g :: gs =>
    match decEq f g with
    | isTrue h => match decEqAll fs gs with
      | isTrue hs => isTrue (by rw [h, hs])
      | isFalse hs => isFalse fun he => hs (List.cons.inj he).2
    | isFalse h => isFalse fun he => h (List.cons.inj he).1
  | [], _ :: _ | _ :: _, [] => isFalse nofun

end

instance : DecidableEq (Formula A) := decEq

instance lawfulBEq : LawfulBEq (Formula A) := inferInstance

/-- The formula itself or one of its direct subformulas. -/
def contains (f g : Formula A) : Bool := f = g || g ∈ f.subformulas

end DecidableEq

/-- Induction with one case for each kind of node. -/
@[elab_as_elim]
theorem induction {P : Formula A → Prop} (hconst : ∀ b, P (const b)) (hatom : ∀ a, P (atom a))
    (happ : ∀ c fs, (∀ f ∈ fs, P f) → P (app c fs)) (f : Formula A) : P f := by
  refine @Formula.rec A P (fun fs => ∀ f ∈ fs, P f) hconst hatom
    (fun c fs ih => happ c fs ih) ?_ (fun f fs hf hfs => ?_) f
  · rintro f ⟨⟩
  · intro g hg
    rcases mem_cons.mp hg with rfl | hg
    · exact hf
    · exact hfs g hg

variable {B : Type v}

@[simp] theorem eval_const (α : A → Bool) (b : Bool) : (const b).eval α = b := by
  rw [eval]

@[simp] theorem eval_atom (α : A → Bool) (a : A) : (atom a).eval α = α a := by
  rw [eval]

@[simp] theorem evalAll_eq_map (α : A → Bool) (fs : List (Formula A)) :
    evalAll α fs = fs.map (eval α) := by
  induction fs with
  | nil => rfl
  | cons f fs ih => rw [evalAll, ih, map_cons]

@[simp] theorem eval_app (α : A → Bool) (c : Connective) (fs : List (Formula A)) :
    (app c fs).eval α = c.eval (fs.map (eval α)) := by
  rw [eval, evalAll_eq_map]

@[simp] theorem eval_map (g : A → B) (β : B → Bool) (f : Formula A) :
    (f.map g).eval β = f.eval fun a => β (g a) := by
  induction f using Formula.induction with
  | hconst b => rw [map, eval_const, eval_const]
  | hatom a => rw [map, eval_atom, eval_atom]
  | happ c fs ih =>
    rw [map, eval_app, eval_app]
    refine congrArg c.eval ?_
    induction fs with
    | nil => rfl
    | cons f fs ihl =>
      rw [mapAll, map_cons, map_cons, ih f mem_cons_self,
        ihl fun h hh => ih h (mem_cons_of_mem f hh)]

theorem mapAll_eq_map (g : A → B) (fs : List (Formula A)) : mapAll g fs = fs.map (map g) := by
  induction fs with
  | nil => rfl
  | cons f fs ih => rw [mapAll, ih, map_cons]

theorem map_injective {g : A → B} (hg : Function.Injective g) : Function.Injective (map g) := by
  intro f
  induction f using Formula.induction with
  | hconst b =>
    intro f' h
    cases f' <;> simp_all [map]
  | hatom a =>
    intro f' h
    cases f' <;> simp_all [map, hg.eq_iff]
  | happ c fs ih =>
    intro f' h
    cases f' with
    | const b => simp [map] at h
    | atom b => simp [map] at h
    | app d gs =>
      rw [map, map, mapAll_eq_map, mapAll_eq_map, app.injEq] at h
      obtain ⟨rfl, hfs⟩ := h
      refine congrArg (app c) ?_
      induction fs generalizing gs with
      | nil => exact (map_eq_nil_iff.mp hfs.symm).symm
      | cons f fs ihl =>
        cases gs with
        | nil => cases hfs
        | cons g' gs =>
          rw [map_cons, map_cons, List.cons.injEq] at hfs
          rw [ih f mem_cons_self hfs.1, ihl (fun h hh => ih h (mem_cons_of_mem f hh)) gs hfs.2]

theorem subformulas_map (g : A → B) (f : Formula A) :
    (f.map g).subformulas = f.subformulas.map (map g) := by
  cases f with
  | const b => rfl
  | atom a => rfl
  | app c fs => exact mapAll_eq_map g fs

theorem isConjunction_map (g : A → B) (f : Formula A) :
    (f.map g).isConjunction = f.isConjunction := by
  cases f with
  | const b => rfl
  | atom a => rfl
  | app c fs => cases c <;> rfl

theorem contains_map [DecidableEq A] [DecidableEq B] {g : A → B}
    (hg : Function.Injective g) (f f' : Formula A) :
    (f.map g).contains (f'.map g) = f.contains f' := by
  have hinj := map_injective hg
  rw [Bool.eq_iff_iff, contains, contains, subformulas_map]
  simp [hinj.eq_iff]

@[simp] theorem mentions_const (a : A) (b : Bool) : ¬ (const b).Mentions a := by
  rw [Mentions]
  exact not_false

@[simp] theorem mentions_atom (a b : A) : (atom b).Mentions a ↔ b = a := by
  rw [Mentions]

@[simp] theorem mentionsAny_iff (a : A) (fs : List (Formula A)) :
    MentionsAny a fs ↔ ∃ f ∈ fs, f.Mentions a := by
  induction fs with
  | nil => simp [MentionsAny]
  | cons f fs ih => simp [MentionsAny, ih]

@[simp] theorem mentions_app (a : A) (c : Connective) (fs : List (Formula A)) :
    (app c fs).Mentions a ↔ ∃ f ∈ fs, f.Mentions a := by
  rw [Mentions, mentionsAny_iff]

theorem mem_atoms (a : A) (f : Formula A) : a ∈ f.atoms ↔ f.Mentions a := by
  induction f using Formula.induction with
  | hconst b => simp [atoms]
  | hatom b => simp [atoms, eq_comm]
  | happ c fs ih =>
    rw [atoms, mentions_app]
    induction fs with
    | nil => simp [atomsAll]
    | cons f fs ihl =>
      have hfs := ihl fun g hg => ih g (mem_cons_of_mem f hg)
      simp [atomsAll, ih f mem_cons_self, hfs]

/-- The value of a formula depends on the atoms it mentions only. -/
theorem eval_congr {α β : A → Bool} {f : Formula A} (h : ∀ a, f.Mentions a → α a = β a) :
    f.eval α = f.eval β := by
  induction f using Formula.induction with
  | hconst b => simp
  | hatom a => simpa using h a (by simp)
  | happ c fs ih =>
    rw [eval_app, eval_app]
    refine congrArg c.eval (map_congr_left fun f hf => ?_)
    exact ih f hf fun a ha => h a ((mentions_app a c fs).mpr ⟨f, hf, ha⟩)

end Formula

/-- A way to build formulas that may simplify the top node. -/
structure FormulaPool (A : Type u) where
  simplify : Formula A → Formula A
  eval_simplify : ∀ α f, (simplify f).eval α = f.eval α
  mentions_simplify : ∀ a f, (simplify f).Mentions a → f.Mentions a

/-- The pool that builds formulas as written. -/
def FormulaPool.verbatim (A : Type u) : FormulaPool A := ⟨id, fun _ _ => rfl, fun _ _ => id⟩

namespace FormulaPool

variable {A : Type u}

/-- The formula a connective and its subformulas are stored as. -/
def create (pool : FormulaPool A) (c : Connective) (fs : List (Formula A)) : Formula A :=
  pool.simplify (.app c fs)

@[simp] theorem eval_create (pool : FormulaPool A) (α : A → Bool) (c : Connective)
    (fs : List (Formula A)) : (pool.create c fs).eval α = c.eval (fs.map (Formula.eval α)) := by
  rw [create, pool.eval_simplify, Formula.eval_app]

theorem mentions_create (pool : FormulaPool A) {a : A} {c : Connective} {fs : List (Formula A)}
    (h : (pool.create c fs).Mentions a) : ∃ f ∈ fs, f.Mentions a :=
  (Formula.mentions_app a c fs).mp (pool.mentions_simplify a _ h)

end FormulaPool

end PropFormula
