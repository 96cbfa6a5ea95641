import Mathlib

/-!
# Uninterpreted terms

Terms over sorted variables and functions, and the curried terms, which have variables of one sort
and one binary function.
-/

namespace Smtrat.Curry

universe u

inductive UTerm (Var F : Type u) where
  | var (v : Var)
  | inst (fn : F) (args : List (UTerm Var F))
deriving Repr

structure UEquality (Var F : Type u) where
  lhs : UTerm Var F
  rhs : UTerm Var F
  negated : Bool
deriving Repr

/-- The terms over the variables of the curry sort and the curry function. -/
inductive CurryTerm where
  | var (n : ℕ)
  | app (lhs rhs : CurryTerm)
deriving DecidableEq, Repr

structure CurryEquality where
  lhs : CurryTerm
  rhs : CurryTerm
  negated : Bool
deriving DecidableEq, Repr

variable {Var F S : Type u}

namespace UTerm

section DecidableEq

variable [DecidableEq Var] [DecidableEq F]

mutual

def decEq : (s t : UTerm Var F) → Decidable (s = t)
  | var v, var w => decidable_of_iff (v = w) (by simp)
  | inst f ss, inst g ts =>
    match decEqAll ss ts with
    | isTrue h => decidable_of_iff (f = g) (by simp [h])
    | isFalse h => isFalse (by simp [h])
  | var _, inst _ _ | inst _ _, var _ => isFalse nofun

def decEqAll : (ss ts : List (UTerm Var F)) → Decidable (ss = ts)
  | [], [] => isTrue rfl
  | s :: ss, t :: ts =>
    match decEq s t with
    | isTrue h => match decEqAll ss ts with
      | isTrue hs => isTrue (by rw [h, hs])
      | isFalse hs => isFalse fun he => hs (List.cons.inj he).2
    | isFalse h => isFalse fun he => h (List.cons.inj he).1
  | [], _ :: _ | _ :: _, [] => isFalse nofun

end

instance : DecidableEq (UTerm Var F) := decEq

deriving instance DecidableEq for UEquality

end DecidableEq

/-- Induction over a term and its arguments. -/
@[elab_as_elim]
theorem induction {P : UTerm Var F → Prop} (hvar : ∀ v, P (var v))
    (hinst : ∀ f args, (∀ t ∈ args, P t) → P (inst f args)) (t : UTerm Var F) : P t := by
  refine @UTerm.rec Var F P (fun ts => ∀ t ∈ ts, P t) hvar hinst ?_ (fun t ts ht hts => ?_) t
  · rintro t ⟨⟩
  · intro s hs
    rcases List.mem_cons.mp hs with rfl | hs
    · exact ht
    · exact hts s hs

end UTerm

/-! ## Sorts and arities -/

structure Signature (Var F S : Type u) where
  sortOf : Var → S
  codomain : F → S
  arity : F → ℕ

/-- The functions have as many arguments as they should. -/
inductive UTerm.WellFormed (sig : Signature Var F S) : UTerm Var F → Prop
  | var (v : Var) : WellFormed sig (.var v)
  | inst {f : F} {args : List (UTerm Var F)} : args.length = sig.arity f →
      (∀ t ∈ args, WellFormed sig t) → WellFormed sig (.inst f args)

def UTerm.sort (sig : Signature Var F S) : UTerm Var F → S
  | .var v => sig.sortOf v
  | .inst f _ => sig.codomain f

/-- Terms that apply a function to arguments. -/
def UTerm.IsApplication : UTerm Var F → Prop
  | .var _ => False
  | .inst _ args => args ≠ []

def UEquality.HasApplication (e : UEquality Var F) : Prop :=
  e.lhs.IsApplication ∨ e.rhs.IsApplication

/-- The sides are well-formed terms of one sort. -/
def UEquality.WellFormed (sig : Signature Var F S) (e : UEquality Var F) : Prop :=
  e.lhs.WellFormed sig ∧ e.rhs.WellFormed sig ∧ e.lhs.sort sig = e.rhs.sort sig

/-! ## Meaning -/

/-- An interpretation has a domain for each sort; values carry their sort. -/
structure Interpretation (sig : Signature Var F S) where
  Carrier : S → Type u
  var : ∀ v, Carrier (sig.sortOf v)
  app : ∀ f, List (Σ s, Carrier s) → Carrier (sig.codomain f)

namespace Interpretation

variable {sig : Signature Var F S} (I : Interpretation sig)

abbrev Value : Type u := Σ s, I.Carrier s

mutual

def eval : UTerm Var F → I.Value
  | .var v => ⟨sig.sortOf v, I.var v⟩
  | .inst f args => ⟨sig.codomain f, I.app f (evalAll args)⟩

def evalAll : List (UTerm Var F) → List I.Value
  | [] => []
  | t :: ts => eval t :: evalAll ts

end

@[simp] theorem evalAll_eq_map (ts : List (UTerm Var F)) : I.evalAll ts = ts.map I.eval := by
  induction ts with
  | nil => rfl
  | cons t ts ih => rw [evalAll, ih, List.map_cons]

@[simp] theorem eval_var (v : Var) : I.eval (.var v) = ⟨sig.sortOf v, I.var v⟩ := by
  rw [eval]

@[simp] theorem eval_inst (f : F) (args : List (UTerm Var F)) :
    I.eval (.inst f args) = ⟨sig.codomain f, I.app f (args.map I.eval)⟩ := by
  rw [eval, evalAll_eq_map]

def Holds (e : UEquality Var F) : Prop :=
  if e.negated then I.eval e.lhs ≠ I.eval e.rhs else I.eval e.lhs = I.eval e.rhs

end Interpretation

/-- An interpretation of the curry sort and the curry function. -/
structure CurryModel where
  Carrier : Type u
  app : Carrier → Carrier → Carrier
  value : ℕ → Carrier

namespace CurryModel

variable (M : CurryModel.{u})

def eval : CurryTerm → M.Carrier
  | .var n => M.value n
  | .app l r => M.app (eval l) (eval r)

@[simp] theorem eval_var (n : ℕ) : M.eval (.var n) = M.value n := rfl

@[simp] theorem eval_app (l r : CurryTerm) : M.eval (.app l r) = M.app (M.eval l) (M.eval r) := rfl

def Holds (e : CurryEquality) : Prop :=
  if e.negated then M.eval e.lhs ≠ M.eval e.rhs else M.eval e.lhs = M.eval e.rhs

end CurryModel

/-- The variables of a curried term have been introduced before `n`. -/
def CurryTerm.Below (n : ℕ) : CurryTerm → Prop
  | .var m => m < n
  | .app l r => l.Below n ∧ r.Below n

theorem CurryTerm.Below.mono {n m : ℕ} (hnm : n ≤ m) {c : CurryTerm} (h : c.Below n) :
    c.Below m := by
  induction c with
  | var k => exact Nat.lt_of_lt_of_le h hnm
  | app l r ihl ihr => exact ⟨ihl h.1, ihr h.2⟩

/-- The value of a term does not depend on the variables that are introduced later. -/
theorem CurryModel.eval_update {M : CurryModel.{u}} {n : ℕ} {c : CurryTerm} (h : c.Below n)
    (d : M.Carrier) :
    ({ M with value := Function.update M.value n d } : CurryModel).eval c = M.eval c := by
  induction c with
  | var k => exact Function.update_of_ne (Nat.ne_of_lt h) d M.value
  | app l r ihl ihr =>
    have hl := ihl h.1
    have hr := ihr h.2
    rw [CurryModel.eval_app, CurryModel.eval_app]
    exact congrArg₂ M.app hl hr

end Smtrat.Curry
