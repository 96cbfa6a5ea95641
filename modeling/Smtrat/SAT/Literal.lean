import Mathlib

/-!
# Variables and literals of the SAT solver

Variables are numbered.  A literal is a variable with a sign, which is set for the negation.
-/

namespace Smtrat.SAT

abbrev Var := Nat

@[ext]
structure Lit where
  var : Var
  sign : Bool
deriving DecidableEq, Repr

def mkLit (v : Var) (sign : Bool) : Lit := ⟨v, sign⟩

namespace Lit

/-- `operator ~`. -/
def neg (l : Lit) : Lit := ⟨l.var, !l.sign⟩

@[simp] theorem var_neg (l : Lit) : l.neg.var = l.var := rfl

@[simp] theorem sign_neg (l : Lit) : l.neg.sign = !l.sign := rfl

@[simp] theorem neg_neg (l : Lit) : l.neg.neg = l := by simp [neg]

theorem eq_or_eq_neg {l k : Lit} (h : l.var = k.var) : l = k ∨ l = k.neg := by
  obtain ⟨v, b⟩ := l
  obtain ⟨w, c⟩ := k
  obtain rfl : v = w := h
  cases b <;> cases c <;> simp [neg]

end Lit

/-- The values of the variables, as far as they are assigned. -/
abbrev Assigns := Var → Option Bool

namespace Assigns

/-- The value of a literal. -/
def value (assigns : Assigns) (l : Lit) : Option Bool := (assigns l.var).map (l.sign ^^ ·)

/-- The assignment after `l` has been made true. -/
def enqueue (assigns : Assigns) (l : Lit) : Assigns :=
  Function.update assigns l.var (some !l.sign)

def reset (assigns : Assigns) (v : Var) : Assigns := Function.update assigns v none

variable {assigns : Assigns} {l k : Lit} {v : Var}

theorem value_eq_true : assigns.value l = some true ↔ assigns l.var = some !l.sign := by
  cases h : assigns l.var with
  | none => simp [value, h]
  | some b => cases b <;> cases hl : l.sign <;> simp [value, h, hl]

theorem value_eq_none : assigns.value l = none ↔ assigns l.var = none := by
  simp [value]

theorem value_neg_eq_true : assigns.value l.neg = some true ↔ assigns.value l = some false := by
  cases h : assigns l.var with
  | none => simp [value, h]
  | some b => cases b <;> cases hl : l.sign <;> simp [value, h, hl]

@[simp] theorem value_enqueue : (assigns.enqueue l).value l = some true := by
  simp [value_eq_true, enqueue]

theorem value_enqueue_of_ne (h : k.var ≠ l.var) :
    (assigns.enqueue l).value k = assigns.value k := by
  rw [value, enqueue, Function.update_of_ne h, value]

@[simp] theorem value_reset (h : k.var = v) : (assigns.reset v).value k = none := by
  simp [value, reset, h]

end Assigns

end Smtrat.SAT

/-!
## Clauses and what follows from a set of valuations
-/

namespace Smtrat.SAT

abbrev Valuation := Var → Bool

variable {α : Valuation} {M N : Set Valuation} {l k : Lit}

namespace Lit

/-- The literal is true under a valuation. -/
def Holds (α : Valuation) (l : Lit) : Prop := α l.var = !l.sign

instance : DecidablePred (Holds α) := fun l => inferInstanceAs (Decidable (α l.var = !l.sign))

@[simp] theorem holds_neg : l.neg.Holds α ↔ ¬l.Holds α := by
  cases h : α l.var <;> cases hl : l.sign <;> simp [Holds, h, hl]

end Lit

abbrev Clause := List Lit

namespace Clause

def Holds (α : Valuation) (c : Clause) : Prop := ∃ l ∈ c, l.Holds α

instance : DecidablePred (Holds α) :=
  fun c => inferInstanceAs (Decidable (∃ l ∈ c, l.Holds α))

/-- The clause is true under all valuations of a set. -/
def Follows (M : Set Valuation) (c : Clause) : Prop := ∀ α ∈ M, c.Holds α

variable {c d e : Clause}

theorem Follows.mono (h : c.Follows M) (hcd : c ⊆ d) : d.Follows M := by
  intro α hα
  obtain ⟨l, hl, hh⟩ := h α hα
  exact ⟨l, hcd hl, hh⟩

theorem Follows.anti (h : c.Follows M) (hN : N ⊆ M) : c.Follows N := fun α hα => h α (hN hα)

theorem follows_singleton : Follows M [l] ↔ ∀ α ∈ M, l.Holds α := by
  simp [Follows, Holds]

/-- Resolution on a literal, with literals that are always false left out. -/
theorem Follows.resolve (hc : c.Follows M) (hd : d.Follows M)
    (hce : ∀ k ∈ c, k = l.neg ∨ k ∈ e)
    (hde : ∀ k ∈ d, k = l ∨ k ∈ e ∨ ∀ α ∈ M, ¬k.Holds α) : e.Follows M := by
  intro α hα
  obtain ⟨k, hk, hkα⟩ := hc α hα
  obtain rfl | hke := hce k hk
  · obtain ⟨j, hj, hjα⟩ := hd α hα
    obtain rfl | hje | hfalse := hde j hj
    · exact absurd hjα (Lit.holds_neg.mp hkα)
    · exact ⟨j, hje, hjα⟩
    · exact absurd hjα (hfalse α hα)
  · exact ⟨k, hke, hkα⟩

/-- Literals that are always false can be left out. -/
theorem Follows.strengthen (hd : d.Follows M)
    (hde : ∀ k ∈ d, k ∈ e ∨ ∀ α ∈ M, ¬k.Holds α) : e.Follows M := by
  intro α hα
  obtain ⟨j, hj, hjα⟩ := hd α hα
  obtain hje | hfalse := hde j hj
  · exact ⟨j, hje, hjα⟩
  · exact absurd hjα (hfalse α hα)

end Clause

end Smtrat.SAT
