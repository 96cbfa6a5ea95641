import Smtrat.Logic.Formula

/-!
# Polarity

An atom occurs positively in a formula where it is under an even number of negations.  The value of
a formula grows with the values of the atoms that occur only positively.
-/

namespace PropFormula

universe u

/-- How a connective depends on its argument at a position: in the same direction, in the opposite
one, or in both. -/
def Connective.direction : Connective → ℕ → Option Bool
  | .not, _ => some false
  | .and, _ => some true
  | .or, _ => some true
  | .implies, 0 => some false
  | .implies, _ => some true
  | .ite, 0 => none
  | .ite, _ => some true
  | .xor, _ => none
  | .iff, _ => none

/-- The polarities that an argument gets from the polarity of the connective. -/
def Connective.polarities (c : Connective) (i : ℕ) (positive : Bool) : List Bool :=
  match c.direction i with
  | some true => [positive]
  | some false => [!positive]
  | none => [true, false]

namespace Formula

variable {A : Type u}

mutual

/-- Atoms of a kind occur with positive polarity only, if the formula has the given one. -/
def OnlyPositive (P : A → Prop) : Formula A → Bool → Prop
  | const _, _ => True
  | atom a, positive => P a → positive = true
  | app c fs, positive => OnlyPositiveAll P c 0 fs positive

def OnlyPositiveAll (P : A → Prop) (c : Connective) : ℕ → List (Formula A) → Bool → Prop
  | _, [], _ => True
  | i, f :: fs, positive =>
    (∀ b ∈ c.polarities i positive, OnlyPositive P f b) ∧ OnlyPositiveAll P c (i + 1) fs positive

end

/-- Two values in the order that a polarity gives. -/
def Ordered (positive : Bool) (a b : Bool) : Prop :=
  if positive then a = true → b = true else b = true → a = true

theorem Ordered.refl (positive a : Bool) : Ordered positive a a := by
  rw [Ordered]
  split_ifs <;> exact id

/-- The values of the arguments from a position on, each in the order of its polarities. -/
def OrderedAll (c : Connective) (positive : Bool) : ℕ → List Bool → List Bool → Prop
  | _, [], [] => True
  | i, a :: as, b :: bs =>
    (∀ p ∈ c.polarities i positive, Ordered p a b) ∧ OrderedAll c positive (i + 1) as bs
  | _, _, _ => False

theorem eq_of_ordered {a b : Bool} (h : Ordered true a b) (h' : Ordered false a b) : a = b := by
  cases a with
  | true => exact (h rfl).symm
  | false =>
    cases b with
    | true => exact h' rfl
    | false => rfl

variable {positive : Bool} {as bs : List Bool} {i : ℕ}

/-- Where both directions are possible, the values are the same. -/
theorem OrderedAll.eq {c : Connective}
    (hc : ∀ j ≥ i, c.direction j = none) (h : OrderedAll c positive i as bs) : as = bs := by
  induction as generalizing i bs with
  | nil =>
    cases bs with
    | nil => rfl
    | cons b bs => exact h.elim
  | cons a as ih =>
    cases bs with
    | nil => exact h.elim
    | cons b bs =>
      obtain ⟨hab, h⟩ := h
      rw [Connective.polarities, hc i (Nat.le_refl i)] at hab
      rw [eq_of_ordered (hab true (by simp)) (hab false (by simp)),
        ih (fun j hj => hc j (by omega)) h]

theorem OrderedAll.all
    (h : OrderedAll .and positive i as bs) : Ordered positive (as.all id) (bs.all id) := by
  induction as generalizing i bs with
  | nil =>
    cases bs with
    | nil => exact Ordered.refl positive _
    | cons b bs => exact h.elim
  | cons a as ih =>
    cases bs with
    | nil => exact h.elim
    | cons b bs =>
      obtain ⟨hab, h⟩ := h
      have hab := hab positive (by simp [Connective.polarities, Connective.direction])
      have ih := ih h
      cases positive with
      | true =>
        simp only [Ordered, if_true, List.all_cons, Bool.and_eq_true, id] at *
        exact fun hall => ⟨hab hall.1, ih hall.2⟩
      | false =>
        simp only [Ordered, Bool.false_eq_true, if_false, List.all_cons, Bool.and_eq_true, id] at *
        exact fun hall => ⟨hab hall.1, ih hall.2⟩

theorem OrderedAll.any
    (h : OrderedAll .or positive i as bs) : Ordered positive (as.any id) (bs.any id) := by
  induction as generalizing i bs with
  | nil =>
    cases bs with
    | nil => exact Ordered.refl positive _
    | cons b bs => exact h.elim
  | cons a as ih =>
    cases bs with
    | nil => exact h.elim
    | cons b bs =>
      obtain ⟨hab, h⟩ := h
      have hab := hab positive (by simp [Connective.polarities, Connective.direction])
      have ih := ih h
      cases positive with
      | true =>
        simp only [Ordered, if_true, List.any_cons, Bool.or_eq_true, id] at *
        exact Or.imp hab ih
      | false =>
        simp only [Ordered, Bool.false_eq_true, if_false, List.any_cons, Bool.or_eq_true, id] at *
        exact Or.imp hab ih

/-- The values of a connective are in the order of its polarity. -/
theorem ordered_eval {c : Connective}
    (h : OrderedAll c positive 0 as bs) : Ordered positive (c.eval as) (c.eval bs) := by
  cases c with
  | and => rw [Connective.eval_and, Connective.eval_and]; exact h.all
  | or => rw [Connective.eval_or, Connective.eval_or]; exact h.any
  | xor =>
    rw [h.eq fun j _ => rfl]
    exact Ordered.refl positive _
  | iff =>
    rw [h.eq fun j _ => rfl]
    exact Ordered.refl positive _
  | not =>
    match as, bs, h with
    | [a], [b], h =>
      have hab := h.1 (!positive) (by simp [Connective.polarities, Connective.direction])
      cases positive <;> cases a <;> cases b <;> simp_all [Ordered]
    | [], [], _ => exact Ordered.refl positive _
    | _ :: _ :: _, _ :: _ :: _, _ => exact Ordered.refl positive _
    | [_], _ :: _ :: _, h => exact h.2.elim
    | _ :: _ :: _, [_], h => exact h.2.elim
  | implies =>
    match as, bs, h with
    | [a, a'], [b, b'], h =>
      have hab := h.1 (!positive) (by simp [Connective.polarities, Connective.direction])
      have hab' := h.2.1 positive (by simp [Connective.polarities, Connective.direction])
      cases positive <;> cases a <;> cases b <;> cases a' <;> cases b' <;> simp_all [Ordered]
    | [], [], _ => exact Ordered.refl positive _
    | [_], [_], _ => exact Ordered.refl positive _
    | _ :: _ :: _ :: _, _ :: _ :: _ :: _, _ => exact Ordered.refl positive _
    | [_], _ :: _ :: _, h => exact h.2.elim
    | _ :: _ :: _, [_], h => exact h.2.elim
    | [_, _], _ :: _ :: _ :: _, h => exact h.2.2.elim
    | _ :: _ :: _ :: _, [_, _], h => exact h.2.2.elim
  | ite =>
    match as, bs, h with
    | [c, a, a'], [d, b, b'], h =>
      have hcd := eq_of_ordered
        (h.1 true (by simp [Connective.polarities, Connective.direction]))
        (h.1 false (by simp [Connective.polarities, Connective.direction]))
      have hab := h.2.1 positive (by simp [Connective.polarities, Connective.direction])
      have hab' := h.2.2.1 positive (by simp [Connective.polarities, Connective.direction])
      rw [Connective.eval_ite, Connective.eval_ite, hcd]
      cases d with
      | true => exact hab
      | false => exact hab'
    | [], [], _ => exact Ordered.refl positive _
    | [_], [_], _ => exact Ordered.refl positive _
    | [_, _], [_, _], _ => exact Ordered.refl positive _
    | _ :: _ :: _ :: _ :: _, _ :: _ :: _ :: _ :: _, _ => exact Ordered.refl positive _
    | [_], _ :: _ :: _, h => exact h.2.elim
    | _ :: _ :: _, [_], h => exact h.2.elim
    | [_, _], _ :: _ :: _ :: _, h => exact h.2.2.elim
    | _ :: _ :: _ :: _, [_, _], h => exact h.2.2.elim
    | [_, _, _], _ :: _ :: _ :: _ :: _, h => exact h.2.2.2.elim
    | _ :: _ :: _ :: _ :: _, [_, _, _], h => exact h.2.2.2.elim

/-- The value of a formula is in the order of its polarity, if the values of the atoms grow, and
those that do not only occur positively stay the same. -/
theorem ordered_eval_of_onlyPositive {P : A → Prop} {α β : A → Bool}
    (hpos : ∀ a, P a → α a = true → β a = true) (hsame : ∀ a, ¬ P a → α a = β a)
    {f : Formula A} (hf : f.OnlyPositive P positive) :
    Ordered positive (f.eval α) (f.eval β) := by
  induction f using Formula.induction generalizing positive with
  | hconst b =>
    rw [eval_const, eval_const]
    exact Ordered.refl positive b
  | hatom a =>
    rw [eval_atom, eval_atom]
    by_cases ha : P a
    · rw [OnlyPositive] at hf
      rw [hf ha]
      exact hpos a ha
    · rw [hsame a ha]
      exact Ordered.refl positive _
  | happ c fs ih =>
    rw [eval_app, eval_app]
    rw [OnlyPositive] at hf
    apply ordered_eval
    generalize 0 = i at hf
    induction fs generalizing i with
    | nil => trivial
    | cons f fs ihl =>
      rw [OnlyPositiveAll] at hf
      refine ⟨fun p hp => ih f List.mem_cons_self (hf.1 p hp), ?_⟩
      exact ihl (fun g hg => ih g (List.mem_cons_of_mem f hg)) (i + 1) hf.2

end Formula

end PropFormula
