import Mathlib

/-!
# Named instances

The propositions that casts to the reals, numerals and membership tests of definitions refer to.
-/

instance charZero_real : CharZero ℝ := inferInstance

instance atLeastTwo_two : Nat.AtLeastTwo 2 := inferInstance

instance neZero_two : NeZero 2 := inferInstance

instance neZero_three : NeZero 3 := inferInstance

instance lawfulBEq_linearOrder {T : Type*} [LinearOrder T] : LawfulBEq T := inferInstance

instance lawfulBEq_nat_prod {T : Type*} [LinearOrder T] : LawfulBEq (ℕ × T) := inferInstance
