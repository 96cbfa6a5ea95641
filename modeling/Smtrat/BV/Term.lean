import Mathlib

/-!
# Bit-vector terms and constraints

Terms as the solver stores them: an operator with its operands, nothing about widths in the type.
`WellFormed` is what the constructors of the terms assert.  The value of a term is the one SMT-LIB
gives it, written with Lean's bit-vectors; the second operand of a binary operator is brought to
the width of the first, which changes nothing in a well-formed term.
-/

namespace Smtrat

/-- `carl::BVVariable`. -/
structure BVVariable where
  id : ℕ
  width : ℕ
deriving DecidableEq, Repr

/-- `carl::BVValue`. -/
structure BVValue where
  width : ℕ
  value : BitVec width
deriving DecidableEq, Repr

/-- The operators of one operand, with their index. -/
inductive BVUnary where
  | not | neg
  | lrotate (index : ℕ) | rrotate (index : ℕ)
  | extU (index : ℕ) | extS (index : ℕ) | repeat (index : ℕ)
deriving DecidableEq, Repr

/-- The operators of two operands. -/
inductive BVBinary where
  | concat
  | and | or | xor | nand | nor | xnor
  | add | sub | mul | divU | divS | modU | modS1 | modS2
  | eq
  | lshift | rshiftLogic | rshiftArith
deriving DecidableEq, Repr

/-- `carl::BVTerm`. -/
inductive BVTerm where
  | constant (value : BVValue)
  | var (x : BVVariable)
  | extract (operand : BVTerm) (highest lowest : ℕ)
  | unary (op : BVUnary) (operand : BVTerm)
  | binary (op : BVBinary) (first second : BVTerm)
deriving DecidableEq, Repr

/-- `carl::BVCompareRelation`. -/
inductive BVCompareRelation where
  | eq | neq | ult | ule | ugt | uge | slt | sle | sgt | sge
deriving DecidableEq, Repr

/-- `carl::BVConstraint`. -/
structure BVConstraint where
  relation : BVCompareRelation
  lhs : BVTerm
  rhs : BVTerm
deriving DecidableEq, Repr

/-! ## Widths -/

def BVUnary.width (op : BVUnary) (n : ℕ) : ℕ :=
  match op with
  | not | neg | lrotate _ | rrotate _ => n
  | extU index | extS index => n + index
  | .repeat index => n * index

def BVBinary.width (op : BVBinary) (n m : ℕ) : ℕ :=
  match op with
  | concat => n + m
  | eq => 1
  | _ => n

namespace BVTerm

def width : BVTerm → ℕ
  | constant value => value.width
  | var x => x.width
  | extract _ highest lowest => highest - lowest + 1
  | unary op operand => op.width operand.width
  | binary op first second => op.width first.width second.width

/-- What the constructors of terms assert: widths are positive and operands fit. -/
def WellFormed : BVTerm → Prop
  | constant value => 1 ≤ value.width
  | var x => 1 ≤ x.width
  | extract operand highest lowest =>
    operand.WellFormed ∧ lowest ≤ highest ∧ highest < operand.width
  | unary op operand => operand.WellFormed ∧ op ≠ .repeat 0
  | binary op first second =>
    first.WellFormed ∧ second.WellFormed ∧ (op = .concat ∨ first.width = second.width)

instance decidableWellFormed : (t : BVTerm) → Decidable t.WellFormed
  | constant value => inferInstanceAs (Decidable (1 ≤ value.width))
  | var x => inferInstanceAs (Decidable (1 ≤ x.width))
  | extract operand highest lowest =>
    have := decidableWellFormed operand
    inferInstanceAs (Decidable (_ ∧ lowest ≤ highest ∧ highest < operand.width))
  | unary op operand =>
    have := decidableWellFormed operand
    inferInstanceAs (Decidable (_ ∧ op ≠ .repeat 0))
  | binary op first second =>
    have := decidableWellFormed first
    have := decidableWellFormed second
    inferInstanceAs (Decidable (_ ∧ _ ∧ (op = .concat ∨ first.width = second.width)))

theorem WellFormed.width_pos {t : BVTerm} (h : t.WellFormed) : 0 < t.width := by
  induction t with
  | constant value => exact h
  | var x => exact h
  | extract operand highest lowest => exact Nat.succ_pos _
  | unary op operand ih =>
    obtain ⟨hop, hne⟩ := h
    have hpos := ih hop
    cases op with
    | «repeat» index =>
      refine Nat.mul_pos hpos (Nat.pos_of_ne_zero ?_)
      rintro rfl
      exact hne rfl
    | extU index | extS index => exact Nat.add_pos_left hpos index
    | not | neg | lrotate index | rrotate index => exact hpos
  | binary op first second ih₁ ih₂ =>
    have hpos := ih₁ h.1
    cases op with
    | concat => exact Nat.add_pos_left hpos _
    | eq => exact Nat.one_pos
    | _ => exact hpos

end BVTerm

/-! ## Values -/

/-- A value for every bit-vector variable. -/
abbrev BVAssignment := (x : BVVariable) → BitVec x.width

def BVUnary.value (op : BVUnary) {n : ℕ} (x : BitVec n) : BitVec (op.width n) :=
  match op with
  | not => ~~~x
  | neg => -x
  | lrotate index => x.rotateLeft index
  | rrotate index => x.rotateRight index
  | extU index => x.setWidth (n + index)
  | extS index => x.signExtend (n + index)
  | .repeat index => x.replicate index

def BVBinary.value (op : BVBinary) {n m : ℕ} (x : BitVec n) (y : BitVec m) :
    BitVec (op.width n m) :=
  match op with
  | concat => x ++ y
  | and => x &&& y.setWidth n
  | or => x ||| y.setWidth n
  | xor => x ^^^ y.setWidth n
  | nand => ~~~(x &&& y.setWidth n)
  | nor => ~~~(x ||| y.setWidth n)
  | xnor => ~~~(x ^^^ y.setWidth n)
  | add => x + y.setWidth n
  | sub => x - y.setWidth n
  | mul => x * y.setWidth n
  | divU => x.smtUDiv (y.setWidth n)
  | divS => x.smtSDiv (y.setWidth n)
  | modU => x % y.setWidth n
  | modS1 => x.srem (y.setWidth n)
  | modS2 => x.smod (y.setWidth n)
  | eq => BitVec.ofBool (x == y.setWidth n)
  | lshift => x <<< y.setWidth n
  | rshiftLogic => x >>> y.setWidth n
  | rshiftArith => x.sshiftRight' (y.setWidth n)

def BVTerm.value (ν : BVAssignment) : (t : BVTerm) → BitVec t.width
  | constant value => value.value
  | var x => ν x
  | extract operand highest lowest => (operand.value ν).extractLsb highest lowest
  | unary op operand => op.value (operand.value ν)
  | binary op first second => op.value (first.value ν) (second.value ν)

def BVCompareRelation.value (relation : BVCompareRelation) {n : ℕ} (x y : BitVec n) : Bool :=
  match relation with
  | eq => x == y
  | neq => x != y
  | ult => x.ult y
  | ule => x.ule y
  | ugt => y.ult x
  | uge => y.ule x
  | slt => x.slt y
  | sle => x.sle y
  | sgt => y.slt x
  | sge => y.sle x

/-- The comparison of the operands' values, unsigned or in two's complement. -/
def BVCompareRelation.Compares (relation : BVCompareRelation) {n : ℕ} (x y : BitVec n) : Prop :=
  match relation with
  | eq => x = y
  | neq => x ≠ y
  | ult => x.toNat < y.toNat
  | ule => x.toNat ≤ y.toNat
  | ugt => x.toNat > y.toNat
  | uge => x.toNat ≥ y.toNat
  | slt => x.toInt < y.toInt
  | sle => x.toInt ≤ y.toInt
  | sgt => x.toInt > y.toInt
  | sge => x.toInt ≥ y.toInt

theorem BVCompareRelation.value_eq_true_iff (relation : BVCompareRelation) {n : ℕ}
    (x y : BitVec n) : relation.value x y = true ↔ relation.Compares x y := by
  cases relation with
  | eq => exact beq_iff_eq
  | neq => exact bne_iff_ne
  | ult | ugt => exact BitVec.ult_iff_toNat_lt
  | ule | uge => exact decide_eq_true_iff
  | slt | sgt => exact BitVec.slt_iff_toInt_lt
  | sle | sge => exact BitVec.sle_iff_toInt_le

theorem setWidth_eq_cast {n m : ℕ} (h : n = m) (x : BitVec n) : x.setWidth m = x.cast h := by
  subst h
  rw [BitVec.setWidth_eq, BitVec.cast_eq]

namespace BVConstraint

/-- Both sides are well formed and of the same width. -/
def WellFormed (c : BVConstraint) : Prop :=
  c.lhs.WellFormed ∧ c.rhs.WellFormed ∧ c.lhs.width = c.rhs.width

instance (c : BVConstraint) : Decidable c.WellFormed :=
  inferInstanceAs (Decidable (_ ∧ _ ∧ _))

def value (ν : BVAssignment) (c : BVConstraint) : Bool :=
  c.relation.value (c.lhs.value ν) ((c.rhs.value ν).setWidth c.lhs.width)

end BVConstraint

end Smtrat
