import Smtrat.BV.Term
import Smtrat.Logic.Circuit

/-!
# The networks of the direct encoder

The member functions of `BVDirectEncoder` that turn lists of bits into lists of bits, least
significant bit first.  Each loop of the source that pushes onto a vector is a `pushWith`; indices
and lengths are those of the source.  Where an expression contains several calls that create
variables, they are made from left to right.
-/

namespace Smtrat.BV

open PropFormula Circuit

variable {β : Type}

/-- A bit is a formula over the Boolean variables, given ones or introduced ones. -/
abbrev Bit (β : Type) := Formula (Atom β)

abbrev Bits (β : Type) := List (Bit β)

/-- The bit at position `i`. -/
def bit (bits : Bits β) (i : ℕ) : Bit β := bits.getD i (.const false)

/-- The most significant bit. -/
def msb (bits : Bits β) : Bit β := bit bits (bits.length - 1)

variable (pool : FormulaPool (Atom β))

/-! ## Formulas -/

def boolNot (operand : Bit β) : Bit β := pool.create .not [operand]

def boolImplies (first second : Bit β) : Bit β := pool.create .implies [first, second]

def boolAnd (first second : Bit β) : Bit β := pool.create .and [first, second]

def boolAndAll (operands : Bits β) : Bit β := pool.create .and operands

def boolOr (first second : Bit β) : Bit β := pool.create .or [first, second]

def boolOrAll (operands : Bits β) : Bit β := pool.create .or operands

def boolXor (first second : Bit β) : Bit β := pool.create .xor [first, second]

def boolIff (first second : Bit β) : Bit β := pool.create .iff [first, second]

def boolIte (condition thenBit elseBit : Bit β) : Bit β :=
  pool.create .ite [condition, thenBit, elseBit]

/-- An atom or the negation of one. -/
def isLiteral : Bit β → Bool
  | .app .not [f] => f.isAtom
  | f => f.isAtom

/-- Anything but a literal is given a name. -/
def createBit (formula : Bit β) : Circuit β (Bit β) :=
  if isLiteral formula then pure formula else define pool formula

def const0 : Circuit β (Bit β) := createBit pool (.const false)

def const1 : Circuit β (Bit β) := createBit pool (.const true)

def constBit (value : Bool) : Circuit β (Bit β) := if value then const1 pool else const0 pool

/-- Creates the bits of a vector whose entry `i` is `f i`. -/
def createBitsWith (f : ℕ → Bit β) (n : ℕ) : Circuit β (Bits β) :=
  pushWith (fun i _ => createBit pool (f i)) n []

def createBits (original : Bits β) : Circuit β (Bits β) :=
  createBitsWith pool (bit original) original.length

/-! ## Constants, structure and bitwise operators -/

def encodeConstant (value : BVValue) : Circuit β (Bits β) :=
  pushWith (fun i _ => constBit pool (value.value.getLsbD i)) value.width []

def encodeIte (condition : Bit β) (thenBits elseBits : Bits β) : Circuit β (Bits β) :=
  createBitsWith pool (fun i => boolIte pool condition (bit thenBits i) (bit elseBits i))
    thenBits.length

def encodeConcat (first second : Bits β) : Circuit β (Bits β) := createBits pool (second ++ first)

variable (operand : Bits β)

def encodeExtract (highest lowest : ℕ) : Circuit β (Bits β) :=
  createBits pool ((operand.take (highest + 1)).drop lowest)

def encodeNot : Circuit β (Bits β) :=
  createBitsWith pool (fun i => boolNot pool (bit operand i)) operand.length

/-- Arithmetic negation is bitwise negation and an increment. -/
def encodeNeg : Circuit β (Bits β) := do
  let negated ← encodeNot pool operand
  let carry₀ ← const1 pool
  let carry ← pushWith (fun i carry => createBit pool (boolAnd pool (bit carry i) (bit negated i)))
    (operand.length - 1) [carry₀]
  createBitsWith pool (fun i => boolXor pool (bit carry i) (bit negated i)) operand.length

/-- The bitwise operators push one formula of the two bits at each position. -/
def encodeBitwise (op : Bit β → Bit β → Bit β) (first second : Bits β) : Circuit β (Bits β) :=
  createBitsWith pool (fun i => op (bit first i) (bit second i)) first.length

def encodeAnd : Bits β → Bits β → Circuit β (Bits β) := encodeBitwise pool (boolAnd pool)

def encodeOr : Bits β → Bits β → Circuit β (Bits β) := encodeBitwise pool (boolOr pool)

def encodeXor : Bits β → Bits β → Circuit β (Bits β) := encodeBitwise pool (boolXor pool)

def encodeNand : Bits β → Bits β → Circuit β (Bits β) :=
  encodeBitwise pool fun a b => boolNot pool (boolAnd pool a b)

def encodeNor : Bits β → Bits β → Circuit β (Bits β) :=
  encodeBitwise pool fun a b => boolNot pool (boolOr pool a b)

def encodeXnor : Bits β → Bits β → Circuit β (Bits β) := encodeBitwise pool (boolIff pool)

/-! ## Addition and multiplication -/

/-- Runs a check that is made only where overflows are not allowed. -/
def unlessAllowed (allowOverflow : Bool) (check : Circuit β Unit) : Circuit β Unit :=
  if allowOverflow then pure () else check

/-- The carry out of a full adder. -/
def carryOut (a b c : Bit β) : Bit β :=
  boolOr pool (boolAnd pool a b) (boolAnd pool (boolXor pool a b) c)

def encodeAdderNetwork (first second : Bits β) (carryInValue withCarryOut allowOverflow : Bool) :
    Circuit β (Bits β) := do
  let carry₀ ← constBit pool carryInValue
  let carryBitCount := first.length + if withCarryOut || !allowOverflow then 1 else 0
  let carry ← pushWith
    (fun i carry => createBit pool (carryOut pool (bit first i) (bit second i) (bit carry i)))
    (carryBitCount - 1) [carry₀]
  let out ← createBitsWith pool
    (fun i => boolXor pool (bit first i) (boolXor pool (bit second i) (bit carry i))) first.length
  unlessAllowed allowOverflow (boolAssert (boolNot pool (bit carry (carry.length - 1))))
  pure (if withCarryOut then out ++ [bit carry (carry.length - 1)] else out)

def encodeAdd (first second : Bits β) : Circuit β (Bits β) :=
  encodeAdderNetwork pool first second false false true

def encodeSub (first second : Bits β) : Circuit β (Bits β) := do
  let negated ← encodeNot pool second
  encodeAdderNetwork pool first negated true false true

/-- The partial product of `first` with bit `i` of `second`, shifted to its place. -/
def encodeSummand (first second : Bits β) (i : ℕ) : Circuit β (Bits β) :=
  pushWith (fun j _ =>
    if j < i then const0 pool
    else createBit pool (boolAnd pool (bit second i) (bit first (j - i)))) first.length []

/-- The bits of the partial product that the shift loses are asserted to be zero, for the last `k`
positions of `first`. -/
def assertNotLost (first second : Bits β) (i : ℕ) : ℕ → Circuit β Unit
  | 0 => pure ()
  | k + 1 => do
    assertNotLost first second i k
    boolAssert (boolNot pool (boolAnd pool (bit second i) (bit first (first.length + k - i))))

def encodeMultiplicationNetwork (first second : Bits β) (allowOverflow : Bool) :
    Circuit β (Bits β) := do
  let summands ← pushWith (fun i _ => do
    let summand ← encodeSummand pool first second i
    unlessAllowed allowOverflow (assertNotLost pool first second i i)
    pure summand) first.length []
  let sums ← pushWith (fun i sums =>
    encodeAdderNetwork pool (if i = 0 then summands.getD 0 [] else sums.getD (i - 1) [])
      (summands.getD (i + 1) []) false false allowOverflow) (first.length - 1) []
  pure (if sums.length > 0 then sums.getD (sums.length - 1) [] else summands.getD 0 [])

def encodeMul (first second : Bits β) : Circuit β (Bits β) :=
  encodeMultiplicationNetwork pool first second true

/-! ## Comparisons -/

variable (lhs : Bits β)

def encodeEq (rhs : Bits β) : Circuit β (Bit β) :=
  createBit pool
    (boolAndAll pool ((List.range lhs.length).map fun i => boolIff pool (bit lhs i) (bit rhs i)))

def encodeNeq (rhs : Bits β) : Circuit β (Bit β) := do
  let eq ← encodeEq pool lhs rhs
  createBit pool (boolNot pool eq)

def encodeUge (rhs : Bits β) : Circuit β (Bit β) := do
  let negated ← encodeNot pool rhs
  let addition ← encodeAdderNetwork pool lhs negated true true true
  pure (msb addition)

def encodeUlt (rhs : Bits β) : Circuit β (Bit β) := do
  let uge ← encodeUge pool lhs rhs
  createBit pool (boolNot pool uge)

def encodeUle (rhs : Bits β) : Circuit β (Bit β) := do
  let ult ← encodeUlt pool lhs rhs
  let eq ← encodeEq pool lhs rhs
  createBit pool (boolOr pool eq ult)

def encodeUgt (rhs : Bits β) : Circuit β (Bit β) := do
  let ule ← encodeUle pool lhs rhs
  createBit pool (boolNot pool ule)

/-- The signed comparisons use the unsigned one where the signs agree. -/
def signedFormula (rhs : Bits β) (unsigned : Bit β) : Bit β :=
  boolOr pool (boolAnd pool (msb lhs) (boolNot pool (msb rhs)))
    (boolAnd pool (boolIff pool (msb lhs) (msb rhs)) unsigned)

def encodeSlt (rhs : Bits β) : Circuit β (Bit β) := do
  let ult ← encodeUlt pool lhs rhs
  createBit pool (signedFormula pool lhs rhs ult)

def encodeSle (rhs : Bits β) : Circuit β (Bit β) := do
  let ule ← encodeUle pool lhs rhs
  createBit pool (signedFormula pool lhs rhs ule)

def encodeSgt (rhs : Bits β) : Circuit β (Bit β) := do
  let sle ← encodeSle pool lhs rhs
  createBit pool (boolNot pool sle)

def encodeSge (rhs : Bits β) : Circuit β (Bit β) := do
  let slt ← encodeSlt pool lhs rhs
  createBit pool (boolNot pool slt)

def encodeComp (first second : Bits β) : Circuit β (Bits β) := do
  let eq ← encodeEq pool first second
  pure [eq]

/-! ## Division -/

def encodeDivisionNetwork (first second : Bits β) (returnRemainder : Bool) :
    Circuit β (Bits β) := do
  let quotient ← createVariables first.length
  let remainder ← createVariables first.length
  let wellDefined := boolOrAll pool second
  let product ← encodeMultiplicationNetwork pool quotient second false
  let sum ← encodeAdderNetwork pool product remainder false false false
  let summationCorrect ← encodeEq pool first sum
  let remainderLessThanDivisor ← encodeUlt pool remainder second
  boolAssert (boolImplies pool wellDefined (boolAnd pool summationCorrect remainderLessThanDivisor))
  if returnRemainder then
    let remainderIsFirstOp ← encodeEq pool remainder first
    boolAssert (boolImplies pool (boolNot pool wellDefined) remainderIsFirstOp)
    pure remainder
  else
    let allOnes ← encodeConstant pool ⟨first.length, BitVec.allOnes first.length⟩
    let quotientAllOnes ← encodeEq pool quotient allOnes
    boolAssert (boolImplies pool (boolNot pool wellDefined) quotientAllOnes)
    pure quotient

def encodeDivU (first second : Bits β) : Circuit β (Bits β) :=
  encodeDivisionNetwork pool first second false

def encodeModU (first second : Bits β) : Circuit β (Bits β) :=
  encodeDivisionNetwork pool first second true

def negIf (negate : Bool) (operand : Bits β) : Circuit β (Bits β) :=
  if negate then encodeNeg pool operand else pure operand

/-- An unsigned operation on operands some of which are negated, the result negated if asked. -/
def encodeNegated (op : Bits β → Bits β → Circuit β (Bits β)) (negFirst negSecond negResult : Bool)
    (first second : Bits β) : Circuit β (Bits β) := do
  let first ← negIf pool negFirst first
  let second ← negIf pool negSecond second
  let result ← op first second
  negIf pool negResult result

/-- Distinguishes the signs of the operands.  The operation is applied to absolute values; whether
the result is negated depends on the signs. -/
def encodeBySigns (op : Bits β → Bits β → Circuit β (Bits β)) (negBoth negFirst negSecond : Bool)
    (first second : Bits β) : Circuit β (Bits β) := do
  let resultNN ← encodeNegated pool op true true negBoth first second
  let resultNP ← encodeNegated pool op true false negFirst first second
  let resultN ← encodeIte pool (msb second) resultNN resultNP
  let resultPN ← encodeNegated pool op false true negSecond first second
  let resultPP ← encodeNegated pool op false false false first second
  let resultP ← encodeIte pool (msb second) resultPN resultPP
  encodeIte pool (msb first) resultN resultP

def encodeDivS : Bits β → Bits β → Circuit β (Bits β) :=
  encodeBySigns pool (encodeDivU pool) false true true

def encodeModS1 : Bits β → Bits β → Circuit β (Bits β) :=
  encodeBySigns pool (encodeModU pool) true true false

def encodeAbs : Circuit β (Bits β) := do
  let negated ← encodeNeg pool operand
  encodeIte pool (msb operand) negated operand

def encodeModS2 (first second : Bits β) : Circuit β (Bits β) := do
  let absFirst ← encodeAbs pool first
  let absSecond ← encodeAbs pool second
  let u ← encodeModU pool absFirst absSecond
  let modNN ← encodeNeg pool u
  let negU ← encodeNeg pool u
  let modNP ← encodeAdd pool negU second
  let modN ← encodeIte pool (msb second) modNN modNP
  let modPN ← encodeAdd pool u second
  let modP ← encodeIte pool (msb second) modPN u
  let modNonzero ← encodeIte pool (msb first) modN modP
  encodeIte pool (boolNot pool (boolOrAll pool u)) u modNonzero

/-! ## Shifts, rotations and extensions -/

/-- The number of times `size - 1` can be halved before it is zero. -/
def highestRelevantPos (size : ℕ) : ℕ := Nat.log2 (size - 1)

/-- What is shifted in. -/
def shiftFiller (first : Bits β) (arithmetic : Bool) : Circuit β (Bit β) :=
  if arithmetic then pure (msb first) else const0 pool

/-- The bit that a shift by `currentShiftBy` moves to position `pos`. -/
def shiftedBit (first : Bits β) (left arithmetic : Bool) (currentShiftBy : ℕ)
    (lastStage : Bits β) (pos : ℕ) : Circuit β (Bit β) :=
  if (left && currentShiftBy ≤ pos) || (!left && pos + currentShiftBy < lastStage.length) then
    pure (bit lastStage (if left then pos - currentShiftBy else pos + currentShiftBy))
  else shiftFiller pool first arithmetic

/-- Shifts by `2 ^ stage` if bit `stage` of `second` is set. -/
def shiftStage (first second : Bits β) (left arithmetic : Bool) (stage : ℕ) (lastStage : Bits β) :
    Circuit β (Bits β) :=
  pushWith (fun pos _ => do
    let shifted ← shiftedBit pool first left arithmetic (2 ^ stage) lastStage pos
    createBit pool (boolIte pool (bit second stage) shifted (bit lastStage pos)))
    lastStage.length []

def shiftStages (first second : Bits β) (left arithmetic : Bool) : ℕ → Circuit β (Bits β)
  | 0 => pure first
  | stage + 1 => do
    let lastStage ← shiftStages first second left arithmetic stage
    shiftStage pool first second left arithmetic stage lastStage

def encodeShiftNetwork (first second : Bits β) (left arithmetic : Bool) : Circuit β (Bits β) := do
  let highest := highestRelevantPos first.length
  let lastStage ← shiftStages pool first second left arithmetic (min (highest + 1) second.length)
  if highest ≥ second.length - 1 then pure lastStage
  else
    let overshift := boolOrAll pool (second.drop (highest + 1))
    pushWith (fun i _ => do
      let filler ← shiftFiller pool first arithmetic
      createBit pool (boolIte pool overshift filler (bit lastStage i))) first.length []

def encodeLshift (first second : Bits β) : Circuit β (Bits β) :=
  encodeShiftNetwork pool first second true false

def encodeRshiftLogic (first second : Bits β) : Circuit β (Bits β) :=
  encodeShiftNetwork pool first second false false

def encodeRshiftArith (first second : Bits β) : Circuit β (Bits β) :=
  encodeShiftNetwork pool first second false true

def encodeLrotate (index : ℕ) : Circuit β (Bits β) :=
  createBits pool (operand.rotate ((operand.length - index % operand.length) % operand.length))

def encodeRrotate (index : ℕ) : Circuit β (Bits β) :=
  createBits pool (operand.rotate (index % operand.length))

def encodeExtU (index : ℕ) : Circuit β (Bits β) := do
  let out ← createBits pool operand
  pushWith (fun _ _ => const0 pool) index out

def encodeExtS (index : ℕ) : Circuit β (Bits β) := do
  let out ← createBits pool operand
  pushWith (fun _ _ => createBit pool (msb operand)) index out

def encodeRepeat (index : ℕ) : Circuit β (Bits β) :=
  createBits pool (List.replicate index operand).flatten

/-! ## The operators of terms and constraints -/

/-- The cases of `encodeTerm` for terms with one operand. -/
def encodeUnary (op : BVUnary) (operand : Bits β) : Circuit β (Bits β) :=
  match op with
  | .not => encodeNot pool operand
  | .neg => encodeNeg pool operand
  | .lrotate index => encodeLrotate pool operand index
  | .rrotate index => encodeRrotate pool operand index
  | .extU index => encodeExtU pool operand index
  | .extS index => encodeExtS pool operand index
  | .repeat index => encodeRepeat pool operand index

/-- The cases of `encodeTerm` for terms with two operands. -/
def encodeBinary (op : BVBinary) (first second : Bits β) : Circuit β (Bits β) :=
  match op with
  | .concat => encodeConcat pool first second
  | .and => encodeAnd pool first second
  | .or => encodeOr pool first second
  | .xor => encodeXor pool first second
  | .nand => encodeNand pool first second
  | .nor => encodeNor pool first second
  | .xnor => encodeXnor pool first second
  | .add => encodeAdd pool first second
  | .sub => encodeSub pool first second
  | .mul => encodeMul pool first second
  | .divU => encodeDivU pool first second
  | .divS => encodeDivS pool first second
  | .modU => encodeModU pool first second
  | .modS1 => encodeModS1 pool first second
  | .modS2 => encodeModS2 pool first second
  | .eq => encodeComp pool first second
  | .lshift => encodeLshift pool first second
  | .rshiftLogic => encodeRshiftLogic pool first second
  | .rshiftArith => encodeRshiftArith pool first second

/-- The cases of `encodeConstraint`. -/
def encodeRelation (relation : BVCompareRelation) (lhs rhs : Bits β) : Circuit β (Bit β) :=
  match relation with
  | .eq => encodeEq pool lhs rhs
  | .neq => encodeNeq pool lhs rhs
  | .ult => encodeUlt pool lhs rhs
  | .ule => encodeUle pool lhs rhs
  | .ugt => encodeUgt pool lhs rhs
  | .uge => encodeUge pool lhs rhs
  | .slt => encodeSlt pool lhs rhs
  | .sle => encodeSle pool lhs rhs
  | .sgt => encodeSgt pool lhs rhs
  | .sge => encodeSge pool lhs rhs

end Smtrat.BV
