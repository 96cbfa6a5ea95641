import Smtrat.BV.Multiplication

/-!
# Shifts, rotations and extensions, and all operators together

The barrel shifter shifts by `2 ^ stage` in each stage and so, after all stages, by the low bits
of the shift distance.  The higher bits shift everything out, since `2 ^ (highest + 1)` is at
least the width.  The other networks of this file only move bits around.
-/

namespace Smtrat.BV

open PropFormula Circuit List

variable {β : Type} {pool : FormulaPool (Atom β)} {w : World β} {C : Prop} {n m : ℕ}

/-! ## Moving bits -/

section Moving

variable {first second operand bits : Bits β} {x : BitVec n} {y : BitVec m}

/-- Bits that are those of `bits` at other positions. -/
theorem Denotes.reindex (hx : Denotes w operand x) (g : ℕ → ℕ) (hlen : bits.length = m)
    (hget : ∀ i < m, BV.bit bits i = BV.bit operand (g i))
    (hy : ∀ i < m, y.getLsbD i = x.getLsbD (g i)) : Denotes w bits y := by
  refine ⟨hlen, fun i hi => ?_⟩
  change Holds w (BV.bit bits i) (y.getLsbD i)
  rw [hy i hi, hget i hi]
  exact hx.bit (g i)

theorem encodeConcat_realizes (hx : Denotes w first x) (hy : Denotes w second y) :
    Realizes (encodeConcat pool first second) w C fun out v => Denotes v out (x ++ y) := by
  refine createBits_realizes ⟨by simp [hx.1, hy.1, Nat.add_comm], fun i hi => ?_⟩
  change Holds w ((second ++ first).getD i (.const false)) ((x ++ y).getLsbD i)
  rw [BitVec.getLsbD_append]
  by_cases him : i < m
  · rw [getD_append _ _ _ _ (hy.1.symm ▸ him), if_pos him]
    exact hy.bit i
  · rw [getD_append_right _ _ _ _ (hy.1.symm ▸ Nat.le_of_not_lt him), if_neg him, hy.1]
    exact hx.bit (i - m)

theorem encodeExtract_realizes (hx : Denotes w operand x) {highest lowest : ℕ}
    (hle : lowest ≤ highest) (hlt : highest < n) :
    Realizes (encodeExtract pool operand highest lowest) w C
      fun out v => Denotes v out (x.extractLsb highest lowest) := by
  refine createBits_realizes (hx.reindex (fun i => lowest + i) ?_ (fun i hi => ?_) fun i hi => ?_)
  · rw [length_drop, length_take, hx.1]
    omega
  · have htake : lowest + i < highest + 1 := by omega
    rw [bit, bit, getD_eq_getElem?_getD, getD_eq_getElem?_getD, getElem?_drop,
      getElem?_take_of_lt htake]
  · have hi' : i ≤ highest - lowest := by omega
    simp [hi']

theorem bit_rotate {k i : ℕ} (hx : operand.length = n) (hi : i < n) :
    bit (operand.rotate k) i = bit operand ((i + k) % n) := by
  rw [bit, bit, getD_eq_getElem?_getD, getD_eq_getElem?_getD, getElem?_rotate (hx.symm ▸ hi), hx]

theorem encodeRrotate_realizes (hx : Denotes w operand x) (index : ℕ) :
    Realizes (encodeRrotate pool operand index) w C
      fun out v => Denotes v out (x.rotateRight index) := by
  refine createBits_realizes (hx.reindex (fun i => (i + index % n) % n) ?_ (fun i hi => ?_)
    fun i hi => ?_)
  · rw [length_rotate, hx.1]
  · rw [bit_rotate hx.1 hi, hx.1]
  · have hmod : index % n < n := Nat.mod_lt _ (Nat.zero_lt_of_lt hi)
    rw [BitVec.getLsbD_rotateRight]
    by_cases hin : i < n - index % n
    · rw [decide_eq_true hin, cond_true, Nat.add_comm,
        Nat.mod_eq_of_lt (show i + index % n < n by omega)]
    · rw [decide_eq_false hin, cond_false, decide_eq_true hi, Bool.true_and,
        Nat.mod_eq_sub_mod (show n ≤ i + index % n by omega),
        Nat.mod_eq_of_lt (show i + index % n - n < n by omega)]
      congr 1
      omega

theorem encodeLrotate_realizes (hx : Denotes w operand x) (index : ℕ) :
    Realizes (encodeLrotate pool operand index) w C
      fun out v => Denotes v out (x.rotateLeft index) := by
  refine createBits_realizes (hx.reindex (fun i => (i + (n - index % n) % n) % n) ?_
    (fun i hi => ?_) fun i hi => ?_)
  · rw [length_rotate, hx.1]
  · rw [hx.1, bit_rotate hx.1 hi]
  · have hmod : index % n < n := Nat.mod_lt _ (Nat.zero_lt_of_lt hi)
    rw [BitVec.getLsbD_rotateLeft, Nat.add_mod_mod]
    by_cases hin : i < index % n
    · rw [decide_eq_true hin, cond_true, Nat.mod_eq_of_lt (show i + (n - index % n) < n by omega),
        Nat.add_comm]
    · rw [decide_eq_false hin, cond_false, decide_eq_true hi, Bool.true_and,
        Nat.mod_eq_sub_mod (show n ≤ i + (n - index % n) by omega),
        Nat.mod_eq_of_lt (show i + (n - index % n) - n < n by omega)]
      congr 1
      omega

theorem encodeExtU_realizes (hx : Denotes w operand x) (index : ℕ) :
    Realizes (encodeExtU pool operand index) w C
      fun out v => Denotes v out (x.setWidth (n + index)) := by
  have hstart : Spells w operand n (x.setWidth (n + index)).getLsbD :=
    hx.congr fun _ i hi => by simp [Nat.lt_add_right index hi]
  refine (createBits_realizes hstart).bind fun out v hv hout => ?_
  refine Realizes.pushWith hout index fun i hi out u hu _ => const0_realizes.mono
    fun g t _ hg => hg.congr fun _ => ?_
  simp

theorem encodeExtS_realizes (hx : Denotes w operand x) (index : ℕ) :
    Realizes (encodeExtS pool operand index) w C
      fun out v => Denotes v out (x.signExtend (n + index)) := by
  have hstart : Spells w operand n (x.signExtend (n + index)).getLsbD :=
    hx.congr fun _ i hi => by
      rw [BitVec.getLsbD_signExtend, if_pos hi, decide_eq_true (Nat.lt_add_right index hi),
        Bool.true_and]
  refine (createBits_realizes hstart).bind fun out v hv hout => ?_
  refine Realizes.pushWith hout index fun i hi out u hu _ =>
    (createBit_realizes (hx.mono (hv.trans hu)).msb).mono fun g t _ hg => hg.congr fun _ => ?_
  rw [BitVec.getLsbD_signExtend, if_neg (Nat.not_lt.mpr (Nat.le_add_right n i)),
    decide_eq_true (Nat.add_lt_add_left hi n), Bool.true_and]

theorem bit_flatten_replicate {index i : ℕ} (hx : operand.length = n) (hi : i < n * index) :
    bit (List.replicate index operand).flatten i = bit operand (i % n) := by
  induction index generalizing i with
  | zero => exact absurd hi (Nat.not_lt_zero i)
  | succ index ih =>
    rw [replicate_succ, flatten_cons, bit]
    by_cases hin : i < n
    · rw [getD_append _ _ _ _ (hx.symm ▸ hin), Nat.mod_eq_of_lt hin, bit]
    · rw [getD_append_right _ _ _ _ (hx.symm ▸ Nat.le_of_not_lt hin), hx,
        Nat.mod_eq_sub_mod (Nat.le_of_not_lt hin)]
      refine ih ?_
      rw [Nat.mul_succ] at hi
      omega

theorem encodeRepeat_realizes (hx : Denotes w operand x) (index : ℕ) :
    Realizes (encodeRepeat pool operand index) w C
      fun out v => Denotes v out (x.replicate index) := by
  refine createBits_realizes (hx.reindex (fun i => i % n) ?_ (fun i hi => ?_) fun i hi => ?_)
  · rw [length_flatten, map_replicate, sum_replicate_nat, hx.1]
    exact Nat.mul_comm _ _
  · exact bit_flatten_replicate hx.1 hi
  · rw [BitVec.getLsbD_replicate, decide_eq_true hi, Bool.true_and]

end Moving

/-! ## Shifts -/

section Shift

variable {first second lastStage : Bits β} {x y z : BitVec n} {left arithmetic : Bool}

/-- The shift that the flags select. -/
def shiftValue (left arithmetic : Bool) (x : BitVec n) (k : ℕ) : BitVec n :=
  if left then x <<< k else if arithmetic then x.sshiftRight k else x >>> k

theorem getLsbD_shiftValue (h : left = true → arithmetic = false) (k : ℕ) {i : ℕ} (hi : i < n) :
    (shiftValue left arithmetic x k).getLsbD i =
      if (left && k ≤ i) || (!left && i + k < n) then
        x.getLsbD (if left then i - k else i + k)
      else arithmetic && x.msb := by
  unfold shiftValue
  cases left with
  | true =>
    rw [h rfl, if_pos rfl, BitVec.getLsbD_shiftLeft, decide_eq_true hi]
    by_cases hk : k ≤ i
    · simp [hk, Nat.not_lt.mpr hk]
    · simp [hk, Nat.lt_of_not_le hk]
  | false =>
    cases arithmetic with
    | true =>
      rw [if_neg Bool.false_ne_true, if_pos rfl, BitVec.getLsbD_sshiftRight, Nat.add_comm k i]
      simp [Nat.not_le.mpr hi]
    | false =>
      rw [if_neg Bool.false_ne_true, if_neg Bool.false_ne_true, BitVec.getLsbD_ushiftRight,
        Nat.add_comm k i]
      by_cases hik : i + k < n
      · simp [hik]
      · simp [hik, BitVec.getLsbD_of_ge x (i + k) (Nat.le_of_not_lt hik)]

theorem shiftValue_add (left arithmetic : Bool) (x : BitVec n) (j k : ℕ) :
    shiftValue left arithmetic (shiftValue left arithmetic x j) k =
      shiftValue left arithmetic x (j + k) := by
  unfold shiftValue
  cases left with
  | true => exact (BitVec.shiftLeft_add x j k).symm
  | false =>
    cases arithmetic with
    | true => exact (BitVec.sshiftRight_add).symm
    | false => exact (BitVec.shiftRight_add x j k).symm

theorem msb_shiftValue (h : left = true → arithmetic = false) (k : ℕ) :
    (arithmetic && (shiftValue left arithmetic x k).msb) = (arithmetic && x.msb) := by
  cases arithmetic with
  | false => rfl
  | true =>
    cases left with
    | true => exact absurd (h rfl) (by decide)
    | false => simp [shiftValue, BitVec.msb_sshiftRight]

theorem shiftFiller_realizes (hx : Denotes w first x) :
    Realizes (shiftFiller pool first arithmetic) w C
      fun g v => Holds v g (arithmetic && x.msb) := by
  cases arithmetic with
  | true => exact .pure fun v hv => (hx.mono hv).msb
  | false =>
    change Realizes (const0 pool) w C _
    exact const0_realizes

theorem shiftedBit_realizes (h : left = true → arithmetic = false) (hx : Denotes w first x)
    (hz : Denotes w lastStage z) (hmsb : (arithmetic && z.msb) = (arithmetic && x.msb)) (k : ℕ)
    {i : ℕ} (hi : i < n) :
    Realizes (shiftedBit pool first left arithmetic k lastStage i) w C
      fun g v => Holds v g ((shiftValue left arithmetic z k).getLsbD i) := by
  rw [getLsbD_shiftValue h k hi]
  unfold shiftedBit
  rw [hz.1]
  split
  · exact .pure fun v hv => (hz.mono hv).bit _
  · rw [hmsb]
    exact shiftFiller_realizes hx

theorem shiftStage_realizes (h : left = true → arithmetic = false) (hx : Denotes w first x)
    (hy : Denotes w second y) (hz : Denotes w lastStage z)
    (hmsb : (arithmetic && z.msb) = (arithmetic && x.msb)) (stage : ℕ) :
    Realizes (shiftStage pool first second left arithmetic stage lastStage) w C fun out v =>
      Denotes v out (shiftValue left arithmetic z (2 ^ stage * (y.getLsbD stage).toNat)) := by
  have hloop := Realizes.pushWith (C := C)
    (f := fun pos _ => do
      let shifted ← shiftedBit pool first left arithmetic (2 ^ stage) lastStage pos
      createBit pool (boolIte pool (bit second stage) shifted (bit lastStage pos)))
    (Spells.nil w (shiftValue left arithmetic z (2 ^ stage * (y.getLsbD stage).toNat)).getLsbD) n
    fun pos hpos out v hv _ => by
      rw [Nat.zero_add]
      refine (shiftedBit_realizes h (hx.mono hv) (hz.mono hv) hmsb (2 ^ stage) hpos).bind
        fun shifted u hu hshifted => ?_
      refine (createBit_realizes (holds_boolIte ((hy.mono (hv.trans hu)).bit stage) hshifted
        ((hz.mono (hv.trans hu)).bit pos))).mono fun g t _ hg => hg.congr fun _ => ?_
      cases y.getLsbD stage with
      | true => simp
      | false => simp [shiftValue]
  rw [Nat.zero_add] at hloop
  rw [shiftStage, hz.1]
  exact hloop

theorem shiftStages_realizes (h : left = true → arithmetic = false) (hx : Denotes w first x)
    (hy : Denotes w second y) (stages : ℕ) :
    Realizes (shiftStages pool first second left arithmetic stages) w C fun out v =>
      Denotes v out (shiftValue left arithmetic x (y.toNat % 2 ^ stages)) := by
  induction stages with
  | zero => exact .pure fun v hv => (hx.mono hv).of_eq fun _ => by simp [shiftValue, Nat.mod_one]
  | succ stages ih =>
    refine ih.bind fun lastStage v hv hlast => ?_
    refine (shiftStage_realizes h (hx.mono hv) (hy.mono hv) hlast (msb_shiftValue h _)
      stages).mono fun out u _ hout => hout.of_eq fun _ => ?_
    rw [shiftValue_add, Nat.mod_pow_succ, ← Nat.toNat_testBit]
    rfl

theorem le_two_pow_highestRelevantPos (n : ℕ) : n ≤ 2 ^ (highestRelevantPos n + 1) := by
  have h := Nat.lt_log2_self (n := n - 1)
  rw [highestRelevantPos]
  omega

/-- The high bits of the shift distance are not all zero. -/
theorem holds_overshift (hy : Denotes w second y) (k : ℕ) :
    Holds w (boolOrAll pool (second.drop k)) (decide (2 ^ k ≤ y.toNat)) := by
  have hdrop : Denotes w (second.drop k) (y.extractLsb' k (n - k)) := by
    refine hy.reindex (fun i => k + i) (by rw [length_drop, hy.1]) (fun i _ => ?_) fun i hi => ?_
    · rw [bit, bit, getD_eq_getElem?_getD, getD_eq_getElem?_getD, getElem?_drop]
    · rw [BitVec.getLsbD_extractLsb', decide_eq_true hi, Bool.true_and]
  refine (holds_boolOrAll hdrop).congr fun _ => ?_
  rw [Bool.eq_iff_iff, bne_iff_ne, decide_eq_true_eq, ne_eq, ← BitVec.toNat_inj,
    BitVec.extractLsb'_toNat, Nat.shiftRight_eq_div_pow]
  have hlt : y.toNat / 2 ^ k < 2 ^ (n - k) := by
    rw [Nat.div_lt_iff_lt_mul (Nat.two_pow_pos k), ← Nat.pow_add]
    exact lt_of_lt_of_le y.isLt (Nat.pow_le_pow_right Nat.two_pos (by omega))
  rw [Nat.mod_eq_of_lt hlt]
  simp [Nat.div_eq_zero_iff]

theorem encodeShiftNetwork_realizes (hn : 0 < n) (h : left = true → arithmetic = false)
    (hx : Denotes w first x) (hy : Denotes w second y) :
    Realizes (encodeShiftNetwork pool first second left arithmetic) w C fun out v =>
      Denotes v out (shiftValue left arithmetic x y.toNat) := by
  unfold encodeShiftNetwork
  rw [hx.1, hy.1]
  refine (shiftStages_realizes h hx hy _).bind fun lastStage v hv hlast => ?_
  split
  next hall =>
      refine .pure fun u hu => (hlast.mono hu).of_eq fun _ => ?_
      rw [Nat.min_eq_right (by omega), Nat.mod_eq_of_lt y.isLt]
  next hsome =>
      rw [Nat.min_eq_left (by omega)] at hlast
      have hloop := Realizes.pushWith (C := C)
        (f := fun i _ => do
          let filler ← shiftFiller pool first arithmetic
          createBit pool (boolIte pool (boolOrAll pool (second.drop (highestRelevantPos n + 1)))
            filler (bit lastStage i)))
        (Spells.nil v (shiftValue left arithmetic x y.toNat).getLsbD) n fun i hi out u hu _ => by
          rw [Nat.zero_add]
          refine (shiftFiller_realizes (hx.mono (hv.trans hu))).bind fun filler t ht hfiller => ?_
          have hover : Holds t (boolOrAll pool (second.drop (highestRelevantPos n + 1)))
              (decide (2 ^ (highestRelevantPos n + 1) ≤ y.toNat)) :=
            holds_overshift (hy.mono (hv.trans (hu.trans ht))) _
          refine (createBit_realizes (holds_boolIte hover hfiller
            ((hlast.mono (hu.trans ht)).bit i))).mono fun g s _ hg => hg.congr fun _ => ?_
          by_cases hge : 2 ^ (highestRelevantPos n + 1) ≤ y.toNat
          · have hny : n ≤ y.toNat := (le_two_pow_highestRelevantPos n).trans hge
            rw [decide_eq_true hge, cond_true, getLsbD_shiftValue h _ hi, if_neg]
            simp only [Bool.or_eq_true, Bool.and_eq_true, decide_eq_true_eq, not_or, not_and]
            exact ⟨fun _ => by omega, fun _ => by omega⟩
          · rw [decide_eq_false hge, cond_false, Nat.mod_eq_of_lt (Nat.lt_of_not_le hge)]
      rw [Nat.zero_add] at hloop
      exact hloop

end Shift

/-! ## All operators -/

/-- The cases of `encodeTerm` with one operand. -/
theorem encodeUnary_realizes (op : BVUnary) {operand : Bits β} {x : BitVec n} (hn : 0 < n)
    (hx : Denotes w operand x) :
    Realizes (encodeUnary pool op operand) w C fun out v => Denotes v out (op.value x) := by
  cases op with
  | not => exact encodeNot_realizes hx
  | neg => exact encodeNeg_realizes hn hx
  | lrotate index => exact encodeLrotate_realizes hx index
  | rrotate index => exact encodeRrotate_realizes hx index
  | extU index => exact encodeExtU_realizes hx index
  | extS index => exact encodeExtS_realizes hx index
  | «repeat» index => exact encodeRepeat_realizes hx index

theorem encodeShift_realizes {first second : Bits β} {x y z : BitVec n} {left arithmetic : Bool}
    (hn : 0 < n) (h : left = true → arithmetic = false) (hx : Denotes w first x)
    (hy : Denotes w second y) (hz : shiftValue left arithmetic x y.toNat = z) :
    Realizes (encodeShiftNetwork pool first second left arithmetic) w C
      fun out v => Denotes v out z :=
  hz ▸ encodeShiftNetwork_realizes hn h hx hy

/-- The cases of `encodeTerm` with two operands. -/
theorem encodeBinary_realizes (op : BVBinary) {first second : Bits β} {x : BitVec n}
    {y : BitVec m} (hn : 0 < n) (hop : op = .concat ∨ n = m) (hx : Denotes w first x)
    (hy : Denotes w second y) :
    Realizes (encodeBinary pool op first second) w C fun out v => Denotes v out (op.value x y) := by
  by_cases hconcat : op = .concat
  · subst hconcat
    exact encodeConcat_realizes hx hy
  have hz : Denotes w second (y.setWidth n) := hy.setWidth (hop.resolve_left hconcat).symm
  cases op with
  | concat => exact absurd rfl hconcat
  | and => exact encodeBitwise_realizes hx hz holds_boolAnd fun _ _ => BitVec.getLsbD_and.symm
  | or => exact encodeBitwise_realizes hx hz holds_boolOr fun _ _ => BitVec.getLsbD_or.symm
  | xor => exact encodeBitwise_realizes hx hz holds_boolXor fun _ _ => BitVec.getLsbD_xor.symm
  | nand =>
    exact encodeBitwise_realizes (z := ~~~(x &&& y.setWidth n)) hx hz
      (fun ha hb => holds_boolNot (holds_boolAnd ha hb)) fun i hi => by simp [hi]
  | nor =>
    exact encodeBitwise_realizes (z := ~~~(x ||| y.setWidth n)) hx hz
      (fun ha hb => holds_boolNot (holds_boolOr ha hb)) fun i hi => by simp [hi]
  | xnor => exact encodeXnor_realizes hx hz
  | add => exact encodeAdd_realizes hn hx hz
  | sub => exact encodeSub_realizes hn hx hz
  | mul =>
    exact (encodeMultiplicationNetwork_realizes hn hx hz fun h => by cases h).mono fun _ _ _ h => h.1
  | divU => exact encodeDivU_realizes hn hx hz
  | divS => exact encodeDivS_realizes hn hx hz
  | modU => exact encodeModU_realizes hn hx hz
  | modS1 => exact encodeModS1_realizes hn hx hz
  | modS2 => exact encodeModS2_realizes hn hx hz
  | eq => exact encodeComp_realizes hx hz
  | lshift => exact encodeShift_realizes hn (fun _ => rfl) hx hz rfl
  | rshiftLogic => exact encodeShift_realizes hn (fun h => by cases h) hx hz rfl
  | rshiftArith => exact encodeShift_realizes hn (fun h => by cases h) hx hz rfl

end Smtrat.BV
