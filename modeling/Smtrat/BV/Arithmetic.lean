import Smtrat.BV.Networks

/-!
# The arithmetic networks compute the operations they are named after

Each network is run in a world where the bits of its operands have the values of two bit-vectors;
the bits it returns then have the value of the operation.  Only the checks for overflows can make
a network unsatisfiable, and they do so exactly where the operation overflows: everything else is
realized under any condition `C`.
-/

namespace Smtrat.BV

open PropFormula Circuit

variable {β : Type} {pool : FormulaPool (Atom β)} {w : World β} {C : Prop} {n m : ℕ}

/-- The bits have the values of the bits of `x`. -/
def Denotes (w : World β) (bits : Bits β) (x : BitVec n) : Prop := Spells w bits n x.getLsbD

variable {bits : Bits β}

theorem Denotes.mono {v : World β} (h : w ≤ v) {x : BitVec n}
    (hx : Denotes w bits x) : Denotes v bits x := Spells.mono h hx

theorem Denotes.bit {x : BitVec n} (h : Denotes w bits x) (i : ℕ) :
    Holds w (bit bits i) (x.getLsbD i) := by
  by_cases hi : i < n
  · exact h.2 i hi
  · rw [BV.bit, List.getD_eq_default _ _ (h.1 ▸ Nat.le_of_not_lt hi),
      BitVec.getLsbD_of_ge x i (Nat.le_of_not_lt hi)]
    exact holds_const w false

theorem Denotes.msb {x : BitVec n} (h : Denotes w bits x) : Holds w (msb bits) x.msb := by
  rw [BV.msb, h.1, BitVec.msb_eq_getLsbD_last]
  exact h.bit _

theorem Denotes.of_eq {x y : BitVec n} (h : Denotes w bits x)
    (hxy : w.live → x = y) : Denotes w bits y :=
  Spells.congr h fun hlive i _ => by rw [hxy hlive]

theorem Denotes.setWidth {x : BitVec n} (h : Denotes w bits x) (hnm : n = m) :
    Denotes w bits (x.setWidth m) := by
  subst hnm
  rwa [BitVec.setWidth_eq]

/-- Every list of values is that of a bit-vector. -/
theorem exists_bitVec (n : ℕ) (x : ℕ → Bool) : ∃ y : BitVec n, ∀ i < n, x i = y.getLsbD i := by
  induction n with
  | zero => exact ⟨0#0, fun i hi => absurd hi (Nat.not_lt_zero i)⟩
  | succ n ih =>
    obtain ⟨y, hy⟩ := ih
    refine ⟨BitVec.cons (x n) y, fun i hi => ?_⟩
    rw [BitVec.getLsbD_cons]
    rcases Nat.lt_succ_iff_lt_or_eq.mp hi with hi | rfl
    · rw [if_neg (Nat.ne_of_lt hi)]
      exact hy i hi
    · rw [if_pos rfl]

/-! ## Formulas of bits -/

theorem holds_create {c : Connective} {fs : Bits β} {bs : List Bool}
    (h : List.Forall₂ (Holds w) fs bs) : Holds w (pool.create c fs) (c.eval bs) := by
  refine ⟨Scope.Covers.create pool fun f hf => ?_, fun hlive => ?_⟩
  · induction h with
    | nil => cases hf
    | cons hg _ ih =>
      rcases List.mem_cons.mp hf with rfl | hf
      · exact hg.1
      · exact ih hf
  · rw [FormulaPool.eval_create]
    congr 1
    induction h with
    | nil => rfl
    | cons hf _ ih => rw [List.map_cons, hf.2 hlive, ih]

section Formulas

variable {f g k : Bit β} {a b c : Bool}

theorem holds_boolNot (hf : Holds w f a) : Holds w (boolNot pool f) (!a) :=
  holds_create (.cons hf .nil)

theorem holds_boolImplies (hf : Holds w f a) (hg : Holds w g b) :
    Holds w (boolImplies pool f g) (!a || b) := holds_create (.cons hf (.cons hg .nil))

theorem holds_boolAnd (hf : Holds w f a) (hg : Holds w g b) : Holds w (boolAnd pool f g) (a && b) :=
  (holds_create (.cons hf (.cons hg .nil))).congr fun _ => by simp

theorem holds_boolOr (hf : Holds w f a) (hg : Holds w g b) : Holds w (boolOr pool f g) (a || b) :=
  (holds_create (.cons hf (.cons hg .nil))).congr fun _ => by simp

theorem holds_boolXor (hf : Holds w f a) (hg : Holds w g b) : Holds w (boolXor pool f g) (a ^^ b) :=
  (holds_create (.cons hf (.cons hg .nil))).congr fun _ => by simp

theorem holds_boolIff (hf : Holds w f a) (hg : Holds w g b) : Holds w (boolIff pool f g) (a == b) :=
  (holds_create (.cons hf (.cons hg .nil))).congr fun _ => by simp

theorem holds_boolIte (hk : Holds w k c) (hf : Holds w f a) (hg : Holds w g b) :
    Holds w (boolIte pool k f g) (bif c then a else b) :=
  holds_create (.cons hk (.cons hf (.cons hg .nil)))

theorem createBit_realizes (hf : Holds w f a) :
    Realizes (createBit pool f) w C fun g v => Holds v g a := by
  unfold createBit
  split
  · exact .pure fun v hv => hf.mono hv
  · exact .define pool hf

theorem const0_realizes : Realizes (const0 pool) w C fun g v => Holds v g false :=
  createBit_realizes (holds_const w false)

theorem const1_realizes : Realizes (const1 pool) w C fun g v => Holds v g true :=
  createBit_realizes (holds_const w true)

end Formulas

theorem createBitsWith_realizes {f : ℕ → Bit β} {x : ℕ → Bool} (h : ∀ i < n, Holds w (f i) (x i)) :
    Realizes (createBitsWith pool f n) w C fun out v => Spells v out n x := by
  have hloop := Realizes.pushWith (C := C) (f := fun i _ => createBit pool (f i))
    (Spells.nil w x) n fun i hi out v hv _ => by
      rw [Nat.zero_add]
      exact createBit_realizes ((h i hi).mono hv)
  rwa [Nat.zero_add] at hloop

theorem createBits_realizes {x : ℕ → Bool} (h : Spells w bits n x) :
    Realizes (createBits pool bits) w C fun out v => Spells v out n x := by
  rw [createBits, h.1]
  exact createBitsWith_realizes h.2

/-! ## Bitwise operators -/

section Bitwise

variable {first second condBits thenBits elseBits : Bits β} {x y : BitVec n}

theorem encodeBitwise_realizes {op : Bit β → Bit β → Bit β} {z : BitVec n} {g : Bool → Bool → Bool}
    (hx : Denotes w first x) (hy : Denotes w second y)
    (hop : ∀ {f f' a b}, Holds w f a → Holds w f' b → Holds w (op f f') (g a b))
    (hz : ∀ i < n, g (x.getLsbD i) (y.getLsbD i) = z.getLsbD i) :
    Realizes (encodeBitwise pool op first second) w C fun out v => Denotes v out z := by
  rw [encodeBitwise, hx.1]
  refine createBitsWith_realizes fun i hi => ?_
  rw [← hz i hi]
  exact hop (hx.bit i) (hy.bit i)

theorem encodeXnor_realizes (hx : Denotes w first x) (hy : Denotes w second y) :
    Realizes (encodeXnor pool first second) w C fun out v => Denotes v out (~~~(x ^^^ y)) :=
  encodeBitwise_realizes hx hy holds_boolIff fun i hi => by
    rw [BitVec.getLsbD_not, BitVec.getLsbD_xor, decide_eq_true hi]
    cases x.getLsbD i <;> cases y.getLsbD i <;> rfl

theorem encodeNot_realizes (hx : Denotes w first x) :
    Realizes (encodeNot pool first) w C fun out v => Denotes v out (~~~x) := by
  rw [encodeNot, hx.1]
  refine createBitsWith_realizes fun i hi => ?_
  rw [BitVec.getLsbD_not, decide_eq_true hi, Bool.true_and]
  exact holds_boolNot (hx.bit i)

theorem encodeIte_realizes {condition : Bit β} {c : Bool} (hc : Holds w condition c)
    (hx : Denotes w thenBits x) (hy : Denotes w elseBits y) :
    Realizes (encodeIte pool condition thenBits elseBits) w C
      fun out v => Denotes v out (bif c then x else y) := by
  rw [encodeIte, hx.1]
  refine createBitsWith_realizes fun i _ => ?_
  refine (holds_boolIte hc (hx.bit i) (hy.bit i)).congr fun _ => ?_
  cases c <;> rfl

theorem constBit_realizes (value : Bool) :
    Realizes (constBit pool value) w C fun g v => Holds v g value := by
  cases value with
  | true =>
    change Realizes (const1 pool) w C _
    exact const1_realizes
  | false =>
    change Realizes (const0 pool) w C _
    exact const0_realizes

theorem encodeConstant_realizes (value : BVValue) :
    Realizes (encodeConstant pool value) w C fun out v => Denotes v out value.value := by
  have hloop := Realizes.pushWith (C := C)
    (f := fun i _ => constBit pool (value.value.getLsbD i))
    (Spells.nil w value.value.getLsbD) value.width fun i _ out v _ _ => by
      rw [Nat.zero_add]
      exact constBit_realizes _
  rwa [Nat.zero_add] at hloop

end Bitwise

/-! ## Addition -/

section Adder

variable {first second : Bits β} {x y : BitVec n} {c : Bool}

theorem holds_carryOut {f g k : Bit β} {a b c : Bool} (hf : Holds w f a) (hg : Holds w g b)
    (hk : Holds w k c) : Holds w (carryOut pool f g k) (Bool.atLeastTwo a b c) := by
  refine (holds_boolOr (holds_boolAnd hf hg) (holds_boolAnd (holds_boolXor hf hg) hk)).congr
    fun _ => ?_
  cases a <;> cases b <;> cases c <;> rfl

/-- The first `m + 1` carries of a sum. -/
theorem carries_realizes {carry₀ : Bit β} (hx : Denotes w first x) (hy : Denotes w second y)
    (hc : Holds w carry₀ c) (m : ℕ) :
    Realizes (pushWith
      (fun i carry => createBit pool (carryOut pool (bit first i) (bit second i) (bit carry i)))
      m [carry₀]) w C fun out v => Spells v out (1 + m) fun i => BitVec.carry i x y c := by
  have hstart : Spells w [carry₀] 1 fun i => BitVec.carry i x y c := by
    refine ⟨rfl, fun i hi => ?_⟩
    obtain rfl := Nat.lt_one_iff.mp hi
    exact hc.congr fun _ => BitVec.carry_zero.symm
  refine Realizes.pushWith hstart m fun i _ out v hv hout => ?_
  rw [Nat.add_comm, BitVec.carry_succ]
  exact createBit_realizes (holds_carryOut ((hx.mono hv).bit i) ((hy.mono hv).bit i)
    (hout.2 i (Nat.lt_add_of_pos_left Nat.one_pos)))

theorem unlessAllowed_realizes {check : Circuit β Unit} {allowOverflow : Bool} {P : Prop}
    (h : allowOverflow = false → Realizes check w C fun _ v => v.live → P) :
    Realizes (unlessAllowed allowOverflow check) w C
      fun _ v => allowOverflow = false → v.live → P := by
  unfold unlessAllowed
  split
  next hallow => exact .pure fun v _ hnot => absurd hnot (by simp [hallow])
  next hallow =>
      have hnot : allowOverflow = false := by simpa using hallow
      exact (h hnot).mono fun _ v _ hP _ => hP

/-- The adder with all its options.  The sum has one more bit if the carry out is asked for; if
overflows are not allowed, there is none. -/
theorem encodeAdderNetwork_realizes (withCarryOut allowOverflow : Bool) (hn : 0 < n)
    (hx : Denotes w first x) (hy : Denotes w second y)
    (hC : allowOverflow = false → w.live → C → BitVec.carry n x y c = false) :
    Realizes (encodeAdderNetwork pool first second c withCarryOut allowOverflow) w C fun out v =>
      Spells v out (n + if withCarryOut then 1 else 0)
        (fun i => if i < n then (x + y + BitVec.setWidth n (.ofBool c)).getLsbD i
          else BitVec.carry n x y c) ∧
      (allowOverflow = false → v.live → BitVec.carry n x y c = false) := by
  unfold encodeAdderNetwork
  refine (constBit_realizes c).bind fun carry₀ v hv hc => ?_
  refine (carries_realizes (hx.mono hv) (hy.mono hv) hc _).bind fun carry u hu hcarry => ?_
  have hcnt : 1 + (n + (if (withCarryOut || !allowOverflow) = true then 1 else 0) - 1) =
      n + if (withCarryOut || !allowOverflow) = true then 1 else 0 := by
    omega
  rw [hx.1, hcnt] at hcarry
  have hsum : ∀ i < n, Holds u
      (boolXor pool (bit first i) (boolXor pool (bit second i) (bit carry i)))
      ((x + y + BitVec.setWidth n (.ofBool c)).getLsbD i) := by
    intro i hi
    rw [BitVec.getLsbD_add_add_bool hi]
    exact holds_boolXor ((hx.mono (hv.trans hu)).bit i)
      (holds_boolXor ((hy.mono (hv.trans hu)).bit i) (hcarry.2 i (Nat.lt_add_right _ hi)))
  have hlast : (withCarryOut || !allowOverflow) = true →
      Holds u (bit carry (carry.length - 1)) (BitVec.carry n x y c) := by
    intro h
    rw [if_pos h] at hcarry
    rw [hcarry.1, Nat.add_sub_cancel]
    exact hcarry.2 n (Nat.lt_succ_self n)
  rw [hx.1]
  refine (createBitsWith_realizes hsum).bind fun out t ht hout => ?_
  have hwt : w ≤ t := (hv.trans hu).trans ht
  refine (unlessAllowed_realizes (P := BitVec.carry n x y c = false) fun hnot => ?_).bind
    fun _ s hs hno => ?_
  · refine (Realizes.boolAssert (holds_boolNot ((hlast (by simp [hnot])).mono ht))
      fun hlive hCt => ?_).mono fun _ r _ h hlive => by simpa using h hlive
    rw [hC hnot ((later_iff.mp hwt).live hlive) hCt]
    rfl
  · refine .pure fun r hr => ⟨?_, fun hnot hlive => hno hnot ((later_iff.mp hr).live hlive)⟩
    have hout' : Spells r out n fun i => if i < n then
        (x + y + BitVec.setWidth n (.ofBool c)).getLsbD i else BitVec.carry n x y c :=
      ((hout.mono hs).mono hr).congr fun _ i hi => by rw [if_pos hi]
    cases withCarryOut with
    | false => exact hout'
    | true =>
      refine hout'.concat ?_
      rw [if_neg (Nat.lt_irrefl n)]
      exact (hlast rfl).mono ((ht.trans hs).trans hr)

theorem adder_realizes (hn : 0 < n) (hx : Denotes w first x) (hy : Denotes w second y) :
    Realizes (encodeAdderNetwork pool first second c false true) w C
      fun out v => Denotes v out (x + y + BitVec.setWidth n (.ofBool c)) := by
  refine (encodeAdderNetwork_realizes false true hn hx hy fun h => ?_).mono fun out v _ h => ?_
  · cases h
  · exact h.1.congr fun _ i hi => if_pos hi

theorem carry_width_eq_false {x y : BitVec n} :
    BitVec.carry n x y false = false ↔ x.toNat + y.toNat < 2 ^ n := by
  rw [BitVec.carry_width, decide_eq_false_iff_not]
  simp

/-- The adder that may forbid overflows. -/
theorem adder_checked_realizes {allowOverflow : Bool} (hn : 0 < n) (hx : Denotes w first x)
    (hy : Denotes w second y)
    (hC : allowOverflow = false → w.live → C → x.toNat + y.toNat < 2 ^ n) :
    Realizes (encodeAdderNetwork pool first second false false allowOverflow) w C fun out v =>
      Denotes v out (x + y) ∧ (allowOverflow = false → v.live → x.toNat + y.toNat < 2 ^ n) := by
  refine (encodeAdderNetwork_realizes false allowOverflow hn hx hy
    fun hnot hlive hc => carry_width_eq_false.mpr (hC hnot hlive hc)).mono fun out v _ h => ?_
  refine ⟨h.1.congr fun _ i hi => (if_pos hi).trans ?_,
    fun hnot hlive => carry_width_eq_false.mp (h.2 hnot hlive)⟩
  simp

theorem encodeAdd_realizes (hn : 0 < n) (hx : Denotes w first x) (hy : Denotes w second y) :
    Realizes (encodeAdd pool first second) w C fun out v => Denotes v out (x + y) :=
  (adder_realizes hn hx hy).mono fun out v _ h => h.of_eq fun _ => by simp

theorem setWidth_ofBool_true (n : ℕ) : BitVec.setWidth n (.ofBool true) = 1#n := by
  apply BitVec.eq_of_toNat_eq
  simp

theorem encodeSub_realizes (hn : 0 < n) (hx : Denotes w first x) (hy : Denotes w second y) :
    Realizes (encodeSub pool first second) w C fun out v => Denotes v out (x - y) := by
  refine (encodeNot_realizes hy).bind fun negated v hv hneg => ?_
  refine (adder_realizes hn (hx.mono hv) hneg).mono fun out u _ h => h.of_eq fun _ => ?_
  rw [BitVec.sub_eq_add_neg, BitVec.neg_eq_not_add, BitVec.add_assoc, setWidth_ofBool_true]

theorem encodeNeg_realizes (hn : 0 < n) (hx : Denotes w first x) :
    Realizes (encodeNeg pool first) w C fun out v => Denotes v out (-x) := by
  refine (encodeNot_realizes hx).bind fun negated v hv hnegated => ?_
  refine const1_realizes.bind fun carry₀ u hu hc => ?_
  -- the carries of `~x + 0 + 1`
  have hstart : Spells u [carry₀] 1 fun i => BitVec.carry i (~~~x) 0#n true := by
    refine ⟨rfl, fun i hi => ?_⟩
    obtain rfl := Nat.lt_one_iff.mp hi
    exact hc.congr fun _ => BitVec.carry_zero.symm
  have hloop := Realizes.pushWith (C := C)
    (f := fun i carry => createBit pool (boolAnd pool (bit carry i) (bit negated i)))
    hstart (n - 1) fun i _ out t ht hout => by
      refine (createBit_realizes (holds_boolAnd (hout.2 i (Nat.lt_add_of_pos_left Nat.one_pos))
        ((hnegated.mono (hu.trans ht)).bit i))).mono fun g r _ hg => hg.congr fun _ => ?_
      beta_reduce
      rw [Nat.add_comm 1 i, BitVec.carry_succ, BitVec.getLsbD_zero]
      cases (~~~x).getLsbD i <;> cases BitVec.carry i (~~~x) 0#n true <;> rfl
  rw [hx.1]
  refine hloop.bind fun carry t ht hcarry => ?_
  refine (createBitsWith_realizes fun i hi => ?_).mono fun out r _ h => h
  have hval : (-x).getLsbD i = (BitVec.carry i (~~~x) 0#n true ^^ (~~~x).getLsbD i) := by
    have hneg : -x = ~~~x + 0#n + BitVec.setWidth n (.ofBool true) := by
      rw [BitVec.neg_eq_not_add, setWidth_ofBool_true, BitVec.add_zero]
    rw [hneg, BitVec.getLsbD_add_add_bool hi, BitVec.getLsbD_zero, Bool.false_xor, Bool.xor_comm]
  rw [hval]
  exact holds_boolXor (hcarry.2 i (by omega)) ((hnegated.mono (hu.trans ht)).bit i)

end Adder

/-! ## Comparisons -/

section Compare

variable {lhs rhs : Bits β} {x y : BitVec n}

theorem encodeEq_realizes (hx : Denotes w lhs x) (hy : Denotes w rhs y) :
    Realizes (encodeEq pool lhs rhs) w C fun g v => Holds v g (x == y) := by
  have hall : List.Forall₂ (Holds w)
      ((List.range n).map fun i => boolIff pool (bit lhs i) (bit rhs i))
      ((List.range n).map fun i => x.getLsbD i == y.getLsbD i) := by
    rw [List.forall₂_map_left_iff, List.forall₂_map_right_iff, List.forall₂_same]
    exact fun i _ => holds_boolIff (hx.bit i) (hy.bit i)
  rw [encodeEq, hx.1]
  refine (createBit_realizes (holds_create hall)).mono fun g v _ hg => hg.congr fun _ => ?_
  rw [Connective.eval_and, Bool.eq_iff_iff, List.all_eq_true]
  simp [BitVec.eq_of_getLsbD_eq_iff]

theorem encodeUge_realizes (hn : 0 < n) (hx : Denotes w lhs x) (hy : Denotes w rhs y) :
    Realizes (encodeUge pool lhs rhs) w C fun g v => Holds v g (y.ule x) := by
  refine (encodeNot_realizes hy).bind fun negated v hv hneg => ?_
  refine (encodeAdderNetwork_realizes true true hn
    (hx.mono hv) hneg (fun h => by cases h)).bind fun out u _ hout => ?_
  refine .pure fun t ht => ?_
  rw [BV.msb, hout.1.1, BitVec.ule_eq_carry]
  exact ((hout.1.mono ht).2 n (Nat.lt_succ_self n)).congr fun _ => if_neg (Nat.lt_irrefl n)

/-- A comparison that is the negation of another one. -/
theorem createNot_realizes {m : Circuit β (Bit β)} {b c : Bool}
    (hm : Realizes m w C fun g v => Holds v g c) (hc : (!c) = b) :
    Realizes (m >>= fun g => createBit pool (boolNot pool g)) w C fun g v => Holds v g b := by
  subst hc
  exact hm.bind fun _ _ _ h => createBit_realizes (holds_boolNot h)

theorem encodeUlt_realizes (hn : 0 < n) (hx : Denotes w lhs x) (hy : Denotes w rhs y) :
    Realizes (encodeUlt pool lhs rhs) w C fun g v => Holds v g (x.ult y) :=
  createNot_realizes (encodeUge_realizes hn hx hy) (by rw [BitVec.ule_eq_not_ult, Bool.not_not])

theorem encodeUle_realizes (hn : 0 < n) (hx : Denotes w lhs x) (hy : Denotes w rhs y) :
    Realizes (encodeUle pool lhs rhs) w C fun g v => Holds v g (x.ule y) := by
  refine (encodeUlt_realizes hn hx hy).bind fun ult v hv hult => ?_
  refine (encodeEq_realizes (hx.mono hv) (hy.mono hv)).bind fun eq u hu heq => ?_
  refine (createBit_realizes (holds_boolOr heq (hult.mono hu))).mono
    fun g t _ hg => hg.congr fun _ => ?_
  rw [BitVec.ule_eq_decide, BitVec.ult_eq_decide, Bool.eq_iff_iff]
  simp only [Bool.or_eq_true, beq_iff_eq, decide_eq_true_eq, BitVec.toNat_eq]
  omega

/-- Where the signs differ the negative number is the smaller one, where they agree the unsigned
comparison decides. -/
theorem holds_signedFormula {unsigned : Bit β} {b : Bool} (hx : Denotes w lhs x)
    (hy : Denotes w rhs y) (hb : Holds w unsigned b) :
    Holds w (signedFormula pool lhs rhs unsigned) ((x.msb && !y.msb) || ((x.msb == y.msb) && b)) :=
  holds_boolOr (holds_boolAnd hx.msb (holds_boolNot hy.msb))
    (holds_boolAnd (holds_boolIff hx.msb hy.msb) hb)

theorem encodeSlt_realizes (hn : 0 < n) (hx : Denotes w lhs x) (hy : Denotes w rhs y) :
    Realizes (encodeSlt pool lhs rhs) w C fun g v => Holds v g (x.slt y) := by
  refine (encodeUlt_realizes hn hx hy).bind fun ult v hv hult => ?_
  refine (createBit_realizes (holds_signedFormula (hx.mono hv) (hy.mono hv) hult)).mono
    fun g u _ hg => hg.congr fun _ => ?_
  by_cases h : x.msb = y.msb
  · rw [BitVec.slt_eq_ult_of_msb_eq h, h]
    cases y.msb <;> simp
  · rw [BitVec.slt_eq_not_carry, ← Bool.not_not (BitVec.carry _ _ _ _), ← BitVec.ult_eq_not_carry]
    rw [BitVec.ult_eq_msb_of_msb_neq h]
    revert h
    cases x.msb <;> cases y.msb <;> simp

theorem encodeSle_realizes (hn : 0 < n) (hx : Denotes w lhs x) (hy : Denotes w rhs y) :
    Realizes (encodeSle pool lhs rhs) w C fun g v => Holds v g (x.sle y) := by
  refine (encodeUle_realizes hn hx hy).bind fun ule v hv hule => ?_
  refine (createBit_realizes (holds_signedFormula (hx.mono hv) (hy.mono hv) hule)).mono
    fun g u _ hg => hg.congr fun _ => ?_
  by_cases h : x.msb = y.msb
  · rw [BitVec.sle_eq_ule_of_msb_eq h, h]
    cases y.msb <;> simp
  · rw [BitVec.sle_eq_ule, BitVec.ule_eq_not_ult, BitVec.ult_eq_msb_of_msb_neq (Ne.symm h)]
    revert h
    cases x.msb <;> cases y.msb <;> simp

/-- The cases of `encodeConstraint`. -/
theorem encodeRelation_realizes (relation : BVCompareRelation) (hn : 0 < n)
    (hx : Denotes w lhs x) (hy : Denotes w rhs y) :
    Realizes (encodeRelation pool relation lhs rhs) w C
      fun g v => Holds v g (relation.value x y) := by
  cases relation with
  | eq => exact encodeEq_realizes hx hy
  | neq => exact createNot_realizes (encodeEq_realizes hx hy) rfl
  | ult => exact encodeUlt_realizes hn hx hy
  | ule => exact encodeUle_realizes hn hx hy
  | ugt =>
    exact createNot_realizes (b := y.ult x) (encodeUle_realizes hn hx hy)
      (by rw [BitVec.ule_eq_not_ult, Bool.not_not])
  | uge => exact encodeUge_realizes hn hx hy
  | slt => exact encodeSlt_realizes hn hx hy
  | sle => exact encodeSle_realizes hn hx hy
  | sgt =>
    exact createNot_realizes (b := y.slt x) (encodeSle_realizes hn hx hy)
      (by rw [BitVec.sle_eq_not_slt, Bool.not_not])
  | sge => exact createNot_realizes (encodeSlt_realizes hn hx hy) BitVec.sle_eq_not_slt.symm

theorem encodeComp_realizes (hx : Denotes w lhs x) (hy : Denotes w rhs y) :
    Realizes (encodeComp pool lhs rhs) w C fun out v => Denotes v out (BitVec.ofBool (x == y)) := by
  refine (encodeEq_realizes hx hy).bind fun eq v _ heq => .pure fun u hu => ?_
  refine ⟨rfl, fun i hi => ?_⟩
  obtain rfl := Nat.lt_one_iff.mp hi
  exact (heq.mono hu).congr fun _ => by simp

end Compare

end Smtrat.BV
