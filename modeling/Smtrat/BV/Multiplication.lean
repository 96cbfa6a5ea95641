import Smtrat.BV.Arithmetic

/-!
# Multiplication and division networks

The multiplier adds the shifted partial products one after the other, which is `BitVec.mulRec`.
Where overflows are not allowed, the lost bits of the partial products and the carries out of the
sums are asserted to be zero; these checks can be met exactly if the product of the two numbers
fits.  The divider guesses quotient and remainder and asserts what defines them.  Its checks are
asserted for a zero divisor too, where the product is zero.
-/

namespace Smtrat.BV

open PropFormula Circuit

variable {β : Type} {pool : FormulaPool (Atom β)} {w : World β} {C : Prop} {n : ℕ}

/-! ## Partial products -/

variable {i : ℕ}

section Product

variable {x y : BitVec n}

/-- The partial product of `x` with bit `i` of `y`. -/
def summand (x y : BitVec n) (i : ℕ) : BitVec n := if y.getLsbD i then x <<< i else 0#n

/-- The partial product is not too long. -/
def NotLost (x y : BitVec n) (i : ℕ) : Prop := y.getLsbD i = true → x.toNat < 2 ^ (n - i)

/-- The product with the low `i + 1` bits of `y` fits. -/
def PartialFits (x y : BitVec n) (i : ℕ) : Prop := x.toNat * (y.toNat % 2 ^ (i + 1)) < 2 ^ n

theorem toNat_mulRec (h : PartialFits x y i) :
    (BitVec.mulRec x y i).toNat = x.toNat * (y.toNat % 2 ^ (i + 1)) := by
  rw [BitVec.mulRec_eq_mul_signExtend_setWidth, BitVec.toNat_mul, BitVec.toNat_setWidth,
    BitVec.toNat_setWidth]
  have hlt : y.toNat % 2 ^ (i + 1) % 2 ^ n = y.toNat % 2 ^ (i + 1) :=
    Nat.mod_eq_of_lt (lt_of_le_of_lt (Nat.mod_le _ _) y.isLt)
  rw [hlt, Nat.mod_eq_of_lt h]

theorem toNat_summand (hi : i < n) (h : NotLost x y i) :
    (summand x y i).toNat = x.toNat * (2 ^ i * (y.toNat.testBit i).toNat) := by
  unfold summand
  cases hy : y.getLsbD i with
  | false =>
    have hbit : y.toNat.testBit i = false := hy
    simp [hbit]
  | true =>
    have hbit : y.toNat.testBit i = true := hy
    have hlt : x.toNat * 2 ^ i < 2 ^ n := by
      calc x.toNat * 2 ^ i < 2 ^ (n - i) * 2 ^ i :=
            Nat.mul_lt_mul_of_pos_right (h hy) (Nat.two_pow_pos i)
        _ = 2 ^ n := by rw [← Nat.pow_add, Nat.sub_add_cancel hi.le]
    rw [if_pos rfl, BitVec.toNat_shiftLeft, Nat.shiftLeft_eq, Nat.mod_eq_of_lt hlt, hbit]
    simp

theorem partialFits_zero (x y : BitVec n) : PartialFits x y 0 := by
  have hy : y.toNat % 2 ^ (0 + 1) ≤ 1 := by omega
  calc x.toNat * (y.toNat % 2 ^ (0 + 1)) ≤ x.toNat * 1 := Nat.mul_le_mul_left _ hy
    _ < 2 ^ n := by rw [Nat.mul_one]; exact x.isLt

/-- The next sum does not overflow exactly if the next partial product fits. -/
theorem partialFits_succ (hi : i + 1 < n) (h : PartialFits x y i) (hlost : NotLost x y (i + 1)) :
    (BitVec.mulRec x y i).toNat + (summand x y (i + 1)).toNat < 2 ^ n ↔
      PartialFits x y (i + 1) := by
  rw [PartialFits, toNat_mulRec h, toNat_summand hi hlost, Nat.mod_pow_succ (k := i + 1),
    ← Nat.toNat_testBit, Nat.mul_add]

theorem fits_of_partialFits (hn : 0 < n) (h : PartialFits x y (n - 1)) :
    x.toNat * y.toNat < 2 ^ n := by
  rwa [PartialFits, Nat.sub_add_cancel hn, Nat.mod_eq_of_lt y.isLt] at h

theorem notLost_of_fits (h : x.toNat * y.toNat < 2 ^ n) (hi : i < n) :
    NotLost x y i := by
  intro hy
  have hle : 2 ^ i ≤ y.toNat := Nat.ge_two_pow_of_testBit hy
  by_contra hlt
  have hge : 2 ^ (n - i) * 2 ^ i ≤ x.toNat * y.toNat :=
    Nat.mul_le_mul (Nat.le_of_not_lt hlt) hle
  rw [← Nat.pow_add, Nat.sub_add_cancel hi.le] at hge
  exact absurd h (Nat.not_lt.mpr hge)

theorem notLost_iff (hi : i < n) :
    NotLost x y i ↔ ∀ j < i, (y.getLsbD i && x.getLsbD (n + j - i)) = false := by
  constructor
  · intro h j hj
    cases hy : y.getLsbD i with
    | false => rfl
    | true =>
      have hle : 2 ^ (n - i) ≤ 2 ^ (n + j - i) := Nat.pow_le_pow_right Nat.two_pos (by omega)
      exact Nat.testBit_lt_two_pow (lt_of_lt_of_le (h hy) hle)
  · intro h hy
    refine Nat.lt_pow_two_of_testBit _ fun j hj => ?_
    by_cases hjn : j < n
    · have hbit := h (i + j - n) (by omega)
      rw [hy, Bool.true_and] at hbit
      rwa [show n + (i + j - n) - i = j by omega] at hbit
    · exact BitVec.getLsbD_of_ge x j (Nat.le_of_not_lt hjn)

end Product

/-! ## The multiplier -/

section Multiplier

variable {first second : Bits β} {x y : BitVec n} {allowOverflow : Bool}

theorem encodeSummand_realizes (hx : Denotes w first x) (hy : Denotes w second y) (i : ℕ) :
    Realizes (encodeSummand pool first second i) w C
      fun out v => Denotes v out (summand x y i) := by
  have hloop := Realizes.pushWith (C := C)
    (f := fun j _ => if j < i then const0 pool
      else createBit pool (boolAnd pool (bit second i) (bit first (j - i))))
    (Spells.nil w (summand x y i).getLsbD) n fun j hj out v hv _ => by
      rw [Nat.zero_add]
      split
      next hji =>
          refine const0_realizes.mono fun g u _ hg => hg.congr fun _ => ?_
          unfold summand
          split
          · simp [BitVec.getLsbD_shiftLeft, hji]
          · simp
      next hji =>
          refine (createBit_realizes (holds_boolAnd ((hy.mono hv).bit i)
            ((hx.mono hv).bit (j - i)))).mono fun g u _ hg => hg.congr fun _ => ?_
          unfold summand
          cases y.getLsbD i with
          | false => simp
          | true =>
            rw [if_pos rfl, BitVec.getLsbD_shiftLeft, decide_eq_true hj, decide_eq_false hji]
            rfl
  rw [Nat.zero_add] at hloop
  rw [encodeSummand, hx.1]
  exact hloop

theorem assertNotLost_realizes (hx : Denotes w first x) (hy : Denotes w second y)
    (hi : i < n) (hC : w.live → C → NotLost x y i) {k : ℕ} (hk : k ≤ i) :
    Realizes (assertNotLost pool first second i k) w C fun _ v =>
      v.live → ∀ j < k, (y.getLsbD i && x.getLsbD (n + j - i)) = false := by
  induction k with
  | zero => exact .pure fun v _ _ j hj => absurd hj (Nat.not_lt_zero j)
  | succ k ih =>
    refine (ih (Nat.le_of_succ_le hk)).bind fun _ v hv hzero => ?_
    rw [hx.1]
    refine (Realizes.boolAssert (holds_boolNot (holds_boolAnd ((hy.mono hv).bit i)
      ((hx.mono hv).bit _))) fun hlive hc => ?_).mono fun _ u hu hlast hlive j hj => ?_
    · rw [(notLost_iff hi).mp (hC ((later_iff.mp hv).live hlive) hc) k hk]
      rfl
    · rcases Nat.lt_succ_iff_lt_or_eq.mp hj with hj | rfl
      · exact hzero ((later_iff.mp hu).live hlive) j hj
      · exact (Bool.not_eq_true' _).mp (hlast hlive)

/-- The summands are the partial products, none of them too long if overflows are not allowed. -/
theorem summands_realizes (hx : Denotes w first x) (hy : Denotes w second y)
    (hC : allowOverflow = false → w.live → C → x.toNat * y.toNat < 2 ^ n) :
    Realizes (pushWith (fun i _ => do
        let s ← encodeSummand pool first second i
        unlessAllowed allowOverflow (assertNotLost pool first second i i)
        pure s) n []) w C
      (Listed (fun i s v => Denotes v s (summand x y i) ∧
        (allowOverflow = false → v.live → NotLost x y i)) [] n) := by
  have hloop := Realizes.pushWith_listed (C := C)
    (R := fun i s v => Denotes v s (summand x y i) ∧
      (allowOverflow = false → v.live → NotLost x y i)) (d := [])
    (f := fun i _ => do
        let s ← encodeSummand pool first second i
        unlessAllowed allowOverflow (assertNotLost pool first second i i)
        pure s)
    (fun _ _ v u hvu h => ⟨h.1.mono hvu, fun hnot hlive => h.2 hnot ((later_iff.mp hvu).live hlive)⟩)
    (Listed.nil _ _ w) n fun i hi out v hv _ => by
      rw [Nat.zero_add]
      refine (encodeSummand_realizes (hx.mono hv) (hy.mono hv) i).bind fun s u hu hs => ?_
      have hvu := hv.trans hu
      refine (unlessAllowed_realizes fun hnot =>
        assertNotLost_realizes (hx.mono hvu) (hy.mono hvu) hi (fun hlive hc =>
          notLost_of_fits (hC hnot ((later_iff.mp hvu).live hlive) hc) hi) le_rfl).bind
        fun _ t ht hzero => .pure fun r hr => ⟨hs.mono (ht.trans hr), fun hnot hlive => ?_⟩
      exact (notLost_iff hi).mpr (hzero hnot ((later_iff.mp hr).live hlive))
  rwa [Nat.zero_add] at hloop

theorem encodeMultiplicationNetwork_realizes (hn : 0 < n) (hx : Denotes w first x)
    (hy : Denotes w second y)
    (hC : allowOverflow = false → w.live → C → x.toNat * y.toNat < 2 ^ n) :
    Realizes (encodeMultiplicationNetwork pool first second allowOverflow) w C fun out v =>
      Denotes v out (x * y) ∧ (allowOverflow = false → v.live → x.toNat * y.toNat < 2 ^ n) := by
  unfold encodeMultiplicationNetwork
  rw [hx.1]
  refine (summands_realizes hx hy hC).bind fun summands v hv hsummands => ?_
  -- the sum of the first `i + 2` partial products
  let R : ℕ → Bits β → World β → Prop := fun i s v =>
    Denotes v s (BitVec.mulRec x y (i + 1)) ∧
      (allowOverflow = false → v.live → PartialFits x y (i + 1))
  have hR : ∀ i s v u, v ≤ u → R i s v → R i s u := fun _ _ _ _ hvu h =>
    ⟨h.1.mono hvu, fun hnot hlive => h.2 hnot ((later_iff.mp hvu).live hlive)⟩
  have hfst : ∀ u, v ≤ u → Denotes u (summands.getD 0 []) (BitVec.mulRec x y 0) :=
    fun u hu => (hsummands.2 0 hn).1.mono hu
  have hloop := Realizes.pushWith_listed (C := C) (d := []) hR
    (f := fun i sums => encodeAdderNetwork pool
      (if i = 0 then summands.getD 0 [] else sums.getD (i - 1) [])
      (summands.getD (i + 1) []) false false allowOverflow)
    (Listed.nil _ _ v) (n - 1) fun i hi out u hu hout => by
      rw [Nat.zero_add] at hout ⊢
      have hin : i + 1 < n := by omega
      have hprev : Denotes u (if i = 0 then summands.getD 0 [] else out.getD (i - 1) [])
            (BitVec.mulRec x y i) ∧
          (allowOverflow = false → u.live → PartialFits x y i) := by
        cases i with
        | zero => exact ⟨hfst u hu, fun _ _ => partialFits_zero x y⟩
        | succ i => exact hout.2 i (Nat.lt_succ_self i)
      have hsummand := hsummands.2 (i + 1) hin
      have hlost : allowOverflow = false → u.live → NotLost x y (i + 1) :=
        fun hnot hlive => hsummand.2 hnot ((later_iff.mp hu).live hlive)
      refine (adder_checked_realizes hn hprev.1 (hsummand.1.mono hu) fun hnot hlive hc => ?_).mono
        fun s t ht hs => ⟨?_, fun hnot hlive => ?_⟩
      · refine (partialFits_succ hin (hprev.2 hnot hlive) (hlost hnot hlive)).mpr ?_
        exact lt_of_le_of_lt (Nat.mul_le_mul_left _ (Nat.mod_le _ _))
          (hC hnot ((later_iff.mp (hv.trans hu)).live hlive) hc)
      · rw [BitVec.mulRec_succ_eq]
        exact hs.1
      · have hlive' := (later_iff.mp ht).live hlive
        exact (partialFits_succ hin (hprev.2 hnot hlive') (hlost hnot hlive')).mp (hs.2 hnot hlive)
  rw [Nat.zero_add] at hloop
  refine hloop.bind fun sums u hu hsums => .pure fun t ht => ?_
  have hmul : BitVec.mulRec x y (n - 1) = x * y := by
    rw [BitVec.mulRec_eq_mul_signExtend_setWidth, Nat.sub_add_cancel hn]
    simp
  rw [hsums.1]
  split
  next hpos =>
      have hlast := hsums.2 (n - 1 - 1) (by omega)
      have hidx : n - 1 - 1 + 1 = n - 1 := by omega
      refine ⟨(hlast.1.mono ht).of_eq fun _ => by rw [hidx, hmul], fun hnot hlive => ?_⟩
      have hfits := hlast.2 hnot ((later_iff.mp ht).live hlive)
      rw [hidx] at hfits
      exact fits_of_partialFits hn hfits
  next hpos =>
      have hone : n - 1 = 0 := by omega
      refine ⟨(hfst t (hu.trans ht)).of_eq fun _ => by rw [← hmul, hone], fun _ _ => ?_⟩
      refine fits_of_partialFits hn ?_
      rw [hone]
      exact partialFits_zero x y

end Multiplier

/-! ## The divider -/

section Divider

variable {first second quotient remainder : Bits β} {x y q r : BitVec n}

theorem holds_boolOrAll (hy : Denotes w second y) : Holds w (boolOrAll pool second) (y != 0#n) := by
  have hall : List.Forall₂ (Holds w) second ((List.range n).map y.getLsbD) := by
    refine List.forall₂_iff_get.mpr ⟨by simp [hy.1], fun i h₁ h₂ => ?_⟩
    have hi := hy.bit i
    rw [bit, List.getD_eq_getElem _ _ h₁] at hi
    simpa using hi
  refine (holds_create hall).congr fun _ => ?_
  rw [Connective.eval_or, Bool.eq_iff_iff, List.any_eq_true, bne_iff_ne, ne_eq,
    BitVec.eq_of_getLsbD_eq_iff]
  simp

/-- A quotient and a remainder in range are those of the division. -/
theorem division_unique (hlt : q.toNat * y.toNat < 2 ^ n)
    (hsum : (q * y).toNat + r.toNat < 2 ^ n) (heq : x = q * y + r) (hr : r.toNat < y.toNat) :
    q = x / y ∧ r = x % y := by
  have hx : x.toNat = r.toNat + q.toNat * y.toNat := by
    rw [heq, BitVec.toNat_add, Nat.mod_eq_of_lt hsum, BitVec.toNat_mul, Nat.mod_eq_of_lt hlt,
      Nat.add_comm]
  have hy : 0 < y.toNat := Nat.zero_lt_of_lt hr
  constructor
  · apply BitVec.eq_of_toNat_eq
    rw [BitVec.toNat_udiv, hx, Nat.add_mul_div_right _ _ hy, Nat.div_eq_of_lt hr, Nat.zero_add]
  · apply BitVec.eq_of_toNat_eq
    rw [BitVec.toNat_umod, hx, Nat.add_mul_mod_self_right, Nat.mod_eq_of_lt hr]

theorem smtUDiv_of_ne_zero (hy : y ≠ 0#n) : x.smtUDiv y = x / y := by
  rw [BitVec.smtUDiv_eq, if_neg hy]

theorem smtUDiv_mul_toNat : (x.smtUDiv y).toNat * y.toNat = x.toNat / y.toNat * y.toNat := by
  by_cases hy : y = 0#n
  · simp [hy]
  · rw [smtUDiv_of_ne_zero hy, BitVec.toNat_udiv]

theorem smtUDiv_mul_lt : (x.smtUDiv y).toNat * y.toNat < 2 ^ n := by
  rw [smtUDiv_mul_toNat]
  exact lt_of_le_of_lt (Nat.div_mul_le_self _ _) x.isLt

theorem smtUDiv_mul_add_umod : (x.smtUDiv y * y).toNat + (x % y).toNat = x.toNat := by
  rw [BitVec.toNat_mul, Nat.mod_eq_of_lt smtUDiv_mul_lt, smtUDiv_mul_toNat, BitVec.toNat_umod,
    Nat.mul_comm, Nat.div_add_mod]

/-- What the divider asserts of its guesses if the divisor is not zero. -/
theorem quotientRemainder_realizes (hn : 0 < n) (hx : Denotes w first x) (hy : Denotes w second y)
    (hq : Denotes w quotient q) (hr : Denotes w remainder r)
    (hC : w.live → C → q = x.smtUDiv y ∧ r = x % y) {Y : Type} {f : Circuit β Y}
    {Q : Y → World β → Prop}
    (hf : ∀ v, w ≤ v → (v.live → y ≠ 0#n → q = x / y ∧ r = x % y) → Realizes f v C Q) :
    Realizes (do
      let product ← encodeMultiplicationNetwork pool quotient second false
      let sum ← encodeAdderNetwork pool product remainder false false false
      let summationCorrect ← encodeEq pool first sum
      let remainderLessThanDivisor ← encodeUlt pool remainder second
      boolAssert (boolImplies pool (boolOrAll pool second)
        (boolAnd pool summationCorrect remainderLessThanDivisor))
      f) w C Q := by
  have hfits : w.live → C → q.toNat * y.toNat < 2 ^ n ∧ (q * y).toNat + r.toNat = x.toNat := by
    intro hlive hc
    obtain ⟨rfl, rfl⟩ := hC hlive hc
    exact ⟨smtUDiv_mul_lt, smtUDiv_mul_add_umod⟩
  refine (encodeMultiplicationNetwork_realizes hn hq hy fun _ hlive hc => (hfits hlive hc).1).bind
    fun product v₁ h₁ hproduct => ?_
  refine (adder_checked_realizes hn hproduct.1 (hr.mono h₁) fun _ hlive hc => ?_).bind
    fun sum v₂ h₂ hsum => ?_
  · rw [(hfits ((later_iff.mp h₁).live hlive) hc).2]
    exact x.isLt
  have hle₂ := h₁.trans h₂
  refine (encodeEq_realizes (hx.mono hle₂) hsum.1).bind fun eq v₃ h₃ heq => ?_
  have hle₃ := hle₂.trans h₃
  refine (encodeUlt_realizes hn (hr.mono hle₃) (hy.mono hle₃)).bind fun ult v₄ h₄ hult => ?_
  have hle₄ := hle₃.trans h₄
  refine (Realizes.boolAssert (holds_boolImplies (holds_boolOrAll (hy.mono hle₄))
    (holds_boolAnd (heq.mono h₄) hult)) fun hlive hc => ?_).bind fun _ v₅ h₅ hasrt => ?_
  · have hval : x = q * y + r := by
      apply BitVec.eq_of_toNat_eq
      rw [BitVec.toNat_add, (hfits ((later_iff.mp hle₄).live hlive) hc).2, BitVec.toNat_mod_cancel]
    by_cases hzero : y = 0#n
    · simp [hzero]
    · obtain ⟨-, hrem⟩ := hC ((later_iff.mp hle₄).live hlive) hc
      have hlt : r.ult y = true := by
        rw [hrem, BitVec.ult_eq_decide, decide_eq_true_eq, BitVec.toNat_umod]
        exact Nat.mod_lt _ (Nat.pos_of_ne_zero fun h => hzero (BitVec.eq_of_toNat_eq (by simp [h])))
      rw [hlt, beq_iff_eq.mpr hval]
      simp
  · refine hf v₅ (hle₄.trans h₅) fun hlive hzero => ?_
    have hlive₂ := (later_iff.mp ((h₃.trans h₄).trans h₅)).live hlive
    have hlive₁ := (later_iff.mp h₂).live hlive₂
    have hcorr := hasrt hlive
    rw [bne_iff_ne.mpr hzero, Bool.not_true, Bool.false_or, Bool.and_eq_true, beq_iff_eq,
      BitVec.ult_eq_decide, decide_eq_true_eq] at hcorr
    exact division_unique (hproduct.2 rfl hlive₁) (hsum.2 rfl hlive₂) hcorr.1 hcorr.2

theorem encodeDivisionNetwork_realizes (hn : 0 < n) (hx : Denotes w first x)
    (hy : Denotes w second y) (returnRemainder : Bool) :
    Realizes (encodeDivisionNetwork pool first second returnRemainder) w C fun out v =>
      Denotes v out (bif returnRemainder then x % y else x.smtUDiv y) := by
  unfold encodeDivisionNetwork
  rw [hx.1]
  refine Realizes.createVariables_bind (fun f => ∀ i < n, f i = (x.smtUDiv y).getLsbD i)
    (fun quotient f v hv hf => ?_) fun _ _ => ⟨_, fun _ _ => rfl⟩
  obtain ⟨q, hq⟩ := exists_bitVec n f
  have hquot : Denotes v quotient q := hf.congr fun _ => hq
  refine Realizes.createVariables_bind
    (fun g => (∀ i < n, f i = (x.smtUDiv y).getLsbD i) ∧ ∀ i < n, g i = (x % y).getLsbD i)
    (fun remainder g u hu hg => ?_) fun _ h => ⟨_, h, fun _ _ => rfl⟩
  obtain ⟨r, hr⟩ := exists_bitVec n g
  have hremainder : Denotes u remainder r := hg.congr fun _ => hr
  have hxu := hx.mono (hv.trans hu)
  have hyu := hy.mono (hv.trans hu)
  have hC : ((∀ i < n, f i = (x.smtUDiv y).getLsbD i) ∧ ∀ i < n, g i = (x % y).getLsbD i) →
      q = x.smtUDiv y ∧ r = x % y := by
    rintro ⟨hf, hg⟩
    exact ⟨BitVec.eq_of_getLsbD_eq fun i hi => (hq i hi).symm.trans (hf i hi),
      BitVec.eq_of_getLsbD_eq fun i hi => (hr i hi).symm.trans (hg i hi)⟩
  refine quotientRemainder_realizes hn hxu hyu (hquot.mono hu) hremainder (fun _ => hC)
    fun t ht hval => ?_
  have hzero : Holds t (boolNot pool (boolOrAll pool second)) !(y != 0#n) :=
    holds_boolNot (holds_boolOrAll (hyu.mono ht))
  have hrt := hremainder.mono ht
  have hqt := hquot.mono (hu.trans ht)
  cases returnRemainder with
  | true =>
    refine (encodeEq_realizes hrt (hxu.mono ht)).bind fun eq s hs heq => ?_
    refine (Realizes.boolAssert (holds_boolImplies (hzero.mono hs) heq) fun _ hc => ?_).bind
      fun _ p hp hasrt => .pure fun o ho => ?_
    · rw [(hC hc).2, Bool.not_not]
      by_cases hy0 : y = 0#n
      · simp [hy0]
      · simp [hy0]
    · refine (hrt.mono ((hs.trans hp).trans ho)).of_eq fun hlive => ?_
      have hlive' := (later_iff.mp ho).live hlive
      by_cases hy0 : y = 0#n
      · have hrx := hasrt hlive'
        simpa [hy0] using hrx
      · exact (hval ((later_iff.mp (hs.trans hp)).live hlive') hy0).2
  | false =>
    refine (encodeConstant_realizes ⟨n, BitVec.allOnes n⟩).bind fun ones s₀ hs₀ hones => ?_
    refine (encodeEq_realizes (hqt.mono hs₀) hones).bind fun eq s hs heq => ?_
    have hts := hs₀.trans hs
    refine (Realizes.boolAssert (holds_boolImplies (hzero.mono hts) heq) fun _ hc => ?_).bind
      fun _ p hp hasrt => .pure fun o ho => ?_
    · rw [(hC hc).1, Bool.not_not]
      by_cases hy0 : y = 0#n
      · simp [hy0, BitVec.smtUDiv_eq]
      · simp [hy0]
    · refine (hqt.mono ((hts.trans hp).trans ho)).of_eq fun hlive => ?_
      have hlive' := (later_iff.mp ho).live hlive
      by_cases hy0 : y = 0#n
      · have hqo := hasrt hlive'
        simpa [hy0, BitVec.smtUDiv_eq] using hqo
      · exact (hval ((later_iff.mp (hts.trans hp)).live hlive') hy0).1.trans
          (smtUDiv_of_ne_zero hy0).symm

theorem encodeDivU_realizes (hn : 0 < n) (hx : Denotes w first x) (hy : Denotes w second y) :
    Realizes (encodeDivU pool first second) w C fun out v => Denotes v out (x.smtUDiv y) :=
  encodeDivisionNetwork_realizes hn hx hy false

theorem encodeModU_realizes (hn : 0 < n) (hx : Denotes w first x) (hy : Denotes w second y) :
    Realizes (encodeModU pool first second) w C fun out v => Denotes v out (x % y) :=
  encodeDivisionNetwork_realizes hn hx hy true

/-! ## Signed division -/

theorem negIf_realizes (negate : Bool) (hn : 0 < n) (hx : Denotes w first x) :
    Realizes (negIf pool negate first) w C
      fun out v => Denotes v out (bif negate then -x else x) := by
  cases negate with
  | true => exact encodeNeg_realizes hn hx
  | false => exact .pure fun v hv => hx.mono hv

/-- A circuit that computes a binary operation in every world. -/
def Computes (op : Bits β → Bits β → Circuit β (Bits β)) (g : BitVec n → BitVec n → BitVec n)
    (C : Prop) : Prop :=
  ∀ {w : World β} {first second : Bits β} {x y : BitVec n}, Denotes w first x →
    Denotes w second y → Realizes (op first second) w C fun out v => Denotes v out (g x y)

theorem encodeNegated_realizes {op : Bits β → Bits β → Circuit β (Bits β)}
    {g : BitVec n → BitVec n → BitVec n} (hop : Computes op g C)
    (negFirst negSecond negResult : Bool) (hn : 0 < n) (hx : Denotes w first x)
    (hy : Denotes w second y) :
    Realizes (encodeNegated pool op negFirst negSecond negResult first second) w C fun out v =>
      Denotes v out (bif negResult then
        -g (bif negFirst then -x else x) (bif negSecond then -y else y)
        else g (bif negFirst then -x else x) (bif negSecond then -y else y)) := by
  refine (negIf_realizes negFirst hn hx).bind fun a v hv ha => ?_
  refine (negIf_realizes negSecond hn (hy.mono hv)).bind fun b u hu hb => ?_
  refine (hop (ha.mono hu) hb).bind fun c t _ hc => ?_
  exact negIf_realizes negResult hn hc

theorem encodeBySigns_realizes {op : Bits β → Bits β → Circuit β (Bits β)}
    {g : BitVec n → BitVec n → BitVec n} (hop : Computes op g C) (negBoth negFirst negSecond : Bool)
    (hn : 0 < n) (hx : Denotes w first x) (hy : Denotes w second y) :
    Realizes (encodeBySigns pool op negBoth negFirst negSecond first second) w C fun out v =>
      Denotes v out (bif x.msb then
          (bif y.msb then (bif negBoth then -g (-x) (-y) else g (-x) (-y))
            else bif negFirst then -g (-x) y else g (-x) y)
        else bif y.msb then (bif negSecond then -g x (-y) else g x (-y)) else g x y) := by
  refine (encodeNegated_realizes hop true true negBoth hn hx hy).bind fun nn v₁ h₁ hNN => ?_
  have hx₁ := hx.mono h₁
  have hy₁ := hy.mono h₁
  refine (encodeNegated_realizes hop true false negFirst hn hx₁ hy₁).bind fun np v₂ h₂ hNP => ?_
  have hx₂ := hx₁.mono h₂
  have hy₂ := hy₁.mono h₂
  refine (encodeIte_realizes hy₂.msb (hNN.mono h₂) hNP).bind fun resN v₃ h₃ hN => ?_
  have hx₃ := hx₂.mono h₃
  have hy₃ := hy₂.mono h₃
  refine (encodeNegated_realizes hop false true negSecond hn hx₃ hy₃).bind fun pn v₄ h₄ hPN => ?_
  have hx₄ := hx₃.mono h₄
  have hy₄ := hy₃.mono h₄
  refine (encodeNegated_realizes hop false false false hn hx₄ hy₄).bind fun pp v₅ h₅ hPP => ?_
  have hx₅ := hx₄.mono h₅
  refine (encodeIte_realizes (hy₄.mono h₅).msb (hPN.mono h₅) hPP).bind fun resP v₆ h₆ hP => ?_
  exact encodeIte_realizes (hx₅.mono h₆).msb (hN.mono ((h₄.trans h₅).trans h₆)) hP

theorem encodeDivS_realizes (hn : 0 < n) (hx : Denotes w first x) (hy : Denotes w second y) :
    Realizes (encodeDivS pool first second) w C fun out v => Denotes v out (x.smtSDiv y) := by
  refine (encodeBySigns_realizes (fun ha hb => encodeDivU_realizes hn ha hb) false true true hn
    hx hy).mono fun out v _ h => h.of_eq fun _ => ?_
  unfold BitVec.smtSDiv
  cases x.msb <;> cases y.msb <;> rfl

theorem encodeModS1_realizes (hn : 0 < n) (hx : Denotes w first x) (hy : Denotes w second y) :
    Realizes (encodeModS1 pool first second) w C fun out v => Denotes v out (x.srem y) := by
  refine (encodeBySigns_realizes (fun ha hb => encodeModU_realizes hn ha hb) true true false hn
    hx hy).mono fun out v _ h => h.of_eq fun _ => ?_
  unfold BitVec.srem
  cases x.msb <;> cases y.msb <;> rfl

theorem encodeAbs_realizes (hn : 0 < n) (hx : Denotes w first x) :
    Realizes (encodeAbs pool first) w C fun out v => Denotes v out (bif x.msb then -x else x) := by
  refine (encodeNeg_realizes hn hx).bind fun a v hv ha => ?_
  exact encodeIte_realizes (hx.mono hv).msb ha (hx.mono hv)

theorem cond_not_bne (u v : BitVec n) :
    (bif !(u != 0#n) then u else v) = if u = 0#n then 0#n else v := by
  by_cases h : u = 0#n
  · simp [h]
  · rw [if_neg h, bne_iff_ne.mpr h]
    rfl

/-- The remainder with the sign of the divisor, from the remainder `u` of the absolute values. -/
theorem smod_eq {u : BitVec n} (hu : u = (bif x.msb then -x else x) % bif y.msb then -y else y) :
    (bif !(u != 0#n) then u
      else bif x.msb then (bif y.msb then -u else -u + y) else bif y.msb then u + y else u) =
      x.smod y := by
  rw [cond_not_bne]
  unfold BitVec.smod
  cases hx : x.msb <;> cases hy : y.msb <;> rw [hx, hy] at hu <;> subst hu
  · by_cases h : x % y = 0#n <;> simp [BitVec.umod_eq, h]
  · by_cases h : x % -y = 0#n <;> simp [h]
  · by_cases h : -x % y = 0#n <;> simp [h, BitVec.sub_eq_add_neg, BitVec.add_comm]
  · by_cases h : -x % -y = 0#n <;> simp [h]

theorem encodeModS2_realizes (hn : 0 < n) (hx : Denotes w first x) (hy : Denotes w second y) :
    Realizes (encodeModS2 pool first second) w C fun out v => Denotes v out (x.smod y) := by
  refine (encodeAbs_realizes hn hx).bind fun absFirst v₁ h₁ habsx => ?_
  refine (encodeAbs_realizes hn (hy.mono h₁)).bind fun absSecond v₂ h₂ habsy => ?_
  refine (encodeModU_realizes hn (habsx.mono h₂) habsy).bind fun u v₃ h₃ hu => ?_
  have hx₃ := hx.mono (h₁.trans (h₂.trans h₃))
  have hy₃ := hy.mono (h₁.trans (h₂.trans h₃))
  generalize hmod : (bif x.msb then -x else x) % (bif y.msb then -y else y) = z at hu
  refine (encodeNeg_realizes hn hu).bind fun modNN v₄ h₄ hNN => ?_
  refine (encodeNeg_realizes hn (hu.mono h₄)).bind fun negU v₅ h₅ hneg => ?_
  have hy₅ := hy₃.mono (h₄.trans h₅)
  refine (encodeAdd_realizes hn hneg hy₅).bind fun modNP v₆ h₆ hNP => ?_
  refine (encodeIte_realizes (hy₅.mono h₆).msb (hNN.mono (h₅.trans h₆)) hNP).bind
    fun modN v₇ h₇ hN => ?_
  have hy₇ := hy₅.mono (h₆.trans h₇)
  have hu₇ := hu.mono (h₄.trans (h₅.trans (h₆.trans h₇)))
  refine (encodeAdd_realizes hn hu₇ hy₇).bind fun modPN v₈ h₈ hPN => ?_
  refine (encodeIte_realizes (hy₇.mono h₈).msb hPN (hu₇.mono h₈)).bind fun modP v₉ h₉ hP => ?_
  have hle₉ := h₈.trans h₉
  have hx₉ := hx₃.mono (h₄.trans (h₅.trans (h₆.trans (h₇.trans hle₉))))
  refine (encodeIte_realizes hx₉.msb (hN.mono hle₉) hP).bind fun modNonzero v h hnonzero => ?_
  have hu₁₀ := (hu₇.mono hle₉).mono h
  refine (encodeIte_realizes (holds_boolNot (holds_boolOrAll hu₁₀)) hu₁₀ hnonzero).mono
    fun out v _ hout => hout.of_eq fun _ => smod_eq hmod.symm

end Divider

end Smtrat.BV
