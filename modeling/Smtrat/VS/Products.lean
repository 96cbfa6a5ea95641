import Smtrat.VS.SubstituteExact

/-!
# Splitting products

A constraint on a product is replaced by the sign combinations of its factors.  The multiplicities of
the factors are not consulted, and where the signs of all factors are known, neither is their parity.
-/

namespace Smtrat.VS

open SparsePoly List

universe u

variable {V : Type u} [DecidableEq V]

/-- What is used of factorizations and of the consistency check of constraints. -/
structure FactorLibrary (V : Type u) [DecidableEq V] extends PolynomialLibrary V where
  /-- The factors of the left-hand side with their multiplicities, for a constraint that has a
  factorization. -/
  factorization : Constraint V → Option (List (Poly V ℚ × ℕ))
  multiplicity_pos : ∀ c fs, factorization c = some fs → ∀ f ∈ fs, 0 < f.2
  eval_factorization : ∀ c fs, factorization c = some fs → ∀ α : V → ℝ,
    Poly.eval α c.lhs = (fs.map fun f => Poly.eval α f.1 ^ f.2).prod
  /-- `0` for an inconsistent constraint, `1` for a valid one; any other value says nothing. -/
  isConsistent : ConstraintT V → ℕ
  not_sat_of_isConsistent : ∀ c, isConsistent c = 0 → ∀ α : V → ℝ, ¬ c.Sat α
  sat_of_isConsistent : ∀ c, isConsistent c = 1 → ∀ α : V → ℝ, c.Sat α

/-! ## Sign combinations -/

def MAX_PRODUCT_SPLIT_NUMBER : ℕ := 64

mutual

/-- The bit strings of a length with an odd number of ones, the first bit in front. -/
def getOddBitStrings : ℕ → List (List Bool)
  | 0 => []
  | 1 => [[true]]
  | n + 2 => (getEvenBitStrings (n + 1)).map (true :: ·) ++ (getOddBitStrings (n + 1)).map (false :: ·)

/-- Those with an even number of ones. -/
def getEvenBitStrings : ℕ → List (List Bool)
  | 0 => []
  | 1 => [[false]]
  | n + 2 => (getEvenBitStrings (n + 1)).map (false :: ·) ++ (getOddBitStrings (n + 1)).map (true :: ·)

end

def relPos (weak : Bool) : Relation := if weak then .geq else .greater

def relNeg (weak : Bool) : Relation := if weak then .leq else .less

/-- The constraints on the factors, by what is known of their signs. -/
structure SortedFactors (V : Type u) where
  positives : List (ConstraintT V) := []
  alwayspositives : List (ConstraintT V) := []
  negatives : List (ConstraintT V) := []
  alwaysnegatives : List (ConstraintT V) := []
  numOfAlwaysNegatives : ℕ := 0

section Split

variable (lib : FactorLibrary V)

/-- The constraints on a factor that has a sign are added. -/
def addFactor (weak : Bool) (factor : Poly V ℚ × ℕ) (s : SortedFactors V) : SortedFactors V :=
  let consPos := lib.constraint factor.1 (relPos weak)
  let posConsistent := lib.isConsistent consPos
  let consNeg := lib.constraint factor.1 (relNeg weak)
  let negConsistent := lib.isConsistent consNeg
  if negConsistent = 0 then
    if posConsistent ≠ 1 then { s with alwayspositives := consPos :: s.alwayspositives } else s
  else if posConsistent = 0 then
    let s := { s with numOfAlwaysNegatives := s.numOfAlwaysNegatives + 1 }
    if negConsistent ≠ 1 then { s with alwaysnegatives := consNeg :: s.alwaysnegatives } else s
  else { s with positives := consPos :: s.positives, negatives := consNeg :: s.negatives }

/-- The loop over the factors of a product; it ends at a factor that has neither sign. -/
def sortFactors (weak : Bool) : List (Poly V ℚ × ℕ) → Except (ConstraintT V) (SortedFactors V)
  | [] => .ok {}
  | factor :: product =>
    let posConsistent := lib.isConsistent (lib.constraint factor.1 (relPos weak))
    let consNeg := lib.constraint factor.1 (relNeg weak)
    let negConsistent := lib.isConsistent consNeg
    if negConsistent = 0 ∧ posConsistent = 0 then .error consNeg
    else (sortFactors weak product).map (addFactor lib weak factor)

/-- The constraints on the open factors that a bit string selects. -/
def selectSigns (comb : List Bool) (positives negatives : List (ConstraintT V)) : List (ConstraintT V) :=
  List.zipWith (fun b c => if b then c.2 else c.1) comb (positives.zip negatives)

def isWeak (c : Constraint V) : Bool := c.relation = .geq ∨ c.relation = .leq

def isPositive (c : Constraint V) : Bool := c.relation = .geq ∨ c.relation = .greater

def getSignCombinations (c : Constraint V) : DisjunctionOfConstraintConjunctions V :=
  match lib.factorization c with
  | none => [[.proper c]]
  | some product =>
    if product.length ≤ MAX_PRODUCT_SPLIT_NUMBER then
      match sortFactors lib (isWeak c) product with
      | .error consNeg => [[consNeg]]
      | .ok s =>
        if s.positives.length > 0 then
          let combSelector :=
            if s.numOfAlwaysNegatives % 2 ≠ 0 then
              if isPositive c then getOddBitStrings s.positives.length
              else getEvenBitStrings s.positives.length
            else
              if isPositive c then getEvenBitStrings s.positives.length
              else getOddBitStrings s.positives.length
          combSelector.map fun comb =>
            s.alwaysnegatives ++ s.alwayspositives ++ selectSigns comb s.positives s.negatives
        else [s.alwaysnegatives ++ s.alwayspositives]
    else [[.proper c]]

/-- `splitProducts` for a constraint.  To simplify the constraint itself would not change it. -/
def splitProductsConstraint (onlyNeq : Bool) : ConstraintT V → DisjunctionOfConstraintConjunctions V
  | .constant b => [[.constant b]]
  | .proper c =>
    match lib.factorization c with
    | none => [[.proper c]]
    | some factorization =>
      match c.relation with
      | .eq =>
        if !onlyNeq then simplify false (factorization.map fun factor => [lib.constraint factor.1 .eq])
        else [[.proper c]]
      | .neq => simplify false [factorization.map fun factor => lib.constraint factor.1 .neq]
      | _ => if !onlyNeq then simplify false (getSignCombinations lib c) else [[.proper c]]

/-- `splitProducts` for a conjunction. -/
def splitProductsConjunction (onlyNeq : Bool) (conj : List (ConstraintT V)) :
    Bool × DisjunctionOfConstraintConjunctions V :=
  let toCombine := conj.map (splitProductsConstraint lib onlyNeq)
  let r := combine toCombine []
  (r.1, simplify false r.2)

/-- The loop over a disjunction, for the number of conjunctions that are still to be split.  The
conjunction at the position is split, but the first one is looked at and erased. -/
def splitProductsLoop (onlyNeq : Bool) : ℕ → ℕ → Bool → DisjunctionOfConstraintConjunctions V →
    Bool × DisjunctionOfConstraintConjunctions V
  | 0, _, result, toSimplify => (result, toSimplify)
  | _ + 1, _, result, [] => (result, [])
  | n + 1, pos, result, [] :: rest => splitProductsLoop onlyNeq n (pos + 1) result ([] :: rest)
  | n + 1, pos, result, (c :: conj) :: rest =>
    let r := splitProductsConjunction lib onlyNeq (((c :: conj) :: rest)[pos]?.getD [])
    splitProductsLoop onlyNeq n pos (result && r.1) (rest ++ r.2)

/-- `splitProducts` for a disjunction of conjunctions. -/
def splitProducts (onlyNeq : Bool) (toSimplify : DisjunctionOfConstraintConjunctions V) :
    Bool × DisjunctionOfConstraintConjunctions V :=
  splitProductsLoop lib onlyNeq toSimplify.length 0 true toSimplify

end Split

/-! ## Signs of products -/

/-- The relation of a side, which is the negative one if the flag is set. -/
def relSide (weak neg : Bool) : Relation := if neg then relNeg weak else relPos weak

/-- The value is on a side of zero, which contains zero if the flag is set. -/
def OnSide (weak neg : Bool) (v : ℝ) : Prop := (relSide weak neg).evaluate v 0

theorem onSide_mul (weak neg : Bool) (v w : ℝ) : OnSide weak neg (v * w) ↔
    OnSide weak false v ∧ OnSide weak neg w ∨ OnSide weak true v ∧ OnSide weak (!neg) w := by
  cases weak with
  | false =>
    cases neg with
    | false => exact mul_pos_iff
    | true => exact mul_neg_iff
  | true =>
    cases neg with
    | false => exact mul_nonneg_iff
    | true => exact mul_nonpos_iff

theorem onSide_of_ne_zero {v : ℝ} (hv : v ≠ 0) (weak neg : Bool) :
    OnSide weak neg v ↔ if neg then v < 0 else 0 < v := by
  cases weak with
  | false => cases neg <;> rfl
  | true =>
    cases neg with
    | false => exact ⟨fun h => lt_of_le_of_ne h hv.symm, le_of_lt⟩
    | true => exact ⟨fun h => lt_of_le_of_ne h hv, le_of_lt⟩

theorem onSide_zero (weak neg : Bool) : OnSide weak neg 0 ↔ weak = true := by
  cases weak <;> cases neg <;> simp [OnSide, relSide, relPos, relNeg, Relation.evaluate]

theorem onSide_one (weak neg : Bool) : OnSide weak neg 1 ↔ neg = false := by
  rw [onSide_of_ne_zero one_ne_zero]
  cases neg <;> norm_num

/-- Two values that are not zero are on the same side if and only if their product is positive. -/
theorem onSide_iff_onSide {v w : ℝ} (hv : v ≠ 0) (hw : w ≠ 0) (weak m n : Bool) :
    (OnSide weak m v ↔ OnSide weak n w) ↔ if m = n then 0 < v * w else v * w < 0 := by
  rw [onSide_of_ne_zero hv, onSide_of_ne_zero hw]
  rcases hv.lt_or_gt with hv | hv <;> rcases hw.lt_or_gt with hw | hw <;> cases m <;> cases n <;>
    simp [hv, hw, hv.not_gt, hw.not_gt, mul_pos_iff, mul_neg_iff]

/-! ## Bit strings -/

/-- The bit strings of a parity. -/
def bitStrings (odd : Bool) (n : ℕ) : List (List Bool) :=
  if odd then getOddBitStrings n else getEvenBitStrings n

theorem bitStrings_one (odd : Bool) : bitStrings odd 1 = [[odd]] := by
  cases odd <;> rfl

theorem mem_bitStrings_succ {odd : Bool} {n : ℕ} {comb : List Bool} :
    comb ∈ bitStrings odd (n + 2) ↔
      ∃ b, ∃ comb' ∈ bitStrings (b ^^ odd) (n + 1), comb = b :: comb' := by
  rw [Bool.exists_bool, Bool.false_xor, Bool.true_xor]
  cases odd with
  | false =>
    have hstep : bitStrings false (n + 2) =
        (bitStrings false (n + 1)).map (false :: ·) ++ (bitStrings true (n + 1)).map (true :: ·) := rfl
    simp only [hstep, mem_append, mem_map, eq_comm, Bool.not_false]
  | true =>
    have hstep : bitStrings true (n + 2) =
        (bitStrings false (n + 1)).map (true :: ·) ++ (bitStrings true (n + 1)).map (false :: ·) := rfl
    rw [or_comm]
    simp only [hstep, mem_append, mem_map, eq_comm, Bool.not_true]

section Spec

variable (lib : FactorLibrary V) {α : V → ℝ}

/-- The constraints that a bit string selects for the factors are true. -/
def Selects (α : V → ℝ) (weak : Bool) (comb : List Bool) (fs : List (Poly V ℚ × ℕ)) : Prop :=
  ∀ c ∈ selectSigns comb (fs.map fun f => lib.constraint f.1 (relPos weak))
    (fs.map fun f => lib.constraint f.1 (relNeg weak)), c.Sat α

theorem selects_cons (weak b : Bool) (comb : List Bool) (f : Poly V ℚ × ℕ) (fs : List (Poly V ℚ × ℕ)) :
    Selects lib α weak (b :: comb) (f :: fs) ↔
      OnSide weak b (Poly.eval α f.1) ∧ Selects lib α weak comb fs := by
  rw [Selects, selectSigns, map_cons, map_cons, zip_cons_cons, zipWith_cons_cons, forall_mem_cons]
  refine and_congr ?_ Iff.rfl
  cases b <;> exact lib.sat_constraint _ _ _

/-- The product of the factors without their multiplicities. -/
noncomputable def radical (α : V → ℝ) (fs : List (Poly V ℚ × ℕ)) : ℝ := (fs.map fun f => Poly.eval α f.1).prod

omit [DecidableEq V] in
theorem radical_cons (f : Poly V ℚ × ℕ) (fs : List (Poly V ℚ × ℕ)) :
    radical α (f :: fs) = Poly.eval α f.1 * radical α fs := by
  rw [radical, map_cons, prod_cons, radical]

/-- Some bit string of the parity selects true constraints on the factors if and only if their product
is on the side. -/
theorem exists_selects_iff (weak odd : Bool) {fs : List (Poly V ℚ × ℕ)} (hfs : fs ≠ []) :
    (∃ comb ∈ bitStrings odd fs.length, Selects lib α weak comb fs) ↔ OnSide weak odd (radical α fs) := by
  induction fs generalizing odd with
  | nil => exact absurd rfl hfs
  | cons f fs ih =>
    cases fs with
    | nil =>
      have hnil : Selects lib α weak [] [] := forall_mem_nil _
      rw [length_singleton, bitStrings_one, radical_cons]
      simp [selects_cons, hnil, radical]
    | cons g fs =>
      have hbit : ∀ b, (∃ comb ∈ bitStrings (b ^^ odd) (fs.length + 1),
          Selects lib α weak (b :: comb) (f :: g :: fs)) ↔
          OnSide weak b (Poly.eval α f.1) ∧ OnSide weak (b ^^ odd) (radical α (g :: fs)) := by
        intro b
        have hrest := ih (b ^^ odd) (cons_ne_nil g fs)
        rw [length_cons] at hrest
        simp only [selects_cons lib weak b, ← hrest]
        exact ⟨fun ⟨comb, hcomb, hf, hall⟩ => ⟨hf, comb, hcomb, hall⟩,
          fun ⟨hf, comb, hcomb, hall⟩ => ⟨comb, hcomb, hf, hall⟩⟩
      have hfalse := hbit false
      have htrue := hbit true
      rw [Bool.false_xor] at hfalse
      rw [Bool.true_xor] at htrue
      rw [radical_cons, onSide_mul, ← hfalse, ← htrue, length_cons, length_cons]
      simp only [mem_bitStrings_succ]
      constructor
      · rintro ⟨_, ⟨b, comb, hcomb, rfl⟩, hall⟩
        cases b with
        | false => exact .inl ⟨comb, by simpa using hcomb, hall⟩
        | true => exact .inr ⟨comb, by simpa using hcomb, hall⟩
      · rintro (⟨comb, hcomb, hall⟩ | ⟨comb, hcomb, hall⟩)
        · exact ⟨_, ⟨false, comb, by simpa using hcomb, rfl⟩, hall⟩
        · exact ⟨_, ⟨true, comb, by simpa using hcomb, rfl⟩, hall⟩

/-! ## Sorted factors -/

/-- Neither sign of the factor is excluded. -/
def isOpen (weak : Bool) (factor : Poly V ℚ × ℕ) : Bool :=
  lib.isConsistent (lib.constraint factor.1 (relPos weak)) ≠ 0 ∧
    lib.isConsistent (lib.constraint factor.1 (relNeg weak)) ≠ 0

/-- The positive sign of the factor is excluded. -/
def excludesPos (weak : Bool) (factor : Poly V ℚ × ℕ) : Bool :=
  lib.isConsistent (lib.constraint factor.1 (relPos weak)) = 0

/-- The number of factors that exclude the positive sign is odd. -/
def oddNegatives (weak : Bool) (product : List (Poly V ℚ × ℕ)) : Bool :=
  product.countP (excludesPos lib weak) % 2 ≠ 0

/-- The constraints on the factors with a known sign hold. -/
def SortedFactors.Always (α : V → ℝ) (s : SortedFactors V) : Prop :=
  ∀ c ∈ s.alwaysnegatives ++ s.alwayspositives, c.Sat α

/-- What the loop knows of the signs of the factors. -/
structure SortedSpec (α : V → ℝ) (weak : Bool) (product : List (Poly V ℚ × ℕ)) (s : SortedFactors V) :
    Prop where
  positives : s.positives =
    (product.filter (isOpen lib weak)).map fun f => lib.constraint f.1 (relPos weak)
  negatives : s.negatives =
    (product.filter (isOpen lib weak)).map fun f => lib.constraint f.1 (relNeg weak)
  numOfAlwaysNegatives : s.numOfAlwaysNegatives = product.countP (excludesPos lib weak)
  onSide : ∀ neg, OnSide weak neg (radical α product) ↔ s.Always α ∧
    OnSide weak (oddNegatives lib weak product ^^ neg) (radical α (product.filter (isOpen lib weak)))

theorem oddNegatives_cons (weak : Bool) (f : Poly V ℚ × ℕ) (product : List (Poly V ℚ × ℕ)) :
    oddNegatives lib weak (f :: product) = (excludesPos lib weak f ^^ oddNegatives lib weak product) := by
  rw [oddNegatives, oddNegatives, countP_cons]
  cases excludesPos lib weak f with
  | false => simp
  | true =>
    rcases Nat.mod_two_eq_zero_or_one (product.countP (excludesPos lib weak)) with h | h <;>
      simp [Nat.add_mod, h]

omit [DecidableEq V] in
theorem always_cons_positive (c : ConstraintT V) (s : SortedFactors V) :
    SortedFactors.Always α { s with alwayspositives := c :: s.alwayspositives } ↔ c.Sat α ∧ s.Always α := by
  simp only [SortedFactors.Always, forall_mem_append, forall_mem_cons]
  tauto

omit [DecidableEq V] in
theorem always_cons_negative (c : ConstraintT V) (s : SortedFactors V) :
    SortedFactors.Always α { s with alwaysnegatives := c :: s.alwaysnegatives } ↔ c.Sat α ∧ s.Always α := by
  simp only [SortedFactors.Always, forall_mem_append, forall_mem_cons, and_assoc]

variable {lib} {weak : Bool} {f : Poly V ℚ × ℕ} {product : List (Poly V ℚ × ℕ)} {s : SortedFactors V}

/-- A factor with one side excluded leaves the open factors as they are. -/
theorem SortedSpec.addExcluded (side : Bool) {t : SortedFactors V} (h : SortedSpec lib α weak product s)
    (hside : lib.isConsistent (lib.constraint f.1 (relSide weak !side)) = 0)
    (hother : lib.isConsistent (lib.constraint f.1 (relSide weak side)) ≠ 0)
    (hpositives : t.positives = s.positives) (hnegatives : t.negatives = s.negatives)
    (hnum : t.numOfAlwaysNegatives = s.numOfAlwaysNegatives + side.toNat)
    (halways : t.Always α ↔ (lib.constraint f.1 (relSide weak side)).Sat α ∧ s.Always α) :
    SortedSpec lib α weak (f :: product) t := by
  have hnot : ¬ OnSide weak (!side) (Poly.eval α f.1) :=
    (lib.sat_constraint _ _ _).not.mp (lib.not_sat_of_isConsistent _ hside α)
  have hsat : (lib.constraint f.1 (relSide weak side)).Sat α ↔ OnSide weak side (Poly.eval α f.1) :=
    lib.sat_constraint _ _ _
  have hopen : isOpen lib weak f = false := by
    cases side <;> simp_all [isOpen, relSide]
  have hexcludes : excludesPos lib weak f = side := by
    cases side <;> simp_all [excludesPos, relSide]
  constructor
  case positives => rw [hpositives, filter_cons_of_neg (by simp [hopen]), h.positives]
  case negatives => rw [hnegatives, filter_cons_of_neg (by simp [hopen]), h.negatives]
  case numOfAlwaysNegatives =>
    rw [hnum, countP_cons, hexcludes, h.numOfAlwaysNegatives]
    cases side <;> rfl
  case onSide =>
    intro neg
    rw [radical_cons, onSide_mul, h.onSide, h.onSide, halways, hsat, oddNegatives_cons, hexcludes,
      filter_cons_of_neg (by simp [hopen])]
    cases side <;> simp only [Bool.false_xor, Bool.true_xor, Bool.xor_not, Bool.not_xor] <;> tauto

/-- A factor whose negative sign is excluded. -/
theorem SortedSpec.addPositive (h : SortedSpec lib α weak product s)
    (hneg : lib.isConsistent (lib.constraint f.1 (relNeg weak)) = 0)
    (hpos : lib.isConsistent (lib.constraint f.1 (relPos weak)) ≠ 0) :
    SortedSpec lib α weak (f :: product) (addFactor lib weak f s) := by
  rw [addFactor, if_pos hneg]
  have hexcl := fun t => h.addExcluded false (t := t) hneg hpos
  split_ifs with hvalid
  · exact hexcl _ rfl rfl rfl (always_cons_positive _ _)
  · exact hexcl _ rfl rfl rfl (and_iff_right (lib.sat_of_isConsistent _ (not_not.mp hvalid) α)).symm

/-- A factor whose positive sign is excluded. -/
theorem SortedSpec.addNegative (h : SortedSpec lib α weak product s)
    (hneg : lib.isConsistent (lib.constraint f.1 (relNeg weak)) ≠ 0)
    (hpos : lib.isConsistent (lib.constraint f.1 (relPos weak)) = 0) :
    SortedSpec lib α weak (f :: product) (addFactor lib weak f s) := by
  rw [addFactor, if_neg hneg, if_pos hpos]
  have hexcl := fun t => h.addExcluded true (t := t) hpos hneg
  split_ifs with hvalid
  · exact hexcl _ rfl rfl rfl (always_cons_negative _ _)
  · exact hexcl _ rfl rfl rfl (and_iff_right (lib.sat_of_isConsistent _ (not_not.mp hvalid) α)).symm

/-- A factor that can have both signs. -/
theorem SortedSpec.addOpen (h : SortedSpec lib α weak product s)
    (hneg : lib.isConsistent (lib.constraint f.1 (relNeg weak)) ≠ 0)
    (hpos : lib.isConsistent (lib.constraint f.1 (relPos weak)) ≠ 0) :
    SortedSpec lib α weak (f :: product) (addFactor lib weak f s) := by
  have hopen : isOpen lib weak f = true := by simp [isOpen, hneg, hpos]
  have hexcludes : excludesPos lib weak f = false := by simp [excludesPos, hpos]
  have hadd : addFactor lib weak f s = { s with
      positives := lib.constraint f.1 (relPos weak) :: s.positives
      negatives := lib.constraint f.1 (relNeg weak) :: s.negatives } := by
    rw [addFactor, if_neg hneg, if_neg hpos]
  rw [hadd]
  constructor
  case positives => rw [filter_cons_of_pos hopen, map_cons, h.positives]
  case negatives => rw [filter_cons_of_pos hopen, map_cons, h.negatives]
  case numOfAlwaysNegatives =>
    rw [countP_cons_of_neg (by simp [hexcludes])]
    exact h.numOfAlwaysNegatives
  case onSide =>
    intro neg
    rw [radical_cons, onSide_mul, h.onSide, h.onSide, oddNegatives_cons, hexcludes, Bool.false_xor,
      filter_cons_of_pos hopen, radical_cons, onSide_mul, Bool.xor_not]
    simp only [SortedFactors.Always]
    tauto

theorem sortFactors_spec (h : sortFactors lib weak product = .ok s) : SortedSpec lib α weak product s := by
  induction product generalizing s with
  | nil =>
    cases h
    constructor
    case positives => rfl
    case negatives => rfl
    case numOfAlwaysNegatives => rfl
    case onSide =>
      intro neg
      have hodd : oddNegatives lib weak [] = false := rfl
      simp [SortedFactors.Always, hodd]
  | cons f product ih =>
    rw [sortFactors] at h
    split_ifs at h with hneither
    cases hrest : sortFactors lib weak product with
    | error c => simp [hrest, Except.map] at h
    | ok s' =>
      simp only [hrest, Except.map, Except.ok.injEq] at h
      rw [← h]
      by_cases hneg : lib.isConsistent (lib.constraint f.1 (relNeg weak)) = 0
      · exact (ih hrest).addPositive hneg fun hpos => hneither ⟨hneg, hpos⟩
      · by_cases hpos : lib.isConsistent (lib.constraint f.1 (relPos weak)) = 0
        · exact (ih hrest).addNegative hneg hpos
        · exact (ih hrest).addOpen hneg hpos

theorem sortFactors_error {c : ConstraintT V} (h : sortFactors lib weak product = .error c) :
    ∃ f ∈ product, c = lib.constraint f.1 (relNeg weak) ∧ lib.isConsistent c = 0 ∧
      lib.isConsistent (lib.constraint f.1 (relPos weak)) = 0 := by
  induction product with
  | nil => cases h
  | cons f product ih =>
    rw [sortFactors] at h
    split_ifs at h with hneither
    · cases h
      exact ⟨f, mem_cons_self, rfl, hneither⟩
    · cases hrest : sortFactors lib weak product with
      | error c' =>
        simp only [hrest, Except.map, Except.error.injEq] at h
        obtain ⟨g, hg, hc⟩ := ih (h ▸ hrest)
        exact ⟨g, mem_cons_of_mem f hg, hc⟩
      | ok s' => simp [hrest, Except.map] at h

/-! ## Readings of products -/

/-- No factor is open, and the parity of those that exclude the positive sign does not meet the relation. -/
def ignoresParity (lib : FactorLibrary V) (c : Constraint V) (fs : List (Poly V ℚ × ℕ)) : Bool :=
  (fs.filter (isOpen lib (isWeak c))).isEmpty ∧ oddNegatives lib (isWeak c) fs ≠ !isPositive c

/-- The product of the factors of even multiplicity, each taken once. -/
noncomputable def evenPart (α : V → ℝ) (fs : List (Poly V ℚ × ℕ)) : ℝ :=
  radical α (fs.filter fun f => f.2 % 2 = 0)

variable {c : Constraint V} {fs : List (Poly V ℚ × ℕ)}

/-- For an inequality the sign combinations ask for the side of the product without multiplicities. -/
theorem holds_getSignCombinations (hfacs : lib.factorization c = some fs)
    (hlen : fs.length ≤ MAX_PRODUCT_SPLIT_NUMBER) :
    Holds α (getSignCombinations lib c) ↔
      OnSide (isWeak c) (ignoresParity lib c fs ^^ !isPositive c) (radical α fs) := by
  rw [getSignCombinations, hfacs]
  simp only [if_pos hlen]
  cases hsort : sortFactors lib (isWeak c) fs with
  | error k =>
    obtain ⟨f, hf, rfl, hneg, hpos⟩ := sortFactors_error hsort
    have hnotneg : ¬ OnSide (isWeak c) true (Poly.eval α f.1) :=
      (lib.sat_constraint _ _ _).not.mp (lib.not_sat_of_isConsistent _ hneg α)
    have hnotpos : ¬ OnSide (isWeak c) false (Poly.eval α f.1) :=
      (lib.sat_constraint _ _ _).not.mp (lib.not_sat_of_isConsistent _ hpos α)
    have hzero : Poly.eval α f.1 = 0 := by
      by_contra hne
      rw [onSide_of_ne_zero hne] at hnotneg hnotpos
      simp only [if_true, Bool.false_eq_true, if_false, not_lt] at hnotneg hnotpos
      exact hne (le_antisymm hnotpos hnotneg)
    have hradical : radical α fs = 0 := prod_eq_zero (mem_map.mpr ⟨f, hf, hzero⟩)
    rw [hzero, onSide_zero] at hnotneg
    rw [hradical, onSide_zero, holds_cons, forall_mem_singleton, or_iff_left not_holds_nil]
    exact iff_of_false (lib.not_sat_of_isConsistent _ hneg α) hnotneg
  | ok s =>
    have hspec : SortedSpec lib α (isWeak c) fs s := sortFactors_spec hsort
    have hlengths : s.positives.length = (fs.filter (isOpen lib (isWeak c))).length := by
      rw [hspec.positives, length_map]
    simp only
    by_cases hopen : fs.filter (isOpen lib (isWeak c)) = []
    · have hnone : ¬ s.positives.length > 0 := by rw [hlengths, hopen]; simp
      have hparity : (ignoresParity lib c fs ^^ !isPositive c) = oddNegatives lib (isWeak c) fs := by
        rw [ignoresParity, hopen]
        cases oddNegatives lib (isWeak c) fs <;> cases isPositive c <;> rfl
      rw [if_neg hnone, holds_cons, or_iff_left not_holds_nil, hparity, hspec.onSide, hopen, Bool.xor_self]
      exact (and_iff_left ((onSide_one _ _).mpr rfl)).symm
    · have hsome : s.positives.length > 0 := by rw [hlengths]; exact length_pos_iff.mpr hopen
      have hparity : ignoresParity lib c fs = false := by simp [ignoresParity, hopen]
      have hselector : (if s.numOfAlwaysNegatives % 2 ≠ 0 then
            if isPositive c then getOddBitStrings s.positives.length
            else getEvenBitStrings s.positives.length
          else
            if isPositive c then getEvenBitStrings s.positives.length
            else getOddBitStrings s.positives.length) =
          bitStrings (oddNegatives lib (isWeak c) fs ^^ !isPositive c) s.positives.length := by
        rw [hspec.numOfAlwaysNegatives, oddNegatives, bitStrings]
        by_cases hodd : fs.countP (excludesPos lib (isWeak c)) % 2 ≠ 0 <;> cases isPositive c <;> simp [hodd]
      rw [if_pos hsome, hselector, hparity, Bool.false_xor, hspec.onSide,
        ← exists_selects_iff lib _ _ hopen, ← hlengths]
      constructor
      · rintro ⟨_, hconj, hall⟩
        obtain ⟨comb, hcomb, rfl⟩ := mem_map.mp hconj
        obtain ⟨halways, hselects⟩ := forall_mem_append.mp hall
        rw [hspec.positives, hspec.negatives] at hselects
        exact ⟨halways, comb, hcomb, hselects⟩
      · rintro ⟨halways, comb, hcomb, hselects⟩
        rw [Selects, ← hspec.positives, ← hspec.negatives] at hselects
        exact ⟨_, mem_map_of_mem hcomb, forall_mem_append.mpr ⟨halways, hselects⟩⟩

/-- Away from its zeros the product has the sign of the product without multiplicities, up to the sign of
the factors of even multiplicity. -/
theorem eval_mul_radical_mul_evenPart_pos (hfacs : lib.factorization c = some fs)
    (hne : Poly.eval α c.lhs ≠ 0) : 0 < Poly.eval α c.lhs * radical α fs * evenPart α fs := by
  rw [lib.eval_factorization c fs hfacs] at hne ⊢
  have hpos := lib.multiplicity_pos c fs hfacs
  clear hfacs
  induction fs with
  | nil => simp [evenPart, radical]
  | cons f fs ih =>
    obtain ⟨hf, hfs⟩ := forall_mem_cons.mp hpos
    rw [map_cons, prod_cons] at hne ⊢
    have hbase : Poly.eval α f.1 ≠ 0 := fun hzero => hne (by rw [hzero, zero_pow hf.ne', zero_mul])
    have hrest := ih (right_ne_zero_of_mul hne) hfs
    rw [radical_cons]
    rcases Nat.mod_two_eq_zero_or_one f.2 with heven | hodd
    · have hpart : evenPart α (f :: fs) = Poly.eval α f.1 * evenPart α fs := by
        rw [evenPart, filter_cons_of_pos (by simpa using heven), radical_cons, evenPart]
      have hpower : 0 < Poly.eval α f.1 ^ f.2 * (Poly.eval α f.1 * Poly.eval α f.1) :=
        mul_pos ((Nat.even_iff.mpr heven).pow_pos hbase) (mul_self_pos.mpr hbase)
      rw [hpart]
      calc 0 < _ := mul_pos hpower hrest
        _ = _ := by ring
    · have hpart : evenPart α (f :: fs) = evenPart α fs := by
        rw [evenPart, filter_cons_of_neg (by simp [hodd]), evenPart]
      have hpower : 0 < Poly.eval α f.1 ^ (f.2 + 1) :=
        (Nat.even_iff.mpr (by omega : (f.2 + 1) % 2 = 0)).pow_pos hbase
      rw [hpart]
      calc 0 < _ := mul_pos hpower hrest
        _ = _ := by ring

theorem radical_eq_zero_iff (hfacs : lib.factorization c = some fs) :
    radical α fs = 0 ↔ Poly.eval α c.lhs = 0 := by
  rw [lib.eval_factorization c fs hfacs, radical, prod_eq_zero_iff, prod_eq_zero_iff,
    mem_map, mem_map]
  refine exists_congr fun f => and_congr_right fun hf => ?_
  rw [pow_eq_zero_iff (lib.multiplicity_pos c fs hfacs f hf).ne']

omit [DecidableEq V] in
theorem sat_iff_onSide (heq : c.relation ≠ .eq) (hneq : c.relation ≠ .neq) :
    c.Sat α ↔ OnSide (isWeak c) (!isPositive c) (Poly.eval α c.lhs) := by
  obtain ⟨lhs, relation⟩ := c
  cases relation with
  | eq => exact absurd rfl heq
  | neq => exact absurd rfl hneq
  | less => rfl
  | leq => rfl
  | greater => rfl
  | geq => rfl

/-- The product is not zero and the combinations of its signs are read wrongly. -/
def MisreadProduct (lib : FactorLibrary V) (α : V → ℝ) (c : Constraint V) : Prop :=
  ∃ fs, lib.factorization c = some fs ∧ fs.length ≤ MAX_PRODUCT_SPLIT_NUMBER ∧
    Poly.eval α c.lhs ≠ 0 ∧
    ¬ if ignoresParity lib c fs then evenPart α fs < 0 else 0 < evenPart α fs

theorem getSignCombinations_iff (heq : c.relation ≠ .eq) (hneq : c.relation ≠ .neq) :
    (Holds α (getSignCombinations lib c) ↔ c.Sat α) ↔ ¬ MisreadProduct lib α c := by
  have hself : (Holds α [[ConstraintT.proper c]] ↔ c.Sat α) := by simp [ConstraintT.Sat]
  cases hfacs : lib.factorization c with
  | none =>
    have hnot : ¬ MisreadProduct lib α c := by
      rintro ⟨fs, hfs, -⟩
      cases hfacs.symm.trans hfs
    rw [getSignCombinations, hfacs]
    exact iff_of_true hself hnot
  | some fs =>
    have hmisread : MisreadProduct lib α c ↔ fs.length ≤ MAX_PRODUCT_SPLIT_NUMBER ∧
        Poly.eval α c.lhs ≠ 0 ∧
        ¬ if ignoresParity lib c fs then evenPart α fs < 0 else 0 < evenPart α fs := by
      simp [MisreadProduct, hfacs]
    rw [hmisread]
    by_cases hlen : fs.length ≤ MAX_PRODUCT_SPLIT_NUMBER
    · rw [holds_getSignCombinations hfacs hlen, sat_iff_onSide heq hneq]
      by_cases hzero : Poly.eval α c.lhs = 0
      · rw [(radical_eq_zero_iff hfacs).mpr hzero, hzero, onSide_zero, onSide_zero]
        simp
      · have hradical : radical α fs ≠ 0 := (radical_eq_zero_iff hfacs).not.mpr hzero
        have hprod := eval_mul_radical_mul_evenPart_pos hfacs hzero
        rw [mul_comm (Poly.eval α c.lhs)] at hprod
        rw [onSide_iff_onSide hradical hzero]
        cases ignoresParity lib c fs with
        | false => simp [hlen, hzero, pos_iff_pos_of_mul_pos hprod]
        | true => simp [hlen, hzero, neg_iff_neg_of_mul_pos hprod]
    · rw [getSignCombinations, hfacs]
      simp only [if_neg hlen]
      exact iff_of_true hself fun h => hlen h.1

/-- The constraint is an inequality that is split and read wrongly. -/
def Misread (lib : FactorLibrary V) (onlyNeq : Bool) (α : V → ℝ) (c : ConstraintT V) : Prop :=
  ∃ k, c = .proper k ∧ onlyNeq = false ∧ k.relation ≠ .eq ∧ k.relation ≠ .neq ∧ MisreadProduct lib α k

theorem splitProductsConstraint_iff (lib : FactorLibrary V) (onlyNeq : Bool) (α : V → ℝ)
    (c : ConstraintT V) :
    (Holds α (splitProductsConstraint lib onlyNeq c) ↔ c.Sat α) ↔ ¬ Misread lib onlyNeq α c := by
  cases c with
  | constant b =>
    have hnot : ¬ Misread lib onlyNeq α (.constant b) := by
      rintro ⟨k, hk, -⟩
      cases hk
    exact iff_of_true (by simp [splitProductsConstraint]) hnot
  | proper k =>
    have hself : Holds α [[ConstraintT.proper k]] ↔ (ConstraintT.proper k).Sat α := by simp
    have hmisread : Misread lib onlyNeq α (.proper k) ↔
        onlyNeq = false ∧ k.relation ≠ .eq ∧ k.relation ≠ .neq ∧ MisreadProduct lib α k := by
      simp [Misread]
    rw [hmisread, splitProductsConstraint]
    cases hfacs : lib.factorization k with
    | none =>
      have hnot : ¬ MisreadProduct lib α k := by
        rintro ⟨fs, hfs, -⟩
        cases hfacs.symm.trans hfs
      exact iff_of_true hself fun h => hnot h.2.2.2
    | some fs =>
      have hzero := radical_eq_zero_iff (α := α) hfacs
      rw [radical, prod_eq_zero_iff, mem_map] at hzero
      simp only
      split
      case h_1 heq =>
        refine iff_of_true ?_ fun h => h.2.1 heq
        have hsat : (ConstraintT.proper k).Sat α ↔ Poly.eval α k.lhs = 0 := by
          rw [ConstraintT.Sat, Constraint.Sat, heq]
          rfl
        rw [hsat, ← hzero]
        cases onlyNeq with
        | true => rw [if_neg (by simp), hself, hsat, hzero]
        | false =>
          rw [if_pos (by simp), holds_simplify]
          simp [Holds, lib.sat_constraint, Relation.evaluate]
      case h_2 hneq =>
        refine iff_of_true ?_ fun h => h.2.2.1 hneq
        have hsat : (ConstraintT.proper k).Sat α ↔ Poly.eval α k.lhs ≠ 0 := by
          rw [ConstraintT.Sat, Constraint.Sat, hneq]
          rfl
        rw [hsat, Ne, ← hzero, holds_simplify, holds_cons, or_iff_left not_holds_nil,
          forall_mem_map]
        simp only [lib.sat_constraint, not_exists, not_and]
        rfl
      case h_3 heq hneq =>
        cases onlyNeq with
        | true => exact iff_of_true hself fun h => by cases h.1
        | false =>
          have hiff : (Holds α (getSignCombinations lib k) ↔ k.Sat α) ↔ ¬ MisreadProduct lib α k :=
            getSignCombinations_iff heq hneq
          rw [and_iff_right rfl, and_iff_right heq, and_iff_right hneq]
          simpa [ConstraintT.Sat] using hiff

/-! ## Disjunctions of conjunctions -/

/-- One of the conjunctions is true if the misread constraints change their truth values. -/
def HoldsAsRead (lib : FactorLibrary V) (onlyNeq : Bool) (α : V → ℝ)
    (d : DisjunctionOfConstraintConjunctions V) : Prop :=
  ∃ conj ∈ d, ∀ c ∈ conj, Misread lib onlyNeq α c ↔ ¬ c.Sat α

theorem holdsAsRead_cons (onlyNeq : Bool) (conj : List (ConstraintT V))
    (d : DisjunctionOfConstraintConjunctions V) : HoldsAsRead lib onlyNeq α (conj :: d) ↔
      (∀ c ∈ conj, Misread lib onlyNeq α c ↔ ¬ c.Sat α) ∨ HoldsAsRead lib onlyNeq α d := by
  simp [HoldsAsRead]

/-- A conjunction that is not empty is replaced by what its constraints are read as. -/
theorem holds_splitProductsConjunction {onlyNeq : Bool} {conj : List (ConstraintT V)} (hne : conj ≠ [])
    (h : (splitProductsConjunction lib onlyNeq conj).1 = true) :
    Holds α (splitProductsConjunction lib onlyNeq conj).2 ↔
      ∀ c ∈ conj, Misread lib onlyNeq α c ↔ ¬ c.Sat α := by
  rw [splitProductsConjunction] at h ⊢
  rw [holds_simplify, holds_combine (by simpa using hne) h, or_iff_right not_holds_nil, forall_mem_map]
  refine forall₂_congr fun c _ => ?_
  have hsplit := splitProductsConstraint_iff lib onlyNeq α c
  tauto

/-- An empty conjunction in front stops the loop. -/
theorem splitProductsLoop_empty (onlyNeq result : Bool) (n pos : ℕ)
    (rest : DisjunctionOfConstraintConjunctions V) :
    (splitProductsLoop lib onlyNeq n pos result ([] :: rest)).2 = [] :: rest := by
  induction n generalizing pos with
  | zero => rfl
  | succ n ih => rw [splitProductsLoop, ih]

theorem splitProductsLoop_false (onlyNeq : Bool) (n pos : ℕ) (d : DisjunctionOfConstraintConjunctions V) :
    (splitProductsLoop lib onlyNeq n pos false d).1 = false := by
  induction n generalizing pos d with
  | zero => rfl
  | succ n ih =>
    match d with
    | [] => rfl
    | [] :: rest => rw [splitProductsLoop, ih]
    | (c :: conj) :: rest =>
      rw [splitProductsLoop]
      exact ih _ _

/-- The conjunctions of the first part are read, unless there is an empty one. -/
theorem holds_splitProductsLoop {onlyNeq result : Bool} {n : ℕ}
    {l₁ l₂ : DisjunctionOfConstraintConjunctions V} (hn : n = l₁.length)
    (h : (splitProductsLoop lib onlyNeq n 0 result (l₁ ++ l₂)).1 = true) :
    Holds α (splitProductsLoop lib onlyNeq n 0 result (l₁ ++ l₂)).2 ↔
      HoldsAsRead lib onlyNeq α l₁ ∨ Holds α l₂ := by
  induction n generalizing l₁ l₂ result with
  | zero =>
    obtain rfl := length_eq_zero_iff.mp hn.symm
    rw [nil_append, splitProductsLoop]
    simp [HoldsAsRead]
  | succ n ih =>
    cases l₁ with
    | nil => exact absurd hn (Nat.succ_ne_zero n)
    | cons conj l₁ =>
      have hlen : n = l₁.length := Nat.succ.inj hn
      rw [cons_append] at h ⊢
      cases conj with
      | nil =>
        rw [splitProductsLoop_empty, holds_cons, holdsAsRead_cons]
        exact iff_of_true (.inl (forall_mem_nil _)) (.inl (.inl (forall_mem_nil _)))
      | cons c conj =>
        rw [splitProductsLoop] at h ⊢
        simp only [getElem?_cons_zero, Option.getD_some] at h ⊢
        cases hconj : (splitProductsConjunction lib onlyNeq (c :: conj)).1 with
        | false =>
          rw [hconj, Bool.and_false, splitProductsLoop_false] at h
          cases h
        | true =>
          have hread := holds_splitProductsConjunction (α := α) (cons_ne_nil c conj) hconj
          rw [hconj, Bool.and_true, append_assoc] at h
          rw [Bool.and_true, append_assoc, ih hlen h, holdsAsRead_cons, holds_append, hread]
          tauto

/-- The disjunction for a constraint is equivalent to it if and only if it is nowhere misread.  Where the
split of a disjunction succeeds, its solutions are the same if and only if the misread constraints do not
change them. -/
theorem splitProducts_preserves_iff (lib : FactorLibrary V) (onlyNeq : Bool) :
    (∀ c, (∀ α, Holds α (splitProductsConstraint lib onlyNeq c) ↔ c.Sat α) ↔
      ∀ α, ¬ Misread lib onlyNeq α c) ∧
    (∀ c : Constraint V, c.relation ≠ .eq → c.relation ≠ .neq →
      ((∀ α, Holds α (getSignCombinations lib c) ↔ c.Sat α) ↔ ∀ α, ¬ MisreadProduct lib α c)) ∧
    ∀ d, (splitProducts lib onlyNeq d).1 = true →
      ((∀ α, Holds α (splitProducts lib onlyNeq d).2 ↔ Holds α d) ↔
        ∀ α, (∃ conj ∈ d, ∃ c ∈ conj, Misread lib onlyNeq α c) →
          (HoldsAsRead lib onlyNeq α d ↔ Holds α d)) := by
  refine ⟨fun c => forall_congr' fun α => splitProductsConstraint_iff lib onlyNeq α c,
    fun c heq hneq => forall_congr' fun α => getSignCombinations_iff heq hneq, fun d hd => ?_⟩
  refine forall_congr' fun α => ?_
  have hloop : (splitProductsLoop lib onlyNeq d.length 0 true (d ++ [])).1 = true := by
    rwa [append_nil]
  have hread := holds_splitProductsLoop (α := α) rfl hloop
  rw [append_nil, or_iff_left not_holds_nil] at hread
  rw [splitProducts, hread]
  refine ⟨fun h _ => h, fun h => ?_⟩
  by_cases hmis : ∃ conj ∈ d, ∃ c ∈ conj, Misread lib onlyNeq α c
  · exact h hmis
  · push Not at hmis
    refine exists_congr fun conj => and_congr_right fun hconj => forall₂_congr fun c hc => ?_
    rw [iff_false_left (hmis conj hconj c hc), not_not]

end Spec

section Example

/-- `x0 x1` -/
def mixedProduct : Poly Nat ℚ := [⟨1, [(0, 1), (1, 1)]⟩]

/-- `x0^2 x1` -/
def squareProduct : Poly Nat ℚ := [⟨1, [(0, 2), (1, 1)]⟩]

/-- Two products are factorized, and only constants are known to be consistent or not. -/
def productLibrary : FactorLibrary Nat :=
  { plainLibrary with
    factorization := fun c =>
      if c.lhs = mixedProduct then some [([⟨1, [(0, 1)]⟩], 1), ([⟨1, [(1, 1)]⟩], 1)]
      else if c.lhs = squareProduct then some [([⟨1, [(0, 1)]⟩], 2), ([⟨1, [(1, 1)]⟩], 1)]
      else none
    multiplicity_pos := by
      intro c fs hfs f hf
      split_ifs at hfs <;> cases hfs <;> simp at hf <;> rcases hf with rfl | rfl <;> decide
    eval_factorization := by
      intro c fs hfs α
      split_ifs at hfs with hmixed hsquare
      · cases hfs
        simp [hmixed, mixedProduct, Term.eval]
      · cases hfs
        simp [hsquare, squareProduct, Term.eval]
    isConsistent := fun c =>
      match c with
      | .constant b => if b then 1 else 0
      | .proper _ => 2
    not_sat_of_isConsistent := by
      rintro (b | c) h α
      · cases b <;> simp_all [ConstraintT.Sat]
      · cases h
    sat_of_isConsistent := by
      rintro (b | c) h α
      · cases b <;> simp_all [ConstraintT.Sat]
      · cases h }

/-- Where no factor is repeated, nothing is misread. -/
theorem splitProducts_preserves_iff_mixedProduct :
    (∀ α, Holds α (splitProductsConstraint productLibrary false (.proper ⟨mixedProduct, .greater⟩)) ↔
      (ConstraintT.proper ⟨mixedProduct, .greater⟩).Sat α) ∧
    (∀ α, Holds α (getSignCombinations productLibrary ⟨mixedProduct, .greater⟩) ↔
      Constraint.Sat α ⟨mixedProduct, .greater⟩) ∧
    ∀ α, Holds α (splitProducts productLibrary false [[.proper ⟨mixedProduct, .greater⟩]]).2 ↔
      Holds α [[.proper ⟨mixedProduct, .greater⟩]] := by
  have hproduct : ∀ α, ¬ MisreadProduct productLibrary α ⟨mixedProduct, .greater⟩ := by
    rintro α ⟨fs, hfs, -, -, hsign⟩
    have hfacs : productLibrary.factorization ⟨mixedProduct, .greater⟩ =
        some [([⟨1, [(0, 1)]⟩], 1), ([⟨1, [(1, 1)]⟩], 1)] := rfl
    cases hfacs.symm.trans hfs
    have hparity : ignoresParity productLibrary ⟨mixedProduct, .greater⟩
        [([⟨1, [(0, 1)]⟩], 1), ([⟨1, [(1, 1)]⟩], 1)] = false := by decide +kernel
    rw [hparity] at hsign
    simp [evenPart, radical] at hsign
  have hcon : ∀ α, ¬ Misread productLibrary false α (.proper ⟨mixedProduct, .greater⟩) := by
    rintro α ⟨k, hk, -, -, -, hmis⟩
    cases hk
    exact hproduct α hmis
  obtain ⟨hsplit, hcombinations, hdisjunction⟩ := splitProducts_preserves_iff productLibrary false
  refine ⟨(hsplit _).mpr hcon, (hcombinations ⟨mixedProduct, .greater⟩ (by decide) (by decide)).mpr hproduct,
    (hdisjunction _ (by decide +kernel)).mpr ?_⟩
  rintro α ⟨conj, hconj, c, hc, hmis⟩
  cases mem_singleton.mp hconj
  cases mem_singleton.mp hc
  exact absurd hmis (hcon α)

/-- The inequality `x0^2 x1 > 0` is split as `x0 x1 > 0`. -/
theorem not_splitProducts_preserves_squareProduct :
    ¬ ∀ (lib : FactorLibrary Nat) (c : ConstraintT Nat) (α : Nat → ℝ),
      Holds α (splitProductsConstraint lib false c) ↔ c.Sat α := by
  intro hall
  have hsplit : splitProductsConstraint productLibrary false (.proper ⟨squareProduct, .greater⟩) =
      [[.proper ⟨[⟨1, [(0, 1)]⟩], .greater⟩, .proper ⟨[⟨1, [(1, 1)]⟩], .greater⟩],
        [.proper ⟨[⟨1, [(0, 1)]⟩], .less⟩, .proper ⟨[⟨1, [(1, 1)]⟩], .less⟩]] := by
    decide +kernel
  have hiff := hall productLibrary (.proper ⟨squareProduct, .greater⟩) fun x => if x = 0 then -1 else 1
  rw [hsplit] at hiff
  simp [ConstraintT.Sat, Constraint.Sat, Relation.evaluate, squareProduct, Term.eval] at hiff
  norm_num at hiff

end Example

end Smtrat.VS
