import Smtrat.Math.Instances

/-!
# Values with an infinitesimal part

A bound `x < c` is kept as `x ≤ c - δ` for an infinitesimal `δ`.  A value therefore has a main
part and a multiple of `δ`, and values are compared by their main parts first.

The rational values are those of the tableau.  The real ones are used to read it: a real number
is the value without an infinitesimal part, and a bound holds of it when the values compare.
-/

namespace Smtrat.LRA

/-- `lra::Value`, the number `mainPart + deltaPart * δ`. -/
@[ext]
structure Value (T : Type*) where
  mainPart : T
  deltaPart : T
deriving DecidableEq, Repr

namespace Value

variable {T : Type*}

section Module

instance {R : Type*} [SMul R T] : SMul R (Value T) :=
  ⟨fun k a => ⟨k • a.mainPart, k • a.deltaPart⟩⟩

@[simp] theorem mainPart_smul {R : Type*} [SMul R T] (k : R) (a : Value T) :
    (k • a).mainPart = k • a.mainPart := rfl

@[simp] theorem deltaPart_smul {R : Type*} [SMul R T] (k : R) (a : Value T) :
    (k • a).deltaPart = k • a.deltaPart := rfl

variable {R : Type*} [AddCommGroup T]

instance : Zero (Value T) := ⟨⟨0, 0⟩⟩
instance : Add (Value T) := ⟨fun a b => ⟨a.mainPart + b.mainPart, a.deltaPart + b.deltaPart⟩⟩
instance : Sub (Value T) := ⟨fun a b => ⟨a.mainPart - b.mainPart, a.deltaPart - b.deltaPart⟩⟩
instance : Neg (Value T) := ⟨fun a => ⟨-a.mainPart, -a.deltaPart⟩⟩

@[simp] theorem mainPart_zero : (0 : Value T).mainPart = 0 := rfl
@[simp] theorem deltaPart_zero : (0 : Value T).deltaPart = 0 := rfl
@[simp] theorem mainPart_add (a b : Value T) : (a + b).mainPart = a.mainPart + b.mainPart := rfl
@[simp] theorem deltaPart_add (a b : Value T) : (a + b).deltaPart = a.deltaPart + b.deltaPart := rfl

instance : AddCommGroup (Value T) where
  add_assoc a b c := by ext <;> exact add_assoc _ _ _
  zero_add a := by ext <;> exact zero_add _
  add_zero a := by ext <;> exact add_zero _
  add_comm a b := by ext <;> exact add_comm _ _
  neg_add_cancel a := by ext <;> exact neg_add_cancel _
  sub_eq_add_neg a b := by ext <;> exact sub_eq_add_neg _ _
  nsmul k a := k • a
  nsmul_zero a := by ext <;> exact zero_nsmul _
  nsmul_succ k a := by ext <;> exact succ_nsmul _ k
  zsmul k a := k • a
  zsmul_zero' a := by ext <;> exact zero_zsmul _
  zsmul_succ' k a := by ext <;> exact SubNegMonoid.zsmul_succ' k _
  zsmul_neg' k a := by ext <;> exact SubNegMonoid.zsmul_neg' k _

instance [Semiring R] [Module R T] : Module R (Value T) where
  one_smul a := by ext <;> exact one_smul R _
  mul_smul k l a := by ext <;> exact mul_smul k l _
  smul_zero k := by ext <;> exact smul_zero k
  smul_add k a b := by ext <;> exact smul_add k _ _
  add_smul k l a := by ext <;> exact add_smul k l _
  zero_smul a := by ext <;> exact zero_smul R _

end Module

/-- `Value::operator/`. -/
instance [Div T] : HDiv (Value T) T (Value T) := ⟨fun a k => ⟨a.mainPart / k, a.deltaPart / k⟩⟩

theorem div_eq_inv_smul [Field T] (a : Value T) (k : T) : a / k = k⁻¹ • a := by
  ext <;> exact div_eq_inv_mul _ _

section Order

variable [LinearOrder T]

/-- `Value::operator<`. -/
instance : LT (Value T) :=
  ⟨fun a b => a.mainPart < b.mainPart ∨ a.mainPart = b.mainPart ∧ a.deltaPart < b.deltaPart⟩

/-- `Value::operator<=`. -/
instance : LE (Value T) :=
  ⟨fun a b => a.mainPart < b.mainPart ∨ a.mainPart = b.mainPart ∧ a.deltaPart ≤ b.deltaPart⟩

theorem lt_def {a b : Value T} :
    a < b ↔ a.mainPart < b.mainPart ∨ a.mainPart = b.mainPart ∧ a.deltaPart < b.deltaPart :=
  Iff.rfl

theorem le_def {a b : Value T} :
    a ≤ b ↔ a.mainPart < b.mainPart ∨ a.mainPart = b.mainPart ∧ a.deltaPart ≤ b.deltaPart :=
  Iff.rfl

instance (a b : Value T) : Decidable (a < b) :=
  inferInstanceAs (Decidable (_ ∨ _))

instance (a b : Value T) : Decidable (a ≤ b) :=
  inferInstanceAs (Decidable (_ ∨ _))

instance : LinearOrder (Value T) where
  le_refl a := .inr ⟨rfl, le_rfl⟩
  le_trans a b c := by
    rintro (hab | ⟨hab, hab'⟩) (hbc | ⟨hbc, hbc'⟩)
    · exact .inl (hab.trans hbc)
    · exact .inl (hbc ▸ hab)
    · exact .inl (hab ▸ hbc)
    · exact .inr ⟨hab.trans hbc, hab'.trans hbc'⟩
  le_antisymm a b := by
    rintro (hab | ⟨hab, hab'⟩) (hba | ⟨hba, hba'⟩)
    · exact absurd hba hab.asymm
    · exact absurd hba.symm hab.ne
    · exact absurd hab.symm hba.ne
    · exact Value.ext hab (le_antisymm hab' hba')
  le_total a b := by
    rcases lt_trichotomy a.mainPart b.mainPart with h | h | h
    · exact .inl (.inl h)
    · exact (le_total a.deltaPart b.deltaPart).imp (fun hd => .inr ⟨h, hd⟩)
        fun hd => .inr ⟨h.symm, hd⟩
    · exact .inr (.inl h)
  lt_iff_le_not_ge a b := by
    constructor
    · rintro (h | ⟨h, hd⟩)
      · exact ⟨.inl h, fun hba => hba.elim h.asymm fun hba => h.ne hba.1.symm⟩
      · exact ⟨.inr ⟨h, hd.le⟩, fun hba => hba.elim (fun h' => h'.ne h.symm) fun hba =>
          hd.not_ge hba.2⟩
    · rintro ⟨h | ⟨h, hd⟩, hba⟩
      · exact .inl h
      · exact .inr ⟨h, lt_of_not_ge fun hd' => hba (.inr ⟨h.symm, hd'⟩)⟩
  toDecidableLE := inferInstance

end Order

section OrderedModule

variable [AddCommGroup T] [LinearOrder T] [IsOrderedAddMonoid T]

instance : IsOrderedAddMonoid (Value T) where
  add_le_add_left a b h c := by
    rcases h with h | ⟨h, hd⟩
    · exact .inl (add_lt_add_left h c.mainPart)
    · exact .inr ⟨congrArg (· + _) h, add_le_add_left hd c.deltaPart⟩

instance {R : Type*} [Semiring R] [PartialOrder R] [Module R T] [PosSMulStrictMono R T] :
    PosSMulStrictMono R (Value T) where
  smul_lt_smul_of_pos_left k hk a b h := by
    rcases h with h | ⟨h, hd⟩
    · exact .inl (smul_lt_smul_of_pos_left h hk)
    · exact .inr ⟨congrArg (k • ·) h, smul_lt_smul_of_pos_left hd hk⟩

end OrderedModule

/-! ## Rational and real values -/

/-- A rational value among the real ones. -/
def toReal : Value ℚ →ₗ[ℚ] Value ℝ where
  toFun a := ⟨a.mainPart, a.deltaPart⟩
  map_add' a b := by ext <;> exact Rat.cast_add _ _
  map_smul' k a := by ext <;> exact (Rat.cast_mul k _).trans (Rat.smul_def k _).symm

@[simp] theorem mainPart_toReal (a : Value ℚ) : (toReal a).mainPart = a.mainPart := rfl
@[simp] theorem deltaPart_toReal (a : Value ℚ) : (toReal a).deltaPart = a.deltaPart := rfl

theorem toReal_lt {a b : Value ℚ} : toReal a < toReal b ↔ a < b := by
  rw [lt_def, lt_def, mainPart_toReal, mainPart_toReal, deltaPart_toReal, deltaPart_toReal,
    Rat.cast_lt, Rat.cast_lt, Rat.cast_inj]

theorem toReal_le {a b : Value ℚ} : toReal a ≤ toReal b ↔ a ≤ b := by
  rw [← not_lt, ← not_lt, toReal_lt]

/-- A real number as a value. -/
noncomputable def ofReal : ℝ →ₗ[ℚ] Value ℝ where
  toFun x := ⟨x, 0⟩
  map_add' x y := by
    ext
    · rfl
    · exact (add_zero 0).symm
  map_smul' k x := by
    ext
    · rfl
    · exact (smul_zero k).symm

@[simp] theorem mainPart_ofReal (x : ℝ) : (ofReal x).mainPart = x := rfl
@[simp] theorem deltaPart_ofReal (x : ℝ) : (ofReal x).deltaPart = 0 := rfl

end Value

end Smtrat.LRA
