import Smtrat.LRA.Comparisons
import Smtrat.LRA.RowSpace

/-!
# The translation of constraints to bounds

The bounds that are registered for a constraint say the same as the constraint of every assignment
of the input's variables, and their complements the opposite.  The disequalities over the integers
are an exception when the leading coefficient of the left-hand side is negative: their strict bounds
are moved by one to the wrong side.
-/

namespace Smtrat.LRA

open Combination Run List Function Option

namespace Tableau

variable {t t' : Tableau} {c : LinearConstraint}

/-- Entries are added for constraints that have none, and complements are set. -/
structure Registers (t t' : Tableau) (entries : List (LinearConstraint × List Bound))
    (complements : List (Bound × Bound)) : Prop where
  entry : ∀ d bs, t'.mConstraintToBound d = some bs ↔
    t.mConstraintToBound d = some bs ∨ t.mConstraintToBound d = none ∧ (d, bs) ∈ entries
  complement : ∀ b b', t'.complement b = some b' ↔
    (b, b') ∈ complements ∨ (∀ q ∈ complements, q.1 ≠ b) ∧ t.complement b = some b'

variable {α : Type*}

theorem update_eq_some_iff {β : Type*} [DecidableEq α] {f : α → Option β} {a b : α} {x y : β} :
    update f a (some x) b = some y ↔ b = a ∧ y = x ∨ b ≠ a ∧ f b = some y := by
  by_cases h : b = a
  · rw [h, update_self, some.injEq]
    simp [eq_comm]
  · rw [update_of_ne h]
    simp [h]

theorem addDirected_fst (s : Bounds) (upper : Bool) (v : VarId) (limit : Value ℚ)
    (c : LinearConstraint) : (s.addDirected upper v limit c).1 = .directed upper v limit := by
  cases upper <;> rfl

theorem addDirected_mConstraintToBound (s : Bounds) (upper : Bool) (v : VarId) (limit : Value ℚ)
    (c : LinearConstraint) :
    (s.addDirected upper v limit c).2.mConstraintToBound = s.mConstraintToBound :=
  (s.addDirected_enters upper v limit c).keeps.mConstraintToBound

theorem addDirected_complement (s : Bounds) (upper : Bool) (v : VarId) (limit : Value ℚ)
    (c : LinearConstraint) : (s.addDirected upper v limit c).2.complement = s.complement :=
  (s.addDirected_enters upper v limit c).keeps.complement

theorem negated_ne (c : LinearConstraint) : c.negated ≠ c := by
  intro h
  have hrel := congrArg LinearConstraint.relation h
  revert hrel
  show c.relation.inverse = c.relation → False
  cases c.relation <;> exact Relation.noConfusion

/-- An inequality is registered together with its negation. -/
theorem addBoundWithComplement_registers (hnone : t.mConstraintToBound c = none)
    (hneg : t.mConstraintToBound c.negated = none) (upper : Bool) (v : VarId)
    (limit complement : Value ℚ) :
    Registers t (t.addBoundWithComplement upper v limit complement c).2
      [(c, [.directed upper v limit]), (c.negated, [.directed (!upper) v complement])]
      [(.directed upper v limit, .directed (!upper) v complement),
        (.directed (!upper) v complement, .directed upper v limit)] := by
  have hbds : Bound.directed (!upper) v complement ≠ Bound.directed upper v limit := by
    intro h
    have htype := congrArg Bound.type h
    cases upper <;> cases htype
  have hnone' : update t.mConstraintToBound c (some [.directed upper v limit]) c.negated =
      none := by
    rw [update_of_ne (negated_ne c), hneg]
  simp only [addBoundWithComplement, addDirected_fst, addDirected_mConstraintToBound,
    addDirected_complement, hnone']
  constructor
  case entry =>
    intro d bs
    simp only [update_eq_some_iff, mem_cons, not_mem_nil, or_false, Prod.mk.injEq]
    have hne := negated_ne c
    grind
  case complement =>
    intro b b'
    simp only [update_eq_some_iff, mem_cons, not_mem_nil, or_false, Prod.mk.injEq,
      forall_eq_or_imp, forall_eq]
    grind

theorem registerConstraint_mConstraintToBound (c d : LinearConstraint) (bs es : List Bound) :
    (t.registerConstraint c bs).mConstraintToBound d = some es ↔
      t.mConstraintToBound d = some es ∨ t.mConstraintToBound d = none ∧ d = c ∧ es = bs := by
  rw [registerConstraint]
  cases hc : t.mConstraintToBound c with
  | some cs => grind
  | none =>
    simp only [update_eq_some_iff]
    grind

theorem registerConstraint_complement (c : LinearConstraint) (bs : List Bound) :
    (t.registerConstraint c bs).complement = t.complement := by
  rw [registerConstraint]
  split <;> rfl

theorem addNeqBound_fst (upper : Bool) (v : VarId) (limit : Value ℚ) (c : LinearConstraint)
    (r : Relation) : (t.addNeqBound upper v limit c r).1 = .directed upper v limit :=
  addDirected_fst _ _ _ _ _

theorem addNeqBound_entry (upper : Bool) (v : VarId) (limit : Value ℚ) (c d : LinearConstraint)
    (r : Relation) (bs : List Bound) :
    (t.addNeqBound upper v limit c r).2.mConstraintToBound d = some bs ↔
      t.mConstraintToBound d = some bs ∨ t.mConstraintToBound d = none ∧
        d = c.withRelation r ∧ bs = [.directed upper v limit] := by
  simp only [addNeqBound, registerConstraint_mConstraintToBound, addDirected_mConstraintToBound,
    addDirected_fst]

theorem addNeqBound_entry_none (upper : Bool) (v : VarId) (limit : Value ℚ)
    (c d : LinearConstraint) (r : Relation) :
    (t.addNeqBound upper v limit c r).2.mConstraintToBound d = none ↔
      t.mConstraintToBound d = none ∧ d ≠ c.withRelation r := by
  have hent := fun bs => addNeqBound_entry (t := t) upper v limit c d r bs
  have hown := hent [.directed upper v limit]
  cases hold : t.mConstraintToBound d with
  | some bs =>
    rw [(hent bs).mpr (.inl hold)]
    simp
  | none =>
    cases hnew : (t.addNeqBound upper v limit c r).2.mConstraintToBound d with
    | none => grind
    | some bs =>
      have hbs := hent bs
      grind

theorem addNeqBound_complement (upper : Bool) (v : VarId) (limit : Value ℚ) (c : LinearConstraint)
    (r : Relation) : (t.addNeqBound upper v limit c r).2.complement = t.complement := by
  simp only [addNeqBound, registerConstraint_complement, addDirected_complement]

/-- Entries that are made one after the other under different keys, unless they exist. -/
theorem chained_entry {β : Type*} {old : Option β} {c d c₁ c₂ c₃ c₄ : α} {bs l l₁ l₂ l₃ l₄ : β}
    (hold : d = c → old = none) (h : [c, c₁, c₂, c₃, c₄].Nodup) :
    (d = c ∧ bs = l ∨ d ≠ c ∧ ((((old = some bs ∨ old = none ∧ d = c₁ ∧ bs = l₁) ∨
      (old = none ∧ d ≠ c₁) ∧ d = c₂ ∧ bs = l₂) ∨
      ((old = none ∧ d ≠ c₁) ∧ d ≠ c₂) ∧ d = c₃ ∧ bs = l₃) ∨
      (((old = none ∧ d ≠ c₁) ∧ d ≠ c₂) ∧ d ≠ c₃) ∧ d = c₄ ∧ bs = l₄)) ↔
    old = some bs ∨ old = none ∧ (d = c ∧ bs = l ∨ d = c₁ ∧ bs = l₁ ∨ d = c₂ ∧ bs = l₂ ∨
      d = c₃ ∧ bs = l₃ ∨ d = c₄ ∧ bs = l₄) := by
  simp only [nodup_cons, mem_cons, not_mem_nil, or_false, not_or] at h
  obtain ⟨⟨h₁, h₂, h₃, h₄⟩, ⟨h₁₂, h₁₃, h₁₄⟩, ⟨h₂₃, h₂₄⟩, h₃₄, -⟩ := h
  by_cases hd : d = c
  · have hnone := hold hd
    subst hd
    simp_all
  · grind

/-- Complements that are set one after the other for different bounds. -/
theorem chained_complement {old : Prop} {b b' b₁ b₂ b₃ b₄ l₁ l₂ l₃ l₄ : α}
    (h : [b₁, b₂, b₃, b₄].Nodup) :
    (b = b₄ ∧ b' = l₄ ∨ b ≠ b₄ ∧ (b = b₃ ∧ b' = l₃ ∨ b ≠ b₃ ∧ (b = b₂ ∧ b' = l₂ ∨ b ≠ b₂ ∧
      (b = b₁ ∧ b' = l₁ ∨ b ≠ b₁ ∧ old)))) ↔
    (b = b₁ ∧ b' = l₁ ∨ b = b₂ ∧ b' = l₂ ∨ b = b₃ ∧ b' = l₃ ∨ b = b₄ ∧ b' = l₄) ∨
      (b₁ ≠ b ∧ b₂ ≠ b ∧ b₃ ≠ b ∧ b₄ ≠ b) ∧ old := by
  simp only [nodup_cons, mem_cons, not_mem_nil, or_false, not_or] at h
  obtain ⟨⟨h₁₂, h₁₃, h₁₄⟩, ⟨h₂₃, h₂₄⟩, h₃₄, -⟩ := h
  grind

theorem neqBounds_nodup (ref : RowSystem.Reference) (integerValued : Bool) :
    (ref.neqBounds integerValued).Nodup := by
  obtain ⟨v, negative, x⟩ := ref
  have hlims : (⟨x - 1, 0⟩ : Value ℚ) ≠ ⟨x, 0⟩ ∧ (⟨x + 1, 0⟩ : Value ℚ) ≠ ⟨x, 0⟩ ∧
      (⟨x, -1⟩ : Value ℚ) ≠ ⟨x, 0⟩ ∧ (⟨x, 1⟩ : Value ℚ) ≠ ⟨x, 0⟩ := by
    simp [Value.ext_iff]
  obtain ⟨hbelow, habove, hminus, hplus⟩ := hlims
  cases integerValued <;> cases negative <;>
    simp [RowSystem.Reference.neqBounds, RowSystem.Reference.neqBound, RowSystem.Reference.bound,
      Bound.directed, Bound.strictLimit, strictlyBelow, strictlyAbove, hbelow, hminus, hplus,
      habove.symm, hminus.symm, hplus.symm]

/-- What `newBound` registers for a constraint it does not know. -/
theorem newBound_registers (hnone : t.mConstraintToBound c = none)
    (hneg : t.mConstraintToBound c.negated = none ∨ c.relation = .eq ∨ c.relation = .neq) :
    Registers t (t.newBound c) ((t.toRowSystem.getVariable c.lhs c.constantPart).1.entries c)
      ((t.toRowSystem.getVariable c.lhs c.constantPart).1.complements c) := by
  rw [newBound, hnone]
  dsimp only
  set ref := (t.toRowSystem.getVariable c.lhs c.constantPart).1 with href
  set t₁ : Tableau :=
    { t with toRowSystem := (t.toRowSystem.getVariable c.lhs c.constantPart).2 } with ht₁
  have hstart : ∀ {t' : Tableau} {entries complements},
      Registers t₁ t' entries complements → Registers t t' entries complements :=
    fun h => ⟨h.entry, h.complement⟩
  cases hrel : c.relation with
  | eq =>
    have hents : ref.entries c = [(c, [ref.bound false .eq])] := by
      rw [RowSystem.Reference.entries, hrel]
    have hcompls : ref.complements c = [] := by
      rw [RowSystem.Reference.complements, hrel]
    rw [hents, hcompls]
    have hkeeps := (t.toBounds.addEqualBound_enters ref.var ⟨ref.boundValue, 0⟩ c).keeps
    constructor
    case entry =>
      intro d bs
      show update (t.toBounds.addEqualBound ref.var ⟨ref.boundValue, 0⟩
        c).2.mConstraintToBound c (some [ref.bound false .eq]) d = some bs ↔ _
      simp only [hkeeps.mConstraintToBound, update_eq_some_iff, mem_singleton, Prod.mk.injEq]
      grind
    case complement =>
      intro b b'
      show (t.toBounds.addEqualBound ref.var ⟨ref.boundValue, 0⟩ c).2.complement b = some b' ↔ _
      simp [hkeeps.complement]
  | leq | less =>
    have hineq : c.relation.IsInequality := by
      constructor <;> simp [hrel]
    have hspec := addBoundWithComplement_registers (t := t₁) hnone
      (hneg.resolve_right (by simp [hrel])) (!ref.negative) ref.var
    rw [ref.entries_of_inequality hineq, ref.complements_of_inequality hineq, hrel]
    simp only [Bool.not_not] at hspec
    simp only [← Bound.strictLimit_not]
    exact hstart (hspec _ _)
  | geq | greater =>
    have hineq : c.relation.IsInequality := by
      constructor <;> simp [hrel]
    have hspec := addBoundWithComplement_registers (t := t₁) hnone
      (hneg.resolve_right (by simp [hrel])) ref.negative ref.var
    rw [ref.entries_of_inequality hineq, ref.complements_of_inequality hineq, hrel]
    simp only [← Bound.strictLimit_not]
    exact hstart (hspec _ _)
  | neq =>
    have hents : ref.entries c = [(c, ref.neqBounds c.integerValued),
        (c.withRelation .less, [ref.neqBound c.integerValued true]),
        (c.withRelation .leq, [ref.bound false .leq]),
        (c.withRelation .geq, [ref.bound false .geq]),
        (c.withRelation .greater, [ref.neqBound c.integerValued false])] := by
      rw [RowSystem.Reference.entries, hrel]
    have hcompls : ref.complements c =
        [(ref.neqBound c.integerValued true, ref.bound false .geq),
          (ref.bound false .leq, ref.neqBound c.integerValued false),
          (ref.bound false .geq, ref.neqBound c.integerValued true),
          (ref.neqBound c.integerValued false, ref.bound false .leq)] := by
      rw [RowSystem.Reference.complements, hrel]
    have hA : (if c.integerValued then strictlyBelow true ref.boundValue
        else if ref.negative then strictlyAbove false ref.boundValue
        else strictlyBelow false ref.boundValue) =
        Bound.strictLimit (if c.integerValued then true else !ref.negative) c.integerValued
          ref.boundValue := by
      cases c.integerValued <;> cases ref.negative <;> rfl
    have hD : (if c.integerValued then strictlyAbove true ref.boundValue
        else if ref.negative then strictlyBelow false ref.boundValue
        else strictlyAbove false ref.boundValue) =
        Bound.strictLimit (if c.integerValued then false else ref.negative) c.integerValued
          ref.boundValue := by
      cases c.integerValued <;> cases ref.negative <;> rfl
    rw [hents, hcompls]
    dsimp only
    rw [hA, hD]
    have hless : Bound.directed (!ref.negative) ref.var
        (Bound.strictLimit (if c.integerValued then true else !ref.negative) c.integerValued
          ref.boundValue) = ref.neqBound c.integerValued true := rfl
    have hgreater : Bound.directed ref.negative ref.var
        (Bound.strictLimit (if c.integerValued then false else ref.negative) c.integerValued
          ref.boundValue) = ref.neqBound c.integerValued false := rfl
    have hleq : Bound.directed (!ref.negative) ref.var ⟨ref.boundValue, 0⟩ =
        ref.bound false .leq := rfl
    have hgeq : Bound.directed ref.negative ref.var ⟨ref.boundValue, 0⟩ =
        ref.bound false .geq := rfl
    have hkeys : [c, c.withRelation .less, c.withRelation .leq, c.withRelation .geq,
        c.withRelation .greater].Nodup := by
      have hnodup : [Relation.neq, .less, .leq, .geq, .greater].Nodup := by decide
      have hself : c = c.withRelation .neq := hrel ▸ rfl
      have hmap : [c, c.withRelation .less, c.withRelation .leq, c.withRelation .geq,
          c.withRelation .greater] =
            [Relation.neq, .less, .leq, .geq, .greater].map c.withRelation := by
        rw [map_cons, ← hself]
        rfl
      rw [hmap]
      exact hnodup.map fun r r' h => congrArg LinearConstraint.relation h
    constructor
    case entry =>
      intro d bs
      simp only [update_eq_some_iff, addNeqBound_entry, addNeqBound_entry_none, addNeqBound_fst,
        mem_cons, not_mem_nil, or_false, Prod.mk.injEq]
      simp only [hless, hleq, hgeq, hgreater]
      refine chained_entry ?_ hkeys
      rintro rfl
      exact hnone
    case complement =>
      intro b b'
      simp only [update_eq_some_iff, addNeqBound_complement, addNeqBound_fst,
        mem_cons, not_mem_nil, or_false, Prod.mk.injEq, forall_eq_or_imp, forall_eq]
      simp only [hless, hleq, hgeq, hgreater]
      exact chained_complement (neqBounds_nodup ref c.integerValued)

/-! ## The meaning of registered bounds -/

/-- A bound holds of the value its variable takes when the variables of the input are assigned. -/
def Meets (t : Tableau) (α : Assignment) (b : Bound) : Prop :=
  b.Holds (Value.ofReal ((t.expression b.var).eval α.val))

/-- The bounds that are registered for a constraint hold under the assignments that satisfy it,
those of a disequality if one of the strict bounds does, and the complement of the bound of an
inequality holds under the other assignments. -/
def Translated (t : Tableau) (c : LinearConstraint) : Prop :=
  match c.relation with
  | .eq => ∃ b, t.mConstraintToBound c = some [b] ∧ ∀ α, t.Meets α b ↔ c.Sat α
  | .neq => ∃ less leq geq greater, t.mConstraintToBound c = some [less, leq, geq, greater] ∧
      ∀ α, t.Meets α less ∨ t.Meets α greater ↔ c.Sat α
  | _ => ∃ b b', t.mConstraintToBound c = some [b] ∧ t.complement b = some b' ∧
      ∀ α, (t.Meets α b ↔ c.Sat α) ∧ (t.Meets α b' ↔ ¬ c.Sat α)

theorem translated_iff_of_inequality (hc : c.relation.IsInequality) :
    t.Translated c ↔ ∃ b b', t.mConstraintToBound c = some [b] ∧ t.complement b = some b' ∧
      ∀ α, (t.Meets α b ↔ c.Sat α) ∧ (t.Meets α b' ↔ ¬ c.Sat α) := by
  obtain ⟨heq, hneq⟩ := hc
  rw [Translated]
  cases hrel : c.relation with
  | eq => exact absurd hrel heq
  | neq => exact absurd hrel hneq
  | leq | geq | less | greater => rfl

/-- A disequality over the integers whose left-hand side has a negative leading coefficient. -/
def Misplaced (c : LinearConstraint) : Prop :=
  c.relation = .neq ∧ c.integerValued = true ∧ c.lhs.negative = true

instance (c : LinearConstraint) : Decidable (Misplaced c) := inferInstanceAs (Decidable (_ ∧ _ ∧ _))

section Reference

open RowSystem

variable {omit_division : Bool} {s s' : RowSystem} {ref : Reference}

/-- A bound of the referenced variable relates the left-hand side to zero. -/
theorem meets_bound (h : ReferenceSpec omit_division c.lhs c.constantPart s ref t.toRowSystem)
    {r : Relation} (hr : r ≠ .neq) {integerValued : Bool}
    (hint : integerValued = true → c.integerValued = true) (α : Assignment) :
    t.Meets α (ref.bound integerValued r) ↔ (c.withRelation r).Sat α := by
  rw [Meets, Reference.bound_var, h.expression, (c.withRelation r).sat_iff_slackForm]
  have hnumbers := fun hi => LinearConstraint.integral_slackForm (hint hi) α
  rw [← h.boundValue] at hnumbers
  refine (Reference.holds_bound hr hnumbers).trans ?_
  rw [h.negative, h.boundValue]
  rfl

/-- Where the sign of the factor does not matter, the strict bounds of a disequality are those of
its strict halves. -/
theorem neqBound_eq (h : ReferenceSpec omit_division c.lhs c.constantPart s ref t.toRowSystem)
    (hc : c.relation = .neq) (hpl : ¬ Misplaced c) :
    ref.neqBound c.integerValued true = ref.bound c.integerValued .less ∧
      ref.neqBound c.integerValued false = ref.bound c.integerValued .greater := by
  have hsign : c.integerValued = true → ref.negative = false := by
    intro hi
    rw [h.negative, ← Bool.not_eq_true]
    exact fun hneg => hpl ⟨hc, hi, hneg⟩
  cases hi : c.integerValued with
  | false => exact ⟨rfl, rfl⟩
  | true => simp [Reference.neqBound, Reference.bound, hsign hi]

end Reference

variable {bs : List Bound} {d : LinearConstraint}

section NewBound

variable {settings : TableauSettings} (h : t.Correct settings.omit_division)
  (hnone : t.mConstraintToBound c = none)

include h hnone

theorem newBound_reference : RowSystem.ReferenceSpec settings.omit_division c.lhs c.constantPart
    t.toRowSystem (t.toRowSystem.getVariable c.lhs c.constantPart).1
      (t.newBound c).toRowSystem := by
  rw [newBound_toRowSystem_of_none hnone]
  exact RowSystem.getVariable_spec c.lhs c.constantPart h

/-- The complements that are set hold where the bounds do not. -/
theorem newBound_complements (hpl : ¬ Misplaced c) {b b' : Bound}
    (hmem : (b, b') ∈ (t.toRowSystem.getVariable c.lhs c.constantPart).1.complements c)
    (α : Assignment) : (t.newBound c).Meets α b' ↔ ¬ (t.newBound c).Meets α b := by
  have href := newBound_reference h hnone
  set ref := (t.toRowSystem.getVariable c.lhs c.constantPart).1
  have hmeets : ∀ r, r ≠ .neq → ∀ i, (i = true → c.integerValued = true) →
      ((t.newBound c).Meets α (ref.bound i r) ↔ (c.withRelation r).Sat α) :=
    fun r hr i hi => meets_bound href hr hi α
  have hfalse : false = true → c.integerValued = true := fun hi => absurd hi (by decide)
  have hinverse : ∀ r : Relation, (c.withRelation r.inverse).Sat α ↔ ¬ (c.withRelation r).Sat α :=
    fun r => (c.withRelation r).sat_negated α
  cases hrel : c.relation with
  | eq =>
    rw [RowSystem.Reference.complements, hrel] at hmem
    cases hmem
  | neq =>
    obtain ⟨hless, hgreater⟩ := neqBound_eq href hrel hpl
    rw [RowSystem.Reference.complements, hrel, hless, hgreater] at hmem
    simp only [mem_cons, not_mem_nil, or_false, Prod.mk.injEq] at hmem
    rcases hmem with ⟨rfl, rfl⟩ | ⟨rfl, rfl⟩ | ⟨rfl, rfl⟩ | ⟨rfl, rfl⟩
    · rw [hmeets .geq (by decide) _ hfalse, hmeets .less (by decide) _ id]
      exact hinverse .less
    · rw [hmeets .greater (by decide) _ id, hmeets .leq (by decide) _ hfalse]
      exact hinverse .leq
    · rw [hmeets .less (by decide) _ id, hmeets .geq (by decide) _ hfalse]
      exact hinverse .geq
    · rw [hmeets .leq (by decide) _ hfalse, hmeets .greater (by decide) _ id]
      exact hinverse .greater
  | leq | geq | less | greater =>
    have hineq : c.relation.IsInequality := by
      constructor <;> simp [hrel]
    rw [ref.complements_of_inequality hineq, hrel] at hmem
    simp only [mem_cons, not_mem_nil, or_false, Prod.mk.injEq] at hmem
    rcases hmem with ⟨rfl, rfl⟩ | ⟨rfl, rfl⟩
    · rw [hmeets _ (by decide) _ id, hmeets _ (by decide) _ hfalse]
      exact hinverse _
    · rw [hmeets _ (by decide) _ id, hmeets _ (by decide) _ hfalse, hinverse, not_not]

/-- The bound that is entered for an equation or an inequality. -/
theorem newBound_entries (hpl : ¬ Misplaced c)
    (hmem : (d, bs) ∈ (t.toRowSystem.getVariable c.lhs c.constantPart).1.entries c)
    (hd : d.relation ≠ .neq) :
    ∃ b, bs = [b] ∧ (∀ α, (t.newBound c).Meets α b ↔ d.Sat α) ∧ (d.relation.IsInequality →
        ∃ b', (b, b') ∈ (t.toRowSystem.getVariable c.lhs c.constantPart).1.complements c) := by
  have href := newBound_reference h hnone
  set ref := (t.toRowSystem.getVariable c.lhs c.constantPart).1
  have hmeets : ∀ r, r ≠ .neq → ∀ i, (i = true → c.integerValued = true) → ∀ α,
      ((t.newBound c).Meets α (ref.bound i r) ↔ (c.withRelation r).Sat α) :=
    fun r hr i hi α => meets_bound href hr hi α
  have hfalse : false = true → c.integerValued = true := fun hi => absurd hi (by decide)
  have hself : c.withRelation c.relation = c := rfl
  cases hrel : c.relation with
  | eq =>
    rw [RowSystem.Reference.entries, hrel, mem_singleton, Prod.mk.injEq] at hmem
    obtain ⟨rfl, rfl⟩ := hmem
    refine ⟨_, rfl, fun α => ?_, fun hineq => absurd hrel hineq.1⟩
    rw [hmeets .eq (by decide) _ hfalse, ← hrel, hself]
  | neq =>
    obtain ⟨hless, hgreater⟩ := neqBound_eq href hrel hpl
    have hcompls : ref.complements c =
        [(ref.bound c.integerValued .less, ref.bound false .geq),
          (ref.bound false .leq, ref.bound c.integerValued .greater),
          (ref.bound false .geq, ref.bound c.integerValued .less),
          (ref.bound c.integerValued .greater, ref.bound false .leq)] := by
      rw [RowSystem.Reference.complements, hrel, hless, hgreater]
    rw [hcompls]
    rw [RowSystem.Reference.entries, hrel, hless, hgreater] at hmem
    simp only [mem_cons, not_mem_nil, or_false, Prod.mk.injEq] at hmem ⊢
    rcases hmem with ⟨rfl, -⟩ | ⟨rfl, rfl⟩ | ⟨rfl, rfl⟩ | ⟨rfl, rfl⟩ | ⟨rfl, rfl⟩
    · exact absurd hrel hd
    · exact ⟨_, rfl, hmeets .less (by decide) _ id, fun _ => ⟨_, .inl ⟨rfl, rfl⟩⟩⟩
    · exact ⟨_, rfl, hmeets .leq (by decide) _ hfalse, fun _ => ⟨_, .inr (.inl ⟨rfl, rfl⟩)⟩⟩
    · exact ⟨_, rfl, hmeets .geq (by decide) _ hfalse, fun _ => ⟨_, .inr (.inr (.inl ⟨rfl, rfl⟩))⟩⟩
    · exact ⟨_, rfl, hmeets .greater (by decide) _ id, fun _ => ⟨_, .inr (.inr (.inr ⟨rfl, rfl⟩))⟩⟩
  | leq | geq | less | greater =>
    have hineq : c.relation.IsInequality := by
      constructor <;> simp [hrel]
    rw [ref.complements_of_inequality hineq]
    rw [ref.entries_of_inequality hineq] at hmem
    rw [hrel] at hmem ⊢
    simp only [mem_cons, not_mem_nil, or_false, Prod.mk.injEq] at hmem ⊢
    rcases hmem with ⟨rfl, rfl⟩ | ⟨rfl, rfl⟩
    · refine ⟨_, rfl, fun α => ?_, fun _ => ⟨_, .inl ⟨rfl, rfl⟩⟩⟩
      rw [hmeets _ (by decide) _ hfalse, ← hrel, hself]
    · refine ⟨_, rfl, fun α => ?_, fun _ => ⟨_, .inr ⟨rfl, rfl⟩⟩⟩
      rw [hmeets _ (by decide) _ id, LinearConstraint.negated, hrel]

/-- The new entries are translations, if the constraint is not misplaced. -/
theorem newBound_translated (hpl : ¬ Misplaced c)
    (hneg : t.mConstraintToBound c.negated = none ∨ c.relation = .eq ∨ c.relation = .neq)
    (hmem : (d, bs) ∈ (t.toRowSystem.getVariable c.lhs c.constantPart).1.entries c)
    (hd : t.mConstraintToBound d = none) : (t.newBound c).Translated d := by
  have hspec := newBound_registers hnone hneg
  have href := newBound_reference h hnone
  set ref := (t.toRowSystem.getVariable c.lhs c.constantPart).1 with hrefeq
  have hent : (t.newBound c).mConstraintToBound d = some bs :=
    (hspec.entry d bs).mpr (.inr ⟨hd, hmem⟩)
  by_cases hneq : d.relation = .neq
  · obtain ⟨rfl, rfl⟩ := ref.entries_neq hmem hneq
    obtain ⟨hless, hgreater⟩ := neqBound_eq href hneq hpl
    rw [Translated, hneq]
    refine ⟨_, _, _, _, hent, fun α => ?_⟩
    rw [hless, hgreater, meets_bound href (by decide) id, meets_bound href (by decide) id,
      LinearConstraint.sat_neq_iff hneq]
  · obtain ⟨b, rfl, hb, hcompl⟩ := newBound_entries h hnone hpl hmem hneq
    by_cases heq : d.relation = .eq
    · rw [Translated, heq]
      exact ⟨b, hent, hb⟩
    · obtain ⟨b', hb'⟩ := hcompl ⟨heq, hneq⟩
      rw [translated_iff_of_inequality ⟨heq, hneq⟩]
      refine ⟨b, b', hent, (hspec.complement b b').mpr (.inl hb'), fun α => ⟨hb α, ?_⟩⟩
      rw [newBound_complements h hnone hpl hb', hb]

/-- A misplaced disequality is not translated: one of its two bounds always holds. -/
theorem newBound_not_translated (hc : Misplaced c) : ¬ (t.newBound c).Translated c := by
  obtain ⟨hrel, hint, hneg⟩ := hc
  have hspec := newBound_registers hnone (.inr (.inr hrel))
  have href := newBound_reference h hnone
  set ref := (t.toRowSystem.getVariable c.lhs c.constantPart).1
  have hent : (t.newBound c).mConstraintToBound c = some (ref.neqBounds c.integerValued) := by
    refine (hspec.entry c _).mpr (.inr ⟨hnone, ?_⟩)
    rw [RowSystem.Reference.entries, hrel]
    exact mem_cons_self
  rw [Translated, hrel]
  rintro ⟨less, leq, geq, greater, hbds, hsat⟩
  rw [hent, some.injEq, RowSystem.Reference.neqBounds, List.cons.injEq, List.cons.injEq,
    List.cons.injEq, List.cons.injEq] at hbds
  obtain ⟨rfl, -, -, rfl, -⟩ := hbds
  -- an assignment under which the left-hand side is zero
  obtain ⟨m, hm⟩ := (LinearConstraint.integral_slackForm hint
    ⟨fun _ => 0, fun _ _ => ⟨0, Int.cast_zero.symm⟩⟩).1
  obtain ⟨α, hα⟩ := c.lhs.exists_eval_slackForm m
  have hzero : ¬ c.Sat α := by
    rw [c.sat_iff_slackForm, hrel, hm, hα, hneg]
    exact fun hne => hne (Rat.cast_intCast m).symm
  refine hzero ((hsat α).mp (.inl ?_))
  have hless : ref.neqBound c.integerValued true =
      .directed false ref.var ⟨ref.boundValue - 1, 0⟩ := by
    rw [RowSystem.Reference.neqBound, href.negative, hneg, hint]
    rfl
  rw [Meets, hless]
  show (Bound.directed false ref.var ⟨ref.boundValue - 1, 0⟩).Holds
    (Value.ofReal (((t.newBound c).expression ref.var).eval α.val))
  rw [Bound.holds_weak, href.expression, hα, href.boundValue, hm]
  show ((m : ℚ) - 1 : ℚ) ≤ (m : ℝ)
  push_cast
  linarith

end NewBound

/-! ## Steps of the tableau -/

section Steps

variable {settings : TableauSettings}

/-- A step that creates no bounds. -/
structure KeepsEntries (t t' : Tableau) : Prop where
  known : ∀ v, t'.IsKnown v ↔ t.IsKnown v
  expression : t'.expression = t.expression
  entries : t'.mConstraintToBound = t.mConstraintToBound
  complement : t'.complement = t.complement

theorem KeepsEntries.of_sameVariables (hrows : t.SameVariables t'.toRowSystem)
    (hents : t'.mConstraintToBound = t.mConstraintToBound)
    (hcompl : t'.complement = t.complement) : KeepsEntries t t' :=
  ⟨hrows.known, hrows.expression, hents, hcompl⟩

theorem KeepsEntries.of_rows (hrows : t'.toRowSystem = t.toRowSystem)
    (hents : t'.mConstraintToBound = t.mConstraintToBound)
    (hcompl : t'.complement = t.complement) : KeepsEntries t t' :=
  ⟨fun v => by rw [hrows], by rw [hrows], hents, hcompl⟩

theorem KeepsEntries.trans {t'' : Tableau} (h : KeepsEntries t t') (h' : KeepsEntries t' t'') :
    KeepsEntries t t'' where
  known v := (h'.known v).trans (h.known v)
  expression := h'.expression.trans h.expression
  entries := h'.entries.trans h.entries
  complement := h'.complement.trans h.complement

theorem activateBasicVar_keepsEntries (h : t.Correct settings.omit_division) (v : VarId) :
    KeepsEntries t (t.activateBasicVar settings v) := by
  by_cases hv : v ∈ t.mNonActiveBasics
  · rw [activateBasicVar, if_pos hv]
    exact .of_sameVariables (RowSystem.activate_sameVariables h hv) rfl rfl
  · rw [activateBasicVar, if_neg hv]
    exact .of_rows rfl rfl rfl

theorem activateBound_keepsEntries (h : t.Correct settings.omit_division) (b : Bound) (o : Origin) :
    KeepsEntries t (t.activateBound settings b o) := by
  have horig : KeepsEntries t (t.addOrigin b o) := .of_rows rfl rfl rfl
  have hbasic : KeepsEntries t (if !(t.addOrigin b o).hasBound b.var &&
      (t.addOrigin b o).isBasic b.var && !(t.addOrigin b o).isOriginal b.var
      then (t.addOrigin b o).activateBasicVar settings b.var else t.addOrigin b o) := by
    split_ifs
    · exact horig.trans (activateBasicVar_keepsEntries (t := t.addOrigin b o) h b.var)
    · exact horig
  have hup : ∀ {t' : Tableau}, KeepsEntries t t' →
      KeepsEntries t (if b.isUpperBound then t'.activateUpperBound settings b else t') := by
    intro t' ht'
    split_ifs
    · exact ht'.trans (.of_rows (activateUpperBound_toRowSystem b)
        (by simp only [activateUpperBound]; split_ifs <;> rfl)
        (by simp only [activateUpperBound]; split_ifs <;> rfl))
    · exact ht'
  have hlow : ∀ {t' : Tableau}, KeepsEntries t t' →
      KeepsEntries t (if b.isLowerBound then t'.activateLowerBound settings b else t') := by
    intro t' ht'
    split_ifs
    · exact ht'.trans (.of_rows (activateLowerBound_toRowSystem b)
        (by simp only [activateLowerBound]; split_ifs <;> rfl)
        (by simp only [activateLowerBound]; split_ifs <;> rfl))
    · exact ht'
  exact hlow (hup hbasic)

/-- Only `newBound` creates bounds. -/
theorem rowStep_keepsEntries {action : RowAction} (h : t.Correct settings.omit_division)
    (hstep : t.rowStep settings action = some t') :
    KeepsEntries t t' ∨ ∃ c, action = .newBound c ∧ t' = t.newBound c := by
  cases action with
  | newBound c =>
    cases hstep
    exact .inr ⟨c, rfl, rfl⟩
  | activateBound b o =>
    cases hstep
    exact .inl (activateBound_keepsEntries h b o)
  | activateBasicVar v =>
    cases hstep
    exact .inl (activateBasicVar_keepsEntries h v)
  | deactivateBasicVar v =>
    obtain ⟨⟨hv, -⟩, heq⟩ := ite_none_right_eq_some.mp hstep
    cases heq
    exact .inl (.of_sameVariables (RowSystem.deactivate_sameVariables h hv) rfl rfl)
  | pivot e =>
    obtain ⟨⟨hrow, hcont⟩, heq⟩ := ite_none_right_eq_some.mp hstep
    cases heq
    obtain ⟨a, ha⟩ := isSome_iff_exists.mp hcont
    have hent : t.HasEntry e.row e.col a := ⟨hrow, mem_of_find ha⟩
    have hpivot := pivot_spec h.toWellFormed hent
    have hsame := RowSystem.pivot_sameVariables h hent
    refine .inl (.of_sameVariables ?_ (congrArg Bounds.mConstraintToBound hpivot.bounds)
      (congrArg Bounds.complement hpivot.bounds))
    rw [hpivot.rows]
    split_ifs
    · have hcol := (RowSystem.mem_pivot_rows h.toWellFormed hent).mpr (.inl rfl)
      have hdeact := RowSystem.deactivate_sameVariables (RowSystem.pivot_correct h hent) hcol
      exact ⟨fun v => (hdeact.known v).trans (hsame.known v),
        hdeact.nextId.trans hsame.nextId, hdeact.expression.trans hsame.expression,
        hdeact.isOriginal.trans hsame.isOriginal,
        hdeact.isInteger.trans hsame.isInteger,
        hdeact.mOriginalVars.trans hsame.mOriginalVars,
        hdeact.mSlackVars.trans hsame.mSlackVars⟩
    · exact hsame

/-- What holds of the registered bounds in every run. -/
structure Registered (settings : TableauSettings) (t : Tableau) : Prop where
  correct : t.Correct settings.omit_division
  known : ∀ d bs, t.mConstraintToBound d = some bs → ∀ b ∈ bs, t.IsKnown b.var
  complement_known : ∀ b b', t.complement b = some b' → t.IsKnown b.var ∧ t.IsKnown b'.var
  negated : ∀ d, d.relation.IsInequality →
    (t.mConstraintToBound d).isSome → (t.mConstraintToBound d.negated).isSome
  not_translated : ∀ d, Misplaced d → ¬ t.Translated d

/-- All registered bounds are right. -/
structure Faithful (t : Tableau) : Prop where
  translated : ∀ d, (t.mConstraintToBound d).isSome → t.Translated d
  complements : ∀ b b', t.complement b = some b' → ∀ α, t.Meets α b' ↔ ¬ t.Meets α b

theorem KeepsEntries.meets (h : KeepsEntries t t') (α : Assignment) (b : Bound) :
    t'.Meets α b ↔ t.Meets α b := by
  rw [Meets, Meets, h.expression]

theorem KeepsEntries.translated (h : KeepsEntries t t') (d : LinearConstraint) :
    t'.Translated d ↔ t.Translated d := by
  simp only [Translated, h.meets, h.entries, h.complement]

theorem Registered.keeps (h : Registered settings t) (hkeeps : KeepsEntries t t')
    (hcorr : t'.Correct settings.omit_division) : Registered settings t' where
  correct := hcorr
  known d bs hd b hb := (hkeeps.known b.var).mpr (h.known d bs (hkeeps.entries ▸ hd) b hb)
  complement_known b b' hb :=
    (h.complement_known b b' (hkeeps.complement ▸ hb)).imp (hkeeps.known _).mpr (hkeeps.known _).mpr
  negated d hd hsome := by
    rw [hkeeps.entries] at hsome ⊢
    exact h.negated d hd hsome
  not_translated d hd := (hkeeps.translated d).not.mpr (h.not_translated d hd)

theorem Faithful.keeps (h : Faithful t) (hkeeps : KeepsEntries t t') : Faithful t' where
  translated d hd := (hkeeps.translated d).mpr (h.translated d (hkeeps.entries ▸ hd))
  complements b b' hb α := by
    rw [hkeeps.meets, hkeeps.meets]
    exact h.complements b b' (hkeeps.complement ▸ hb) α

theorem newBound_extends (h : t.Correct settings.omit_division) (c : LinearConstraint) :
    t.Extends (t.newBound c).toRowSystem := by
  rcases newBound_toRowSystem (t := t) c with heq | heq
  · exact heq ▸ RowSystem.Extends.refl _
  · exact heq ▸ (RowSystem.getVariable_spec c.lhs c.constantPart h).ext

theorem newBound_of_some (hsome : t.mConstraintToBound c = some bs) : t.newBound c = t := by
  rw [newBound, hsome]

/-- The values of known variables are the same when variables are created. -/
theorem newBound_meets (h : t.Correct settings.omit_division) {b : Bound} (hb : t.IsKnown b.var)
    (α : Assignment) : (t.newBound c).Meets α b ↔ t.Meets α b := by
  rw [Meets, Meets, (newBound_extends h c).expression b.var (h.known_lt b.var hb)]

namespace Registered

variable (h : Registered settings t)

include h

/-- The negation of an unknown inequality is unknown. -/
theorem negated_none (hnone : t.mConstraintToBound c = none) :
    t.mConstraintToBound c.negated = none ∨ c.relation = .eq ∨ c.relation = .neq := by
  by_cases hc : c.relation.IsInequality
  · refine .inl (not_isSome_iff_eq_none.mp fun hsome => ?_)
    have hback := h.negated c.negated hc.inverse hsome
    have hself : c.negated.negated = c := by
      rw [LinearConstraint.negated, LinearConstraint.negated]
      simp [LinearConstraint.withRelation]
    rw [hself, hnone] at hback
    cases hback
  · rw [Relation.IsInequality, not_and_or, not_not, not_not] at hc
    exact .inr hc

/-- A registered disequality keeps its meaning when bounds are created. -/
theorem translated_of_newBound (hnone : t.mConstraintToBound c = none)
    (hd : d.relation = .neq) (hbs : t.mConstraintToBound d = some bs)
    (htransl : (t.newBound c).Translated d) : t.Translated d := by
  have hspec := newBound_registers hnone (h.negated_none hnone)
  rw [Translated, hd] at htransl ⊢
  obtain ⟨less, leq, geq, greater, hent, hsat⟩ := htransl
  rw [(hspec.entry d bs).mpr (.inl hbs), some.injEq] at hent
  refine ⟨less, leq, geq, greater, hent ▸ hbs, fun α => ?_⟩
  have hknown := h.known d bs hbs
  rw [← newBound_meets h.correct (hknown less (hent ▸ by simp)) α,
    ← newBound_meets h.correct (hknown greater (hent ▸ by simp)) α]
  exact hsat α

theorem newBound (c : LinearConstraint) : Registered settings (t.newBound c) := by
  cases hnone : t.mConstraintToBound c with
  | some bs =>
    rw [newBound_of_some hnone]
    exact h
  | none =>
    have hspec := newBound_registers hnone (h.negated_none hnone)
    have href := newBound_reference h.correct hnone
    have hext := newBound_extends h.correct c
    constructor
    case correct => exact newBound_correct h.correct c
    case known =>
      intro d bs hd b hb
      rcases (hspec.entry d bs).mp hd with hd | ⟨-, hmem⟩
      · exact hext.known (h.known d bs hd b hb)
      · exact RowSystem.Reference.entries_var hmem hb ▸ href.known
    case complement_known =>
      intro b b' hb
      rcases (hspec.complement b b').mp hb with hmem | ⟨-, hb⟩
      · obtain ⟨hvar, hvar'⟩ := RowSystem.Reference.complements_var hmem
        exact ⟨hvar ▸ href.known, hvar' ▸ href.known⟩
      · exact (h.complement_known b b' hb).imp hext.known hext.known
    case negated =>
      intro d hd hsome
      obtain ⟨bs, hbs⟩ := isSome_iff_exists.mp hsome
      have hkept : ∀ es, t.mConstraintToBound d.negated = some es →
          ((t.newBound c).mConstraintToBound d.negated).isSome :=
        fun es hes => isSome_iff_exists.mpr ⟨es, (hspec.entry _ es).mpr (.inl hes)⟩
      cases hold : t.mConstraintToBound d.negated with
      | some es => exact hkept es hold
      | none =>
        rcases (hspec.entry d bs).mp hbs with hbs | ⟨-, hmem⟩
        · have hneg := h.negated d hd (isSome_iff_exists.mpr ⟨bs, hbs⟩)
          rw [hold] at hneg
          cases hneg
        · obtain ⟨es, hes⟩ := RowSystem.Reference.entries_negated hmem hd
          exact isSome_iff_exists.mpr ⟨es, (hspec.entry _ es).mpr (.inr ⟨hold, hes⟩)⟩
    case not_translated =>
      intro d hd htransl
      obtain ⟨bs, hbs⟩ : ∃ bs, (t.newBound c).mConstraintToBound d = some bs := by
        rw [Translated, hd.1] at htransl
        obtain ⟨less, leq, geq, greater, hent, -⟩ := htransl
        exact ⟨_, hent⟩
      rcases (hspec.entry d bs).mp hbs with hbs | ⟨-, hmem⟩
      · exact h.not_translated d hd (h.translated_of_newBound hnone hd.1 hbs htransl)
      · obtain ⟨rfl, -⟩ := RowSystem.Reference.entries_neq hmem hd.1
        exact newBound_not_translated h.correct hnone hd htransl

/-- All registered bounds stay right when the new constraint is not misplaced. -/
theorem faithful_newBound (hfaith : Faithful t) (hpl : ¬ Misplaced c) :
    Faithful (t.newBound c) := by
  cases hnone : t.mConstraintToBound c with
  | some bs =>
    rw [newBound_of_some hnone]
    exact hfaith
  | none =>
    have hspec := newBound_registers hnone (h.negated_none hnone)
    have hcompls : ∀ b b', (t.newBound c).complement b = some b' →
        ∀ α, (t.newBound c).Meets α b' ↔ ¬ (t.newBound c).Meets α b := by
      intro b b' hb α
      rcases (hspec.complement b b').mp hb with hmem | ⟨-, hb⟩
      · exact newBound_complements h.correct hnone hpl hmem α
      · obtain ⟨hknown, hknown'⟩ := h.complement_known b b' hb
        rw [newBound_meets h.correct hknown, newBound_meets h.correct hknown']
        exact hfaith.complements b b' hb α
    refine ⟨fun d hd => ?_, hcompls⟩
    obtain ⟨bs, hbs⟩ := isSome_iff_exists.mp hd
    rcases (hspec.entry d bs).mp hbs with hold | ⟨hold, hmem⟩
    · have htransl := hfaith.translated d (isSome_iff_exists.mpr ⟨bs, hold⟩)
      have hmeets : ∀ b ∈ bs, ∀ α, (t.newBound c).Meets α b ↔ t.Meets α b :=
        fun b hb α => newBound_meets h.correct (h.known d bs hold b hb) α
      by_cases hd : d.relation.IsInequality
      · rw [translated_iff_of_inequality hd] at htransl ⊢
        obtain ⟨b, b', hent, hb, hsat⟩ := htransl
        obtain rfl := some.inj (hold.symm.trans hent)
        -- the complement may have been replaced by another one
        obtain ⟨b'', hb''⟩ : ∃ b'', (t.newBound c).complement b = some b'' := by
          by_cases hnew : ∃ q ∈ (t.toRowSystem.getVariable c.lhs c.constantPart).1.complements c,
              q.1 = b
          · obtain ⟨q, hq, rfl⟩ := hnew
            exact ⟨q.2, (hspec.complement q.1 q.2).mpr (.inl hq)⟩
          · exact ⟨b', (hspec.complement b b').mpr (.inr ⟨fun q hq heq => hnew ⟨q, hq, heq⟩, hb⟩)⟩
        refine ⟨b, b'', hbs, hb'', fun α => ?_⟩
        rw [hcompls b b'' hb'', hmeets b (mem_singleton_self b)]
        exact ⟨(hsat α).1, not_congr (hsat α).1⟩
      · rw [Relation.IsInequality, not_and_or, not_not, not_not] at hd
        rcases hd with hd | hd
        · rw [Translated, hd] at htransl ⊢
          obtain ⟨b, hent, hsat⟩ := htransl
          obtain rfl := some.inj (hold.symm.trans hent)
          refine ⟨b, hbs, fun α => ?_⟩
          rw [hmeets b (mem_singleton_self b)]
          exact hsat α
        · rw [Translated, hd] at htransl ⊢
          obtain ⟨less, leq, geq, greater, hent, hsat⟩ := htransl
          obtain rfl := some.inj (hold.symm.trans hent)
          refine ⟨less, leq, geq, greater, hbs, fun α => ?_⟩
          rw [hmeets less (by simp), hmeets greater (by simp)]
          exact hsat α
    · exact newBound_translated h.correct hnone hpl (h.negated_none hnone) hmem hold

end Registered

/-! ## Runs -/

theorem registered_empty (p : LinearForm) : Registered settings (empty p) where
  correct := empty_correct p
  known _ _ hd := nomatch hd
  complement_known _ _ hb := nomatch hb
  negated _ _ hsome := nomatch hsome
  not_translated d hd htransl := by
    rw [Translated, hd.1] at htransl
    obtain ⟨_, _, _, _, hent, -⟩ := htransl
    cases hent

theorem rowStep_registered {action : RowAction} (h : Registered settings t)
    (hstep : t.rowStep settings action = some t') : Registered settings t' := by
  rcases rowStep_keepsEntries h.correct hstep with hkeeps | ⟨c, -, rfl⟩
  · exact h.keeps hkeeps (rowStep_correct action h.correct hstep)
  · exact h.newBound c

variable {actions : List RowAction}

/-- A constraint stays registered. -/
theorem run_entry (h : Registered settings t) (hc : t.mConstraintToBound c = some bs)
    (hrun : run (rowStep settings) t actions = some t') : t'.mConstraintToBound c = some bs := by
  induction actions generalizing t with
  | nil =>
    cases hrun
    exact hc
  | cons action actions ih =>
    obtain ⟨t₁, hstep, hrun⟩ := run_cons.mp hrun
    refine ih (rowStep_registered h hstep) ?_ hrun
    rcases rowStep_keepsEntries h.correct hstep with hkeeps | ⟨d, -, rfl⟩
    · exact hkeeps.entries ▸ hc
    · cases hnone : t.mConstraintToBound d with
      | some es => rwa [newBound_of_some hnone]
      | none => exact ((newBound_registers hnone (h.negated_none hnone)).entry c bs).mpr (.inl hc)

/-- A constraint is registered once `newBound` was called for it. -/
theorem newBound_isSome (h : Registered settings t) (c : LinearConstraint) :
    ∃ bs, (t.newBound c).mConstraintToBound c = some bs := by
  cases hnone : t.mConstraintToBound c with
  | some bs => exact ⟨bs, by rwa [newBound_of_some hnone]⟩
  | none =>
    have hspec := newBound_registers hnone (h.negated_none hnone)
    obtain ⟨bs, hmem⟩ := (t.toRowSystem.getVariable c.lhs c.constantPart).1.entries_self c
    exact ⟨bs, (hspec.entry c bs).mpr (.inr ⟨hnone, hmem⟩)⟩

theorem run_newBound (h : Registered settings t)
    (hc : .newBound c ∈ actions) (hrun : run (rowStep settings) t actions = some t') :
    (t'.mConstraintToBound c).isSome := by
  induction actions generalizing t with
  | nil => cases hc
  | cons action actions ih =>
    obtain ⟨t₁, hstep, hrun⟩ := run_cons.mp hrun
    rcases mem_cons.mp hc with rfl | hc
    · cases hstep
      obtain ⟨bs, hbs⟩ := newBound_isSome h c
      exact isSome_iff_exists.mpr ⟨bs, run_entry (h.newBound c) hbs hrun⟩
    · exact ih (rowStep_registered h hstep) hc hrun

theorem run_faithful (h : Registered settings t)
    (hfaith : Faithful t) (hpl : ∀ c, .newBound c ∈ actions → ¬ Misplaced c)
    (hrun : run (rowStep settings) t actions = some t') : Faithful t' := by
  induction actions generalizing t with
  | nil =>
    cases hrun
    exact hfaith
  | cons action actions ih =>
    obtain ⟨t₁, hstep, hrun⟩ := run_cons.mp hrun
    have hpl' := fun c hc => hpl c (mem_cons_of_mem action hc)
    refine ih (rowStep_registered h hstep) ?_ hpl' hrun
    rcases rowStep_keepsEntries h.correct hstep with hkeeps | ⟨c, rfl, rfl⟩
    · exact hfaith.keeps hkeeps
    · exact h.faithful_newBound hfaith (hpl c mem_cons_self)

/-- In every tableau that is reached, a constraint that is not registered yet is translated
exactly if it is not misplaced, and all registered constraints are translated exactly if none of
those the tableau was asked to register is misplaced. -/
theorem translated_iff_placed (settings : TableauSettings) (p : LinearForm)
    (actions : List RowAction) (t : Tableau)
    (hrun : run (rowStep settings) (empty p) actions = some t) :
    (∀ c, t.mConstraintToBound c = none → ((t.newBound c).Translated c ↔ ¬ Misplaced c)) ∧
      ((∀ c, (t.mConstraintToBound c).isSome → t.Translated c) ↔
        ∀ c, .newBound c ∈ actions → ¬ Misplaced c) := by
  have hreg :=
    run_invariant (fun _ _ _ h hstep => rowStep_registered h hstep) (registered_empty p) hrun
  constructor
  · intro c hnone
    constructor
    · exact fun htransl hc => newBound_not_translated hreg.correct hnone hc htransl
    · intro hpl
      obtain ⟨bs, hmem⟩ := (t.toRowSystem.getVariable c.lhs c.constantPart).1.entries_self c
      exact newBound_translated hreg.correct hnone hpl (hreg.negated_none hnone) hmem hnone
  · constructor
    · intro htransl c hc hmisplaced
      have hsome := run_newBound (registered_empty p) hc hrun
      exact hreg.not_translated c hmisplaced (htransl c hsome)
    · exact fun hpl => (run_faithful (registered_empty p) ⟨fun _ hd => (nomatch hd), fun _ _ hb => nomatch hb⟩ hpl hrun).translated

/-- The disequality `-x ≠ 0` over an integer variable. -/
def negativeDisequality : LinearConstraint where
  lhs := (LinearForm.ofVar ⟨0, true⟩).smul (-1) (by decide)
  constantPart := 0
  relation := .neq
  integral _ := by
    rw [zero_mul]
    rfl

/-- Its bounds hold of zero, too. -/
theorem not_translated_negativeDisequality :
    ¬ ((empty negativeDisequality.lhs).newBound negativeDisequality).Translated
      negativeDisequality := by
  have hcorr : (empty negativeDisequality.lhs).Correct TableauSettings1.omit_division :=
    empty_correct _
  exact newBound_not_translated hcorr rfl ⟨rfl, rfl, by decide +kernel⟩

/-- The bounds of `2x + 3y - 6 ≤ 0` after a pivoting step. -/
theorem translated_iff_placed_sample : samplePivoted.Translated sampleConstraint := by
  have hrun : run (rowStep TableauSettings1) (empty sampleForm) [.newBound sampleConstraint,
      .activateBound ⟨0, .upper, some ⟨6, 0⟩⟩ (.constraint sampleConstraint), .pivot ⟨0, 1⟩] =
        some samplePivoted := by
    simp only [run, rowStep, bind_some]
    rw [if_pos (by decide +kernel)]
    rfl
  refine (translated_iff_placed _ _ _ _ hrun).2.mpr ?_ sampleConstraint (by decide +kernel)
  intro c hc
  simp only [mem_cons, not_mem_nil, or_false, RowAction.newBound.injEq, reduceCtorEq] at hc
  subst hc
  exact fun h => absurd h.1 (by decide)

end Steps

end Tableau

end Smtrat.LRA
