import Smtrat.BV.EncoderCorrect

/-!
# Bit-blasting is correct, and every returned set stands alone

The steps of the encoder compose to the encoding of a term, of a constraint and of an input
formula, whatever was encoded before.  `encodeTerm_correct` says what the bits of a term mean in
the models of the formulas asserted for it, and `encode_self_contained` that a returned set
contains the definitions of the variables it mentions and is equisatisfiable with its input.
-/

namespace Smtrat.BV

open PropFormula Circuit List Function Option

variable {β : Type}

/-! ## Input formulas -/

/-- The value of an input formula's atom. -/
def InputAtom.value (γ : β → Bool) (ν : BVAssignment) : InputAtom β → Bool
  | .bool b => γ b
  | .constraint c => c.value ν

/-- All constraints of the formula are well formed. -/
def WellFormed (f : Formula (InputAtom β)) : Prop :=
  ∀ c, f.Mentions (.constraint c) → c.WellFormed

/-- The owners an input formula needs. -/
def Needs (f : Formula (InputAtom β)) (o : Owner) : Prop :=
  ∃ c, f.Mentions (.constraint c) ∧ o ∈ (Owner.constraint c).parts

namespace BVDirectEncoder

variable (pool : FormulaPool (Atom β)) {s s' : BVDirectEncoder β} {P : Owner → Prop}

/-! ## Terms -/

/-- After encoding a term its bits have its value wherever the files of its parts hold. -/
theorem encodeTerm_encoded (hs : Inv s) {t : BVTerm} (ht : t.WellFormed) :
    Encoded s (encodeTerm pool t s).2 (· ∈ termParts t) ∧ ∀ ν α,
      Denotes ((encodeTerm pool t s).2.world (· ∈ termParts t) ν α) (encodeTerm pool t s).1
        (t.value ν) := by
  induction t generalizing s with
  | constant value =>
    have honce := encodeOnce_encoded (P := fun _ => False) (t := .constant value)
      (m := encodeConstant pool value) hs
      (fun _ h => h.elim) fun _ _ => encodeConstant_realizes value
    exact ⟨honce.1.congr fun p => mem_singleton.symm, honce.2⟩
  | var x =>
    have honce := encodeOnce_variable_encoded hs x
    exact ⟨honce.1.congr fun p => mem_singleton.symm, honce.2⟩
  | extract operand highest lowest ih =>
    obtain ⟨hop, hle, hlt⟩ := ht
    obtain ⟨henc, hden⟩ := ih hs hop
    have honce := encodeOnce_encoded (t := .extract operand highest lowest)
      (m := encodeExtract pool _ highest lowest) henc.inv
      (fun p hp => mem_cons_of_mem _ hp)
      fun ν α => encodeExtract_realizes (hden ν α) hle hlt
    refine ⟨(henc.trans honce.1).congr fun p => ?_, honce.2⟩
    rw [termParts, mem_cons, or_comm]
  | unary op operand ih =>
    obtain ⟨henc, hden⟩ := ih hs ht.1
    have honce := encodeOnce_encoded (t := .unary op operand)
      (m := encodeUnary pool op _) henc.inv
      (fun p hp => mem_cons_of_mem _ hp)
      fun ν α => encodeUnary_realizes op ht.1.width_pos (hden ν α)
    refine ⟨(henc.trans honce.1).congr fun p => ?_, honce.2⟩
    rw [termParts, mem_cons, or_comm]
  | binary op first second ih₁ ih₂ =>
    obtain ⟨hfst, hsnd, hop⟩ := ht
    obtain ⟨henc₁, hden₁⟩ := ih₁ hs hfst
    obtain ⟨henc₂, hden₂⟩ := ih₂ henc₁.inv hsnd
    have honce := encodeOnce_encoded (t := .binary op first second)
      (P := (· ∈ termParts first ++ termParts second))
      (m := encodeBinary pool op _ _) henc₂.inv
      (fun p hp => mem_cons_of_mem _ hp)
      fun ν α => encodeBinary_realizes op hfst.width_pos hop
        (henc₂.extend.denotes (fun p hp => mem_append_left _ hp) (hden₁ ν α))
        ((Extends.refl _).denotes (fun p hp => mem_append_right _ hp) (hden₂ ν α))
    refine ⟨((henc₁.trans henc₂).trans honce.1).congr fun p => ?_, honce.2⟩
    rw [termParts, mem_cons, mem_append, or_comm]

/-! ## Constraints -/

theorem finished_constraint (hs : Inv s) {c : BVConstraint} (h : s.mConstraintEncodings c = none)
    (m : Circuit β (Bit β)) :
    Finished s { (perform m { s with mCurrentConstraint := some c }).2 with
        mConstraintBits := update
          (perform m { s with mCurrentConstraint := some c }).2.mConstraintBits c
          (some (perform m { s with mCurrentConstraint := some c }).1)
        mCurrentConstraint := none } (.constraint c) (m s.next) := by
  let s₁ : BVDirectEncoder β := { s with mCurrentConstraint := some c }
  have howner : s₁.owner = some (.constraint c) := by simp [s₁, owner, hs.currentTerm]
  have hfiles := perform_files s₁ howner m
  have hnone : (s₁.introduce (m s₁.next).next).encodings (.constraint c) = [] := by
    rw [encodings]
    change (s.mConstraintEncodings c).getD [] = []
    rw [h]
    rfl
  refine ⟨hfiles.next, hfiles.introduced.trans ?_, hfiles.bitVecBits, ?_, rfl, hfiles.current,
    hfiles.other, ?_, fun u _ => ?_, fun d hd => ?_⟩
  · rw [introduce, howner]
  · exact hfiles.currentTerm.trans hs.currentTerm
  · have hown := hfiles.own
    rwa [hnone, nil_append] at hown
  · exact congrFun hfiles.termBits u
  · refine (update_of_ne ?_ _ _).trans (congrFun hfiles.constraintBits d)
    rintro rfl
    exact hd rfl

theorem encodeConstraint_encoded (hs : Inv s) {c : BVConstraint} (hc : c.WellFormed) :
    Encoded s (encodeConstraint pool c s).2 (· ∈ (Owner.constraint c).parts) ∧ ∀ ν α,
      Holds ((encodeConstraint pool c s).2.world (· ∈ (Owner.constraint c).parts) ν α)
        (encodeConstraint pool c s).1 (c.value ν) := by
  obtain ⟨hlhs, hrhs, hwidth⟩ := hc
  obtain ⟨henc₁, hden₁⟩ := encodeTerm_encoded pool hs hlhs
  obtain ⟨henc₂, hden₂⟩ := encodeTerm_encoded pool henc₁.inv hrhs
  have henc := (henc₁.trans henc₂).congr (Q := (· ∈ termParts c.lhs ++ termParts c.rhs))
    fun p => mem_append.symm
  have hparts : ∀ p, (p ∈ termParts c.lhs ++ termParts c.rhs ∨ p = .constraint c) ↔
      p ∈ (Owner.constraint c).parts := fun p => by rw [Owner.parts, mem_cons, or_comm]
  unfold encodeConstraint
  dsimp only
  set s₁ := (encodeTerm pool c.rhs (encodeTerm pool c.lhs s).2).2 with hs₁
  cases h : s₁.mConstraintEncodings c with
  | some fs =>
    have hfs : fs = s₁.encodings (.constraint c) := by simp [encodings, lookup, h]
    have hreplay := encoded_replay henc.inv (.constraint c)
    dsimp only
    rw [hfs]
    refine ⟨(henc.trans hreplay).congr hparts, fun ν α => ?_⟩
    exact hreplay.extend.holds (fun _ => id) (henc.inv.constraint c (by rw [h]; rfl) ν α)
  | none =>
    dsimp only
    have hdone := finished_constraint henc.inv h
      (encodeRelation pool c.relation (encodeTerm pool c.lhs s).1
        (encodeTerm pool c.rhs (encodeTerm pool c.lhs s).2).1)
    have hm : ∀ ν α, Realizes (encodeRelation pool c.relation (encodeTerm pool c.lhs s).1
        (encodeTerm pool c.rhs (encodeTerm pool c.lhs s).2).1)
        (s₁.world (· ∈ termParts c.lhs ++ termParts c.rhs) ν α) True
        fun out v => Holds v out (c.value ν) := fun ν α =>
      encodeRelation_realizes c.relation hlhs.width_pos
        (henc₂.extend.denotes (fun p hp => mem_append_left _ hp) (hden₁ ν α))
        (((Extends.refl _).denotes (fun p hp => mem_append_right _ hp)
          (hden₂ ν α)).setWidth hwidth.symm)
    have hP : ∀ p, p ∈ termParts c.lhs ++ termParts c.rhs → p ∈ (Owner.constraint c).parts :=
      fun p hp => mem_cons_of_mem _ hp
    have hres := fun ν α => result_realized (o := .constraint c) h hP hm
      (fun _ _ _ _ hval hlive hcov => holds_transfer hval hlive hcov) hdone ν α
    have hstep := encoded_perform (o := .constraint c) henc.inv h hP hm hdone
      (fun u hu => by cases hu)
      fun d hd ν α => by
        obtain rfl := Owner.constraint.inj hd
        simp only [update_self, getD_some]
        exact hres ν α
    exact ⟨(henc.trans hstep).congr hparts, hres⟩

/-! ## Formulas -/

theorem holds_named (P : Owner → Prop) (ν : BVAssignment) (α : Atom β → Bool) (b : β) :
    Holds (s.world P ν α) (.atom (.named b)) (α (.named b)) := by
  refine ⟨covers_world.mpr fun a ha => ?_, fun _ => Formula.eval_atom _ _⟩
  obtain rfl := (Formula.mentions_atom _ _).mp ha
  exact ⟨trivial, trivial⟩

/-- The formula passed for an input formula has its value wherever the files it needs hold. -/
theorem encodeBVConstraints_encoded (f : Formula (InputAtom β)) (hf : WellFormed f) (hs : Inv s) :
    Encoded s (encodeBVConstraints pool f s).2 (Needs f) ∧ ∀ ν α,
      Holds ((encodeBVConstraints pool f s).2.world (Needs f) ν α)
        (encodeBVConstraints pool f s).1
        (f.eval (InputAtom.value (fun b => α (.named b)) ν)) := by
  induction f using Formula.induction generalizing s with
  | hconst b =>
    rw [encodeBVConstraints]
    refine ⟨(Encoded.refl hs).congr fun p => ⟨False.elim, ?_⟩, fun ν α => ?_⟩
    · rintro ⟨c, hc, -⟩
      exact Formula.mentions_const _ b hc
    · rw [Formula.eval_const]
      exact holds_const _ b
  | hatom a =>
    cases a with
    | bool b =>
      rw [encodeBVConstraints]
      refine ⟨(Encoded.refl hs).congr fun p => ⟨False.elim, ?_⟩, fun ν α => ?_⟩
      · rintro ⟨c, hc, -⟩
        cases (Formula.mentions_atom _ _).mp hc
      · rw [Formula.eval_atom]
        exact holds_named _ ν α b
    | constraint c =>
      rw [encodeBVConstraints]
      have hneeds : ∀ p, p ∈ (Owner.constraint c).parts ↔ Needs (.atom (.constraint c) :
          Formula (InputAtom β)) p := by
        intro p
        constructor
        · exact fun hp => ⟨c, (Formula.mentions_atom _ _).mpr rfl, hp⟩
        · rintro ⟨d, hd, hp⟩
          obtain rfl := InputAtom.constraint.inj ((Formula.mentions_atom _ _).mp hd)
          exact hp
      obtain ⟨henc, hholds⟩ := encodeConstraint_encoded pool hs
        (hf c ((Formula.mentions_atom _ _).mpr rfl))
      refine ⟨henc.congr hneeds, fun ν α => ?_⟩
      rw [Formula.eval_atom]
      exact (Extends.refl _).holds (fun p hp => (hneeds p).mp hp) (hholds ν α)
  | happ op fs ih =>
    -- the subformulas are encoded from left to right
    have hall : ∀ gs : List (Formula (InputAtom β)), (∀ g ∈ gs, g ∈ fs) →
        ∀ {s : BVDirectEncoder β}, Inv s →
        Encoded s (encodeAllBVConstraints pool gs s).2 (fun o => ∃ g ∈ gs, Needs g o) ∧
          ∀ ν α, List.Forall₂ (Holds ((encodeAllBVConstraints pool gs s).2.world
            (fun o => ∃ g ∈ gs, Needs g o) ν α)) (encodeAllBVConstraints pool gs s).1
            (gs.map (Formula.eval (InputAtom.value (fun b => α (.named b)) ν))) := by
      intro gs
      induction gs with
      | nil =>
        intro _ s hs
        rw [encodeAllBVConstraints]
        refine ⟨(Encoded.refl hs).congr fun p => ⟨False.elim, ?_⟩, fun _ _ => .nil⟩
        rintro ⟨g, hg, -⟩
        cases hg
      | cons g gs ihgs =>
        intro hmem s hs
        have hg := hmem g mem_cons_self
        obtain ⟨henc₁, hholds₁⟩ := ih g hg
          (fun c hc => hf c ((Formula.mentions_app _ _ _).mpr ⟨g, hg, hc⟩)) hs
        obtain ⟨henc₂, hholds₂⟩ := ihgs (fun g' hg' => hmem g' (mem_cons_of_mem _ hg')) henc₁.inv
        rw [encodeAllBVConstraints]
        refine ⟨(henc₁.trans henc₂).congr fun p => ?_, fun ν α => ?_⟩
        · simp
        · refine .cons ?_ ((hholds₂ ν α).imp fun f b h => ?_)
          · exact henc₂.extend.holds (fun p hp => ⟨g, mem_cons_self, hp⟩) (hholds₁ ν α)
          · refine (Extends.refl _).holds (fun p hp => ?_) h
            obtain ⟨g', hg', hp⟩ := hp
            exact ⟨g', mem_cons_of_mem _ hg', hp⟩
    have hneeds : ∀ p, (∃ g ∈ fs, Needs g p) ↔ Needs (.app op fs) p := by
      intro p
      simp only [Needs, Formula.mentions_app]
      constructor
      · rintro ⟨g, hg, c, hc, hp⟩
        exact ⟨c, ⟨g, hg, hc⟩, hp⟩
      · rintro ⟨c, ⟨g, hg, hc⟩, hp⟩
        exact ⟨g, hg, c, hc, hp⟩
    obtain ⟨henc, hholds⟩ := hall fs (fun _ => id) hs
    rw [encodeBVConstraints]
    refine ⟨henc.congr hneeds, fun ν α => ?_⟩
    rw [Formula.eval_app]
    exact (Extends.refl _).holds (fun p hp => (hneeds p).mp hp) (holds_create (hholds ν α))

/-! ## Sequences of calls -/

theorem inv_empty : Inv ({} : BVDirectEncoder β) where
  currentTerm := rfl
  currentConstraint := rfl
  bits_length := by rintro x xs ⟨⟩
  bits_below := by rintro v ⟨x, xs, ⟨⟩, -⟩
  bits_distinct := by rintro x y xs ys i j ⟨⟩
  introduced_below := by rintro v o ⟨⟩
  introduced_unique := by rintro v o p ⟨⟩
  known := by
    intro o f hf
    cases o <;> cases hf
  term := by rintro t ⟨⟩
  constraint := by rintro c ⟨⟩
  satisfiable α := by
    refine ⟨α, fun _ => rfl, fun _ _ => rfl, fun o f hf => ?_⟩
    cases o <;> cases hf

/-- The invariant holds after every sequence of calls. -/
theorem inv_encodeAll {inputFormulas : List (Formula (InputAtom β))}
    (hf : ∀ f ∈ inputFormulas, WellFormed f) : Inv (encodeAll pool inputFormulas) := by
  have hfold : ∀ (s : BVDirectEncoder β), Inv s →
      Inv (inputFormulas.foldl (fun s f => (encode pool f s).2) s) := by
    induction inputFormulas with
    | nil => exact fun s hs => hs
    | cons f fs ih =>
      intro s hs
      exact ih (fun g hg => hf g (mem_cons_of_mem _ hg)) _
        ((encodeBVConstraints_encoded pool f (hf f mem_cons_self) (hs.setCurrent [])).1.inv.setCurrent _)
  exact hfold {} inv_empty

/-- For every assignment there are bits, and a model of all files over them. -/
theorem exists_model (hs : Inv s) (γ : β → Bool) (ν : BVAssignment) :
    ∃ α : Atom β → Bool, (∀ b, α (.named b) = γ b) ∧ s.Matches ν α ∧
      ∀ o, Models α (s.encodings o) := by
  classical
  -- each bit belongs to one position of one variable
  let α₀ (a : Atom β) : Bool := a.casesOn γ fun v =>
    decide (∃ x xs i, s.mBitVecBits x = some xs ∧ i < x.width ∧ xs.getD i 0 = v ∧
      (ν x).getLsbD i = true)
  have hα₀ : s.Matches ν α₀ := by
    intro x xs hx i hi
    change decide _ = _
    cases hbit : (ν x).getLsbD i with
    | true => exact decide_eq_true ⟨x, xs, i, hx, hi, rfl, hbit⟩
    | false =>
      refine decide_eq_false ?_
      rintro ⟨y, ys, j, hy, hj, hij, htrue⟩
      obtain ⟨rfl, rfl⟩ := hs.bits_distinct y x ys xs j i hy hx hj hi hij
      rw [hbit] at htrue
      cases htrue
  obtain ⟨α, hnamed, hbits, hmods⟩ := hs.satisfiable α₀
  refine ⟨α, hnamed, fun x xs hx i hi => ?_, hmods⟩
  have hi' : i < xs.length := (hs.bits_length x xs hx).symm ▸ hi
  have hmem : xs.getD i 0 ∈ xs := by
    rw [getD_eq_getElem _ _ hi']
    exact getElem_mem hi'
  rw [hbits _ ⟨x, xs, hx, hmem⟩]
  exact hα₀ x xs hx i hi

/-- Whatever was encoded before, the formulas asserted while a well-formed term is encoded have a
model over every assignment of the bit-vector variables, and in each of their models over an
assignment the returned bits are those of the term's value. -/
theorem encodeTerm_correct (inputFormulas : List (Formula (InputAtom β)))
    (hinput : ∀ f ∈ inputFormulas, WellFormed f) (t : BVTerm) (ht : t.WellFormed) :
    let r := encodeTerm pool t { encodeAll pool inputFormulas with mCurrentEncodings := [] }
    ∀ ν : BVAssignment,
      (∃ α, r.2.Matches ν α ∧ Models α r.2.mCurrentEncodings) ∧
        ∀ α, r.2.Matches ν α → Models α r.2.mCurrentEncodings →
          r.1.map (Formula.eval α) = (List.range t.width).map (t.value ν).getLsbD := by
  intro r ν
  have hinv := (inv_encodeAll pool hinput).setCurrent []
  obtain ⟨henc, hden⟩ := encodeTerm_encoded pool hinv ht
  constructor
  · obtain ⟨α, -, hα, hmods⟩ := exists_model henc.inv (fun _ => false) ν
    refine ⟨α, hα, fun f hf => ?_⟩
    rcases henc.only f hf with hf | ⟨p, -, hf⟩
    · cases hf
    · exact hmods p f hf
  · intro α hα hmods
    obtain ⟨hlen, hbits⟩ := hden ν α
    refine ext_getElem (by simp [r, hlen]) fun i h₁ h₂ => ?_
    have hi : i < t.width := by simpa using h₂
    have hbit := (hbits i hi).2 ⟨hα, fun p hp f hf => hmods f (henc.replayed p hp hf)⟩
    rw [getD_eq_getElem _ _ (by rwa [hlen])] at hbit
    rw [getElem_map, getElem_map, getElem_range]
    exact hbit

/-- The division of two variables of width two, by a divisor that may be zero. -/
def divisionTerm : BVTerm := .binary .divU (.var ⟨0, 2⟩) (.var ⟨1, 2⟩)

/-- `x / y ≤ x` and a Boolean variable. -/
def divisionFormula : Formula (InputAtom ℕ) :=
  .app .and [.atom (.bool 0), .atom (.constraint ⟨.ule, divisionTerm, .var ⟨0, 2⟩⟩)]

theorem wellFormed_divisionFormula : WellFormed divisionFormula := by
  intro c hc
  simp only [divisionFormula, Formula.mentions_app, mem_cons, not_mem_nil, or_false,
    exists_eq_or_imp, exists_eq_left, Formula.mentions_atom, reduceCtorEq, false_or,
    InputAtom.constraint.injEq] at hc
  subst hc
  decide

theorem wellFormed_divisionTerm : divisionTerm.WellFormed := by decide

attribute [local irreducible] encodeTerm encodeAll in
/-- The quotient of two variables after a formula that contains it has been encoded. -/
theorem encodeTerm_correct_divisionTerm :
    divisionTerm.WellFormed ∧
      let r := encodeTerm (FormulaPool.verbatim (Atom ℕ)) divisionTerm
        { encodeAll (FormulaPool.verbatim (Atom ℕ)) [divisionFormula] with mCurrentEncodings := [] }
      ∀ ν : BVAssignment,
        (∃ α, r.2.Matches ν α ∧ Models α r.2.mCurrentEncodings) ∧
          ∀ α, r.2.Matches ν α → Models α r.2.mCurrentEncodings →
            r.1.map (Formula.eval α) =
              (List.range divisionTerm.width).map (divisionTerm.value ν).getLsbD := by
  have hinput : ∀ f ∈ [divisionFormula], WellFormed f := fun f hf =>
    (mem_singleton.mp hf).symm ▸ wellFormed_divisionFormula
  refine ⟨wellFormed_divisionTerm, ?_⟩
  exact encodeTerm_correct (FormulaPool.verbatim (Atom ℕ)) [divisionFormula] hinput divisionTerm
    wellFormed_divisionTerm

/-- Whatever was encoded before, the formulas asserted while a well-formed constraint is encoded
have a model over every assignment of the bit-vector variables, and in each of their models over an
assignment the returned bit is true exactly if the values of the two sides compare. -/
theorem encodeConstraint_correct (inputFormulas : List (Formula (InputAtom β)))
    (hinput : ∀ f ∈ inputFormulas, WellFormed f) (relation : BVCompareRelation) (lhs rhs : BVTerm)
    (hlhs : lhs.WellFormed) (hrhs : rhs.WellFormed) (hwidth : lhs.width = rhs.width) :
    let r := encodeConstraint pool ⟨relation, lhs, rhs⟩
      { encodeAll pool inputFormulas with mCurrentEncodings := [] }
    ∀ ν : BVAssignment,
      (∃ α, r.2.Matches ν α ∧ Models α r.2.mCurrentEncodings) ∧
        ∀ α, r.2.Matches ν α → Models α r.2.mCurrentEncodings →
          (r.1.eval α = true ↔ relation.Compares (lhs.value ν) ((rhs.value ν).cast hwidth.symm)) := by
  intro r ν
  have hinv := (inv_encodeAll pool hinput).setCurrent []
  obtain ⟨henc, hholds⟩ := encodeConstraint_encoded pool hinv
    (c := ⟨relation, lhs, rhs⟩) ⟨hlhs, hrhs, hwidth⟩
  constructor
  · obtain ⟨α, -, hα, hmods⟩ := exists_model henc.inv (fun _ => false) ν
    refine ⟨α, hα, fun f hf => ?_⟩
    rcases henc.only f hf with hf | ⟨p, -, hf⟩
    · cases hf
    · exact hmods p f hf
  · intro α hα hmods
    have hbit : r.1.eval α = BVConstraint.value ν ⟨relation, lhs, rhs⟩ :=
      (hholds ν α).2 ⟨hα, fun p hp f hf => hmods f (henc.replayed p hp hf)⟩
    rw [hbit, BVConstraint.value, BVCompareRelation.value_eq_true_iff, setWidth_eq_cast hwidth.symm]

attribute [local irreducible] encodeConstraint encodeAll in
/-- The quotient of two variables is compared, as a signed value, with the first of them, after a
formula that contains the quotient has been encoded. -/
theorem encodeConstraint_correct_divisionTerm :
    divisionTerm.WellFormed ∧
      let r := encodeConstraint (FormulaPool.verbatim (Atom ℕ)) ⟨.slt, divisionTerm, .var ⟨0, 2⟩⟩
        { encodeAll (FormulaPool.verbatim (Atom ℕ)) [divisionFormula] with mCurrentEncodings := [] }
      ∀ ν : BVAssignment,
        (∃ α, r.2.Matches ν α ∧ Models α r.2.mCurrentEncodings) ∧
          ∀ α, r.2.Matches ν α → Models α r.2.mCurrentEncodings →
            (r.1.eval α = true ↔ BVCompareRelation.slt.Compares (divisionTerm.value ν)
              (((BVTerm.var ⟨0, 2⟩).value ν).cast rfl)) := by
  have hinput : ∀ f ∈ [divisionFormula], WellFormed f := fun f hf =>
    (mem_singleton.mp hf).symm ▸ wellFormed_divisionFormula
  refine ⟨wellFormed_divisionTerm, ?_⟩
  exact encodeConstraint_correct (FormulaPool.verbatim (Atom ℕ)) [divisionFormula] hinput .slt
    divisionTerm (.var ⟨0, 2⟩) wellFormed_divisionTerm (by decide) rfl

/-- Whatever was encoded before, a returned set contains everything asserted for the variables it
mentions, bits of bit-vector variables apart, and it is satisfiable over an assignment of the
Boolean and the bit-vector variables exactly if the input formula is true there. -/
theorem encode_self_contained (inputFormulas : List (Formula (InputAtom β)))
    (inputFormula : Formula (InputAtom β))
    (hinput : ∀ f ∈ inputFormula :: inputFormulas, WellFormed f) :
    let r := encode pool inputFormula (encodeAll pool inputFormulas)
    (∀ f ∈ r.1, ∀ v, f.Mentions (.fresh v) → ¬ r.2.IsBit v →
        (∃ o, (v, some o) ∈ r.2.mIntroducedVariables) ∧
          ∀ o, (v, some o) ∈ r.2.mIntroducedVariables → ∀ g ∈ r.2.encodings o, g ∈ r.1) ∧
      ∀ (γ : β → Bool) (ν : BVAssignment),
        inputFormula.eval (InputAtom.value γ ν) = true ↔
          ∃ α, (∀ b, α (.named b) = γ b) ∧ r.2.Matches ν α ∧ Models α r.1 := by
  intro r
  have hinv := (inv_encodeAll pool fun f hf => hinput f (mem_cons_of_mem _ hf)).setCurrent []
  obtain ⟨henc, hholds⟩ :=
    encodeBVConstraints_encoded pool inputFormula (hinput _ mem_cons_self) hinv
  set s₁ := (encodeBVConstraints pool inputFormula
    { encodeAll pool inputFormulas with mCurrentEncodings := [] }).2 with hs₁
  set passedFormula := (encodeBVConstraints pool inputFormula
    { encodeAll pool inputFormulas with mCurrentEncodings := [] }).1 with hpass
  have hr : r.1 = s₁.mCurrentEncodings ++ [passedFormula] := rfl
  have hneeded : ∀ p, Needs inputFormula p → ∀ g ∈ s₁.encodings p, g ∈ r.1 :=
    fun p hp g hg => hr ▸ mem_append_left _ (henc.replayed p hp hg)
  have hparts : ∀ {o p}, Needs inputFormula o → p ∈ o.parts → Needs inputFormula p := by
    rintro o p ⟨c, hc, ho⟩ hp
    exact ⟨c, hc, Owner.parts_trans ho hp⟩
  constructor
  · intro f hf v hv hbit
    have hknown : s₁.Known (Needs inputFormula) (.fresh v) := by
      rw [hr] at hf
      rcases mem_append.mp hf with hf | hf
      · rcases henc.only f hf with hf | ⟨p, hp, hf⟩
        · cases hf
        · exact (Extends.refl s₁).known (fun q hq => hparts hp hq) (henc.inv.known p f hf _ hv)
      · obtain rfl := mem_singleton.mp hf
        exact (covers_world.mp (hholds (fun _ => 0) fun _ => false).1 _ hv).1
    rcases hknown with hv | ⟨o, ho, hv⟩
    · exact absurd hv hbit
    · refine ⟨⟨o, hv⟩, fun p hp => ?_⟩
      obtain rfl := some.inj (henc.inv.introduced_unique v _ _ hv hp)
      exact hneeded o ho
  · intro γ ν
    have hval : ∀ α : Atom β → Bool, (∀ b, α (.named b) = γ b) → s₁.Matches ν α →
        (∀ p, Needs inputFormula p → Models α (s₁.encodings p)) →
        passedFormula.eval α = inputFormula.eval (InputAtom.value γ ν) := by
      intro α hα hmatches hmods
      have heval := (hholds ν α).2 ⟨hmatches, hmods⟩
      rwa [funext hα] at heval
    constructor
    · intro htrue
      obtain ⟨α, hα, hmatches, hmods⟩ := exists_model henc.inv γ ν
      refine ⟨α, hα, hmatches, fun f hf => ?_⟩
      rw [hr] at hf
      rcases mem_append.mp hf with hf | hf
      · rcases henc.only f hf with hf | ⟨p, -, hf⟩
        · cases hf
        · exact hmods p f hf
      · obtain rfl := mem_singleton.mp hf
        rw [hval α hα hmatches fun p _ => hmods p, htrue]
    · rintro ⟨α, hα, hmatches, hmods⟩
      rw [← hval α hα hmatches fun p hp f hf => hmods f (hneeded p hp f hf)]
      exact hmods _ (hr ▸ mem_append_right _ (mem_singleton.mpr rfl))

attribute [local irreducible] encode encodeAll in
/-- The second of two calls on one formula replays what the first one filed. -/
theorem encode_self_contained_divisionFormula :
    WellFormed divisionFormula ∧
      let r := encode (FormulaPool.verbatim (Atom ℕ)) divisionFormula
        (encodeAll (FormulaPool.verbatim (Atom ℕ)) [divisionFormula])
      (∀ f ∈ r.1, ∀ v, f.Mentions (.fresh v) → ¬ r.2.IsBit v →
          (∃ o, (v, some o) ∈ r.2.mIntroducedVariables) ∧
            ∀ o, (v, some o) ∈ r.2.mIntroducedVariables → ∀ g ∈ r.2.encodings o, g ∈ r.1) ∧
        ∀ (γ : ℕ → Bool) (ν : BVAssignment),
          divisionFormula.eval (InputAtom.value γ ν) = true ↔
            ∃ α, (∀ b, α (.named b) = γ b) ∧ r.2.Matches ν α ∧ Models α r.1 :=
  ⟨wellFormed_divisionFormula, encode_self_contained (FormulaPool.verbatim (Atom ℕ))
    [divisionFormula] divisionFormula fun f hf => by
      rcases mem_cons.mp hf with rfl | hf
      · exact wellFormed_divisionFormula
      · exact mem_singleton.mp hf ▸ wellFormed_divisionFormula⟩

/-! ## The returned sets together -/

/-- The sets that calls on formulas return, one after the other. -/
def encodeEach : List (Formula (InputAtom β)) → BVDirectEncoder β →
    List (List (Bit β)) × BVDirectEncoder β
  | [], s => ([], s)
  | inputFormula :: inputFormulas, s =>
    let (encoded, s) := encode pool inputFormula s
    let (rest, s) := encodeEach inputFormulas s
    (encoded :: rest, s)

/-- What is filed stays, and so do the bits of the variables. -/
structure Keeps (s s' : BVDirectEncoder β) : Prop where
  encodings : ∀ o, s.encodings o ⊆ s'.encodings o
  bits : ∀ x boolVariables, s.mBitVecBits x = some boolVariables →
    s'.mBitVecBits x = some boolVariables

/-- Where the bits match an assignment, returned sets can replace their formulas: all of them hold
wherever the filed formulas do and the input formulas are true, and make these true. -/
structure Blasts (inputFormulas : List (Formula (InputAtom β))) (returned : List (List (Bit β)))
    (s : BVDirectEncoder β) (ν : BVAssignment) (α : Atom β → Bool) : Prop where
  sound : (∀ fs ∈ returned, Models α fs) →
    ∀ f ∈ inputFormulas, f.eval (InputAtom.value (fun b => α (.named b)) ν) = true
  complete : (∀ o, Models α (s.encodings o)) →
    (∀ f ∈ inputFormulas, f.eval (InputAtom.value (fun b => α (.named b)) ν) = true) →
    ∀ fs ∈ returned, Models α fs

/-- One call. -/
theorem encode_blasts (hs : Inv s) {f : Formula (InputAtom β)} (hf : WellFormed f) :
    Inv (encode pool f s).2 ∧ Keeps s (encode pool f s).2 ∧
      ∀ ν α, (encode pool f s).2.Matches ν α →
        Blasts [f] [(encode pool f s).1] (encode pool f s).2 ν α := by
  obtain ⟨henc, hholds⟩ := encodeBVConstraints_encoded pool f hf (hs.setCurrent [])
  refine ⟨henc.inv.setCurrent _, ⟨henc.extend.encodings, henc.extend.bits⟩, fun ν α hα => ?_⟩
  constructor
  case sound =>
    intro hmods g hg
    obtain rfl := mem_singleton.mp hg
    have hmods := hmods _ mem_cons_self
    rw [← (hholds ν α).2 ⟨hα, fun p hp g hg =>
      hmods g (mem_append_left _ (henc.replayed p hp hg))⟩]
    exact hmods _ (mem_append_right _ mem_cons_self)
  case complete =>
    intro hfiled htrue fs hfs
    obtain rfl := mem_singleton.mp hfs
    intro g hg
    rcases mem_append.mp hg with hg | hg
    · rcases henc.only g hg with hg | ⟨p, -, hg⟩
      · cases hg
      · exact hfiled p g hg
    · obtain rfl := mem_singleton.mp hg
      exact ((hholds ν α).2 ⟨hα, fun p _ => hfiled p⟩).trans (htrue f mem_cons_self)

/-- All calls. -/
theorem encodeEach_blasts {fs : List (Formula (InputAtom β))} (hfs : ∀ f ∈ fs, WellFormed f)
    (hs : Inv s) :
    Inv (encodeEach pool fs s).2 ∧ Keeps s (encodeEach pool fs s).2 ∧
      ∀ ν α, (encodeEach pool fs s).2.Matches ν α →
        Blasts fs (encodeEach pool fs s).1 (encodeEach pool fs s).2 ν α := by
  induction fs generalizing s with
  | nil =>
    exact ⟨hs, ⟨fun _ => Subset.refl _, fun _ _ hx => hx⟩, fun _ _ _ =>
      ⟨fun _ _ hf => absurd hf not_mem_nil, fun _ _ _ hf => absurd hf not_mem_nil⟩⟩
  | cons f fs ih =>
    obtain ⟨hfirst, hrest⟩ := forall_mem_cons.mp hfs
    obtain ⟨hinv, hkeeps, hblasts⟩ := encode_blasts pool hs hfirst
    obtain ⟨hinv', hkeeps', hblasts'⟩ := ih hrest hinv
    rw [encodeEach]
    refine ⟨hinv', ⟨fun o => Subset.trans (hkeeps.encodings o) (hkeeps'.encodings o),
      fun x xs hx => hkeeps'.bits x xs (hkeeps.bits x xs hx)⟩, fun ν α hα => ?_⟩
    have h := hblasts ν α fun x xs hx => hα x xs (hkeeps'.bits x xs hx)
    have h' := hblasts' ν α hα
    constructor
    case sound =>
      intro hmods
      obtain ⟨hmod, hmods⟩ := forall_mem_cons.mp hmods
      exact forall_mem_cons.mpr ⟨h.sound (forall_mem_singleton.mpr hmod) f mem_cons_self,
        h'.sound hmods⟩
    case complete =>
      intro hfiled htrue
      obtain ⟨htrue, htrues⟩ := forall_mem_cons.mp htrue
      refine forall_mem_cons.mpr ⟨?_, h'.complete hfiled htrues⟩
      exact h.complete (fun o g hg => hfiled o g (hkeeps'.encodings o hg))
        (forall_mem_singleton.mpr htrue) _ mem_cons_self

/-- Over an assignment of the Boolean and the bit-vector variables, the sets that the calls return are
satisfiable together exactly if all formulas are true. -/
def Equisatisfiable (inputFormulas : List (Formula (InputAtom β))) : Prop :=
  let r := encodeEach pool inputFormulas {}
  ∀ (γ : β → Bool) (ν : BVAssignment),
    (∀ f ∈ inputFormulas, f.eval (InputAtom.value γ ν) = true) ↔
      ∃ α, (∀ b, α (.named b) = γ b) ∧ r.2.Matches ν α ∧ ∀ fs ∈ r.1, Models α fs

theorem encodeEach_equisatisfiable (inputFormulas : List (Formula (InputAtom β)))
    (hinput : ∀ f ∈ inputFormulas, WellFormed f) : Equisatisfiable pool inputFormulas := by
  obtain ⟨hinv, -, hblasts⟩ := encodeEach_blasts pool hinput inv_empty
  refine fun γ ν => ⟨fun htrue => ?_, ?_⟩
  · obtain ⟨α, hα, hmatches, hmods⟩ := exists_model hinv γ ν
    obtain rfl : (fun b => α (.named b)) = γ := funext hα
    exact ⟨α, hα, hmatches, (hblasts ν α hmatches).complete hmods htrue⟩
  · rintro ⟨α, hα, hmatches, hmods⟩
    obtain rfl : (fun b => α (.named b)) = γ := funext hα
    exact (hblasts ν α hmatches).sound hmods

theorem encodeEach_equisatisfiable_division :
    Equisatisfiable (FormulaPool.verbatim (Atom ℕ)) [divisionFormula, divisionFormula] :=
  encodeEach_equisatisfiable _ _ fun _ hf => by
    obtain rfl : _ = divisionFormula := by simpa using hf
    exact wellFormed_divisionFormula

end BVDirectEncoder

end Smtrat.BV
