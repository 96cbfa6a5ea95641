import Smtrat.BV.Shifts

/-!
# What the encoder keeps

The formulas the encoder has asserted are filed by owner, the term or constraint that was being
encoded.  `Inv` says what the files are good for: a filed formula mentions only bits of bit-vector
variables and variables introduced for parts of its owner, the bits kept for an owner have its
value wherever the files of its parts hold, and all files together are satisfiable over any values
of the bits.  `Encoded s s' P` describes the step from `s` to `s'` that encodes something with
parts `P`; steps compose, and one step for a single owner is `encoded_perform`.
-/

/-!
## The incremental direct encoder

The state of `BVDirectEncoder` and its member functions that read or write it.  A network only
creates variables and asserts formulas; `perform` carries both out on the state, so that what is
asserted is filed under the term or constraint that is being encoded.

The maps are functions to `Option`, the sets of formulas are lists.  Each introduced variable is
kept together with what was being encoded when it was created.
-/

namespace Smtrat.BV

open PropFormula Circuit Function

variable {β : Type}

/-- The atoms of an input formula: Boolean variables and bit-vector constraints. -/
inductive InputAtom (β : Type) where
  | bool (b : β)
  | constraint (c : BVConstraint)
deriving DecidableEq, Repr

/-- What is being encoded. -/
inductive Owner where
  | term (t : BVTerm)
  | constraint (c : BVConstraint)
deriving DecidableEq, Repr

structure BVDirectEncoder (β : Type) where
  /-- The next fresh Boolean variable. -/
  next : ℕ := 0
  mIntroducedVariables : List (ℕ × Option Owner) := []
  mBitVecBits : BVVariable → Option (List ℕ) := fun _ => none
  mTermBits : BVTerm → Option (Bits β) := fun _ => none
  mConstraintBits : BVConstraint → Option (Bit β) := fun _ => none
  mTermEncodings : BVTerm → Option (List (Bit β)) := fun _ => none
  mConstraintEncodings : BVConstraint → Option (List (Bit β)) := fun _ => none
  mCurrentEncodings : List (Bit β) := []
  mCurrentConstraint : Option BVConstraint := none
  mCurrentTerm : Option BVTerm := none

namespace BVDirectEncoder

/-- The term being encoded, else the constraint being encoded. -/
def owner (s : BVDirectEncoder β) : Option Owner :=
  match s.mCurrentTerm with
  | some t => some (.term t)
  | none => s.mCurrentConstraint.map .constraint

def boolAssert (s : BVDirectEncoder β) (formula : Bit β) : BVDirectEncoder β :=
  match s.mCurrentTerm, s.mCurrentConstraint with
  | some t, _ => { s with
      mTermEncodings :=
        update s.mTermEncodings t (some ((s.mTermEncodings t).getD [] ++ [formula]))
      mCurrentEncodings := s.mCurrentEncodings ++ [formula] }
  | none, some c => { s with
      mConstraintEncodings := update s.mConstraintEncodings c
        (some ((s.mConstraintEncodings c).getD [] ++ [formula]))
      mCurrentEncodings := s.mCurrentEncodings ++ [formula] }
  | none, none => { s with mCurrentEncodings := s.mCurrentEncodings ++ [formula] }

/-- Creates the variables from `s.next` up to `n`. -/
def introduce (s : BVDirectEncoder β) (n : ℕ) : BVDirectEncoder β :=
  { s with
    next := n
    mIntroducedVariables := s.mIntroducedVariables ++
      (List.range' s.next (n - s.next)).map fun v => (v, s.owner) }

def perform {X : Type} (m : Circuit β X) (s : BVDirectEncoder β) : X × BVDirectEncoder β :=
  let r := m s.next
  (r.value, r.asserted.foldl boolAssert (s.introduce r.next))

def encodeVariable (x : BVVariable) (s : BVDirectEncoder β) : Bits β × BVDirectEncoder β :=
  match s.mBitVecBits x with
  | some boolVariables => (boolVariables.map fun v => .atom (.fresh v), s)
  | none =>
    let boolVariables := List.range' s.next x.width
    (boolVariables.map fun v => .atom (.fresh v),
      { s.introduce (s.next + x.width) with
        mBitVecBits := update s.mBitVecBits x (some boolVariables) })

/-- The second half of `encodeTerm`: what the term asserted earlier is asserted again, or else
`encode` is run with the term as the current one. -/
def encodeOnce (t : BVTerm) (encode : BVDirectEncoder β → Bits β × BVDirectEncoder β)
    (s : BVDirectEncoder β) : Bits β × BVDirectEncoder β :=
  match s.mTermEncodings t with
  | some encodings =>
    ((s.mTermBits t).getD [], { s with mCurrentEncodings := s.mCurrentEncodings ++ encodings })
  | none =>
    let (out, s) := encode { s with mCurrentTerm := some t }
    (out, { s with mTermBits := update s.mTermBits t (some out), mCurrentTerm := none })

variable (pool : FormulaPool (Atom β))

def encodeTerm : BVTerm → BVDirectEncoder β → Bits β × BVDirectEncoder β
  | .constant value, s => encodeOnce (.constant value) (perform (encodeConstant pool value)) s
  | .var x, s => encodeOnce (.var x) (encodeVariable x) s
  | .extract operand highest lowest, s =>
    let (subTerm, s) := encodeTerm operand s
    encodeOnce (.extract operand highest lowest)
      (perform (encodeExtract pool subTerm highest lowest)) s
  | .unary op operand, s =>
    let (subTerm, s) := encodeTerm operand s
    encodeOnce (.unary op operand) (perform (encodeUnary pool op subTerm)) s
  | .binary op first second, s =>
    let (subTerm1, s) := encodeTerm first s
    let (subTerm2, s) := encodeTerm second s
    encodeOnce (.binary op first second) (perform (encodeBinary pool op subTerm1 subTerm2)) s

def encodeConstraint (c : BVConstraint) (s : BVDirectEncoder β) : Bit β × BVDirectEncoder β :=
  let (lhs, s) := encodeTerm pool c.lhs s
  let (rhs, s) := encodeTerm pool c.rhs s
  match s.mConstraintEncodings c with
  | some encodings =>
    ((s.mConstraintBits c).getD (.const false),
      { s with mCurrentEncodings := s.mCurrentEncodings ++ encodings })
  | none =>
    let (out, s) := perform (encodeRelation pool c.relation lhs rhs)
      { s with mCurrentConstraint := some c }
    (out, { s with
      mConstraintBits := update s.mConstraintBits c (some out)
      mCurrentConstraint := none })

mutual

/-- The visitor of `encode`: each bit-vector constraint is replaced by its bit. -/
def encodeBVConstraints : Formula (InputAtom β) → BVDirectEncoder β → Bit β × BVDirectEncoder β
  | .const b, s => (.const b, s)
  | .atom (.bool b), s => (.atom (.named b), s)
  | .atom (.constraint c), s => encodeConstraint pool c s
  | .app op fs, s =>
    let (gs, s) := encodeAllBVConstraints fs s
    (pool.create op gs, s)

def encodeAllBVConstraints :
    List (Formula (InputAtom β)) → BVDirectEncoder β → Bits β × BVDirectEncoder β
  | [], s => ([], s)
  | f :: fs, s =>
    let (g, s) := encodeBVConstraints f s
    let (gs, s) := encodeAllBVConstraints fs s
    (g :: gs, s)

end

def encode (inputFormula : Formula (InputAtom β)) (s : BVDirectEncoder β) :
    List (Bit β) × BVDirectEncoder β :=
  let (passedFormula, s) := encodeBVConstraints pool inputFormula { s with mCurrentEncodings := [] }
  let s := { s with mCurrentEncodings := s.mCurrentEncodings ++ [passedFormula] }
  (s.mCurrentEncodings, s)

/-- The encoder after the formulas of a list have been encoded one after the other. -/
def encodeAll (inputFormulas : List (Formula (InputAtom β))) : BVDirectEncoder β :=
  inputFormulas.foldl (fun s inputFormula => (encode pool inputFormula s).2) {}

end BVDirectEncoder

end Smtrat.BV

namespace Smtrat.BV

open PropFormula Circuit List Function Option

variable {β : Type}

/-! ## Parts -/

/-- A term with all its subterms. -/
def termParts : BVTerm → List Owner
  | .constant value => [.term (.constant value)]
  | .var x => [.term (.var x)]
  | .extract operand highest lowest =>
    .term (.extract operand highest lowest) :: termParts operand
  | .unary op operand => .term (.unary op operand) :: termParts operand
  | .binary op first second =>
    .term (.binary op first second) :: (termParts first ++ termParts second)

/-- The owners whose formulas the encoding of `o` rests on. -/
def Owner.parts : Owner → List Owner
  | .term t => termParts t
  | .constraint c => .constraint c :: (termParts c.lhs ++ termParts c.rhs)

theorem Owner.mem_parts_self (o : Owner) : o ∈ o.parts := by
  cases o with
  | term t => cases t <;> exact mem_cons_self
  | constraint c => exact mem_cons_self

variable {o : Owner}

theorem parts_subset_termParts {t : BVTerm} {p : Owner} (ho : o ∈ termParts t) (hp : p ∈ o.parts) :
    p ∈ termParts t := by
  induction t with
  | constant value =>
    obtain rfl := mem_singleton.mp ho
    exact hp
  | var x =>
    obtain rfl := mem_singleton.mp ho
    exact hp
  | extract operand highest lowest ih =>
    rcases mem_cons.mp ho with rfl | ho
    · exact hp
    · exact mem_cons_of_mem _ (ih ho)
  | unary op operand ih =>
    rcases mem_cons.mp ho with rfl | ho
    · exact hp
    · exact mem_cons_of_mem _ (ih ho)
  | binary op first second ih₁ ih₂ =>
    rcases mem_cons.mp ho with rfl | ho
    · exact hp
    · refine mem_cons_of_mem _ (mem_append.mpr ?_)
      rcases mem_append.mp ho with ho | ho
      · exact .inl (ih₁ ho)
      · exact .inr (ih₂ ho)

theorem Owner.parts_trans {p q : Owner} (hp : p ∈ o.parts) (hq : q ∈ p.parts) : q ∈ o.parts := by
  cases o with
  | term t => exact parts_subset_termParts hp hq
  | constraint c =>
    rcases mem_cons.mp hp with rfl | hp
    · exact hq
    · refine mem_cons_of_mem _ (mem_append.mpr ?_)
      rcases mem_append.mp hp with hp | hp
      · exact .inl (parts_subset_termParts hp hq)
      · exact .inr (parts_subset_termParts hp hq)

namespace BVDirectEncoder

/-! ## The state as files of formulas -/

/-- What is filed under an owner, if anything was. -/
def lookup (s : BVDirectEncoder β) : Owner → Option (List (Bit β))
  | .term t => s.mTermEncodings t
  | .constraint c => s.mConstraintEncodings c

def encodings (s : BVDirectEncoder β) (o : Owner) : List (Bit β) := (s.lookup o).getD []

/-- The variable is a bit of a bit-vector variable. -/
def IsBit (s : BVDirectEncoder β) (v : ℕ) : Prop :=
  ∃ x boolVariables, s.mBitVecBits x = some boolVariables ∧ v ∈ boolVariables

/-- The bits of the bit-vector variables have the values of the assignment. -/
def Matches (s : BVDirectEncoder β) (ν : BVAssignment) (α : Atom β → Bool) : Prop :=
  ∀ x boolVariables, s.mBitVecBits x = some boolVariables →
    ∀ i < x.width, α (.fresh (boolVariables.getD i 0)) = (ν x).getLsbD i

/-- Given variables, bits, and variables introduced for the owners `P`. -/
def Known (s : BVDirectEncoder β) (P : Owner → Prop) : Atom β → Prop
  | .named _ => True
  | .fresh v => s.IsBit v ∨ ∃ p, P p ∧ (v, some p) ∈ s.mIntroducedVariables

def scope (s : BVDirectEncoder β) (P : Owner → Prop) : Scope β :=
  ⟨fun a => s.Known P a ∧ AtomBelow s.next a, s.next, fun _ h => h.2⟩

/-- The world of a valuation; it is live where the bits match the assignment and the formulas of
the owners `P` hold. -/
def world (s : BVDirectEncoder β) (P : Owner → Prop) (ν : BVAssignment) (α : Atom β → Bool) :
    World β :=
  ⟨s.scope P, s.next, le_rfl, α, s.Matches ν α ∧ ∀ p, P p → Models α (s.encodings p)⟩

/-- The state `s'` knows all that `s` knows, and has asserted what it knows in addition. -/
structure Extends (s s' : BVDirectEncoder β) : Prop where
  next_le : s.next ≤ s'.next
  introduced : s.mIntroducedVariables ⊆ s'.mIntroducedVariables
  bits : ∀ x boolVariables, s.mBitVecBits x = some boolVariables →
    s'.mBitVecBits x = some boolVariables
  encodings : ∀ o, s.encodings o ⊆ s'.encodings o
  asserted : ∀ o, ∀ f ∈ s'.encodings o, f ∈ s.encodings o ∨ f ∈ s'.mCurrentEncodings
  current : s.mCurrentEncodings ⊆ s'.mCurrentEncodings

structure Inv (s : BVDirectEncoder β) : Prop where
  currentTerm : s.mCurrentTerm = none
  currentConstraint : s.mCurrentConstraint = none
  bits_length : ∀ x boolVariables, s.mBitVecBits x = some boolVariables →
    boolVariables.length = x.width
  bits_below : ∀ v, s.IsBit v → v < s.next
  bits_distinct : ∀ x y xs ys i j, s.mBitVecBits x = some xs → s.mBitVecBits y = some ys →
    i < x.width → j < y.width → xs.getD i 0 = ys.getD j 0 → x = y ∧ i = j
  introduced_below : ∀ v o, (v, o) ∈ s.mIntroducedVariables → v < s.next
  introduced_unique : ∀ v o p, (v, o) ∈ s.mIntroducedVariables →
    (v, p) ∈ s.mIntroducedVariables → o = p
  known : ∀ o, ∀ f ∈ s.encodings o, ∀ a, f.Mentions a → s.Known (· ∈ o.parts) a
  term : ∀ t, (s.mTermEncodings t).isSome → ∀ ν α,
    Denotes (s.world (· ∈ termParts t) ν α) ((s.mTermBits t).getD []) (t.value ν)
  constraint : ∀ c, (s.mConstraintEncodings c).isSome → ∀ ν α,
    Holds (s.world (· ∈ (Owner.constraint c).parts) ν α)
      ((s.mConstraintBits c).getD (.const false)) (c.value ν)
  satisfiable : ∀ α : Atom β → Bool, ∃ γ : Atom β → Bool, (∀ b, γ (.named b) = α (.named b)) ∧
    (∀ v, s.IsBit v → γ (.fresh v) = α (.fresh v)) ∧ ∀ o, Models γ (s.encodings o)

variable {s s' s'' : BVDirectEncoder β} {P Q : Owner → Prop}

/-! ## Knowledge grows -/

theorem Extends.refl (s : BVDirectEncoder β) : Extends s s :=
  ⟨le_rfl, List.Subset.refl _, fun _ _ h => h, fun _ => List.Subset.refl _, fun _ _ h => .inl h,
    List.Subset.refl _⟩

theorem Extends.trans (h : Extends s s') (h' : Extends s' s'') : Extends s s'' where
  next_le := h.next_le.trans h'.next_le
  introduced := List.Subset.trans h.introduced h'.introduced
  bits x xs hx := h'.bits x xs (h.bits x xs hx)
  encodings o := List.Subset.trans (h.encodings o) (h'.encodings o)
  asserted o f hf := by
    rcases h'.asserted o f hf with hf | hf
    · exact (h.asserted o f hf).imp_right fun hcur => h'.current hcur
    · exact .inr hf
  current := List.Subset.trans h.current h'.current

variable {ν : BVAssignment} {α : Atom β → Bool}

theorem Extends.known (h : Extends s s') (hPQ : ∀ p, P p → Q p) {a : Atom β} (ha : s.Known P a) :
    s'.Known Q a := by
  cases a with
  | named b => trivial
  | fresh v =>
    rcases ha with ⟨x, xs, hx, hmem⟩ | ⟨p, hp, hv⟩
    · exact .inl ⟨x, xs, h.bits x xs hx, hmem⟩
    · exact .inr ⟨p, hPQ p hp, h.introduced hv⟩

variable {f : Bit β}

/-- What holds in a world holds in one with the same valuation where more atoms are known and
more formulas hold. -/
theorem holds_transfer {w v : World β} (hval : v.val = w.val) (hlive : v.live → w.live)
    (hcov : ∀ f, w.scope.Covers w.next f → v.scope.Covers v.next f) {b : Bool}
    (h : Holds w f b) : Holds v f b :=
  ⟨hcov f h.1, fun hl => hval ▸ h.2 (hlive hl)⟩

theorem denotes_transfer {w v : World β} (hval : v.val = w.val) (hlive : v.live → w.live)
    (hcov : ∀ f, w.scope.Covers w.next f → v.scope.Covers v.next f) {n : ℕ} {bits : Bits β}
    {x : BitVec n} (h : Denotes w bits x) : Denotes v bits x :=
  ⟨h.1, fun i hi => holds_transfer hval hlive hcov (h.2 i hi)⟩

theorem covers_world :
    (s.world P ν α).scope.Covers (s.world P ν α).next f ↔
      ∀ a, f.Mentions a → s.Known P a ∧ AtomBelow s.next a := by
  constructor
  · intro h a ha
    rcases h a ha with hk | ⟨k, -, hle, hlt⟩
    · exact hk
    · exact absurd hlt (Nat.not_lt.mpr hle)
  · exact fun h a ha => .inl (h a ha)

theorem Extends.covers (h : Extends s s') (hPQ : ∀ p, P p → Q p) (f : Bit β)
    (hf : (s.world P ν α).scope.Covers (s.world P ν α).next f) :
    (s'.world Q ν α).scope.Covers (s'.world Q ν α).next f := by
  rw [covers_world] at hf ⊢
  exact fun a ha => ⟨h.known hPQ (hf a ha).1, (hf a ha).2.mono h.next_le⟩

theorem Extends.live (h : Extends s s') (hPQ : ∀ p, P p → Q p) (hl : (s'.world Q ν α).live) :
    (s.world P ν α).live :=
  ⟨fun x xs hx => hl.1 x xs (h.bits x xs hx), fun p hp f hf => hl.2 p (hPQ p hp) f (h.encodings p hf)⟩

theorem Extends.denotes (h : Extends s s') (hPQ : ∀ p, P p → Q p) {n : ℕ} {bits : Bits β}
    {x : BitVec n}
    (hx : Denotes (s.world P ν α) bits x) : Denotes (s'.world Q ν α) bits x :=
  denotes_transfer (w := s.world P ν α) (v := s'.world Q ν α) rfl (h.live hPQ) (h.covers hPQ) hx

theorem Extends.holds (h : Extends s s') (hPQ : ∀ p, P p → Q p) {b : Bool}
    (hf : Holds (s.world P ν α) f b) :
    Holds (s'.world Q ν α) f b :=
  holds_transfer (w := s.world P ν α) (v := s'.world Q ν α) rfl (h.live hPQ) (h.covers hPQ) hf

/-! ## Steps -/

/-- Something with parts `P` has been encoded: the formulas of `P`, and no others, have been
added to the current ones. -/
structure Encoded (s s' : BVDirectEncoder β) (P : Owner → Prop) : Prop where
  inv : Inv s'
  extend : Extends s s'
  replayed : ∀ p, P p → s'.encodings p ⊆ s'.mCurrentEncodings
  only : ∀ f ∈ s'.mCurrentEncodings, f ∈ s.mCurrentEncodings ∨ ∃ p, P p ∧ f ∈ s'.encodings p

theorem Encoded.refl (hs : Inv s) : Encoded s s fun _ => False :=
  ⟨hs, Extends.refl s, fun _ h => h.elim, fun _ h => .inl h⟩

theorem Encoded.trans (h : Encoded s s' P) (h' : Encoded s' s'' Q) :
    Encoded s s'' fun p => P p ∨ Q p where
  inv := h'.inv
  extend := h.extend.trans h'.extend
  replayed p hp f hf := by
    rcases hp with hp | hp
    · rcases h'.extend.asserted p f hf with hf | hf
      · exact h'.extend.current (h.replayed p hp hf)
      · exact hf
    · exact h'.replayed p hp hf
  only f hf := by
    rcases h'.only f hf with hf | ⟨p, hp, hf⟩
    · rcases h.only f hf with hf | ⟨p, hp, hf⟩
      · exact .inl hf
      · exact .inr ⟨p, .inl hp, h'.extend.encodings p hf⟩
    · exact .inr ⟨p, .inr hp, hf⟩

theorem Encoded.congr (h : Encoded s s' P) (hPQ : ∀ p, P p ↔ Q p) : Encoded s s' Q :=
  (funext fun p => propext (hPQ p) : P = Q) ▸ h

/-- The current formulas matter for nothing that is kept. -/
theorem Inv.setCurrent (hs : Inv s) (fs : List (Bit β)) : Inv { s with mCurrentEncodings := fs } :=
  ⟨hs.currentTerm, hs.currentConstraint, hs.bits_length, hs.bits_below, hs.bits_distinct,
    hs.introduced_below, hs.introduced_unique, hs.known, hs.term, hs.constraint, hs.satisfiable⟩

/-- A hit: the formulas of an owner are replayed. -/
theorem encoded_replay (hs : Inv s) (o : Owner) :
    Encoded s { s with mCurrentEncodings := s.mCurrentEncodings ++ s.encodings o } (· = o) where
  inv := hs.setCurrent _
  extend := ⟨le_rfl, List.Subset.refl _, fun _ _ h => h, fun _ => List.Subset.refl _,
    fun _ _ h => .inl h, subset_append_left _ _⟩
  replayed p hp f hf := by
    subst hp
    exact mem_append_right _ hf
  only f hf := (mem_append.mp hf).imp_right fun h => ⟨o, rfl, h⟩

/-! ## Performing a network -/

/-- The asserted formulas go to the current ones and to the file of the owner. -/
structure Files (s s' : BVDirectEncoder β) (o : Owner) (fs : List (Bit β)) : Prop where
  next : s'.next = s.next
  introduced : s'.mIntroducedVariables = s.mIntroducedVariables
  bitVecBits : s'.mBitVecBits = s.mBitVecBits
  termBits : s'.mTermBits = s.mTermBits
  constraintBits : s'.mConstraintBits = s.mConstraintBits
  currentTerm : s'.mCurrentTerm = s.mCurrentTerm
  currentConstraint : s'.mCurrentConstraint = s.mCurrentConstraint
  current : s'.mCurrentEncodings = s.mCurrentEncodings ++ fs
  other : ∀ p, p ≠ o → s'.lookup p = s.lookup p
  own : s'.encodings o = s.encodings o ++ fs

theorem boolAssert_files (ho : s.owner = some o) (f : Bit β) : Files s (s.boolAssert f) o [f] := by
  unfold boolAssert
  unfold owner at ho
  cases ht : s.mCurrentTerm with
  | some t =>
    rw [ht] at ho
    obtain rfl := some.inj ho
    refine ⟨rfl, rfl, rfl, rfl, rfl, ht.symm, rfl, rfl, fun p hp => ?_, ?_⟩
    · cases p with
      | term u =>
        refine update_of_ne ?_ _ _
        rintro rfl
        exact hp rfl
      | constraint c => rfl
    · simp [encodings, lookup]
  | none =>
    rw [ht] at ho
    cases hc : s.mCurrentConstraint with
    | none =>
      rw [hc] at ho
      cases ho
    | some c =>
      rw [hc] at ho
      obtain rfl := some.inj ho
      refine ⟨rfl, rfl, rfl, rfl, rfl, ht.symm, hc.symm, rfl, fun p hp => ?_, ?_⟩
      · cases p with
        | term u => rfl
        | constraint d =>
          refine update_of_ne ?_ _ _
          rintro rfl
          exact hp rfl
      · simp [encodings, lookup]

theorem Files.owner_eq {fs : List (Bit β)} (h : Files s s' o fs) : s'.owner = s.owner := by
  rw [owner, owner, h.currentTerm, h.currentConstraint]

theorem foldl_boolAssert_files (ho : s.owner = some o) (fs : List (Bit β)) :
    Files s (fs.foldl boolAssert s) o fs := by
  induction fs generalizing s with
  | nil =>
    exact ⟨rfl, rfl, rfl, rfl, rfl, rfl, rfl, by simp, fun _ _ => rfl, by simp⟩
  | cons f fs ih =>
    have hf := boolAssert_files ho f
    have hfs := ih (hf.owner_eq.trans ho)
    refine ⟨hfs.next.trans hf.next, hfs.introduced.trans hf.introduced,
      hfs.bitVecBits.trans hf.bitVecBits, hfs.termBits.trans hf.termBits,
      hfs.constraintBits.trans hf.constraintBits, hfs.currentTerm.trans hf.currentTerm,
      hfs.currentConstraint.trans hf.currentConstraint, ?_,
      fun p hp => (hfs.other p hp).trans (hf.other p hp), ?_⟩
    · rw [foldl_cons, hfs.current, hf.current]
      simp
    · rw [foldl_cons, hfs.own, hf.own]
      simp

end BVDirectEncoder

end Smtrat.BV
