import Smtrat.BV.EncoderState

/-!
# One step of the encoder

Encoding a term that has formulas on file replays them; otherwise its network is performed on the
bits of its operands (`encodeOnce_encoded`).  A variable asserts nothing but may get new bits
(`encodeOnce_variable_encoded`).  All of these are steps in the sense of `Encoded`.
-/

namespace Smtrat.BV

open PropFormula Circuit List Function Option

variable {β : Type} {pool : FormulaPool (Atom β)}

namespace BVDirectEncoder

variable {s s' : BVDirectEncoder β} {P : Owner → Prop} {X : Type}

theorem Inv.below (hs : Inv s) {o : Owner} : ∀ f ∈ s.encodings o, Below s.next f := by
  intro f hf a ha
  cases a with
  | named b => trivial
  | fresh v =>
    rcases hs.known o f hf _ ha with hv | ⟨p, -, hv⟩
    · exact hs.bits_below v hv
    · exact hs.introduced_below v _ hv

theorem exists_matches (s : BVDirectEncoder β) (α : Atom β → Bool) : ∃ ν, s.Matches ν α := by
  choose x hx using fun y : BVVariable => exists_bitVec y.width fun i =>
    α (.fresh (((s.mBitVecBits y).getD []).getD i 0))
  refine ⟨x, fun y ys hy i hi => ?_⟩
  rw [← hx y i hi, hy, getD_some]

/-! ## One owner -/

/-- The state after the network of `o` has been performed in `s` with result `r`. -/
structure Finished (s s' : BVDirectEncoder β) (o : Owner) (r : CircuitResult β X) : Prop where
  next : s'.next = r.next
  introduced : s'.mIntroducedVariables = s.mIntroducedVariables ++
    (List.range' s.next (r.next - s.next)).map fun v => (v, some o)
  bitVecBits : s'.mBitVecBits = s.mBitVecBits
  currentTerm : s'.mCurrentTerm = none
  currentConstraint : s'.mCurrentConstraint = none
  current : s'.mCurrentEncodings = s.mCurrentEncodings ++ r.asserted
  lookup : ∀ p, p ≠ o → s'.lookup p = s.lookup p
  own : s'.encodings o = r.asserted
  termBits : ∀ t, .term t ≠ o → s'.mTermBits t = s.mTermBits t
  constraintBits : ∀ c, .constraint c ≠ o → s'.mConstraintBits c = s.mConstraintBits c

variable {v : ℕ}

namespace Finished

variable {o : Owner} {r : CircuitResult β X}

theorem encodings_other (h : Finished s s' o r) {p : Owner} (hp : p ≠ o) :
    s'.encodings p = s.encodings p := by
  rw [encodings, encodings, h.lookup p hp]

theorem mem_introduced (h : Finished s s' o r) {p : Option Owner} :
    (v, p) ∈ s'.mIntroducedVariables ↔
      (v, p) ∈ s.mIntroducedVariables ∨ (s.next ≤ v ∧ v < r.next) ∧ p = some o := by
  rw [h.introduced, mem_append, List.mem_map]
  refine or_congr_right ⟨?_, ?_⟩
  · rintro ⟨u, hu, heq⟩
    obtain ⟨rfl, rfl⟩ := Prod.mk.inj heq
    have := mem_range'_1.mp hu
    exact ⟨⟨this.1, by omega⟩, rfl⟩
  · rintro ⟨⟨hle, hlt⟩, rfl⟩
    exact ⟨v, mem_range'_1.mpr ⟨hle, by omega⟩, rfl⟩

theorem isBit_iff (h : Finished s s' o r) : s'.IsBit v ↔ s.IsBit v := by
  rw [IsBit, IsBit, h.bitVecBits]

theorem extends_ (h : Finished s s' o r) (hle : s.next ≤ r.next) (ho : s.lookup o = none) :
    Extends s s' where
  next_le := h.next ▸ hle
  introduced _ hv := h.mem_introduced.mpr (.inl hv)
  bits x xs hx := by rw [h.bitVecBits, hx]
  encodings p := by
    by_cases hp : p = o
    · subst hp
      rw [BVDirectEncoder.encodings, ho]
      exact nil_subset _
    · rw [h.encodings_other hp]
      exact List.Subset.refl _
  asserted p f hf := by
    by_cases hp : p = o
    · subst hp
      rw [h.own] at hf
      exact .inr (h.current ▸ mem_append_right _ hf)
    · exact .inl (h.encodings_other hp ▸ hf)
  current := h.current ▸ subset_append_left _ _

/-- An atom the network may mention is known for its owner. -/
theorem known (h : Finished s s' o r) (hle : s.next ≤ r.next) (ho : s.lookup o = none)
    (hP : ∀ p, P p → p ∈ o.parts) {f : Bit β} (hf : (s.scope P).Covers r.next f) {a : Atom β}
    (ha : f.Mentions a) : s'.Known (· ∈ o.parts) a := by
  rcases hf a ha with hk | ⟨k, rfl, hk⟩
  · exact (h.extends_ hle ho).known hP hk.1
  · exact .inr ⟨o, o.mem_parts_self, h.mem_introduced.mpr (.inr ⟨hk, rfl⟩)⟩

end Finished

/-- What a result is known to be survives in worlds that know more. -/
def Transfers (R : X → World β → Prop) : Prop :=
  ∀ x w v, v.val = w.val → (v.live → w.live) →
    (∀ f, w.scope.Covers w.next f → v.scope.Covers v.next f) → R x w → R x v

section Perform

variable {o : Owner} {m : Circuit β X} {R : BVAssignment → X → World β → Prop}

/-- The result of a network, in the world of the state it leads to. -/
theorem result_realized (ho : s.lookup o = none) (hP : ∀ p, P p → p ∈ o.parts)
    (hm : ∀ ν α, Realizes m (s.world P ν α) True (R ν)) (hR : ∀ ν, Transfers (R ν))
    (h : Finished s s' o (m s.next)) (ν : BVAssignment) (α : Atom β → Bool) :
    R ν (m s.next).value (s'.world (· ∈ o.parts) ν α) := by
  have hle : s.next ≤ (m s.next).next := (hm ν α).next_le
  have hext := h.extends_ hle ho
  have hlive : (s'.world (· ∈ o.parts) ν α).live → (s.world P ν α).live := hext.live hP
  let v := (s.world P ν α).move hle α (s'.world (· ∈ o.parts) ν α).live
  have hsound : R ν (m s.next).value v := by
    refine (hm ν α).sound v (World.le_move hle (Agree.refl _ _) hlive) rfl fun hl => ?_
    have hown := hl.2 o o.mem_parts_self
    rwa [h.own] at hown
  refine hR ν _ v _ rfl id (fun f hf => covers_world.mpr fun a ha => ⟨?_, ?_⟩) hsound
  · exact h.known hle ho hP hf ha
  · rw [h.next]
    exact Scope.Covers.below hle hf a ha

/-- A miss: the network of an owner without file is performed on bits that are right wherever the
files of the parts `P` hold. -/
theorem encoded_perform (hs : Inv s) (ho : s.lookup o = none) (hP : ∀ p, P p → p ∈ o.parts)
    (hm : ∀ ν α, Realizes m (s.world P ν α) True (R ν)) (h : Finished s s' o (m s.next))
    (hterm : ∀ t, .term t = o → ∀ ν α,
      Denotes (s'.world (· ∈ termParts t) ν α) ((s'.mTermBits t).getD []) (t.value ν))
    (hcon : ∀ c, .constraint c = o → ∀ ν α,
      Holds (s'.world (· ∈ (Owner.constraint c).parts) ν α)
        ((s'.mConstraintBits c).getD (.const false)) (c.value ν)) :
    Encoded s s' (· = o) := by
  have hle : s.next ≤ (m s.next).next := (hm (fun _ => 0) fun _ => false).next_le
  have hcov : ∀ f ∈ (m s.next).asserted, (s.scope P).Covers (m s.next).next f :=
    (hm (fun _ => 0) fun _ => false).covers
  have hext := h.extends_ hle ho
  refine ⟨?_, hext, fun p hp f hf => ?_, fun f hf => ?_⟩
  · refine ⟨h.currentTerm, h.currentConstraint, ?_, fun v hv => ?_, ?_, fun v p hv => ?_,
      fun v p q hp hq => ?_, fun p f hf a ha => ?_, fun t ht ν α => ?_, fun c hc ν α => ?_,
      fun α => ?_⟩
    · rw [h.bitVecBits]
      exact hs.bits_length
    · rw [h.next]
      exact lt_of_lt_of_le (hs.bits_below v (h.isBit_iff.mp hv)) hle
    · rw [h.bitVecBits]
      exact hs.bits_distinct
    · rw [h.next]
      rcases h.mem_introduced.mp hv with hv | ⟨hv, -⟩
      · exact lt_of_lt_of_le (hs.introduced_below v p hv) hle
      · exact hv.2
    · -- a variable is introduced once, since the counter has moved past the older ones
      rcases h.mem_introduced.mp hp with hp' | ⟨hp', hpo⟩ <;>
        rcases h.mem_introduced.mp hq with hq' | ⟨hq', hqo⟩
      · exact hs.introduced_unique v p q hp' hq'
      · exact absurd (hs.introduced_below v p hp') (Nat.not_lt.mpr hq'.1)
      · exact absurd (hs.introduced_below v q hq') (Nat.not_lt.mpr hp'.1)
      · rw [hpo, hqo]
    · by_cases hp : p = o
      · subst hp
        rw [h.own] at hf
        exact h.known hle ho hP (hcov f hf) ha
      · rw [h.encodings_other hp] at hf
        exact hext.known (fun _ => id) (hs.known p f hf a ha)
    · by_cases hto : Owner.term t = o
      · exact hterm t hto ν α
      · rw [h.termBits t hto]
        have hlook : s'.mTermEncodings t = s.mTermEncodings t := h.lookup _ hto
        exact hext.denotes (fun _ => id) (hs.term t (hlook ▸ ht) ν α)
    · by_cases hco : Owner.constraint c = o
      · exact hcon c hco ν α
      · rw [h.constraintBits c hco]
        have hlook : s'.mConstraintEncodings c = s.mConstraintEncodings c := h.lookup _ hco
        exact hext.holds (fun _ => id) (hs.constraint c (hlook ▸ hc) ν α)
    · -- a model of the old files is extended by the network
      obtain ⟨γ, hnamed, hbits, hmods⟩ := hs.satisfiable α
      obtain ⟨ν, hν⟩ := exists_matches s γ
      obtain ⟨δ, hδ, hasserted⟩ := (hm ν γ).complete ⟨hν, fun p _ => hmods p⟩ trivial
      refine ⟨δ, fun b => (hδ (.named b) trivial).trans (hnamed b), fun v hv => ?_, fun p => ?_⟩
      · have hv' := h.isBit_iff.mp hv
        exact (hδ (.fresh v) (hs.bits_below v hv')).trans (hbits v hv')
      · by_cases hp : p = o
        · subst hp
          rw [h.own]
          exact hasserted
        · rw [h.encodings_other hp]
          exact (hmods p).congr hs.below hδ
  · subst hp
    rw [h.own] at hf
    exact h.current ▸ mem_append_right _ hf
  · rw [h.current] at hf
    exact (mem_append.mp hf).imp_right fun hf => ⟨o, rfl, h.own.symm ▸ hf⟩

end Perform

/-- `perform` in a state where `o` is being encoded leads to the files it should. -/
theorem perform_files {o : Owner} (s₁ : BVDirectEncoder β) (ho : s₁.owner = some o)
    (m : Circuit β X) :
    Files (s₁.introduce (m s₁.next).next) (perform m s₁).2 o (m s₁.next).asserted :=
  foldl_boolAssert_files (s := s₁.introduce (m s₁.next).next) ho _

/-! ## Terms -/

section Term

variable {t : BVTerm}

theorem encodeOnce_hit {encode : BVDirectEncoder β → Bits β × BVDirectEncoder β}
    {fs : List (Bit β)} (h : s.mTermEncodings t = some fs) :
    encodeOnce t encode s = ((s.mTermBits t).getD [],
      { s with mCurrentEncodings := s.mCurrentEncodings ++ s.encodings (.term t) }) := by
  simp only [encodeOnce, encodings, lookup, h, getD_some]

theorem encodeOnce_miss {encode : BVDirectEncoder β → Bits β × BVDirectEncoder β}
    (h : s.mTermEncodings t = none) :
    encodeOnce t encode s =
      ((encode { s with mCurrentTerm := some t }).1,
        { (encode { s with mCurrentTerm := some t }).2 with
          mTermBits := update (encode { s with mCurrentTerm := some t }).2.mTermBits t
            (some (encode { s with mCurrentTerm := some t }).1)
          mCurrentTerm := none }) := by
  simp only [encodeOnce, h]

theorem finished_term (hs : Inv s) (h : s.mTermEncodings t = none) (m : Circuit β (Bits β)) :
    Finished s (encodeOnce t (perform m) s).2 (.term t) (m s.next) := by
  let s₁ : BVDirectEncoder β := { s with mCurrentTerm := some t }
  have hfiles := perform_files (o := .term t) s₁ rfl m
  have hnone : (s₁.introduce (m s₁.next).next).encodings (.term t) = [] := by
    rw [encodings]
    change (s.mTermEncodings t).getD [] = []
    rw [h]
    rfl
  rw [encodeOnce_miss h]
  refine ⟨hfiles.next, hfiles.introduced, hfiles.bitVecBits, rfl, ?_, hfiles.current,
    hfiles.other, ?_, fun u hu => ?_, fun c _ => ?_⟩
  · exact hfiles.currentConstraint.trans hs.currentConstraint
  · have hown := hfiles.own
    rwa [hnone, nil_append] at hown
  · refine (update_of_ne ?_ _ _).trans (congrFun hfiles.termBits u)
    rintro rfl
    exact hu rfl
  · exact congrFun hfiles.constraintBits c

/-- A term whose own step is a network. -/
theorem encodeOnce_encoded (hs : Inv s) (hP : ∀ p, P p → p ∈ termParts t)
    {m : Circuit β (Bits β)}
    (hm : ∀ ν α, Realizes m (s.world P ν α) True fun out v => Denotes v out (t.value ν)) :
    Encoded s (encodeOnce t (perform m) s).2 (· = .term t) ∧ ∀ ν α,
      Denotes ((encodeOnce t (perform m) s).2.world (· ∈ termParts t) ν α)
        (encodeOnce t (perform m) s).1 (t.value ν) := by
  cases h : s.mTermEncodings t with
  | some fs =>
    rw [encodeOnce_hit h]
    have henc := encoded_replay hs (.term t)
    refine ⟨henc, fun ν α => ?_⟩
    exact henc.extend.denotes (fun _ => id) (hs.term t (by rw [h]; rfl) ν α)
  | none =>
    have hdone := finished_term hs h m
    have hres := fun ν α => result_realized (o := .term t) h hP hm
      (fun _ _ _ _ hval hlive hcov => denotes_transfer hval hlive hcov) hdone ν α
    have hvalue : (encodeOnce t (perform m) s).1 = (m s.next).value := by
      rw [encodeOnce_miss h]
      rfl
    refine ⟨encoded_perform hs h hP hm hdone (fun u hu ν α => ?_) fun c hc => ?_, ?_⟩
    · obtain rfl := Owner.term.inj hu
      have hbits : (encodeOnce u (perform m) s).2.mTermBits u = some (m s.next).value := by
        rw [encodeOnce_miss h]
        exact update_self _ _ _
      rw [hbits]
      exact hres ν α
    · cases hc
    · rw [hvalue]
      exact hres

variable {x : BVVariable}

/-- The bits of a bit-vector variable have its value. -/
theorem variable_denotes (hs : Inv s) {xs : List ℕ}
    (hx : s.mBitVecBits x = some xs) (ν : BVAssignment) (α : Atom β → Bool) :
    Denotes (s.world P ν α) (xs.map fun v => .atom (.fresh v)) (ν x) := by
  have hlen := hs.bits_length x xs hx
  refine ⟨by rw [length_map, hlen], fun i hi => ?_⟩
  have hi' : i < xs.length := hlen.symm ▸ hi
  have hget : (xs.map fun v => (.atom (.fresh v) : Bit β)).getD i (.const false) =
      .atom (.fresh (xs.getD i 0)) := by
    simp [getD_eq_getElem?_getD, getElem?_eq_getElem hi']
  have hbit : s.IsBit (xs.getD i 0) := by
    refine ⟨x, xs, hx, ?_⟩
    rw [getD_eq_getElem _ _ hi']
    exact getElem_mem hi'
  beta_reduce
  rw [hget]
  refine ⟨covers_world.mpr fun a ha => ?_, fun hl => ?_⟩
  · obtain rfl := (Formula.mentions_atom _ _).mp ha
    exact ⟨.inl hbit, hs.bits_below _ hbit⟩
  · rw [Formula.eval_atom]
    exact hl.1 x xs hx i hi

/-- The state after bits have been created for `x`. -/
def withBits (s : BVDirectEncoder β) (x : BVVariable) (o : Owner) : BVDirectEncoder β :=
  { s with
    next := s.next + x.width
    mIntroducedVariables := s.mIntroducedVariables ++
      (List.range' s.next (s.next + x.width - s.next)).map fun v => (v, some o)
    mBitVecBits := update s.mBitVecBits x (some (List.range' s.next x.width)) }

theorem withBits_self {o : Owner} :
    (s.withBits x o).mBitVecBits x = some (List.range' s.next x.width) :=
  update_self _ _ _

theorem withBits_other {y : BVVariable} (h : y ≠ x) {o : Owner} :
    (s.withBits x o).mBitVecBits y = s.mBitVecBits y :=
  update_of_ne h _ _

theorem withBits_isBit (hx : s.mBitVecBits x = none) {o : Owner} :
    (s.withBits x o).IsBit v ↔ s.IsBit v ∨ s.next ≤ v ∧ v < s.next + x.width := by
  constructor
  · rintro ⟨y, ys, hy, hv⟩
    by_cases hyx : y = x
    · subst hyx
      rw [withBits_self] at hy
      obtain rfl := some.inj hy
      exact .inr (mem_range'_1.mp hv)
    · rw [withBits_other hyx] at hy
      exact .inl ⟨y, ys, hy, hv⟩
  · rintro (⟨y, ys, hy, hv⟩ | hv)
    · refine ⟨y, ys, (update_of_ne ?_ _ _).trans hy, hv⟩
      rintro rfl
      rw [hx] at hy
      cases hy
    · exact ⟨x, _, update_self _ _ _, mem_range'_1.mpr hv⟩

theorem withBits_extends (hx : s.mBitVecBits x = none) (o : Owner) :
    Extends s (s.withBits x o) where
  next_le := Nat.le_add_right _ _
  introduced := subset_append_left _ _
  bits y ys hy := by
    refine (update_of_ne ?_ _ _).trans hy
    rintro rfl
    rw [hx] at hy
    cases hy
  encodings _ := List.Subset.refl _
  asserted _ _ h := .inl h
  current := List.Subset.refl _

theorem withBits_inv (hs : Inv s) (hx : s.mBitVecBits x = none) (o : Owner) :
    Inv (s.withBits x o) := by
  have hext := withBits_extends hx o
  have hintro : ∀ {v p}, (v, p) ∈ (s.withBits x o).mIntroducedVariables →
      (v, p) ∈ s.mIntroducedVariables ∨ (s.next ≤ v ∧ v < s.next + x.width) ∧ p = some o := by
    intro v p hv
    refine (mem_append.mp hv).imp_right fun hv => ?_
    obtain ⟨u, hu, heq⟩ := List.mem_map.mp hv
    obtain ⟨rfl, rfl⟩ := Prod.mk.inj heq
    have := mem_range'_1.mp hu
    exact ⟨⟨this.1, by omega⟩, rfl⟩
  refine ⟨hs.currentTerm, hs.currentConstraint, fun y ys hy => ?_, fun v hv => ?_,
    fun y z ys zs i j hy hz hi hj hij => ?_, fun v p hv => ?_, fun v p q hp hq => ?_,
    fun p f hf a ha => hext.known (fun _ => id) (hs.known p f hf a ha),
    fun u hu ν α => hext.denotes (fun _ => id) (hs.term u hu ν α),
    fun c hc ν α => hext.holds (fun _ => id) (hs.constraint c hc ν α), fun α => ?_⟩
  · by_cases hyx : y = x
    · subst hyx
      rw [withBits_self] at hy
      obtain rfl := some.inj hy
      exact length_range'
    · rw [withBits_other hyx] at hy
      exact hs.bits_length y ys hy
  · rcases (withBits_isBit hx).mp hv with hv | hv
    · exact Nat.lt_add_right _ (hs.bits_below v hv)
    · exact hv.2
  · -- old bits are below the counter, new ones are numbered from it
    have hold : ∀ {u us k}, s.mBitVecBits u = some us → k < u.width → us.getD k 0 < s.next := by
      intro u us k hu hk
      have hk' : k < us.length := (hs.bits_length u us hu).symm ▸ hk
      refine hs.bits_below _ ⟨u, us, hu, ?_⟩
      rw [getD_eq_getElem _ _ hk']
      exact getElem_mem hk'
    have hnew : ∀ {k}, k < x.width → (List.range' s.next x.width).getD k 0 = s.next + k := by
      intro k hk
      rw [getD_eq_getElem _ _ (by rwa [length_range'])]
      simp
    by_cases hyx : y = x <;> by_cases hzx : z = x
    · subst hyx hzx
      rw [withBits_self] at hy hz
      obtain rfl := some.inj hy
      obtain rfl := some.inj hz
      rw [hnew hi, hnew hj] at hij
      exact ⟨rfl, by omega⟩
    · subst hyx
      rw [withBits_self] at hy
      rw [withBits_other hzx] at hz
      obtain rfl := some.inj hy
      rw [hnew hi] at hij
      exact absurd (hold hz hj) (by omega)
    · subst hzx
      rw [withBits_self] at hz
      rw [withBits_other hyx] at hy
      obtain rfl := some.inj hz
      rw [hnew hj] at hij
      exact absurd (hold hy hi) (by omega)
    · rw [withBits_other hyx] at hy
      rw [withBits_other hzx] at hz
      exact hs.bits_distinct y z ys zs i j hy hz hi hj hij
  · rcases hintro hv with hv | ⟨hv, -⟩
    · exact Nat.lt_add_right _ (hs.introduced_below v p hv)
    · exact hv.2
  · rcases hintro hp with hp' | ⟨hp', hpo⟩ <;> rcases hintro hq with hq' | ⟨hq', hqo⟩
    · exact hs.introduced_unique v p q hp' hq'
    · exact absurd (hs.introduced_below v p hp') (Nat.not_lt.mpr hq'.1)
    · exact absurd (hs.introduced_below v q hq') (Nat.not_lt.mpr hp'.1)
    · rw [hpo, hqo]
  · obtain ⟨γ, hnamed, hbits, hmods⟩ := hs.satisfiable α
    have hagree := agree_setFresh s.next (fun i => α (.fresh (s.next + i))) γ
    refine ⟨_, fun b => (hagree (.named b) trivial).trans (hnamed b), fun v hv => ?_, fun p => ?_⟩
    · rcases (withBits_isBit hx).mp hv with hv | hv
      · exact (hagree (.fresh v) (hs.bits_below v hv)).trans (hbits v hv)
      · obtain ⟨i, rfl⟩ := Nat.exists_eq_add_of_le hv.1
        exact setFresh_add _ _ _ i
    · exact (hmods p).congr hs.below hagree

/-- Bits may be kept for a term nothing is filed for. -/
theorem Inv.setTermBits (hs : Inv s) (h : s.mTermEncodings t = none) (bits : Bits β) :
    Inv { s with mTermBits := update s.mTermBits t (some bits) } := by
  refine ⟨hs.currentTerm, hs.currentConstraint, hs.bits_length, hs.bits_below, hs.bits_distinct,
    hs.introduced_below, hs.introduced_unique, hs.known, fun u hu ν α => ?_, hs.constraint,
    hs.satisfiable⟩
  have hut : u ≠ t := by
    rintro rfl
    change (s.mTermEncodings u).isSome at hu
    rw [h] at hu
    cases hu
  change Denotes _ ((update s.mTermBits t (some bits) u).getD []) _
  rw [update_of_ne hut]
  exact hs.term u hu ν α

/-- A term that is a variable: nothing is asserted, but bits may be created. -/
theorem encodeOnce_variable_encoded (hs : Inv s) (x : BVVariable) :
    Encoded s (encodeOnce (.var x) (encodeVariable x) s).2 (· = .term (.var x)) ∧ ∀ ν α,
      Denotes ((encodeOnce (.var x) (encodeVariable x) s).2.world (· ∈ termParts (.var x)) ν α)
        (encodeOnce (.var x) (encodeVariable x) s).1 (BVTerm.value ν (.var x)) := by
  cases h : s.mTermEncodings (.var x) with
  | some fs =>
    rw [encodeOnce_hit h]
    have henc := encoded_replay hs (.term (.var x))
    refine ⟨henc, fun ν α => ?_⟩
    exact henc.extend.denotes (fun _ => id) (hs.term (.var x) (by rw [h]; rfl) ν α)
  | none =>
    have hempty : s.encodings (.term (.var x)) = [] := by
      rw [encodings, lookup, h, getD_none]
    cases hx : s.mBitVecBits x with
    | some xs =>
      have hrun : encodeOnce (.var x) (encodeVariable x) s =
          (xs.map fun v => .atom (.fresh v), { s with
            mTermBits := update s.mTermBits (.var x)
              (some (xs.map fun v => .atom (.fresh v))) }) := by
        rw [encodeOnce_miss h]
        simp only [encodeVariable, hx, ← hs.currentTerm]
      rw [hrun]
      have hinv := hs.setTermBits h (xs.map fun v => .atom (.fresh v))
      refine ⟨⟨hinv, ?_, fun p hp f hf => ?_, fun f hf => .inl hf⟩, fun ν α => ?_⟩
      · exact ⟨le_rfl, List.Subset.refl _, fun _ _ h => h, fun _ => List.Subset.refl _,
          fun _ _ h => .inl h, List.Subset.refl _⟩
      · subst hp
        change f ∈ s.encodings (.term (.var x)) at hf
        rw [hempty] at hf
        cases hf
      · exact variable_denotes hinv hx ν α
    | none =>
      have hrun : encodeOnce (.var x) (encodeVariable x) s =
          ((List.range' s.next x.width).map fun v => .atom (.fresh v),
            { s.withBits x (.term (.var x)) with
              mTermBits := update s.mTermBits (.var x)
                (some ((List.range' s.next x.width).map fun v => .atom (.fresh v))) }) := by
        rw [encodeOnce_miss h]
        simp only [encodeVariable, hx, introduce, owner, withBits, ← hs.currentTerm]
      rw [hrun]
      have hext := withBits_extends hx (.term (.var x))
      have hinv := (withBits_inv hs hx (.term (.var x))).setTermBits h
        ((List.range' s.next x.width).map fun v => .atom (.fresh v))
      refine ⟨⟨hinv, ?_, fun p hp f hf => ?_, fun f hf => .inl hf⟩, fun ν α => ?_⟩
      · exact ⟨hext.next_le, hext.introduced, hext.bits, hext.encodings, hext.asserted,
          hext.current⟩
      · subst hp
        change f ∈ s.encodings (.term (.var x)) at hf
        rw [hempty] at hf
        cases hf
      · exact variable_denotes hinv (update_self _ _ _) ν α

end Term

end BVDirectEncoder

end Smtrat.BV
