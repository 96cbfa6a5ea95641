import Smtrat.SAT.Growth

/-!
# Adding nested formulas

The literal of a nested formula may be used once the formula has been added.  It counts as a use of
the formula; an argument that counting does not reach is a use of its own, which nobody will take
back.
-/

namespace Smtrat.SAT

open PropFormula List Function Option

universe u

variable {A : Type u} (isNary : Connective → Bool)

namespace CnfState

/-- The arguments that are not counted together with the formula. -/
def leakedArgs : Formula A → List (Formula A)
  | .app c fs => (fs.filter fun f => isCompound (removeNegations f) &&
      !(isNary c && isNaryFormula isNary f)).map removeNegations
  | _ => []

/-- Counting the uses of `f` does not reach this use of `k`. -/
def Leak (f k : Formula A) : Prop := ∃ g ∈ parts f, k ∈ leakedArgs isNary g

/-- The uses of several formulas. -/
def usesOf [DecidableEq A] (fs : List (Formula A)) (h : Formula A) : Nat :=
  (fs.map fun f => uses isNary f h).sum

/-- The counter of a formula. -/
def counter (s : CnfState A) (h : Formula A) : Nat := ((s.info h).map CNFInfos.mCounter).getD 0

variable (var : Content A ↪ Var)

/-- What adding nested formulas does. -/
structure Added [DecidableEq A] (received fs : List (Formula A)) (s s' : CnfState A) : Prop where
  encoded : s'.Encoded var received
  grown : s.Grown var s'
  known : ∀ f ∈ fs, s'.Known var f
  counted : ∃ leaks : List (Formula A), (∀ k ∈ leaks, ∃ f ∈ fs, Leak isNary f k) ∧
    (∀ h i, s.info h = none → s'.info h = some i → ∀ k ∈ leakedArgs isNary h, k ∈ leaks) ∧
    ∀ h, s'.counter h =
      s.counter h + usesOf isNary (fs.map removeNegations) h + usesOf isNary leaks h

variable [DecidableEq A] {isNary var} {received : List (Formula A)} {s s' s'' : CnfState A}
  {f g h k : Formula A} {fs gs : List (Formula A)} {c : Connective} {i : CNFInfos} {l : Lit}

/-! ## Uses -/

@[simp] theorem usesOf_nil : usesOf isNary [] h = 0 := rfl

@[simp] theorem usesOf_cons : usesOf isNary (f :: fs) h = uses isNary f h + usesOf isNary fs h := by
  simp [usesOf]

@[simp] theorem usesOf_append :
    usesOf isNary (fs ++ gs) h = usesOf isNary fs h + usesOf isNary gs h := by
  simp [usesOf]

theorem usesOf_pos : 0 < usesOf isNary fs h ↔ ∃ f ∈ fs, 0 < uses isNary f h := by
  rw [usesOf, List.sum_pos_iff_exists_pos_nat]
  simp

theorem uses_eq_zero (hf : isCompound f = false) (hneg : isNegation f = false) :
    uses isNary f h = 0 := by
  cases f with
  | const b => rfl
  | atom a => rfl
  | app c fs =>
    cases c with
    | not => cases hneg
    | and | or | implies | xor | iff | ite => cases hf

omit [DecidableEq A] in
theorem isCompound_of_isNary (hf : isNaryFormula isNary f = true) : isCompound f = true := by
  cases f with
  | const b => cases hf
  | atom a => cases hf
  | app c fs =>
    cases c with
    | not => cases hf
    | and | or | implies | xor | iff | ite => rfl

/-- The uses by the arguments are counted with the formula or leak. -/
theorem usesOf_args (hfs : ∀ f ∈ fs, wellFormed f = true) :
    usesOf isNary (fs.map removeNegations) h =
      (if isNary c then usesAll isNary fs h else 0) +
        usesOf isNary (leakedArgs isNary (.app c fs)) h := by
  induction fs with
  | nil => simp [leakedArgs, usesAll]
  | cons f fs ih =>
    have ih := ih fun g hg => hfs g (mem_cons_of_mem f hg)
    obtain ⟨-, hneg, -⟩ := removeNegations_wellFormed (hfs f mem_cons_self)
    simp only [leakedArgs] at ih ⊢
    rw [map_cons, usesOf_cons, ih, usesAll, filter_cons]
    by_cases hnary : isNary c = true ∧ isNaryFormula isNary f = true
    · have hrem := removeNegations_compound (isCompound_of_isNary hnary.2)
      simp [hnary.1, hnary.2, hrem]
      omega
    · have huses : (if isNary c then
          (if isNaryFormula isNary f then uses isNary f h else 0) + usesAll isNary fs h else 0) =
          if isNary c then usesAll isNary fs h else 0 := by
        by_cases hc : isNary c = true
        · have hf : ¬isNaryFormula isNary f = true := fun hf => hnary ⟨hc, hf⟩
          simp [hf]
        · simp [hc]
      have hnary : (isNary c && isNaryFormula isNary f) = false := by simpa using hnary
      rw [huses, hnary]
      cases hc : isCompound (removeNegations f) with
      | true =>
        simp
        omega
      | false => simp [uses_eq_zero hc hneg]

/-- What is used by a formula with an entry has an entry. -/
theorem Encoded.uses_entry (hs : s.Encoded var received) (hi : s.info f = some i)
    (hu : 0 < uses isNary f h) : ∃ j, s.info h = some j := by
  induction f using Formula.induction generalizing i with
  | hconst b => cases hu
  | hatom a => cases hu
  | happ c fs ih =>
    by_cases hh : .app c fs = h
    · exact ⟨i, hh ▸ hi⟩
    · rw [uses, if_neg hh, Nat.zero_add] at hu
      split_ifs at hu with hc
      · obtain ⟨g, hg, hnary, hu⟩ := usesAll_pos.mp hu
        have hcomp := isCompound_of_isNary hnary
        have hknown := (hs.entry _ i hi).args g hg
        rw [Known, removeNegations_compound hcomp] at hknown
        obtain ⟨j, hj, -⟩ := hknown hcomp
        exact ih g hg hj hu
      · cases hu

theorem Encoded.ready (hs : s.Encoded var received) (hi : s.info f = some i) :
    Ready true s (uses isNary f) := by
  intro h hu
  obtain ⟨j, hj⟩ := hs.uses_entry hi hu
  exact ⟨j, hj, (hs.entry h j hj).clauses_ne_nil, nofun⟩

/-! ## Counting up -/

variable {n : Formula A → Nat}

omit [DecidableEq A] in
theorem kept_countUp : s.Kept (s.countBy true n) where
  entry h i hi := ⟨{ i with mCounter := i.mCounter + n h }, by rw [info_countBy, hi]; rfl, rfl, rfl,
    Nat.le_add_right _ _⟩
  assumptions _ hl := hl
  mFormulaAssumptionMap _ hf := hf

omit [DecidableEq A] in
theorem grown_countUp : s.Grown var (s.countBy true n) where
  toKept := kept_countUp
  fresh h i' hnone hi := by
    rw [info_countBy, hnone] at hi
    cases hi
  mNonassumedTseitinVariable _ hx := hx

omit [DecidableEq A] in
theorem info_countUp_clauses {i' : CNFInfos} (hi : (s.countBy true n).info h = some i') :
    ∃ i, s.info h = some i ∧ i'.mClauses = i.mClauses := by
  rw [info_countBy] at hi
  cases hj : s.info h with
  | none =>
    rw [hj] at hi
    cases hi
  | some i =>
    rw [hj] at hi
    cases hi
    exact ⟨i, rfl, rfl⟩

omit [DecidableEq A] in
theorem Encoded.countUp (hs : s.Encoded var received) : (s.countBy true n).Encoded var received := by
  apply hs.extend kept_countUp (List.Subset.refl received)
  case hent =>
    intro h i hnone hi
    rw [info_countBy, hnone] at hi
    cases hi
  case hcov => exact fun f hf => Or.inl hf
  case hassum => exact Or.inl rfl
  case hmap => exact fun f l hf => Or.inl hf
  case hliteral => exact fun f hf _ => Or.inl hf
  case hassumed => exact hs.mAssumedTseitinVariable
  case hnonass =>
    intro h i' hi' hor hasrt
    obtain ⟨i, hi, hcl⟩ := info_countUp_clauses hi'
    exact hs.mNonassumedTseitinVariable h i hi hor (hcl.symm.trans hasrt)

omit [DecidableEq A] in
theorem counter_countUp (hn : 0 < n h → ∃ i, s.info h = some i) :
    (s.countBy true n).counter h = s.counter h + n h := by
  rw [counter, counter, info_countBy]
  cases hi : s.info h with
  | some i => rfl
  | none =>
    have hzero : n h = 0 := by
      by_contra hne
      obtain ⟨i, hi'⟩ := hn (Nat.pos_of_ne_zero hne)
      rw [hi] at hi'
      cases hi'
    rw [hzero]
    rfl

/-! ## Assumptions -/

theorem kept_assume : s.Kept (s.assume f l) where
  entry _ i hi := ⟨i, hi, rfl, rfl, le_rfl⟩
  assumptions _ hl := mem_append_left _ hl
  mFormulaAssumptionMap g hg := by
    by_cases hgf : g = f
    · rw [hgf, show (s.assume f l).mFormulaAssumptionMap f = some l from
        update_self _ _ _]
      rfl
    · rwa [show (s.assume f l).mFormulaAssumptionMap g = s.mFormulaAssumptionMap g from
        update_of_ne hgf _ _]

theorem grown_assume : s.Grown var (s.assume f l) where
  toKept := kept_assume
  fresh h i' hnone hi := by
    rw [show (s.assume f l).info h = s.info h from rfl, hnone] at hi
    cases hi
  mNonassumedTseitinVariable x hx := by
    by_cases hxl : x = l.var
    · rw [hxl, show (s.assume f l).mNonassumedTseitinVariable l.var = false from
        update_self _ _ _] at hx
      cases hx
    · rwa [show (s.assume f l).mNonassumedTseitinVariable x = s.mNonassumedTseitinVariable x from
        update_of_ne hxl _ _] at hx

theorem Encoded.assume {received' : List (Formula A)} (hs : s.Encoded var received)
    (hi : s.info f = some i) (hnot : createLiteral var f ∉ s.assumptions)
    (hsub : received ⊆ received') (hf : f ∈ received')
    (hnew : ∀ g ∈ received', g ∈ received ∨ g = f) :
    (s.assume f (createLiteral var f)).Encoded var received' := by
  have he := hs.entry f i hi
  apply hs.extend kept_assume hsub
  case hent =>
    intro h i' hnone hi'
    rw [show (s.assume f (createLiteral var f)).info h = s.info h from rfl, hnone] at hi'
    cases hi'
  case hcov =>
    intro g hg
    obtain hg | rfl := hnew g hg
    · exact Or.inl hg
    · refine Or.inr (.assumed (mem_append_right _ mem_cons_self) he.wellFormed ?_)
      rw [Known, removeNegations_compound he.compound]
      exact fun _ => ⟨i, hi, Or.inr (mem_append_right _ mem_cons_self)⟩
  case hassum => exact Or.inr ⟨f, hf, he.wellFormed, hnot, rfl⟩
  case hmap =>
    intro g l hg
    by_cases hgf : g = f
    · rw [hgf, show (s.assume f (createLiteral var f)).mFormulaAssumptionMap f =
        some (createLiteral var f) from update_self _ _ _] at hg
      cases hg
      exact Or.inr ⟨hgf ▸ he.wellFormed, hgf ▸ rfl, mem_append_right _ mem_cons_self⟩
    · rw [show (s.assume f (createLiteral var f)).mFormulaAssumptionMap g =
        s.mFormulaAssumptionMap g from update_of_ne hgf _ _] at hg
      exact Or.inl hg
  case hliteral =>
    intro g hg hlit
    obtain hg | rfl := hnew g hg
    · exact Or.inl hg
    · have hc := he.compound
      rw [isLiteral_compound hc] at hlit
      cases hlit
  case hassumed =>
    intro g hg hgf
    have hmem : createLiteral var g ∈ (s.assume f (createLiteral var f)).assumptions ↔
        createLiteral var g ∈ s.assumptions ∨ createLiteral var g = createLiteral var f := by
      simp [CnfState.assume]
    rw [hmem]
    by_cases hvar : (createLiteral var g).var = (createLiteral var f).var
    · rw [createLiteral_var_injective hg he.compound hvar]
      simp [CnfState.assume]
    · have hne : createLiteral var g ≠ createLiteral var f := fun heq => hvar (congrArg Lit.var heq)
      rw [show (s.assume f (createLiteral var f)).mAssumedTseitinVariable (createLiteral var g).var =
        s.mAssumedTseitinVariable (createLiteral var g).var from update_of_ne hvar _ _,
        hs.mAssumedTseitinVariable g hg hgf]
      simp [hne]
  case hnonass =>
    intro h j hj hor hasrt hnot'
    have hh := hs.entry h j hj
    have hne : (createLiteral var h).var ≠ (createLiteral var f).var := by
      intro hvar
      rw [createLiteral_var_injective hh.compound he.compound hvar] at hnot'
      exact hnot' (mem_append_right _ mem_cons_self)
    rw [show (s.assume f (createLiteral var f)).mNonassumedTseitinVariable _ =
      s.mNonassumedTseitinVariable _ from update_of_ne hne _ _]
    exact hs.mNonassumedTseitinVariable h j hj hor hasrt fun hmem =>
      hnot' (mem_append_left _ hmem)

/-- The literal of an entry is returned, its uses are counted, and it may have been assumed. -/
theorem reuse_eq (isNary : Connective → Bool) (top : Bool) (hs : s.Encoded var received) (hi : s.info f = some i) :
    ((createLiteral var f ∈ s.assumptions ∨
        top = false ∧ s.mNonassumedTseitinVariable (createLiteral var f).var = false) ∧
      s.reuse isNary top f i = some (createLiteral var f, s.countBy true (uses isNary f))) ∨
    ((createLiteral var f ∉ s.assumptions ∧
        (top = true ∨ s.mNonassumedTseitinVariable (createLiteral var f).var = true)) ∧
      s.reuse isNary top f i = some (createLiteral var f,
        (s.countBy true (uses isNary f)).assume f (createLiteral var f))) := by
  have he := hs.entry f i hi
  have hassum := hs.mAssumedTseitinVariable f he.compound he.wellFormed
  have hcnt : 1 < i.mCounter + 1 := Nat.succ_lt_succ he.mCounter
  simp only [reuse, updateCNFInfoCounter_eq (hs.ready hi), he.mLiteral,
    mAssumedTseitinVariable_countBy, mNonassumedTseitinVariable_countBy,
    mFormulaAssumptionMap_countBy, hcnt, decide_true, Bool.and_true]
  by_cases hmem : createLiteral var f ∈ s.assumptions
  · rw [if_pos (hassum.mpr hmem)]
    exact Or.inl ⟨Or.inl hmem, rfl⟩
  · have hmap : (s.mFormulaAssumptionMap f).isSome = false := by
      rw [isSome_eq_false_iff, isNone_iff_eq_none]
      cases hl : s.mFormulaAssumptionMap f with
      | none => rfl
      | some l =>
        obtain ⟨-, rfl, hl⟩ := hs.mFormulaAssumptionMap f l hl
        exact absurd hl hmem
    rw [if_neg fun h => hmem (hassum.mp h), hmap]
    by_cases hcond : (top || s.mNonassumedTseitinVariable (createLiteral var f).var) = true
    · rw [if_pos hcond, if_neg Bool.false_ne_true]
      exact Or.inr ⟨⟨hmem, Bool.or_eq_true_iff.mp hcond⟩, rfl⟩
    · rw [if_neg hcond]
      rw [Bool.not_eq_true, Bool.or_eq_false_iff] at hcond
      exact Or.inl ⟨Or.inr hcond, rfl⟩

/-! ## Nested formulas -/

theorem Added.of_literal (hs : s.Encoded var received) (hf : wellFormed f = true)
    (hc : isCompound (removeNegations f) = false) : Added isNary var received [f] s s where
  encoded := hs
  grown := Grown.refl s
  known := by
    intro g hg hcomp
    rw [mem_singleton.mp hg, hc] at hcomp
    cases hcomp
  counted := by
    refine ⟨[], nofun, fun h i hnone hi => ?_, fun h => ?_⟩
    · rw [hnone] at hi
      cases hi
    · simp [uses_eq_zero hc (removeNegations_wellFormed hf).2.1]

theorem Added.nil (hs : s.Encoded var received) : Added isNary var received [] s s where
  encoded := hs
  grown := Grown.refl s
  known := nofun
  counted := by
    refine ⟨[], nofun, fun h i hnone hi => ?_, fun h => rfl⟩
    rw [hnone] at hi
    cases hi

theorem Added.append (h₁ : Added isNary var received fs s s')
    (h₂ : Added isNary var received gs s' s'') : Added isNary var received (fs ++ gs) s s'' where
  encoded := h₂.encoded
  grown := h₁.grown.trans h₂.grown
  known f hf := by
    obtain hf | hf := mem_append.mp hf
    · exact (h₁.known f hf).mono h₂.grown.toKept
    · exact h₂.known f hf
  counted := by
    obtain ⟨leaks₁, hleak₁, hargs₁, hcnt₁⟩ := h₁.counted
    obtain ⟨leaks₂, hleak₂, hargs₂, hcnt₂⟩ := h₂.counted
    refine ⟨leaks₁ ++ leaks₂, fun k hk => ?_, fun h i hnone hi k hk => ?_, fun h => ?_⟩
    · obtain hk | hk := mem_append.mp hk
      · obtain ⟨f, hf, hleak⟩ := hleak₁ k hk
        exact ⟨f, mem_append_left _ hf, hleak⟩
      · obtain ⟨f, hf, hleak⟩ := hleak₂ k hk
        exact ⟨f, mem_append_right _ hf, hleak⟩
    · cases hj : s'.info h with
      | none => exact mem_append_right _ (hargs₂ h i hj hi k hk)
      | some j => exact mem_append_left _ (hargs₁ h j hnone hj k hk)
    · rw [hcnt₂, hcnt₁, map_append, usesOf_append, usesOf_append]
      omega

/-- An entry is used once more. -/
theorem Added.of_reuse (hs : s.Encoded var received) (hi : s.info f = some i)
    (hr : s.reusable var f = true) : ∃ s', s.reuse isNary false f i =
      some (createLiteral var f, s') ∧ Added isNary var received [f] s s' := by
  have he := hs.entry f i hi
  have hrem := removeNegations_compound he.compound
  have hup := hs.countUp (n := uses isNary f)
  have hup' : s.Grown var (s.countBy true (uses isNary f)) := grown_countUp
  have hcnt : ∀ h, (s.countBy true (uses isNary f)).counter h =
      s.counter h + usesOf isNary ([f].map removeNegations) h + usesOf isNary [] h := by
    intro h
    rw [counter_countUp (hs.uses_entry hi), map_singleton, hrem, usesOf_cons]
    simp
  obtain ⟨j, hj, hjlit, hjcl, -⟩ := hup'.entry f i hi
  obtain ⟨hknown, h⟩ | ⟨⟨hnot, hnonass⟩, h⟩ := reuse_eq isNary false hs hi
  case inl =>
    refine ⟨_, h, hup, hup', fun g hg hc => ?_, [], fun k hk => absurd hk not_mem_nil,
      fun h k hnone hk => ?_, hcnt⟩
    · obtain rfl := mem_singleton.mp hg
      rw [hrem]
      refine ⟨j, hj, ?_⟩
      obtain hassum | ⟨-, hnonass⟩ := hknown
      · exact Or.inr hassum
      · -- a disjunction that is only asserted would be marked
        obtain hdef | ⟨hasrt, -, -⟩ := he.mClauses
        · exact Or.inl (hjcl.trans hdef)
        · by_contra hno
          have htop := he.encodedAtTop hi hasrt
          rw [reusable, htop, Bool.not_true, Bool.or_false, Bool.or_true, Bool.and_true] at hr
          have hmarked := hs.mNonassumedTseitinVariable g i hi hr hasrt
            fun hmem => hno (Or.inr hmem)
          rw [hnonass] at hmarked
          cases hmarked
    · rw [info_countBy, hnone] at hk
      cases hk
  case inr =>
    -- only the literal of a received formula is marked and its clauses are not the definition
    have hmem : f ∈ received := by
      have hmarked := hnonass.resolve_left Bool.false_ne_true
      obtain hdef | ⟨-, hmem, -⟩ := he.mClauses
      · rw [reusable, he.not_encodedAtTop hi hdef, hmarked] at hr
        simp at hr
      · exact hmem
    have hass := hup.assume hj hnot (List.Subset.refl _) hmem fun g hg => Or.inl hg
    refine ⟨_, h, hass, hup'.trans grown_assume, fun g hg hc => ?_, [],
      fun k hk => absurd hk not_mem_nil, fun h k hnone hk => ?_, hcnt⟩
    · obtain rfl := mem_singleton.mp hg
      rw [hrem]
      exact ⟨j, hj, Or.inr (mem_append_right _ mem_cons_self)⟩
    · rw [show ((s.countBy true (uses isNary f)).assume f _).info h =
        (s.countBy true (uses isNary f)).info h from rfl, info_countBy, hnone] at hk
      cases hk

/-! ## New entries -/

theorem kept_setInfo (hnone : s.info f = none) (i : Option CNFInfos) : s.Kept (s.setInfo f i) where
  entry h j hj := by
    have hh : h ≠ f := by
      rintro rfl
      rw [hnone] at hj
      cases hj
    exact ⟨j, by rw [info_setInfo_of_ne hh, hj], rfl, rfl, le_rfl⟩
  assumptions _ hl := hl
  mFormulaAssumptionMap _ hf := hf

theorem grown_setInfo (hnone : s.info f = none) (hi : i.mClauses = definition var f) :
    s.Grown var (s.setInfo f (some i)) where
  toKept := kept_setInfo hnone _
  fresh h j hj hj' := by
    by_cases hh : h = f
    · rw [hh, info_setInfo_self] at hj'
      cases hj'
      rw [hh, hi]
    · rw [info_setInfo_of_ne hh, hj] at hj'
      cases hj'
  mNonassumedTseitinVariable _ hx := hx

/-- A new entry counts as one use; its arguments have been counted before. -/
theorem counter_setInfo (hnone : s.info (.app c fs) = none) (hi : i.mCounter = 1) :
    (s.setInfo (.app c fs) (some i)).counter h = s.counter h + if .app c fs = h then 1 else 0 := by
  by_cases hh : .app c fs = h
  · rw [← hh, counter, counter, info_setInfo_self, hnone, if_pos rfl]
    exact hi
  · rw [counter, counter, info_setInfo_of_ne (Ne.symm hh), if_neg hh, Nat.add_zero]

omit [DecidableEq A] in
theorem Leak.arg (hf : f ∈ fs) (hl : Leak isNary f k) : Leak isNary (.app c fs) k := by
  obtain ⟨g, hg, hk⟩ := hl
  exact ⟨g, mem_parts_app.mpr (Or.inr ⟨f, hf, hg⟩), hk⟩

omit [DecidableEq A] in
theorem Leak.part (hl : Leak isNary f k) (hf : wellFormed f = true) : k ∈ parts f := by
  obtain ⟨g, hg, hk⟩ := hl
  have hgf := wellFormed_parts hf hg
  cases g with
  | const b => cases hgf
  | atom a => cases hk
  | app c fs =>
    obtain ⟨e, he, rfl⟩ := List.mem_map.mp hk
    have hmem := (mem_filter.mp he).1
    have hepart := (removeNegations_wellFormed ((wellFormed_app hgf).2.1 e hmem)).2.2
    exact parts_trans (mem_parts_app.mpr (Or.inr ⟨e, hmem, hepart⟩)) hg

/-- Nested formulas have not touched the entry of the formula they occur in. -/
theorem Added.info_eq_none (h : Added isNary var received fs s s')
    (hfs : ∀ f ∈ fs, wellFormed f = true) (hnone : s.info (.app c fs) = none) :
    s'.info (.app c fs) = none := by
  cases hi : s'.info (.app c fs) with
  | none => rfl
  | some i =>
    have hpos : 0 < s'.counter (.app c fs) := by
      rw [counter, hi]
      exact (h.encoded.entry _ i hi).mCounter
    obtain ⟨leaks, hleaks, -, hcnt⟩ := h.counted
    rw [hcnt, counter, hnone] at hpos
    have hused : 0 < usesOf isNary (fs.map removeNegations) (.app c fs) ∨
        0 < usesOf isNary leaks (.app c fs) := by
      by_contra hno
      simp only [not_or, Nat.pos_iff_ne_zero, not_not] at hno
      rw [hno.1, hno.2] at hpos
      exact absurd hpos (lt_irrefl _)
    obtain hused | hused := hused
    · obtain ⟨g, hg, hu⟩ := usesOf_pos.mp hused
      obtain ⟨f, hf, rfl⟩ := List.mem_map.mp hg
      exact absurd (parts_trans (mem_parts_of_uses hu) (removeNegations_wellFormed (hfs f hf)).2.2)
        (not_mem_parts_arg hf)
    · obtain ⟨k, hk, hu⟩ := usesOf_pos.mp hused
      obtain ⟨f, hf, hleak⟩ := hleaks k hk
      exact absurd (parts_trans (mem_parts_of_uses hu) (hleak.part (hfs f hf)))
        (not_mem_parts_arg hf)

/-- The uses by a formula that gets its entry after its arguments have been added. -/
theorem Added.counted_new (h : Added isNary var received fs s s')
    (hf : wellFormed (.app c fs) = true) (hnone : s.info (.app c fs) = none)
    (hcnt : i.mCounter = 1)
    (hinfo : ∀ g, s''.info g = (s'.setInfo (.app c fs) (some i)).info g) :
    ∃ leaks : List (Formula A), (∀ k ∈ leaks, Leak isNary (.app c fs) k) ∧
      (∀ h i, s.info h = none → s''.info h = some i → ∀ k ∈ leakedArgs isNary h, k ∈ leaks) ∧
      ∀ h, s''.counter h = s.counter h + uses isNary (.app c fs) h + usesOf isNary leaks h := by
  have hfs := (wellFormed_app hf).2.1
  obtain ⟨leaks, hleaks, hargs, hcount⟩ := h.counted
  refine ⟨leaks ++ leakedArgs isNary (.app c fs), fun k hk => ?_, fun g j hg hj k hk => ?_,
    fun g => ?_⟩
  · obtain hk | hk := mem_append.mp hk
    · obtain ⟨f, hf, hleak⟩ := hleaks k hk
      exact hleak.arg hf
    · exact ⟨_, mem_parts_self _, hk⟩
  · by_cases hgf : g = .app c fs
    · exact mem_append_right _ (hgf ▸ hk)
    · rw [hinfo, info_setInfo_of_ne hgf] at hj
      exact mem_append_left _ (hargs g j hg hj k hk)
  · have huses : (if .app c fs = g then 1 else 0) + usesOf isNary (fs.map removeNegations) g =
        uses isNary (.app c fs) g + usesOf isNary (leakedArgs isNary (.app c fs)) g :=
      by rw [usesOf_args (c := c) hfs, uses, Nat.add_assoc]
    have hcnt' : s''.counter g = (s'.setInfo (.app c fs) (some i)).counter g :=
      congrArg (fun o => (o.map CNFInfos.mCounter).getD 0) (hinfo g)
    rw [hcnt', counter_setInfo (h.info_eq_none hfs hnone) hcnt, hcount, usesOf_append]
    omega

/-- A formula is defined after its arguments. -/
theorem Added.of_new (h : Added isNary var received fs s s') (hc : isCompound (.app c fs) = true)
    (hf : wellFormed (.app c fs) = true) (hnone : s.info (.app c fs) = none)
    (hi : i.mLiteral = createLiteral var (.app c fs)) (hcnt : i.mCounter = 1)
    (hcl : i.mClauses = definition var (.app c fs)) :
    Added isNary var received [.app c fs] s (s'.setInfo (.app c fs) (some i)) := by
  have hfs := (wellFormed_app hf).2.1
  have hnone' := h.info_eq_none hfs hnone
  have hkept := kept_setInfo hnone' (some i)
  have hrem := removeNegations_compound hc
  have he : (s'.setInfo (.app c fs) (some i)).Entry var received (.app c fs) i :=
    ⟨hc, hf, hi, hcnt ▸ Nat.one_pos, Or.inl hcl, fun k hk => (h.known k hk).mono hkept⟩
  refine ⟨?_, h.grown.trans (grown_setInfo hnone' hcl), fun g hg _ => ?_, ?_⟩
  · apply h.encoded.extend hkept (List.Subset.refl received)
    case hent =>
      intro g j hg hj
      by_cases hgf : g = .app c fs
      · rw [hgf, info_setInfo_self] at hj
        cases hj
        exact hgf ▸ he
      · rw [info_setInfo_of_ne hgf, hg] at hj
        cases hj
    case hcov => exact fun g hg => Or.inl hg
    case hassum => exact Or.inl rfl
    case hmap => exact fun f l hf => Or.inl hf
    case hliteral => exact fun f hf _ => Or.inl hf
    case hassumed => exact h.encoded.mAssumedTseitinVariable
    case hnonass =>
      intro g j hj hor hasrt hnot
      by_cases hgf : g = .app c fs
      · rw [hgf, info_setInfo_self] at hj
        cases hj
        rw [hgf] at hasrt
        exact absurd (hcl.symm.trans hasrt) he.definition_ne_assertion
      · rw [info_setInfo_of_ne hgf] at hj
        exact h.encoded.mNonassumedTseitinVariable g j hj hor hasrt hnot
  · obtain rfl := mem_singleton.mp hg
    rw [hrem]
    exact ⟨i, info_setInfo_self _ _ _, Or.inl hcl⟩
  · obtain ⟨leaks, hleaks, hargs, hcount⟩ := h.counted_new hf hnone hcnt fun _ => rfl
    refine ⟨leaks, fun k hk => ⟨_, mem_cons_self, hleaks k hk⟩, hargs, fun g => ?_⟩
    rw [hcount, map_singleton, hrem, usesOf_cons, usesOf_nil, Nat.add_zero]

theorem addClauses_compound {top : Bool} (hc : isCompound (.app c fs) = true) :
    s.addClauses var isNary top (.app c fs) =
      match s.info (.app c fs) with
      | some i => s.reuse isNary top (.app c fs) i
      | none => (s.addClausesAll var isNary fs).bind fun (ls, s) =>
        s.create var top c fs ls := by
  cases c with
  | not => cases hc
  | _ => rfl

theorem addClausesAll_spec
    (ih : ∀ f ∈ fs, ∀ {s : CnfState A},
      (∀ k ∈ parts f, isCompound k = true → s.reusable var k = true) → s.Encoded var received →
        ∃ s', s.addClauses var isNary false f = some (createLiteral var f, s') ∧
          Added isNary var received [f] s s')
    (hr : ∀ f ∈ fs, ∀ k ∈ parts f, isCompound k = true → s.reusable var k = true)
    (hs : s.Encoded var received) :
    ∃ s', s.addClausesAll var isNary fs = some (fs.map (createLiteral var), s') ∧
      Added isNary var received fs s s' := by
  induction fs generalizing s with
  | nil => exact ⟨s, rfl, Added.nil hs⟩
  | cons f fs ihs =>
    obtain ⟨s₁, h₁, hadd⟩ := ih f mem_cons_self (hr f mem_cons_self) hs
    obtain ⟨s₂, h₂, hadds⟩ := ihs (fun g hg => ih g (mem_cons_of_mem f hg))
      (fun g hg k hk hc => hadd.encoded.reusable_grow (hr g (mem_cons_of_mem f hg) k hk hc)
        hadd.grown) hadd.encoded
    refine ⟨s₂, ?_, hadd.append hadds⟩
    rw [addClausesAll, h₁, bind_some]
    simp only [h₂, map_some, map_cons]

/-- Adding a nested formula returns its literal, which may be used then. -/
theorem addClauses_spec (hf : wellFormed f = true)
    (hr : ∀ k ∈ parts f, isCompound k = true → s.reusable var k = true)
    (hs : s.Encoded var received) :
    ∃ s', s.addClauses var isNary false f = some (createLiteral var f, s') ∧
      Added isNary var received [f] s s' := by
  induction f using Formula.induction generalizing s with
  | hconst b => cases hf
  | hatom a => exact ⟨s, by rw [addClauses], Added.of_literal hs hf rfl⟩
  | happ c fs ih =>
    have hfs := (wellFormed_app hf).2.1
    have hargs : ∀ f ∈ fs, ∀ k ∈ parts f, isCompound k = true → s.reusable var k = true :=
      fun f hf k hk hc => hr k (mem_parts_app.mpr (Or.inr ⟨f, hf, hk⟩)) hc
    obtain ⟨s₁, h₁, hadd⟩ :=
      addClausesAll_spec (fun f hf {s} => ih f hf (hfs f hf)) hargs hs
    obtain hneg | ⟨g, hg, hgf, -⟩ := negation_cases hf
    · obtain ⟨a, ⟨⟩⟩ | hc := positive_cases hf hneg
      rw [addClauses_compound hc]
      cases hi : s.info (.app c fs) with
      | some i => exact Added.of_reuse hs hi (hr _ (mem_parts_self _) hc)
      | none =>
        simp only [h₁]
        exact ⟨_, rfl, hadd.of_new hc hf hi rfl rfl rfl⟩
    · obtain ⟨rfl, rfl⟩ : c = .not ∧ fs = [g] := by
        cases hg
        exact ⟨rfl, rfl⟩
      refine ⟨s₁, ?_, hadd.encoded, hadd.grown, fun k hk => ?_, ?_⟩
      · rw [addClauses, h₁, createLiteral_not]
        rfl
      · rw [mem_singleton.mp hk, known_not]
        exact hadd.known g mem_cons_self
      · obtain ⟨leaks, hleaks, hargs, hcnt⟩ := hadd.counted
        refine ⟨leaks, fun k hk => ?_, hargs, fun h => ?_⟩
        · obtain ⟨f, hf, hleak⟩ := hleaks k hk
          exact ⟨_, mem_cons_self, hleak.arg hf⟩
        · rw [hcnt, map_singleton, map_singleton, removeNegations_not]

end CnfState

end Smtrat.SAT
