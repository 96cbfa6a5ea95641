import Smtrat.SAT.Encoded

/-!
# The database while a formula is added

Entries keep their clauses, new ones are definitions, and no assumption is lost, so that a literal
that may be used can be used from then on.
-/

namespace Smtrat.SAT

open PropFormula List

universe u

variable {A : Type u} (var : Content A ↪ Var)

theorem definition_mentions {h : Formula A} (hc : isCompound h = true)
    (hf : wellFormed h = true) :
    ∃ cl ∈ definition var h, ∃ l ∈ cl, l.var = (createLiteral var h).var := by
  obtain ⟨c, fs, rfl, hop⟩ := exists_app_of_isCompound hc
  apply tseitinClauses_mentions hop
  rw [length_map]
  exact (wellFormed_app hf).1

/-- No argument has the literal of the formula. -/
theorem createLiteral_arg_ne {h k : Formula A} (hc : isCompound h = true)
    (hf : wellFormed h = true) (hk : k ∈ h.subformulas) :
    (createLiteral var k).var ≠ (createLiteral var h).var := by
  obtain ⟨c, fs, rfl, -⟩ := exists_app_of_isCompound hc
  have hkf : wellFormed k = true := wellFormed_subformulas hf k hk
  rw [createLiteral_eq hkf, createLiteral_compound hc, ← content_compound hc]
  intro heq
  have hmem := (removeNegations_wellFormed hkf).2.2
  rw [content_injective (var.injective heq)] at hmem
  exact not_mem_parts_arg hk hmem

namespace CnfState

/-- The clauses of the formula say nothing about its literal. -/
def encodedAtTop (s : CnfState A) (f : Formula A) : Bool :=
  match s.info f with
  | none => false
  | some i => i.mClauses.all fun c => c.all fun l => l.var ≠ i.mLiteral.var

/-- The formula may occur in one that is added: if its clauses are only those of a received formula,
it is a disjunction, and it is marked as not assumed only then. -/
def reusable (s : CnfState A) (f : Formula A) : Bool :=
  (isDisjunction f || !s.encodedAtTop f) &&
    (!s.mNonassumedTseitinVariable (createLiteral var f).var || s.encodedAtTop f)

/-- What stays while a formula is added. -/
structure Kept (s s' : CnfState A) : Prop where
  entry : ∀ h i, s.info h = some i → ∃ i', s'.info h = some i' ∧ i'.mLiteral = i.mLiteral ∧
    i'.mClauses = i.mClauses ∧ i.mCounter ≤ i'.mCounter
  assumptions : ∀ l ∈ s.assumptions, l ∈ s'.assumptions
  mFormulaAssumptionMap : ∀ f, (s.mFormulaAssumptionMap f).isSome = true →
    (s'.mFormulaAssumptionMap f).isSome = true

/-- What nested formulas add. -/
structure Grown (s s' : CnfState A) : Prop extends Kept s s' where
  fresh : ∀ h i', s.info h = none → s'.info h = some i' → i'.mClauses = definition var h
  mNonassumedTseitinVariable : ∀ x, s'.mNonassumedTseitinVariable x = true →
    s.mNonassumedTseitinVariable x = true

variable {var} {received received' : List (Formula A)} {s s' s'' : CnfState A}
  {f g h k : Formula A} {i : CNFInfos}

theorem Kept.refl (s : CnfState A) : s.Kept s where
  entry _ i hi := ⟨i, hi, rfl, rfl, le_rfl⟩
  assumptions _ hl := hl
  mFormulaAssumptionMap _ hf := hf

theorem Grown.refl (s : CnfState A) : s.Grown var s where
  toKept := Kept.refl s
  fresh h i' hnone hi := by
    rw [hnone] at hi
    cases hi
  mNonassumedTseitinVariable _ hx := hx

theorem Grown.trans (h₁ : s.Grown var s') (h₂ : s'.Grown var s'') : s.Grown var s'' where
  entry h i hi := by
    obtain ⟨j, hj, hlit, hcl, hle⟩ := h₁.entry h i hi
    obtain ⟨k, hk, hlit', hcl', hle'⟩ := h₂.entry h j hj
    exact ⟨k, hk, hlit'.trans hlit, hcl'.trans hcl, hle.trans hle'⟩
  fresh h k hnone hk := by
    cases hj : s'.info h with
    | none => exact h₂.fresh h k hj hk
    | some j =>
      obtain ⟨k', hk', -, hcl, -⟩ := h₂.entry h j hj
      rw [hk] at hk'
      cases hk'
      exact hcl.trans (h₁.fresh h j hnone hj)
  assumptions l hl := h₂.assumptions l (h₁.assumptions l hl)
  mFormulaAssumptionMap f hf := h₂.mFormulaAssumptionMap f (h₁.mFormulaAssumptionMap f hf)
  mNonassumedTseitinVariable x hx :=
    h₁.mNonassumedTseitinVariable x (h₂.mNonassumedTseitinVariable x hx)

theorem Known.mono (hk : s.Known var f) (hg : s.Kept s') : s'.Known var f := by
  intro hc
  obtain ⟨i, hi, hdef⟩ := hk hc
  obtain ⟨i', hi', -, hcl, -⟩ := hg.entry _ i hi
  refine ⟨i', hi', ?_⟩
  obtain hdef | hassum := hdef
  · exact Or.inl (hcl.trans hdef)
  · exact Or.inr (hg.assumptions _ hassum)

theorem Covered.mono (hc : s.Covered var f) (hg : s.Kept s') : s'.Covered var f := by
  cases hc with
  | const h => exact .const h
  | assumed h hf hk => exact .assumed (hg.assumptions _ h) hf (hk.mono hg)
  | asserted i h hi hand =>
    obtain ⟨i', hi', -, hcl, -⟩ := hg.entry f i h
    exact .asserted i' hi' (hcl.trans hi) hand

theorem Entry.mono {i' : CNFInfos} (he : s.Entry var received h i) (hi : s.info h = some i)
    (hi' : s'.info h = some i') (hg : s.Kept s') (hsub : received ⊆ received') :
    s'.Entry var received' h i' := by
  obtain ⟨j, hj, hlit, hcl, hle⟩ := hg.entry h i hi
  rw [hi'] at hj
  cases hj
  exact {
    compound := he.compound
    wellFormed := he.wellFormed
    mLiteral := hlit.trans he.mLiteral
    mCounter := he.mCounter.trans_le hle
    mClauses := by
      rw [hcl]
      exact he.mClauses.imp_right fun ⟨h₁, h₂, h₃⟩ => ⟨h₁, hsub h₂, h₃⟩
    args := fun k hk => (he.args k hk).mono hg }

/-! ## The depth of an encoding -/

theorem Entry.not_encodedAtTop (he : s.Entry var received h i) (hi : s.info h = some i)
    (hdef : i.mClauses = definition var h) : s.encodedAtTop h = false := by
  obtain ⟨cl, hcl, l, hl, hvar⟩ := definition_mentions var he.compound he.wellFormed
  rw [encodedAtTop, hi]
  simp only [all_eq_false]
  refine ⟨cl, hdef ▸ hcl, ?_⟩
  simp only [all_eq_true, decide_eq_true_eq, not_forall]
  exact ⟨l, hl, fun hne => hne (hvar.trans (congrArg Lit.var he.mLiteral.symm))⟩

theorem Entry.assertion_vars (he : s.Entry var received h i) {cl : Clause} (hcl : cl ∈ assertion var h)
    {l : Lit} (hl : l ∈ cl) : l.var ≠ (createLiteral var h).var := by
  have hc := he.compound
  obtain ⟨c, fs, rfl, -⟩ := exists_app_of_isCompound hc
  obtain ⟨k, hk, hlk⟩ := topClauses_vars hcl hl
  obtain ⟨g, hg, rfl⟩ := mem_map.mp hk
  exact fun hvar => createLiteral_arg_ne var hc he.wellFormed hg (hlk.symm.trans hvar)

theorem Entry.encodedAtTop (he : s.Entry var received h i) (hi : s.info h = some i)
    (hasrt : i.mClauses = assertion var h) : s.encodedAtTop h = true := by
  rw [CnfState.encodedAtTop, hi]
  simp only [all_eq_true, decide_eq_true_eq]
  intro cl hcl l hl hvar
  rw [hasrt] at hcl
  exact he.assertion_vars hcl hl (hvar.trans (congrArg Lit.var he.mLiteral))

theorem Entry.definition_ne_assertion (he : s.Entry var received h i) :
    definition var h ≠ assertion var h := by
  intro heq
  obtain ⟨cl, hcl, l, hl, hvar⟩ := definition_mentions var he.compound he.wellFormed
  rw [heq] at hcl
  exact he.assertion_vars hcl hl hvar

theorem Entry.clauses_ne_nil (he : s.Entry var received h i) : i.mClauses ≠ [] := by
  obtain hdef | ⟨hasrt, -, hand⟩ := he.mClauses
  · obtain ⟨cl, hcl, -⟩ := definition_mentions var he.compound he.wellFormed
    rw [hdef]
    exact ne_nil_of_mem hcl
  · obtain ⟨c, fs, rfl, hop⟩ := exists_app_of_isCompound he.compound
    rw [hasrt]
    apply topClauses_ne_nil hop
    · rintro rfl
      cases hand
    · rw [length_map]
      exact (wellFormed_app he.wellFormed).1

/-- The invariant after some growth: only what is new has to be looked at. -/
theorem Encoded.extend (hs : s.Encoded var received) (hg : s.Kept s')
    (hsub : received ⊆ received')
    (hent : ∀ h i, s.info h = none → s'.info h = some i → s'.Entry var received' h i)
    (hcov : ∀ f ∈ received', f ∈ received ∨ s'.Covered var f)
    (hassum : s'.assumptions = s.assumptions ∨ ∃ f ∈ received', wellFormed f = true ∧
      createLiteral var f ∉ s.assumptions ∧ s'.assumptions = s.assumptions ++ [createLiteral var f])
    (hmap : ∀ f l, s'.mFormulaAssumptionMap f = some l → s.mFormulaAssumptionMap f = some l ∨
      wellFormed f = true ∧ l = createLiteral var f ∧ l ∈ s'.assumptions)
    (hliteral : ∀ f ∈ received', isLiteral f = true →
      f ∈ received ∨ (s'.mFormulaAssumptionMap f).isSome = true)
    (hassumed : ∀ f, isCompound f = true → wellFormed f = true →
      (s'.mAssumedTseitinVariable (createLiteral var f).var = true ↔
        createLiteral var f ∈ s'.assumptions))
    (hnonass : ∀ h i, s'.info h = some i → isDisjunction h = true →
      i.mClauses = assertion var h → createLiteral var h ∉ s'.assumptions →
        s'.mNonassumedTseitinVariable (createLiteral var h).var = true) :
    s'.Encoded var received' where
  entry h i' hi' := by
    cases hi : s.info h with
    | none => exact hent h i' hi hi'
    | some i => exact (hs.entry h i hi).mono hi hi' hg hsub
  covered f hf := by
    obtain hf | hf := hcov f hf
    · exact (hs.covered f hf).mono hg
    · exact hf
  assumptions l hl := by
    obtain heq | ⟨f, hf, hwf, -, heq⟩ := hassum
    · rw [heq] at hl
      obtain ⟨f, hf, h⟩ := hs.assumptions l hl
      exact ⟨f, hsub hf, h⟩
    · rw [heq, mem_append, mem_singleton] at hl
      obtain hl | rfl := hl
      · obtain ⟨f, hf, h⟩ := hs.assumptions l hl
        exact ⟨f, hsub hf, h⟩
      · exact ⟨f, hf, hwf, rfl⟩
  nodup := by
    obtain heq | ⟨f, -, -, hnot, heq⟩ := hassum
    · rw [heq]
      exact hs.nodup
    · rw [heq, nodup_append]
      refine ⟨hs.nodup, pairwise_singleton _ _, fun l hl k hk => ?_⟩
      rw [mem_singleton.mp hk]
      rintro rfl
      exact hnot hl
  mFormulaAssumptionMap f l hf := by
    obtain hf | hf := hmap f l hf
    · obtain ⟨hwf, hl, hmem⟩ := hs.mFormulaAssumptionMap f l hf
      exact ⟨hwf, hl, hg.assumptions l hmem⟩
    · exact hf
  literal f hf hlit := by
    obtain hf | hf := hliteral f hf hlit
    · exact hg.mFormulaAssumptionMap f (hs.literal f hf hlit)
    · exact hf
  mAssumedTseitinVariable := hassumed
  mNonassumedTseitinVariable := hnonass

/-- What may be reused can still be reused later. -/
theorem Encoded.reusable_grow (hs : s'.Encoded var received) (hr : s.reusable var k = true)
    (hg : s.Grown var s') : s'.reusable var k = true := by
  have htop : s'.encodedAtTop k = s.encodedAtTop k := by
    cases hk : s.info k with
    | none =>
      rw [show s.encodedAtTop k = false by rw [encodedAtTop, hk]]
      cases hk' : s'.info k with
      | none => rw [encodedAtTop, hk']
      | some i' => exact (hs.entry k i' hk').not_encodedAtTop hk' (hg.fresh k i' hk hk')
    | some i =>
      obtain ⟨i', hi', hlit, hcl, -⟩ := hg.entry k i hk
      rw [encodedAtTop, encodedAtTop, hk, hi']
      simp only [hlit, hcl]
  rw [reusable, Bool.and_eq_true, Bool.or_eq_true, Bool.or_eq_true, htop] at *
  refine hr.imp_right (Or.imp_left fun hx => ?_)
  rw [Bool.not_eq_true'] at hx ⊢
  by_contra hx'
  rw [hg.mNonassumedTseitinVariable _ (by simpa using hx')] at hx
  cases hx

end CnfState

end Smtrat.SAT
