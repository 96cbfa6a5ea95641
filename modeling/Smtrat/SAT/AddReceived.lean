import Smtrat.SAT.AddNested

/-!
# Receiving formulas

A literal and the literal of a negation become assumptions, and the clauses of any other formula are
stored unless the formula occurs in a received one already; then its literal becomes an assumption.
-/

namespace Smtrat.SAT

open PropFormula List Function Option

universe u

variable {A : Type u} (var : Content A ↪ Var) (isNary : Connective → Bool)

namespace CnfState

variable [DecidableEq A]

/-- The counters are the uses by the received formulas, and by arguments that leak. -/
def Counted (received : List (Formula A)) (s : CnfState A) : Prop :=
  ∃ leaks : List (Formula A), (∀ k ∈ leaks, ∃ f ∈ received, Leak isNary f k) ∧
    (∀ h i, s.info h = some i → ∀ k ∈ leakedArgs isNary h, k ∈ leaks) ∧
    ∀ h, s.counter h = usesOf isNary (received.map removeNegations) h + usesOf isNary leaks h

/-- The database belongs to the received formulas. -/
structure Maintained (received : List (Formula A)) (s : CnfState A) : Prop where
  encoded : s.Encoded var received
  counted : Counted isNary received s

variable {var isNary} {received : List (Formula A)} {s s' : CnfState A} {f g h k : Formula A}
  {fs : List (Formula A)} {c : Connective} {i : CNFInfos} {l : Lit}

omit [DecidableEq A] in
theorem Encoded.not_mem_assumptions (hs : s.Encoded var received) (hf : wellFormed f = true)
    (hnew : f ∉ received) : createLiteral var f ∉ s.assumptions := by
  intro hmem
  obtain ⟨g, hg, hgf, heq⟩ := hs.assumptions _ hmem
  rw [createLiteral_injective hf hgf heq] at hnew
  exact hnew hg

omit [DecidableEq A] in
theorem mem_received_append (hg : g ∈ received ++ [f]) : g ∈ received ∨ g = f := by
  rwa [mem_append, mem_singleton] at hg

/-- Receiving a formula counts its uses. -/
theorem Counted.add (hc : Counted isNary received s)
    (h : ∃ leaks : List (Formula A), (∀ k ∈ leaks, Leak isNary f k) ∧
      (∀ h i, s.info h = none → s'.info h = some i → ∀ k ∈ leakedArgs isNary h, k ∈ leaks) ∧
      ∀ h, s'.counter h = s.counter h + uses isNary (removeNegations f) h + usesOf isNary leaks h) :
    Counted isNary (received ++ [f]) s' := by
  obtain ⟨leaks₁, hleak₁, hargs₁, hcnt₁⟩ := hc
  obtain ⟨leaks₂, hleak₂, hargs₂, hcnt₂⟩ := h
  refine ⟨leaks₁ ++ leaks₂, fun k hk => ?_, fun h i hi k hk => ?_, fun h => ?_⟩
  · obtain hk | hk := mem_append.mp hk
    · obtain ⟨g, hg, hleak⟩ := hleak₁ k hk
      exact ⟨g, mem_append_left _ hg, hleak⟩
    · exact ⟨f, mem_append_right _ mem_cons_self, hleak₂ k hk⟩
  · cases hj : s.info h with
    | none => exact mem_append_right _ (hargs₂ h i hj hi k hk)
    | some j => exact mem_append_left _ (hargs₁ h j hj k hk)
  · rw [hcnt₂, hcnt₁, map_append, usesOf_append, usesOf_append, map_singleton,
      usesOf_cons, usesOf_nil]
    omega

/-- No formula but a literal or a negation has a literal that becomes an assumption this way. -/
theorem Encoded.push (hs : s.Encoded var received) (hf : wellFormed f = true)
    (hc : isCompound f = false) (hnew : f ∉ received) (hk : s.Known var f)
    (hinfo : s'.mFormulaCNFInfosMap = s.mFormulaCNFInfosMap)
    (hassum : s'.assumptions = s.assumptions ++ [createLiteral var f])
    (hmap : s'.mFormulaAssumptionMap = s.mFormulaAssumptionMap ∧ isLiteral f = false ∨
      s'.mFormulaAssumptionMap = update s.mFormulaAssumptionMap f (some (createLiteral var f)))
    (hassumed : s'.mAssumedTseitinVariable = s.mAssumedTseitinVariable)
    (hnonass : s'.mNonassumedTseitinVariable = s.mNonassumedTseitinVariable) :
    s'.Encoded var (received ++ [f]) := by
  have hkept : s.Kept s' := by
    refine ⟨fun h i hi => ⟨i, ?_, rfl, rfl, le_rfl⟩, fun l hl => ?_, fun g hg => ?_⟩
    · rwa [info, hinfo]
    · rw [hassum]
      exact mem_append_left _ hl
    · obtain ⟨hmap, -⟩ | hmap := hmap
      · rwa [hmap]
      · rw [hmap]
        by_cases hgf : g = f
        · rw [hgf, update_self]
          rfl
        · rwa [update_of_ne hgf]
  apply hs.extend hkept (subset_append_left _ _)
  case hent =>
    intro h i hnone hi
    rw [info, hinfo] at hi
    rw [info, hi] at hnone
    cases hnone
  case hcov =>
    intro g hg
    obtain hg | rfl := mem_received_append hg
    · exact Or.inl hg
    · refine Or.inr (.assumed ?_ hf (hk.mono hkept))
      rw [hassum]
      exact mem_append_right _ mem_cons_self
  case hassum =>
    exact Or.inr ⟨f, mem_append_right _ mem_cons_self, hf, hs.not_mem_assumptions hf hnew, hassum⟩
  case hmap =>
    intro g l hg
    obtain ⟨hmap, -⟩ | hmap := hmap
    · rw [hmap] at hg
      exact Or.inl hg
    · rw [hmap] at hg
      by_cases hgf : g = f
      · rw [hgf, update_self] at hg
        cases hg
        rw [hgf, hassum]
        exact Or.inr ⟨hf, rfl, mem_append_right _ mem_cons_self⟩
      · rw [update_of_ne hgf] at hg
        exact Or.inl hg
  case hliteral =>
    intro g hg hlit
    obtain hg | rfl := mem_received_append hg
    · exact Or.inl hg
    · obtain ⟨-, hno⟩ | hmap := hmap
      · rw [hno] at hlit
        cases hlit
      · rw [hmap, update_self]
        exact Or.inr rfl
  case hassumed =>
    intro g hg hgf
    have hne : createLiteral var g ≠ createLiteral var f := by
      intro heq
      rw [createLiteral_injective hgf hf heq, hc] at hg
      cases hg
    rw [hassumed, hs.mAssumedTseitinVariable g hg hgf, hassum]
    simp [hne]
  case hnonass =>
    intro h i hi hor hasrt hnot
    rw [info, hinfo] at hi
    rw [hnonass]
    refine hs.mNonassumedTseitinVariable h i hi hor hasrt fun hmem => hnot ?_
    rw [hassum]
    exact mem_append_left _ hmem

/-! ## Kinds of received formulas -/

theorem Maintained.add_const (hs : s.Maintained var isNary received) :
    s.Maintained var isNary (received ++ [.const true]) where
  encoded := by
    apply hs.encoded.extend (Kept.refl s) (subset_append_left _ _)
    case hent =>
      intro h i hnone hi
      rw [hi] at hnone
      cases hnone
    case hcov => exact fun g hg => (mem_received_append hg).imp_right .const
    case hassum => exact Or.inl rfl
    case hmap => exact fun f l hf => Or.inl hf
    case hliteral =>
      intro g hg hlit
      obtain hg | rfl := mem_received_append hg
      · exact Or.inl hg
      · cases hlit
    case hassumed => exact hs.encoded.mAssumedTseitinVariable
    case hnonass => exact hs.encoded.mNonassumedTseitinVariable
  counted := by
    refine hs.counted.add ⟨[], nofun, fun h i hnone hi => ?_, fun h => rfl⟩
    rw [hi] at hnone
    cases hnone

theorem addCore_of_wellFormed (hf : wellFormed f = true) : s.addCore var isNary f =
    if isLiteral f then
      if (s.mFormulaAssumptionMap f).isSome then none
      else some { s with
        assumptions := s.assumptions ++ [createLiteral var f]
        mFormulaAssumptionMap :=
          update s.mFormulaAssumptionMap f (some (createLiteral var f)) }
    else (s.addClauses var isNary true f).map (·.2) := by
  cases f with
  | const b => cases hf
  | atom a => rfl
  | app c fs => rfl

omit [DecidableEq A] in
theorem isLiteral_spec (hf : isLiteral f = true) : isCompound f = false ∧
    isCompound (removeNegations f) = false := by
  cases f with
  | const b => cases hf
  | atom a => exact ⟨rfl, rfl⟩
  | app c fs =>
    cases c with
    | not =>
      match fs, hf with
      | [.atom a], _ => exact ⟨rfl, rfl⟩
    | and | or | implies | xor | iff | ite => cases hf

theorem Maintained.add_literal (hs : s.Maintained var isNary received)
    (hf : wellFormed f = true) (hlit : isLiteral f = true) (hnew : f ∉ received) :
    ∃ s', s.addCore var isNary f = some s' ∧ s'.Maintained var isNary (received ++ [f]) := by
  obtain ⟨hc, hrem⟩ := isLiteral_spec hlit
  have hmap : (s.mFormulaAssumptionMap f).isSome = false := by
    rw [isSome_eq_false_iff, isNone_iff_eq_none]
    cases hl : s.mFormulaAssumptionMap f with
    | none => rfl
    | some l =>
      obtain ⟨-, rfl, hl⟩ := hs.encoded.mFormulaAssumptionMap f l hl
      exact absurd hl (hs.encoded.not_mem_assumptions hf hnew)
  have hknown : s.Known var f := by
    intro hcomp
    rw [hrem] at hcomp
    cases hcomp
  rw [addCore_of_wellFormed hf, if_pos hlit, if_neg (by rw [hmap]; nofun)]
  refine ⟨_, rfl, hs.encoded.push hf hc hnew hknown rfl rfl (Or.inr rfl) rfl rfl,
    hs.counted.add ⟨[], nofun, fun h i hnone hi => ?_, fun h => ?_⟩⟩
  · rw [show s.info h = some i from hi] at hnone
    cases hnone
  · rw [uses_eq_zero hrem (removeNegations_wellFormed hf).2.1]
    rfl

/-- What has been added nested before the received formula itself. -/
theorem Added.of_parts (isNary : Connective → Bool) (hs : s.Encoded var received) (hfs : ∀ f ∈ fs, wellFormed f = true)
    (hr : ∀ k ∈ partsAll fs, isCompound k = true → s.reusable var k = true) :
    ∃ s', s.addClausesAll var isNary fs = some (fs.map (createLiteral var), s') ∧
      Added isNary var received fs s s' :=
  addClausesAll_spec (fun f hf {_} => addClauses_spec (hfs f hf))
    (fun f hf k hk => hr k (mem_partsAll.mpr ⟨f, hf, hk⟩)) hs

theorem Maintained.add_negation (hs : s.Maintained var isNary received)
    (hf : wellFormed (.app .not [g]) = true) (hlit : isLiteral (.app .not [g]) = false)
    (hnew : .app .not [g] ∉ received)
    (hr : ∀ k ∈ partsAll [g], isCompound k = true → s.reusable var k = true) :
    ∃ s', s.addCore var isNary (.app .not [g]) = some s' ∧
      s'.Maintained var isNary (received ++ [.app .not [g]]) := by
  have hfs := (wellFormed_app hf).2.1
  obtain ⟨s₁, h₁, hadd⟩ := Added.of_parts isNary hs.encoded hfs hr
  rw [addCore_of_wellFormed hf, if_neg (by rw [hlit]; nofun), addClauses, h₁]
  refine ⟨_, rfl, hadd.encoded.push hf rfl hnew (known_not.mpr (hadd.known g mem_cons_self))
    rfl (by rw [createLiteral_not]) (Or.inl ⟨rfl, hlit⟩) rfl rfl, hs.counted.add ?_⟩
  obtain ⟨leaks, hleaks, hargs, hcnt⟩ := hadd.counted
  refine ⟨leaks, fun k hk => ?_, hargs, fun h => ?_⟩
  · obtain ⟨f, hf, hleak⟩ := hleaks k hk
    exact hleak.arg hf
  · refine (hcnt h).trans ?_
    rw [map_singleton, usesOf_cons, usesOf_nil, Nat.add_zero, removeNegations_not]

/-- A formula with an entry is used once more and assumed. -/
theorem Maintained.add_known (hs : s.Maintained var isNary received)
    (hi : s.info f = some i) (hnew : f ∉ received) :
    ∃ s', s.addCore var isNary f = some s' ∧ s'.Maintained var isNary (received ++ [f]) := by
  have he := hs.encoded.entry f i hi
  have hrem := removeNegations_compound he.compound
  have hnot := hs.encoded.not_mem_assumptions he.wellFormed hnew
  have hadd : s.addClauses var isNary true f = s.reuse isNary true f i := by
    have hc := he.compound
    obtain ⟨c, fs, rfl, -⟩ := exists_app_of_isCompound hc
    rw [addClauses_compound hc, hi]
  rw [addCore_of_wellFormed he.wellFormed, isLiteral_compound he.compound, if_neg nofun, hadd]
  obtain ⟨hassum | ⟨⟨⟩, -⟩, -⟩ | ⟨-, h⟩ := reuse_eq isNary true hs.encoded hi
  · exact absurd hassum hnot
  · obtain ⟨j, hj, -⟩ := (kept_countUp (n := uses isNary f)).entry f i hi
    rw [h]
    refine ⟨_, rfl, hs.encoded.countUp.assume hj hnot (subset_append_left _ _)
      (mem_append_right _ mem_cons_self) fun g hg => mem_received_append hg,
      hs.counted.add ⟨[], nofun, fun h j hnone hj => ?_, fun h => ?_⟩⟩
    · rw [show ((s.countBy true (uses isNary f)).assume f _).info h =
        (s.countBy true (uses isNary f)).info h from rfl, info_countBy, hnone] at hj
      cases hj
    · rw [hrem]
      exact counter_countUp (hs.encoded.uses_entry hi)

/-- What is stored for a formula that is received and has no entry. -/
theorem create_top (hc : isCompound (.app c fs) = true)
    (hand : (Formula.app c fs).isConjunction = false)
    (hassum : s.mAssumedTseitinVariable (createLiteral var (.app c fs)).var = false) :
    ∃ s', s.create var true c fs (fs.map (createLiteral var)) =
        some (createLiteral var (.app c fs), s') ∧
      (∀ h, s'.info h = (s.setInfo (.app c fs) (some ⟨createLiteral var (.app c fs), 1,
        assertion var (.app c fs)⟩)).info h) ∧
      s'.assumptions = s.assumptions ∧ s'.mFormulaAssumptionMap = s.mFormulaAssumptionMap ∧
      s'.mAssumedTseitinVariable = s.mAssumedTseitinVariable ∧
      (∀ x, s.mNonassumedTseitinVariable x = true → s'.mNonassumedTseitinVariable x = true) ∧
      (isDisjunction (.app c fs) = true →
        s'.mNonassumedTseitinVariable (createLiteral var (.app c fs)).var = true) := by
  cases c with
  | not => cases hc
  | and => cases hand
  | or =>
    rw [create, if_pos rfl]
    simp only [hassum]
    refine ⟨_, rfl, fun _ => rfl, rfl, rfl, rfl, fun x hx => ?_, fun _ => ?_⟩
    · by_cases hxl : x = (createLiteral var (.app .or fs)).var
      · rw [hxl]
        exact update_self _ _ _
      · exact (update_of_ne hxl _ _).trans hx
    · exact update_self _ _ _
  | implies | xor | iff | ite =>
    exact ⟨_, rfl, fun _ => rfl, rfl, rfl, rfl, fun _ hx => hx, fun h => by cases h⟩

theorem Maintained.add_new (hs : s.Maintained var isNary received)
    (hf : wellFormed (.app c fs) = true) (hc : isCompound (.app c fs) = true)
    (hand : (Formula.app c fs).isConjunction = false) (hnone : s.info (.app c fs) = none)
    (hnew : .app c fs ∉ received)
    (hr : ∀ k ∈ partsAll fs, isCompound k = true → s.reusable var k = true) :
    ∃ s', s.addCore var isNary (.app c fs) = some s' ∧
      s'.Maintained var isNary (received ++ [.app c fs]) := by
  obtain ⟨s₁, h₁, hadd⟩ := Added.of_parts isNary hs.encoded (wellFormed_app hf).2.1 hr
  have hnone' := hadd.info_eq_none (wellFormed_app hf).2.1 hnone
  have hnot := hadd.encoded.not_mem_assumptions hf hnew
  have hassumed : s₁.mAssumedTseitinVariable (createLiteral var (.app c fs)).var = false := by
    rw [← Bool.not_eq_true, hadd.encoded.mAssumedTseitinVariable _ hc hf]
    exact hnot
  obtain ⟨s₂, h₂, hinfo, hass, hmap, hflag, hmarks, hmark⟩ := create_top hc hand hassumed
  have hself : s₂.info (.app c fs) = some ⟨createLiteral var (.app c fs), 1,
      assertion var (.app c fs)⟩ := by
    rw [hinfo, info_setInfo_self]
  have hother : ∀ h, h ≠ .app c fs → s₂.info h = s₁.info h := by
    intro h hh
    rw [hinfo, info_setInfo_of_ne hh]
  have hkept : s₁.Kept s₂ := by
    have hset := kept_setInfo hnone' (some ⟨createLiteral var (.app c fs), 1,
      assertion var (.app c fs)⟩)
    refine ⟨fun h i hi => ?_, fun l hl => hass ▸ hl, fun g hg => hmap ▸ hg⟩
    obtain ⟨j, hj, h⟩ := hset.entry h i hi
    exact ⟨j, (hinfo _).trans hj, h⟩
  have hadded : s.addClauses var isNary true (.app c fs) =
      some (createLiteral var (.app c fs), s₂) := by
    rw [addClauses_compound hc, hnone]
    simp only [h₁, bind_some]
    exact h₂
  rw [addCore_of_wellFormed hf, isLiteral_compound hc, if_neg nofun, hadded]
  refine ⟨_, rfl, ?_, ?_⟩
  · apply hadd.encoded.extend hkept (subset_append_left _ _)
    case hent =>
      intro h i hnone hi
      by_cases hh : h = .app c fs
      · rw [hh, hself] at hi
        cases hi
        rw [hh]
        exact ⟨hc, hf, rfl, Nat.one_pos,
          Or.inr ⟨rfl, mem_append_right _ mem_cons_self, hand⟩,
          fun k hk => (hadd.known k hk).mono hkept⟩
      · rw [hother h hh, hnone] at hi
        cases hi
    case hcov =>
      intro g hg
      obtain hg | rfl := mem_received_append hg
      · exact Or.inl hg
      · exact Or.inr (.asserted _ hself rfl hand)
    case hassum => exact Or.inl hass
    case hmap => exact fun f l hf => Or.inl (hmap ▸ hf)
    case hliteral =>
      intro g hg hlit
      obtain hg | rfl := mem_received_append hg
      · exact Or.inl hg
      · rw [isLiteral_compound hc] at hlit
        cases hlit
    case hassumed =>
      intro g hg hgf
      rw [hflag, hass]
      exact hadd.encoded.mAssumedTseitinVariable g hg hgf
    case hnonass =>
      intro h i hi hor hasrt hnot
      by_cases hh : h = .app c fs
      · rw [hh] at hor ⊢
        exact hmark hor
      · rw [hother h hh] at hi
        rw [hass] at hnot
        exact hmarks _ (hadd.encoded.mNonassumedTseitinVariable h i hi hor hasrt hnot)
  · apply hs.counted.add
    rw [removeNegations_compound hc]
    exact hadd.counted_new hf hnone rfl hinfo

/-- Receiving a formula keeps the database, provided that the formulas in it can be reused. -/
theorem Maintained.addCore (hs : s.Maintained var isNary received) (hnew : f ∉ received)
    (hf : (f.isAtom || wellFormed f && !f.isConjunction) = true) (hfalse : f ≠ .const false)
    (hr : ∀ k ∈ partsAll f.subformulas, isCompound k = true → s.reusable var k = true) :
    ∃ s', s.addCore var isNary f = some s' ∧ s'.Maintained var isNary (received ++ [f]) := by
  cases f with
  | const b =>
    cases b with
    | false => exact absurd rfl hfalse
    | true => exact ⟨s, rfl, hs.add_const⟩
  | atom a => exact hs.add_literal rfl rfl hnew
  | app c fs =>
    obtain ⟨hf, hand⟩ : wellFormed (.app c fs) = true ∧
        (Formula.app c fs).isConjunction = false := by
      simpa [Formula.isAtom] using hf
    obtain hneg | ⟨g, hg, -, -⟩ := negation_cases hf
    · obtain ⟨a, ⟨⟩⟩ | hc := positive_cases hf hneg
      cases hi : s.info (.app c fs) with
      | some i => exact hs.add_known hi hnew
      | none => exact hs.add_new hf hc hand hi hnew hr
    · obtain ⟨rfl, rfl⟩ : c = .not ∧ fs = [g] := by
        cases hg
        exact ⟨rfl, rfl⟩
      cases hlit : isLiteral (.app .not [g]) with
      | true => exact hs.add_literal hf hlit hnew
      | false => exact hs.add_negation hf hlit hnew hr

end CnfState

end Smtrat.SAT
