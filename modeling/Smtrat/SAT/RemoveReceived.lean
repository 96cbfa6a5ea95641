import Smtrat.SAT.AddReceived

/-!
# Removing formulas

A formula that is removed takes its uses back.  What is left belongs to the other formulas if no use
has leaked and the literal of the formula has not become an assumption.
-/

namespace Smtrat.SAT

open PropFormula List Function

universe u

variable {A : Type u} {var : Content A ↪ Var} {isNary : Connective → Bool}

namespace CnfState

variable [DecidableEq A] {received : List (Formula A)} {s s' : CnfState A} {f g h k : Formula A}
  {fs : List (Formula A)} {c : Connective} {i : CNFInfos} {l : Lit}

/-- All uses of the formula and of its subformulas are counted. -/
def countable (isNary : Connective → Bool) (f : Formula A) : Bool :=
  (parts f).all fun g => (leakedArgs isNary g).isEmpty

omit [DecidableEq A] in
theorem countable_iff : countable isNary f = true ↔ ∀ k, ¬Leak isNary f k := by
  rw [countable, all_eq_true]
  constructor
  · rintro h k ⟨g, hg, hk⟩
    rw [List.isEmpty_iff.mp (h g hg)] at hk
    cases hk
  · intro h g hg
    rw [List.isEmpty_iff, eq_nil_iff_forall_not_mem]
    exact fun k hk => h k ⟨g, hg, hk⟩

/-! ## Formulas in other formulas -/

omit [DecidableEq A] in
/-- The literals of all subformulas may be used. -/
theorem Encoded.known_parts (hs : s.Encoded var received) (hf : wellFormed f = true)
    (hk : s.Known var f) (hg : g ∈ parts f) : s.Known var g := by
  induction f using Formula.induction with
  | hconst b => cases hf
  | hatom a =>
    rw [parts, mem_singleton] at hg
    rwa [hg]
  | happ c fs ih =>
    have hfs := (wellFormed_app hf).2.1
    obtain rfl | ⟨e, he, hge⟩ := mem_parts_app.mp hg
    · exact hk
    · obtain hneg | ⟨k, hk', -, -⟩ := negation_cases hf
      · obtain ⟨a, ⟨⟩⟩ | hc := positive_cases hf hneg
        rw [Known, removeNegations_compound hc] at hk
        obtain ⟨i, hi, -⟩ := hk hc
        exact ih e he (hfs e he) ((hs.entry _ i hi).args e he) hge
      · obtain ⟨rfl, rfl⟩ : c = .not ∧ fs = [k] := by
          cases hk'
          exact ⟨rfl, rfl⟩
        obtain rfl := mem_singleton.mp he
        exact ih e he (hfs e he) (known_not.mp hk) hge

omit [DecidableEq A] in
theorem Encoded.entry_parts (hs : s.Encoded var received) (hi : s.info f = some i)
    (hg : g ∈ parts f) : g = f ∨ s.Known var g := by
  have he := hs.entry f i hi
  obtain ⟨c, fs, rfl, -⟩ := exists_app_of_isCompound he.compound
  obtain rfl | ⟨e, hmem, hg⟩ := mem_parts_app.mp hg
  · exact Or.inl rfl
  · exact Or.inr (hs.known_parts (wellFormed_subformulas he.wellFormed e hmem) (he.args e hmem) hg)

omit [DecidableEq A] in
theorem Encoded.wellFormed_leak (hs : s.Encoded var received) (hg : g ∈ received)
    (hl : Leak isNary g k) : wellFormed g = true := by
  cases hs.covered g hg with
  | const h =>
    obtain ⟨p, hp, hk⟩ := hl
    rw [h, parts, mem_singleton] at hp
    rw [hp] at hk
    cases hk
  | assumed _ hf _ => exact hf
  | asserted i hi _ _ => exact (hs.entry g i hi).wellFormed

omit [DecidableEq A] in
/-- A use that has leaked is one of a literal that may be used. -/
theorem Encoded.known_leak (hs : s.Encoded var received) (hg : g ∈ received)
    (hl : Leak isNary g k) : s.Known var k ∧ wellFormed k = true ∧ isCompound k = true := by
  have hwf := hs.wellFormed_leak hg hl
  obtain ⟨p, hp, hk⟩ := hl
  have hpf := wellFormed_parts hwf hp
  cases p with
  | const b => cases hpf
  | atom a => cases hk
  | app c fs =>
    obtain ⟨e, hmem, rfl⟩ := mem_map.mp hk
    obtain ⟨he, hcond⟩ := mem_filter.mp hmem
    have hef := (wellFormed_app hpf).2.1 e he
    have hpart : e ∈ parts g := parts_trans
      (mem_parts_app.mpr (Or.inr ⟨e, he, mem_parts_self e⟩)) hp
    have hknown : s.Known var e := by
      cases hs.covered g hg with
      | const h =>
        rw [h] at hwf
        cases hwf
      | assumed _ _ hk => exact hs.known_parts hwf hk hpart
      | asserted i hi _ _ =>
        refine (hs.entry_parts hi hpart).resolve_left ?_
        rintro rfl
        exact not_mem_parts_arg he hp
    rw [Bool.and_eq_true] at hcond
    refine ⟨?_, (removeNegations_wellFormed hef).1, hcond.1⟩
    obtain ⟨hwf, hneg, -⟩ := removeNegations_wellFormed hef
    rwa [Known, removeNegations_positive hwf hneg]

/-! ## Counting down -/

omit [DecidableEq A] in
theorem counts_false (n : Nat) (i : CNFInfos) : counts false n (some i) =
    if n = 0 then some i
    else if i.mCounter ≤ n then none
    else some { i with mCounter := i.mCounter - n } := by
  rw [counts, if_neg Bool.false_ne_true]

omit [DecidableEq A] in
theorem info_countDown {n : Formula A → Nat} {i' : CNFInfos}
    (hpos : ∀ h i, s.info h = some i → 0 < i.mCounter)
    (hi : (s.countBy false n).info h = some i') : ∃ i, s.info h = some i ∧
      i'.mLiteral = i.mLiteral ∧ i'.mClauses = i.mClauses ∧ 0 < i'.mCounter := by
  rw [info_countBy] at hi
  cases hj : s.info h with
  | none =>
    rw [hj] at hi
    cases hi
  | some i =>
    rw [hj] at hi
    rw [counts_false] at hi
    split_ifs at hi with hn hle
    · cases hi
      exact ⟨_, rfl, rfl, rfl, hpos h _ hj⟩
    · cases hi
      exact ⟨i, rfl, rfl, rfl, Nat.sub_pos_of_lt (Nat.lt_of_not_le hle)⟩

omit [DecidableEq A] in
theorem counter_countDown {n : Formula A → Nat} :
    (s.countBy false n).counter h = s.counter h - n h := by
  rw [counter, counter, info_countBy]
  cases hi : s.info h with
  | none => simp [counts]
  | some i =>
    rw [counts_false]
    split_ifs with hn hle
    · simp [hn]
    · simp
      omega
    · rfl

omit [DecidableEq A] in
theorem exists_info_of_counter (hpos : 0 < s.counter h) : ∃ i, s.info h = some i := by
  cases hi : s.info h with
  | none =>
    rw [counter, hi] at hpos
    cases hpos
  | some i => exact ⟨i, rfl⟩

theorem uses_compound (hc : isCompound f = true) : uses isNary f f = 1 := by
  obtain ⟨c, fs, rfl, -⟩ := exists_app_of_isCompound hc
  exact uses_self

/-- What is used by an argument is used by the formula. -/
theorem uses_arg (hu : 0 < uses isNary f (.app c fs)) (hc : isNary c = true) (hk : k ∈ fs)
    (hnary : isNaryFormula isNary k = true) : 0 < uses isNary f k := by
  induction f using Formula.induction with
  | hconst b => cases hu
  | hatom a => cases hu
  | happ d gs ih =>
    have hself : 0 < uses isNary k k := by
      rw [uses_compound (isCompound_of_isNary hnary)]
      exact Nat.one_pos
    rw [uses]
    apply Nat.add_pos_right
    by_cases hd : Formula.app d gs = .app c fs
    · cases hd
      rw [if_pos hc]
      exact usesAll_pos.mpr ⟨k, hk, hnary, hself⟩
    · rw [uses, if_neg hd, Nat.zero_add] at hu
      split_ifs at hu ⊢ with hd'
      · obtain ⟨g, hg, hgn, hu⟩ := usesAll_pos.mp hu
        exact usesAll_pos.mpr ⟨g, hg, hgn, ih g hg hu⟩
      · cases hu

/-! ## What is left -/

/-- The invariant after a formula has been taken back: its clauses, and only they, may be gone. -/
theorem Encoded.retract (hs : s.Encoded var received) (hnodup : received.Nodup)
    (hinfo : ∀ h i', s'.info h = some i' → ∃ i, s.info h = some i ∧ i'.mLiteral = i.mLiteral ∧
      i'.mClauses = i.mClauses ∧ 0 < i'.mCounter)
    (hself : ∀ i, s'.info f = some i → i.mClauses = definition var f)
    (hargs : ∀ h i, s'.info h = some i → ∀ k ∈ h.subformulas,
      isCompound (removeNegations k) = true → ∃ j, s'.info (removeNegations k) = some j)
    (hroots : ∀ g ∈ received, g ≠ f → isCompound (removeNegations g) = true →
      ∃ j, s'.info (removeNegations g) = some j)
    (hassum : s'.assumptions = s.assumptions.erase (createLiteral var f))
    (hne : ∀ g, isCompound g = true → wellFormed g = true →
      createLiteral var g ∈ s.assumptions → createLiteral var g ≠ createLiteral var f)
    (hwf : createLiteral var f ∈ s.assumptions → wellFormed f = true)
    (hmap : ∀ g, s'.mFormulaAssumptionMap g = s.mFormulaAssumptionMap g ∧
        (g = f → createLiteral var f ∉ s.assumptions) ∨
      g = f ∧ s'.mFormulaAssumptionMap g = none)
    (hassumed : s'.mAssumedTseitinVariable = s.mAssumedTseitinVariable)
    (hnonass : s'.mNonassumedTseitinVariable = s.mNonassumedTseitinVariable) :
    s'.Encoded var (received.erase f) := by
  have hmem : ∀ l, l ∈ s'.assumptions ↔ l ≠ createLiteral var f ∧ l ∈ s.assumptions := by
    intro l
    rw [hassum, hs.nodup.mem_erase_iff]
  have herase : ∀ g, g ∈ received.erase f ↔ g ≠ f ∧ g ∈ received := fun g =>
    hnodup.mem_erase_iff
  have hkeep : ∀ g, wellFormed g = true → createLiteral var g ∈ s.assumptions → g ≠ f →
      createLiteral var g ∈ s'.assumptions := by
    intro g hg hl hgf
    refine (hmem _).mpr ⟨fun heq => hgf ?_, hl⟩
    exact createLiteral_injective hg (hwf (heq ▸ hl)) heq
  have hknown : ∀ k, wellFormed k = true → s.Known var k →
      (isCompound (removeNegations k) = true → ∃ j, s'.info (removeNegations k) = some j) →
        s'.Known var k := by
    intro k hkf hk hj hc
    obtain ⟨j, hj⟩ := hj hc
    obtain ⟨i, hi, -, hcl, -⟩ := hinfo _ j hj
    obtain ⟨i', hi', hor⟩ := hk hc
    rw [hi] at hi'
    cases hi'
    refine ⟨j, hj, hor.imp hcl.trans fun hl => (hmem _).mpr ⟨?_, hl⟩⟩
    exact hne _ hc (removeNegations_wellFormed hkf).1 hl
  constructor
  case entry =>
    intro h i' hi'
    obtain ⟨i, hi, hlit, hcl, hpos⟩ := hinfo h i' hi'
    have he := hs.entry h i hi
    refine ⟨he.compound, he.wellFormed, hlit.trans he.mLiteral, hpos, ?_, fun k hk => ?_⟩
    · by_cases hhf : h = f
      · exact Or.inl (hhf ▸ hself i' (hhf ▸ hi'))
      · rw [hcl]
        exact he.mClauses.imp_right fun ⟨h₁, h₂, h₃⟩ => ⟨h₁, (herase h).mpr ⟨hhf, h₂⟩, h₃⟩
    · exact hknown k (wellFormed_subformulas he.wellFormed k hk) (he.args k hk)
        (hargs h i' hi' k hk)
  case covered =>
    intro g hg
    obtain ⟨hgf, hg⟩ := (herase g).mp hg
    cases hs.covered g hg with
    | const h => exact .const h
    | assumed hl hf hk =>
      exact .assumed (hkeep g hf hl hgf) hf (hknown g hf hk (hroots g hg hgf))
    | asserted i hi hcl hand =>
      have hc := (hs.entry g i hi).compound
      have hroot := hroots g hg hgf
      rw [removeNegations_compound hc] at hroot
      obtain ⟨j, hj⟩ := hroot hc
      obtain ⟨i', hi', -, hcl', -⟩ := hinfo g j hj
      rw [hi] at hi'
      cases hi'
      exact .asserted j hj (hcl'.trans hcl) hand
  case assumptions =>
    intro l hl
    obtain ⟨hlf, hl⟩ := (hmem l).mp hl
    obtain ⟨g, hg, hgf, rfl⟩ := hs.assumptions l hl
    exact ⟨g, (herase g).mpr ⟨fun h => hlf (h ▸ rfl), hg⟩, hgf, rfl⟩
  case nodup =>
    rw [hassum]
    exact hs.nodup.erase _
  case mFormulaAssumptionMap =>
    intro g l hg
    obtain ⟨hm, hno⟩ | ⟨-, hm⟩ := hmap g
    · rw [hm] at hg
      obtain ⟨hgf, rfl, hl⟩ := hs.mFormulaAssumptionMap g l hg
      refine ⟨hgf, rfl, hkeep g hgf hl fun h => hno h (h ▸ hl)⟩
    · rw [hm] at hg
      cases hg
  case literal =>
    intro g hg hlit
    obtain ⟨hgf, hg⟩ := (herase g).mp hg
    obtain ⟨hm, -⟩ | ⟨h, -⟩ := hmap g
    · rw [hm]
      exact hs.literal g hg hlit
    · exact absurd h hgf
  case mAssumedTseitinVariable =>
    intro g hg hgf
    rw [hassumed, hs.mAssumedTseitinVariable g hg hgf, hmem]
    exact ⟨fun hl => ⟨hne g hg hgf hl, hl⟩, And.right⟩
  case mNonassumedTseitinVariable =>
    intro h i' hi' hor hasrt hnot
    obtain ⟨i, hi, -, hcl, -⟩ := hinfo h i' hi'
    have he := hs.entry h i hi
    rw [hnonass]
    refine hs.mNonassumedTseitinVariable h i hi hor (hcl.symm.trans hasrt) fun hl => hnot ?_
    exact (hmem _).mpr ⟨hne h he.compound he.wellFormed hl, hl⟩

theorem usesOf_erase (hf : f ∈ received) : usesOf isNary (received.map removeNegations) h =
    uses isNary (removeNegations f) h + usesOf isNary ((received.erase f).map removeNegations) h := by
  have hperm := (perm_cons_erase hf).map removeNegations
  rw [usesOf, (hperm.map fun g => uses isNary g h).sum_nat]
  simp [usesOf]

theorem Counted.remove (hc : Counted isNary received s) (hf : f ∈ received)
    (hleak : ∀ k, ¬Leak isNary f k)
    (hinfo : ∀ h i', s'.info h = some i' → ∃ i, s.info h = some i)
    (hcnt : ∀ h, s'.counter h = s.counter h - uses isNary (removeNegations f) h) :
    Counted isNary (received.erase f) s' := by
  obtain ⟨leaks, hleaks, hargs, hcount⟩ := hc
  refine ⟨leaks, fun k hk => ?_, fun h i' hi' => ?_, fun h => ?_⟩
  · obtain ⟨g, hg, hl⟩ := hleaks k hk
    refine ⟨g, (mem_erase_of_ne ?_).mpr hg, hl⟩
    rintro rfl
    exact hleak k hl
  · obtain ⟨i, hi⟩ := hinfo h i' hi'
    exact hargs h i hi
  · rw [hcnt, hcount, usesOf_erase hf]
    omega

/-! ## Kinds of removed formulas -/

omit [DecidableEq A] in
theorem Encoded.root (hs : s.Encoded var received) (hg : g ∈ received)
    (hc : isCompound (removeNegations g) = true) : ∃ j, s.info (removeNegations g) = some j := by
  cases hs.covered g hg with
  | const h =>
    rw [h] at hc
    cases hc
  | assumed _ _ hk =>
    obtain ⟨j, hj, -⟩ := hk hc
    exact ⟨j, hj⟩
  | asserted i hi _ _ =>
    rw [removeNegations_compound (hs.entry g i hi).compound]
    exact ⟨i, hi⟩

/-- A formula without an entry of its own leaves the entries as they are. -/
theorem Maintained.remove_simple (hs : s.Maintained var isNary received)
    (hnodup : received.Nodup) (hf : f ∈ received) (hcomp : isCompound f = false)
    (hrem : isCompound (removeNegations f) = false)
    (hneg : isNegation (removeNegations f) = false)
    (hinfo : s'.mFormulaCNFInfosMap = s.mFormulaCNFInfosMap)
    (hassum : s'.assumptions = s.assumptions.erase (createLiteral var f))
    (hwf : createLiteral var f ∈ s.assumptions → wellFormed f = true)
    (hmap : ∀ g, s'.mFormulaAssumptionMap g = s.mFormulaAssumptionMap g ∧
        (g = f → createLiteral var f ∉ s.assumptions) ∨
      g = f ∧ s'.mFormulaAssumptionMap g = none)
    (hassumed : s'.mAssumedTseitinVariable = s.mAssumedTseitinVariable)
    (hnonass : s'.mNonassumedTseitinVariable = s.mNonassumedTseitinVariable)
    (hleak : ∀ k, ¬Leak isNary f k) : s'.Maintained var isNary (received.erase f) := by
  have hsame : ∀ h, s'.info h = s.info h := fun h => congrFun hinfo h
  have he := hs.encoded
  refine ⟨?_, hs.counted.remove hf hleak (fun h i' hi' => ⟨i', (hsame h).symm.trans hi'⟩) ?_⟩
  · refine he.retract hnodup (fun h i' hi' => ?_) (fun i hi => ?_) (fun h i hi k hk hc => ?_)
      (fun g hg hgf hc => ?_) hassum (fun g hg hgf hl heq => ?_) hwf hmap hassumed
      hnonass
    · rw [hsame] at hi'
      exact ⟨i', hi', rfl, rfl, (he.entry h i' hi').mCounter⟩
    · rw [hsame] at hi
      have hc := (he.entry f i hi).compound
      rw [hcomp] at hc
      cases hc
    · rw [hsame] at hi ⊢
      obtain ⟨j, hj, -⟩ := (he.entry h i hi).args k hk hc
      exact ⟨j, hj⟩
    · rw [hsame]
      exact he.root hg hc
    · rw [createLiteral_injective hgf (hwf (heq ▸ hl)) heq, hcomp] at hg
      cases hg
  · intro h
    rw [uses_eq_zero hrem hneg, Nat.sub_zero, counter, counter, hsame]

theorem Maintained.remove_const (hs : s.Maintained var isNary received) (hnodup : received.Nodup)
    {b : Bool} (hf : .const b ∈ received) :
    ∃ s', s.removeCore isNary (.const b) = some s' ∧
      s'.Maintained var isNary (received.erase (.const b)) := by
  have hnot : createLiteral var (.const b) ∉ s.assumptions := by
    intro hl
    obtain ⟨g, -, hg, heq⟩ := hs.encoded.assumptions _ hl
    rw [createLiteral_eq hg] at heq
    have hrem : .const b = removeNegations g :=
      content_injective (var.injective (congrArg Lit.var heq))
    have hwf := (removeNegations_wellFormed hg).1
    rw [← hrem] at hwf
    cases hwf
  refine ⟨s, rfl, hs.remove_simple hnodup hf rfl rfl rfl rfl ?_ (fun hl => absurd hl hnot)
    (fun g => Or.inl ⟨rfl, fun _ => hnot⟩) rfl rfl ?_⟩
  · rw [erase_of_not_mem hnot]
  · rintro k ⟨g, hg, hk⟩
    rw [parts, mem_singleton] at hg
    rw [hg] at hk
    cases hk

omit [DecidableEq A] in
theorem not_leak_literal (hf : isLiteral f = true) : ¬Leak isNary f k := by
  rintro ⟨g, hg, hk⟩
  cases f with
  | const b => cases hf
  | atom a =>
    rw [parts, mem_singleton] at hg
    rw [hg] at hk
    cases hk
  | app c fs =>
    cases c with
    | not =>
      obtain ⟨a, rfl⟩ : ∃ a, fs = [.atom a] := by
        unfold isLiteral at hf
        split at hf
        · next heq => cases heq
        · next a heq => exact ⟨a, (Formula.app.inj heq).2⟩
        · cases hf
      obtain rfl | ⟨e, he, hg⟩ := mem_parts_app.mp hg
      · cases hk
      · rw [mem_singleton.mp he, parts, mem_singleton] at hg
        rw [hg] at hk
        cases hk
    | and | or | implies | xor | iff | ite => cases hf

theorem Maintained.remove_literal (hs : s.Maintained var isNary received)
    (hnodup : received.Nodup) (hf : f ∈ received) (hlit : isLiteral f = true) :
    ∃ s', s.removeCore isNary f = some s' ∧ s'.Maintained var isNary (received.erase f) := by
  obtain ⟨hc, hrem⟩ := isLiteral_spec hlit
  obtain ⟨l, hl⟩ := Option.isSome_iff_exists.mp (hs.encoded.literal f hf hlit)
  obtain ⟨hwf, rfl, hmem⟩ := hs.encoded.mFormulaAssumptionMap f l hl
  have hremove : s.removeCore isNary f = some { s with
      assumptions := s.assumptions.erase (createLiteral var f)
      mFormulaAssumptionMap := update s.mFormulaAssumptionMap f none } := by
    cases f with
    | const b => cases hlit
    | atom a =>
      rw [removeCore, if_pos hlit, hl]
      · rfl
      · nofun
    | app c fs =>
      rw [removeCore, if_pos hlit, hl]
      · rfl
      · nofun
  refine ⟨_, hremove, hs.remove_simple hnodup hf hc hrem (removeNegations_wellFormed hwf).2.1 rfl rfl
    (fun _ => hwf) (fun g => ?_) rfl rfl fun k => not_leak_literal hlit⟩
  by_cases hg : g = f
  · exact Or.inr ⟨hg, hg ▸ update_self _ _ _⟩
  · exact Or.inl ⟨update_of_ne hg _ _, fun h => absurd h hg⟩

/-- A formula that is only asserted occurs in no other one, so its entry has one use. -/
theorem Maintained.counter_asserted (hs : s.Maintained var isNary received)
    (hnodup : received.Nodup) (hf : f ∈ received) (hi : s.info f = some i)
    (hasrt : i.mClauses = assertion var f) (hnot : createLiteral var f ∉ s.assumptions) :
    s.counter f = uses isNary f f := by
  have he := hs.encoded.entry f i hi
  have hrem := removeNegations_compound he.compound
  have hunk : ¬s.Known var f := by
    intro hk
    rw [Known, hrem] at hk
    obtain ⟨j, hj, hor⟩ := hk he.compound
    rw [hi] at hj
    cases hj
    exact hor.elim (fun hdef => he.definition_ne_assertion (hdef.symm.trans hasrt)) hnot
  obtain ⟨leaks, hleaks, -, hcnt⟩ := hs.counted
  have hroots : usesOf isNary ((received.erase f).map removeNegations) f = 0 := by
    by_contra hne
    obtain ⟨r, hr, hu⟩ := usesOf_pos.mp (Nat.pos_of_ne_zero hne)
    obtain ⟨g, hg, rfl⟩ := mem_map.mp hr
    obtain ⟨hgf, hg⟩ := hnodup.mem_erase_iff.mp hg
    have hmem := mem_parts_of_uses hu
    cases hs.encoded.covered g hg with
    | const h =>
      rw [h, removeNegations, parts, mem_singleton] at hmem
      · have hc := he.compound
        rw [hmem] at hc
        cases hc
      · intro e he
        cases he
    | assumed _ hwf hk =>
      exact hunk (hs.encoded.known_parts hwf hk
        (parts_trans hmem (removeNegations_wellFormed hwf).2.2))
    | asserted j hj _ _ =>
      rw [removeNegations_compound (hs.encoded.entry g j hj).compound] at hmem
      obtain heq | hk := hs.encoded.entry_parts hj hmem
      · exact hgf heq.symm
      · exact hunk hk
  have hleak : usesOf isNary leaks f = 0 := by
    by_contra hne
    obtain ⟨k, hk, hu⟩ := usesOf_pos.mp (Nat.pos_of_ne_zero hne)
    obtain ⟨g, hg, hl⟩ := hleaks k hk
    obtain ⟨hknown, hwf, -⟩ := hs.encoded.known_leak hg hl
    exact hunk (hs.encoded.known_parts hwf hknown (mem_parts_of_uses hu))
  rw [hcnt, usesOf_erase hf, hrem, hroots, hleak]
  rfl

theorem Maintained.remove_compound (hs : s.Maintained var isNary received)
    (hnodup : received.Nodup) (hf : f ∈ received) (hc : isCompound f = true)
    (hcountable : countable isNary f = true)
    (hassum : s.mAssumedTseitinVariable (createLiteral var f).var = false) :
    ∃ s', s.removeCore isNary f = some s' ∧ s'.Maintained var isNary (received.erase f) := by
  have hrem := removeNegations_compound hc
  have he := hs.encoded
  have hroot := he.root hf
  rw [hrem] at hroot
  obtain ⟨i, hi⟩ := hroot hc
  have hei := he.entry f i hi
  have hnot : createLiteral var f ∉ s.assumptions := by
    rw [← he.mAssumedTseitinVariable f hc hei.wellFormed, hassum]
    exact Bool.false_ne_true
  have hpos : ∀ h i, s.info h = some i → 0 < i.mCounter := fun h i hi => (he.entry h i hi).mCounter
  have hle : ∀ h, uses isNary f h ≤ s.counter h := by
    obtain ⟨leaks, -, -, hcnt⟩ := hs.counted
    intro h
    rw [hcnt, usesOf_erase hf, hrem]
    omega
  have hready : Ready false s (uses isNary f) := by
    intro h hu
    obtain ⟨j, hj⟩ := he.uses_entry hi hu
    have hle := hle h
    rw [counter, hj] at hle
    exact ⟨j, hj, (he.entry h j hj).clauses_ne_nil, fun _ => hle⟩
  have hremove : s.removeCore isNary f = some (s.countBy false (uses isNary f)) := by
    rw [← updateCNFInfoCounter_eq hready]
    obtain ⟨c, fs, rfl, -⟩ := exists_app_of_isCompound hc
    rw [removeCore, isLiteral_compound hc, if_neg Bool.false_ne_true, hrem, hi]
    · rfl
    · intro b hb
      cases hb
  have hleak := countable_iff.mp hcountable
  have hcounted : Counted isNary (received.erase f) (s.countBy false (uses isNary f)) := by
    apply hs.counted.remove hf hleak
    · intro h i' hi'
      obtain ⟨i, hi, -⟩ := info_countDown hpos hi'
      exact ⟨i, hi⟩
    · intro h
      rw [counter_countDown, hrem]
  -- what is used by something that is left is left
  obtain ⟨leaks, hleaks, hargs, hcnt⟩ := hcounted
  have hused : ∀ k, 0 < usesOf isNary ((received.erase f).map removeNegations) k +
      usesOf isNary leaks k → ∃ j, (s.countBy false (uses isNary f)).info k = some j := by
    intro k hk
    rw [← hcnt] at hk
    exact exists_info_of_counter hk
  refine ⟨_, hremove, ?_, leaks, hleaks, hargs, hcnt⟩
  refine he.retract hnodup (fun h i' hi' => info_countDown hpos hi') (fun i' hi' => ?_)
    (fun h i' hi' k hk hkc => ?_) (fun g hg hgf hgc => ?_) ?_ (fun g hg hgw hl heq => ?_)
    (fun hl => absurd hl hnot) (fun g => Or.inl ⟨rfl, fun _ => hnot⟩) rfl rfl
  · obtain ⟨j, hj, -, hcl, hpos'⟩ := info_countDown hpos hi'
    rw [hi] at hj
    cases hj
    obtain hdef | ⟨hasrt, -, -⟩ := hei.mClauses
    · exact hcl.trans hdef
    · have hone := hs.counter_asserted hnodup hf hi hasrt hnot
      have hzero : (s.countBy false (uses isNary f)).counter f = 0 := by
        rw [counter_countDown, hone, Nat.sub_self]
      rw [counter, hi'] at hzero
      exact absurd hzero hpos'.ne'
  · apply hused
    obtain ⟨i, hi, -⟩ := info_countDown hpos hi'
    have heh := he.entry h i hi
    obtain ⟨c, fs, rfl, -⟩ := exists_app_of_isCompound heh.compound
    by_cases hnary : isNary c = true ∧ isNaryFormula isNary k = true
    · rw [removeNegations_compound (isCompound_of_isNary hnary.2)]
      have hcnt' := hcnt (.app c fs)
      have hpos' : 0 < (s.countBy false (uses isNary f)).counter (.app c fs) := by
        obtain ⟨_, _, _, _, hpos'⟩ := info_countDown hpos hi'
        rw [counter, hi']
        exact hpos'
      rw [hcnt', Nat.add_pos_iff_pos_or_pos] at hpos'
      have hstep : ∀ gs : List (Formula A), 0 < usesOf isNary gs (.app c fs) →
          0 < usesOf isNary gs k := by
        intro gs hgs
        obtain ⟨g, hg, hu⟩ := usesOf_pos.mp hgs
        exact usesOf_pos.mpr ⟨g, hg, uses_arg hu hnary.1 hk hnary.2⟩
      exact Nat.add_pos_iff_pos_or_pos.mpr (hpos'.imp (hstep _) (hstep _))
    · have hmem : removeNegations k ∈ leaks := by
        refine hargs _ i' hi' _ (mem_map.mpr ⟨k, mem_filter.mpr ⟨hk, ?_⟩, rfl⟩)
        rw [hkc, Bool.true_and, Bool.not_eq_true', ← Bool.not_eq_true, Bool.and_eq_true]
        exact hnary
      refine Nat.add_pos_right _ (usesOf_pos.mpr ⟨_, hmem, ?_⟩)
      rw [uses_compound hkc]
      exact Nat.one_pos
  · apply hused
    refine Nat.add_pos_left (usesOf_pos.mpr ⟨_, mem_map_of_mem
      ((mem_erase_of_ne hgf).mpr hg), ?_⟩) _
    rw [uses_compound hgc]
    exact Nat.one_pos
  · exact (erase_of_not_mem hnot).symm
  · exact hnot (heq ▸ hl)

/-- Removing a formula takes back what it has added, provided that no use leaks and its literal has
not been assumed. -/
theorem Maintained.removeCore (hs : s.Maintained var isNary received) (hnodup : received.Nodup)
    (hf : f ∈ received)
    (hr : (isLiteral f || f.isAtom || isCompound f && countable isNary f &&
      !s.mAssumedTseitinVariable (createLiteral var f).var) = true) :
    ∃ s', s.removeCore isNary f = some s' ∧ s'.Maintained var isNary (received.erase f) := by
  cases hlit : isLiteral f with
  | true => exact hs.remove_literal hnodup hf hlit
  | false =>
    cases f with
    | const b => exact hs.remove_const hnodup hf
    | atom a => cases hlit
    | app c fs =>
      rw [hlit] at hr
      simp only [Formula.isAtom, Bool.false_or, Bool.and_eq_true, Bool.not_eq_true'] at hr
      exact hs.remove_compound hnodup hf hr.1.1 hr.1.2 hr.2

end CnfState

end Smtrat.SAT
