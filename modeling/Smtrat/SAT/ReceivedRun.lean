import Smtrat.Common.Run
import Smtrat.SAT.RemoveReceived

/-!
# The clause database over all calls

Every sequence of guarded calls leaves the clauses and assumptions that belong to the received
formulas.
-/

namespace Smtrat.SAT

open PropFormula List Option

universe u

variable {A : Type u}

namespace Receiver

variable [DecidableEq A] (var : Content A ↪ Var) (isNary : Connective → Bool)

/-- The calls that keep the clause database right: a formula that is added is not `false`, and what
occurs in it can be reused; a formula that is removed leaves no use and no assumption behind. -/
def guard (s : Receiver A) : Action A → Bool
  | .add f => f ≠ .const false &&
      (partsAll f.subformulas).all fun k => !isCompound k || s.cnf.reusable var k
  | .remove f => isLiteral f || f.isAtom || isCompound f && CnfState.countable isNary f &&
      !s.cnf.mAssumedTseitinVariable (createLiteral var f).var

/-- The clause database says the same as the received formulas, its literals have the values of their
formulas, and everything in it belongs to a received formula. -/
structure Represents (s : Receiver A) : Prop where
  models : ∀ α : A → Bool, (∃ v, (∀ a, v (var (.original a)) = α a) ∧ s.cnf.Satisfied v) ↔
    ∀ f ∈ s.received, f.eval α = true
  literals : ∀ v, s.cnf.Satisfied v → ∀ h i, s.cnf.info h = some i → ∀ k ∈ h.subformulas,
    ((createLiteral var k).Holds v ↔ k.eval (fun a => v (var (.original a))) = true)
  entries : ∀ h i, s.cnf.info h = some i → ∃ f ∈ s.received, h ∈ parts f
  assumptions : ∀ l ∈ s.cnf.assumptions, ∃ f ∈ s.received, l = createLiteral var f

variable {var isNary} {s s' : Receiver A} {a : Action A}

theorem step_spec
    (hs : s.received.Nodup ∧ s.cnf.Maintained var isNary s.received)
    (hg : s.guard var isNary a = true) (h : step var isNary s a = some s') :
    s'.received.Nodup ∧ s'.cnf.Maintained var isNary s'.received := by
  obtain ⟨hnodup, hm⟩ := hs
  cases a with
  | add f =>
    rw [step, ite_none_right_eq_some] at h
    obtain ⟨⟨hnew, hf⟩, h⟩ := h
    rw [guard, Bool.and_eq_true, List.all_eq_true, decide_eq_true_eq] at hg
    obtain ⟨cnf, hadd, hcnf⟩ := hm.addCore hnew hf hg.1 fun k hk hc => by
      simpa [hc] using hg.2 k hk
    rw [hadd] at h
    cases h
    refine ⟨?_, hcnf⟩
    rw [nodup_append]
    refine ⟨hnodup, pairwise_singleton _ _, fun g hmem k hk => ?_⟩
    rw [mem_singleton.mp hk]
    rintro rfl
    exact hnew hmem
  | remove f =>
    rw [step, ite_none_right_eq_some] at h
    obtain ⟨hf, h⟩ := h
    obtain ⟨cnf, hrem, hcnf⟩ := hm.removeCore hnodup hf hg
    rw [hrem] at h
    cases h
    exact ⟨hnodup.erase f, hcnf⟩

theorem init_spec : (init : Receiver A).received.Nodup ∧
    (init : Receiver A).cnf.Maintained var isNary (init : Receiver A).received := by
  refine ⟨nodup_nil, ?_, [], nofun, nofun, fun h => rfl⟩
  constructor
  case entry => nofun
  case covered => nofun
  case assumptions => nofun
  case nodup => exact nodup_nil
  case mFormulaAssumptionMap => nofun
  case literal => nofun
  case mAssumedTseitinVariable => exact fun f _ _ => ⟨nofun, nofun⟩
  case mNonassumedTseitinVariable => nofun

/-- A guarded call that the module input makes violates no assertion. -/
theorem step_add (hs : s.received.Nodup ∧ s.cnf.Maintained var isNary s.received) {f : Formula A}
    (hnew : f ∉ s.received) (hf : (f.isAtom || wellFormed f && !f.isConjunction) = true)
    (hg : s.guard var isNary (.add f) = true) : ∃ s', step var isNary s (.add f) = some s' := by
  rw [guard, Bool.and_eq_true, List.all_eq_true, decide_eq_true_eq] at hg
  obtain ⟨cnf, hadd, -⟩ := hs.2.addCore hnew hf hg.1 fun k hk hc => by simpa [hc] using hg.2 k hk
  rw [step, if_pos ⟨hnew, hf⟩, hadd]
  exact ⟨_, rfl⟩

theorem step_remove (hs : s.received.Nodup ∧ s.cnf.Maintained var isNary s.received)
    {f : Formula A} (hf : f ∈ s.received) (hg : s.guard var isNary (.remove f) = true) :
    ∃ s', step var isNary s (.remove f) = some s' := by
  obtain ⟨cnf, hrem, -⟩ := hs.2.removeCore hs.1 hf hg
  rw [step, if_pos hf, hrem]
  exact ⟨_, rfl⟩

theorem represents (hs : s.cnf.Maintained var isNary s.received) : s.Represents var where
  models α := hs.encoded.satisfied_iff
  literals v hv h i hi k hk := by
    have he := hs.encoded.entry h i hi
    exact hs.encoded.known_holds hv (wellFormed_subformulas he.wellFormed k hk) (he.args k hk)
  entries h i hi := by
    have hpos : 0 < s.cnf.counter h := by
      rw [CnfState.counter, hi]
      exact (hs.encoded.entry h i hi).mCounter
    obtain ⟨leaks, hleaks, -, hcnt⟩ := hs.counted
    rw [hcnt, Nat.add_pos_iff_pos_or_pos] at hpos
    obtain hpos | hpos := hpos
    · obtain ⟨r, hr, hu⟩ := CnfState.usesOf_pos.mp hpos
      obtain ⟨f, hf, rfl⟩ := List.mem_map.mp hr
      refine ⟨f, hf, ?_⟩
      cases hs.encoded.covered f hf with
      | const hf' =>
        rw [hf'] at hu
        cases hu
      | assumed _ hwf _ =>
        exact parts_trans (CnfState.mem_parts_of_uses hu) (removeNegations_wellFormed hwf).2.2
      | asserted j hj _ _ =>
        rw [removeNegations_compound (hs.encoded.entry f j hj).compound] at hu
        exact CnfState.mem_parts_of_uses hu
    · obtain ⟨k, hk, hu⟩ := CnfState.usesOf_pos.mp hpos
      obtain ⟨f, hf, hl⟩ := hleaks k hk
      exact ⟨f, hf, parts_trans (CnfState.mem_parts_of_uses hu)
        (hl.part (hs.encoded.wellFormed_leak hf hl))⟩
  assumptions l hl := by
    obtain ⟨f, hf, -, rfl⟩ := hs.encoded.assumptions l hl
    exact ⟨f, hf, rfl⟩

/-- After any sequence of guarded calls the database says the same as the received formulas. -/
theorem run_represents {as : List (Action A)}
    (h : Run.run (Run.guarded (fun s a => s.guard var isNary a = true) (step var isNary)) init as =
      some s) : s.Represents var := by
  have hinv : s.received.Nodup ∧ s.cnf.Maintained var isNary s.received := by
    refine Run.run_invariant (P := fun s : Receiver A => s.received.Nodup ∧
      s.cnf.Maintained var isNary s.received) ?_ init_spec h
    intro s a s' hs hstep
    obtain ⟨hg, hstep⟩ := Run.guarded_eq_some.mp hstep
    exact step_spec hs hg hstep
  exact represents hinv.2

/-! ### Three variables

The variables are numbered by an injective code of formulas. -/

mutual

/-- A number for each formula. -/
def code : Formula Nat → Nat
  | .const b => 3 * b.toNat
  | .atom a => 3 * a + 1
  | .app c fs => 3 * Nat.pair c.ctorIdx (codeAll fs) + 2

def codeAll : List (Formula Nat) → Nat
  | [] => 0
  | f :: fs => Nat.pair (code f) (codeAll fs) + 1

end

theorem code_injective {f g : Formula Nat} (h : code f = code g) : f = g := by
  induction f using Formula.induction generalizing g with
  | hconst b =>
    cases g with
    | const b' => cases b <;> cases b' <;> simp [code] at h ⊢
    | atom a => simp only [code] at h; omega
    | app c fs => simp only [code] at h; omega
  | hatom a =>
    cases g with
    | const b => simp only [code] at h; omega
    | atom a' => simp only [code] at h; rw [show a = a' by omega]
    | app c fs => simp only [code] at h; omega
  | happ c fs ih =>
    cases g with
    | const b => simp only [code] at h; omega
    | atom a => simp only [code] at h; omega
    | app d gs =>
      simp only [code] at h
      obtain ⟨hc, hfs⟩ := Nat.pair_eq_pair.mp (show Nat.pair c.ctorIdx (codeAll fs) =
        Nat.pair d.ctorIdx (codeAll gs) by omega)
      have hall : fs = gs := by
        clear h
        induction fs generalizing gs with
        | nil =>
          cases gs with
          | nil => rfl
          | cons g gs => cases hfs
        | cons f fs ihs =>
          cases gs with
          | nil => cases hfs
          | cons g gs =>
            obtain ⟨hf, hfs⟩ := Nat.pair_eq_pair.mp (Nat.succ.inj hfs)
            rw [ih f mem_cons_self hf, ihs (fun k hk => ih k (mem_cons_of_mem f hk)) gs hfs]
      have hop : c = d := by
        cases c <;> cases d <;> first | rfl | cases hc
      rw [hall, hop]

/-- The variable of a content. -/
def number : Content Nat ↪ Var where
  toFun
    | .original a => 2 * a
    | .tseitin f => 2 * code f + 1
  inj' := by
    intro x y h
    cases x with
    | original a =>
      cases y with
      | original b =>
        have h : 2 * a = 2 * b := h
        rw [show a = b by omega]
      | tseitin g =>
        have h : 2 * a = 2 * code g + 1 := h
        omega
    | tseitin f =>
      cases y with
      | original b =>
        have h : 2 * code f + 1 = 2 * b := h
        omega
      | tseitin g =>
        have h : 2 * code f + 1 = 2 * code g + 1 := h
        rw [code_injective (show code f = code g by omega)]

/-- The connectives of formulas with any number of arguments. -/
def naryConnective : Connective → Bool
  | .and | .or | .xor | .iff => true
  | .not | .implies | .ite => false

/-- A disjunction, and a formula in which it occurs. -/
def sampleOr : Formula Nat := .app .or [.atom 0, .atom 1]

def sampleIff : Formula Nat := .app .iff [sampleOr, .atom 2]

theorem run_represents_sampleIff : ∃ s, Run.run
      (Run.guarded (fun s a => s.guard number naryConnective a = true)
        (step number naryConnective)) init
        [.add sampleOr, .add sampleIff, .remove sampleIff] = some s ∧
    s.Represents number := by
  have hsome : (Run.run (Run.guarded (fun s a => s.guard number naryConnective a = true)
      (step number naryConnective)) init
        [.add sampleOr, .add sampleIff, .remove sampleIff]).isSome = true := by
    decide +kernel
  obtain ⟨s, hs⟩ := isSome_iff_exists.mp hsome
  exact ⟨s, hs, run_represents hs⟩

/-- A negation leaves its assumption behind when it is removed, and the formula in it stays false. -/
theorem removed_negation_stays : ∃ s, Run.run (step number naryConnective) init
      [.add (.app .not [sampleOr]), .remove (.app .not [sampleOr]), .add sampleIff] = some s ∧
    ¬s.Represents number := by
  have hrun : (Run.run (step number naryConnective) init
      [.add (.app .not [sampleOr]), .remove (.app .not [sampleOr]), .add sampleIff]).map
        (fun s => (s.received, s.cnf.assumptions, s.cnf.info sampleOr)) =
      some ([sampleIff], [(createLiteral number sampleOr).neg],
        some ⟨createLiteral number sampleOr, 1, definition number sampleOr⟩) := by
    decide +kernel
  obtain ⟨s, hs, hres⟩ := map_eq_some_iff.mp hrun
  obtain ⟨hrec, hass, hinfo⟩ : s.received = [sampleIff] ∧ _ ∧ _ := by simpa using hres
  refine ⟨s, hs, fun hrep => ?_⟩
  have htrue : ∀ f ∈ s.received, f.eval (fun _ : Nat => true) = true := by
    rw [hrec]
    decide
  obtain ⟨v, hv, hsat⟩ := (hrep.models _).mpr htrue
  have hneg := hsat.2 (createLiteral number sampleOr).neg (by rw [hass]; exact mem_cons_self)
  have hdef := hsat.1 [createLiteral number sampleOr, (createLiteral number (.atom 0)).neg]
    ⟨sampleOr, _, hinfo, by decide +kernel⟩
  have hzero : (createLiteral number (.atom 0)).Holds v := hv 0
  simp only [Clause.holds_cons, Clause.holds_nil, Lit.holds_neg, or_false] at hneg hdef
  exact hdef.elim hneg fun h => h hzero

end Receiver

end Smtrat.SAT
