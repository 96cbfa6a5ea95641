import Smtrat.SAT.Analyze

/-!
# Consistent trails

Every entry of a trail has a justification in the older entries: it opens a decision level, or it
follows, or a clause that follows makes it true because its other literals are false.
-/

namespace Smtrat.SAT
open List Option

variable {T : Theory} {M : Set Valuation} {α : Valuation}

/-! ## Values of a trail -/

theorem boolAssigns_cons (e : Entry) (rest : List Entry) (x : Var) :
    boolAssigns (e :: rest) x = if e.lit.var = x then some (!e.lit.sign) else boolAssigns rest x := by
  rw [boolAssigns, find?_cons]
  by_cases h : e.lit.var = x <;> simp [h, boolAssigns]

theorem boolAssigns_eq_none {trail : List Entry} {x : Var} :
    boolAssigns trail x = none ↔ ∀ e ∈ trail, e.lit.var ≠ x := by
  simp [boolAssigns]

variable {l : Lit}

theorem boolValue_eq_true {trail : List Entry}
    (h : (boolAssigns trail).value l = some true) : ∃ e ∈ trail, e.lit = l := by
  rw [Assigns.value_eq_true, boolAssigns, map_eq_some_iff] at h
  obtain ⟨e, he, hs⟩ := h
  have hv : e.lit.var = l.var := by simpa using find?_some he
  exact ⟨e, mem_of_find?_eq_some he, Lit.ext hv (by simpa using hs)⟩

theorem boolValue_eq_none {trail : List Entry} :
    (boolAssigns trail).value l = none ↔ ∀ e ∈ trail, e.lit.var ≠ l.var := by
  rw [Assigns.value_eq_none, boolAssigns_eq_none]

theorem value_eq_false_iff {assigns : Assigns} :
    assigns.value l = some false ↔ assigns l.var = some l.sign := by
  rw [← Assigns.value_neg_eq_true, Assigns.value_eq_true]
  simp

theorem theoryDecisions_cons (e : Entry) (rest : List Entry) :
    theoryDecisions (e :: rest) =
      if e.theoryDecision then e.lit :: theoryDecisions rest else theoryDecisions rest := by
  cases h : e.theoryDecision <;> simp [theoryDecisions, h]

namespace Theory

/-- A literal is false because of an entry of the trail or because of the theory decisions. -/
theorem value_eq_false {trail : List Entry} (h : (T.assigns trail).value l = some false) :
    (∃ e ∈ trail, e.lit = l.neg) ∨ ((∀ e ∈ trail, e.lit.var ≠ l.var) ∧
        T.evaluate (theoryDecisions trail) l.var = some l.sign) := by
  rw [value_eq_false_iff, assigns] at h
  cases hb : boolAssigns trail l.var with
  | none =>
    rw [hb, none_or] at h
    exact Or.inr ⟨boolAssigns_eq_none.mp hb, h⟩
  | some b =>
    rw [hb, some_or] at h
    refine Or.inl (boolValue_eq_true ?_)
    rw [Assigns.value_neg_eq_true, value_eq_false_iff, hb, h]

/-- A literal without a value has no entry, and its constraint is not assigned. -/
theorem value_eq_none {trail : List Entry} (h : (T.assigns trail).value l = none) :
    (∀ e ∈ trail, e.lit.var ≠ l.var) ∧ T.evaluate (theoryDecisions trail) l.var = none := by
  rw [Assigns.value_eq_none, assigns] at h
  cases hb : boolAssigns trail l.var with
  | none =>
    rw [hb, none_or] at h
    exact ⟨boolAssigns_eq_none.mp hb, h⟩
  | some b => simp [hb] at h

/-- Literals that are false are not true under a valuation of all entries. -/
theorem not_holds_of_value {trail : List Entry} (hα : α ∈ T.Models)
    (htrail : ∀ e ∈ trail, e.lit.Holds α)
    (h : (T.assigns trail).value l = some false) : ¬l.Holds α := by
  obtain ⟨e, he, hel⟩ | ⟨-, heval⟩ := T.value_eq_false h
  · rw [← Lit.holds_neg, ← hel]
    exact htrail e he
  · have hdec : ∀ d ∈ theoryDecisions trail, d.Holds α := by
      intro d hd
      obtain ⟨e, he, rfl⟩ := List.mem_map.mp hd
      exact htrail e (mem_of_mem_filter he)
    have hval := T.evaluate_sound _ _ _ heval α hα hdec
    simp [Lit.Holds, hval]

theorem evaluate_suffix {ds ds' : List Lit} (h : ds <:+ ds') {x : Var}
    (hx : T.evaluate ds' x = none) : T.evaluate ds x = none := by
  obtain ⟨pre, rfl⟩ := h
  induction pre with
  | nil => exact hx
  | cons d pre ih => exact ih (T.evaluate_cons _ _ _ hx)

end Theory

/-! ## Justified entries -/

/-- Why an entry is on top of the others. -/
inductive Justified (T : Theory) (M : Set Valuation) (rest : List Entry) (e : Entry) : Prop
  /-- A decision opens a level. -/
  | decision (hr : e.reason = .undef) (hpos : 0 < e.level) (hopen : ∀ f ∈ rest, f.level < e.level)
  /-- A literal that has been learnt, or `mTrueVar`. -/
  | unit (hr : e.reason = .undef) (ht : e.theoryDecision = false) (hzero : e.level = 0)
      (hM : ∀ α ∈ M, e.lit.Holds α)
  | implied (c : Clause)
      (hr : e.reason = .clause c ∨ e.reason = .tPropagation ∧
        c = T.explain (rest.map (·.lit)) (theoryDecisions rest) e.lit)
      (ht : e.theoryDecision = false)
      (heval : T.evaluate (theoryDecisions rest) e.lit.var = none)
      (hmem : e.lit ∈ c) (hothers : ∀ q ∈ c, q ≠ e.lit → (T.assigns rest).value q = some false)
      (hM : c.Follows M)

/-- Every entry has a variable of its own, a level at least that of the older ones and a
justification. -/
inductive Consistent (T : Theory) (M : Set Valuation) : List Entry → Prop
  | nil : Consistent T M []
  | cons {e : Entry} {rest : List Entry} (hrest : Consistent T M rest)
      (hvar : ∀ f ∈ rest, f.lit.var ≠ e.lit.var) (hlevel : ∀ f ∈ rest, f.level ≤ e.level)
      (hj : Justified T M rest e) : Consistent T M (e :: rest)

namespace Consistent

variable {trail rest pre : List Entry} {e f : Entry}

theorem suffix (h : Consistent T M trail) (hs : rest <:+ trail) : Consistent T M rest := by
  obtain ⟨pre, rfl⟩ := hs
  induction pre with
  | nil => exact h
  | cons e pre ih =>
    cases h with
    | cons hrest _ _ _ => exact ih hrest

/-- What is known about the newest entry. -/
theorem head (h : Consistent T M (e :: rest)) :
    (∀ f ∈ rest, f.lit.var ≠ e.lit.var) ∧ (∀ f ∈ rest, f.level ≤ e.level) ∧
      Justified T M rest e := by
  cases h with
  | cons _ hvar hlev hj => exact ⟨hvar, hlev, hj⟩

/-- What is known about an entry in the middle of the trail. -/
theorem split (h : Consistent T M (pre ++ e :: rest)) :
    (∀ f ∈ rest, f.lit.var ≠ e.lit.var) ∧ (∀ f ∈ rest, f.level ≤ e.level) ∧
      Justified T M rest e := (h.suffix (suffix_append pre _)).head

theorem split_above (h : Consistent T M (pre ++ rest)) (hf : f ∈ pre) (he : e ∈ rest) :
    e.lit.var ≠ f.lit.var ∧ e.level ≤ f.level := by
  obtain ⟨pre₁, pre₂, rfl⟩ := append_of_mem hf
  rw [append_assoc, cons_append] at h
  obtain ⟨hvar, hlev, -⟩ := h.split
  have hmem : e ∈ pre₂ ++ rest := mem_append_right _ he
  exact ⟨hvar e hmem, hlev e hmem⟩

/-- There is one entry for a variable. -/
theorem eq_of_var (h : Consistent T M trail) (he : e ∈ trail) (hf : f ∈ trail)
    (hv : e.lit.var = f.lit.var) : e = f := by
  induction h with
  | nil => cases he
  | cons hrest hvar _ _ ih =>
    obtain rfl | he' := mem_cons.mp he
    · obtain rfl | hf' := mem_cons.mp hf
      · rfl
      · exact absurd hv.symm (hvar f hf')
    · obtain rfl | hf' := mem_cons.mp hf
      · exact absurd hv (hvar e he')
      · exact ih he' hf'

/-- A valuation that satisfies the decisions satisfies all entries. -/
theorem holds (h : Consistent T M trail) (hM : M ⊆ T.Models) (hα : α ∈ M)
    (hdec : ∀ e ∈ trail, e.reason = .undef → 0 < e.level → e.lit.Holds α) :
    ∀ e ∈ trail, e.lit.Holds α := by
  induction h with
  | nil => exact fun _ h => by cases h
  | @cons e rest hrest hvar hlev hj ih =>
    have hr := ih fun f hf => hdec f (mem_cons_of_mem _ hf)
    intro f hf
    obtain rfl | hf := mem_cons.mp hf
    · cases hj with
      | decision hr hpos _ => exact hdec f (mem_cons_self ..) hr hpos
      | unit _ _ _ hu => exact hu α hα
      | implied c _ _ _ _ hothers hc =>
        obtain ⟨q, hq, hqα⟩ := hc α hα
        by_cases hqe : q = f.lit
        · rwa [← hqe]
        · exact absurd hqα (Theory.not_holds_of_value (hM hα) hr (hothers q hq hqe))
    · exact hr f hf

/-- The entries of level 0 follow. -/
theorem holds_zero (h : Consistent T M trail) (hM : M ⊆ T.Models) (hα : α ∈ M) (he : e ∈ trail)
    (hzero : e.level = 0) : e.lit.Holds α := by
  obtain ⟨pre, rest, rfl⟩ := append_of_mem he
  have hs := h.suffix (suffix_append pre _)
  obtain ⟨-, hlev, -⟩ := h.split
  refine hs.holds hM hα (fun f hf _ hpos => ?_) e (mem_cons_self ..)
  have hle : f.level ≤ e.level := by
    obtain rfl | hf := mem_cons.mp hf
    · exact le_rfl
    · exact hlev f hf
  omega

/-- An entry whose value was given by the older theory decisions opens a level. -/
theorem lt_of_evaluate (h : Consistent T M (pre ++ rest)) (hf : f ∈ pre) (hpos : 0 < f.level)
    (heval : T.evaluate (theoryDecisions rest) f.lit.var ≠ none) :
    ∀ e ∈ rest, e.level < f.level := by
  obtain ⟨pre₁, pre₂, rfl⟩ := append_of_mem hf
  rw [append_assoc, cons_append] at h
  obtain ⟨-, -, hj⟩ := h.split
  intro e he
  cases hj with
  | decision _ _ hopen => exact hopen e (mem_append_right _ he)
  | unit _ _ hzero _ => omega
  | implied _ _ _ hnone _ _ _ =>
    exact absurd (Theory.evaluate_suffix (((suffix_append pre₂ rest).filter _).map _) hnone) heval

/-- A theory decision opens a level. -/
theorem lt_of_theoryDecision (h : Consistent T M (pre ++ rest)) (hf : f ∈ pre)
    (ht : f.theoryDecision = true) : ∀ e ∈ rest, e.level < f.level := by
  obtain ⟨pre₁, pre₂, rfl⟩ := append_of_mem hf
  rw [append_assoc, cons_append] at h
  obtain ⟨-, -, hj⟩ := h.split
  intro e he
  cases hj with
  | decision _ _ hopen => exact hopen e (mem_append_right _ he)
  | unit _ hf _ _ => simp [hf] at ht
  | implied _ _ hf _ _ _ _ => simp [hf] at ht

/-- Entries on the level of an older entry are not theory decisions. -/
theorem theoryDecisions_eq (h : Consistent T M (pre ++ rest)) (he : e ∈ rest)
    (hlev : ∀ f ∈ pre, f.level ≤ e.level) :
    theoryDecisions (pre ++ rest) = theoryDecisions rest := by
  have hpre : pre.filter (·.theoryDecision) = [] := by
    rw [filter_eq_nil_iff]
    intro f hf ht
    have hlt := h.lt_of_theoryDecision hf ht e he
    have hle := hlev f hf
    omega
  rw [theoryDecisions, filter_append, hpre, nil_append, theoryDecisions]

end Consistent

end Smtrat.SAT
