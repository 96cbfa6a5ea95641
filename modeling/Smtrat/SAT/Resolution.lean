import Smtrat.SAT.Trail

/-!
# The clause that conflict analysis learns

While the analysis goes down the trail, the literals that have been pushed and the negations of the
entries that are still counted form a clause that follows.  The counted entries are those on the
current level that have been seen; the analysis stops when the last of them is selected.
-/

namespace Smtrat.SAT
open List Function Option

variable {T : Theory} {M : Set Valuation} {s s' : Solver} {a a' : Analysis}
  {rest : List Entry} {e f : Entry} {p : Option Lit} {q : Lit}

namespace Solver

/-- What holds at every moment of a search: `M` are the valuations that the search is about. -/
structure Invariant (T : Theory) (M : Set Valuation) (s : Solver) : Prop where
  trail : Consistent T M s.trail
  level_le : ∀ e ∈ s.trail, e.level ≤ s.decisionLevel
  level_eq : ∀ e ∈ s.trail, s.level e.lit.var = some e.level
  level_zero : ∀ v, s.level v = some 0 → ∃ e ∈ s.trail, e.lit.var = v ∧ e.level = 0
  clauses : ∀ c ∈ s.clauses, c.Follows M
  assumptions : ∀ l ∈ s.assumptions, ∀ α ∈ M, l.Holds α
  lemmas : ∀ c ∈ s.mLemmas, c.Follows M

theorem getDecisionLiteral_mem {x : Var} {ds : List Lit} {d : Lit}
    (h : getDecisionLiteral T x ds = some d) : d ∈ ds := by
  induction ds with
  | nil => cases h
  | cons d' ds ih =>
    rw [getDecisionLiteral] at h
    split_ifs at h with h₁ h₂
    · exact mem_cons_of_mem _ (ih h)
    · cases h
      exact mem_cons_self ..

namespace Invariant

theorem theoryDecision_pos (h : Invariant T M s) (he : e ∈ s.trail)
    (ht : e.theoryDecision = true) : 0 < e.level := by
  obtain ⟨pre, rest, htr⟩ := append_of_mem he
  have htrail := h.trail
  rw [htr] at htrail
  obtain ⟨-, -, hj⟩ := htrail.split
  cases hj with
  | decision _ hpos _ => exact hpos
  | unit _ hf _ _ => simp [hf] at ht
  | implied _ _ hf _ _ _ _ => simp [hf] at ht

/-- Only literals on level 0 have the level 0. -/
theorem level_of_theory_level (h : Invariant T M s) {x : Var} (hx : s.theory_level T x = 0) :
    s.level x = some 0 := by
  rw [theory_level] at hx
  cases hl : s.level x with
  | some n =>
    rw [hl] at hx
    exact congrArg some hx
  | none =>
    rw [hl, getD_none, theoryDecisionLevel] at hx
    cases hd : getDecisionLiteral T x (theoryDecisions s.trail) with
    | none => simp [hd, intMax] at hx
    | some d =>
      obtain ⟨e, he, hel⟩ := List.mem_map.mp (getDecisionLiteral_mem hd)
      obtain ⟨he, ht⟩ := mem_filter.mp he
      have hpos := h.theoryDecision_pos he ht
      have hlev := h.level_eq e he
      simp only [hd, ← hel, hlev, getD_some] at hx
      omega

end Invariant

end Solver

/-- The negation of a literal on the trail is false. -/
theorem Consistent.value_eq_false {trail : List Entry} (h : Consistent T M trail) (he : e ∈ trail)
    (hq : e.lit = q.neg) : (T.assigns trail).value q = some false := by
  have hsome : (boolAssigns trail q.var).isSome := by
    rw [isSome_iff_ne_none, Ne, boolAssigns_eq_none]
    exact fun hne => hne e he (by rw [hq, Lit.var_neg])
  obtain ⟨b, hb⟩ := isSome_iff_exists.mp hsome
  have hb' := hb
  rw [boolAssigns, map_eq_some_iff] at hb'
  obtain ⟨f, hf, hfb⟩ := hb'
  have hv : f.lit.var = q.var := by simpa using find?_some hf
  obtain rfl := h.eq_of_var (mem_of_find?_eq_some hf) he (by rw [hv, hq, Lit.var_neg])
  rw [value_eq_false_iff, Theory.assigns, hb, some_or, ← hfb, hq, Lit.sign_neg, Bool.not_not]

/-- A false literal over the variable of an entry is the negation of the entry. -/
theorem Consistent.eq_neg_of_value {trail : List Entry} (h : Consistent T M trail) (he : e ∈ trail)
    (hv : e.lit.var = q.var) (hq : (T.assigns trail).value q = some false) : e.lit = q.neg := by
  obtain ⟨f, hf, hfq⟩ | ⟨hnone, -⟩ := T.value_eq_false hq
  · obtain rfl := h.eq_of_var he hf (by rw [hv, hfq, Lit.var_neg])
    exact hfq
  · exact absurd hv (hnone e he)

theorem eq_of_value_eq_false {assigns : Assigns} {k : Lit} (hv : k.var = q.var)
    (hk : assigns.value k = some false) (hq : assigns.value q = some false) : k = q := by
  rw [value_eq_false_iff] at hk hq
  rw [hv, hq] at hk
  exact Lit.ext hv (some.inj hk).symm

/-! ## What has been seen -/

/-- The entries that have been seen on the current level. -/
def counted (level : Nat) (seen : Var → Bool) (rest : List Entry) : List Entry :=
  rest.filter fun e => seen e.lit.var && level ≤ e.level

variable {level : Nat} {seen : Var → Bool}

theorem mem_counted :
    e ∈ counted level seen rest ↔ e ∈ rest ∧ seen e.lit.var = true ∧ level ≤ e.level := by
  simp [counted]

theorem counted_cons :
    counted level seen (e :: rest) =
      if seen e.lit.var = true ∧ level ≤ e.level then e :: counted level seen rest
      else counted level seen rest := by
  rw [counted, filter_cons]
  simp [counted]

/-- Marks of variables that are not on the current level do not matter. -/
theorem counted_update {v : Var} {b : Bool} (h : ∀ e ∈ rest, e.lit.var = v → e.level < level) :
    counted level (update seen v b) rest = counted level seen rest := by
  refine filter_congr fun e he => ?_
  by_cases hv : e.lit.var = v
  · have hlt := h e he hv
    simp [Nat.not_le.mpr hlt]
  · rw [update_of_ne hv]

/-- The mark of an entry on the current level adds this entry. -/
theorem counted_update_perm (h : Consistent T M rest)
    (he : e ∈ rest) (hlev : level ≤ e.level) (hseen : seen e.lit.var = false) :
    (counted level (update seen e.lit.var true) rest).Perm (e :: counted level seen rest) := by
  obtain ⟨pre, post, rfl⟩ := append_of_mem he
  have hpost := h.split.1
  have hpre : ∀ f ∈ pre, f.lit.var = e.lit.var → f.level < level := by
    intro f hf hv
    exact absurd hv.symm (h.split_above hf (mem_cons_self ..)).1
  simp only [counted, filter_append, filter_cons, update_self, hseen, hlev,
    decide_true, Bool.and_self, Bool.false_and, if_true, Bool.false_eq_true, if_false]
  have h₁ : counted level (update seen e.lit.var true) pre = counted level seen pre :=
    counted_update hpre
  have h₂ : counted level (update seen e.lit.var true) post = counted level seen post :=
    counted_update fun f hf hv => absurd hv (hpost f hf)
  rw [counted, counted] at h₁ h₂
  rw [h₁, h₂]
  exact perm_middle

/-- The clause that the analysis has arrived at. -/
def remaining (level : Nat) (rest : List Entry) (a : Analysis) : Clause :=
  a.out_learnt ++ (counted level a.seen rest).map fun e => e.lit.neg

theorem mem_remaining :
    q ∈ remaining level rest a ↔
      q ∈ a.out_learnt ∨ ∃ e ∈ counted level a.seen rest, e.lit.neg = q := by
  simp [remaining]

/-- Every variable that has been seen belongs to a false literal that has been pushed or is the
negation of a counted entry. -/
structure Marks (T : Theory) (s : Solver) (rest : List Entry) (a : Analysis) : Prop where
  suffix : rest <:+ s.trail
  seen : ∀ v, a.seen v = true → ∃ q : Lit, q.var = v ∧ s.value T q = some false ∧
    ((q ∈ a.out_learnt ∧ ∀ e ∈ s.trail, e.lit.var = v → e.level < s.decisionLevel) ∨
      ∃ e ∈ rest, e.lit = q.neg ∧ 0 < e.level ∧ s.decisionLevel ≤ e.level)
  pathC : a.pathC = (counted s.decisionLevel a.seen rest).length

namespace Marks

/-- A literal whose variable is not on the current level is pushed. -/
theorem push (h : Marks T s rest a) (hq : s.value T q = some false)
    (hlev : ∀ e ∈ s.trail, e.lit.var = q.var → e.level < s.decisionLevel) :
    Marks T s rest ((a.setSeen q.var true).push q) where
  suffix := h.suffix
  seen := by
    intro v hv
    by_cases hvq : v = q.var
    · subst hvq
      exact ⟨q, rfl, hq, Or.inl ⟨mem_append_right _ (mem_singleton_self q), hlev⟩⟩
    · have hv' : a.seen v = true := by simpa [Analysis.push, Analysis.setSeen, hvq] using hv
      obtain ⟨k, hk, hkv, hor⟩ := h.seen v hv'
      exact ⟨k, hk, hkv, hor.imp_left fun hk => ⟨mem_append_left _ hk.1, hk.2⟩⟩
  pathC := by
    have hrest : ∀ e ∈ rest, e.lit.var = q.var → e.level < s.decisionLevel :=
      fun e he => hlev e (h.suffix.subset he)
    simp only [Analysis.push, Analysis.setSeen, counted_update hrest, h.pathC]

theorem remaining_push (h : Marks T s rest a)
    (hlev : ∀ e ∈ s.trail, e.lit.var = q.var → e.level < s.decisionLevel) {k : Lit} :
    k ∈ remaining s.decisionLevel rest ((a.setSeen q.var true).push q) ↔
      k ∈ remaining s.decisionLevel rest a ∨ k = q := by
  have hrest : ∀ e ∈ rest, e.lit.var = q.var → e.level < s.decisionLevel :=
    fun e he => hlev e (h.suffix.subset he)
  simp only [mem_remaining, Analysis.push, Analysis.setSeen, counted_update hrest, mem_append,
    mem_singleton]
  exact or_right_comm

/-- A literal whose variable is on the current level is counted. -/
theorem count (h : Marks T s rest a) (hI : s.Invariant T M) (hseen : a.seen q.var = false)
    (hq : s.value T q = some false) (he : e ∈ rest) (heq : e.lit = q.neg) (hpos : 0 < e.level)
    (hlev : s.decisionLevel ≤ e.level) :
    Marks T s rest { a.setSeen q.var true with pathC := a.pathC + 1 } ∧
      ∀ k, k ∈ remaining s.decisionLevel rest { a.setSeen q.var true with pathC := a.pathC + 1 } ↔
        k ∈ remaining s.decisionLevel rest a ∨ k = q := by
  have hvar : e.lit.var = q.var := by rw [heq, Lit.var_neg]
  have hperm := counted_update_perm (hI.trail.suffix h.suffix) he hlev (hvar ▸ hseen)
  rw [hvar] at hperm
  refine ⟨⟨h.suffix, ?_, ?_⟩, fun k => ?_⟩
  · intro v hv
    by_cases hvq : v = q.var
    · subst hvq
      exact ⟨q, rfl, hq, Or.inr ⟨e, he, heq, hpos, hlev⟩⟩
    · exact h.seen v (by simpa [Analysis.setSeen, hvq] using hv)
  · have hlen := hperm.length_eq
    have hpath := h.pathC
    simp only [Analysis.setSeen, hlen, length_cons]
    omega
  · have hmem : ∀ f, f ∈ counted s.decisionLevel (update a.seen q.var true) rest ↔
        f = e ∨ f ∈ counted s.decisionLevel a.seen rest := by
      intro f
      rw [hperm.mem_iff, mem_cons]
    simp only [mem_remaining, Analysis.setSeen, hmem]
    constructor
    · rintro (hk | ⟨f, rfl | hf, rfl⟩)
      · exact Or.inl (Or.inl hk)
      · rw [heq, Lit.neg_neg]
        exact Or.inr rfl
      · exact Or.inl (Or.inr ⟨f, hf, rfl⟩)
    · rintro ((hk | ⟨f, hf, rfl⟩) | rfl)
      · exact Or.inl hk
      · exact Or.inr ⟨f, Or.inr hf, rfl⟩
      · exact Or.inr ⟨e, Or.inl rfl, by rw [heq, Lit.neg_neg]⟩

/-- What has been seen is part of the clause that the analysis has arrived at. -/
theorem mem_remaining_of_seen (h : Marks T s rest a) (hseen : a.seen q.var = true)
    (hq : s.value T q = some false) : q ∈ remaining s.decisionLevel rest a := by
  obtain ⟨k, hk, hkv, hor⟩ := h.seen q.var hseen
  obtain rfl := eq_of_value_eq_false hk hkv hq
  rw [mem_remaining]
  obtain ⟨hk, -⟩ | ⟨e, he, hek, -, hlev⟩ := hor
  · exact Or.inl hk
  · refine Or.inr ⟨e, mem_counted.mpr ⟨he, ?_, hlev⟩, by rw [hek, Lit.neg_neg]⟩
    rw [hek, Lit.var_neg, hseen]

end Marks

namespace Solver

/-- Looking at a literal adds it to the clause, unless it is the one to explain or it is always
false. -/
theorem lookAt_spec (hI : s.Invariant T M) (hm : Marks T s rest a)
    (hrest : p ≠ some q → ∀ e ∈ s.trail, e.lit.var = q.var → s.decisionLevel ≤ e.level → e ∈ rest)
    (h : s.lookAt T p a q = some a') :
    Marks T s rest a' ∧ a'.resolutionSteps = a.resolutionSteps ∧
      (∀ k ∈ remaining s.decisionLevel rest a, k ∈ remaining s.decisionLevel rest a') ∧
      (∀ k ∈ remaining s.decisionLevel rest a', k ∈ remaining s.decisionLevel rest a ∨ k = q) ∧
      (p = some q ∨ q ∈ remaining s.decisionLevel rest a' ∨
        ∃ e ∈ s.trail, e.lit = q.neg ∧ e.level = 0) := by
  rw [lookAt] at h
  split_ifs at h with hp hv hs hb hc
  · cases h
    exact ⟨hm, rfl, fun _ hk => hk, fun _ hk => Or.inl hk, Or.inl hp⟩
  · cases h
    have hnone : ∀ e ∈ s.trail, e.lit.var = q.var → e.level < s.decisionLevel :=
      fun e he hev => absurd hev (boolValue_eq_none.mp hb e he)
    have hmem := fun k => hm.remaining_push hnone (k := k)
    exact ⟨hm.push (not_not.mp hv) hnone, rfl, fun k hk => (hmem k).mpr (Or.inl hk),
      fun k hk => (hmem k).mp hk, Or.inr (Or.inl ((hmem q).mpr (Or.inr rfl)))⟩
  · cases h
    have hv := not_not.mp hv
    obtain ⟨e, he, heq⟩ | ⟨hnone, -⟩ := T.value_eq_false hv
    · have hlev := hI.level_eq e he
      rw [heq, Lit.var_neg, hc.1] at hlev
      have hlev := some.inj hlev
      have hd : s.decisionLevel ≤ e.level := hlev ▸ hc.2
      have her := hrest hp e he (by rw [heq, Lit.var_neg]) hd
      obtain ⟨hmarks, hmem⟩ := hm.count hI hs.1 hv her heq (hlev ▸ hs.2) hd
      exact ⟨hmarks, rfl, fun k hk => (hmem k).mpr (Or.inl hk), fun k hk => (hmem k).mp hk,
        Or.inr (Or.inl ((hmem q).mpr (Or.inr rfl)))⟩
    · exact absurd (boolValue_eq_none.mpr hnone) hb
  · cases h
    have hv := not_not.mp hv
    have hlow : ∀ e ∈ s.trail, e.lit.var = q.var → e.level < s.decisionLevel := by
      intro e he hev
      have hlev := hI.level_eq e he
      rw [hev] at hlev
      have htl : s.theory_level T q.var = e.level := by rw [theory_level, hlev, getD_some]
      rw [hlev, htl] at hc
      exact Nat.not_le.mp fun hle => hc ⟨rfl, hle⟩
    have hmem := fun k => hm.remaining_push hlow (k := k)
    exact ⟨hm.push hv hlow, rfl, fun k hk => (hmem k).mpr (Or.inl hk), fun k hk => (hmem k).mp hk,
      Or.inr (Or.inl ((hmem q).mpr (Or.inr rfl)))⟩
  · cases h
    have hv := not_not.mp hv
    refine ⟨hm, rfl, fun _ hk => hk, fun _ hk => Or.inl hk, Or.inr ?_⟩
    cases hseen : a.seen q.var with
    | true => exact Or.inl (hm.mem_remaining_of_seen hseen hv)
    | false =>
      have hzero := hI.level_of_theory_level (Nat.eq_zero_of_not_pos fun hpos => hs ⟨hseen, hpos⟩)
      obtain ⟨e, he, hev, hlev⟩ := hI.level_zero _ hzero
      exact Or.inr ⟨e, he, hI.trail.eq_neg_of_value he hev hv, hlev⟩

/-- Looking at a clause adds its literals. -/
theorem lookAtClause_spec (hI : s.Invariant T M) {c : Clause} (hm : Marks T s rest a)
    (hrest : ∀ q ∈ c, p ≠ some q →
      ∀ e ∈ s.trail, e.lit.var = q.var → s.decisionLevel ≤ e.level → e ∈ rest)
    (h : s.lookAtClause T p c a = some a') :
    Marks T s rest a' ∧ a'.resolutionSteps = a.resolutionSteps ∧
      (∀ k ∈ remaining s.decisionLevel rest a, k ∈ remaining s.decisionLevel rest a') ∧
      (∀ k ∈ remaining s.decisionLevel rest a', k ∈ remaining s.decisionLevel rest a ∨ k ∈ c) ∧
      ∀ q ∈ c, p = some q ∨ q ∈ remaining s.decisionLevel rest a' ∨
        ∃ e ∈ s.trail, e.lit = q.neg ∧ e.level = 0 := by
  rw [lookAtClause] at h
  induction c generalizing a with
  | nil =>
    cases h
    exact ⟨hm, rfl, fun _ hk => hk, fun _ hk => Or.inl hk, fun _ hq => by cases hq⟩
  | cons q c ih =>
    rw [foldlM_cons, bind_eq_bind, bind_eq_some_iff] at h
    obtain ⟨a₁, h₁, h₂⟩ := h
    obtain ⟨hm₁, hs₁, hsub₁, hnew₁, hq₁⟩ :=
      lookAt_spec hI hm (hrest q (mem_cons_self ..)) h₁
    obtain ⟨hm₂, hs₂, hsub₂, hnew₂, hq₂⟩ :=
      ih hm₁ (fun q hq => hrest q (mem_cons_of_mem _ hq)) h₂
    refine ⟨hm₂, hs₂.trans hs₁, fun k hk => hsub₂ k (hsub₁ k hk), fun k hk => ?_, fun k hk => ?_⟩
    · obtain hk | hk := hnew₂ k hk
      · obtain hk | rfl := hnew₁ k hk
        · exact Or.inl hk
        · exact Or.inr (mem_cons_self ..)
      · exact Or.inr (mem_cons_of_mem _ hk)
    · obtain rfl | hk := mem_cons.mp hk
      · exact hq₁.imp_right fun hor => hor.imp_left fun hq => hsub₂ _ hq
      · exact hq₂ k hk

end Solver

end Smtrat.SAT
