import Smtrat.SAT.Resolution

/-!
# Learnt clauses follow

The loop of the analysis keeps the clause that it has arrived at a consequence: a selected entry is
resolved with the clause that made it true, or with its explanation after it has been removed from
the trail.  No decision level ends by that.
-/

namespace Smtrat.SAT
open List Option

variable {T : Theory} {M : Set Valuation} {s s' : Solver} {a a' : Analysis}
  {rest pre : List Entry} {e f : Entry} {p q : Lit}

namespace Analysis

theorem mem_learnt : q ∈ a.learnt p ↔ q = p.neg ∨ q ∈ a.out_learnt := by
  rw [learnt]
  split_ifs with h
  · have hne : a.out_learnt ≠ [] := ne_nil_of_mem h
    have hsplit := dropLast_append_getLast hne
    rw [getLast?_eq_getLast_of_ne_nil hne, toList_some, mem_append, mem_singleton]
    constructor
    · rintro (rfl | hq)
      · exact Or.inr (getLast_mem hne)
      · exact Or.inr (dropLast_subset _ hq)
    · intro hq
      have hq : q ∈ a.out_learnt := hq.elim (fun hq => hq ▸ h) id
      rw [← hsplit, mem_append, mem_singleton] at hq
      exact hq.symm
  · exact mem_cons

end Analysis

namespace Marks

/-- An entry that has not been seen is skipped. -/
theorem skip (h : Marks T s (e :: rest) a) (hseen : a.seen e.lit.var = false) :
    Marks T s rest a ∧ remaining s.decisionLevel rest a =
      remaining s.decisionLevel (e :: rest) a := by
  have hcnt : counted s.decisionLevel a.seen (e :: rest) = counted s.decisionLevel a.seen rest := by
    rw [counted_cons, if_neg (by simp [hseen])]
  refine ⟨⟨(suffix_cons e rest).trans h.suffix, ?_, by rw [h.pathC, hcnt]⟩, ?_⟩
  · intro v hv
    obtain ⟨q, hq, hqv, hor⟩ := h.seen v hv
    refine ⟨q, hq, hqv, hor.imp_right ?_⟩
    rintro ⟨f, hf, hfq, hrest⟩
    obtain rfl | hf := mem_cons.mp hf
    · rw [hfq, Lit.var_neg, hq, hv] at hseen
      cases hseen
    · exact ⟨f, hf, hfq, hrest⟩
  · rw [remaining, remaining, hcnt]

/-- An explanation of one literal becomes an assumption and is pushed. -/
theorem pushUnit (h : Marks T s rest a) (l : Lit) :
    Marks T (s.pushAssumption l) rest (a.push l) where
  suffix := h.suffix
  seen := by
    intro v hv
    obtain ⟨q, hq, hqv, hor⟩ := h.seen v hv
    exact ⟨q, hq, hqv, hor.imp_left fun hq => ⟨mem_append_left _ hq.1, hq.2⟩⟩
  pathC := h.pathC

variable (hI : s.Invariant T M)

include hI

/-- The negation of an entry below the current level has been pushed when the entry was seen. -/
theorem neg_mem_of_lt (h : Marks T s (e :: rest) a) (hseen : a.seen e.lit.var = true)
    (hlt : e.level < s.decisionLevel) : e.lit.neg ∈ a.out_learnt := by
  have he := h.suffix.subset (mem_cons_self ..)
  obtain ⟨q, hq, hqv, hor⟩ := h.seen _ hseen
  have heq := hI.trail.eq_neg_of_value he hq.symm hqv
  obtain ⟨hmem, -⟩ | ⟨f, hf, hfq, -, hle⟩ := hor
  · rwa [heq, Lit.neg_neg]
  · obtain rfl := hI.trail.eq_of_var he (h.suffix.subset hf) (by rw [heq, hfq])
    omega

/-- There is nothing to count below an entry below the current level. -/
theorem counted_eq_nil (h : Marks T s (e :: rest) a) (hlt : e.level < s.decisionLevel) :
    counted s.decisionLevel a.seen (e :: rest) = [] := by
  have hlev := (hI.trail.suffix h.suffix).head.2.1
  rw [counted, filter_eq_nil_iff]
  intro f hf
  have hle : f.level ≤ e.level := by
    obtain rfl | hf := mem_cons.mp hf
    · exact le_rfl
    · exact hlev f hf
  simp only [Bool.and_eq_true, decide_eq_true_eq, not_and]
  omega

theorem counted_select (h : Marks T s (e :: rest) a) :
    counted s.decisionLevel (a.select e.lit).seen rest = counted s.decisionLevel a.seen rest := by
  have hvar := (hI.trail.suffix h.suffix).head.1
  exact counted_update fun f hf hv => absurd hv (hvar f hf)

/-- When the last counted entry is selected, the clause is complete. -/
theorem mem_learnt_iff (h : Marks T s (e :: rest) a) (hseen : a.seen e.lit.var = true)
    (hpath : (a.select e.lit).pathC ≤ 0) :
    q ∈ (a.select e.lit).learnt e.lit ↔ q ∈ remaining s.decisionLevel (e :: rest) a := by
  have hcnt := h.pathC
  have hpath : a.pathC - 1 ≤ 0 := hpath
  have hout : (a.select e.lit).out_learnt = a.out_learnt := rfl
  rw [Analysis.mem_learnt, hout, mem_remaining]
  by_cases hle : s.decisionLevel ≤ e.level
  · rw [counted_cons, if_pos ⟨hseen, hle⟩] at hcnt ⊢
    have hnil : counted s.decisionLevel a.seen rest = [] := by
      rw [← length_eq_zero_iff]
      simp only [length_cons] at hcnt
      omega
    rw [hnil]
    simp only [mem_singleton, exists_eq_left, eq_comm (a := e.lit.neg)]
    exact or_comm
  · have hlt := Nat.not_le.mp hle
    rw [counted_eq_nil hI h hlt]
    constructor
    · rintro (rfl | hq)
      · exact Or.inl (neg_mem_of_lt hI h hseen hlt)
      · exact Or.inl hq
    · rintro (hq | ⟨f, hf, -⟩)
      · exact Or.inr hq
      · cases hf

/-- A selected entry that is not the last counted one is on the current level, above another. -/
theorem select (h : Marks T s (e :: rest) a) (hseen : a.seen e.lit.var = true)
    (hpath : ¬(a.select e.lit).pathC ≤ 0) :
    Marks T s rest (a.select e.lit) ∧ e.level = s.decisionLevel ∧
      (∃ f ∈ rest, 0 < f.level ∧ f.level = s.decisionLevel) ∧
      ∀ k, k ∈ remaining s.decisionLevel (e :: rest) a ↔
        k = e.lit.neg ∨ k ∈ remaining s.decisionLevel rest (a.select e.lit) := by
  have he := h.suffix.subset (mem_cons_self ..)
  have hpathC := h.pathC
  have hpath' : ¬a.pathC - 1 ≤ 0 := hpath
  have hle : s.decisionLevel ≤ e.level := by
    by_contra hlt
    rw [counted_eq_nil hI h (Nat.not_le.mp hlt), length_nil] at hpathC
    omega
  have hlev := Nat.le_antisymm (hI.level_le e he) hle
  have hcons : counted s.decisionLevel a.seen (e :: rest) =
      e :: counted s.decisionLevel a.seen rest := by
    rw [counted_cons, if_pos ⟨hseen, hle⟩]
  rw [hcons, length_cons] at hpathC
  have hselect := counted_select hI h
  have hmarks : Marks T s rest (a.select e.lit) := by
    refine ⟨(suffix_cons e rest).trans h.suffix, fun v hv => ?_, ?_⟩
    · have hve : v ≠ e.lit.var := by
        rintro rfl
        simp [Analysis.select, Analysis.setSeen] at hv
      have hv' : a.seen v = true := by
        simpa [Analysis.select, Analysis.setSeen, Function.update_of_ne hve] using hv
      obtain ⟨q, hq, hqv, hor⟩ := h.seen v hv'
      refine ⟨q, hq, hqv, hor.imp_right ?_⟩
      rintro ⟨f, hf, hfq, hrest⟩
      obtain rfl | hf := mem_cons.mp hf
      · rw [hfq, Lit.var_neg, hq] at hve
        exact absurd rfl hve
      · exact ⟨f, hf, hfq, hrest⟩
    · rw [hselect]
      change a.pathC - 1 = _
      omega
  refine ⟨hmarks, hlev, ?_, fun k => ?_⟩
  · have hne : counted s.decisionLevel a.seen rest ≠ [] := by
      intro hnil
      rw [hnil, length_nil] at hpathC
      omega
    obtain ⟨f, hf⟩ := exists_mem_of_ne_nil _ hne
    obtain ⟨hf, hfs, hfl⟩ := mem_counted.mp hf
    have hft := h.suffix.subset (mem_cons_of_mem e hf)
    obtain ⟨q, hq, hqv, hor⟩ := h.seen _ hfs
    have hfd := Nat.le_antisymm (hI.level_le f hft) hfl
    obtain ⟨-, hlt⟩ | ⟨g, hg, hgq, hpos, -⟩ := hor
    · have := hlt f hft rfl
      omega
    · obtain rfl := hI.trail.eq_of_var (h.suffix.subset hg) hft (by rw [hgq, Lit.var_neg, hq])
      exact ⟨g, hf, hpos, hfd⟩
  · rw [mem_remaining, mem_remaining, hcons, hselect]
    have hout : (a.select e.lit).out_learnt = a.out_learnt := rfl
    rw [hout]
    constructor
    · rintro (hk | ⟨f, hf, rfl⟩)
      · exact Or.inr (Or.inl hk)
      · obtain rfl | hf := mem_cons.mp hf
        · exact Or.inl rfl
        · exact Or.inr (Or.inr ⟨f, hf, rfl⟩)
    · rintro (rfl | hk | ⟨f, hf, rfl⟩)
      · exact Or.inr ⟨e, mem_cons_self .., rfl⟩
      · exact Or.inl hk
      · exact Or.inr ⟨f, mem_cons_of_mem _ hf, rfl⟩

end Marks

namespace Solver

/-- Backtracking includes an entry that is not the first of its level and ends no level. -/
theorem cancelIncludingLiteral_eq {level : Nat} (h : Consistent T M (pre ++ e :: rest))
    (hf : f ∈ rest) (hlev : level ≤ f.level) :
    cancelIncludingLiteral e.lit (pre ++ e :: rest) level = (rest, level) := by
  have hall : ∀ pre' : List Entry, (pre' ++ rest).all (·.level < level) = false := by
    intro pre'
    rw [List.all_eq_false]
    exact ⟨f, mem_append_right _ hf, by simpa using hlev⟩
  induction pre with
  | nil =>
    have hrest := hall []
    rw [nil_append] at hrest
    rw [nil_append, cancelIncludingLiteral, hrest]
    simp
  | cons g pre ih =>
    have hvar := h.head.1 e (by simp)
    have hne : g.lit ≠ e.lit := fun hg => hvar (by rw [hg])
    have hmid : (pre ++ e :: rest).all (·.level < level) = false := by
      have := hall (pre ++ [e])
      rwa [append_assoc, singleton_append] at this
    rw [cons_append, cancelIncludingLiteral, hmid]
    simp only [Bool.false_eq_true, if_false, if_neg hne]
    exact ih (h.suffix (suffix_cons g _))

/-- What the analysis changes: it removes entries from the trail and adds assumptions. -/
def Shrunk (s s' : Solver) : Prop :=
  ∃ trail units, trail <:+ s.trail ∧
    s' = { s with trail := trail, assumptions := s.assumptions ++ units }

theorem Shrunk.refl (s : Solver) : s.Shrunk s := by
  refine ⟨s.trail, [], suffix_rfl, ?_⟩
  rw [append_nil]

theorem Shrunk.trans {s₁ s₂ s₃ : Solver} (h₁ : s₁.Shrunk s₂) (h₂ : s₂.Shrunk s₃) :
    s₁.Shrunk s₃ := by
  obtain ⟨t, us, ht, rfl⟩ := h₁
  obtain ⟨t', us', ht', rfl⟩ := h₂
  refine ⟨t', us ++ us', ht'.trans ht, ?_⟩
  simp only [append_assoc]

theorem Invariant.pushAssumption (h : s.Invariant T M) {l : Lit} (hl : ∀ α ∈ M, l.Holds α) :
    (s.pushAssumption l).Invariant T M := by
  refine ⟨h.trail, h.level_le, h.level_eq, h.level_zero, h.clauses, fun k hk => ?_, h.lemmas⟩
  obtain hk | hk := mem_append.mp hk
  · exact h.assumptions k hk
  · obtain rfl := mem_singleton.mp hk
    exact hl

/-- The trail can be cut above level 0. -/
theorem Invariant.cut (h : s.Invariant T M) {trail : List Entry} (ht : trail <:+ s.trail)
    {level : Nat} (hle : ∀ e ∈ trail, e.level ≤ level)
    (hzero : ∀ e ∈ s.trail, e.level = 0 → e ∈ trail) :
    { s with trail := trail, decisionLevel := level }.Invariant T M where
  trail := h.trail.suffix ht
  level_le := hle
  level_eq := fun e he => h.level_eq e (ht.subset he)
  level_zero := by
    intro v hv
    obtain ⟨e, he, hev, hel⟩ := h.level_zero v hv
    exact ⟨e, hzero e he hel, hev, hel⟩
  clauses := h.clauses
  assumptions := h.assumptions
  lemmas := h.lemmas

/-- An entry on the current level, and not the first one there, can be removed with everything above
it. -/
theorem backtrackIncluding_spec (hI : s.Invariant T M) (htr : s.trail = pre ++ e :: rest)
    (he : e.level = s.decisionLevel) (hf : f ∈ rest) (hpos : 0 < f.level)
    (hlev : f.level = s.decisionLevel) {a : Analysis} (hm : Marks T s rest a) :
    s.backtrackIncluding e.lit = { s with trail := rest } ∧
      { s with trail := rest }.Invariant T M ∧ Marks T { s with trail := rest } rest a := by
  have htrail := hI.trail
  rw [htr] at htrail
  have hsuf : rest <:+ s.trail := by
    rw [htr]
    exact (suffix_cons e rest).trans (suffix_append pre _)
  have habove : ∀ g ∈ pre ++ [e], g.level = s.decisionLevel := by
    intro g hg
    obtain hg | hg := mem_append.mp hg
    · have hge := (htrail.split_above hg (mem_cons_self ..)).2
      have hgl := hI.level_le g (by rw [htr]; exact mem_append_left _ hg)
      omega
    · rw [mem_singleton.mp hg, he]
  have hmem : ∀ g ∈ s.trail, g.level ≠ s.decisionLevel → g ∈ rest := by
    intro g hg hne
    rw [htr, append_cons, mem_append] at hg
    exact hg.resolve_left fun hg => hne (habove g hg)
  have hdec : theoryDecisions s.trail = theoryDecisions rest := by
    rw [append_cons] at htrail
    rw [htr, append_cons]
    refine htrail.theoryDecisions_eq hf fun g hg => ?_
    rw [habove g hg, hlev]
  refine ⟨?_, ?_, ?_⟩
  · rw [backtrackIncluding, htr, cancelIncludingLiteral_eq htrail hf hlev.ge]
  · refine hI.cut hsuf (fun g hg => hI.level_le g (hsuf.subset hg)) fun g hg hzero => ?_
    exact hmem g hg (by omega)
  · refine ⟨suffix_rfl, fun v hv => ?_, hm.pathC⟩
    obtain ⟨q, hq, hqv, hor⟩ := hm.seen v hv
    refine ⟨q, hq, ?_, ?_⟩
    · obtain ⟨-, hlow⟩ | ⟨g, hg, hgq, -⟩ := hor
      · obtain ⟨g, hg, hgq⟩ | ⟨hnone, heval⟩ := T.value_eq_false hqv
        · have hlt := hlow g hg (by rw [hgq, Lit.var_neg, hq])
          exact (hI.trail.suffix hsuf).value_eq_false (hmem g hg (by omega)) hgq
        · have hnone' : boolAssigns rest q.var = none :=
            boolAssigns_eq_none.mpr fun g hg => hnone g (hsuf.subset hg)
          rw [value, value_eq_false_iff, Theory.assigns, hnone', none_or, ← hdec, heval]
      · exact (hI.trail.suffix hsuf).value_eq_false hg hgq
    · exact hor.imp_left fun h => ⟨h.1, fun g hg => h.2 g (hsuf.subset hg)⟩

/-- The literals that made an entry true are older than it, or below its level. -/
theorem mem_rest_of_value (hI : s.Invariant T M) (htr : s.trail = pre ++ e :: rest) (hf : f ∈ rest)
    (hpos : 0 < f.level) (hlev : f.level = s.decisionLevel)
    (hq : (T.assigns rest).value q = some false) :
    ∀ g ∈ s.trail, g.lit.var = q.var → s.decisionLevel ≤ g.level → g ∈ rest := by
  intro g hg hgq hge
  have htrail := hI.trail
  have hsplit : s.trail = (pre ++ [e]) ++ rest := by rw [htr, append_cons]
  have hsub : ∀ g ∈ rest, g ∈ s.trail := fun g hg => by
    rw [hsplit]
    exact mem_append_right _ hg
  obtain ⟨g', hg', hgq'⟩ | ⟨-, heval⟩ := T.value_eq_false hq
  · rwa [htrail.eq_of_var hg (hsub g' hg') (by rw [hgq, hgq', Lit.var_neg])]
  · by_contra hgr
    have hgp := hg
    rw [hsplit, mem_append] at hgp
    rw [hsplit] at htrail
    have hlt := htrail.lt_of_evaluate (hgp.resolve_right hgr) (by omega)
      (by rw [hgq, heval]; exact some_ne_none _) f hf
    have hle := hI.level_le g hg
    omega

/-- A clause is resolved with one that made the literal `p` true. -/
theorem lookAtClause_resolves (hM : M ⊆ T.Models) (hI : s.Invariant T M) {c d : Clause}
    (hm : Marks T s rest a)
    (hrest : ∀ q ∈ c, some p ≠ some q →
      ∀ e ∈ s.trail, e.lit.var = q.var → s.decisionLevel ≤ e.level → e ∈ rest)
    (hd : d.Follows M) (hda : ∀ k ∈ d, k = p.neg ∨ k ∈ remaining s.decisionLevel rest a)
    (hc : c.Follows M) (h : s.lookAtClause T (some p) c a = some a') :
    Marks T s rest a' ∧ a'.resolutionSteps = a.resolutionSteps ∧
      Clause.Follows M (remaining s.decisionLevel rest a') := by
  obtain ⟨hm', hsteps, hsub, -, hmem⟩ := lookAtClause_spec hI hm hrest h
  refine ⟨hm', hsteps, hd.resolve hc (fun k hk => (hda k hk).imp_right (hsub k)) fun k hk => ?_⟩
  obtain hp | hk | ⟨e, he, hek, hzero⟩ := hmem k hk
  · exact Or.inl (some.inj hp).symm
  · exact Or.inr (Or.inl hk)
  · refine Or.inr (Or.inr fun α hα => ?_)
    have hα := hI.trail.holds_zero hM hα he hzero
    rwa [hek, Lit.holds_neg] at hα

/-- The clause that the analysis ends with follows.  If it ends at once, the clause is the one that
it started with. -/
theorem resolve_spec (hM : M ⊆ T.Models) (hI : s.Invariant T M) (hm : Marks T s rest a)
    (hfol : Clause.Follows M (remaining s.decisionLevel rest a))
    (h : resolve T rest s a = some (s', a', p)) :
    s'.Invariant T M ∧ s.Shrunk s' ∧ (a'.learnt p).Follows M ∧
      a.resolutionSteps < a'.resolutionSteps ∧
      (a'.resolutionSteps = a.resolutionSteps + 1 →
        s' = s ∧ ∀ q, q ∈ a'.learnt p ↔ q ∈ remaining s.decisionLevel rest a) := by
  induction rest generalizing s a with
  | nil => cases h
  | cons e rest ih =>
    rw [resolve] at h
    by_cases hseen : a.seen e.lit.var = false
    · rw [if_pos hseen] at h
      obtain ⟨hm', hrem⟩ := hm.skip hseen
      rw [← hrem] at hfol ⊢
      exact ih hI hm' hfol h
    · rw [if_neg hseen] at h
      have hseen : a.seen e.lit.var = true := by simpa using hseen
      dsimp only at h
      by_cases hpath : (a.select e.lit).pathC ≤ 0
      · rw [if_pos hpath] at h
        cases h
        have hmem := fun q => hm.mem_learnt_iff hI hseen hpath (q := q)
        refine ⟨hI, .refl _, hfol.mono fun q hq => (hmem q).mpr hq, ?_, fun _ => ⟨rfl, hmem⟩⟩
        exact Int.lt_succ _
      · rw [if_neg hpath] at h
        obtain ⟨hm₁, hlev, ⟨f, hf, hpos, hfd⟩, hrem⟩ := hm.select hI hseen hpath
        have hsteps : (a.select e.lit).resolutionSteps = a.resolutionSteps + 1 := rfl
        obtain ⟨pre, htr⟩ := hm.suffix
        have htr := htr.symm
        have htrail := hI.trail
        rw [htr] at htrail
        have hj := htrail.split.2.2
        -- more than one step is made from here on
        have hnot : a.resolutionSteps + 1 < a'.resolutionSteps →
            a'.resolutionSteps = a.resolutionSteps + 1 →
            s' = s ∧ ∀ q, q ∈ a'.learnt p ↔ q ∈ remaining s.decisionLevel (e :: rest) a := by
          intro hlt heq
          omega
        cases hj with
        | decision hr _ _ => simp [hr] at h
        | unit hr _ _ _ => simp [hr] at h
        | implied c hr ht heval hmem hothers hc =>
          obtain hr | ⟨hr, hexp⟩ := hr
          · rw [hr] at h
            obtain ⟨a₂, h₂, h⟩ := bind_eq_some_iff.mp h
            obtain ⟨hm₂, hs₂, hf₂⟩ := lookAtClause_resolves hM hI hm₁
              (fun q hq hne => mem_rest_of_value hI htr hf hpos hfd
                (hothers q hq fun hqe => hne (congrArg some hqe.symm)))
              hfol (fun k hk => (hrem k).mp hk) hc h₂
            obtain ⟨hI', hsh, hfol', hlt, -⟩ := ih hI hm₂ hf₂ h
            exact ⟨hI', hsh, hfol', by omega, hnot (by omega)⟩
          · rw [hr] at h
            obtain ⟨hback, hI₁, hm₁⟩ :=
              backtrackIncluding_spec hI htr hlev hf hpos hfd hm₁
            have hsh₁ : s.Shrunk { s with trail := rest } := by
              refine ⟨rest, [], ?_, by rw [append_nil]⟩
              rw [htr]
              exact (suffix_cons e rest).trans (suffix_append pre _)
            simp only [hback] at h
            rw [explain, ← hexp] at h
            split at h
            · cases h
            · rename_i l
              obtain rfl := mem_singleton.mp hmem
              have hunit := Clause.follows_singleton.mp hc
              obtain ⟨hI', hsh, hfol', hlt, -⟩ := ih (hI₁.pushAssumption hunit)
                (hm₁.pushUnit e.lit)
                (fun α hα => ⟨e.lit, by simp [remaining, Analysis.push], hunit α hα⟩) h
              have hsh₂ : Shrunk { s with trail := rest }
                  (pushAssumption { s with trail := rest } e.lit) :=
                ⟨rest, [e.lit], suffix_rfl, rfl⟩
              have hpush : ((a.select e.lit).push e.lit).resolutionSteps =
                  a.resolutionSteps + 1 := rfl
              exact ⟨hI', hsh₁.trans (hsh₂.trans hsh), hfol', by omega, hnot (by omega)⟩
            · obtain ⟨a₂, h₂, h⟩ := bind_eq_some_iff.mp h
              obtain ⟨hm₂, hs₂, hf₂⟩ := lookAtClause_resolves hM hI₁ hm₁
                (fun q _ _ g hg _ _ => hg) hfol (fun k hk => (hrem k).mp hk) hc h₂
              obtain ⟨hI', hsh, hfol', hlt, -⟩ := ih hI₁ hm₂ hf₂ h
              exact ⟨hI', hsh₁.trans hsh, hfol', by omega, hnot (by omega)⟩

end Solver

end Smtrat.SAT
