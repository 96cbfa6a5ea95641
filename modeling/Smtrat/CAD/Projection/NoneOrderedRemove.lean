import Smtrat.CAD.Projection.NoneOrderedAdd

/-!
# Removing from the ordered projection

The polynomials of the last constraint are in front of all others, so the loops remove exactly them.
A loop that removes all polynomials of a level looks at the last element of an empty vector.
-/

namespace Smtrat.CAD
open List Function Option

universe u

namespace ProjectionNO

variable {P : Type u}

/-- The ids that a removal drops from a level. -/
def droppedIds (polynomials remaining : List (P × ℕ)) : Finset ℕ :=
  Finset.Ico remaining.length polynomials.length

/-- The polynomials of a level are those of the constraint, and those of older constraints behind
them. -/
theorem filter_eq_of_pairwise {cid : ℕ} {polynomials : List (P × ℕ)}
    (hsorted : polynomials.Pairwise fun e e' => e'.2 ≤ e.2) (hcid : ∀ e ∈ polynomials, e.2 ≤ cid) :
    ∃ front, polynomials = front ++ polynomials.filter (·.2 ≠ cid) ∧ ∀ e ∈ front, e.2 = cid := by
  induction polynomials with
  | nil => exact ⟨[], rfl, fun _ he => absurd he not_mem_nil⟩
  | cons d rest ih =>
    obtain ⟨hd, hrest⟩ := pairwise_cons.mp hsorted
    obtain ⟨hdcid, hrestcid⟩ := forall_mem_cons.mp hcid
    obtain ⟨front, hfront, hall⟩ := ih hrest hrestcid
    by_cases heq : d.2 = cid
    · refine ⟨d :: front, ?_, forall_mem_cons.mpr ⟨heq, hall⟩⟩
      rw [filter_cons_of_neg (by simpa using heq), cons_append, ← hfront]
    · refine ⟨[], ?_, fun _ he => absurd he not_mem_nil⟩
      -- the polynomials behind are not newer than this one
      have hlt : d.2 < cid := lt_of_le_of_ne hdcid heq
      rw [nil_append, filter_eq_self.mpr]
      intro e he
      rcases mem_cons.mp he with rfl | he
      · simpa using heq
      · simpa using ((hd e he).trans_lt hlt).ne

variable [LinearOrder P] {s : ProjectionNO P} {level cid : ℕ}

/-- The last polynomial of a level is removed. -/
theorem WellFormed.removeLast (h : s.WellFormed) {e : P × ℕ} {rest : List (P × ℕ)}
    (hlev : s.polynomials level = e :: rest) (queue : Finset ℕ)
    (hqueue : queue.erase rest.length = Finset.range rest.length) :
    ∃ s', ({ s with liftingQueues := update s.liftingQueues level queue } :
        ProjectionNO P).removeLast level = some s' ∧
      s'.polynomials = update s.polynomials level rest ∧ s'.WellFormed := by
  have hwf := hlev ▸ h level
  obtain ⟨hnot, hnodup⟩ := nodup_cons.mp hwf.nodup
  have hmem : (e.1, rest.length) ∈ s.polynomialIDs level := (hwf.ids _).mpr mem_cons_self
  have hfind : OrderedMap.find e.1 (s.polynomialIDs level) = some rest.length := by
    cases hfind : OrderedMap.find e.1 (s.polynomialIDs level) with
    | none => exact absurd hmem (OrderedMap.find_eq_none.mp hfind _)
    | some id =>
      rcases mem_cons.mp ((hwf.ids _).mp (OrderedMap.mem_of_find hfind)) with h | h
      · rw [(Prod.mk.inj h).2]
      · obtain ⟨o, ho⟩ := mem_of_mem_numbering h
        exact absurd (List.mem_map_of_mem (f := fun e => e.1) ho) hnot
  rw [ProjectionNO.removeLast]
  dsimp only
  rw [hlev]
  dsimp only
  rw [hfind, map_some]
  refine ⟨_, rfl, rfl, fun k => ?_⟩
  dsimp only
  by_cases hk : k = level
  · subst hk
    rw [update_self, update_self, update_self, update_self]
    exact
      { nodup := hnodup
        ids := by
          intro d
          rw [OrderedMap.mem_erase, hwf.ids, numbering, mem_cons]
          constructor
          · rintro ⟨rfl | hd, hne⟩
            · exact absurd rfl hne
            · exact hd
          · intro hd
            refine ⟨.inr hd, ?_⟩
            obtain ⟨o, ho⟩ := mem_of_mem_numbering hd
            rintro heq
            rw [heq] at ho
            exact hnot (List.mem_map_of_mem (f := fun e => e.1) ho)
        queue := hqueue }
  · rw [update_of_ne hk, update_of_ne hk, update_of_ne hk, update_of_ne hk]
    exact h k

/-- The loop removes the polynomials of the constraint in front of another one. -/
theorem WellFormed.removeLoop (h : s.WellFormed) {front back : List (P × ℕ)} {e : P × ℕ}
    (hlev : s.polynomials level = front ++ e :: back) (hfront : ∀ d ∈ front, d.2 = cid)
    (he : e.2 ≠ cid) :
    ∃ s', ProjectionNO.removeLoop level cid (front ++ e :: back) s
        = some (droppedIds (front ++ e :: back) (e :: back), s') ∧
      s'.polynomials = update s.polynomials level (e :: back) ∧ s'.WellFormed := by
  induction front generalizing s with
  | nil =>
    refine ⟨s, ?_, ?_, h⟩
    · rw [nil_append, ProjectionNO.removeLoop, if_neg he, droppedIds, Finset.Ico_self]
    · rw [nil_append] at hlev
      rw [← hlev]
      exact (update_eq_self level s.polynomials).symm
  | cons d front ih =>
    obtain ⟨hd, hfront⟩ := forall_mem_cons.mp hfront
    rw [cons_append] at hlev ⊢
    have hqueue : ((s.liftingQueues level).erase (front ++ e :: back).length).erase
        (front ++ e :: back).length = Finset.range (front ++ e :: back).length := by
      rw [(h level).queue, hlev, length_cons, Finset.range_add_one, Finset.erase_insert]
      · exact Finset.erase_eq_of_notMem Finset.notMem_range_self
      · exact Finset.notMem_range_self
    obtain ⟨s₁, hs₁, hpolys, hwf⟩ := h.removeLast hlev _ hqueue
    have hlev₁ : s₁.polynomials level = front ++ e :: back := by
      rw [hpolys, update_self]
    obtain ⟨s', hs', hpolys', hwf'⟩ := ih hwf hlev₁ hfront
    refine ⟨s', ?_, ?_, hwf'⟩
    · rw [ProjectionNO.removeLoop, if_pos hd, hs₁, bind_some, hs', map_some, droppedIds, droppedIds]
      rw [show (d :: (front ++ e :: back)).length = (front ++ e :: back).length + 1 from rfl]
      congr 2
      refine (Nat.Ico_succ_right_eq_insert_Ico ?_).symm
      rw [length_append]
      exact Nat.le_add_left _ _
    · rw [hpolys', hpolys, update_idem]

/-- Every level with polynomials has one that does not stem from the constraint. -/
def KeepsLevels (cid : ℕ) (s : ProjectionNO P) : Prop :=
  ∀ level, s.polynomials level ≠ [] → ∃ e ∈ s.polynomials level, e.2 ≠ cid

/-- Removing the constraint from the levels from `level` on. -/
theorem WellFormed.removeLevels (h : s.WellFormed) (level n : ℕ)
    (hsorted : ∀ k, (s.polynomials k).Pairwise fun e e' => e'.2 ≤ e.2) (hlatest : s.Latest cid)
    (hkeeps : KeepsLevels cid s) :
    ∃ calls s', ProjectionNO.removeLevels cid n level s = some (calls, s') ∧ s'.WellFormed ∧
      (∀ k, s'.polynomials k = if level ≤ k ∧ k < level + n
        then (s.polynomials k).filter (·.2 ≠ cid) else s.polynomials k) ∧
      ∀ call, call ∈ calls ↔ (level ≤ call.1 ∧ call.1 < level + n ∧ s.polynomials call.1 ≠ []) ∧
        call.2 = droppedIds (s.polynomials call.1) ((s.polynomials call.1).filter (·.2 ≠ cid)) := by
  induction n generalizing level s with
  | zero =>
    refine ⟨[], s, rfl, h, fun k => (if_neg (by omega)).symm, fun call => ?_⟩
    refine iff_of_false not_mem_nil ?_
    rintro ⟨⟨hle, hlt, -⟩, -⟩
    omega
  | succ n ih =>
    rw [ProjectionNO.removeLevels]
    by_cases hempty : s.polynomials level = []
    · rw [if_pos hempty]
      obtain ⟨calls, s', hs', hwf', hpolys, hcalls⟩ :=
        ih h (level + 1) hsorted hlatest hkeeps
      refine ⟨calls, s', hs', hwf', fun k => ?_, fun call => ?_⟩
      · rw [hpolys]
        by_cases hk : k = level
        · subst hk
          rw [hempty, filter_nil, ite_self, ite_self]
        · exact if_congr (by omega) rfl rfl
      · rw [hcalls]
        refine and_congr_left fun _ => ?_
        by_cases hk : call.1 = level
        · rw [hk]
          simp [hempty]
        · exact ⟨fun ⟨h₁, h₂, h₃⟩ => ⟨by omega, by omega, h₃⟩,
            fun ⟨h₁, h₂, h₃⟩ => ⟨by omega, by omega, h₃⟩⟩
    · rw [if_neg hempty]
      obtain ⟨front, hfront, hall⟩ := filter_eq_of_pairwise (hsorted level) (hlatest level)
      have hne : (s.polynomials level).filter (·.2 ≠ cid) ≠ [] := by
        obtain ⟨e, he, hcid⟩ := hkeeps level hempty
        exact ne_nil_of_mem (mem_filter.mpr ⟨he, decide_eq_true hcid⟩)
      obtain ⟨e, back, hback⟩ := exists_cons_of_ne_nil hne
      have he : e.2 ≠ cid := by
        have hmem : e ∈ (s.polynomials level).filter (·.2 ≠ cid) := by
          rw [hback]
          exact mem_cons_self
        exact of_decide_eq_true (mem_filter.mp hmem).2
      have hlev : s.polynomials level = front ++ e :: back := by rw [← hback, ← hfront]
      obtain ⟨s₁, hs₁, hpolys₁, hwf₁⟩ := h.removeLoop hlev hall he
      have hsub : ∀ k, (s₁.polynomials k).Sublist (s.polynomials k) := by
        intro k
        rw [hpolys₁]
        by_cases hk : k = level
        · subst hk
          rw [update_self, hlev]
          exact sublist_append_right _ _
        · rw [update_of_ne hk]
      obtain ⟨calls, s', hs', hwf', hpolys, hcalls⟩ := ih hwf₁ (level + 1)
        (fun k => (hsorted k).sublist (hsub k)) (fun k d hd => hlatest k d ((hsub k).subset hd)) (by
          intro k hk
          rw [hpolys₁] at hk ⊢
          by_cases hk' : k = level
          · subst hk'
            rw [update_self]
            exact ⟨e, mem_cons_self, he⟩
          · rw [update_of_ne hk'] at hk ⊢
            exact hkeeps k hk)
      rw [← hlev] at hs₁
      rw [hs₁, bind_some]
      dsimp only
      rw [hs', map_some]
      refine ⟨_, s', rfl, hwf', fun k => ?_, fun call => ?_⟩
      · rw [hpolys, hpolys₁]
        by_cases hk : k = level
        · subst hk
          rw [update_self, if_neg (by omega), if_pos (by omega), hback]
        · rw [update_of_ne hk]
          exact if_congr (by omega) rfl rfl
      · rw [mem_cons, hcalls, hpolys₁]
        by_cases hk : call.1 = level
        · rw [hk, update_self]
          constructor
          · rintro (rfl | ⟨⟨hlt, -⟩, -⟩)
            · exact ⟨⟨le_rfl, by omega, hempty⟩, by rw [hback]⟩
            · omega
          · rintro ⟨-, hids⟩
            refine .inl (Prod.ext hk ?_)
            rw [hids, hback]
        · rw [update_of_ne hk]
          constructor
          · rintro (rfl | ⟨⟨h₁, h₂, h₃⟩, hids⟩)
            · exact absurd rfl hk
            · exact ⟨⟨by omega, by omega, h₃⟩, hids⟩
          · rintro ⟨⟨h₁, h₂, h₃⟩, hids⟩
            exact .inr ⟨⟨by omega, by omega, h₃⟩, hids⟩

/-! ## Emptied levels -/

theorem removeLast_of_ne {s s' : ProjectionNO P} (h : s.removeLast level = some s') {k : ℕ}
    (hk : k ≠ level) : s'.polynomials k = s.polynomials k := by
  rw [ProjectionNO.removeLast] at h
  cases hlev : s.polynomials level with
  | nil =>
    rw [hlev] at h
    exact nomatch h
  | cons e rest =>
    rw [hlev] at h
    obtain ⟨id, -, rfl⟩ := map_eq_some_iff.mp h
    exact update_of_ne hk ..

/-- The loop asks for the last polynomial after it removed the last one. -/
theorem removeLoop_eq_none {polynomials : List (P × ℕ)} (h : ∀ e ∈ polynomials, e.2 = cid)
    (s : ProjectionNO P) : ProjectionNO.removeLoop level cid polynomials s = none := by
  induction polynomials generalizing s with
  | nil => rfl
  | cons last rest ih =>
    rw [ProjectionNO.removeLoop, if_pos (h last mem_cons_self)]
    refine bind_eq_none_iff.mpr fun s' _ => ?_
    rw [ih fun e he => h e (mem_cons_of_mem last he), map_none]

theorem removeLoop_of_ne {polynomials : List (P × ℕ)} {s : ProjectionNO P}
    {r : Finset ℕ × ProjectionNO P} (h : ProjectionNO.removeLoop level cid polynomials s = some r)
    {k : ℕ} (hk : k ≠ level) : r.2.polynomials k = s.polynomials k := by
  induction polynomials generalizing s r with
  | nil => exact nomatch h
  | cons last rest ih =>
    rw [ProjectionNO.removeLoop] at h
    split_ifs at h
    · obtain ⟨s₁, hs₁, h⟩ := bind_eq_some_iff.mp h
      obtain ⟨r', hr', rfl⟩ := map_eq_some_iff.mp h
      exact (ih hr').trans (removeLast_of_ne hs₁ hk)
    · obtain rfl := some_inj.mp h
      rfl

/-- A removal that succeeds leaves a polynomial on every level that it visits. -/
theorem keeps_of_removeLevels {n : ℕ} {s : ProjectionNO P} {r : List (ℕ × Finset ℕ) × ProjectionNO P}
    (h : ProjectionNO.removeLevels cid n level s = some r) {k : ℕ} (hk : level ≤ k)
    (hlt : k < level + n) (hne : s.polynomials k ≠ []) : ∃ e ∈ s.polynomials k, e.2 ≠ cid := by
  induction n generalizing level s r with
  | zero => omega
  | succ n ih =>
    rw [ProjectionNO.removeLevels] at h
    split_ifs at h with hempty
    · rcases hk.eq_or_lt with rfl | hlt'
      · exact absurd hempty hne
      · exact ih h hlt' (by omega) hne
    · obtain ⟨⟨removed, s₁⟩, hs₁, h⟩ := bind_eq_some_iff.mp h
      rcases hk.eq_or_lt with rfl | hlt'
      · by_contra hnot
        rw [removeLoop_eq_none fun e he => by_contra fun hcid => hnot ⟨e, he, hcid⟩] at hs₁
        exact nomatch hs₁
      · obtain ⟨r', hr', -⟩ := map_eq_some_iff.mp h
        have hsame : s₁.polynomials k = s.polynomials k := removeLoop_of_ne hs₁ hlt'.ne'
        rw [← hsame] at hne ⊢
        exact ih hr' hlt' (by omega) hne

end ProjectionNO

end Smtrat.CAD
