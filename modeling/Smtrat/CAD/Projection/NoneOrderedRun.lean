import Smtrat.CAD.Projection.NoneOrderedRemove

/-!
# Runs of the ordered projection

For every part of the constraints that are older than the others, the polynomials that stem from it are
those that are reachable from it.  So removing the last constraint leaves what the others demand.
-/

namespace Smtrat.CAD

universe u

open Saturation List Option

namespace ProjectionNO

variable {P : Type u} (op : ProjectionOperator P) {dim : ℕ}

/-- The polynomials that stem from the given constraints. -/
def stemming (s : ProjectionNO P) (constraints : List (ℕ × P)) (level : ℕ) : Set P :=
  {p | ∃ o, (p, o) ∈ s.polynomials level ∧ o ∈ constraints.map (·.1)}

structure Inv (dim : ℕ) (t : Tracked (ProjectionNO P) P) : Prop where
  wellFormed : t.projection.WellFormed
  sorted : ∀ level, (t.projection.polynomials level).Pairwise fun e e' => e'.2 ≤ e.2
  increasing : t.constraints.Pairwise fun c c' => c'.1 < c.1
  origins : ∀ level, ∀ e ∈ t.projection.polynomials level, e.2 ∈ t.constraints.map (·.1)
  stemming : ∀ older, older <:+ t.constraints → ∀ level, t.projection.stemming older level
    = {p | Reach (op.forwarding dim) (polynomialsOf older) level p}

variable {op} {t t' : Tracked (ProjectionNO P) P}

theorem inv_init : Inv op dim ⟨[], init⟩ where
  wellFormed := wellFormed_init
  sorted _ := List.Pairwise.nil
  increasing := List.Pairwise.nil
  origins _ _ he := absurd he not_mem_nil
  stemming older holder level := by
    obtain rfl := suffix_nil.mp holder
    ext p
    refine iff_of_false (fun ⟨_, h, _⟩ => not_mem_nil h) ?_
    rw [Set.mem_ofPred_eq, polynomialsOf_nil]
    exact not_reach_empty

theorem Inv.levels (h : Inv op dim t) : t.projection.levels
    = fun level => {p | Reach (op.forwarding dim) (polynomialsOf t.constraints) level p} := by
  funext level
  rw [← h.stemming t.constraints suffix_rfl level]
  ext p
  exact ⟨fun ⟨o, ho⟩ => ⟨o, ho, h.origins level _ ho⟩, fun ⟨o, ho, _⟩ => ⟨o, ho⟩⟩

theorem Inv.latest (h : Inv op dim t) {cid : ℕ} (hcid : ∀ c ∈ t.constraints, c.1 ≤ cid) :
    t.projection.Latest cid := by
  intro level e he
  obtain ⟨c, hc, hce⟩ := List.mem_map.mp (h.origins level e he)
  rw [← hce]
  exact hcid c hc

/-! ## The polynomials by their ids -/

theorem exists_polynomialById {s : ProjectionNO P} {level : ℕ} {p : P} :
    (∃ id, s.polynomialById level id = some p) ↔ p ∈ s.levels level := by
  constructor
  · rintro ⟨id, hid⟩
    obtain ⟨e, he, rfl⟩ := map_eq_some_iff.mp hid
    exact ⟨e.2, mem_reverse.mp (mem_of_getElem? he)⟩
  · rintro ⟨o, ho⟩
    obtain ⟨id, hid⟩ := mem_iff_getElem?.mp (mem_reverse.mpr ho)
    exact ⟨id, by rw [polynomialById, hid, map_some]⟩

theorem Inv.exact (h : Inv op dim t) :
    Exact (op.forwarding dim) t.constraints t.projection.polynomialById := by
  intro level p
  rw [exists_polynomialById, h.levels]
  rfl

theorem removed_of_append {s s' : ProjectionNO P} {calls : List (ℕ × Finset ℕ)}
    (hfront : ∀ level, ∃ front, s.polynomials level = front ++ s'.polynomials level)
    (hcalls : ∀ call, call ∈ calls ↔ s.polynomials call.1 ≠ [] ∧
      call.2 = droppedIds (s.polynomials call.1) (s'.polynomials call.1)) :
    Removed s.polynomialById s'.polynomialById calls where
  calls level id := by
    have hafter : s'.polynomialById level id = none ↔ (s'.polynomials level).length ≤ id := by
      rw [polynomialById, map_eq_none_iff, List.getElem?_eq_none_iff, length_reverse]
    have hbef : (s.polynomialById level id).isSome ↔ id < (s.polynomials level).length := by
      rw [polynomialById, isSome_map, isSome_iff_ne_none, ne_eq,
        List.getElem?_eq_none_iff, not_le, length_reverse]
    rw [hbef, hafter]
    constructor
    · rintro ⟨removed, hmem, hid⟩
      have hids : removed = droppedIds (s.polynomials level) (s'.polynomials level) :=
        ((hcalls _).mp hmem).2
      rw [hids, droppedIds, Finset.mem_Ico] at hid
      exact hid.symm
    · rintro ⟨hlt, hle⟩
      refine ⟨_, (hcalls (level, _)).mpr ⟨?_, rfl⟩, Finset.mem_Ico.mpr ⟨hle, hlt⟩⟩
      rintro hnil
      rw [hnil] at hlt
      exact absurd hlt (Nat.not_lt_zero _)
  kept level id p hid := by
    obtain ⟨front, hfront⟩ := hfront level
    obtain ⟨e, he, rfl⟩ := map_eq_some_iff.mp hid
    have hlt := (List.getElem?_eq_some_iff.mp he).1
    rw [polynomialById, hfront, reverse_append, getElem?_append_left hlt, he, map_some]

/-! ## Steps -/

variable [LinearOrder P]

theorem Inv.addPolynomial (h : Inv op dim t) (hdim : 0 < dim) {cid : ℕ} (p : P)
    (hcid : ∀ c ∈ t.constraints, c.1 < cid) :
    Inv op dim ⟨(cid, p) :: t.constraints,
      (ProjectionNO.addPolynomial op dim p cid t.projection).2⟩ := by
  obtain ⟨hadded, hgrown⟩ := addToProjection_spec op (p := p)
    (show dim - 1 + 1 = dim by omega) h.wellFormed (h.latest fun c hc => (hcid c hc).le)
  rw [h.levels] at hadded
  have hlevs := hadded.reach
  rw [← polynomialsOf_cons cid] at hlevs
  have hnot : cid ∉ t.constraints.map (·.1) := by
    intro hmem
    obtain ⟨c, hc, hce⟩ := List.mem_map.mp hmem
    exact absurd hce (hcid c hc).ne
  have horigs : ∀ level, ∀ e ∈ (ProjectionNO.addPolynomial op dim p cid t.projection).2.polynomials
      level, e.2 ∈ ((cid, p) :: t.constraints).map (·.1) := by
    intro level e he
    obtain ⟨new, hnew, horig⟩ := hgrown.suffix level
    rw [ProjectionNO.addPolynomial, hnew] at he
    rcases mem_append.mp he with he | he
    · rw [horig e he]
      exact mem_cons_self
    · exact mem_cons_of_mem _ (h.origins level e he)
  exact
    { wellFormed := hgrown.wellFormed h.wellFormed
      sorted := by
        intro level
        obtain ⟨new, hnew, horig⟩ := hgrown.suffix level
        show ((addToProjection op (dim - 1) 1 p cid t.projection).2.polynomials level).Pairwise _
        rw [hnew, pairwise_append]
        refine ⟨List.Pairwise.imp_of_mem (fun {d e} hd he _ => ?_) (pairwise_of_forall_mem_list
          fun _ _ _ _ => trivial), h.sorted level, ?_⟩
        · rw [horig d hd, horig e he]
        · intro d hd e he
          rw [horig d hd]
          exact h.latest (fun c hc => (hcid c hc).le) level e he
      increasing := pairwise_cons.mpr ⟨hcid, h.increasing⟩
      origins := horigs
      stemming := by
        intro older holder level
        rcases suffix_cons_iff.mp holder with rfl | holder
        · rw [← congrFun hlevs level]
          ext q
          exact ⟨fun ⟨o, ho, _⟩ => ⟨o, ho⟩, fun ⟨o, ho⟩ => ⟨o, ho, horigs level _ ho⟩⟩
        · rw [← h.stemming older holder level]
          obtain ⟨new, hnew, horig⟩ := hgrown.suffix level
          ext q
          constructor
          · rintro ⟨o, ho, holder'⟩
            rw [ProjectionNO.addPolynomial, hnew] at ho
            rcases mem_append.mp ho with ho | ho
            · -- what is new does not stem from an older constraint
              rw [show o = cid from horig _ ho] at holder'
              exact absurd ((holder.map (·.1)).subset holder') hnot
            · exact ⟨o, ho, holder'⟩
          · rintro ⟨o, ho, holder'⟩
            refine ⟨o, ?_, holder'⟩
            rw [ProjectionNO.addPolynomial, hnew]
            exact mem_append_right _ ho }

variable {cid : ℕ} {p : P}

/-- The last constraint is removed, and the polynomials of the others stay. -/
theorem Inv.removePolynomial (h : Inv op dim t) (hdim : 0 < dim)
    (hhead : t.constraints.head? = some (cid, p)) (hkeeps : KeepsLevels cid t.projection) :
    ∃ calls s', ProjectionNO.removePolynomial dim cid t.projection = some (calls, s') ∧
      Inv op dim ⟨t.constraints.tail, s'⟩ ∧
      (∀ level, s'.polynomials level = (t.projection.polynomials level).filter (·.2 ≠ cid)) ∧
      ∀ call, call ∈ calls ↔ t.projection.polynomials call.1 ≠ [] ∧
        call.2 = droppedIds (t.projection.polynomials call.1) (s'.polynomials call.1) := by
  obtain ⟨constraints, s⟩ := t
  cases constraints with
  | nil => exact nomatch hhead
  | cons c constraints =>
    obtain rfl : c = (cid, p) := some_inj.mp hhead
    obtain ⟨hlt, hincr⟩ := pairwise_cons.mp h.increasing
    have hlatest : s.Latest cid := h.latest fun c hc => by
      rcases mem_cons.mp hc with rfl | hc
      · exact le_rfl
      · exact (hlt c hc).le
    obtain ⟨calls, s', hs', hwf, hpolys, hcalls⟩ :=
      h.wellFormed.removeLevels 1 dim h.sorted hlatest hkeeps
    -- there is nothing on other levels
    have hother (level : ℕ) (hlev : ¬ (1 ≤ level ∧ level < 1 + dim)) :
        s.polynomials level = [] := by
      refine eq_nil_iff_forall_not_mem.mpr fun e he => hlev ?_
      have hreach : e.1 ∈ s.levels level := ⟨e.2, he⟩
      rw [h.levels] at hreach
      have := hreach.one_le
      have := ProjectionOperator.reach_le_dim hdim hreach
      omega
    have hfilt (level : ℕ) : s'.polynomials level = (s.polynomials level).filter (·.2 ≠ cid) := by
      rw [hpolys]
      by_cases hlev : 1 ≤ level ∧ level < 1 + dim
      · rw [if_pos hlev]
      · rw [if_neg hlev, hother level hlev, filter_nil]
    have hmem (level : ℕ) (e : P × ℕ) :
        e ∈ s'.polynomials level ↔ e ∈ s.polynomials level ∧ e.2 ≠ cid := by
      rw [hfilt, mem_filter, decide_eq_true_iff]
    refine ⟨calls, s', hs', ?_, hfilt, fun call => ?_⟩
    · exact
        { wellFormed := hwf
          sorted := by
            intro level
            show (s'.polynomials level).Pairwise _
            rw [hfilt]
            exact (h.sorted level).sublist filter_sublist
          increasing := hincr
          origins := by
            intro level e he
            obtain ⟨he, hne⟩ := (hmem level e).mp he
            exact (mem_cons.mp (h.origins level e he)).resolve_left hne
          stemming := by
            intro older holder level
            rw [← h.stemming older (holder.trans (suffix_cons _ _)) level]
            ext q
            constructor
            · rintro ⟨o, ho, holder'⟩
              exact ⟨o, ((hmem level _).mp ho).1, holder'⟩
            · rintro ⟨o, ho, holder'⟩
              refine ⟨o, (hmem level _).mpr ⟨ho, ?_⟩, holder'⟩
              rintro rfl
              obtain ⟨c, hc, hce⟩ := List.mem_map.mp holder'
              exact absurd hce (hlt c (holder.subset hc)).ne }
    · rw [hcalls, hfilt]
      refine and_congr_left fun _ => ⟨fun hlev => hlev.2.2, fun hne => ?_⟩
      by_contra hlev
      exact hlev ⟨(by_contra fun hnot => hne (hother _ fun h => hnot h.1)),
        (by_contra fun hnot => hne (hother _ fun h => hnot h.2)), hne⟩

variable (op) (dim)

/-- The last constraint is removed first, and new constraints get larger ids. -/
def step (t : Tracked (ProjectionNO P) P) : ProjectionEvent P → Option (Tracked (ProjectionNO P) P)
  | .addPolynomial p cid _ =>
    if ∀ c ∈ t.constraints, c.1 < cid then
      some ⟨(cid, p) :: t.constraints, (addPolynomial op dim p cid t.projection).2⟩
    else none
  | .removePolynomial p cid =>
    if t.constraints.head? = some (cid, p) then
      (removePolynomial dim cid t.projection).map fun r => ⟨t.constraints.tail, r.2⟩
    else none
  | .projectNewPolynomial => some t

/-- A removal leaves a polynomial on every level that has some. -/
def Keeps (t : Tracked (ProjectionNO P) P) : ProjectionEvent P → Prop
  | .removePolynomial _ cid => KeepsLevels cid t.projection
  | _ => True

variable {op} {dim}

theorem Inv.step (hdim : 0 < dim) (h : Inv op dim t) {e : ProjectionEvent P} (hkeeps : Keeps t e)
    (hstep : step op dim t e = some t') : Inv op dim t' := by
  cases e with
  | addPolynomial p cid _ =>
    rw [ProjectionNO.step] at hstep
    split_ifs at hstep with hcid
    obtain rfl := some_inj.mp hstep
    exact h.addPolynomial hdim p hcid
  | removePolynomial p cid =>
    rw [ProjectionNO.step] at hstep
    split_ifs at hstep with hhead
    obtain ⟨calls, s', hs', hinv, -⟩ := h.removePolynomial hdim hhead hkeeps
    rw [hs'] at hstep
    obtain rfl := some_inj.mp hstep
    exact hinv
  | projectNewPolynomial =>
    obtain rfl := some_inj.mp hstep
    exact h

end ProjectionNO

end Smtrat.CAD
