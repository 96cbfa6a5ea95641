import Smtrat.ICE.ICEModule

/-!
# What the hyperedges say

A hyperedge says what its constraint says, apart from the terms that were ignored because they are
zero.  The graph has only hyperedges of received constraints.
-/

namespace Smtrat.ICE

open SparsePoly PropFormula ForwardHyperGraph CycleEnumerator VB List Function Option

universe u v w

/-! ## The graph -/

section Graph

variable {P : Type u} {E : Type v} [DecidableEq P]

/-- Vertices and their properties belong together. -/
structure WellFormed (g : ForwardHyperGraph P E) : Prop where
  length : g.mEdges.length = g.mVertexProperties.length
  map : ∀ vp v, g.mVertexMap vp = some v → g.mVertexProperties[v]? = some vp

omit [DecidableEq P] in
theorem empty_wellFormed : WellFormed (empty : ForwardHyperGraph P E) := ⟨rfl, nofun⟩

/-- New vertices come behind the old ones and have no edges. -/
structure Grows (g g' : ForwardHyperGraph P E) : Prop where
  wellFormed : WellFormed g'
  isPrefix : g.mVertexProperties <+: g'.mVertexProperties
  out : ∀ v, g'.out v = g.out v

omit [DecidableEq P] in
theorem Grows.trans {g₁ g₂ g₃ : ForwardHyperGraph P E} (h : Grows g₁ g₂) (h' : Grows g₂ g₃) :
    Grows g₁ g₃ :=
  ⟨h'.wellFormed, h.isPrefix.trans h'.isPrefix, fun v => (h'.out v).trans (h.out v)⟩

theorem getElem?_of_isPrefix {α : Type*} {l l' : List α} (h : l <+: l') {n : ℕ} {a : α}
    (ha : l[n]? = some a) : l'[n]? = some a := by
  obtain ⟨t, rfl⟩ := h
  rw [getElem?_append_left (List.getElem?_eq_some_iff.mp ha).1]
  exact ha

theorem getD_concat_nil {α : Type*} (l : List (List α)) (n : ℕ) :
    (l ++ [[]]).getD n [] = l.getD n [] := by
  rw [getD_eq_getElem?_getD, getD_eq_getElem?_getD, getElem?_append]
  split_ifs with hn
  · rfl
  · rw [getElem?_eq_none (not_lt.mp hn)]
    cases n - l.length with
    | zero => rfl
    | succ k => rfl

theorem grows_newVertex {g : ForwardHyperGraph P E} (h : WellFormed g) (vp : P) :
    Grows g (newVertex vp g).2 ∧
      (newVertex vp g).2.mVertexProperties[(newVertex vp g).1]? = some vp := by
  rw [newVertex]
  cases hmap : g.mVertexMap vp with
  | some v => exact ⟨⟨h, prefix_rfl, fun _ => rfl⟩, h.map vp v hmap⟩
  | none =>
    have hlast : (g.mVertexProperties ++ [vp])[g.mEdges.length]? = some vp := by
      rw [h.length]
      exact getElem?_concat_length
    refine ⟨⟨⟨?_, fun vq v hv => ?_⟩, prefix_append _ _, fun v => ?_⟩, hlast⟩
    · dsimp only
      rw [length_append, length_append, h.length]
      rfl
    · dsimp only at hv ⊢
      by_cases hvq : vq = vp
      · rw [hvq, update_self] at hv
        rw [← some.inj hv, hvq]
        exact hlast
      · rw [update_of_ne hvq] at hv
        exact getElem?_of_isPrefix (prefix_append _ _) (h.map vq v hv)
    · exact getD_concat_nil g.mEdges v

/-- The vertices have the properties they are made for. -/
theorem grows_newVertices {g : ForwardHyperGraph P E} (h : WellFormed g) (vps : List P) :
    Grows g (newVertices vps g).2 ∧ List.Forall₂
      (fun v vp => (newVertices vps g).2.mVertexProperties[v]? = some vp) (newVertices vps g).1 vps := by
  induction vps generalizing g with
  | nil => exact ⟨⟨h, prefix_rfl, fun _ => rfl⟩, .nil⟩
  | cons vp vps ih =>
    obtain ⟨hgrows, hvtx⟩ := grows_newVertex h vp
    obtain ⟨hrest, hverts⟩ := ih hgrows.wellFormed
    exact ⟨hgrows.trans hrest, .cons (getElem?_of_isPrefix hrest.isPrefix hvtx) hverts⟩

omit [DecidableEq P] in
theorem mem_out_newEdge {g : ForwardHyperGraph P E} {source v : ℕ} {e e' : Edge E}
    (h : e' ∈ (g.newEdge source e).out v) : e' ∈ g.out v ∨ (v = source ∧ e' = e) := by
  rw [out, newEdge, getD_eq_getElem?_getD, getElem?_modify] at h
  rw [out, getD_eq_getElem?_getD]
  cases hv : g.mEdges[v]? with
  | none =>
    rw [hv] at h
    exact absurd h not_mem_nil
  | some es =>
    rw [hv] at h
    have h : e' ∈ if source = v then es ++ [e] else es := h
    by_cases hsource : source = v
    · rw [if_pos hsource] at h
      rcases mem_append.mp h with h | h
      · exact .inl h
      · exact .inr ⟨hsource.symm, mem_singleton.mp h⟩
    · rw [if_neg hsource] at h
      exact .inl h

end Graph

/-! ## Constraints -/

section Constraints

variable {V : Type u} {F : Type w} [DecidableEq V] (lib : IntervalLibrary)
  (bounds : VariableBounds V F)

/-- The terms that are not ignored. -/
def kept (p : Poly V ℚ) : Poly V ℚ :=
  p.filter fun t => t.monomial = [] || !ICEModule.isZero lib bounds t

/-- What a hyperedge says is not negative. -/
noncomputable def Hyperedge.value (α : V → ℝ) (e : Hyperedge V) : ℝ :=
  e.src.eval α + e.coeff.r - (e.dest.map (Term.eval α)).sum

variable {lib bounds}

theorem addTerms_value {p : Poly V ℚ} {e e' : Hyperedge V} (α : V → ℝ)
    (h : ICEModule.addTerms lib bounds p e = some e') :
    e'.value α = e.value α + Poly.eval α (kept lib bounds p) ∧ e'.coeff.strict = e.coeff.strict := by
  induction p generalizing e with
  | nil =>
    obtain rfl := some.inj h
    simp [kept]
  | cons t rest ih =>
    rw [ICEModule.addTerms] at h
    rw [kept, filter_cons]
    split_ifs at h with hconst hzero hpos hsrc hneg
    · obtain ⟨hval, hstr⟩ := ih h
      rw [if_pos (by simp [hconst]), Poly.eval_cons, hval, hstr, Term.eval, hconst]
      refine ⟨?_, rfl⟩
      simp only [Hyperedge.value, monomialEval_nil, mul_one, kept]
      push_cast
      simp only [eq_ratCast]
      ring
    · rw [if_neg (by simp [hconst, hzero])]
      exact ih h
    · obtain ⟨hval, hstr⟩ := ih h
      rw [if_pos (by simp [hzero]), Poly.eval_cons, hval, hstr]
      refine ⟨?_, rfl⟩
      have hsrc : e.src.eval α = 0 := by
        rw [Term.eval, not_not.mp hsrc, map_zero, zero_mul]
      simp only [Hyperedge.value, hsrc, kept]
      ring
    · obtain ⟨hval, hstr⟩ := ih h
      rw [if_pos (by simp [hzero]), Poly.eval_cons, hval, hstr]
      refine ⟨?_, rfl⟩
      simp only [Hyperedge.value, map_append, sum_append, map_singleton,
        sum_singleton, kept, Term.eval, map_neg]
      ring

/-- The destinations have the monomials of different terms. -/
theorem addTerms_dest {p : Poly V ℚ} {e e' : Hyperedge V}
    (h : ICEModule.addTerms lib bounds p e = some e') :
    ∃ ts, e'.dest = e.dest ++ ts ∧ (ts.map (·.monomial)).Sublist (p.map (·.monomial)) := by
  induction p generalizing e with
  | nil =>
    obtain rfl := some.inj h
    exact ⟨[], (append_nil _).symm, List.Sublist.refl _⟩
  | cons t rest ih =>
    rw [ICEModule.addTerms] at h
    split_ifs at h
    · obtain ⟨ts, hts, hsub⟩ := ih h
      exact ⟨ts, hts, hsub.cons _⟩
    · obtain ⟨ts, hts, hsub⟩ := ih h
      exact ⟨ts, hts, hsub.cons _⟩
    · obtain ⟨ts, hts, hsub⟩ := ih h
      exact ⟨ts, hts, hsub.cons _⟩
    · obtain ⟨ts, hts, hsub⟩ := ih h
      exact ⟨⟨-t.coeff, t.monomial⟩ :: ts, hts.trans (append_assoc _ _ _), hsub.cons_cons _⟩

theorem isSuitable_value {c : Constraint V} {e : Hyperedge V}
    (h : ICEModule.isSuitable lib bounds c = some e) : ∃ p, ICEModule.direction c
        = some (p, e.coeff.strict) ∧ ∀ α : V → ℝ, e.value α = Poly.eval α (kept lib bounds p) := by
  obtain ⟨⟨p, strict⟩, hp, h⟩ := bind_eq_some_iff.mp h
  obtain ⟨e', he, h⟩ := bind_eq_some_iff.mp h
  split_ifs at h
  obtain rfl := some.inj h
  have hstr := (addTerms_value 0 he).2
  refine ⟨p, hp.trans (by rw [hstr]), fun α => ?_⟩
  rw [(addTerms_value α he).1]
  simp [Hyperedge.value, Term.eval]

theorem nodup_dest {c : Constraint V} {e : Hyperedge V}
    (h : ICEModule.isSuitable lib bounds c = some e) (hc : (c.lhs.map (·.monomial)).Nodup) :
    e.dest.Nodup := by
  obtain ⟨⟨p, strict⟩, hp, h⟩ := bind_eq_some_iff.mp h
  obtain ⟨e', he, h⟩ := bind_eq_some_iff.mp h
  split_ifs at h
  obtain rfl := some.inj h
  obtain ⟨ts, hts, hsub⟩ := addTerms_dest he
  have hmonomials : p.map (·.monomial) = c.lhs.map (·.monomial) := by
    have hneg : (Poly.neg c.lhs).map (·.monomial) = c.lhs.map (·.monomial) := by
      rw [Poly.neg, List.map_map]
      rfl
    rw [ICEModule.direction] at hp
    split at hp
    · rw [← (Prod.mk.inj (some.inj hp)).1]
    · cases hp
    · rw [← (Prod.mk.inj (some.inj hp)).1, hneg]
    · rw [← (Prod.mk.inj (some.inj hp)).1, hneg]
    · rw [← (Prod.mk.inj (some.inj hp)).1]
    · rw [← (Prod.mk.inj (some.inj hp)).1]
  rw [hts, nil_append]
  exact List.Nodup.of_map _ ((hmonomials ▸ hc).sublist hsub)

end Constraints

/-! ## The hyperedges of the graph -/

section Edges

variable {V : Type u} {F : Type w} [DecidableEq V] {lib : IntervalLibrary}
  {bounds : VariableBounds V F}

/-- The edge is that of a constraint. -/
structure EdgeOf (lib : IntervalLibrary) (bounds : VariableBounds V F)
    (constraints : List (F × Constraint V)) (g : FHG V F) (v : ℕ) (edge : Edge (EdgeProperty F)) :
    Prop where
  exists_hyperedge : ∃ c e, (edge.mProperty.constraint, c) ∈ constraints ∧
    ICEModule.isSuitable lib bounds c = some e ∧ edge.mProperty.coeff = e.coeff ∧
    g.mVertexProperties[v]? = some e.src ∧
    List.Forall₂ (fun u d => g.mVertexProperties[u]? = some d) edge.mOut e.dest

theorem EdgeOf.grows {constraints constraints' : List (F × Constraint V)} {g g' : FHG V F} {v : ℕ}
    {edge : Edge (EdgeProperty F)} (h : EdgeOf lib bounds constraints g v edge)
    (hg : g.mVertexProperties <+: g'.mVertexProperties)
    (hsub : ∀ p ∈ constraints, p ∈ constraints') : EdgeOf lib bounds constraints' g' v edge := by
  obtain ⟨c, e, hmem, hsuit, hcoeff, hsrc, hdest⟩ := h.exists_hyperedge
  exact ⟨c, e, hsub _ hmem, hsuit, hcoeff, getElem?_of_isPrefix hg hsrc,
    hdest.imp fun u d hu => getElem?_of_isPrefix hg hu⟩

/-- All edges are those of constraints. -/
structure Built (lib : IntervalLibrary) (bounds : VariableBounds V F)
    (constraints : List (F × Constraint V)) (g : FHG V F) : Prop where
  wellFormed : WellFormed g
  edges : ∀ v, ∀ edge ∈ g.out v, EdgeOf lib bounds constraints g v edge

theorem Built.addEdge {constraints : List (F × Constraint V)} {g : FHG V F}
    (h : Built lib bounds constraints g) {f : F} {c : Constraint V} {e : Hyperedge V}
    (he : ICEModule.isSuitable lib bounds c = some e) :
    Built lib bounds (constraints ++ [(f, c)]) (ICEModule.addEdge f e g) := by
  obtain ⟨hgrows, hsource⟩ := grows_newVertex h.wellFormed e.src
  obtain ⟨hheads, hdest⟩ := grows_newVertices hgrows.wellFormed e.dest
  have hall := hgrows.trans hheads
  refine ⟨⟨?_, hall.wellFormed.map⟩, fun v edge hedge => ?_⟩
  · exact (length_modify _ _ _).trans hall.wellFormed.length
  · rcases mem_out_newEdge hedge with hedge | ⟨rfl, rfl⟩
    · have hedge : edge ∈ g.out v := hall.out v ▸ hedge
      exact (h.edges v edge hedge).grows hall.isPrefix fun p => mem_append_left _
    · exact ⟨c, e, mem_append_right _ (mem_singleton_self _), he, rfl,
        getElem?_of_isPrefix hheads.isPrefix hsource, hdest⟩

theorem built_buildGraph (constraints : List (F × Constraint V)) :
    Built lib bounds constraints (ICEModule.buildGraph lib bounds constraints) := by
  have hfold (op : FHG V F → F × Constraint V → FHG V F)
      (hop : ∀ done g p, Built lib bounds done g → Built lib bounds (done ++ [p]) (op g p))
      (rest done : List (F × Constraint V)) (g : FHG V F) (h : Built lib bounds done g) :
      Built lib bounds (done ++ rest) (rest.foldl op g) := by
    induction rest generalizing done g with
    | nil => rwa [append_nil]
    | cons p rest ih =>
      rw [foldl_cons, append_cons]
      exact ih _ _ (hop done g p h)
  refine hfold _ (fun done g p h => ?_) constraints [] .empty
    ⟨empty_wellFormed, fun v edge hedge => absurd hedge not_mem_nil⟩
  cases he : ICEModule.isSuitable lib bounds p.2 with
  | some e => exact h.addEdge he
  | none => exact ⟨h.wellFormed, fun v edge hedge =>
    (h.edges v edge hedge).grows prefix_rfl fun q => mem_append_left _⟩

end Edges

end Smtrat.ICE
