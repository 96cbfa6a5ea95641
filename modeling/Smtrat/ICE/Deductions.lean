import Smtrat.ICE.Hyperedges

/-!
# Conflicts and deductions

A conclusion is drawn from a cycle.  It is right if and only if the signs that made the constraints
on the cycle hyperedges follow from these constraints: the bounds the signs were taken from are not
among the reasons.
-/

/-!
## Sums along cycles

Along a cycle the terms of the vertices cancel, so that the constants sum up to what the terms that
are left out of the cycle are worth at least.
-/

namespace Smtrat.ICE

open SparsePoly PropFormula ForwardHyperGraph CycleEnumerator VB List

universe u v w

/-! ## Walks -/

variable {u : ℕ}

section Walks

variable {P : Type u} {E : Type v} {g : ForwardHyperGraph P E} {src : ℕ}

variable {vertices : List ℕ}

theorem length_of_walk {edges : List (Edge E)}
    (h : Walk g src vertices edges u) : vertices.length = edges.length := by
  induction h with
  | nil => rfl
  | snoc _ _ _ ih => rw [length_append, length_append, ih]; rfl

/-- A walk begins in its source, and each edge leads to the next vertex. -/
theorem steps_of_walk {edges : List (Edge E)}
    (h : Walk g src vertices edges u) : (vertices ++ [u]).take 1 = [src] ∧
      ∀ p ∈ (vertices.zip (vertices ++ [u]).tail).zip edges,
        p.2 ∈ g.out p.1.1 ∧ p.1.2 ∈ p.2.mOut := by
  induction h with
  | nil => exact ⟨rfl, fun p hp => absurd hp not_mem_nil⟩
  | @snoc vertices edges v e u hwalk he hu ih =>
    obtain ⟨hhead, hsteps⟩ := ih
    have hlen := length_of_walk hwalk
    have hne : vertices ++ [v] ≠ [] := concat_ne_nil v vertices
    have htail : (vertices ++ [v] ++ [u]).tail = (vertices ++ [v]).tail ++ [u] :=
      tail_append_of_ne_nil hne
    have hzip : ((vertices ++ [v]).zip (vertices ++ [v] ++ [u]).tail).zip (edges ++ [e])
        = (vertices.zip (vertices ++ [v]).tail).zip edges ++ [((v, u), e)] := by
      rw [htail, zip_append, zip_append]
      · rfl
      · simp [hlen]
      · simp
    refine ⟨?_, ?_⟩
    · rw [take_append_of_le_length (length_pos_iff.mpr hne)]
      exact hhead
    · rw [hzip]
      intro p hp
      rcases mem_append.mp hp with hp | hp
      · exact hsteps p hp
      · rw [mem_singleton.mp hp]
        exact ⟨he, hu⟩

open CycleCollector

/-- The edges of a cycle, each with its vertex and the next one. -/
def steps (cycle : Circuit E) : List ((ℕ × ℕ) × Edge E) :=
  (cycle.vertices.zip (nextVertices cycle.vertices)).zip cycle.edges

theorem nextVertices_perm (vertices : List ℕ) : (nextVertices vertices).Perm vertices := by
  cases vertices with
  | nil => exact List.Perm.refl _
  | cons v vs => exact perm_append_comm

variable {cycle : Circuit E}

theorem length_of_cycle (h : g.IsCycle cycle) : cycle.vertices.length = cycle.edges.length := by
  obtain ⟨src, hwalk, -⟩ := h
  exact length_of_walk hwalk

theorem mem_steps (h : g.IsCycle cycle) :
    ∀ p ∈ steps cycle, p.2 ∈ g.out p.1.1 ∧ p.1.2 ∈ p.2.mOut := by
  obtain ⟨src, hwalk, hne⟩ := h
  obtain ⟨hhead, hsteps⟩ := steps_of_walk hwalk
  have hnext : (cycle.vertices ++ [src]).tail = nextVertices cycle.vertices := by
    rw [take_append_of_le_length (length_pos_iff.mpr hne)] at hhead
    rw [tail_append_of_ne_nil hne, nextVertices, hhead]
  rw [hnext] at hsteps
  exact hsteps

theorem map_steps (h : g.IsCycle cycle) :
    (steps cycle).map (·.1.1) = cycle.vertices ∧
      (steps cycle).map (·.1.2) = nextVertices cycle.vertices ∧
        (steps cycle).map (·.2) = cycle.edges := by
  have hlen := length_of_cycle h
  have hnext := (nextVertices_perm cycle.vertices).length_eq
  have hfst : (steps cycle).map (·.1) = cycle.vertices.zip (nextVertices cycle.vertices) := by
    rw [steps, map_fst_zip]
    rw [length_zip, hnext, min_self, hlen]
  have hmap (f : ℕ × ℕ → ℕ) : (steps cycle).map (fun p => f p.1)
      = (cycle.vertices.zip (nextVertices cycle.vertices)).map f := by
    rw [← hfst, map_map]
    rfl
  refine ⟨?_, ?_, ?_⟩
  · exact (hmap Prod.fst).trans (map_fst_zip hnext.ge)
  · exact (hmap Prod.snd).trans (map_snd_zip hnext.le)
  · rw [steps, map_snd_zip]
    rw [length_zip, hnext, min_self, hlen]

/-- The values of the vertices cancel along a cycle. -/
theorem sum_steps (h : g.IsCycle cycle) (f : ℕ → ℝ) (k : Edge E → ℝ) :
    ((steps cycle).map fun p => f p.1.1 + k p.2 - f p.1.2).sum = (cycle.edges.map k).sum := by
  obtain ⟨hfst, hsnd, hedges⟩ := map_steps h
  have hverts : ((steps cycle).map fun p => f p.1.1).sum = (cycle.vertices.map f).sum := by
    rw [← hfst, map_map]
    rfl
  have hnext : ((steps cycle).map fun p => f p.1.2).sum = (cycle.vertices.map f).sum := by
    rw [← ((nextVertices_perm cycle.vertices).map f).sum_eq, ← hsnd, map_map]
    rfl
  have hconsts : ((steps cycle).map fun p => k p.2).sum = (cycle.edges.map k).sum := by
    rw [← hedges, map_map]
    rfl
  have hsplit : ((steps cycle).map fun p => f p.1.1 + k p.2 - f p.1.2).sum
        + ((steps cycle).map fun p => f p.1.2).sum
      = ((steps cycle).map fun p => f p.1.1).sum + ((steps cycle).map fun p => k p.2).sum := by
    rw [← sum_map_add, ← sum_map_add]
    simp only [sub_add_cancel]
  linarith

end Walks

/-! ## Values along a cycle -/

section Values

open CycleCollector

variable {V : Type u} {F : Type w} [DecidableEq V] {lib : IntervalLibrary}
  {bounds : VariableBounds V F} {constraints : List (F × Constraint V)} {g : FHG V F}
  {cycle : Circuit (EdgeProperty F)}

/-- By how much the term of a vertex and the constant exceed the term of the next vertex. -/
noncomputable def slack (g : FHG V F) (α : V → ℝ) (p : (ℕ × ℕ) × Edge (EdgeProperty F)) : ℝ :=
  (term g p.1.1).eval α + p.2.mProperty.coeff.r - (term g p.1.2).eval α

/-- The heads of an edge that are not the next vertex. -/
def leftOut (p : (ℕ × ℕ) × Edge (EdgeProperty F)) : List ℕ := p.2.mOut.filter (· ≠ p.1.2)

omit [DecidableEq V] in
theorem collectAdjacent_eq (h : g.IsCycle cycle) :
    collectAdjacent cycle = (steps cycle).flatMap leftOut := by
  obtain ⟨-, hnext, hedges⟩ := map_steps h
  rw [collectAdjacent, ← hnext, ← hedges, zip_map', flatMap_map]
  rfl

theorem perm_cons_filter {l : List ℕ} (h : l.Nodup) (hu : u ∈ l) :
    l.Perm (u :: l.filter (· ≠ u)) := by
  have hfilt : l.filter (· ≠ u) = l.erase u := by
    rw [h.erase_eq_filter]
    refine filter_congr fun x _ => ?_
    by_cases hx : x = u
    · simp [hx]
    · simp [hx]
  rw [hfilt]
  exact perm_cons_erase hu

/-- The terms of a constraint that are not ignored are worth the slack of its edge less the heads that
are left out. -/
theorem eval_kept {p : (ℕ × ℕ) × Edge (EdgeProperty F)}
    (h : EdgeOf lib bounds constraints g p.1.1 p.2) (hnext : p.1.2 ∈ p.2.mOut)
    (hnorm : ∀ q ∈ constraints, (q.2.lhs.map (·.monomial)).Nodup) :
    ∃ c lhs, (p.2.mProperty.constraint, c) ∈ constraints ∧
      ICEModule.direction c = some (lhs, p.2.mProperty.coeff.strict) ∧ ∀ α : V → ℝ,
        Poly.eval α (kept lib bounds lhs)
          = slack g α p - ((leftOut p).map fun v => (term g v).eval α).sum := by
  obtain ⟨c, e, hmem, hsuit, hcoeff, hsrc, hdest⟩ := h.exists_hyperedge
  obtain ⟨lhs, hdir, hval⟩ := isSuitable_value hsuit
  refine ⟨c, lhs, hmem, hcoeff ▸ hdir, fun α => ?_⟩
  have hterm {v : ℕ} {t : TermT V} (hv : g.mVertexProperties[v]? = some t) : term g v = t := by
    rw [term, getD_eq_getElem?_getD, hv]
    rfl
  have hheads : p.2.mOut.map (term g) = e.dest := by
    rw [← List.forall₂_eq_eq_eq, List.forall₂_map_left_iff]
    exact hdest.imp fun v d hv => hterm hv
  have hnodup : p.2.mOut.Nodup :=
    List.Nodup.of_map (term g) (hheads ▸ nodup_dest hsuit (hnorm _ hmem))
  have hsum : (e.dest.map (Term.eval α)).sum = (term g p.1.2).eval α
      + ((leftOut p).map fun v => (term g v).eval α).sum := by
    rw [← hheads, map_map, ((perm_cons_filter hnodup hnext).map _).sum_eq]
    rfl
  rw [← hval, Hyperedge.value, hsum, slack, hterm hsrc, hcoeff]
  ring

end Values

open CycleCollector

variable {V : Type u} {B : Type v} {F : Type w} {content : F → Formula (Atom V B)}

/-! ## Truth -/

theorem satisfies_buildFormula {edges : List (Edge (EdgeProperty F))} (a : Assignment V B) :
    a.Satisfies (buildFormula content edges) ↔
      ∀ edge ∈ edges, a.Satisfies (content edge.mProperty.constraint) := by
  rw [buildFormula, satisfies_app_and, forall_mem_map]

theorem satisfies_zeroLemma (t : TermT V) (a : Assignment V B) :
    a.Satisfies (zeroLemma t : Formula (Atom V B)) ↔ t.eval a.arith = 0 := by
  rw [zeroLemma, satisfies_atom]
  simp [Atom.Holds, Constraint.Sat, Relation.evaluate]

theorem satisfies_stepLemma (s t : TermT V) (r : ℚ) (a : Assignment V B) :
    a.Satisfies (stepLemma s t r : Formula (Atom V B)) ↔
      s.eval a.arith + r - t.eval a.arith = 0 := by
  have hval : Poly.eval a.arith (s :: ⟨-t.coeff, t.monomial⟩ :: SparsePoly.Poly.const r)
      = s.eval a.arith + r - t.eval a.arith := by
    simp only [Poly.eval_cons, Poly.eval_const, Term.eval, map_neg, eq_ratCast]
    ring
  rw [stepLemma, satisfies_atom, Atom.Holds, Constraint.Sat, hval]
  rfl

/-! ## Conclusions from a cycle -/

section Conclusions

variable [DecidableEq V] {lib : IntervalLibrary} {bounds : VariableBounds V F}
  {constraints : List (F × Constraint V)} {g : FHG V F} {cycle : Circuit (EdgeProperty F)}

/-- All constraints on the cycle hold. -/
def Common (content : F → Formula (Atom V B)) (cycle : Circuit (EdgeProperty F))
    (a : Assignment V B) : Prop :=
  ∀ edge ∈ cycle.edges, a.Satisfies (content edge.mProperty.constraint)

/-- Where the constraints on the cycle hold, they do so without the terms that were ignored as zero,
and the terms that are left out of the cycle are not negative. -/
structure SignsImplied (content : F → Formula (Atom V B)) (lib : IntervalLibrary)
    (bounds : VariableBounds V F) (g : FHG V F) (cycle : Circuit (EdgeProperty F)) : Prop where
  kept : ∀ a, Common content cycle a → ∀ edge ∈ cycle.edges, ∀ c lhs strict,
    literal (content edge.mProperty.constraint) = some c →
      ICEModule.direction c = some (lhs, strict) →
        if strict then 0 < Poly.eval a.arith (kept lib bounds lhs)
        else 0 ≤ Poly.eval a.arith (kept lib bounds lhs)
  adjacent : ∀ a, Common content cycle a → ∀ v ∈ collectAdjacent cycle, 0 ≤ (term g v).eval a.arith

/-- The graph is that of constraints in normal form. -/
structure GraphOf (content : F → Formula (Atom V B)) (lib : IntervalLibrary)
    (bounds : VariableBounds V F) (constraints : List (F × Constraint V)) (g : FHG V F) : Prop where
  built : Built lib bounds constraints g
  literals : ∀ p ∈ constraints, literal (content p.1) = some p.2
  normal : ∀ p ∈ constraints, (p.2.lhs.map (·.monomial)).Nodup

variable {p : (ℕ × ℕ) × Edge (EdgeProperty F)}

/-- The constraint of an edge of a cycle. -/
theorem GraphOf.exists_kept (h : GraphOf content lib bounds constraints g)
    (hcycle : g.IsCycle cycle) (hp : p ∈ steps cycle) :
    ∃ c lhs, literal (content p.2.mProperty.constraint) = some c ∧
      ICEModule.direction c = some (lhs, p.2.mProperty.coeff.strict) ∧ ∀ α : V → ℝ,
        Poly.eval α (kept lib bounds lhs)
          = slack g α p - ((leftOut p).map fun v => (term g v).eval α).sum := by
  obtain ⟨hedge, hnext⟩ := mem_steps hcycle p hp
  obtain ⟨c, lhs, hmem, hrest⟩ := eval_kept (h.built.edges _ _ hedge) hnext h.normal
  exact ⟨c, lhs, h.literals _ hmem, hrest⟩

omit [DecidableEq V] in
theorem mem_edges_of_mem_steps (hp : p ∈ steps cycle) : p.2 ∈ cycle.edges := (of_mem_zip hp).2

omit [DecidableEq V] in
theorem sum_eq (edges : List (Edge (EdgeProperty F))) (c : Coefficient) :
    edges.foldl (fun sum edge => sum.add edge.mProperty.coeff) c
      = ⟨c.r + (edges.map fun e => e.mProperty.coeff.r).sum,
          c.strict || edges.any fun e => e.mProperty.coeff.strict⟩ := by
  induction edges generalizing c with
  | nil => simp
  | cons e edges ih =>
    rw [foldl_cons, ih]
    simp [Coefficient.add, add_assoc, Bool.or_assoc]

omit [DecidableEq V] in
/-- The slacks along a cycle sum up to its constant. -/
theorem sum_slack (hcycle : g.IsCycle cycle) (α : V → ℝ) :
    ((steps cycle).map (slack g α)).sum = ((sum cycle).r : ℝ) := by
  have hsum := sum_steps hcycle (fun v => (term g v).eval α) fun e => (e.mProperty.coeff.r : ℝ)
  refine hsum.trans ?_
  rw [CycleCollector.sum, sum_eq]
  simp only [Coefficient.zero, zero_add]
  have hcast := map_list_sum (Rat.castHom ℝ) (cycle.edges.map fun e => e.mProperty.coeff.r)
  rw [map_map] at hcast
  exact hcast.symm

/-- With the signs, no slack is negative, and that of a strict constraint is positive. -/
theorem SignsImplied.slack_nonneg (h : GraphOf content lib bounds constraints g)
    (hcycle : g.IsCycle cycle) (hsigns : SignsImplied content lib bounds g cycle)
    {a : Assignment V B} (ha : Common content cycle a) (hp : p ∈ steps cycle) :
    0 ≤ ((leftOut p).map fun v => (term g v).eval a.arith).sum ∧
      if p.2.mProperty.coeff.strict then
        ((leftOut p).map fun v => (term g v).eval a.arith).sum < slack g a.arith p
      else ((leftOut p).map fun v => (term g v).eval a.arith).sum ≤ slack g a.arith p := by
  obtain ⟨c, lhs, hc, hlhs, hval⟩ := h.exists_kept hcycle hp
  have hkept := hsigns.kept a ha p.2 (mem_edges_of_mem_steps hp) c lhs _ hc hlhs
  rw [hval] at hkept
  refine ⟨sum_nonneg fun x hx => ?_, ?_⟩
  · obtain ⟨v, hv, rfl⟩ := mem_map.mp hx
    refine hsigns.adjacent a ha v ?_
    rw [collectAdjacent_eq hcycle]
    exact mem_flatMap.mpr ⟨p, hp, hv⟩
  · split_ifs at hkept ⊢
    · exact sub_pos.mp hkept
    · exact sub_nonneg.mp hkept

/-- With the signs, the constant of the cycle is not negative, and if it is zero, the constraints are
weak and hold with equality. -/
theorem SignsImplied.conclusion (h : GraphOf content lib bounds constraints g)
    (hcycle : g.IsCycle cycle) (hsigns : SignsImplied content lib bounds g cycle)
    {a : Assignment V B} (ha : Common content cycle a) : 0 ≤ (sum cycle).r ∧
      ((sum cycle).r = 0 → (sum cycle).strict = false ∧ ∀ p ∈ steps cycle,
        slack g a.arith p = 0 ∧ ∀ v ∈ leftOut p, (term g v).eval a.arith = 0) := by
  have hsum := sum_slack hcycle a.arith
  have hle (p) (hp : p ∈ steps cycle) :
      ((leftOut p).map fun v => (term g v).eval a.arith).sum ≤ slack g a.arith p := by
    have hslack := (hsigns.slack_nonneg h hcycle ha hp).2
    split_ifs at hslack
    · exact hslack.le
    · exact hslack
  have hnonneg : ∀ x ∈ (steps cycle).map (slack g a.arith), 0 ≤ x := by
    intro x hx
    obtain ⟨p, hp, rfl⟩ := mem_map.mp hx
    exact (hsigns.slack_nonneg h hcycle ha hp).1.trans (hle p hp)
  constructor
  · have hr := sum_nonneg hnonneg
    rw [hsum] at hr
    exact_mod_cast hr
  · intro hzero
    have hslack (p) (hp : p ∈ steps cycle) : slack g a.arith p = 0 := by
      refine all_zero_of_le_zero_le_of_sum_eq_zero hnonneg ?_ (mem_map_of_mem hp)
      rw [hsum, hzero, Rat.cast_zero]
    refine ⟨?_, fun p hp => ⟨hslack p hp, fun v hv => ?_⟩⟩
    · -- a strict constraint would not hold with equality
      rw [CycleCollector.sum, sum_eq]
      simp only [Coefficient.zero, Bool.false_or, any_eq_false]
      intro e he hstr
      rw [← (map_steps hcycle).2.2] at he
      obtain ⟨p, hp, rfl⟩ := mem_map.mp he
      obtain ⟨hheads, hlt⟩ := hsigns.slack_nonneg h hcycle ha hp
      rw [if_pos hstr, hslack p hp] at hlt
      exact absurd hlt (not_lt.mpr hheads)
    · refine all_zero_of_le_zero_le_of_sum_eq_zero (fun x hx => ?_) ?_
        (mem_map_of_mem (f := fun v => (term g v).eval a.arith) hv)
      · obtain ⟨v, hv, rfl⟩ := mem_map.mp hx
        refine hsigns.adjacent a ha v ?_
        rw [collectAdjacent_eq hcycle]
        exact mem_flatMap.mpr ⟨p, hp, hv⟩
      · exact le_antisymm (hslack p hp ▸ hle p hp) (hsigns.slack_nonneg h hcycle ha hp).1

/-- The constraints on the cycle are reported to contradict each other. -/
def isConflict (cycle : Circuit (EdgeProperty F)) : Bool :=
  (sum cycle).r < 0 || ((sum cycle).r = 0 && (sum cycle).strict)

/-- Equations are deduced from the cycle. -/
def isTight (cycle : Circuit (EdgeProperty F)) : Bool := (sum cycle).r = 0 && !(sum cycle).strict

theorem conflict_iff (h : GraphOf content lib bounds constraints g) (hcycle : g.IsCycle cycle)
    (hconf : isConflict cycle) :
    (¬ ∃ a, Common content cycle a) ↔ SignsImplied content lib bounds g cycle := by
  constructor
  · intro hno
    exact ⟨fun a ha => absurd ⟨a, ha⟩ hno, fun a ha => absurd ⟨a, ha⟩ hno⟩
  · rintro hsigns ⟨a, ha⟩
    obtain ⟨hr, hzero⟩ := hsigns.conclusion h hcycle ha
    rw [isConflict, Bool.or_eq_true, Bool.and_eq_true, decide_eq_true_iff, decide_eq_true_iff]
      at hconf
    rcases hconf with hneg | ⟨hr0, hstr⟩
    · exact absurd hneg (not_lt.mpr hr)
    · exact Bool.false_ne_true ((hzero hr0).1.symm.trans hstr)

omit [DecidableEq V] in
/-- The edges of a cycle but the last one. -/
theorem steps_eq_concat (hcycle : g.IsCycle cycle) : ∃ p, steps cycle
    = ((cycle.vertices.zip cycle.vertices.tail).zip cycle.edges) ++ [p] := by
  have hlen := length_of_cycle hcycle
  have hne := hcycle.choose_spec.2
  rw [steps]
  generalize cycle.vertices = vertices at hlen hne
  generalize cycle.edges = edges at hlen
  cases vertices with
  | nil => exact absurd rfl hne
  | cons v vertices =>
    have hconcat (x : ℕ) (w : ℕ) (ws : List ℕ) (es : List (Edge (EdgeProperty F)))
        (hes : (w :: ws).length = es.length) : ∃ p, ((w :: ws).zip (ws ++ [x])).zip es
          = (((w :: ws).zip ws).zip es) ++ [p] := by
      induction ws generalizing w es with
      | nil =>
        obtain ⟨e, rfl⟩ := length_eq_one_iff.mp hes.symm
        exact ⟨((w, x), e), rfl⟩
      | cons w' ws ih =>
        cases es with
        | nil => cases hes
        | cons e es =>
          obtain ⟨p, hp⟩ := ih w' es (Nat.succ.inj hes)
          exact ⟨p, congrArg (((w, w'), e) :: ·) hp⟩
    exact hconcat v v vertices edges hlen

theorem lemmas_iff (h : GraphOf content lib bounds constraints g) (hcycle : g.IsCycle cycle)
    (htight : isTight cycle) :
    (∀ a : Assignment V B, Common content cycle a → ∀ f ∈ lemmas g cycle, a.Satisfies f) ↔
      SignsImplied content lib bounds g cycle := by
  obtain ⟨hr, hweak⟩ := (Bool.and_eq_true _ _).mp htight
  have hr := of_decide_eq_true hr
  have hweak : (sum cycle).strict = false := by simpa using hweak
  obtain ⟨last, hlast⟩ := steps_eq_concat hcycle
  have hlemmas (a : Assignment V B) : (∀ f ∈ lemmas g cycle, a.Satisfies f) ↔
      (∀ v ∈ collectAdjacent cycle, (term g v).eval a.arith = 0) ∧
        ∀ p ∈ (cycle.vertices.zip cycle.vertices.tail).zip cycle.edges, slack g a.arith p = 0 := by
    rw [lemmas, forall_mem_append, forall_mem_map, forall_mem_map]
    simp only [satisfies_zeroLemma, satisfies_stepLemma]
    rfl
  constructor
  · intro hall
    -- all slacks are zero: those of the deduced equations, and so the last one
    have hslack (a : Assignment V B) (ha : Common content cycle a) (p) (hp : p ∈ steps cycle) :
        slack g a.arith p = 0 := by
      obtain ⟨-, hsteps⟩ := (hlemmas a).mp (hall a ha)
      rw [hlast] at hp
      rcases mem_append.mp hp with hp | hp
      · exact hsteps p hp
      · rw [mem_singleton.mp hp]
        have hsum := sum_slack hcycle a.arith
        rw [hlast, map_append, sum_append, hr, Rat.cast_zero,
          sum_eq_zero (fun x hx => ?_), zero_add] at hsum
        · simpa using hsum
        · obtain ⟨q, hq, rfl⟩ := mem_map.mp hx
          exact hsteps q hq
    have hadjacent (a : Assignment V B) (ha : Common content cycle a) (v)
        (hv : v ∈ collectAdjacent cycle) : (term g v).eval a.arith = 0 :=
      ((hlemmas a).mp (hall a ha)).1 v hv
    refine ⟨fun a ha edge hedge c lhs strict hc hlhs => ?_, fun a ha v hv => (hadjacent a ha v hv).ge⟩
    rw [← (map_steps hcycle).2.2] at hedge
    obtain ⟨p, hp, rfl⟩ := mem_map.mp hedge
    obtain ⟨c', lhs', hc', hlhs', hval⟩ := h.exists_kept hcycle hp
    obtain rfl := Option.some.inj (hc'.symm.trans hc)
    obtain ⟨rfl, rfl⟩ := Prod.mk.inj (Option.some.inj (hlhs'.symm.trans hlhs))
    have hstr : p.2.mProperty.coeff.strict = false := by
      rw [CycleCollector.sum, sum_eq] at hweak
      simp only [Coefficient.zero, Bool.false_or, any_eq_false] at hweak
      exact Bool.eq_false_iff.mpr (hweak p.2 (mem_edges_of_mem_steps hp))
    rw [hstr, if_neg Bool.false_ne_true, hval, hslack a ha p hp,
      sum_eq_zero fun x hx => ?_, sub_zero]
    obtain ⟨v, hv, rfl⟩ := mem_map.mp hx
    refine hadjacent a ha v ?_
    rw [collectAdjacent_eq hcycle]
    exact mem_flatMap.mpr ⟨p, hp, hv⟩
  · intro hsigns a ha
    obtain ⟨-, hzero⟩ := hsigns.conclusion h hcycle ha
    obtain ⟨-, hsteps⟩ := hzero hr
    refine (hlemmas a).mpr ⟨fun v hv => ?_, fun p hp => (hsteps p ?_).1⟩
    · rw [collectAdjacent_eq hcycle] at hv
      obtain ⟨p, hp, hv⟩ := mem_flatMap.mp hv
      exact (hsteps p hp).2 v hv
    · rw [hlast]
      exact mem_append_left _ hp

end Conclusions

end Smtrat.ICE
