import Smtrat.ICE.ForwardHyperGraph

/-!
# What the search reports

The stacks of the search are a walk of the graph, so that the collector gets closed walks only, and
it gets nothing after it has asked to stop.  The search does not depend on what the collector does
with a cycle, apart from that.
-/

namespace Smtrat.ICE

open ForwardHyperGraph List Option

universe u v w x

namespace CycleEnumerator

variable {P : Type u} {E : Type v} {C : Type w} {g : ForwardHyperGraph P E}
  {collect : C → Circuit E → Bool × C} {src : ℕ}

/-- The blocking of vertices aside, two searches are at the same place. -/
structure SamePlace (s s' : CycleEnumerator E C) : Prop where
  vertexStack : s'.mVertexStack = s.mVertexStack
  edgeStack : s'.mEdgeStack = s.mEdgeStack
  collector : s'.mCollector = s.mCollector
  aborted : s'.mAborted = s.mAborted

theorem SamePlace.refl (s : CycleEnumerator E C) : SamePlace s s := ⟨rfl, rfl, rfl, rfl⟩

variable {s : CycleEnumerator E C}

theorem SamePlace.trans {t r : CycleEnumerator E C} (h : SamePlace s t) (h' : SamePlace t r) :
    SamePlace s r :=
  ⟨h'.vertexStack.trans h.vertexStack, h'.edgeStack.trans h.edgeStack,
    h'.collector.trans h.collector, h'.aborted.trans h.aborted⟩

variable {s' : CycleEnumerator E C}

theorem samePlace_foldlM {f : CycleEnumerator E C → ℕ → Option (CycleEnumerator E C)}
    (hf : ∀ s u s', f s u = some s' → SamePlace s s') {us : List ℕ}
    (h : us.foldlM f s = some s') : SamePlace s s' := by
  induction us generalizing s with
  | nil => exact some.inj h ▸ .refl s
  | cons u us ih =>
    obtain ⟨t, ht, h⟩ := bind_eq_some_iff.mp h
    exact (hf s u t ht).trans (ih h)

variable {v fuel : ℕ}

theorem samePlace_unblock (h : unblock fuel v s = some s') : SamePlace s s' := by
  induction fuel generalizing v s s' with
  | zero => cases h
  | succ fuel ih =>
    rw [unblock] at h
    split_ifs at h
    · obtain ⟨t, ht, rfl⟩ := map_eq_some_iff.mp h
      have hfold := samePlace_foldlM (fun s u s' h => ih h) ht
      exact ⟨hfold.vertexStack, hfold.edgeStack, hfold.collector, hfold.aborted⟩
    · exact some.inj h ▸ .refl s

theorem samePlace_addDependencies (v : ℕ) (heads : List ℕ) (s : CycleEnumerator E C) :
    SamePlace s (s.addDependencies v heads) := by
  rw [addDependencies]
  refine List.foldlRecOn heads _ (.refl s) fun t ht u _ => ?_
  exact ⟨ht.vertexStack, ht.edgeStack, ht.collector, ht.aborted⟩

theorem samePlace_setBlocked (ms : List ℕ) (s : CycleEnumerator E C) :
    SamePlace s (ms.foldl (fun s m => s.setBlocked m true) s) := by
  refine List.foldlRecOn ms _ (.refl s) fun t ht m _ => ?_
  exact ⟨ht.vertexStack, ht.edgeStack, ht.collector, ht.aborted⟩

/-! ## The invariant of the search -/

section Invariant

/-- What a part of the search keeps, for a property of the collector and of its wish to stop. -/
structure Searched (Q : C → Bool → Prop) (s s' : CycleEnumerator E C) : Prop where
  property : Q s'.mCollector s'.mAborted
  vertexStack : s'.mAborted = false → s'.mVertexStack = s.mVertexStack
  edgeStack : s'.mAborted = false → s'.mEdgeStack = s.mEdgeStack

variable {Q : C → Bool → Prop} (hQ : ∀ c cycle, g.IsCycle cycle → Q c false →
  Q (collect c cycle).2 (collect c cycle).1)

include hQ

/-- A head that is the start closes the walk. -/
theorem searched_report {vertices : List ℕ} {edge : Edge E}
    (hstack : s.mVertexStack = vertices ++ [v]) (hwalk : Walk g src vertices s.mEdgeStack v)
    (hedge : edge ∈ g.out v) (hsrc : src ∈ edge.mOut) (hs : Q s.mCollector false) :
    Searched Q s (s.report collect edge) := by
  have hcycle : g.IsCycle ⟨s.mVertexStack, s.mEdgeStack ++ [edge]⟩ := by
    refine ⟨src, ?_, ?_⟩
    · rw [hstack]
      exact .snoc hwalk hedge hsrc
    · dsimp only
      rw [hstack]
      exact append_ne_nil_of_right_ne_nil _ (cons_ne_nil _ _)
  exact ⟨hQ _ _ hcycle hs, fun _ => rfl, fun _ => rfl⟩

theorem searched_visit {rec : ℕ → CycleEnumerator E C → Option (Bool × CycleEnumerator E C)}
    (hrec : ∀ u s found s', Walk g src s.mVertexStack s.mEdgeStack u → s.mAborted = false →
      Q s.mCollector false → rec u s = some (found, s') → Searched Q s s')
    {vertices : List ℕ} {heads : List (Edge E × ℕ)}
    (hheads : ∀ p ∈ heads, p.1 ∈ g.out v ∧ p.2 ∈ p.1.mOut) {found found' : Bool} (hstack : s.mVertexStack = vertices ++ [v])
    (hwalk : Walk g src vertices s.mEdgeStack v) (habort : s.mAborted = false)
    (hs : Q s.mCollector false)
    (h : visit collect src rec heads found s = some (found', s')) : Searched Q s s' := by
  induction heads generalizing found s with
  | nil =>
    obtain ⟨-, rfl⟩ := Prod.mk.inj (some.inj h)
    exact ⟨habort ▸ hs, fun _ => rfl, fun _ => rfl⟩
  | cons p rest ih =>
    obtain ⟨edge, u⟩ := p
    obtain ⟨⟨hedge, hu⟩, hrest⟩ := forall_mem_cons.mp hheads
    rw [visit] at h
    split_ifs at h with hsrc
    · subst hsrc
      have hreport := searched_report hQ hstack hwalk hedge hu hs
      dsimp only at h
      split_ifs at h with hstop
      · obtain ⟨-, rfl⟩ := Prod.mk.inj (some.inj h)
        exact hreport
      · have hstop := Bool.eq_false_iff.mpr hstop
        have htail : Searched Q (s.report collect edge) s' :=
          ih hrest hstack hwalk hstop (hstop ▸ hreport.property) h
        exact ⟨htail.property, htail.vertexStack, htail.edgeStack⟩
    · exact ih hrest hstack hwalk habort hs h
    · obtain ⟨⟨found₁, s₁⟩, h₁, h⟩ := bind_eq_some_iff.mp h
      have hwalk' : Walk g src (s.pushEdge edge).mVertexStack (s.pushEdge edge).mEdgeStack u := by
        dsimp only [pushEdge]
        rw [hstack]
        exact .snoc hwalk hedge hu
      have hsrch := hrec u _ _ _ hwalk' habort hs h₁
      dsimp only at h
      split_ifs at h with hstop
      · obtain ⟨-, rfl⟩ := Prod.mk.inj (some.inj h)
        exact ⟨hsrch.property, fun hno => absurd hstop (Bool.eq_false_iff.mp hno),
          fun hno => absurd hstop (Bool.eq_false_iff.mp hno)⟩
      · have hstop := Bool.eq_false_iff.mpr hstop
        have hverts : s₁.popEdge.mVertexStack = s.mVertexStack := hsrch.vertexStack hstop
        have hedges : s₁.popEdge.mEdgeStack = s.mEdgeStack := by
          dsimp only [popEdge]
          rw [hsrch.edgeStack hstop]
          exact dropLast_concat
        have htail := ih hrest (hverts.trans hstack) (hedges ▸ hwalk) hstop
          (hstop ▸ hsrch.property) h
        exact ⟨htail.property, fun hno => (htail.vertexStack hno).trans hverts,
          fun hno => (htail.edgeStack hno).trans hedges⟩

theorem searched_enumerate {found : Bool}
    (hwalk : Walk g src s.mVertexStack s.mEdgeStack v) (habort : s.mAborted = false)
    (hs : Q s.mCollector false) (h : enumerate g collect src fuel v s = some (found, s')) :
    Searched Q s s' := by
  induction fuel generalizing v s s' found with
  | zero => cases h
  | succ fuel ih =>
    obtain ⟨⟨found₁, s₁⟩, h₁, h⟩ := bind_eq_some_iff.mp h
    have hheads : ∀ p ∈ (g.out v).flatMap fun e => e.mOut.map fun u => (e, u),
        p.1 ∈ g.out v ∧ p.2 ∈ p.1.mOut := by
      intro p hp
      obtain ⟨e, he, hp⟩ := mem_flatMap.mp hp
      obtain ⟨u, hu, rfl⟩ := List.mem_map.mp hp
      exact ⟨he, hu⟩
    have hvisit :
        Searched Q { s.setBlocked v true with mVertexStack := s.mVertexStack ++ [v] } s₁ :=
      searched_visit hQ (fun u s found s' hwalk habort hs h => ih hwalk habort hs h) hheads rfl
        hwalk habort hs h₁
    have hpop (t : CycleEnumerator E C) (ht : SamePlace s₁ t) : Searched Q s t.popVertex := by
      refine ⟨?_, fun hno => ?_, fun hno => ?_⟩
      · dsimp only [popVertex]
        rw [ht.collector, ht.aborted]
        exact hvisit.property
      · dsimp only [popVertex]
        rw [ht.vertexStack, hvisit.vertexStack (ht.aborted ▸ hno)]
        exact dropLast_concat
      · dsimp only [popVertex]
        rw [ht.edgeStack]
        exact hvisit.edgeStack (ht.aborted ▸ hno)
    dsimp only at h
    split_ifs at h with hstop hfound
    · obtain ⟨-, rfl⟩ := Prod.mk.inj (some.inj h)
      exact ⟨hvisit.property, fun hno => absurd hstop (Bool.eq_false_iff.mp hno),
        fun hno => absurd hstop (Bool.eq_false_iff.mp hno)⟩
    · obtain ⟨t, ht, heq⟩ := map_eq_some_iff.mp h
      obtain ⟨-, rfl⟩ := Prod.mk.inj heq
      exact hpop t (samePlace_unblock ht)
    · obtain ⟨-, rfl⟩ := Prod.mk.inj (some.inj h)
      exact hpop _ (samePlace_addDependencies _ _ _)

theorem searched_findFrom {ns : List ℕ}
    (hverts : s.mVertexStack = []) (hedges : s.mEdgeStack = [])
    (habort : s.mAborted = false) (hs : Q s.mCollector false)
    (h : findFrom g collect fuel ns s = some s') : Q s'.mCollector s'.mAborted := by
  induction ns generalizing s with
  | nil =>
    cases h
    exact habort ▸ hs
  | cons n rest ih =>
    rw [findFrom, if_neg (Bool.eq_false_iff.mp habort)] at h
    obtain ⟨t, ht, h⟩ := bind_eq_some_iff.mp h
    obtain ⟨⟨found, s₁⟩, h₁, h⟩ := bind_eq_some_iff.mp h
    have hpl := (samePlace_foldlM (fun s m s' h => samePlace_unblock h) ht).trans
      (samePlace_setBlocked (List.range n) t)
    have hwalk : Walk g n ((List.range n).foldl (fun s m => s.setBlocked m true) t).mVertexStack
        ((List.range n).foldl (fun s m => s.setBlocked m true) t).mEdgeStack n := by
      rw [hpl.vertexStack, hpl.edgeStack, hverts, hedges]
      exact .nil
    have hsrch := searched_enumerate hQ hwalk (hpl.aborted.trans habort) (hpl.collector ▸ hs) h₁
    cases hstop : s₁.mAborted with
    | true =>
      have hend : s' = s₁ := by
        cases rest with
        | nil =>
          exact (some.inj h).symm
        | cons m rest =>
          dsimp only at h
          rw [findFrom, if_pos hstop] at h
          exact (some.inj h).symm
      rw [hend]
      exact hsrch.property
    | false =>
      refine ih ?_ ?_ hstop (hstop ▸ hsrch.property) h
      · rw [hsrch.vertexStack hstop, hpl.vertexStack, hverts]
      · rw [hsrch.edgeStack hstop, hpl.edgeStack, hedges]

/-- What holds of the collector at first and after each cycle holds in the end. -/
theorem findAll_property {c : C} (hc : Q c false)
    (h : findAll g collect fuel c = some s) : Q s.mCollector s.mAborted :=
  searched_findFrom hQ rfl rfl rfl hc h

end Invariant

/-! ## Search with another collector -/

section Map

variable {C' : Type x} {collect' : C' → Circuit E → Bool × C'} (π : C' → C)

def mapCollector (s : CycleEnumerator E C') : CycleEnumerator E C :=
  { s with mCollector := π s.mCollector }

theorem mapCollector_foldlM {f : CycleEnumerator E C → ℕ → Option (CycleEnumerator E C)}
    {f' : CycleEnumerator E C' → ℕ → Option (CycleEnumerator E C')}
    (hf : ∀ s u, f (s.mapCollector π) u = (f' s u).map (mapCollector π)) (us : List ℕ)
    (s : CycleEnumerator E C') :
    us.foldlM f (s.mapCollector π) = (us.foldlM f' s).map (mapCollector π) := by
  induction us generalizing s with
  | nil => rfl
  | cons u us ih =>
    rw [foldlM_cons, foldlM_cons, hf]
    cases f' s u with
    | none => rfl
    | some t => exact ih t

theorem mapCollector_unblock (fuel v : ℕ) (s : CycleEnumerator E C') :
    unblock fuel v (s.mapCollector π) = (unblock fuel v s).map (mapCollector π) := by
  induction fuel generalizing v s with
  | zero => rfl
  | succ fuel ih =>
    rw [unblock, unblock]
    split_ifs with hblk hblk' hblk'
    · rw [show (s.mapCollector π).setBlocked v false = (s.setBlocked v false).mapCollector π
        from rfl, show (s.mapCollector π).mBlockDependencies = s.mBlockDependencies from rfl,
        mapCollector_foldlM π fun s u => ih u s]
      cases (s.mBlockDependencies v).foldlM (fun s u => unblock fuel u s) (s.setBlocked v false) with
      | none => rfl
      | some t => rfl
    · exact absurd hblk hblk'
    · exact absurd hblk' hblk
    · rfl

theorem mapCollector_addDependencies (v : ℕ) (heads : List ℕ) (s : CycleEnumerator E C') :
    (s.mapCollector π).addDependencies v heads = (s.addDependencies v heads).mapCollector π := by
  rw [addDependencies, addDependencies]
  induction heads generalizing s with
  | nil => rfl
  | cons u heads ih => exact ih { s with
      mBlockDependencies := Function.update s.mBlockDependencies u (s.mBlockDependencies u ++ [v]) }

theorem mapCollector_setBlocked (ms : List ℕ) (s : CycleEnumerator E C') :
    ms.foldl (fun s m => s.setBlocked m true) (s.mapCollector π)
      = (ms.foldl (fun s m => s.setBlocked m true) s).mapCollector π := by
  induction ms generalizing s with
  | nil => rfl
  | cons m ms ih => exact ih (s.setBlocked m true)

variable (hπ : ∀ c cycle, collect (π c) cycle = ((collect' c cycle).1, π (collect' c cycle).2))

include hπ

theorem mapCollector_report (edge : Edge E) (s : CycleEnumerator E C') :
    (s.mapCollector π).report collect edge = (s.report collect' edge).mapCollector π := by
  rw [report, mapCollector, hπ]
  rfl

variable (src) in
theorem mapCollector_visit {rec : ℕ → CycleEnumerator E C → Option (Bool × CycleEnumerator E C)}
    {rec' : ℕ → CycleEnumerator E C' → Option (Bool × CycleEnumerator E C')}
    (hrec : ∀ u s, rec u (s.mapCollector π) = (rec' u s).map (Prod.map id (mapCollector π)))
    (heads : List (Edge E × ℕ)) (found : Bool) (s : CycleEnumerator E C') :
    visit collect src rec heads found (s.mapCollector π)
      = (visit collect' src rec' heads found s).map (Prod.map id (mapCollector π)) := by
  induction heads generalizing found s with
  | nil => rfl
  | cons p rest ih =>
    obtain ⟨edge, u⟩ := p
    rw [visit, visit, show (s.mapCollector π).mBlocked = s.mBlocked from rfl]
    split_ifs with hsrc hblk
    · dsimp only
      rw [mapCollector_report π hπ,
        show ((s.report collect' edge).mapCollector π).mAborted
          = (s.report collect' edge).mAborted from rfl]
      split_ifs with hstop
      · rfl
      · exact ih true _
    · exact ih found s
    · rw [show (s.mapCollector π).pushEdge edge = (s.pushEdge edge).mapCollector π from rfl, hrec]
      cases rec' u (s.pushEdge edge) with
      | none => rfl
      | some r =>
        obtain ⟨found₁, t⟩ := r
        rw [map_some, bind_some, bind_some]
        dsimp only [Prod.map, id]
        rw [show (t.mapCollector π).mAborted = t.mAborted from rfl]
        split_ifs with hstop
        · rfl
        · exact ih found₁ t.popEdge

theorem mapCollector_enumerate (fuel v : ℕ) (s : CycleEnumerator E C') :
    enumerate g collect src fuel v (s.mapCollector π)
      = (enumerate g collect' src fuel v s).map (Prod.map id (mapCollector π)) := by
  induction fuel generalizing v s with
  | zero => rfl
  | succ fuel ih =>
    rw [enumerate, enumerate]
    dsimp only
    have hvisit := mapCollector_visit src π hπ ih
      ((g.out v).flatMap fun e => e.mOut.map fun u => (e, u)) false
      { s.setBlocked v true with mVertexStack := s.mVertexStack ++ [v] }
    refine (congrArg (Option.bind · _) hvisit).trans ?_
    cases visit collect' src (enumerate g collect' src fuel)
        ((g.out v).flatMap fun e => e.mOut.map fun u => (e, u)) false
        { s.setBlocked v true with mVertexStack := s.mVertexStack ++ [v] } with
    | none => rfl
    | some r =>
      obtain ⟨found, t⟩ := r
      rw [map_some, bind_some, bind_some]
      have hstop : (t.mapCollector π).mAborted = t.mAborted := rfl
      simp only [Prod.map, id, hstop]
      split_ifs
      · rfl
      · rw [mapCollector_unblock]
        cases unblock fuel v t with
        | none => rfl
        | some t => rfl
      · rw [mapCollector_addDependencies]
        rfl

theorem mapCollector_findFrom (fuel : ℕ) (ns : List ℕ) (s : CycleEnumerator E C') :
    findFrom g collect fuel ns (s.mapCollector π)
      = (findFrom g collect' fuel ns s).map (mapCollector π) := by
  induction ns generalizing s with
  | nil => rfl
  | cons n rest ih =>
    rw [findFrom, findFrom, show (s.mapCollector π).mAborted = s.mAborted from rfl]
    split_ifs with hstop
    · rfl
    · rw [mapCollector_foldlM π fun s m => mapCollector_unblock π fuel m s]
      cases (List.range' n (g.size - n)).foldlM (fun s m => unblock fuel m s) s with
      | none => rfl
      | some t =>
        rw [map_some, bind_some, bind_some, mapCollector_setBlocked]
        dsimp only
        rw [mapCollector_enumerate π hπ]
        cases enumerate g collect' n fuel n
            ((List.range n).foldl (fun s m => s.setBlocked m true) t) with
        | none => rfl
        | some r => exact ih r.2

end Map

/-! ## The cycles that are visited -/

/-- The collector also keeps the cycles it gets. -/
def logged (collect : C → Circuit E → Bool × C) (c : C × List (Circuit E)) (cycle : Circuit E) :
    Bool × (C × List (Circuit E)) :=
  ((collect c.1 cycle).1, ((collect c.1 cycle).2, c.2 ++ [cycle]))

/-- The cycles that the collector gets. -/
def visited (g : ForwardHyperGraph P E) (collect : C → Circuit E → Bool × C) (fuel : ℕ) (c : C) :
    Option (List (Circuit E)) :=
  (findAll g (logged collect) fuel (c, [])).map (·.mCollector.2)

/-- The search calls the collector with the cycles it visits. -/
theorem exists_visited {Q : C → List (Circuit E) → Bool → Prop} {c : C} (hc : Q c [] false)
    (hQ : ∀ c cycles cycle, g.IsCycle cycle → Q c cycles false →
      Q (collect c cycle).2 (cycles ++ [cycle]) (collect c cycle).1)
    (h : findAll g collect fuel c = some s) :
    ∃ cycles, visited g collect fuel c = some cycles ∧ Q s.mCollector cycles s.mAborted := by
  have hlogged : findAll g collect fuel c
      = (findAll g (logged collect) fuel (c, [])).map (mapCollector Prod.fst) :=
    mapCollector_findFrom Prod.fst (fun _ _ => rfl) fuel _ (new (c, []))
  rw [hlogged] at h
  obtain ⟨t, ht, rfl⟩ := map_eq_some_iff.mp h
  refine ⟨t.mCollector.2, map_eq_some_iff.mpr ⟨t, ht, rfl⟩, ?_⟩
  exact findAll_property (fun c cycle hcycle hQc => hQ c.1 c.2 cycle hcycle hQc)
    (Q := fun c b => Q c.1 c.2 b) hc ht

end CycleEnumerator

end Smtrat.ICE
