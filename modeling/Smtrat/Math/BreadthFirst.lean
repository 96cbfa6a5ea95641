import Mathlib

/-!
# Breadth-first search

The search discovers the vertices that can be reached from its start, and records for each other
one the vertex that it was discovered from.  The predecessors lead back to the start.
-/

universe u

namespace BreadthFirst
open List Function

variable {V : Type u}

structure Search (V : Type u) where
  queue : List V
  discovered : List V
  predecessor : V → Option V

section Defs

variable [DecidableEq V] (adjacent : V → List V)

/-- An edge from `u`: a target that is not discovered yet is queued, and the edge recorded. -/
def visitEdge (u : V) (s : Search V) (v : V) : Search V :=
  if v ∈ s.discovered then s
  else ⟨s.queue ++ [v], v :: s.discovered, update s.predecessor v (some u)⟩

/-- The main loop, for at most `n` vertices. -/
def loop : ℕ → Search V → Search V
  | 0, s => s
  | n + 1, s =>
    match s.queue with
    | [] => s
    | u :: queue => loop n ((adjacent u).foldl (visitEdge u) { s with queue := queue })

/-- The search from a vertex of a graph with `n` vertices. -/
def search (n : ℕ) (start : V) : Search V :=
  loop adjacent n ⟨[start], [start], fun _ => none⟩

end Defs

variable {adjacent : V → List V} {start : V}

/-- The discovered vertices, the latest one first, with their predecessors. -/
inductive Tree (adjacent : V → List V) (start : V) (predecessor : V → Option V) : List V → Prop
  | start : Tree adjacent start predecessor [start]
  | cons {u v : V} {ds : List V} : Tree adjacent start predecessor ds → v ∉ ds → u ∈ ds →
      v ∈ adjacent u → predecessor v = some u → Tree adjacent start predecessor (v :: ds)

variable {p : V → Option V} {ds : List V}

theorem Tree.congr {p' : V → Option V} (h : Tree adjacent start p ds)
    (hp : ∀ v ∈ ds, p v = p' v) : Tree adjacent start p' ds := by
  induction h with
  | start => exact .start
  | cons _ hv hu hadj hpred ih =>
    refine .cons (ih fun w hw => hp w (mem_cons_of_mem _ hw)) hv hu hadj ?_
    rw [← hp _ mem_cons_self, hpred]

theorem Tree.nodup (h : Tree adjacent start p ds) : ds.Nodup := by
  induction h with
  | start => exact nodup_singleton start
  | cons _ hv _ _ _ ih => exact nodup_cons.mpr ⟨hv, ih⟩

theorem Tree.start_mem (h : Tree adjacent start p ds) : start ∈ ds := by
  induction h with
  | start => exact mem_singleton_self start
  | cons _ _ _ _ _ ih => exact mem_cons_of_mem _ ih

variable {vs : List V}

theorem Tree.subset (h : Tree adjacent start p ds)
    (hstart : start ∈ vs) (hvs : ∀ u ∈ vs, ∀ v ∈ adjacent u, v ∈ vs) : ds ⊆ vs := by
  induction h with
  | start => exact cons_subset.mpr ⟨hstart, nil_subset vs⟩
  | cons _ _ hu hadj _ ih => exact cons_subset.mpr ⟨hvs _ (ih hu) _ hadj, ih⟩

/-! ## The edges of a vertex -/

section Search

variable [DecidableEq V]

/-- The edges from `u` discover their targets, and queue those that are new. -/
theorem foldl_visitEdge_spec (u : V) (vs : List V) (s : Search V) :
    (∀ w, w ∈ (vs.foldl (visitEdge u) s).discovered ↔ w ∈ s.discovered ∨ w ∈ vs) ∧
      (∀ w, w ∈ (vs.foldl (visitEdge u) s).queue ↔ w ∈ s.queue ∨ w ∈ vs ∧ w ∉ s.discovered) ∧
      (vs.foldl (visitEdge u) s).queue.length + s.discovered.length =
        s.queue.length + (vs.foldl (visitEdge u) s).discovered.length := by
  induction vs generalizing s with
  | nil => simp
  | cons v vs ih =>
    obtain ⟨hdisc, hqueue, hlen⟩ := ih (visitEdge u s v)
    rw [foldl_cons]
    refine ⟨fun w => ?_, fun w => ?_, ?_⟩
    · rw [hdisc, visitEdge]
      split_ifs with hv
      · constructor
        · rintro (hw | hw)
          · exact .inl hw
          · exact .inr (mem_cons_of_mem v hw)
        · rintro (hw | hw)
          · exact .inl hw
          · rcases mem_cons.mp hw with rfl | hw
            · exact .inl hv
            · exact .inr hw
      · simp only [mem_cons]
        tauto
    · rw [hqueue, visitEdge]
      split_ifs with hv
      · simp only [mem_cons]
        constructor
        · rintro (hw | ⟨hw, hnew⟩)
          · exact .inl hw
          · exact .inr ⟨.inr hw, hnew⟩
        · rintro (hw | ⟨rfl | hw, hnew⟩)
          · exact .inl hw
          · exact absurd hv hnew
          · exact .inr ⟨hw, hnew⟩
      · simp only [mem_append, mem_cons, not_mem_nil, or_false, not_or]
        constructor
        · rintro ((hw | rfl) | ⟨hw, -, hnew⟩)
          · exact .inl hw
          · exact .inr ⟨.inl rfl, hv⟩
          · exact .inr ⟨.inr hw, hnew⟩
        · rintro (hw | ⟨rfl | hw, hnew⟩)
          · exact .inl (.inl hw)
          · exact .inl (.inr rfl)
          · by_cases hwv : w = v
            · exact .inl (.inr hwv)
            · exact .inr ⟨hw, hwv, hnew⟩
    · rw [visitEdge] at hlen ⊢
      split_ifs at hlen ⊢ with hv
      · exact hlen
      · simp only [length_append, length_cons, length_nil] at hlen
        omega

variable {s : Search V}

theorem Tree.foldl_visitEdge {u : V} (hvs : ∀ v ∈ vs, v ∈ adjacent u)
    (h : Tree adjacent start s.predecessor s.discovered) (hu : u ∈ s.discovered) :
    Tree adjacent start (vs.foldl (visitEdge u) s).predecessor
      (vs.foldl (visitEdge u) s).discovered := by
  induction vs generalizing s with
  | nil => exact h
  | cons v vs ih =>
    rw [foldl_cons]
    have hvs' := fun w hw => hvs w (mem_cons_of_mem v hw)
    rw [visitEdge]
    split_ifs with hv
    · exact ih hvs' h hu
    · refine ih hvs' ?_ (mem_cons_of_mem v hu)
      refine .cons (h.congr fun w hw => ?_) hv hu (hvs v mem_cons_self) ?_
      · refine (update_of_ne ?_ _ _).symm
        rintro rfl
        exact hv hw
      · exact update_self _ _ _

/-! ## The loop -/

/-- What the loop keeps: a discovered vertex that is not queued has been looked at. -/
structure Inv (adjacent : V → List V) (start : V) (s : Search V) : Prop where
  tree : Tree adjacent start s.predecessor s.discovered
  queued : ∀ u ∈ s.queue, u ∈ s.discovered
  closed : ∀ u ∈ s.discovered, u ∉ s.queue → ∀ v ∈ adjacent u, v ∈ s.discovered

theorem Inv.visit (h : Inv adjacent start s) {u : V} {queue : List V}
    (hqueue : s.queue = u :: queue) :
    Inv adjacent start ((adjacent u).foldl (visitEdge u) { s with queue := queue }) := by
  obtain ⟨hdisc, hqueued, -⟩ :=
    foldl_visitEdge_spec u (adjacent u) { s with queue := queue }
  have hu : u ∈ s.discovered := h.queued u (hqueue ▸ mem_cons_self)
  constructor
  case tree =>
    exact Tree.foldl_visitEdge (s := { s with queue := queue }) (fun _ hv => hv) h.tree hu
  case queued =>
    intro w hw
    rcases (hqueued w).mp hw with hw | ⟨hw, -⟩
    · exact (hdisc w).mpr (.inl (h.queued w (hqueue ▸ mem_cons_of_mem u hw)))
    · exact (hdisc w).mpr (.inr hw)
  case closed =>
    intro w hw hnot v hv
    rw [hqueued] at hnot
    rw [hdisc] at hw ⊢
    have hold : w ∈ s.discovered := by
      by_contra hnew
      exact hnot (.inr ⟨hw.resolve_left hnew, hnew⟩)
    by_cases hwu : w = u
    · rw [hwu] at hv
      exact .inr hv
    · refine .inl (h.closed w hold (fun hmem => ?_) v hv)
      rw [hqueue] at hmem
      exact hnot (.inl ((mem_cons.mp hmem).resolve_left hwu))

/-- As the discovered vertices are distinct, `n` steps empty the queue. -/
theorem Inv.loop (hstart : start ∈ vs) (hvs : ∀ u ∈ vs, ∀ v ∈ adjacent u, v ∈ vs)
    {n : ℕ} (h : Inv adjacent start s) (hn : vs.length + s.queue.length ≤ n + s.discovered.length) :
    Inv adjacent start (loop adjacent n s) ∧ (loop adjacent n s).queue = [] := by
  have hlen : ∀ {s : Search V}, Inv adjacent start s → s.discovered.length ≤ vs.length := by
    intro s hs
    exact (hs.tree.nodup.subperm (hs.tree.subset hstart hvs)).length_le
  induction n generalizing s with
  | zero =>
    have := hlen h
    refine ⟨h, length_eq_zero_iff.mp ?_⟩
    show s.queue.length = 0
    omega
  | succ n ih =>
    cases hqueue : s.queue with
    | nil =>
      rw [BreadthFirst.loop, hqueue]
      exact ⟨h, hqueue⟩
    | cons u queue =>
      rw [BreadthFirst.loop, hqueue]
      refine ih (h.visit hqueue) ?_
      obtain ⟨-, -, hcnt⟩ := foldl_visitEdge_spec u (adjacent u) { s with queue := queue }
      rw [hqueue, length_cons] at hn
      simp only at hcnt
      omega

/-- The search discovers the start and all neighbours of what it discovers, and records a tree. -/
theorem search_spec (hstart : start ∈ vs) (hvs : ∀ u ∈ vs, ∀ v ∈ adjacent u, v ∈ vs) :
    Tree adjacent start (search adjacent vs.length start).predecessor
        (search adjacent vs.length start).discovered ∧
      ∀ u ∈ (search adjacent vs.length start).discovered, ∀ v ∈ adjacent u,
        v ∈ (search adjacent vs.length start).discovered := by
  have hinitial : Inv adjacent start ⟨[start], [start], fun _ => none⟩ :=
    ⟨.start, fun _ hu => hu, fun _ hu hnot => absurd hu hnot⟩
  obtain ⟨hinv, hempty⟩ := hinitial.loop hstart hvs (n := vs.length) (Nat.le_refl _)
  refine ⟨hinv.tree, fun u hu => hinv.closed u hu ?_⟩
  rw [hempty]
  exact not_mem_nil

end Search

end BreadthFirst
