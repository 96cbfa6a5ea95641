import Smtrat.Math.BreadthFirst
import Smtrat.Math.ParentForest

/-!
# The equality graph

The undirected graph of the received equalities, with parallel edges.  Paths in it are found by a
breadth-first search, and read backwards from their ends.
-/

namespace Smtrat.UnionFind

open BreadthFirst ParentForest List Option

universe u

variable {V : Type u}

structure EQGraph (V : Type u) where
  vertices : List V
  /-- The edges in the order in which they were added. -/
  edges : List (V × V)
deriving DecidableEq, Repr

namespace EQGraph

variable [DecidableEq V]

def empty : EQGraph V := ⟨[], []⟩

def addVertex (g : EQGraph V) (name : V) : EQGraph V := { g with vertices := g.vertices ++ [name] }

def addEdge (g : EQGraph V) (a b : V) : Option (EQGraph V) :=
  if a ∈ g.vertices ∧ b ∈ g.vertices then some { g with edges := g.edges ++ [(a, b)] } else none

/-- All parallel edges are removed. -/
def removeEdge (g : EQGraph V) (a b : V) : Option (EQGraph V) :=
  if a ∈ g.vertices ∧ b ∈ g.vertices then
    some { g with edges := g.edges.filter fun e => e ≠ (a, b) ∧ e ≠ (b, a) }
  else none

/-- The targets of the edges of a vertex. -/
def adjacent (g : EQGraph V) (u : V) : List V :=
  g.edges.flatMap fun e => (if e.1 = u then [e.2] else []) ++ if e.2 = u then [e.1] else []

/-- A path is at its bound, if it has one. -/
def atBound (bound : Option ℕ) (path : List (V × V)) : Bool := bound.any fun n => n ≤ path.length

/-- The loop that reads the predecessors, for at most `n` edges. -/
def follow (predecessors : V → Option V) (start : V) (bound : Option ℕ) :
    ℕ → V → List (V × V) → Option (V × List (V × V))
  | 0, vertex, path => if vertex = start ∨ atBound bound path then some (vertex, path) else none
  | n + 1, vertex, path =>
    if vertex = start ∨ atBound bound path then some (vertex, path)
    else
      match predecessors vertex with
      | none => none
      | some next => follow predecessors start bound n next (path ++ [(vertex, next)])

/-- The path, if its length is within the bound.  No bound is the greatest `size_t` of the code. -/
def getPath (g : EQGraph V) (a b : V) (bound : Option ℕ) : Option (Option (List (V × V))) :=
  if a ∈ g.vertices ∧ b ∈ g.vertices then
    let s := search g.adjacent g.vertices.length a
    (follow s.predecessor a bound g.vertices.length b []).map fun p =>
      if p.1 = a then some p.2 else none
  else none

/-! ## Paths -/

variable {g : EQGraph V} {v : V}

theorem mem_adjacent {u : V} : v ∈ g.adjacent u ↔ (u, v) ∈ g.edges ∨ (v, u) ∈ g.edges := by
  rw [adjacent, mem_flatMap]
  constructor
  · rintro ⟨e, he, hv⟩
    rcases mem_append.mp hv with hv | hv
    · split_ifs at hv with hu
      · obtain rfl := mem_singleton.mp hv
        exact .inl (hu ▸ he)
      · exact absurd hv not_mem_nil
    · split_ifs at hv with hu
      · obtain rfl := mem_singleton.mp hv
        exact .inr (hu ▸ he)
      · exact absurd hv not_mem_nil
  · rintro (he | he)
    · exact ⟨_, he, by simp⟩
    · exact ⟨_, he, by simp⟩

/-- The edges lead from one vertex to another. -/
def IsPath (g : EQGraph V) : V → List (V × V) → V → Prop
  | v, [], w => v = w
  | v, e :: es, w => e.1 = v ∧ e.1 ∈ g.adjacent e.2 ∧ IsPath g e.2 es w

theorem IsPath.adjacent {w : V} {es : List (V × V)} (h : g.IsPath v es w) :
    ∀ e ∈ es, e.1 ∈ g.adjacent e.2 := by
  induction es generalizing v with
  | nil => exact fun e he => absurd he not_mem_nil
  | cons e es ih =>
    obtain ⟨-, hadj, h⟩ := h
    exact forall_mem_cons.mpr ⟨hadj, ih h⟩

/-- What is the same at both ends of every edge is the same at both ends of a path. -/
theorem IsPath.lift {α : Sort*} {w : V} {es : List (V × V)} (h : g.IsPath v es w)
    {f : V → α} (hf : ∀ e ∈ es, f e.1 = f e.2) : f v = f w := by
  induction es generalizing v with
  | nil => exact congrArg f h
  | cons e es ih =>
    obtain ⟨rfl, -, h⟩ := h
    exact (hf e mem_cons_self).trans (ih h fun e he => hf e (mem_cons_of_mem _ he))

section Follow

variable {predecessors : V → Option V} {start : V} {bound : Option ℕ}

theorem follow_of_stop {n : ℕ} {vertex : V} {path : List (V × V)}
    (h : vertex = start ∨ atBound bound path = true) :
    follow predecessors start bound n vertex path = some (vertex, path) := by
  cases n with
  | zero => rw [follow, if_pos h]
  | succ n => rw [follow, if_pos h]

/-- In a tree the predecessors lead to its start, or as far as the bound allows. -/
theorem follow_spec (bound : Option ℕ) {ds : List V} (h : Tree g.adjacent start predecessors ds)
    (hv : v ∈ ds) {n : ℕ} (hn : ds.length ≤ n + 1) (path : List (V × V)) :
    ∃ w es, follow predecessors start bound n v path = some (w, path ++ es) ∧ g.IsPath v es w ∧
      (w = start ∨ atBound bound (path ++ es) = true) := by
  induction h generalizing v n path with
  | start =>
    have hstart := mem_singleton.mp hv
    refine ⟨v, [], ?_, rfl, .inl hstart⟩
    rw [follow_of_stop (.inl hstart), append_nil]
  | @cons u v' ds htree hnew hu hadj hpred ih =>
    rw [length_cons] at hn
    have hpos := length_pos_of_mem htree.start_mem
    rcases mem_cons.mp hv with rfl | hv
    · by_cases hstop : v = start ∨ atBound bound path = true
      · refine ⟨v, [], ?_, rfl, ?_⟩
        · rw [follow_of_stop hstop, append_nil]
        · rwa [append_nil]
      · obtain ⟨n, rfl⟩ := Nat.exists_eq_succ_of_ne_zero (show n ≠ 0 by omega)
        obtain ⟨w, es, hfollow, hpath, hend⟩ := ih hu (n := n) (by omega) (path ++ [(v, u)])
        rw [append_assoc] at hfollow hend
        refine ⟨w, (v, u) :: es, ?_, ⟨rfl, hadj, hpath⟩, hend⟩
        rw [follow, if_neg hstop, hpred]
        exact hfollow
    · exact ih hv (by omega) path

end Follow

/-- Between connected vertices there is a path, unless a bound forbids it. -/
theorem getPath_spec (hedges : ∀ e ∈ g.edges, e.1 ∈ g.vertices ∧ e.2 ∈ g.vertices)
    {a b : V} (ha : a ∈ g.vertices) (hab : Connected g.edges a b) (bound : Option ℕ) :
    ∃ p, g.getPath a b bound = some p ∧ (bound = none → p.isSome = true) ∧
      ∀ path, p = some path → g.IsPath b path a := by
  have hclo : ∀ u ∈ g.vertices, ∀ v ∈ g.adjacent u, v ∈ g.vertices := by
    intro u _ v hv
    rcases mem_adjacent.mp hv with he | he
    · exact (hedges _ he).2
    · exact (hedges _ he).1
  obtain ⟨htree, hneighbours⟩ := search_spec ha hclo
  have hdisc : b ∈ (search g.adjacent g.vertices.length a).discovered := by
    have hsame := hab.lift (f := fun v => v ∈ (search g.adjacent g.vertices.length a).discovered)
      fun e he => propext ⟨fun h => hneighbours _ h _ (mem_adjacent.mpr (.inl he)),
        fun h => hneighbours _ h _ (mem_adjacent.mpr (.inr he))⟩
    exact hsame ▸ htree.start_mem
  have hb : b ∈ g.vertices := htree.subset ha hclo hdisc
  have hlen := (htree.nodup.subperm (htree.subset ha hclo)).length_le
  obtain ⟨w, es, hfollow, hpath, hend⟩ := follow_spec bound htree hdisc
    (n := g.vertices.length) (by omega) []
  rw [nil_append] at hfollow hend
  refine ⟨if w = a then some es else none, ?_, ?_, ?_⟩
  · rw [getPath, if_pos ⟨ha, hb⟩]
    simp only [hfollow, map_some]
  · rintro rfl
    rw [if_pos (hend.resolve_right nofun)]
    rfl
  · intro path hsome
    split_ifs at hsome with hw
    · obtain rfl := some.inj hsome
      exact hw ▸ hpath

end EQGraph

end Smtrat.UnionFind
