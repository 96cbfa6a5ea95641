import Mathlib

/-!
# Forward hypergraphs

A hyperedge goes from one vertex to several.  All cycles are looked for along a stack of vertices
and edges; each one that is found is given to a collector, which may end the search.  A collector
only ever sees closed walks of the graph.
-/

namespace Smtrat.ICE

universe u v w

/-- `ForwardHyperGraph::Edge` -/
structure Edge (E : Type v) where
  mProperty : E
  mOut : List ℕ

/-- `ForwardHyperGraph`, with unique vertices. -/
structure ForwardHyperGraph (P : Type u) (E : Type v) where
  mVertexProperties : List P
  mEdges : List (List (Edge E))
  mVertexMap : P → Option ℕ

namespace ForwardHyperGraph

variable {P : Type u} {E : Type v}

def empty : ForwardHyperGraph P E := ⟨[], [], fun _ => none⟩

def size (g : ForwardHyperGraph P E) : ℕ := g.mVertexProperties.length

def out (g : ForwardHyperGraph P E) (v : ℕ) : List (Edge E) := g.mEdges.getD v []

/-- `newVertex`: a vertex with the property may be there already. -/
def newVertex [DecidableEq P] (vp : P) (g : ForwardHyperGraph P E) : ℕ × ForwardHyperGraph P E :=
  match g.mVertexMap vp with
  | some v => (v, g)
  | none => (g.mEdges.length,
      { mVertexProperties := g.mVertexProperties ++ [vp]
        mEdges := g.mEdges ++ [[]]
        mVertexMap := Function.update g.mVertexMap vp (some g.mEdges.length) })

/-- The vertices with some properties, one after the other. -/
def newVertices [DecidableEq P] : List P → ForwardHyperGraph P E → List ℕ × ForwardHyperGraph P E
  | [], g => ([], g)
  | vp :: vps, g =>
    let (v, g) := newVertex vp g
    let (vs, g) := newVertices vps g
    (v :: vs, g)

/-- `newEdge` -/
def newEdge (source : ℕ) (e : Edge E) (g : ForwardHyperGraph P E) : ForwardHyperGraph P E :=
  { g with mEdges := g.mEdges.modify source (· ++ [e]) }

/-! ## Walks -/

/-- The edges lead from one vertex to the next, and the last one to `v`. -/
inductive Walk (g : ForwardHyperGraph P E) (src : ℕ) : List ℕ → List (Edge E) → ℕ → Prop
  | nil : Walk g src [] [] src
  | snoc {vertices edges v e u} : Walk g src vertices edges v → e ∈ g.out v → u ∈ e.mOut →
      Walk g src (vertices ++ [v]) (edges ++ [e]) u

/-- A walk that ends where it started. -/
structure Circuit (E : Type v) where
  vertices : List ℕ
  edges : List (Edge E)

def IsCycle (g : ForwardHyperGraph P E) (c : Circuit E) : Prop :=
  ∃ src, Walk g src c.vertices c.edges src ∧ c.vertices ≠ []

end ForwardHyperGraph

/-! ## The search -/

/-- `CycleEnumerator`, apart from the graph. -/
structure CycleEnumerator (E : Type v) (C : Type w) where
  mBlocked : ℕ → Bool
  mBlockDependencies : ℕ → List ℕ
  mVertexStack : List ℕ
  mEdgeStack : List (Edge E)
  mCollector : C
  mAborted : Bool

namespace CycleEnumerator

open ForwardHyperGraph

variable {P : Type u} {E : Type v} {C : Type w}

def new (c : C) : CycleEnumerator E C := ⟨fun _ => false, fun _ => [], [], [], c, false⟩

def setBlocked (s : CycleEnumerator E C) (v : ℕ) (b : Bool) : CycleEnumerator E C :=
  { s with mBlocked := Function.update s.mBlocked v b }

/-- `unblock`; the number bounds the depth of the recursion. -/
def unblock : ℕ → ℕ → CycleEnumerator E C → Option (CycleEnumerator E C)
  | 0, _, _ => none
  | fuel + 1, v, s =>
    if s.mBlocked v then
      ((s.mBlockDependencies v).foldlM (fun s u => unblock fuel u s) (s.setBlocked v false)).map
        fun s => { s with mBlockDependencies := Function.update s.mBlockDependencies v [] }
    else some s

/-- The collector gets the cycle that the edge closes. -/
def report (collect : C → Circuit E → Bool × C) (edge : Edge E) (s : CycleEnumerator E C) :
    CycleEnumerator E C :=
  let (aborted, c) := collect s.mCollector ⟨s.mVertexStack, s.mEdgeStack ++ [edge]⟩
  { s with mCollector := c, mAborted := aborted }

def pushEdge (s : CycleEnumerator E C) (edge : Edge E) : CycleEnumerator E C :=
  { s with mEdgeStack := s.mEdgeStack ++ [edge] }

def popEdge (s : CycleEnumerator E C) : CycleEnumerator E C :=
  { s with mEdgeStack := s.mEdgeStack.dropLast }

/-- The loop over the edges of a vertex and their heads.  After a cycle was found, no further vertex
is entered: `found || enumerate(src, u)` is not evaluated. -/
def visit (collect : C → Circuit E → Bool × C) (src : ℕ)
    (enumerate : ℕ → CycleEnumerator E C → Option (Bool × CycleEnumerator E C)) :
    List (Edge E × ℕ) → Bool → CycleEnumerator E C → Option (Bool × CycleEnumerator E C)
  | [], found, s => some (found, s)
  | (edge, u) :: rest, found, s =>
    if u = src then
      let s := s.report collect edge
      if s.mAborted then some (false, s) else visit collect src enumerate rest true s
    else if s.mBlocked u || found then visit collect src enumerate rest found s
    else (enumerate u (s.pushEdge edge)).bind fun (found, s) =>
      if s.mAborted then some (false, s)
      else visit collect src enumerate rest found s.popEdge

/-- The vertex waits for the heads of its edges to be unblocked. -/
def addDependencies (v : ℕ) (heads : List ℕ) (s : CycleEnumerator E C) : CycleEnumerator E C :=
  heads.foldl (fun s u => { s with
    mBlockDependencies := Function.update s.mBlockDependencies u (s.mBlockDependencies u ++ [v]) }) s

def popVertex (s : CycleEnumerator E C) : CycleEnumerator E C :=
  { s with mVertexStack := s.mVertexStack.dropLast }

/-- `enumerate`: all cycles that start in `src` and are currently in `v`. -/
def enumerate (g : ForwardHyperGraph P E) (collect : C → Circuit E → Bool × C) (src : ℕ) :
    ℕ → ℕ → CycleEnumerator E C → Option (Bool × CycleEnumerator E C)
  | 0, _, _ => none
  | fuel + 1, v, s =>
    let s := { s.setBlocked v true with mVertexStack := s.mVertexStack ++ [v] }
    let heads := (g.out v).flatMap fun e => e.mOut.map fun u => (e, u)
    (visit collect src (enumerate g collect src fuel) heads false s).bind fun (found, s) =>
      if s.mAborted then some (false, s)
      else if found then (unblock fuel v s).map fun s => (true, s.popVertex)
      else some (false, (s.addDependencies v (heads.map (·.2))).popVertex)

/-- `findAll`, from the vertex `n` on. -/
def findFrom (g : ForwardHyperGraph P E) (collect : C → Circuit E → Bool × C) (fuel : ℕ) :
    List ℕ → CycleEnumerator E C → Option (CycleEnumerator E C)
  | [], s => some s
  | n :: rest, s =>
    if s.mAborted then some s
    else ((List.range' n (g.size - n)).foldlM (fun s m => unblock fuel m s) s).bind fun s =>
      let s := (List.range n).foldl (fun s m => s.setBlocked m true) s
      (enumerate g collect n fuel n s).bind fun (_, s) => findFrom g collect fuel rest s

/-- `findAll` -/
def findAll (g : ForwardHyperGraph P E) (collect : C → Circuit E → Bool × C) (fuel : ℕ) (c : C) :
    Option (CycleEnumerator E C) :=
  findFrom g collect fuel (List.range g.size) (new c)

end CycleEnumerator

end Smtrat.ICE
