import RoadHierarchy.Graph.Basic
import RoadHierarchy.Ascending

/-! # Adjacency

The live edges at a vertex by the direction in which they can be driven, and its neighbours with
the direction left out. All lists are ascending by id.
-/

namespace RoadHierarchy.Graph

/-- The live edges with an end at the vertex an id names. -/
def liveEdges (g : Graph) (v : Nat) : List Edge :=
  let ids := (g.touching[position g.vertexCount v]?).getD #[]
  (ids.toList.filterMap (g.edges[·]?)).filter (!·.removed)

/-- The live edges that can be driven out of a vertex. -/
def outgoing (g : Graph) (v : Nat) : List Edge :=
  (g.liveEdges v).filter (·.leaves (position g.vertexCount v))

/-- The live edges that can be driven into a vertex. -/
def ingoing (g : Graph) (v : Nat) : List Edge :=
  (g.liveEdges v).filter (·.enters (position g.vertexCount v))

/-- The other ends of the live edges at a vertex, without the vertex itself. -/
def neighbors (g : Graph) (v : Nat) : List Nat :=
  let ends := (g.liveEdges v).map (·.other (position g.vertexCount v))
  Ascending.ofList (ends.filter (· ≠ v))

end RoadHierarchy.Graph
