import RoadHierarchy.Graph.Basic

/-! # Graph drawings

The live part of a graph in the DOT language. Vertices show their depth and round, edges their
kind, the directions in which they can be driven, and their weight.
-/

namespace RoadHierarchy

/-- A vertex without a round shows `None`. -/
def Vertex.dotLabel (v : Vertex) (id : Nat) : String :=
  let round := match v.round with
    | some round => s!"Some({round})"
    | none => "None"
  s!"{id} d={v.depth} r={round}"

/-- `S` marks a shortcut and `E` an input edge. -/
def Edge.dotLabel (e : Edge) (id : Nat) : String :=
  let kind := if e.isShortcut then "S" else "E"
  let arrow := if e.bidirectional then "<>" else ">"
  s!"{kind}{id} {arrow} w={e.weight}"

namespace Graph

/-- One statement with its label. -/
def dotLine (subject label : String) : String :=
  s!"    {subject} [ label = \"" ++ label ++ "\" ]\n"

/-- All vertices, then all live edges. -/
def toDot (g : Graph) : String :=
  let vertices := g.vertices.toList.zipIdx.map fun (v, id) => dotLine s!"{id}" (v.dotLabel id)
  let edges := (g.edges.toList.zipIdx.filter (!·.1.removed)).map fun (e, id) =>
    dotLine s!"{e.source} -> {e.target}" (e.dotLabel id)
  "digraph \x7b\n" ++ String.join vertices ++ String.join edges ++ "\x7d\n"

end Graph

end RoadHierarchy
