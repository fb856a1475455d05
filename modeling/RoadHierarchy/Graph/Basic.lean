import RoadHierarchy.Bounded

/-! # The routing graph

A directed multigraph held in tables. Nothing is ever taken out of it: a contracted vertex is
flagged as processed and a superseded edge as removed, so that every id that was handed out keeps
its meaning. An operation that fails returns no graph, and the graph it was applied to is unchanged.
-/

namespace RoadHierarchy

/-- A road junction and what the contraction notes about it. -/
structure Vertex where
  /-- The position in the vertex table. -/
  id : Nat
  lat : Float
  lon : Float
  /-- A vertex of lower priority is contracted earlier. -/
  priority : Float
  /-- The number of hierarchy levels below the vertex. -/
  depth : Nat
  /-- The vertex has been contracted. -/
  processed : Bool
  /-- The round in which it was contracted. -/
  round : Option Nat
  deriving BEq

/-- A junction that has not been looked at yet. -/
def Vertex.fresh (id : Nat) (lat lon : Float) : Vertex :=
  ⟨id, lat, lon, 0, 0, false, none⟩

/-- A road, or a shortcut that stands for a path. -/
structure Edge where
  /-- The position in the edge table. -/
  id : Nat
  source : Nat
  target : Nat
  /-- The length of the road, or of the path the shortcut stands for. -/
  weight : Nat
  /-- The number of input edges the edge stands for. -/
  count : Nat
  /-- The edge can also be driven from its target to its source. -/
  bidirectional : Bool
  /-- Of a shortcut: the edge from its source to the contracted vertex, and the edge from there to
  its target. -/
  pair : Option (Nat × Nat)
  /-- The edge has been superseded by a lighter shortcut. -/
  removed : Bool
  deriving DecidableEq

namespace Edge

/-- An edge with a pair was made by a contraction. -/
def isShortcut (e : Edge) : Bool := e.pair.isSome

/-- The edge can be driven from `start`. -/
def leaves (e : Edge) (start : Nat) : Bool :=
  e.source == start || (e.bidirectional && e.target == start)

/-- The edge can be driven to `goal`. -/
def enters (e : Edge) (goal : Nat) : Bool :=
  e.target == goal || (e.bidirectional && e.source == goal)

/-- The endpoint that is not `known`. -/
def other (e : Edge) (known : Nat) : Nat :=
  if e.source = known then e.target else e.source

end Edge

/-- The vertex and edge tables, with the edges that touch each vertex. -/
structure Graph where
  vertices : Array Vertex
  /-- All edges, removed ones included. -/
  edges : Array Edge
  /-- For each vertex the ids of the edges with an end there, in the order of their creation. -/
  touching : Array (Array Nat)

/-- The position an id names in a table of the given size. An id that the table does not hold is
read by its low 32 bits. -/
def position (size id : Nat) : Nat :=
  if id < size then id else id % 0x100000000

theorem position_of_lt {size id : Nat} (known : id < size) : position size id = id := by
  simp [position, known]

namespace Graph

/-- The graph without vertices. -/
def empty : Graph := ⟨#[], #[], #[]⟩

/-- The number of vertices. -/
def vertexCount (g : Graph) : Nat := g.vertices.size

/-- The number of edges, removed ones included. -/
def edgeCount (g : Graph) : Nat := g.edges.size

/-- The vertex an id names, if any. -/
def vertex? (g : Graph) (v : Nat) : Option Vertex :=
  g.vertices[position g.vertexCount v]?

/-- The edge an id names, if any. -/
def edge? (g : Graph) (e : Nat) : Option Edge :=
  g.edges[position g.edgeCount e]?

/-- The vertex of an id that must name one. -/
def vertex (g : Graph) (v : Nat) : Except Failure Vertex :=
  (g.vertex? v).elim (.error .outOfRange) .ok

/-- The edge of an id that must name one. -/
def edge (g : Graph) (e : Nat) : Except Failure Edge :=
  (g.edge? e).elim (.error .outOfRange) .ok

/-- Whether an id names a contracted vertex. -/
def isProcessed (g : Graph) (v : Nat) : Bool :=
  (g.vertex? v).any (·.processed)

/-- The vertices not contracted yet, ascending. -/
def unprocessed (g : Graph) : List Nat :=
  (g.vertices.toList.filter (!·.processed)).map (·.id)

/-- Fails for an id that is not a vertex. -/
def requireVertex (g : Graph) (v : Nat) : Except Failure Unit :=
  if v < g.vertexCount then .ok () else .error (.graph (.unknownVertex v))

/-- Fails for an id that is not an edge. -/
def requireEdge (g : Graph) (e : Nat) : Except Failure Unit :=
  if e < g.edgeCount then .ok () else .error (.graph (.unknownEdge e))

/-- Appends a vertex; its id is the number of vertices before. -/
def addVertex (g : Graph) (lat lon : Float) : Nat × Graph :=
  (g.vertexCount,
    { g with
      vertices := g.vertices.push (.fresh g.vertexCount lat lon),
      touching := g.touching.push #[] })

/-- Notes that an edge has an end at `v`. -/
def touch (touching : Array (Array Nat)) (e v : Nat) : Array (Array Nat) :=
  touching.modify v (·.push e)

/-- Fails for an edge whose ends are no vertices or that stands for no input edge. -/
def requireEnds (g : Graph) (source target count : Nat) : Except Failure Unit :=
  let ends := [source, target]
  match ends.find? (g.vertexCount ≤ ·) with
  | some v => .error (.graph (.unknownEndpoint g.edgeCount v))
  | none => if count = 0 then .error (.graph (.representsNothing g.edgeCount)) else .ok ()

/-- Appends an edge after checking it; its id is the number of edges before. -/
def pushEdge (g : Graph) (source target weight count : Nat) (pair : Option (Nat × Nat))
    (bidirectional : Bool) : Except Failure (Nat × Graph) := do
  g.requireEnds source target count
  let id := g.edgeCount
  let atSource := touch g.touching id source
  return (id,
    { g with
      edges := g.edges.push ⟨id, source, target, weight, count, bidirectional, pair, false⟩,
      touching := if source = target then atSource else touch atSource id target })

/-- Appends an input edge. -/
def addEdge (g : Graph) (source target weight : Nat) (bidirectional : Bool) :
    Except Failure (Nat × Graph) :=
  g.pushEdge source target weight 1 none bidirectional

/-- Appends a shortcut that stands for the two edges of `pair`, driven one after the other. -/
def addShortcut (g : Graph) (source target weight count : Nat) (pair : Nat × Nat)
    (bidirectional : Bool) : Except Failure (Nat × Graph) := do
  g.requireEdge pair.1
  g.requireEdge pair.2
  g.pushEdge source target weight count (some pair) bidirectional

/-- Flags an edge as removed, which may happen once. -/
def markRemoved (g : Graph) (e : Nat) : Except Failure Graph := do
  g.requireEdge e
  if (g.edge? e).any (·.removed) then throw (.invariant (.removedTwice e))
  return { g with edges := g.edges.modify e ({ · with removed := true }) }

/-- Flags a vertex as contracted in `round`, which may happen once. -/
def markProcessed (g : Graph) (v round : Nat) : Except Failure Graph := do
  g.requireVertex v
  if g.isProcessed v then throw (.invariant (.processedTwice v))
  let contracted := g.vertices.modify v ({ · with processed := true, round := some round })
  return { g with vertices := contracted }

/-- Changes the vertex of an id that must name one. -/
def updateVertex (g : Graph) (v : Nat) (change : Vertex → Vertex) : Except Failure Graph := do
  let _ ← g.vertex v
  return { g with vertices := g.vertices.modify (position g.vertexCount v) change }

/-- Sets the contraction priority of a vertex. -/
def setPriority (g : Graph) (v : Nat) (priority : Float) : Except Failure Graph :=
  g.updateVertex v ({ · with priority })

/-- Raises the hierarchy depth of a vertex to at least `depth`. -/
def raiseDepth (g : Graph) (v depth : Nat) : Except Failure Graph :=
  g.updateVertex v fun old => { old with depth := max old.depth depth }

end Graph

end RoadHierarchy
