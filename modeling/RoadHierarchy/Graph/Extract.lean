import RoadHierarchy.Graph.Basic

/-! # Extracted road networks

A network as it comes from the extraction of map data. Its weights are signed and its ids are not
checked, so that a broken network can be described and then refused.
-/

namespace RoadHierarchy

/-- An extracted junction. -/
structure Junction where
  lat : Float
  lon : Float
  deriving BEq

/-- An extracted road. -/
structure Road where
  source : Nat
  target : Nat
  weight : Int
  bidirectional : Bool
  deriving DecidableEq

/-- Junctions and roads, each named by its position. -/
structure Extract where
  junctions : List Junction
  roads : List Road
  deriving BEq

namespace Graph

/-- Adds a road as an edge; its weight must not be negative. -/
def addRoad (g : Graph) (road : Road) : Except Failure Graph :=
  if road.weight < 0 then .error (.graph (.negativeWeight g.edgeCount road.weight))
  else (·.2) <$> g.addEdge road.source road.target road.weight.toNat road.bidirectional

/-- The graph with one vertex for each junction. -/
def ofJunctions (junctions : List Junction) : Graph :=
  junctions.foldl (fun g junction => (g.addVertex junction.lat junction.lon).2) .empty

/-- The graph of an extracted network, or the first flaw of its roads. -/
def ofExtract (extract : Extract) : Except Failure Graph :=
  extract.roads.foldlM addRoad (ofJunctions extract.junctions)

end Graph

end RoadHierarchy
