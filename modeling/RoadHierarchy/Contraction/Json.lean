import RoadHierarchy.Contraction.Hierarchy
import RoadHierarchy.Settings.Json

/-! # Hierarchies in JSON -/

namespace RoadHierarchy

/-- A span of time in seconds and nanoseconds. -/
def durationJson (nanoseconds : Nat) : Json :=
  .ofFields
    [("secs", .ofNat (nanoseconds / 1000000000)), ("nanos", .ofNat (nanoseconds % 1000000000))]

/-- The record of the statistics. A run that has not been timed has a null time. -/
def Statistics.toJson (s : Statistics) (elapsed : Option Nat) : Json :=
  .ofFields
    [("rounds", .ofNat s.rounds), ("vertices_contracted", .ofNat s.verticesContracted),
      ("shortcuts_added", .ofNat s.shortcutsAdded), ("edges_removed", .ofNat s.edgesRemoved),
      ("simulations", .ofNat s.simulations), ("max_hierarchy_depth", .ofNat s.maxDepth),
      ("elapsed", .ofOption durationJson elapsed)]

/-- The record of a hierarchy with the settings it was built with. -/
def Hierarchy.toJson (h : Hierarchy) (s : Settings) (elapsed : Option Nat) : Json :=
  .ofFields
    [("settings", s.toJson), ("statistics", h.statistics.toJson elapsed),
      ("vertices", .ofList Vertex.toJson h.graph.vertices.toList),
      ("edges", .ofList Edge.toJson h.graph.edges.toList)]

end RoadHierarchy
