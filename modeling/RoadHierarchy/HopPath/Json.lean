import RoadHierarchy.HopPath.Basic
import RoadHierarchy.Json.Basic

/-! # Hop indices in JSON -/

namespace RoadHierarchy

/-- The record of a location. -/
def PathLocation.toJson (location : PathLocation) : Json :=
  .ofFields [("path_id", .ofNat location.path), ("offset", .ofNat location.offset)]

/-- Paths by id and locations by key, both in ascending numeric order. -/
def HopIndex.toJson (index : HopIndex) : Json :=
  let paths := index.paths.map fun (id, path) => (toString id, Json.ofList .ofNat path.edges)
  let locations := index.locations.map fun (key, location) => (toString key, location.toJson)
  .ofFields [("paths", .ofFields paths), ("locations", .ofFields locations)]

end RoadHierarchy
