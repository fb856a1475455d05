import RoadHierarchy.Graph.Extract
import RoadHierarchy.Json.Record

/-! # Graph records in JSON -/

namespace RoadHierarchy

/-- Ids, weights and rounds have 64 bits. -/
def Json.id? : Json → Option Nat := Json.nat? 64

/-- Depths and edge counts have 32 bits. -/
def Json.count? : Json → Option Nat := Json.nat? 32

/-- Exactly two ids. -/
def Json.idPair? (value : Json) : Option (Nat × Nat) :=
  match value with
  | .array [first, second] => return (← first.id?, ← second.id?)
  | _ => none

namespace Vertex

/-- The record of a vertex. -/
def toJson (v : Vertex) : Json :=
  .ofFields
    [("id", .ofNat v.id), ("lat", .ofFloat v.lat), ("lon", .ofFloat v.lon),
      ("priority", .ofFloat v.priority), ("hierarchy_depth", .ofNat v.depth),
      ("processed", .bool v.processed), ("round", .ofOption .ofNat v.round)]

/-- Reads the record of a vertex; only the round may be missing. -/
def ofJson? (value : Json) : Option Vertex := do
  let names := ["id", "lat", "lon", "priority", "hierarchy_depth", "processed", "round"]
  let r ← value.record? names .ignored
  return {
    id := ← r.required "id" Json.id?
    lat := ← r.required "lat" Json.float?
    lon := ← r.required "lon" Json.float?
    priority := ← r.required "priority" Json.float?
    depth := ← r.required "hierarchy_depth" Json.count?
    processed := ← r.required "processed" Json.bool?
    round := ← r.nullable "round" Json.id? }

end Vertex

namespace Edge

/-- The record of an edge. -/
def toJson (e : Edge) : Json :=
  .ofFields
    [("id", .ofNat e.id), ("source", .ofNat e.source), ("target", .ofNat e.target),
      ("weight", .ofNat e.weight), ("original_edge_count", .ofNat e.count),
      ("bidirectional", .bool e.bidirectional),
      ("represented_pair",
        .ofOption (fun (first, second) => .array [.ofNat first, .ofNat second]) e.pair),
      ("removed", .bool e.removed)]

/-- Reads the record of an edge; only the pair may be missing. -/
def ofJson? (value : Json) : Option Edge := do
  let names := ["id", "source", "target", "weight", "original_edge_count", "bidirectional",
    "represented_pair", "removed"]
  let r ← value.record? names .ignored
  return {
    id := ← r.required "id" Json.id?
    source := ← r.required "source" Json.id?
    target := ← r.required "target" Json.id?
    weight := ← r.required "weight" Json.id?
    count := ← r.required "original_edge_count" Json.count?
    bidirectional := ← r.required "bidirectional" Json.bool?
    pair := ← r.nullable "represented_pair" Json.idPair?
    removed := ← r.required "removed" Json.bool? }

end Edge

namespace Junction

/-- The record of a junction. -/
def toJson (j : Junction) : Json :=
  .ofFields [("lat", .ofFloat j.lat), ("lon", .ofFloat j.lon)]

/-- Reads the record of a junction; a missing coordinate is 0. -/
def ofJson? (value : Json) : Option Junction := do
  let r ← value.record? ["lat", "lon"] .ignored
  return {
    lat := ← r.withDefault "lat" 0 Json.float?
    lon := ← r.withDefault "lon" 0 Json.float? }

end Junction

namespace Road

/-- The record of a road. -/
def toJson (road : Road) : Json :=
  .ofFields
    [("source", .ofNat road.source), ("target", .ofNat road.target), ("weight", .ofInt road.weight),
      ("bidirectional", .bool road.bidirectional)]

/-- Reads the record of a road; one that does not say so is driven one way. -/
def ofJson? (value : Json) : Option Road := do
  let r ← value.record? ["source", "target", "weight", "bidirectional"] .ignored
  return {
    source := ← r.required "source" Json.id?
    target := ← r.required "target" Json.id?
    weight := ← r.required "weight" Json.word?
    bidirectional := ← r.withDefault "bidirectional" false Json.bool? }

end Road

namespace Extract

/-- The record of a network. -/
def toJson (extract : Extract) : Json :=
  .ofFields
    [("vertices", .ofList Junction.toJson extract.junctions),
      ("edges", .ofList Road.toJson extract.roads)]

/-- Reads the record of a network. -/
def ofJson? (value : Json) : Option Extract := do
  let r ← value.record? ["vertices", "edges"] .ignored
  return {
    junctions := ← r.required "vertices" (Json.list? Junction.ofJson?)
    roads := ← r.required "edges" (Json.list? Road.ofJson?) }

end Extract

end RoadHierarchy
