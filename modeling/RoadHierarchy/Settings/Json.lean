import RoadHierarchy.Graph.Json
import RoadHierarchy.Settings.Basic

/-! # Settings in JSON -/

namespace RoadHierarchy.Settings

/-- The names of the settings in files, in the order of their declaration. -/
def names : List String :=
  ["search_space_hop_limit", "k_neighborhood", "edge_quotient_factor", "hierarchy_depths_factor",
    "original_edge_quotient_factor", "num_threads", "batch_size"]

/-- The record of the settings. -/
def toJson (s : Settings) : Json :=
  .ofFields
    [("search_space_hop_limit", .ofNat s.searchSpaceHopLimit),
      ("k_neighborhood", .ofNat s.kNeighborhood),
      ("edge_quotient_factor", .ofFloat s.edgeQuotientFactor),
      ("hierarchy_depths_factor", .ofFloat s.hierarchyDepthsFactor),
      ("original_edge_quotient_factor", .ofFloat s.inputEdgeQuotientFactor),
      ("num_threads", .ofNat s.numThreads),
      ("batch_size", .ofNat s.batchSize)]

/-- Reads settings; what is missing has its default, and what is unknown is refused. -/
def ofJson? (value : Json) : Option Settings := do
  let base : Settings := {}
  let r ← value.record? names .refused
  let factor := fun name default => r.withDefault name default Json.float?
  return {
    searchSpaceHopLimit :=
      ← r.withDefault "search_space_hop_limit" base.searchSpaceHopLimit Json.count?
    kNeighborhood := ← r.withDefault "k_neighborhood" base.kNeighborhood Json.count?
    edgeQuotientFactor := ← factor "edge_quotient_factor" base.edgeQuotientFactor
    hierarchyDepthsFactor := ← factor "hierarchy_depths_factor" base.hierarchyDepthsFactor
    inputEdgeQuotientFactor :=
      ← factor "original_edge_quotient_factor" base.inputEdgeQuotientFactor
    numThreads := ← r.withDefault "num_threads" base.numThreads Json.id?
    batchSize := ← r.withDefault "batch_size" base.batchSize Json.id? }

end RoadHierarchy.Settings
