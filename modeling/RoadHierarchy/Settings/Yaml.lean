import RoadHierarchy.Settings.Json
import RoadHierarchy.Yaml.Mapping
import RoadHierarchy.Yaml.Scalar

/-! # Settings in YAML -/

namespace RoadHierarchy.Settings

/-- Sets the setting that an entry names. -/
def assign (s : Settings) (entry : String × List Char) : Option Settings :=
  let (name, text) := entry
  match name with
  | "search_space_hop_limit" =>
      (Yaml.nat? 32 text).map fun limit => { s with searchSpaceHopLimit := limit }
  | "k_neighborhood" => (Yaml.nat? 32 text).map fun radius => { s with kNeighborhood := radius }
  | "edge_quotient_factor" =>
      (Yaml.float? text).map fun factor => { s with edgeQuotientFactor := factor }
  | "hierarchy_depths_factor" =>
      (Yaml.float? text).map fun factor => { s with hierarchyDepthsFactor := factor }
  | "original_edge_quotient_factor" =>
      (Yaml.float? text).map fun factor => { s with inputEdgeQuotientFactor := factor }
  | "num_threads" => (Yaml.nat? 64 text).map fun count => { s with numThreads := count }
  | "batch_size" => (Yaml.nat? 64 text).map fun size => { s with batchSize := size }
  | _ => none

/-- Reads settings from a YAML text; what is missing has its default. No key may be unknown or
repeated. -/
def ofYaml? (text : String) : Option Settings := do
  let entries ← Yaml.entries? text
  if Json.distinct (entries.map (·.1)) then entries.foldlM assign {} else none

end RoadHierarchy.Settings
