import RoadHierarchy.Failure

/-! # Settings of a run

The knobs of the contraction, their defaults, and the check that they can be used.
-/

namespace RoadHierarchy

/-- The knobs of the contraction; they do not change during a run. -/
structure Settings where
  /-- The largest number of edges of a witness path; with 0 there is no witness search. -/
  searchSpaceHopLimit : Nat := 5
  /-- The radius, in hops, of the neighbourhood in which a vertex must rank lowest. -/
  kNeighborhood : Nat := 2
  /-- The weight in the priority of shortcuts added per edge bypassed. -/
  edgeQuotientFactor : Float := 2
  /-- The weight of the hierarchy depth in the priority. -/
  hierarchyDepthsFactor : Float := 1
  /-- The weight in the priority of input edges added per input edge bypassed. -/
  inputEdgeQuotientFactor : Float := 1
  /-- The number of workers. -/
  numThreads : Nat := 4
  /-- The number of vertices a worker takes at a time. -/
  batchSize : Nat := 32

namespace Settings

/-- The factors under the names they are reported with. -/
def factors (s : Settings) : List (String × Float) :=
  [("edge_quotient_factor", s.edgeQuotientFactor),
    ("hierarchy_depths_factor", s.hierarchyDepthsFactor),
    ("original_edge_quotient_factor", s.inputEdgeQuotientFactor)]

/-- A factor is finite and not below zero. -/
def isUsableFactor (factor : Float) : Bool :=
  factor.isFinite && !(factor < 0)

/-- The first flaw of the settings. -/
def flaw? (s : Settings) : Option SettingsFlaw :=
  if s.numThreads = 0 then some .noThreads
  else if s.kNeighborhood = 0 then some .noNeighborhood
  else if s.batchSize = 0 then some .noBatch
  else (s.factors.find? (!isUsableFactor ·.2)).map fun (name, factor) => .unusableFactor name factor

/-- Refuses settings that the contraction cannot run with. -/
def validate (s : Settings) : Except Failure Unit :=
  s.flaw?.elim (.ok ()) (.error <| .settings ·)

end Settings

end RoadHierarchy
