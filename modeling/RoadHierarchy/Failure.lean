import RoadHierarchy.Decimal.Shortest

/-! # Failures

Every way in which building a hierarchy can stop, as a cause. The wording of a cause is in one
place, `Failure.message`.
-/

namespace RoadHierarchy

/-- Why settings cannot be used. -/
inductive SettingsFlaw where
  | noThreads
  | noNeighborhood
  | noBatch
  | unusableFactor (name : String) (factor : Float)
  | orderLength (given unprocessed : Nat)
  /-- A flaw that a caller states in its own words. -/
  | stated (reason : String)

/-- Why a graph makes no sense. -/
inductive GraphFlaw where
  | unknownVertex (vertex : Nat)
  | unknownEdge (edge : Nat)
  | unknownEndpoint (edge vertex : Nat)
  | representsNothing (edge : Nat)
  | negativeWeight (edge : Nat) (weight : Int)
  | unknownInOrder (vertex : Nat)
  /-- A flaw that a caller states in its own words. -/
  | stated (reason : String)

/-- Which rule of the contraction was broken. -/
inductive Breach where
  | removedTwice (edge : Nat)
  | processedTwice (vertex : Nat)
  | bypassesRemoved (vertex edge : Nat)
  | sharesEdge (vertex round : Nat)
  | simulatedTwice (vertex : Nat)
  | notSimulated (vertex : Nat)
  /-- A breach that a caller states in its own words. -/
  | stated (reason : String)

/-- Everything that can stop the building of a hierarchy. -/
inductive Failure where
  | settings (flaw : SettingsFlaw)
  | graph (flaw : GraphFlaw)
  /-- A round found no vertex to contract. -/
  | stalled (remaining : Nat)
  | invariant (breach : Breach)
  /-- An id without a check named nothing. -/
  | outOfRange
  /-- A sum did not fit its width. -/
  | overflow

namespace SettingsFlaw

/-- The wording of a flaw, by the names that settings have in files. -/
def reason : SettingsFlaw → String
  | noThreads => "num_threads must be at least 1"
  | noNeighborhood =>
      "k_neighborhood must be at least 1, otherwise adjacent vertices share a round"
  | noBatch => "batch_size must be at least 1"
  | unusableFactor name factor =>
      s!"{name} must be a finite non-negative number, got {Decimal.plainText factor}"
  | orderLength given unprocessed =>
      s!"contraction order has {given} vertices, the graph {unprocessed} unprocessed ones"
  | stated reason => reason

end SettingsFlaw

namespace GraphFlaw

/-- An edge's unknown endpoint is reported as the inconsistency that the edge met. -/
def reason : GraphFlaw → String
  | unknownVertex vertex => s!"unknown vertex {vertex}"
  | unknownEdge edge => s!"unknown edge {edge}"
  | unknownEndpoint edge vertex => s!"edge {edge}: inconsistent graph: unknown vertex {vertex}"
  | representsNothing edge => s!"edge {edge} represents no input edge"
  | negativeWeight edge weight => s!"edge {edge} has negative weight {weight}"
  | unknownInOrder vertex => s!"unknown vertex {vertex} in contraction order"
  | stated reason => reason

end GraphFlaw

namespace Breach

/-- The wording of a breach. -/
def reason : Breach → String
  | removedTwice edge => s!"edge {edge} removed twice"
  | processedTwice vertex => s!"vertex {vertex} processed twice"
  | bypassesRemoved vertex edge => s!"shortcut of vertex {vertex} bypasses removed edge {edge}"
  | sharesEdge vertex round =>
      s!"vertex {vertex} shares an edge with another vertex of round {round}"
  | simulatedTwice vertex => s!"vertex {vertex} simulated twice in one round"
  | notSimulated vertex => s!"vertex {vertex} was not simulated"
  | stated reason => reason

end Breach

/-- The text a failure is reported with. -/
def Failure.message : Failure → String
  | settings flaw => s!"invalid preprocessor settings: {flaw.reason}"
  | graph flaw => s!"inconsistent graph: {flaw.reason}"
  | stalled remaining =>
      s!"no independent vertex found while {remaining} vertices remain unprocessed"
  | invariant breach => s!"contraction invariant violated: {breach.reason}"
  | outOfRange => "index out of range"
  | overflow => "integer overflow"

end RoadHierarchy
