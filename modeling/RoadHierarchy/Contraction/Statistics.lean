/-! # Statistics of a run -/

namespace RoadHierarchy

/-- What it took to build a hierarchy. -/
structure Statistics where
  rounds : Nat
  verticesContracted : Nat
  shortcutsAdded : Nat
  /-- Edges that a lighter shortcut has superseded. -/
  edgesRemoved : Nat
  /-- Simulated contractions, for ranking and for contracting. -/
  simulations : Nat
  /-- The largest hierarchy depth of any vertex. -/
  maxDepth : Nat
  deriving DecidableEq

/-- Nothing has been done yet. -/
def Statistics.zero : Statistics := ⟨0, 0, 0, 0, 0, 0⟩

end RoadHierarchy
