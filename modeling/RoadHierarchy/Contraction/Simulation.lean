import RoadHierarchy.Contraction.Witness

/-! # Simulated contractions

What contracting a vertex would do to the graph, found without touching it. For every edge into the
vertex and every edge out of it, between different unprocessed vertices, a shortcut is needed
unless a witness makes it unnecessary.
-/

namespace RoadHierarchy

/-- A shortcut that a contraction needs. -/
structure Bypass where
  /-- The edge into the contracted vertex. -/
  edgeIn : Nat
  /-- The edge out of it. -/
  edgeOut : Nat
  /-- The shortcut is needed in both directions. -/
  bothWays : Bool
  deriving DecidableEq

/-- The number of directions in which the shortcut is needed. -/
def Bypass.multiplicity (b : Bypass) : Nat := if b.bothWays then 2 else 1

/-- What the contraction of a vertex would do. -/
structure Simulation where
  /-- The number of shortcuts, one for each direction. -/
  shortcuts : Nat
  /-- The number of different edges that shortcuts bypass. -/
  bypassedEdges : Nat
  /-- The shortcuts to create, ascending by edge in and edge out. -/
  bypasses : List Bypass
  /-- The number of input edges that the shortcuts stand for, one for each direction. -/
  countAdded : Nat
  /-- The number of input edges that the bypassed edges stand for. -/
  countRemoved : Nat
  deriving DecidableEq

namespace Simulation

/-- Joins the two directions of a shortcut. The one with the smaller edge in stays. -/
def pairUp (needed : List (Nat × Nat)) : List Bypass :=
  let kept := needed.filter fun (a, b) => a < b || !needed.contains (b, a)
  kept.map fun (a, b) => ⟨a, b, needed.contains (b, a)⟩

/-- The simulation in which these pairs of edges need a shortcut. -/
def ofNeeded (needed : List (Edge × Edge)) : Simulation :=
  let bypassed := (needed.flatMap fun (edgeIn, edgeOut) => [edgeIn, edgeOut]).eraseDups
  { shortcuts := needed.length
    bypassedEdges := bypassed.length
    bypasses := pairUp (needed.map fun (edgeIn, edgeOut) => (edgeIn.id, edgeOut.id))
    countAdded := needed.foldr (fun (edgeIn, edgeOut) sum => edgeIn.count + edgeOut.count + sum) 0
    countRemoved := bypassed.foldr (·.count + ·) 0 }

/-- The members of a list that pass a test; a test that fails ends the search. -/
def keep {α : Type} (test : α → Except Failure Bool) : List α → Except Failure (List α)
  | [] => .ok []
  | head :: rest => do
      let passes ← test head
      let kept ← keep test rest
      return if passes then head :: kept else kept

end Simulation

namespace Graph

/-- The edge leads to an unprocessed vertex other than `v`. -/
def leadsOn (g : Graph) (v : Nat) (edge : Edge) : Bool :=
  edge.other v != v && !g.isProcessed (edge.other v)

/-- The pairs of an edge into `v` and an edge out of it that join two different vertices. -/
def passages (g : Graph) (v : Nat) : List (Edge × Edge) :=
  let into := (g.ingoing v).filter (g.leadsOn v)
  let out := (g.outgoing v).filter (g.leadsOn v)
  (into.flatMap fun edgeIn => out.map (edgeIn, ·)).filter fun (edgeIn, edgeOut) =>
    edgeIn.other v != edgeOut.other v

/-- Whether no witness replaces driving over the two edges. -/
def needsShortcut (g : Graph) (hopLimit v : Nat) (avoids : Nat → Bool) (passage : Edge × Edge) :
    Except Failure Bool := do
  let limit ← addWord passage.1.weight passage.2.weight
  let query : Witness.Query := ⟨g, passage.2.other v, limit, hopLimit, avoids⟩
  return !(← query.hasPathFrom (passage.1.other v))

/-- Simulates the contraction of `v` with witnesses that stay clear of the vertices `avoids` names,
`v` among them. -/
def simulateAvoiding (g : Graph) (hopLimit v : Nat) (avoids : Nat → Bool) :
    Except Failure Simulation :=
  Simulation.ofNeeded <$> Simulation.keep (g.needsShortcut hopLimit v avoids) (g.passages v)

/-- Simulates the contraction of one vertex on its own, as ranking needs it. -/
def simulate (g : Graph) (hopLimit v : Nat) : Except Failure Simulation :=
  g.simulateAvoiding hopLimit v (· == v)

/-- Simulates the contraction of a vertex of a round. A witness through another vertex of the round
would be gone once the round is over. -/
def simulateInRound (g : Graph) (hopLimit v : Nat) (round : List Nat) :
    Except Failure Simulation :=
  g.simulateAvoiding hopLimit v fun other => other == v || round.contains other

end Graph

end RoadHierarchy
