import RoadHierarchy.Contraction.Simulation
import RoadHierarchy.Contraction.Statistics
import RoadHierarchy.Queue.Agenda

/-! # Committing a round

The simulated contractions of one independent set are written into the graph. For each vertex, in
ascending order, its shortcuts are added, edges that they make obsolete are removed, its neighbours
are put above it in the hierarchy, and it is flagged as processed. What would break a rule of the
contraction is refused.
-/

namespace RoadHierarchy

/-- A graph on its way to a hierarchy, and what it has taken so far. -/
structure Hierarchy where
  graph : Graph
  statistics : Statistics

/-- The vertices that are contracted together. -/
structure Round where
  number : Nat
  members : List Nat

namespace Graph

/-- The shortcut makes the edge obsolete: it is lighter and can be driven wherever the edge can. -/
def isSuperseded (edge : Edge) (source weight : Nat) (bothWays : Bool) : Bool :=
  (bothWays || (!edge.bidirectional && edge.source == source)) && weight < edge.weight

/-- The live edges from `source` to `target`, or back, that a new shortcut makes obsolete. -/
def supersededEdges (g : Graph) (source target weight : Nat) (bothWays : Bool) : List Edge :=
  let between := (g.outgoing source ++ g.ingoing source).filter (·.other source == target)
  between.eraseDups.filter (isSuperseded · source weight bothWays)

/-- Fails if a shortcut of `v` would stand for a removed edge. -/
def requireLive (v : Nat) (edge : Edge) : Except Failure Unit :=
  if edge.removed then .error (.invariant (.bypassesRemoved v edge.id)) else .ok ()

end Graph

namespace Hierarchy

/-- Removes an edge that a shortcut makes obsolete. -/
def retire (h : Hierarchy) (edge : Edge) : Except Failure Hierarchy := do
  let graph ← h.graph.markRemoved edge.id
  let statistics := { h.statistics with edgesRemoved := h.statistics.edgesRemoved + 1 }
  return ⟨graph, statistics⟩

/-- Adds a shortcut and retires what it makes obsolete. -/
def addShortcut (round : Round) (v : Nat) (h : Hierarchy) (bypass : Bypass) :
    Except Failure Hierarchy := do
  let edgeIn ← h.graph.edge bypass.edgeIn
  let edgeOut ← h.graph.edge bypass.edgeOut
  let source := edgeIn.other v
  let target := edgeOut.other v
  Graph.requireLive v edgeIn
  Graph.requireLive v edgeOut
  if round.members.contains source || round.members.contains target then
    throw (.invariant (.sharesEdge v round.number))
  let weight ← addWord edgeIn.weight edgeOut.weight
  let count := addCount edgeIn.count edgeOut.count
  let obsolete := h.graph.supersededEdges source target weight bypass.bothWays
  let lighter ← obsolete.foldlM retire h
  let pair := (bypass.edgeIn, bypass.edgeOut)
  let (_, graph) ← lighter.graph.addShortcut source target weight count pair bypass.bothWays
  let shortcutsAdded := lighter.statistics.shortcutsAdded + 1
  return ⟨graph, { lighter.statistics with shortcutsAdded }⟩

/-- The unprocessed neighbours of a vertex. -/
def openNeighbors (h : Hierarchy) (v : Nat) : List Nat :=
  (h.graph.neighbors v).filter (!h.graph.isProcessed ·)

/-- Puts the unprocessed neighbours of a vertex above it and flags it as processed. Gives these
neighbours. -/
def close (round : Round) (h : Hierarchy) (v : Nat) : Except Failure (List Nat × Hierarchy) := do
  let depth ← addDepth (← h.graph.vertex v).depth 1
  let above := h.openNeighbors v
  let raised ← above.foldlM (fun g neighbor => g.raiseDepth neighbor depth) h.graph
  let graph ← raised.markProcessed v round.number
  let verticesContracted := h.statistics.verticesContracted + 1
  return (above, ⟨graph, { h.statistics with verticesContracted }⟩)

/-- Contracts one vertex of a round. -/
def contract (round : Round) (h : Hierarchy) (result : Nat × Simulation) :
    Except Failure (List Nat × Hierarchy) := do
  let bridged ← result.2.bypasses.foldlM (addShortcut round result.1) h
  bridged.close round result.1

/-- Contracts the vertices of a round in turn, and collects their neighbours. -/
def contractAll (round : Round) :
    List (Nat × Simulation) → Hierarchy → Except Failure (List Nat × Hierarchy)
  | [], h => .ok ([], h)
  | result :: rest, h => do
      let (above, next) ← h.contract round result
      let (later, last) ← contractAll round rest next
      return (above ++ later, last)

/-- Commits the simulations of a round. Gives the unprocessed neighbours of the round, ascending. -/
def applyRound (h : Hierarchy) (number : Nat) (results : List (Nat × Simulation)) :
    Except Failure (List Nat × Hierarchy) := do
  let ordered := Agenda.ofList (fun a b => a.1 ≤ b.1) results
  let round : Round := ⟨number, ordered.map (·.1)⟩
  let (above, last) ← contractAll round ordered h
  return (Ascending.ofList (above.filter (!round.members.contains ·)), last)

end Hierarchy

end RoadHierarchy
