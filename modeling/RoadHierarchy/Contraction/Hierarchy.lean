import RoadHierarchy.Contraction.Crew
import RoadHierarchy.Contraction.Round
import RoadHierarchy.Contraction.Selection

/-! # Building a hierarchy

A hierarchy is built by contracting every vertex of a graph. One strategy contracts, in each round,
the vertices that rank lowest in their neighbourhood, and ranks the vertices around them anew. The
other contracts one vertex a round in an order that is given.
-/

namespace RoadHierarchy

/-- The turns of the crew in each dispatch of a run. Dispatch 0 ranks the input; round `r` takes
dispatch `2 * r + 1` to simulate its vertices and `2 * r + 2` to rank their neighbours. -/
abbrev Schedule := Nat → List Nat

namespace Hierarchy

/-- Nothing has been contracted yet. -/
def start (g : Graph) : Hierarchy := ⟨g, .zero⟩

/-- Counts simulations. -/
def countSimulations (h : Hierarchy) (count : Nat) : Hierarchy :=
  { h with statistics.simulations := h.statistics.simulations + count }

/-- Writes the outcome of the run into the statistics. -/
def conclude (h : Hierarchy) (rounds : Nat) : Hierarchy :=
  let depths := h.graph.vertices.toList.map (·.depth)
  { h with statistics.rounds := rounds, statistics.maxDepth := depths.foldl max 0 }

/-- Notes the priority that a simulation gives its vertex. -/
def prioritize (s : Settings) (g : Graph) (result : Nat × Simulation) : Except Failure Graph := do
  let vertex ← g.vertex result.1
  g.setPriority result.1 (s.priority result.2 vertex.depth)

/-- Ranks vertices anew, each from a fresh simulation. -/
def rank (s : Settings) (turns : List Nat) (h : Hierarchy) (vertices : List Nat) :
    Except Failure Hierarchy := do
  let results ← h.graph.simulateAll s turns vertices
  let graph ← results.foldlM (prioritize s) h.graph
  return { h with graph }.countSimulations results.length

/-- Contracts one independent set and ranks its neighbours anew. -/
def step (s : Settings) (schedule : Schedule) (round : Nat) (h : Hierarchy) (members : List Nat) :
    Except Failure Hierarchy := do
  let results ← h.graph.simulateRound s (schedule (2 * round + 1)) members
  let (touched, next) ← (h.countSimulations results.length).applyRound round results
  next.rank s (schedule (2 * round + 2)) touched

/-- Runs round after round while vertices remain. Each entry of the list is how many vertices remain
after a round. -/
def rounds (s : Settings) (schedule : Schedule) (round remaining : Nat) (h : Hierarchy) :
    Except Failure (List Nat × Hierarchy) :=
  if remaining = 0 then .ok ([], h.conclude round)
  else
    match _chosen : h.graph.independentSet s.kNeighborhood with
    | [] => .error (.stalled remaining)
    | first :: others => do
        let left := remaining - (first :: others).length
        let next ← h.step s schedule round (first :: others)
        let (later, last) ← rounds s schedule (round + 1) left next
        return (left :: later, last)
  termination_by remaining
  decreasing_by simp only [List.length_cons]; omega

/-- Contracts every unprocessed vertex of a graph under the given turns. The list holds the number
of vertices contracted after each round. -/
def buildUnder (schedule : Schedule) (s : Settings) (g : Graph) :
    Except Failure (List Nat × Hierarchy) := do
  s.validate
  let total := g.unprocessed.length
  let ranked ← (start g).rank s (schedule 0) g.unprocessed
  let (remaining, last) ← ranked.rounds s schedule 0 total
  return (remaining.map (total - ·), last)

/-- Contracts every unprocessed vertex of a graph by priority. -/
def build (s : Settings) (g : Graph) : Except Failure (List Nat × Hierarchy) :=
  buildUnder (fun _ => []) s g

/-- Contracts one vertex as a round of its own; its priority is the number of the round. -/
def contractNext (s : Settings) (h : Hierarchy) (entry : Nat × Nat) : Except Failure Hierarchy := do
  let (v, round) := entry
  if h.graph.vertexCount ≤ v then throw (.graph (.unknownInOrder v))
  let simulation ← h.graph.simulate s.searchSpaceHopLimit v
  let graph ← h.graph.setPriority v round.toFloat
  let (_, next) ← ({ h with graph }.countSimulations 1).applyRound round [(v, simulation)]
  return next

/-- Contracts the unprocessed vertices of a graph in the given order. -/
def buildInOrder (s : Settings) (order : List Nat) (g : Graph) : Except Failure Hierarchy := do
  s.validate
  let total := g.unprocessed.length
  if order.length ≠ total then throw (.settings (.orderLength order.length total))
  let last ← order.zipIdx.foldlM (contractNext s) (start g)
  return last.conclude order.length

end Hierarchy

end RoadHierarchy
