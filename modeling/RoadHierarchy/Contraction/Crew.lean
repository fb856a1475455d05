import RoadHierarchy.Contraction.Batch
import RoadHierarchy.Contraction.Simulation
import RoadHierarchy.Settings.Basic

/-! # Crews

A crew simulates the contractions of one round. Its workers take batches from one source, in any
order: a list of turns says which worker asks next, and when the turns are used up each worker in
turn goes on until it finds the source empty. A worker that has found the source empty has stopped.
The results are collected by vertex, so the order of the turns does not show.
-/

namespace RoadHierarchy

/-- What one worker has done. -/
structure Worker where
  staged : List (Nat × Simulation)
  stopped : Bool

namespace Worker

/-- A worker that has not asked yet. -/
def idle : Worker := ⟨[], false⟩

/-- Simulates the vertices of a batch in turn. -/
def simulateBatch (simulate : Nat → Except Failure Simulation) :
    List Nat → Except Failure (List (Nat × Simulation))
  | [] => .ok []
  | v :: rest => do
      let simulation ← simulate v
      return (v, simulation) :: (← simulateBatch simulate rest)

/-- Asks once, and simulates what it gets. -/
def turn (simulate : Nat → Except Failure Simulation) (worker : Worker) (source : BatchSource) :
    Except Failure (Worker × BatchSource) :=
  if worker.stopped then .ok (worker, source)
  else do
    match ← source.next with
    | (none, rest) => return ({ worker with stopped := true }, rest)
    | (some batch, rest) =>
        let results ← simulateBatch simulate batch
        return ({ worker with staged := worker.staged ++ results }, rest)

/-- Asks until the source is empty; gives the results of the batches in order. -/
def drain (simulate : Nat → Except Failure Simulation) (source : BatchSource) :
    Except Failure (List (Nat × Simulation) × BatchSource) :=
  match _given : source.next with
  | .error failure => .error failure
  | .ok (none, rest) => .ok ([], rest)
  | .ok (some batch, rest) => do
      let results ← simulateBatch simulate batch
      let (later, last) ← drain simulate rest
      return (results ++ later, last)
  termination_by source.remaining
  decreasing_by exact BatchSource.remaining_lt_of_next _given

/-- Goes on until it has stopped. -/
def finish (simulate : Nat → Except Failure Simulation) (worker : Worker) (source : BatchSource) :
    Except Failure (Worker × BatchSource) :=
  if worker.stopped then .ok (worker, source)
  else do
    let (later, rest) ← drain simulate source
    return (⟨worker.staged ++ later, true⟩, rest)

end Worker

/-- The workers of a round and the source they share. -/
structure Crew where
  workers : List Worker
  source : BatchSource

namespace Crew

/-- A crew of idle workers. -/
def ofSize (size : Nat) (source : BatchSource) : Crew :=
  ⟨List.replicate size .idle, source⟩

/-- Gives the turn to the worker with this number, if there is one. -/
def turn (simulate : Nat → Except Failure Simulation) (crew : Crew) (number : Nat) :
    Except Failure Crew :=
  match crew.workers[number]? with
  | none => .ok crew
  | some worker => do
      let (done, source) ← worker.turn simulate crew.source
      return ⟨crew.workers.set number done, source⟩

/-- Lets every worker in turn go on until it has stopped. -/
def finish (simulate : Nat → Except Failure Simulation) :
    List Worker → BatchSource → Except Failure (List (Nat × Simulation))
  | [], _ => .ok []
  | worker :: rest, source => do
      let (done, later) ← worker.finish simulate source
      return done.staged ++ (← finish simulate rest later)

/-- Everything the crew has staged once all turns are taken and all workers have stopped, worker by
worker. -/
def run (simulate : Nat → Except Failure Simulation) (crew : Crew) (turns : List Nat) :
    Except Failure (List (Nat × Simulation)) := do
  let late ← turns.foldlM (turn simulate) crew
  finish simulate late.workers late.source

end Crew

/-- One place for the result of each vertex. -/
abbrev Slots := Array (Option Simulation)

namespace Slots

/-- Puts a result into its vertex's place, which must be free. -/
def fill (slots : Slots) (result : Nat × Simulation) : Except Failure Slots :=
  match slots[result.1]? with
  | none => .error .outOfRange
  | some (some _) => .error (.invariant (.simulatedTwice result.1))
  | some none => .ok (slots.setIfInBounds result.1 (some result.2))

/-- Takes the results of these vertices out of their places. -/
def collect : List Nat → Slots → Except Failure (List (Nat × Simulation))
  | [], _ => .ok []
  | v :: rest, slots =>
      match slots[v]? with
      | none => .error .outOfRange
      | some none => .error (.invariant (.notSimulated v))
      | some (some simulation) => do
          return (v, simulation) :: (← collect rest (slots.setIfInBounds v none))

end Slots

namespace Graph

/-- Shares the simulations of these vertices out to a crew, and gives the results in the order of
the vertices. No vertex may be listed twice. -/
def dispatch (g : Graph) (s : Settings) (turns : List Nat) (vertices : List Nat)
    (simulate : Nat → Except Failure Simulation) : Except Failure (List (Nat × Simulation)) := do
  let crew := Crew.ofSize s.numThreads (.ofVertices vertices s.batchSize)
  let staged ← crew.run simulate turns
  let slots ← staged.foldlM Slots.fill (Array.replicate g.vertexCount none)
  slots.collect vertices

/-- Simulates every vertex on its own, for ranking. -/
def simulateAll (g : Graph) (s : Settings) (turns vertices : List Nat) :
    Except Failure (List (Nat × Simulation)) :=
  g.dispatch s turns vertices (g.simulate s.searchSpaceHopLimit)

/-- Simulates the vertices of a round, for contraction. -/
def simulateRound (g : Graph) (s : Settings) (turns round : List Nat) :
    Except Failure (List (Nat × Simulation)) :=
  g.dispatch s turns round fun v => g.simulateInRound s.searchSpaceHopLimit v round

end Graph

end RoadHierarchy
