import RoadHierarchy.Graph.Adjacency
import RoadHierarchy.Queue.Keyed

/-! # Witness search

A witness is a path that makes a shortcut unnecessary: it is no longer than the shortcut would be,
has a limited number of edges, and stays clear of contracted vertices and of those about to be
contracted. The search settles vertices in the order of their distance. Hops are counted along the
best path found so far, so that a longer path with fewer edges can be missed; that costs a
shortcut, never a wrong distance.
-/

namespace RoadHierarchy.Witness

/-- What is looked for: a path to `target` of length at most `limit` with at most `hopLimit` edges,
through unprocessed vertices that `avoids` does not name. -/
structure Query where
  graph : Graph
  target : Nat
  limit : Nat
  hopLimit : Nat
  avoids : Nat → Bool

/-- How far a search has come. -/
structure Frontier where
  /-- Vertices that have been reached, by their distance. -/
  queue : KeyedQueue Nat Nat
  /-- The number of edges of the best path to each vertex reached; the latest entry counts. -/
  hops : List (Nat × Nat)
  /-- Vertices whose distance is final. -/
  settled : List Nat

/-- Only the start has been reached. -/
def Frontier.start (source : Nat) : Frontier :=
  ⟨(KeyedQueue.empty.pushOrDecrease source 0).2, [(source, 0)], []⟩

/-- The number of edges of the best path to a vertex that has been reached. -/
def Frontier.hopsTo (f : Frontier) (v : Nat) : Nat :=
  (f.hops.lookup v).getD 0

/-- Reaches a vertex over a path of the given length and number of edges. -/
def Frontier.reach (f : Frontier) (v distance hops : Nat) : Frontier :=
  match f.queue.pushOrDecrease v distance with
  | (true, queue) => { f with queue, hops := (v, hops) :: f.hops }
  | (false, _) => f

/-- The vertex that is settled next. -/
structure Stop where
  vertex : Nat
  distance : Nat
  hops : Nat

namespace Query

/-- The search does not go on to these vertices. -/
def skips (q : Query) (f : Frontier) (v : Nat) : Bool :=
  q.avoids v || f.settled.contains v || q.graph.isProcessed v

/-- Drives on over one edge. No frontier is left when that reaches the target. -/
def relax (q : Query) (stop : Stop) (f : Frontier) (edge : Edge) :
    Except Failure (Option Frontier) :=
  let next := edge.other stop.vertex
  if q.skips f next then .ok (some f)
  else do
    let distance ← addWord stop.distance edge.weight
    if q.limit < distance then return some f
    else if next = q.target then return none
    else return some (f.reach next distance (stop.hops + 1))

/-- Drives on over the edges in turn, until the target is reached. -/
def relaxAll (q : Query) (stop : Stop) : List Edge → Frontier → Except Failure (Option Frontier)
  | [], f => .ok (some f)
  | edge :: rest, f => do
      match ← q.relax stop f edge with
      | none => return none
      | some next => q.relaxAll stop rest next

/-- Settles the nearest vertices one after the other, at most as many as there are steps. -/
def settle (q : Query) : Nat → Frontier → Except Failure Bool
  | 0, _ => .ok false
  | steps + 1, f =>
      match f.queue.pop with
      | (none, _) => .ok false
      | (some (vertex, distance), queue) =>
          let f := { f with queue, settled := vertex :: f.settled }
          let stop : Stop := ⟨vertex, distance, f.hopsTo vertex⟩
          if q.hopLimit ≤ stop.hops then q.settle steps f
          else do
            match ← q.relaxAll stop (q.graph.outgoing vertex) f with
            | none => return true
            | some next => q.settle steps next

/-- Whether there is a path from `source` to the target. No vertex is settled twice, and only the
source may be a vertex the graph does not have. -/
def hasPathFrom (q : Query) (source : Nat) : Except Failure Bool :=
  if q.hopLimit = 0 then .ok false
  else if source = q.target then .ok true
  else q.settle (q.graph.vertexCount + 1) (.start source)

end Query

end RoadHierarchy.Witness
