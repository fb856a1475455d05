import RoadHierarchy.Contraction.Priority
import RoadHierarchy.Queue.Agenda

/-! # Selection of a round

The vertices that may be contracted together: those that rank below every other unprocessed vertex
in their neighbourhood. The neighbourhood is explored level by level over live edges in both
directions, only through unprocessed vertices.
-/

namespace RoadHierarchy

/-- The part of a neighbourhood that has been explored. -/
structure Neighborhood where
  visited : List Nat
  /-- Vertices of the level that is being explored. -/
  fringe : List Nat

namespace Graph

/-- Visits a vertex, unless it ranks below the centre. -/
def visit (g : Graph) (centre : Rank) (seen : Neighborhood) (v : Nat) : Option Neighborhood :=
  if g.isProcessed v || seen.visited.contains v then some seen
  else if (g.rank v).before centre then none
  else some ⟨v :: seen.visited, v :: seen.fringe⟩

/-- Visits the next level; `none` when one of its vertices ranks below the centre. -/
def widen (g : Graph) (centre : Rank) (seen : Neighborhood) : Option Neighborhood :=
  (seen.fringe.flatMap g.neighbors).foldlM (g.visit centre) { seen with fringe := [] }

/-- Whether the centre ranks lowest within the given number of levels. -/
def ranksLowest (g : Graph) (centre : Rank) : Nat → Neighborhood → Bool
  | 0, _ => true
  | levels + 1, seen =>
      match g.widen centre seen with
      | none => false
      | some wider => wider.fringe.isEmpty || g.ranksLowest centre levels wider

/-- Whether a vertex ranks lowest among the unprocessed vertices within `radius` hops. -/
def isIndependent (g : Graph) (radius v : Nat) : Bool :=
  g.ranksLowest (g.rank v) radius ⟨[v], [v]⟩

/-- Whether a vertex that must exist ranks lowest within `radius` hops. -/
def independence (g : Graph) (radius v : Nat) : Except Failure Bool := do
  let _ ← g.vertex v
  return g.isIndependent radius v

/-- The unprocessed vertices in ascending rank. -/
def ranking (g : Graph) : List Nat :=
  Agenda.ofList (fun a b => (g.rank a).before (g.rank b)) g.unprocessed

/-- All independent unprocessed vertices, in ascending rank. -/
def independentSet (g : Graph) (radius : Nat) : List Nat :=
  g.ranking.filter (g.isIndependent radius)

end Graph

end RoadHierarchy
