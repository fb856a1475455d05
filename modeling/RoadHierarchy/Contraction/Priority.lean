import RoadHierarchy.Contraction.Simulation
import RoadHierarchy.Settings.Basic

/-! # Priorities and ranks

The priority of a vertex is a weighted sum over its simulated contraction. Its rank is its priority
and then its id, in a total order.
-/

namespace RoadHierarchy

/-- A quotient of counts; with nothing to divide by it is 0. -/
def quotient (numerator denominator : Nat) : Float :=
  if denominator = 0 then 0 else numerator.toFloat / denominator.toFloat

/-- A summand of the priority; with factor 0 it is left out. -/
def addTerm (sum factor term : Float) : Float :=
  if factor == 0 then sum else sum + factor * term

/-- The priority of a vertex: shortcuts per bypassed edge, depth plus one, and input edges added per
input edge bypassed, summed in this order. -/
def Settings.priority (s : Settings) (simulation : Simulation) (depth : Nat) : Float :=
  let edges := quotient simulation.shortcuts simulation.bypassedEdges
  let inputEdges := quotient simulation.countAdded simulation.countRemoved
  let first := addTerm 0 s.edgeQuotientFactor edges
  let second := addTerm first s.hierarchyDepthsFactor (depth.toFloat + 1)
  addTerm second s.inputEdgeQuotientFactor inputEdges

/-- A float's place in a total order of all floats: both zeros have one place, and NaN comes last.
The bits of a double, read as sign and magnitude, ascend with its value. -/
def place (x : Float) : Int :=
  if x.isNaN then 0x8000000000000000
  else
    let bits := x.toBits.toNat
    if bits < 0x8000000000000000 then bits else 0x8000000000000000 - (bits : Int)

/-- Priority first, id second. -/
structure Rank where
  place : Int
  id : Nat
  deriving DecidableEq

namespace Rank

/-- Ranks are compared lexicographically. -/
def before (a b : Rank) : Bool :=
  a.place < b.place || (a.place == b.place && a.id < b.id)

end Rank

/-- The rank of a vertex by the priority noted in the graph. -/
def Graph.rank (g : Graph) (v : Nat) : Rank :=
  ⟨((g.vertex? v).map (place ·.priority)).getD 0, v⟩

end RoadHierarchy
