import RoadHierarchy.Failure

/-! # Sums of bounded width

Weights, distances and counts are natural numbers of a fixed width. A sum that leaves its width is
a failure, except where a count is allowed to stop at its ceiling.
-/

namespace RoadHierarchy

/-- The sum, if it fits into `width` bits. -/
def addWithin (width a b : Nat) : Except Failure Nat :=
  if a + b < 1 <<< width then .ok (a + b) else .error .overflow

/-- Weights, distances and positions have 64 bits. -/
abbrev addWord (a b : Nat) : Except Failure Nat := addWithin 64 a b

/-- Depths have 32 bits. -/
abbrev addDepth (a b : Nat) : Except Failure Nat := addWithin 32 a b

/-- The largest count of input edges that an edge can state. -/
def countCeiling : Nat := 0xffffffff

/-- The sum of two edge counts, held at the ceiling. -/
def addCount (a b : Nat) : Nat := min (a + b) countCeiling

theorem addWithin_eq_ok_iff {width a b sum : Nat} :
    addWithin width a b = .ok sum ↔ sum = a + b ∧ a + b < 1 <<< width := by
  unfold addWithin
  split <;> simp_all [eq_comm]

end RoadHierarchy
