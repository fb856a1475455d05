import RoadHierarchy.Graph.Basic

/-! # Unpacking shortcuts

A shortcut stands for two edges with smaller ids, which may be shortcuts themselves. Unpacking
replaces shortcuts by what they stand for until only input edges are left, in driving order.
-/

namespace RoadHierarchy

/-- An edge that is to be driven, and the vertex from which it is entered. -/
structure Leg where
  edge : Nat
  start : Nat

/-- The legs that a shortcut stands for when it is entered at `start`. A shortcut that is driven
from its target has them in reverse order, each driven the other way. -/
def Edge.legs (shortcut first : Edge) (pair : Nat × Nat) (start : Nat) : Leg × Leg :=
  let via := first.other shortcut.source
  if start = shortcut.source then (⟨pair.1, shortcut.source⟩, ⟨pair.2, via⟩)
  else (⟨pair.2, shortcut.target⟩, ⟨pair.1, via⟩)

namespace Graph

/-- The legs that a leg stands for; none if it is an input edge. Pairs name smaller ids, so a pair
that does not is not followed. -/
def split? (g : Graph) (leg : Leg) : Option (Leg × Leg) := do
  let shortcut ← g.edge? leg.edge
  let pair ← shortcut.pair
  let first ← g.edge? pair.1
  if pair.1 < leg.edge ∧ pair.2 < leg.edge then some (shortcut.legs first pair leg.start) else none

/-- Both halves of a shortcut have smaller ids. -/
theorem lt_of_split?_eq_some {g : Graph} {leg left right : Leg}
    (halves : g.split? leg = some (left, right)) :
    left.edge < leg.edge ∧ right.edge < leg.edge := by
  simp only [split?, Option.bind_eq_bind, Option.bind_eq_some_iff, Option.ite_none_right_eq_some]
    at halves
  obtain ⟨shortcut, -, pair, -, first, -, bound, halves⟩ := halves
  simp only [Edge.legs, Option.some.injEq] at halves
  split at halves <;> cases halves <;> simp [bound]

theorem three_pow_add_lt {a b c : Nat} (left : a < c) (right : b < c) :
    Nat.pow 3 a + Nat.pow 3 b < Nat.pow 3 c := by
  have three : 0 < 3 := by omega
  have first := Nat.pow_le_pow_right three (Nat.le_sub_one_of_lt left)
  have second := Nat.pow_le_pow_right three (Nat.le_sub_one_of_lt right)
  have whole : 3 ^ c = 3 * 3 ^ (c - 1) := by
    rw [← Nat.pow_succ']
    congr 1
    omega
  have := Nat.pow_pos (n := c - 1) three
  simp only [Nat.pow_eq]
  omega

/-- Drives the pending legs from first to last. -/
def drive (g : Graph) : List Leg → List Nat
  | [] => []
  | leg :: rest =>
      match _halves : g.split? leg with
      | none => leg.edge :: g.drive rest
      | some (left, right) => g.drive (left :: right :: rest)
  termination_by legs => legs.foldr (fun leg total => Nat.pow 3 leg.edge + total) 0
  decreasing_by
    · simp only [List.foldr_cons]
      have : 0 < Nat.pow 3 leg.edge := Nat.pow_pos (by omega)
      omega
    · simp only [List.foldr_cons]
      obtain ⟨lower, upper⟩ := lt_of_split?_eq_some _halves
      have := three_pow_add_lt lower upper
      omega

/-- The input edges an edge stands for, in driving order from its source. -/
def unpack (g : Graph) (e : Nat) : Except Failure (List Nat) := do
  let edge ← g.edge e
  return g.drive [⟨e, edge.source⟩]

end Graph

end RoadHierarchy
