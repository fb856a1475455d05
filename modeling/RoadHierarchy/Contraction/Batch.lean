import RoadHierarchy.Failure

/-! # Batches

A round's vertices are handed out in batches to whichever worker asks next. The workers share a
cursor that counts modulo `2 ^ 64`: asking moves it on by one batch, also when no vertex is left.
-/

namespace RoadHierarchy

/-- The vertices of a round and the start of the next batch. -/
structure BatchSource where
  vertices : List Nat
  size : Nat
  cursor : Nat
  size_pos : 0 < size

namespace BatchSource

/-- A source that has handed out nothing yet. A batch has at least one vertex. -/
def ofVertices (vertices : List Nat) (size : Nat) : BatchSource :=
  ⟨vertices, max 1 size, 0, by omega⟩

/-- The source after someone has asked. -/
def advance (source : BatchSource) : BatchSource :=
  { source with cursor := (source.cursor + source.size) % 0x10000000000000000 }

/-- The next batch, unless the round is used up. The end of a batch must be a 64-bit number, even
when the list ends earlier. -/
def next (source : BatchSource) : Except Failure (Option (List Nat) × BatchSource) :=
  if source.vertices.length ≤ source.cursor then .ok (none, source.advance)
  else if source.cursor + source.size < 0x10000000000000000 then
    .ok (some ((source.vertices.drop source.cursor).take source.size), source.advance)
  else .error .overflow

/-- The number of vertices at or after the cursor. -/
def remaining (source : BatchSource) : Nat :=
  source.vertices.length - source.cursor

/-- Every batch leaves fewer vertices. -/
theorem remaining_lt_of_next {source rest : BatchSource} {batch : List Nat}
    (given : source.next = .ok (some batch, rest)) : rest.remaining < source.remaining := by
  unfold next at given
  split at given
  · simp at given
  · split at given
    · obtain ⟨-, rfl⟩ := by simpa using given
      have positive := source.size_pos
      have bound : source.cursor + source.size < 0x10000000000000000 := by assumption
      simp only [remaining, advance, Nat.mod_eq_of_lt bound]
      omega
    · simp at given

/-- Asks a number of times, for nobody. The first answer is how many of the requests got a
batch. -/
def skip : Nat → BatchSource → Except Failure (Nat × BatchSource)
  | 0, source => .ok (0, source)
  | requests + 1, source => do
      let (batch, rest) ← source.next
      let (served, last) ← skip requests rest
      return ((if batch.isSome then served + 1 else served), last)

/-- The answers to a number of requests. -/
def requests : Nat → BatchSource → Except Failure (List (Option (List Nat)))
  | 0, _ => .ok []
  | count + 1, source => do
      let (batch, rest) ← source.next
      return batch :: (← requests count rest)

end BatchSource

end RoadHierarchy
