import RoadHierarchy.Queue.Heap

/-! # Keyed queues

A queue of keys with priorities that can be lowered. Lowering a priority adds an entry and leaves
the old one in place; an entry counts only while it carries its key's present priority, and one
that does not is dropped when it comes up.
-/

namespace RoadHierarchy

/-- A heap of entries with the lowest priority first, and the present priority of every queued
key. -/
structure KeyedQueue (κ π : Type) where
  heap : Array (κ × π)
  queued : List (κ × π)

namespace KeyedQueue

variable {κ π : Type}

/-- The queue that holds no key. -/
def empty : KeyedQueue κ π := ⟨#[], []⟩

/-- The entries, those that count and the stale ones. -/
def entries (q : KeyedQueue κ π) : List (κ × π) :=
  q.heap.toList

/-- The present priority of a key. -/
def priority? [BEq κ] (q : KeyedQueue κ π) (key : κ) : Option π :=
  q.queued.lookup key

variable [LT π] [DecidableLT π]

/-- An entry may come before another one unless the priority of the other is lower. -/
def due (a b : κ × π) : Bool :=
  !decide (b.2 < a.2)

variable [BEq κ]

/-- Gives a key a priority, in place of one it may have. -/
def assign (q : KeyedQueue κ π) (key : κ) (priority : π) : KeyedQueue κ π where
  heap := Heap.push due q.heap (key, priority)
  queued := (key, priority) :: q.queued.filter (!·.1 == key)

/-- Queues a key, or lowers its priority. The answer is whether the queue has changed. -/
def pushOrDecrease (q : KeyedQueue κ π) (key : κ) (priority : π) : Bool × KeyedQueue κ π :=
  if (q.priority? key).any (fun present => !decide (priority < present)) then (false, q)
  else (true, q.assign key priority)

variable [BEq π]

/-- Takes out entries up to the first one that counts. -/
def firstPresent (queued : List (κ × π)) (heap : Array (κ × π)) :
    Option ((κ × π) × Array (κ × π)) :=
  match _ : Heap.pop? due heap with
  | none => none
  | some (entry, rest) =>
      if queued.lookup entry.1 == some entry.2 then some (entry, rest) else firstPresent queued rest
termination_by heap.size
decreasing_by exact Heap.size_pop? ‹_›

/-- Takes out a key of lowest priority. -/
def pop (q : KeyedQueue κ π) : Option (κ × π) × KeyedQueue κ π :=
  match firstPresent q.queued q.heap with
  | none => (none, { q with heap := #[] })
  | some (entry, rest) => (some entry, ⟨rest, q.queued.filter (!·.1 == entry.1)⟩)

end KeyedQueue

end RoadHierarchy
