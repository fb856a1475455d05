import RoadHierarchy.Proofs.Lookup
import RoadHierarchy.Queue.Keyed

/-! # The priorities of a keyed queue

A keyed queue is known by the present priority of every key: what each operation does to it is
stated here, and stale entries do not show.
-/

namespace RoadHierarchy.KeyedQueue

variable {κ π : Type} [BEq κ] [LawfulBEq κ]

theorem lookup_filter_ne (key other : κ) (pairs : List (κ × π)) :
    (pairs.filter (!·.1 == key)).lookup other =
      if other == key then none else pairs.lookup other := by
  rw [lookup_filter (fun kept => !kept == key)]
  cases other == key <;> rfl

section Push

variable [LT π] [DecidableLT π]

theorem priority?_assign (q : KeyedQueue κ π) (key other : κ) (priority : π) :
    (q.assign key priority).priority? other =
      if other == key then some priority else q.priority? other := by
  simp only [priority?, assign, List.lookup_cons, lookup_filter_ne]
  cases other == key <;> rfl

/-- A push that changes the queue gives the key its new priority and leaves all others alone. -/
theorem priority?_pushOrDecrease {q next : KeyedQueue κ π} {key : κ} {priority : π}
    (changed : q.pushOrDecrease key priority = (true, next)) (other : κ) :
    next.priority? other = if other == key then some priority else q.priority? other := by
  unfold pushOrDecrease at changed
  split at changed
  · cases changed
  · obtain rfl := (Prod.mk.inj changed).2
    exact q.priority?_assign key other priority

end Push

end RoadHierarchy.KeyedQueue
