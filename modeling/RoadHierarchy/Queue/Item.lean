import RoadHierarchy.Queue.Heap

/-! # Queue items

An item carries a payload under a priority. Items compare by urgency alone: the smaller the
priority the greater the item, and a queue that hands out its greatest item first serves the
smallest priority first.
-/

namespace RoadHierarchy

/-- A payload and the priority by which it is served. -/
structure Item (π α : Type) where
  priority : π
  payload : α

/-- A value whose order is turned round. -/
structure Reversed (π : Type) where
  value : π

/-- The smaller value is the greater one. -/
instance {π : Type} [Ord π] : Ord (Reversed π) :=
  ⟨fun a b => compare b.value a.value⟩

namespace Item

variable {π α : Type} [Ord π]

/-- The item of smaller priority is the greater one. -/
instance : Ord (Item π α) :=
  ⟨fun a b => compare b.priority a.priority⟩

/-- Two items are equal when neither is more urgent. -/
instance : BEq (Item π α) :=
  ⟨fun a b => compare a b == .eq⟩

/-- The items in the order in which a heap serves them that they are added to in turn, the greatest
first. -/
def inOrder (items : List (Item π α)) : List (Item π α) :=
  Heap.drain due (Heap.ofList due items)
where
  /-- An item may come before another one that is no greater. -/
  due (a b : Item π α) : Bool := (compare a b).isGE

end Item

end RoadHierarchy
