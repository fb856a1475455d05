/-! # Agendas

A priority queue as the list of its entries in the order in which they are due. Every operation
takes the order `due a b`, which says that `a` may come before `b`. An agenda is for entries of
which one always has to come before the other; a queue with ties is a heap.
-/

namespace RoadHierarchy.Agenda

variable {α : Type}

/-- Adds an entry where it is due. -/
def insert (due : α → α → Bool) (entry : α) : List α → List α
  | [] => [entry]
  | head :: rest => if due entry head then entry :: head :: rest else head :: insert due entry rest

/-- The agenda of a list of entries. -/
def ofList (due : α → α → Bool) (entries : List α) : List α :=
  entries.foldr (insert due) []

/-- Merges an agenda into another one, given the step that merges all but the first entry. -/
def interleave (due : α → α → Bool) (entry : α) (rest : List α) (mergeRest : List α → List α) :
    List α → List α
  | [] => entry :: rest
  | head :: tail =>
      if due entry head then entry :: mergeRest (head :: tail)
      else head :: interleave due entry rest mergeRest tail

/-- The agenda with the entries of both. -/
def merge (due : α → α → Bool) : List α → List α → List α
  | [] => id
  | entry :: rest => interleave due entry rest (merge due rest)

theorem perm_insert (due : α → α → Bool) (entry : α) (agenda : List α) :
    (insert due entry agenda).Perm (entry :: agenda) := by
  induction agenda with
  | nil => exact .refl _
  | cons head rest ih =>
    unfold insert
    split
    · exact .refl _
    · exact (ih.cons head).trans (.swap entry head rest)

theorem perm_ofList (due : α → α → Bool) (entries : List α) :
    (ofList due entries).Perm entries := by
  induction entries with
  | nil => exact .refl _
  | cons head rest ih => exact (perm_insert due head _).trans (ih.cons head)

theorem perm_interleave (due : α → α → Bool) {entry : α} {rest : List α}
    {mergeRest : List α → List α} (merges : ∀ agenda, (mergeRest agenda).Perm (rest ++ agenda))
    (agenda : List α) :
    (interleave due entry rest mergeRest agenda).Perm (entry :: rest ++ agenda) := by
  induction agenda with
  | nil =>
    rw [List.append_nil]
    exact .refl _
  | cons head tail ih =>
    unfold interleave
    split
    · exact (merges (head :: tail)).cons entry
    · exact (ih.cons head).trans List.perm_middle.symm

/-- Merging agendas loses no entry. -/
theorem perm_merge (due : α → α → Bool) (agenda more : List α) :
    (merge due agenda more).Perm (agenda ++ more) := by
  induction agenda generalizing more with
  | nil => exact .refl _
  | cons entry rest ih => exact perm_interleave due ih more

end RoadHierarchy.Agenda
