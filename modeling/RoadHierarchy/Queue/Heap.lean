/-! # Heaps

A priority queue as an array in which no entry has to come before the one above it. The entry at
place `i` stands above those at `2 * i + 1` and `2 * i + 2`. Every operation takes the order
`due a b`, which says that `a` may come before `b`.

Among entries that may come before one another, the next one is the one that earlier operations
have moved to the first place. What a search finds can depend on that, so each move is part of the
definitions here: an entry rises only past one that must not stay before it, and of two equal
entries the right one is drawn up.
-/

namespace RoadHierarchy.Heap

variable {α : Type} {n : Nat}

/-- The place above; the first place is above itself. -/
def above (i : Fin n) : Fin n := ⟨(i.val - 1) / 2, by omega⟩

/-- The place below whose entry may come before the one beside it, the right one if both may. -/
def below? (due : α → α → Bool) (heap : Vector α n) (i : Fin n) : Option (Fin n) :=
  if both : 2 * i.val + 2 < n then
    let left : Fin n := ⟨2 * i.val + 1, by omega⟩
    let right : Fin n := ⟨2 * i.val + 2, both⟩
    some (if due (heap.get right) (heap.get left) then right else left)
  else if single : 2 * i.val + 1 < n then some ⟨2 * i.val + 1, single⟩
  else none

theorem lt_of_below? {due : α → α → Bool} {heap : Vector α n} {i next : Fin n}
    (down : below? due heap i = some next) : i.val < next.val := by
  unfold below? at down
  split at down
  · obtain rfl := Option.some.inj down
    split <;> simp only <;> omega
  · split at down
    · obtain rfl := Option.some.inj down
      simp only
      omega
    · cases down

/-- Lets two entries change places. -/
def exchange (heap : Vector α n) (i j : Fin n) : Vector α n :=
  heap.swap i j i.isLt j.isLt

/-- Moves an entry up, past all those above that may not come before it. -/
def rise (due : α → α → Bool) (heap : Vector α n) (i : Fin n) : Vector α n :=
  if i.val = 0 then heap
  else if due (heap.get (above i)) (heap.get i) then heap
  else rise due (exchange heap (above i) i) (above i)
termination_by i.val
decreasing_by simp only [above]; omega

/-- Moves an entry down as far as there are places below. The answer says where it has come to. -/
def sink (due : α → α → Bool) (heap : Vector α n) (i : Fin n) : Vector α n × Fin n :=
  match _ : below? due heap i with
  | none => (heap, i)
  | some next => sink due (exchange heap i next) next
termination_by n - i.val
decreasing_by have further := lt_of_below? ‹below? due heap i = some next›; omega

/-- Adds an entry at the last place and lets it rise. -/
def push (due : α → α → Bool) (heap : Array α) (entry : α) : Array α :=
  (rise due (heap.push entry).toVector ⟨heap.size, by simp⟩).toArray

/-- Takes out the first entry. The last one takes its place, sinks as far as it can, and rises from
there. -/
def pop? (due : α → α → Bool) (heap : Array α) : Option (α × Array α) :=
  match heap.back? with
  | none => none
  | some last =>
      if inside : 0 < heap.pop.size then
        let (sunk, place) := sink due (heap.pop.toVector.set 0 last inside) ⟨0, inside⟩
        some (heap.pop[0], (rise due sunk place).toArray)
      else some (last, #[])

/-- The heap of a list of entries, added in turn. -/
def ofList (due : α → α → Bool) (entries : List α) : Array α :=
  entries.foldl (push due) #[]

section Permutation

variable {due : α → α → Bool}

theorem perm_rise (heap : Vector α n) (i : Fin n) : (rise due heap i).Perm heap := by
  fun_induction rise due heap i with
  | case1 => exact .rfl
  | case2 => exact .rfl
  | case3 heap i _ _ ih => exact ih.trans (Vector.swap_perm ..)

theorem perm_sink (heap : Vector α n) (i : Fin n) : (sink due heap i).1.Perm heap := by
  fun_induction sink due heap i with
  | case1 => exact .rfl
  | case2 heap i next _ ih => exact ih.trans (Vector.swap_perm ..)

theorem perm_push (heap : Array α) (entry : α) :
    (push due heap entry).toList.Perm (entry :: heap.toList) := by
  have risen : (push due heap entry).toList.Perm (heap.push entry).toList :=
    (perm_rise (heap.push entry).toVector _).toList
  rw [Array.toList_push] at risen
  exact risen.trans (List.perm_append_singleton ..)

theorem perm_foldl_push (heap : Array α) (entries : List α) :
    (entries.foldl (push due) heap).toList.Perm (heap.toList ++ entries) := by
  induction entries generalizing heap with
  | nil =>
    rw [List.append_nil]
    exact .refl _
  | cons entry rest ih =>
    exact (ih _).trans (((perm_push heap entry).append_right rest).trans List.perm_middle.symm)

theorem perm_ofList (entries : List α) : (ofList due entries).toList.Perm entries :=
  perm_foldl_push #[] entries

/-- A heap that has nothing to take out is empty. -/
theorem pop?_eq_none {heap : Array α} (taken : pop? due heap = none) : heap = #[] := by
  unfold pop? at taken
  split at taken
  · next drained => exact Array.back?_eq_none_iff.mp drained
  · split at taken <;> cases taken

omit due in
/-- Putting an entry in the first place takes out the one that was there. -/
theorem perm_set_first {front : Array α} (inside : 0 < front.size) (last : α) :
    (last :: front.toList).Perm (front[0] :: (front.toVector.set 0 last inside).toList) := by
  rcases front with ⟨_ | ⟨first, others⟩⟩
  · cases inside
  · exact .swap first last others

/-- What is taken out, and what is left, is what was there. -/
theorem perm_pop? {heap rest : Array α} {entry : α} (taken : pop? due heap = some (entry, rest)) :
    heap.toList.Perm (entry :: rest.toList) := by
  unfold pop? at taken
  split at taken
  · cases taken
  · next last found =>
    obtain ⟨front, whole⟩ := Array.back?_eq_some_iff.mp found
    have apart : heap.toList.Perm (last :: heap.pop.toList) := by
      rw [whole, Array.pop_push, Array.toList_push]
      exact List.perm_append_singleton last front.toList
    refine apart.trans ?_
    split at taken
    · next inside =>
      obtain ⟨rfl, rfl⟩ := Prod.mk.inj (Option.some.inj taken)
      refine (perm_set_first inside last).trans (.cons _ ?_)
      exact ((perm_rise _ _).trans (perm_sink (heap.pop.toVector.set 0 last inside) _)).toList.symm
    · next outside =>
      cases taken
      rw [Array.eq_empty_of_size_eq_zero (Nat.eq_zero_of_not_pos outside)]

theorem size_pop? {heap rest : Array α} {entry : α} (taken : pop? due heap = some (entry, rest)) :
    rest.size < heap.size := by
  have size := (perm_pop? taken).length_eq
  simp only [Array.length_toList, List.length_cons] at size
  omega

end Permutation

/-- Takes out all entries, one after the other. -/
def drain (due : α → α → Bool) (heap : Array α) : List α :=
  match _ : pop? due heap with
  | none => []
  | some (entry, rest) => entry :: drain due rest
termination_by heap.size
decreasing_by exact size_pop? ‹_›

end RoadHierarchy.Heap
