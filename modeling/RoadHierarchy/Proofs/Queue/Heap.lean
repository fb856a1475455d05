import RoadHierarchy.Proofs.Queue.Agenda
import RoadHierarchy.Queue.Item

/-! # Heaps are in order

In a heap, the order holds between each entry and the one above it. While an entry moves it holds
but for that entry, and the one above it comes before those below it. A heap in order has an entry
at the first place that may come before all others, and adding or taking out an entry keeps the
order.
-/

namespace RoadHierarchy.Heap

variable {α : Type} {n : Nat} {due : α → α → Bool} {le : α → α → Prop} {heap : Vector α n}
  {i : Fin n}

/-- The order holds between each entry and the one above it. -/
def Ordered (le : α → α → Prop) (heap : Vector α n) : Prop :=
  ∀ j : Fin n, le (heap.get (above j)) (heap.get j)

/-- The order holds but for the entry at one place, and holds across that place. -/
structure OrderedAround (le : α → α → Prop) (heap : Vector α n) (i : Fin n) : Prop where
  elsewhere : ∀ j, j ≠ i → above j ≠ i → le (heap.get (above j)) (heap.get j)
  across : i.val ≠ 0 → ∀ j, j ≠ i → above j = i → le (heap.get (above i)) (heap.get j)

/-- The order holds but between the entry at one place and those above it. -/
structure Rising (le : α → α → Prop) (heap : Vector α n) (i : Fin n) : Prop
    extends OrderedAround le heap i where
  below : ∀ j, j ≠ i → above j = i → le (heap.get i) (heap.get j)

theorem get_exchange (heap : Vector α n) (i j k : Fin n) :
    (exchange heap i j).get k =
      if k = i then heap.get j else if k = j then heap.get i else heap.get k := by
  change (heap.swap i j i.isLt j.isLt)[k.val] =
    if k = i then heap[j.val] else if k = j then heap[i.val] else heap[k.val]
  simp only [Vector.getElem_swap, Fin.ext_iff]

theorem above_lt (inside : i.val ≠ 0) : (above i).val < i.val := by
  simp only [above]
  omega

/-- A place stands above two others at most. -/
theorem val_of_above_eq {j : Fin n} (apart : j ≠ i) (up : above j = i) :
    j.val = 2 * i.val + 1 ∨ j.val = 2 * i.val + 2 := by
  have moved := mt Fin.ext apart
  have place := congrArg Fin.val up
  simp only [above] at place
  omega

theorem above_eq {j : Fin n} (place : j.val = 2 * i.val + 1 ∨ j.val = 2 * i.val + 2) :
    above j = i :=
  Fin.ext (by simp only [above]; omega)

/-- An entry that must come before the one above it changes places with that one. -/
theorem Rising.exchange (decides : Agenda.Decides due le) (rising : Rising le heap i)
    (inside : i.val ≠ 0) (late : le (heap.get i) (heap.get (above i))) :
    Rising le (Heap.exchange heap (above i) i) (above i) := by
  have higher := above_lt inside
  have beside : ∀ j, j ≠ i → above j = above i → le (heap.get (above i)) (heap.get j) := by
    intro j other up
    simpa only [up] using rising.elsewhere j other (up ▸ Fin.ne_of_lt higher)
  refine ⟨⟨fun j apart outer => ?_, fun inner j apart up => ?_⟩, fun j apart up => ?_⟩
  · -- Those that were below the entry are now below the one that has come down.
    have moved : j ≠ i := by rintro rfl; exact outer rfl
    rw [get_exchange, get_exchange, if_neg outer, if_neg apart, if_neg moved]
    split
    · next beneath => exact rising.across inside j moved beneath
    · next other => exact rising.elsewhere j moved other
  · -- Two places up, the entry is before the one that has come down, and so before all below it.
    have highest := above_lt inner
    have beyond : above (above i) ≠ i := Fin.ne_of_lt (Nat.lt_trans highest higher)
    have ahead : le (heap.get (above (above i))) (heap.get (above i)) :=
      rising.elsewhere _ (Fin.ne_of_lt higher) beyond
    rw [get_exchange, get_exchange, if_neg (Fin.ne_of_lt highest), if_neg beyond, if_neg apart]
    split
    · exact ahead
    · next other => exact decides.chain _ _ _ ahead (beside j other up)
  · rw [get_exchange, get_exchange, if_pos rfl, if_neg apart]
    split
    · exact late
    · next other => exact decides.chain _ _ _ late (beside j other up)

/-- Nothing is out of order once the entry above may stay there. -/
theorem Rising.ordered (rising : Rising le heap i) (early : le (heap.get (above i)) (heap.get i)) :
    Ordered le heap := by
  intro j
  by_cases here : j = i
  · rw [here]
    exact early
  · by_cases beneath : above j = i
    · rw [beneath]
      exact rising.below j here beneath
    · exact rising.elsewhere j here beneath

/-- An entry rises until the heap is in order. -/
theorem Rising.ordered_rise (decides : Agenda.Decides due le) (rising : Rising le heap i) :
    Ordered le (rise due heap i) := by
  fun_induction rise due heap i with
  | case1 heap i first =>
    have alone : above i = i := Fin.ext (by simp only [above]; omega)
    exact rising.ordered (alone.symm ▸ decides.refl _)
  | case2 heap i _ early => exact rising.ordered (decides.early _ _ early)
  | case3 heap i inside early ih =>
    exact ih (rising.exchange decides inside (decides.late _ _ (by simpa using early)))

/-- Of the entries just below, the one that is drawn up may come before the other. -/
theorem below?_eq_some (decides : Agenda.Decides due le) {next : Fin n}
    (down : below? due heap i = some next) :
    above next = i ∧ ∀ j, j ≠ i → above j = i → le (heap.get next) (heap.get j) := by
  unfold below? at down
  split at down
  · next both =>
    have sides : ∀ j, j ≠ i → above j = i →
        j = ⟨2 * i.val + 1, Nat.lt_of_succ_lt both⟩ ∨ j = ⟨2 * i.val + 2, both⟩ :=
      fun j apart up => (val_of_above_eq apart up).imp Fin.ext Fin.ext
    obtain rfl := Option.some.inj down
    split
    · next late =>
      refine ⟨above_eq (.inr rfl), fun j apart up => ?_⟩
      rcases sides j apart up with rfl | rfl
      · exact decides.early _ _ late
      · exact decides.refl _
    · next early =>
      refine ⟨above_eq (.inl rfl), fun j apart up => ?_⟩
      rcases sides j apart up with rfl | rfl
      · exact decides.refl _
      · exact decides.late _ _ (by simpa using early)
  · split at down
    · next single =>
      obtain rfl := Option.some.inj down
      refine ⟨above_eq (.inl rfl), fun j apart up => ?_⟩
      obtain rfl : j = ⟨2 * i.val + 1, single⟩ := by
        have place := val_of_above_eq apart up
        exact Fin.ext (by simp only; omega)
      exact decides.refl _
    · cases down

/-- Without a place to sink to, there is nothing below. -/
theorem below?_eq_none (bottom : below? due heap i = none) {j : Fin n} (apart : j ≠ i) :
    above j ≠ i := by
  intro up
  have place := val_of_above_eq apart up
  unfold below? at bottom
  split at bottom
  · cases bottom
  · split at bottom
    · cases bottom
    · omega

/-- An entry changes places with the one below it that may come before the other. -/
theorem OrderedAround.exchange (decides : Agenda.Decides due le) (around : OrderedAround le heap i)
    {next : Fin n} (down : below? due heap i = some next) :
    OrderedAround le (Heap.exchange heap i next) next := by
  have lower := lt_of_below? down
  obtain ⟨beneath, least⟩ := below?_eq_some decides down
  have apart : next ≠ i := (Fin.ne_of_lt lower).symm
  refine ⟨fun j away outer => ?_, fun _ j away up => ?_⟩
  · rw [get_exchange, get_exchange, if_neg outer, if_neg away]
    by_cases here : j = i
    · rw [if_pos here]
      split
      · exact decides.refl _
      · next inside =>
        have notFirst : i.val ≠ 0 := by
          rintro first
          exact inside (Fin.ext (by simp only [above, here]; omega))
        simpa only [here] using around.across notFirst next apart beneath
    · rw [if_neg here]
      split
      · next up => exact least j here up
      · next up => exact around.elsewhere j here up
  · -- What is below the place it has come to was in order with the entry drawn up from there.
    have place := val_of_above_eq away up
    rw [get_exchange, get_exchange, if_pos beneath, if_neg (by grind), if_neg away]
    simpa only [up] using around.elsewhere j (by grind) (by grind)

/-- At the bottom, an entry is in order with those below it. -/
theorem OrderedAround.rising_sink (decides : Agenda.Decides due le)
    (around : OrderedAround le heap i) :
    Rising le (sink due heap i).1 (sink due heap i).2 := by
  fun_induction sink due heap i with
  | case1 heap i bottom =>
    exact ⟨around, fun j apart up => (below?_eq_none bottom apart up).elim⟩
  | case2 heap i next down ih => exact ih (around.exchange decides down)

/-- No entry comes before the first one. -/
theorem Ordered.first_le (decides : Agenda.Decides due le) (ordered : Ordered le heap)
    (first : i.val = 0) (j : Fin n) : le (heap.get i) (heap.get j) := by
  obtain ⟨k, inside⟩ := j
  induction k using Nat.strongRecOn with
  | ind k ih =>
    by_cases top : k = 0
    · obtain rfl : ⟨k, inside⟩ = i := Fin.ext (top.trans first.symm)
      exact decides.refl _
    · have higher := above_lt (i := ⟨k, inside⟩) top
      exact decides.chain _ _ _ (ih _ higher (above ⟨k, inside⟩).isLt) (ordered ⟨k, inside⟩)

theorem Ordered.toArray (ordered : Ordered le heap) : Ordered le heap.toArray.toVector := by
  obtain ⟨entries, rfl⟩ := heap
  exact ordered

section Operations

variable {heap rest : Array α} {entry : α}

/-- Adding an entry keeps a heap in order. -/
theorem Ordered.push (decides : Agenda.Decides due le) (ordered : Ordered le heap.toVector)
    (entry : α) : Ordered le (Heap.push due heap entry).toVector := by
  have bottom : ∀ j : Fin (heap.push entry).size, j ≠ ⟨heap.size, by simp⟩ →
      above j ≠ ⟨heap.size, by simp⟩ := by
    intro j apart up
    have place := val_of_above_eq apart up
    have bound := j.isLt
    simp only [Array.size_push] at place bound
    omega
  refine (Rising.ordered_rise decides ⟨⟨fun j apart _ => ?_, fun _ j apart up => ?_⟩,
    fun j apart up => ?_⟩).toArray
  · have inside : j.val < heap.size := by grind
    have early : le heap[(j.val - 1) / 2] heap[j.val] := ordered ⟨j.val, inside⟩
    change le (heap.push entry)[(j.val - 1) / 2] (heap.push entry)[j.val]
    rwa [Array.getElem_push_lt inside, Array.getElem_push_lt]
  · exact (bottom j apart up).elim
  · exact (bottom j apart up).elim

/-- Where the last place is given up and the first one is filled anew, the first one alone can be
out of order. -/
theorem Ordered.set_first (ordered : Ordered le heap.toVector) (inside : 0 < heap.pop.size)
    (last : α) :
    OrderedAround le (heap.pop.toVector.set 0 last inside) ⟨0, inside⟩ := by
  refine ⟨fun j apart outer => ?_, fun inner => (inner rfl).elim⟩
  have lower : 0 ≠ j.val := fun first => apart (Fin.ext first.symm)
  have upper : 0 ≠ (j.val - 1) / 2 := fun first => outer (Fin.ext first.symm)
  have shorter : heap.pop.size = heap.size - 1 := Array.size_pop
  have early : le heap[(j.val - 1) / 2] heap[j.val] := ordered ⟨j.val, by omega⟩
  change le (heap.pop.toVector.set 0 last inside)[(j.val - 1) / 2]
    (heap.pop.toVector.set 0 last inside)[j.val]
  rwa [Vector.getElem_set_ne _ _ upper, Vector.getElem_set_ne _ _ lower, Vector.getElem_mk,
    Vector.getElem_mk, Array.getElem_pop, Array.getElem_pop]

/-- What is taken out of a heap in order may come before all that is left, which is in order. -/
theorem Ordered.pop? (decides : Agenda.Decides due le) (ordered : Ordered le heap.toVector)
    (taken : Heap.pop? due heap = some (entry, rest)) :
    (∀ other ∈ rest.toList, le entry other) ∧ Ordered le rest.toVector := by
  have same := perm_pop? taken
  unfold Heap.pop? at taken
  split at taken
  · cases taken
  · next last _ =>
    split at taken
    · next inside =>
      obtain ⟨rfl, rfl⟩ := Prod.mk.inj (Option.some.inj taken)
      refine ⟨fun other member => ?_, ?_⟩
      · have stored := same.mem_iff.mpr (List.mem_cons_of_mem _ member)
        obtain ⟨j, bound, rfl⟩ := Array.mem_iff_getElem.mp (Array.mem_toList_iff.mp stored)
        rw [Array.getElem_pop]
        exact ordered.first_le decides (i := ⟨0, by omega⟩) rfl ⟨j, bound⟩
      · have around := ordered.set_first inside last
        exact ((around.rising_sink decides).ordered_rise decides).toArray
    · cases taken
      exact ⟨by simp, fun j => j.elim0⟩

/-- Adding entries in turn keeps a heap in order. -/
theorem Ordered.foldl_push (decides : Agenda.Decides due le) (ordered : Ordered le heap.toVector)
    (entries : List α) : Ordered le (entries.foldl (Heap.push due) heap).toVector := by
  induction entries generalizing heap with
  | nil => exact ordered
  | cons entry _ ih => exact ih (ordered.push decides entry)

/-- The heap of a list of entries is in order. -/
theorem ordered_ofList (decides : Agenda.Decides due le) (entries : List α) :
    Ordered le (ofList due entries).toVector :=
  Ordered.foldl_push decides (fun j => Fin.elim0 (by simpa using j)) entries

/-- What a heap gives out is what it holds. -/
theorem perm_drain (heap : Array α) : (drain due heap).Perm heap.toList := by
  fun_induction drain due heap with
  | case1 heap drained =>
    obtain rfl := pop?_eq_none drained
    exact .refl _
  | case2 heap entry rest taken ih => exact (ih.cons entry).trans (perm_pop? taken).symm

/-- A heap in order gives out its entries in order. -/
theorem Ordered.pairwise_drain (decides : Agenda.Decides due le)
    (ordered : Ordered le heap.toVector) : (drain due heap).Pairwise le := by
  fun_induction drain due heap with
  | case1 => exact .nil
  | case2 heap entry rest taken ih =>
    obtain ⟨first, still⟩ := ordered.pop? decides taken
    exact List.pairwise_cons.mpr
      ⟨fun other later => first other ((perm_drain rest).mem_iff.mp later), ih still⟩

end Operations

end RoadHierarchy.Heap

namespace RoadHierarchy.Item

variable {π α : Type} [Ord π] [Std.TransOrd π]

theorem decides_due :
    Agenda.Decides (inOrder.due : Item π α → Item π α → Bool) fun a b => (compare a b).isGE where
  early _ _ early := early
  late a b late := by
    have higher : compare b.priority a.priority = .lt := Ordering.isGE_eq_false.mp late
    have lower : compare a.priority b.priority = .gt := Std.OrientedCmp.gt_of_lt higher
    change (compare a.priority b.priority).isGE
    rw [lower]
    rfl
  chain a b c first second :=
    show (compare c.priority a.priority).isGE from Std.TransCmp.isGE_trans second first

/-- All items are served, by their priority. -/
theorem pairwise_inOrder (items : List (Item π α)) :
    (inOrder items).Perm items ∧ (inOrder items).Pairwise fun a b => (compare a b).isGE :=
  ⟨(Heap.perm_drain _).trans (Heap.perm_ofList items),
    (Heap.ordered_ofList decides_due items).pairwise_drain decides_due⟩

end RoadHierarchy.Item
