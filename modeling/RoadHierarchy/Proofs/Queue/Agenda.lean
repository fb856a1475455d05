import RoadHierarchy.Queue.Agenda

/-! # Agendas are in order

The test `due` that entries are kept by need not be an order itself: it may hold of two equal
entries, or fail for them. What matters is an order that it decides between any two entries. Then
every operation keeps the entries of an agenda in that order.
-/

namespace RoadHierarchy.Agenda

variable {α : Type} {due : α → α → Bool} {le : α → α → Prop}

/-- The test tells which of two entries may come before the other in an order. -/
structure Decides (due : α → α → Bool) (le : α → α → Prop) : Prop where
  early : ∀ a b, due a b = true → le a b
  late : ∀ a b, due a b = false → le b a
  chain : ∀ a b c, le a b → le b c → le a c

namespace Decides

variable (decides : Decides due le)
include decides

theorem refl (entry : α) : le entry entry := by
  cases outcome : due entry entry with
  | false => exact decides.late _ _ outcome
  | true => exact decides.early _ _ outcome

/-- Adding an entry where it is due keeps the entries in order. -/
theorem pairwise_insert {entry : α} {agenda : List α} (sorted : agenda.Pairwise le) :
    (insert due entry agenda).Pairwise le := by
  induction agenda with
  | nil => exact List.pairwise_singleton ..
  | cons head rest ih =>
    obtain ⟨first, ordered⟩ := List.pairwise_cons.mp sorted
    unfold insert
    split
    · next early =>
      have before := decides.early _ _ early
      refine List.pairwise_cons.mpr ⟨List.forall_mem_cons.mpr ⟨before, ?_⟩, sorted⟩
      exact fun other member => decides.chain _ _ _ before (first other member)
    · next late =>
      refine List.pairwise_cons.mpr ⟨fun other member => ?_, ih ordered⟩
      rcases List.mem_cons.mp ((perm_insert due entry rest).mem_iff.mp member) with rfl | later
      · exact decides.late _ _ (by simpa using late)
      · exact first other later

/-- An agenda of entries has them in order. -/
theorem pairwise_ofList (entries : List α) : (ofList due entries).Pairwise le := by
  induction entries with
  | nil => exact .nil
  | cons entry rest ih => exact decides.pairwise_insert ih

theorem pairwise_interleave {entry : α} {rest : List α} {mergeRest : List α → List α}
    (merges : ∀ agenda, (mergeRest agenda).Perm (rest ++ agenda))
    (sorts : ∀ agenda, agenda.Pairwise le → (mergeRest agenda).Pairwise le)
    (first : (entry :: rest).Pairwise le) {agenda : List α} (sorted : agenda.Pairwise le) :
    (interleave due entry rest mergeRest agenda).Pairwise le := by
  induction agenda with
  | nil => exact first
  | cons head tail ih =>
    obtain ⟨ahead, ordered⟩ := List.pairwise_cons.mp sorted
    obtain ⟨lowest, -⟩ := List.pairwise_cons.mp first
    unfold interleave
    split
    · next early =>
      have before := decides.early _ _ early
      refine List.pairwise_cons.mpr ⟨fun other member => ?_, sorts _ sorted⟩
      rcases List.mem_append.mp ((merges _).mem_iff.mp member) with inside | outside
      · exact lowest other inside
      · rcases List.mem_cons.mp outside with rfl | later
        · exact before
        · exact decides.chain _ _ _ before (ahead other later)
    · next late =>
      have after := decides.late _ _ (Bool.not_eq_true _ ▸ late)
      refine List.pairwise_cons.mpr ⟨fun other member => ?_, ih ordered⟩
      rcases List.mem_append.mp ((perm_interleave due merges tail).mem_iff.mp member) with
        inside | later
      · rcases List.mem_cons.mp inside with rfl | within
        · exact after
        · exact decides.chain _ _ _ after (lowest other within)
      · exact ahead other later

/-- Merging two agendas keeps the entries of both in order. -/
theorem pairwise_merge {agenda more : List α} (first : agenda.Pairwise le)
    (second : more.Pairwise le) : (merge due agenda more).Pairwise le := by
  induction agenda generalizing more with
  | nil => exact second
  | cons entry rest ih =>
    exact decides.pairwise_interleave (perm_merge due rest)
      (fun _ sorted => ih (List.pairwise_cons.mp first).2 sorted) first second

end Decides

end RoadHierarchy.Agenda
