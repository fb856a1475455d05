import RoadHierarchy.Ascending

/-! # Association lists

Looking up a key in a list of entries, after the list has been filtered by key or its values have
been changed.
-/

namespace RoadHierarchy

variable {κ α β : Type} [BEq κ] [LawfulBEq κ]

theorem lookup_cons_eq_ite [DecidableEq κ] (key : κ) (entry : κ × α) (rest : List (κ × α)) :
    (entry :: rest).lookup key = if key = entry.1 then some entry.2 else rest.lookup key := by
  rw [List.lookup_cons]
  by_cases asked : key = entry.1
  · rw [if_pos asked, beq_iff_eq.mpr asked]
  · rw [if_neg asked, beq_eq_false_iff_ne.mpr asked]

theorem lookup_filter (keep : κ → Bool) (key : κ) (entries : List (κ × α)) :
    (entries.filter (keep ·.1)).lookup key = if keep key then entries.lookup key else none := by
  induction entries with
  | nil => simp
  | cons entry rest ih =>
    rw [List.filter_cons, List.lookup_cons]
    by_cases asked : key = entry.1
    · subst asked
      rw [beq_self_eq_true]
      split
      · rw [List.lookup_cons, beq_self_eq_true]
      · next dropped => rw [ih, if_neg dropped]
    · have apart : (key == entry.1) = false := by simpa using asked
      rw [apart, ← ih]
      split
      · rw [List.lookup_cons, apart]
      · rfl

theorem lookup_map (change : κ → α → β) (key : κ) (entries : List (κ × α)) :
    (entries.map fun entry => (entry.1, change entry.1 entry.2)).lookup key =
      (entries.lookup key).map (change key) := by
  induction entries with
  | nil => rfl
  | cons entry rest ih =>
    rw [List.map_cons, List.lookup_cons, List.lookup_cons, ih]
    by_cases asked : key = entry.1
    · simp [asked]
    · have apart : (key == entry.1) = false := by simpa using asked
      rw [apart]

theorem mem_of_lookup {key : κ} {value : α} {entries : List (κ × α)}
    (found : entries.lookup key = some value) : (key, value) ∈ entries := by
  obtain ⟨before, after, rfl, -⟩ := List.lookup_eq_some_iff.mp found
  exact List.mem_append_right before (List.mem_cons_self ..)

/-- Every listed key has a value. -/
theorem exists_lookup {key : κ} {entries : List (κ × α)} (listed : key ∈ entries.map (·.1)) :
    ∃ value, entries.lookup key = some value := by
  obtain ⟨entry, member, rfl⟩ := List.mem_map.mp listed
  exact Option.isSome_iff_exists.mp (List.lookup_isSome_iff.mpr ⟨entry, member, beq_self_eq_true _⟩)

theorem lookup_of_mem {key : κ} {value : α} {entries : List (κ × α)}
    (single : (entries.map (·.1)).Nodup) (member : (key, value) ∈ entries) :
    entries.lookup key = some value := by
  induction entries with
  | nil => cases member
  | cons entry rest ih =>
    obtain ⟨fresh, later⟩ := List.nodup_cons.mp single
    rcases List.mem_cons.mp member with rfl | inside
    · exact List.lookup_cons_self
    · have apart : (key == entry.1) = false := by
        refine beq_eq_false_iff_ne.mpr ?_
        rintro rfl
        exact fresh (List.mem_map.mpr ⟨_, inside, rfl⟩)
      rw [List.lookup_cons, apart]
      exact ih later inside

/-- An entry can be taken out by its key. -/
theorem perm_cons_filter {key : κ} {value : α} {entries : List (κ × α)}
    (single : (entries.map (·.1)).Nodup) (found : entries.lookup key = some value) :
    entries.Perm ((key, value) :: entries.filter (·.1 != key)) := by
  induction entries with
  | nil => cases found
  | cons entry rest ih =>
    obtain ⟨fresh, later⟩ := List.nodup_cons.mp single
    by_cases asked : key = entry.1
    · subst asked
      rw [List.lookup_cons_self] at found
      cases found
      have others : rest.filter (·.1 != entry.1) = rest := by
        refine List.filter_eq_self.mpr fun other member => bne_iff_ne.mpr fun same => fresh ?_
        exact List.mem_map.mpr ⟨other, member, same⟩
      rw [List.filter_cons_of_neg (by simp), others]
    · rw [List.lookup_cons, beq_eq_false_iff_ne.mpr asked] at found
      have keep : (entry.1 != key) = true := bne_iff_ne.mpr (Ne.symm asked)
      rw [List.filter_cons, if_pos keep]
      exact ((ih later found).cons entry).trans (.swap _ _ _)

/-- Entries that are numbered from a number on are found by their numbers. -/
theorem lookup_zipIdx {α β : Type} (value : α → β) (entries : List α) (first id : Nat) :
    ((entries.zipIdx first).map fun (entry, id) => (id, value entry)).lookup id =
      if first ≤ id then (entries[id - first]?).map value else none := by
  induction entries generalizing first with
  | nil => simp
  | cons entry rest ih =>
    rw [List.zipIdx_cons, List.map_cons, List.lookup_cons, ih]
    by_cases here : id = first
    · simp [here]
    · have apart : (id == first) = false := by simpa using here
      rw [apart]
      by_cases later : first ≤ id
      · have shift : id - first = id - (first + 1) + 1 := by omega
        rw [if_pos later, if_pos (by omega), shift, List.getElem?_cons_succ]
      · rw [if_neg later, if_neg (by omega)]

namespace Ascending

theorem lookup_put (key other : Nat) (value : α) (entries : List (Nat × α)) :
    (put key value entries).lookup other =
      if other = key then some value else entries.lookup other := by
  induction entries with
  | nil => exact lookup_cons_eq_ite other (key, value) []
  | cons head rest ih =>
    unfold put
    split
    · exact lookup_cons_eq_ite other (key, value) _
    · split
      · next same =>
        rw [lookup_cons_eq_ite, lookup_cons_eq_ite, ← same]
        split <;> rfl
      · next apart =>
        rw [lookup_cons_eq_ite, lookup_cons_eq_ite, ih]
        by_cases first : other = head.1
        · rw [if_pos first, if_pos first, if_neg (fun same => apart (same.symm.trans first))]
        · rw [if_neg first, if_neg first]

/-- A map holds the last value given for a key. -/
theorem lookup_ofEntries (key : Nat) (entries : List (Nat × α)) :
    (ofEntries entries).lookup key = entries.reverse.lookup key := by
  suffices general : ∀ map : List (Nat × α),
      (entries.foldl (fun map entry => put entry.1 entry.2 map) map).lookup key =
        (entries.reverse.lookup key).or (map.lookup key) by
    rw [ofEntries, general, List.lookup_nil, Option.or_none]
  induction entries with
  | nil => exact fun _ => rfl
  | cons entry rest ih =>
    intro map
    rw [List.foldl_cons, ih, List.reverse_cons, List.lookup_append, lookup_put, Option.or_assoc,
      lookup_cons_eq_ite, List.lookup_nil]
    split <;> rfl

/-- The keys of a map are those of its entries. -/
theorem mem_keys_ofEntries {key : Nat} {entries : List (Nat × α)} :
    key ∈ (ofEntries entries).map (·.1) ↔ key ∈ entries.map (·.1) := by
  suffices general : ∀ map : List (Nat × α),
      key ∈ (entries.foldl (fun map entry => put entry.1 entry.2 map) map).map (·.1) ↔
        key ∈ entries.map (·.1) ∨ key ∈ map.map (·.1) by
    rw [ofEntries, general, List.map_nil]
    exact or_iff_left List.not_mem_nil
  induction entries with
  | nil => simp
  | cons entry rest ih =>
    intro map
    rw [List.foldl_cons, ih, map_put, mem_insert, List.map_cons, List.mem_cons, or_assoc,
      or_left_comm]

end Ascending

end RoadHierarchy
