/-! # Ascending lists

A finite set of ids is the strictly ascending list of its members, and a finite map from ids is the
list of its entries in ascending key order.
-/

namespace RoadHierarchy.Ascending

/-- Adds an id where it belongs; one that is present already stays single. -/
def insert (id : Nat) : List Nat → List Nat
  | [] => [id]
  | head :: rest =>
      if id < head then id :: head :: rest
      else if id = head then head :: rest
      else head :: insert id rest

/-- The distinct members of a list, ascending. -/
def ofList (ids : List Nat) : List Nat :=
  ids.foldr insert []

@[simp] theorem mem_insert {id other : Nat} {ids : List Nat} :
    other ∈ insert id ids ↔ other = id ∨ other ∈ ids := by
  induction ids with
  | nil => simp [insert]
  | cons head rest ih =>
    unfold insert
    split
    · simp
    · split
      · simp_all
      · simp only [List.mem_cons, ih]
        exact or_left_comm

@[simp] theorem mem_ofList {id : Nat} {ids : List Nat} : id ∈ ofList ids ↔ id ∈ ids := by
  induction ids with
  | nil => simp [ofList]
  | cons head rest ih => simpa [ofList] using or_congr Iff.rfl ih

theorem pairwise_insert (id : Nat) {ids : List Nat} (ascending : ids.Pairwise (· < ·)) :
    (insert id ids).Pairwise (· < ·) := by
  induction ids with
  | nil => simp [insert]
  | cons head rest ih =>
    obtain ⟨first, tail⟩ := List.pairwise_cons.mp ascending
    unfold insert
    split
    · refine List.pairwise_cons.mpr ⟨?_, ascending⟩
      intro other member
      rcases List.mem_cons.mp member with rfl | later
      · assumption
      · exact Nat.lt_trans ‹id < head› (first other later)
    · split
      · exact ascending
      · refine List.pairwise_cons.mpr ⟨?_, ih tail⟩
        intro other member
        rcases mem_insert.mp member with rfl | later
        · omega
        · exact first other later

theorem pairwise_ofList (ids : List Nat) : (ofList ids).Pairwise (· < ·) := by
  induction ids with
  | nil => exact List.Pairwise.nil
  | cons head rest ih => exact pairwise_insert head ih

/-- Sets the entry of a key, keeping the keys ascending. -/
def put {α : Type} (key : Nat) (value : α) : List (Nat × α) → List (Nat × α)
  | [] => [(key, value)]
  | head :: rest =>
      if key < head.1 then (key, value) :: head :: rest
      else if key = head.1 then (key, value) :: rest
      else head :: put key value rest

/-- The map of a list of entries; of two entries with one key the later counts. -/
def ofEntries {α : Type} (entries : List (Nat × α)) : List (Nat × α) :=
  entries.foldl (fun map entry => put entry.1 entry.2 map) []

theorem map_put {α : Type} (key : Nat) (value : α) (entries : List (Nat × α)) :
    (put key value entries).map (·.1) = insert key (entries.map (·.1)) := by
  induction entries with
  | nil => rfl
  | cons head rest ih =>
    rw [List.map_cons, put, insert]
    split
    · rfl
    · split
      · next same => rw [List.map_cons, same]
      · rw [List.map_cons, ih]

/-- The keys of a map are distinct and ascending. -/
theorem pairwise_ofEntries {α : Type} (entries : List (Nat × α)) :
    ((ofEntries entries).map (·.1)).Pairwise (· < ·) := by
  apply List.foldlRecOn (motive := fun map : List (Nat × α) => (map.map (·.1)).Pairwise (· < ·))
  · exact List.Pairwise.nil
  · intro map ascending entry _
    rw [map_put]
    exact pairwise_insert entry.1 ascending

theorem put_of_forall_lt {α : Type} {key : Nat} (value : α) {entries : List (Nat × α)}
    (last : ∀ entry ∈ entries, entry.1 < key) :
    put key value entries = entries ++ [(key, value)] := by
  induction entries with
  | nil => rfl
  | cons head rest ih =>
    have before := last head (List.mem_cons_self ..)
    have later := ih fun entry member => last entry (List.mem_cons_of_mem _ member)
    rw [put, if_neg (by omega), if_neg (by omega), later, List.cons_append]

theorem foldl_put {α : Type} (entries : List (Nat × α)) {rest : List (Nat × α)}
    (ascending : ((entries ++ rest).map (·.1)).Pairwise (· < ·)) :
    rest.foldl (fun map entry => put entry.1 entry.2 map) entries = entries ++ rest := by
  induction rest generalizing entries with
  | nil => rw [List.append_nil, List.foldl_nil]
  | cons entry rest ih =>
    have last : ∀ earlier ∈ entries, earlier.1 < entry.1 := by
      intro earlier member
      rw [List.map_append] at ascending
      exact (List.pairwise_append.mp ascending).2.2 earlier.1 (List.mem_map_of_mem member) entry.1
        (List.mem_cons_self ..)
    rw [List.append_cons] at ascending
    rw [List.foldl_cons, put_of_forall_lt _ last, ih _ ascending, ← List.append_cons]

/-- Entries in ascending key order are their own map. -/
theorem ofEntries_of_pairwise {α : Type} {entries : List (Nat × α)}
    (ascending : (entries.map (·.1)).Pairwise (· < ·)) : ofEntries entries = entries :=
  foldl_put [] ascending

end RoadHierarchy.Ascending
