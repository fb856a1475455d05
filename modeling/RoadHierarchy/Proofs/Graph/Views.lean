import Mathlib.Data.List.Destutter
import Mathlib.Data.List.Sort
import RoadHierarchy.Proofs.Graph.Session
import RoadHierarchy.Proofs.Graph.Surroundings

/-! # The views of a graph

A vertex is seen through the edges that can be driven out of it, through those that can be driven
into it, and through its neighbours. Each view asks the lists of edges by their ends in a way of its
own: the first two take the edges in one direction and filter those in the other, the third walks to
both sides and then looks for a live edge between the two vertices. The lists are only known to have
every edge at the ends with which it was handed over, in any order and any number of times.

No operation lets the edge table and what was handed over come apart. So after every session the
three views agree with the edge table and with one another, and they are the adjacency that the
contraction uses.
-/

namespace RoadHierarchy

/-- The side of a vertex on which edges are listed. -/
inductive Direction where
  | outgoing
  | ingoing

namespace Direction

def opposite : Direction → Direction
  | outgoing => ingoing
  | ingoing => outgoing

/-- The end at which an edge with this source and target is listed. -/
def near (ends : Nat × Nat) : Direction → Nat
  | outgoing => ends.1
  | ingoing => ends.2

/-- The edge can be driven out of the vertex, or into it. -/
def admits (e : Edge) (v : Nat) : Direction → Bool
  | outgoing => e.leaves v
  | ingoing => e.enters v

end Direction

/-- Lists of edges by their ends, and of vertices by the edges that join them. -/
structure Listing where
  /-- The edges that start at a vertex, or those that end there. -/
  directed : Direction → Nat → List Nat
  /-- The vertices at the other ends of the edges at a vertex. -/
  around : Nat → List Nat
  /-- The edges that start at the first vertex and end at the second. -/
  between : Nat → Nat → List Nat

namespace Listing

/-- Every stored edge is listed at its ends by its position, and nothing else is listed. -/
structure Covers (listing : Listing) (stored : List (Nat × Nat)) : Prop where
  directed : ∀ direction v i, i ∈ listing.directed direction v ↔
    ∃ ends, stored[i]? = some ends ∧ direction.near ends = v
  around : ∀ v w, w ∈ listing.around v ↔ (v, w) ∈ stored ∨ (w, v) ∈ stored
  between : ∀ u w i, i ∈ listing.between u w ↔ stored[i]? = some (u, w)

/-- The positions of the entries that qualify, the last first. -/
def positions (stored : List (Nat × Nat)) (qualifies : Nat × Nat → Bool) : List Nat :=
  ((stored.zipIdx.filter (qualifies ·.1)).map (·.2)).reverse

/-- Lists the newest edges first, and around a vertex those that start there before the others. -/
def newestFirst (stored : List (Nat × Nat)) : Listing where
  directed direction v := positions stored (direction.near · = v)
  around v := ((stored.filter (·.1 = v)).map (·.2)).reverse ++
    ((stored.filter fun ends => ends.2 = v ∧ ends.1 ≠ v).map (·.1)).reverse
  between u w := positions stored (· = (u, w))

theorem mem_positions {stored : List (Nat × Nat)} {qualifies : Nat × Nat → Bool} {i : Nat} :
    i ∈ positions stored qualifies ↔
      ∃ ends, stored[i]? = some ends ∧ qualifies ends = true := by
  rw [positions, List.mem_reverse, List.mem_map]
  constructor
  · rintro ⟨entry, member, rfl⟩
    obtain ⟨there, qualified⟩ := List.mem_filter.mp member
    exact ⟨entry.1, List.mem_zipIdx_iff_getElem?.mp there, qualified⟩
  · rintro ⟨ends, found, qualified⟩
    have there : (ends, i) ∈ stored.zipIdx := List.mem_zipIdx_iff_getElem?.mpr found
    exact ⟨(ends, i), List.mem_filter.mpr ⟨there, qualified⟩, rfl⟩

theorem covers_newestFirst (stored : List (Nat × Nat)) : (newestFirst stored).Covers stored where
  directed direction v i := by simp [newestFirst, mem_positions]
  around v w := by
    simp only [newestFirst, List.mem_append, List.mem_reverse, List.mem_map, List.mem_filter,
      decide_eq_true_eq]
    constructor
    · rintro (⟨ends, ⟨member, rfl⟩, rfl⟩ | ⟨ends, ⟨member, rfl, -⟩, rfl⟩)
      · exact .inl member
      · exact .inr member
    · by_cases loop : w = v
      · rw [loop, or_self]
        exact fun member => .inl ⟨_, ⟨member, rfl⟩, rfl⟩
      · rintro (member | member)
        · exact .inl ⟨_, ⟨member, rfl⟩, rfl⟩
        · exact .inr ⟨_, ⟨member, rfl, loop⟩, rfl⟩
  between u w i := by simp [newestFirst, mem_positions]

/-- Sorts ids and leaves out those that repeat the one before. -/
def tidy (ids : List Nat) : List Nat := ids.mergeSort.destutter (· ≠ ·)

/-- The live edges that can be driven in a direction at a vertex: those listed on this side, and
those listed on the other side that are two-way. -/
def adjacent (listing : Listing) (g : Graph) (direction : Direction) (v : Nat) : List Nat :=
  let node := position g.vertexCount v
  let reversed := (listing.directed direction.opposite node).filter fun i =>
    (g.edges[i]?).any (·.bidirectional)
  tidy ((listing.directed direction node ++ reversed).filter fun i =>
    (g.edges[i]?).any (!·.removed))

/-- The other vertices around a vertex that a live edge joins to it, whichever way it was stored. -/
def neighbors (listing : Listing) (g : Graph) (v : Nat) : List Nat :=
  let node := position g.vertexCount v
  (tidy ((listing.around node).filter (· ≠ v))).filter fun w =>
    (listing.between node w ++ listing.between w node).any fun i =>
      (g.edges[i]?).any (!·.removed)

/-- In a sorted list, all repetitions are side by side. -/
theorem tidy_eq_dedup (ids : List Nat) : tidy ids = ids.mergeSort.dedup :=
  (List.pairwise_mergeSort' (· ≤ ·) ids).destutter_eq_dedup

theorem mem_tidy {i : Nat} {ids : List Nat} : i ∈ tidy ids ↔ i ∈ ids := by
  rw [tidy_eq_dedup, List.mem_dedup, List.mem_mergeSort]

theorem pairwise_tidy (ids : List Nat) : (tidy ids).Pairwise (· < ·) := by
  have sorted := (List.pairwise_mergeSort' (· ≤ ·) ids).sublist (List.dedup_sublist _)
  rw [tidy_eq_dedup]
  exact sorted.imp₂ (fun _ _ => lt_of_le_of_ne) (List.nodup_dedup _)

theorem pairwise_adjacent (listing : Listing) (g : Graph) (direction : Direction) (v : Nat) :
    (listing.adjacent g direction v).Pairwise (· < ·) := pairwise_tidy _

theorem pairwise_neighbors (listing : Listing) (g : Graph) (v : Nat) :
    (listing.neighbors g v).Pairwise (· < ·) := (pairwise_tidy _).filter _

end Listing

/-- The ends of an edge, as they are handed over when it is made. -/
def Edge.ends (e : Edge) : Nat × Nat := (e.source, e.target)

/-- The ends of the edge that an operation makes. -/
def Operation.ends? : Operation → Option (Nat × Nat)
  | addEdge source target .. | addShortcut source target .. => some (source, target)
  | _ => none

/-- What an operation hands over: the ends of its edge, unless it fails. -/
def Operation.handsOver (operation : Operation) (g : Graph) : List (Nat × Nat) :=
  match operation.inPlace.run g with
  | .ok _ _ => operation.ends?.toList
  | .error _ _ => []

namespace Graph

/-- What the operations of a session hand over, one after the other. -/
def handedOver (g : Graph) : List Operation → List (Nat × Nat)
  | [] => []
  | operation :: rest => operation.handsOver g ++ (operation.inPlace.after g).handedOver rest

/-- The graph is empty or that of an extracted network, and these ends were handed over for it. -/
inductive MadeWith : Graph → List (Nat × Nat) → Prop
  | empty : MadeWith .empty []
  | extract {extract : Extract} {start : Graph} : ofExtract extract = .ok start →
      MadeWith start (extract.roads.map fun road => (road.source, road.target))

/-- The ends of the edges in the edge table. -/
def ends (g : Graph) : List (Nat × Nat) := g.edges.toList.map Edge.ends

/-- Views of the vertices agree with the edge table, and with one another. -/
structure ViewsAgree (g : Graph) (outgoing ingoing neighbors : Nat → List Nat) : Prop where
  ascending : ∀ v < g.vertexCount, (outgoing v).Pairwise (· < ·) ∧
    (ingoing v).Pairwise (· < ·) ∧ (neighbors v).Pairwise (· < ·)
  mem_outgoing : ∀ v < g.vertexCount, ∀ i, i ∈ outgoing v ↔
    ∃ e, g.edges[i]? = some e ∧ e.removed = false ∧ e.leaves v = true
  mem_ingoing : ∀ v < g.vertexCount, ∀ i, i ∈ ingoing v ↔
    ∃ e, g.edges[i]? = some e ∧ e.removed = false ∧
      (e.target = v ∨ e.source = v ∧ e.bidirectional = true)
  count_loop : ∀ (i : Nat) (e : Edge), g.edges[i]? = some e → e.removed = false →
    e.source = e.target → (outgoing e.source).count i = 1 ∧ (ingoing e.source).count i = 1
  mem_neighbors : ∀ v < g.vertexCount, ∀ w, w ∈ neighbors v ↔ w ≠ v ∧
    ∃ (i : Nat) (e : Edge), g.edges[i]? = some e ∧ (i ∈ ingoing v ∨ i ∈ outgoing v) ∧ e.other v = w
  neighbors_symm : ∀ v < g.vertexCount, ∀ w < g.vertexCount, w ∈ neighbors v ↔ v ∈ neighbors w
  /-- An edge leads from one vertex to another exactly if it comes to that one from the first. -/
  leads_iff : ∀ v < g.vertexCount, ∀ w < g.vertexCount, ∀ (i : Nat) (e : Edge),
    g.edges[i]? = some e → (i ∈ outgoing v ∧ e.other v = w ↔ i ∈ ingoing w ∧ e.other w = v)

end Graph

section HandingOver

variable {g next start : Graph} {stored : List (Nat × Nat)}

namespace Graph

theorem ends_withoutEdge (g : Graph) (i : Nat) : (g.withoutEdge i).ends = g.ends := by
  refine List.ext_getElem? fun j => ?_
  simp only [ends, List.getElem?_map, Array.getElem?_toList, withoutEdge_edges, Option.map_map]
  refine Option.map_congr fun e _ => ?_
  rw [Function.comp_apply, apply_ite Edge.ends]
  exact ite_self _

theorem ends_withEdge (g : Graph) (e : Edge) : (g.withEdge e).ends = g.ends ++ [e.ends] := by
  rw [ends, withEdge, Array.toList_push, List.map_append]
  rfl

end Graph

/-- An operation adds to the edge table what it hands over. -/
theorem Operation.ends_of_perform {operation : Operation}
    (success : operation.perform g = .ok next) :
    next.ends = g.ends ++ operation.ends?.toList := by
  cases operation with
  | addVertex lat lon =>
    obtain rfl := Except.ok.inj success
    exact (List.append_nil _).symm
  | addEdge source target weight bidirectional =>
    obtain ⟨⟨id, _⟩, added, rfl⟩ := map_eq_ok.mp success
    obtain ⟨-, -, rfl⟩ := Graph.pushEdge_eq_ok.mp added
    exact Graph.ends_withEdge g _
  | addShortcut source target weight count pair bidirectional =>
    obtain ⟨⟨id, _⟩, added, rfl⟩ := map_eq_ok.mp success
    obtain ⟨-, pushed⟩ := Graph.addShortcut_eq_ok.mp added
    obtain ⟨-, -, rfl⟩ := Graph.pushEdge_eq_ok.mp pushed
    exact Graph.ends_withEdge g _
  | markRemoved edge =>
    obtain ⟨-, rfl⟩ := Graph.markRemoved_eq_ok.mp success
    exact (Graph.ends_withoutEdge g edge).trans (List.append_nil _).symm
  | markProcessed vertex round =>
    obtain ⟨-, rfl⟩ := Graph.markProcessed_eq_ok.mp success
    exact (List.append_nil _).symm
  | setPriority vertex priority =>
    obtain ⟨-, rfl⟩ := Graph.updateVertex_eq_ok.mp success
    exact (List.append_nil _).symm
  | raiseDepth vertex depth =>
    obtain ⟨-, rfl⟩ := Graph.updateVertex_eq_ok.mp success
    exact (List.append_nil _).symm

theorem Operation.ends_after (operation : Operation) (g : Graph) :
    (operation.inPlace.after g).ends = g.ends ++ operation.handsOver g := by
  rw [InPlace.after, handsOver, operation.run_inPlace]
  cases performed : operation.perform g with
  | ok next => exact ends_of_perform performed
  | error failure => exact (List.append_nil _).symm

namespace Graph

/-- The edge table has the ends that have been handed over, in their order. -/
theorem ends_session (g : Graph) (operations : List Operation) :
    (g.session operations).ends = g.ends ++ g.handedOver operations := by
  induction operations generalizing g with
  | nil => exact (List.append_nil _).symm
  | cons operation rest ih =>
    rw [session, List.foldl_cons, ← session, ih, operation.ends_after, handedOver,
      List.append_assoc]

theorem ends_ofJunctions (junctions : List Junction) : (ofJunctions junctions).ends = [] := by
  refine List.foldlRecOn (motive := fun g : Graph => g.ends = []) junctions _ rfl ?_
  exact fun g none junction _ => none

theorem ends_of_addRoad {road : Road} (success : g.addRoad road = .ok next) :
    next.ends = g.ends ++ [(road.source, road.target)] := by
  unfold addRoad at success
  split at success
  · cases success
  · let added : Operation :=
      .addEdge road.source road.target road.weight.toNat road.bidirectional
    have performed : added.perform g = .ok next := success
    exact Operation.ends_of_perform performed

theorem ends_of_addRoads {roads : List Road} (success : roads.foldlM addRoad g = .ok next) :
    next.ends = g.ends ++ roads.map fun road => (road.source, road.target) := by
  induction roads generalizing g with
  | nil =>
    obtain rfl := pure_eq_ok.mp success
    exact (List.append_nil _).symm
  | cons road rest ih =>
    obtain ⟨middle, first, later⟩ := foldlM_cons_eq_ok.mp success
    rw [ih later, ends_of_addRoad first, List.append_assoc]
    rfl

namespace MadeWith

theorem reachable (made : start.MadeWith stored) : start.Reachable := by
  cases made with
  | empty => exact .empty
  | extract success => exact reachable_ofExtract success

theorem ends (made : start.MadeWith stored) : start.ends = stored := by
  cases made with
  | empty => rfl
  | extract success =>
    rw [ends_of_addRoads success, ends_ofJunctions]
    rfl

end MadeWith

theorem Reachable.session (reachable : g.Reachable) (operations : List Operation) :
    (g.session operations).Reachable :=
  session_keeps Reachable (fun operation _ _ success earlier => .perform operation earlier success)
    reachable operations

end Graph

end HandingOver

section Agreement

variable {g : Graph} {listing : Listing} {direction : Direction} {e : Edge} {u v w i : Nat}

namespace Edge

theorem leaves_other_iff : e.leaves u = true ∧ e.other u = w ↔ e.Drives u w := by
  rw [leaves_iff]
  constructor
  · rintro ⟨drives, rfl⟩
    exact drives
  · intro drives
    rw [drives.other]
    exact ⟨drives, rfl⟩

theorem enters_other_iff : e.enters w = true ∧ e.other w = u ↔ e.Drives u w := by
  rw [enters_iff]
  constructor
  · rintro ⟨drives, rfl⟩
    exact drives
  · intro drives
    rw [drives.other_end]
    exact ⟨drives, rfl⟩

end Edge

namespace Direction

theorem admits_iff : direction.admits e v = true ↔
    direction.near e.ends = v ∨ direction.opposite.near e.ends = v ∧ e.bidirectional = true := by
  cases direction <;> simp [admits, near, opposite, Edge.leaves, Edge.enters, Edge.ends, and_comm]

theorem touches_of_admits (admits : direction.admits e v = true) : e.touches v = true := by
  rw [Edge.touches_iff]
  cases direction with
  | outgoing => exact (admits_iff.mp admits).imp id And.left
  | ingoing => exact (admits_iff.mp admits).symm.imp And.left id

end Direction

namespace Listing

open RoadHierarchy.Graph (mem_edges_iff)

theorem mem_directed (covers : listing.Covers g.ends) : i ∈ listing.directed direction v ↔
    ∃ e, g.edges[i]? = some e ∧ direction.near e.ends = v := by
  rw [covers.directed]
  simp only [Graph.ends, List.getElem?_map, Array.getElem?_toList, Option.map_eq_some_iff]
  constructor
  · rintro ⟨_, ⟨e, found, rfl⟩, here⟩
    exact ⟨e, found, here⟩
  · rintro ⟨e, found, here⟩
    exact ⟨_, ⟨e, found, rfl⟩, here⟩

theorem mem_between (covers : listing.Covers g.ends) : i ∈ listing.between u w ↔
    ∃ e, g.edges[i]? = some e ∧ e.source = u ∧ e.target = w := by
  rw [covers.between]
  simp [Graph.ends, Edge.ends]

theorem mem_adjacent (covers : listing.Covers g.ends) (known : v < g.vertexCount) :
    i ∈ listing.adjacent g direction v ↔
      ∃ e, g.edges[i]? = some e ∧ e.removed = false ∧ direction.admits e v = true := by
  simp only [adjacent, position_of_lt known, mem_tidy, List.mem_filter, List.mem_append,
    mem_directed covers, Direction.admits_iff]
  cases found : g.edges[i]? with
  | none => simp
  | some e => simp [and_comm]

theorem any_between (covers : listing.Covers g.ends) :
    (listing.between v w ++ listing.between w v).any
      (fun i => (g.edges[i]?).any (!·.removed)) = true ↔ g.Joins v w := by
  simp only [List.any_eq_true, List.mem_append, mem_between covers, Option.any_eq_true,
    Bool.not_eq_true']
  constructor
  · rintro ⟨i, between, e, found, alive⟩
    refine ⟨e, mem_edges_iff.mpr ⟨i, found⟩, alive, ?_⟩
    rcases between with ⟨_, there, ends⟩ | ⟨_, there, ends⟩
    · obtain rfl := Option.some.inj (found.symm.trans there)
      exact .inl ends
    · obtain rfl := Option.some.inj (found.symm.trans there)
      exact .inr ends
  · rintro ⟨e, member, alive, ends⟩
    obtain ⟨i, found⟩ := mem_edges_iff.mp member
    exact ⟨i, ends.imp (fun ends => ⟨e, found, ends⟩) fun ends => ⟨e, found, ends⟩, e, found, alive⟩

theorem mem_around_of_joins (covers : listing.Covers g.ends) (joins : g.Joins v w) :
    w ∈ listing.around v := by
  obtain ⟨e, member, -, ends⟩ := joins
  have stored : e.ends ∈ g.ends := List.mem_map_of_mem (Array.mem_toList_iff.mpr member)
  rw [covers.around]
  rcases ends with ⟨rfl, rfl⟩ | ⟨rfl, rfl⟩
  · exact .inl stored
  · exact .inr stored

theorem mem_neighbors (covers : listing.Covers g.ends) (known : v < g.vertexCount) :
    w ∈ listing.neighbors g v ↔ w ≠ v ∧ g.Joins v w := by
  rw [neighbors, position_of_lt known, List.mem_filter, any_between covers, mem_tidy,
    List.mem_filter, decide_eq_true_eq]
  constructor
  · rintro ⟨⟨-, apart⟩, joins⟩
    exact ⟨apart, joins⟩
  · rintro ⟨apart, joins⟩
    exact ⟨⟨mem_around_of_joins covers joins, apart⟩, joins⟩

/-- The edges in a direction are those which the vertex notes. -/
theorem adjacent_eq (covers : listing.Covers g.ends) (valid : g.WellFormed)
    (known : v < g.vertexCount) (direction : Direction) : listing.adjacent g direction v =
      ((g.liveEdges v).filter (direction.admits · v)).map (·.id) := by
  have sorted := (g.pairwise_liveEdges valid known).filter (direction.admits · v)
  refine (listing.pairwise_adjacent g direction v).eq_of_mem_iff (List.pairwise_map.mpr sorted) ?_
  intro i
  rw [mem_adjacent covers known]
  simp only [List.mem_map, List.mem_filter, valid.mem_liveEdges known]
  constructor
  · rintro ⟨e, found, alive, admits⟩
    have member := mem_edges_iff.mpr ⟨i, found⟩
    exact ⟨e, ⟨⟨member, alive, Direction.touches_of_admits admits⟩, admits⟩,
      valid.edge_id i e found⟩
  · rintro ⟨e, ⟨⟨member, alive, -⟩, admits⟩, rfl⟩
    exact ⟨e, valid.find_edge member, alive, admits⟩

theorem neighbors_eq (covers : listing.Covers g.ends) (valid : g.WellFormed)
    (known : v < g.vertexCount) : listing.neighbors g v = g.neighbors v := by
  refine (listing.pairwise_neighbors g v).eq_of_mem_iff (Ascending.pairwise_ofList _) fun w => ?_
  exact (mem_neighbors covers known).trans (valid.mem_neighbors_iff known).symm

end Listing

namespace Graph

theorem joins_iff_other : g.Joins v w ↔ ∃ (i : Nat) (e : Edge), g.edges[i]? = some e ∧
    e.removed = false ∧ (e.enters v = true ∨ e.leaves v = true) ∧ e.other v = w := by
  constructor
  · intro joins
    obtain ⟨e, step⟩ := joins.exists_live
    rcases step with ⟨member, alive, forth⟩ | ⟨member, alive, back⟩
    · obtain ⟨i, found⟩ := mem_edges_iff.mp member
      obtain ⟨leaves, other⟩ := Edge.leaves_other_iff.mpr forth
      exact ⟨i, e, found, alive, .inr leaves, other⟩
    · obtain ⟨i, found⟩ := mem_edges_iff.mp member
      obtain ⟨enters, other⟩ := Edge.enters_other_iff.mpr back
      exact ⟨i, e, found, alive, .inl enters, other⟩
  · rintro ⟨i, e, found, alive, enters | leaves, other⟩
    · have back := Edge.enters_other_iff.mp ⟨enters, other⟩
      exact (Joins.of_live ⟨mem_edges_iff.mpr ⟨i, found⟩, alive, back⟩).symm
    · have forth := Edge.leaves_other_iff.mp ⟨leaves, other⟩
      exact .of_live ⟨mem_edges_iff.mpr ⟨i, found⟩, alive, forth⟩

/-- Lists that have the live edges of each direction and the joined vertices agree. -/
theorem ViewsAgree.of_mem {view : Direction → Nat → List Nat} {neighbors : Nat → List Nat}
    (valid : g.WellFormed)
    (sorted : ∀ direction v, (view direction v).Pairwise (· < ·))
    (admitted : ∀ direction, ∀ v < g.vertexCount, ∀ i, i ∈ view direction v ↔
      ∃ e, g.edges[i]? = some e ∧ e.removed = false ∧ direction.admits e v = true)
    (ascending : ∀ v, (neighbors v).Pairwise (· < ·))
    (joined : ∀ v < g.vertexCount, ∀ w, w ∈ neighbors v ↔ w ≠ v ∧ g.Joins v w) :
    g.ViewsAgree (view .outgoing) (view .ingoing) neighbors := by
  -- An id names one edge, so that the views test the edge that is at hand.
  have mem_iff : ∀ direction, ∀ v < g.vertexCount, ∀ (i : Nat) (e : Edge),
      g.edges[i]? = some e →
        (i ∈ view direction v ↔ e.removed = false ∧ direction.admits e v = true) := by
    intro direction v known i e found
    rw [admitted direction v known, found]
    simp
  refine ⟨fun v _ => ⟨sorted _ v, sorted _ v, ascending v⟩, admitted .outgoing, ?ingoing, ?loop,
    ?neighbors, ?symm, ?leads⟩
  case ingoing =>
    intro v known i
    rw [admitted .ingoing v known]
    simp only [Direction.admits_iff]
    rfl
  case loop =>
    intro i e found alive loop
    have known : e.source < g.vertexCount := (valid.ends e (mem_edges_iff.mpr ⟨i, found⟩)).1
    have once : ∀ direction : Direction, (view direction e.source).count i = 1 := by
      intro direction
      refine List.count_eq_one_of_mem ((sorted direction e.source).imp Nat.ne_of_lt) ?_
      rw [mem_iff direction _ known i e found, Direction.admits_iff]
      cases direction with
      | outgoing => exact ⟨alive, .inl rfl⟩
      | ingoing => exact ⟨alive, .inl loop.symm⟩
    exact ⟨once .outgoing, once .ingoing⟩
  case neighbors =>
    intro v known w
    rw [joined v known, joins_iff_other]
    refine and_congr_right fun _ => exists_congr fun i => exists_congr fun e => ?_
    refine and_congr_right fun found => ?_
    rw [mem_iff .ingoing v known i e found, mem_iff .outgoing v known i e found, ← and_or_left,
      and_assoc]
    rfl
  case symm =>
    intro v known w there
    rw [joined v known, joined w there, ne_comm]
    exact and_congr_right fun _ => ⟨Joins.symm, Joins.symm⟩
  case leads =>
    intro v known w there i e found
    rw [mem_iff .outgoing v known i e found, mem_iff .ingoing w there i e found, and_assoc,
      and_assoc]
    exact and_congr_right fun _ => Edge.leaves_other_iff.trans Edge.enters_other_iff.symm

/-- At the end of every session, whatever fails in it, and for all lists that cover the edges handed
over: the views of the vertices agree with the edge table and with one another, and they are the
adjacency that the graph keeps itself. -/
theorem session_views {start : Graph} {stored : List (Nat × Nat)} (made : start.MadeWith stored)
    (operations : List Operation)
    (covers : listing.Covers (stored ++ start.handedOver operations)) :
    let g := start.session operations
    g.ViewsAgree (listing.adjacent g .outgoing) (listing.adjacent g .ingoing)
        (listing.neighbors g) ∧
      ∀ v < g.vertexCount, listing.adjacent g .outgoing v = (g.outgoing v).map (·.id) ∧
        listing.adjacent g .ingoing v = (g.ingoing v).map (·.id) ∧
        listing.neighbors g v = g.neighbors v := by
  intro g
  have valid : g.WellFormed := (made.reachable.session operations).wellFormed
  -- What has been handed over is what the edge table says by now.
  have covers : listing.Covers g.ends := by
    rw [ends_session, made.ends]
    exact covers
  refine ⟨.of_mem valid (listing.pairwise_adjacent g) ?_ (listing.pairwise_neighbors g) ?_,
    fun v known => ?_⟩
  · exact fun direction v known i => Listing.mem_adjacent covers known
  · exact fun v known w => Listing.mem_neighbors covers known
  · rw [outgoing, ingoing, position_of_lt known]
    exact ⟨Listing.adjacent_eq covers valid known .outgoing,
      Listing.adjacent_eq covers valid known .ingoing, Listing.neighbors_eq covers valid known⟩

/-- A loop, a road that is there both ways round, a removed road, and operations that fail. -/
theorem session_views_loop : ∃ start, ofExtract
      ⟨List.replicate 4 ⟨0, 0⟩, [⟨0, 1, 3, false⟩, ⟨1, 2, 4, true⟩, ⟨2, 3, 5, false⟩]⟩ = .ok start ∧
    let operations : List Operation := [.addEdge 1 1 2 true, .addEdge 2 1 9 true,
      .addEdge 1 9 1 false, .addShortcut 0 2 7 2 (0, 1) false, .markRemoved 0, .markRemoved 0]
    let g := start.session operations
    let listing := Listing.newestFirst ([(0, 1), (1, 2), (2, 3)] ++ start.handedOver operations)
    listing.directed .outgoing 1 = [3, 1] ∧ listing.around 1 = [1, 2, 2, 0] ∧
    listing.adjacent g .outgoing 1 = [1, 3, 4] ∧ listing.adjacent g .ingoing 1 = [1, 3, 4] ∧
    listing.neighbors g 1 = [2] ∧ g.ViewsAgree (listing.adjacent g .outgoing)
      (listing.adjacent g .ingoing) (listing.neighbors g) := by
  have computed : (do
      let start ← ofExtract
        ⟨List.replicate 4 ⟨0, 0⟩, [⟨0, 1, 3, false⟩, ⟨1, 2, 4, true⟩, ⟨2, 3, 5, false⟩]⟩
      let operations : List Operation := [.addEdge 1 1 2 true, .addEdge 2 1 9 true,
        .addEdge 1 9 1 false, .addShortcut 0 2 7 2 (0, 1) false, .markRemoved 0, .markRemoved 0]
      let g := start.session operations
      return (start.handedOver operations, g.vertexCount, (g.outgoing 1).map Edge.id,
        (g.ingoing 1).map Edge.id, g.neighbors 1)).toOption =
      some ([(1, 1), (2, 1), (0, 2)], 4, [1, 3, 4], [1, 3, 4], [2]) := by
    decide +kernel
  obtain ⟨start, extracted, computed⟩ := bind_eq_ok.mp (toOption_eq_some.mp computed)
  have values := pure_eq_ok.mp computed
  simp only [Prod.mk.injEq] at values
  obtain ⟨stored, size, out, into, near⟩ := values
  refine ⟨start, extracted, ?_⟩
  intro operations g listing
  have listed : listing = Listing.newestFirst [(0, 1), (1, 2), (2, 3), (1, 1), (2, 1), (0, 2)] :=
    congrArg (fun later => Listing.newestFirst ([(0, 1), (1, 2), (2, 3)] ++ later)) stored
  have covers := Listing.covers_newestFirst
    ([(0, 1), (1, 2), (2, 3)] ++ start.handedOver operations)
  obtain ⟨agree, each⟩ := session_views (.extract extracted) operations covers
  have known : 1 < g.vertexCount := by
    rw [size]
    decide
  obtain ⟨outgoing, ingoing, neighbors⟩ := each 1 known
  refine ⟨?_, ?_, outgoing.trans out, ingoing.trans into, neighbors.trans near, agree⟩
  · rw [listed]
    decide
  · rw [listed]
    decide

end Graph

end Agreement

end RoadHierarchy
