import RoadHierarchy.Proofs.Graph.WellFormed
import RoadHierarchy.Proofs.Network

/-! # The networks of a graph

The live edges of a graph are a network, those between unprocessed vertices are its core, and those
that lead to later rounds or come from them are the two sides of a hierarchy. The adjacency of a
well-formed graph lists exactly the live edges at a vertex.
-/

namespace RoadHierarchy

namespace Edge

variable {e : Edge} {u v w : Nat}

theorem Drives.other (drives : e.Drives u w) : e.other u = w := by
  rcases drives with ⟨source, target⟩ | ⟨-, target, source⟩
  · rw [Edge.other, if_pos source, target]
  · rw [Edge.other, target, source]
    split
    · next loop => exact loop.symm
    · rfl

theorem Drives.other_end (drives : e.Drives u w) : e.other w = u := by
  rcases drives with ⟨source, target⟩ | ⟨-, target, source⟩
  · rw [Edge.other, source, target]
    split
    · next loop => exact loop.symm
    · rfl
  · rw [Edge.other, if_pos source, target]

theorem Drives.ends_eq {x y : Nat} (known : e.Drives u w) (drives : e.Drives x y) :
    x = u ∧ y = w ∨ x = w ∧ y = u := by
  rcases known with ⟨rfl, rfl⟩ | ⟨-, rfl, rfl⟩
  · exact drives.imp (fun ends => ⟨ends.1.symm, ends.2.symm⟩)
      fun back => ⟨back.2.1.symm, back.2.2.symm⟩
  · exact drives.symm.imp (fun back => ⟨back.2.1.symm, back.2.2.symm⟩)
      fun ends => ⟨ends.1.symm, ends.2.symm⟩

theorem Drives.of_oneWay (oneWay : e.bidirectional = false) (drives : e.Drives u w) :
    e.source = u ∧ e.target = w := by
  rcases drives with ends | ⟨both, -⟩
  · exact ends
  · rw [oneWay] at both
    cases both

theorem Drives.touches_start (drives : e.Drives u w) : e.touches u = true := by
  rw [touches_iff]
  exact drives.imp And.left fun back => back.2.1

theorem Drives.touches_goal (drives : e.Drives u w) : e.touches w = true := by
  rw [touches_iff]
  exact drives.symm.imp (fun back => back.2.2) And.right

theorem leaves_iff : e.leaves u = true ↔ e.Drives u (e.other u) := by
  simp only [leaves, Bool.or_eq_true, beq_iff_eq, Bool.and_eq_true]
  constructor
  · rintro (source | ⟨both, target⟩)
    · exact .inl ⟨source, by rw [other, if_pos source]⟩
    · have drives : e.Drives u e.source := .inr ⟨both, target, rfl⟩
      rw [drives.other]
      exact drives
  · exact fun drives => drives.imp And.left fun back => ⟨back.1, back.2.1⟩

theorem enters_iff : e.enters w = true ↔ e.Drives (e.other w) w := by
  simp only [enters, Bool.or_eq_true, beq_iff_eq, Bool.and_eq_true]
  constructor
  · rintro (target | ⟨both, source⟩)
    · have drives : e.Drives e.source w := .inl ⟨rfl, target⟩
      rw [drives.other_end]
      exact drives
    · exact .inr ⟨both, by rw [other, if_pos source], source⟩
  · exact fun drives => drives.imp And.right fun back => ⟨back.1, back.2.2⟩

/-- An edge that can be driven both ways between different vertices is a two-way edge. -/
theorem Drives.bidirectional (forth : e.Drives u w) (back : e.Drives w u) (apart : u ≠ w) :
    e.bidirectional = true := by
  rcases forth with ⟨source, target⟩ | ⟨both, -⟩
  · rcases back with ⟨other, -⟩ | ⟨both, -⟩
    · exact (apart (source.symm.trans other)).elim
    · exact both
  · exact both

theorem Drives.reverse (forth : e.Drives u w) (both : e.bidirectional = true) : e.Drives w u :=
  forth.elim (fun ends => .inr ⟨both, ends.2, ends.1⟩) fun back => .inl ⟨back.2.2, back.2.1⟩

end Edge

namespace Graph

/-- The live edges, each in the directions it allows. -/
def live (g : Graph) : Network := fun e u w => e ∈ g.edges ∧ e.removed = false ∧ e.Drives u w

/-- The live edges between vertices that have not been contracted. -/
def core (g : Graph) : Network := g.live.within fun v => g.isProcessed v = false

/-- The round in which a vertex was contracted. -/
def round? (g : Graph) (v : Nat) : Option Nat := (g.vertex? v).bind (·.round)

/-- Both vertices have been contracted, the first one in an earlier round. -/
def Below (g : Graph) (u w : Nat) : Prop :=
  ∃ low high, g.round? u = some low ∧ g.round? w = some high ∧ low < high

/-- The live edges that lead to a later round. -/
def upward (g : Graph) : Network := fun e u w => g.live e u w ∧ g.Below u w

/-- The live edges that come from a later round. -/
def downward (g : Graph) : Network := fun e u w => g.live e u w ∧ g.Below w u

variable {g : Graph} {e : Edge} {u v w : Nat}

namespace WellFormed

theorem drives_lt (valid : g.WellFormed) (member : e ∈ g.edges) (drives : e.Drives u w) :
    u < g.vertexCount ∧ w < g.vertexCount := by
  obtain ⟨source, target⟩ := valid.ends e member
  rcases drives with ⟨rfl, rfl⟩ | ⟨-, rfl, rfl⟩
  · exact ⟨source, target⟩
  · exact ⟨target, source⟩

/-- The edges noted at a vertex are those of the edge table that end there. -/
theorem liveEdges (valid : g.WellFormed) (known : v < g.vertexCount) :
    g.liveEdges v = g.edges.toList.filter fun e => e.touches v && !e.removed := by
  have present : v < g.touching.size := valid.touching_size ▸ known
  have noted : g.touching[v]? = some g.touching[v] := Array.getElem?_eq_getElem present
  have ids := valid.touching v _ noted
  have found : ∀ e ∈ g.edges.toList.filter (·.touches v),
      ((fun id : Nat => g.edges[id]?) ∘ fun e : Edge => e.id) e = some e := by
    intro e member
    exact valid.find_edge (Array.mem_toList_iff.mp (List.mem_filter.mp member).1)
  rw [Graph.liveEdges, position_of_lt known, noted, Option.getD_some]
  rw [ids, List.filterMap_map, List.filterMap_congr found,
    List.filterMap_some, List.filter_filter]
  exact List.filter_congr fun e _ => Bool.and_comm _ _

theorem mem_liveEdges (valid : g.WellFormed) (known : v < g.vertexCount) :
    e ∈ g.liveEdges v ↔ e ∈ g.edges ∧ e.removed = false ∧ e.touches v = true := by
  rw [valid.liveEdges known, List.mem_filter, Array.mem_toList_iff, Bool.and_eq_true,
    Bool.not_eq_true', and_comm (a := e.touches v = true)]

theorem mem_outgoing (valid : g.WellFormed) (known : v < g.vertexCount) :
    e ∈ g.outgoing v ↔ g.live e v (e.other v) := by
  rw [outgoing, position_of_lt known, List.mem_filter, valid.mem_liveEdges known, Edge.leaves_iff]
  constructor
  · rintro ⟨⟨member, alive, -⟩, drives⟩
    exact ⟨member, alive, drives⟩
  · rintro ⟨member, alive, drives⟩
    exact ⟨⟨member, alive, drives.touches_start⟩, drives⟩

theorem mem_ingoing (valid : g.WellFormed) (known : v < g.vertexCount) :
    e ∈ g.ingoing v ↔ g.live e (e.other v) v := by
  rw [ingoing, position_of_lt known, List.mem_filter, valid.mem_liveEdges known, Edge.enters_iff]
  constructor
  · rintro ⟨⟨member, alive, -⟩, drives⟩
    exact ⟨member, alive, drives⟩
  · rintro ⟨member, alive, drives⟩
    exact ⟨⟨member, alive, drives.touches_goal⟩, drives⟩

theorem mem_outgoing_of_live (valid : g.WellFormed) (step : g.live e v w) : e ∈ g.outgoing v := by
  rw [valid.mem_outgoing (valid.drives_lt step.1 step.2.2).1, step.2.2.other]
  exact step

theorem mem_ingoing_of_live (valid : g.WellFormed) (step : g.live e u v) : e ∈ g.ingoing v := by
  rw [valid.mem_ingoing (valid.drives_lt step.1 step.2.2).2, step.2.2.other_end]
  exact step

theorem mem_neighbors (valid : g.WellFormed) (known : v < g.vertexCount) :
    w ∈ g.neighbors v ↔
      w ≠ v ∧ ∃ e ∈ g.edges, e.removed = false ∧ e.touches v = true ∧ e.other v = w := by
  simp only [neighbors, position_of_lt known, Ascending.mem_ofList, List.mem_filter, List.mem_map,
    valid.mem_liveEdges known, decide_not, Bool.not_eq_true', decide_eq_false_iff_not]
  constructor
  · rintro ⟨⟨e, ⟨member, alive, touches⟩, rfl⟩, apart⟩
    exact ⟨apart, e, member, alive, touches, rfl⟩
  · rintro ⟨apart, e, member, alive, touches, rfl⟩
    exact ⟨⟨e, ⟨member, alive, touches⟩, rfl⟩, apart⟩

theorem mem_unprocessed (valid : g.WellFormed) :
    v ∈ g.unprocessed ↔ v < g.vertexCount ∧ g.isProcessed v = false := by
  simp only [unprocessed, List.mem_map, List.mem_filter, Bool.not_eq_true']
  constructor
  · rintro ⟨vertex, ⟨member, flag⟩, rfl⟩
    obtain ⟨i, found⟩ := Array.mem_iff_getElem?.mp (Array.mem_toList_iff.mp member)
    obtain rfl := valid.vertex_id i vertex found
    have known : vertex.id < g.vertexCount := (Array.getElem?_eq_some_iff.mp found).1
    exact ⟨known, (isProcessed_eq_false_iff known).mpr ⟨vertex, found, flag⟩⟩
  · rintro ⟨known, flag⟩
    obtain ⟨vertex, found, open_⟩ := (isProcessed_eq_false_iff known).mp flag
    have member := Array.mem_iff_getElem?.mpr ⟨v, found⟩
    exact ⟨vertex, ⟨Array.mem_toList_iff.mpr member, open_⟩, valid.vertex_id v vertex found⟩

end WellFormed

/-- A route over live edges stays among the vertices of the graph. -/
theorem WellFormed.stops_lt (valid : g.WellFormed) {net : Network}
    (live : ∀ e u w, net e u w → g.live e u w) {edges : List Edge}
    (route : net.Route u edges w) (known : u < g.vertexCount) :
    ∀ v ∈ Edge.departures u edges ++ [w], v < g.vertexCount := by
  induction route with
  | nil v => simpa [Edge.departures] using known
  | cons step _ ih =>
    have drives := live _ _ _ step
    have later := ih (valid.drives_lt drives.1 drives.2.2).2
    simp only [Edge.departures, List.cons_append]
    rw [drives.2.2.other]
    exact List.forall_mem_cons.mpr ⟨known, later⟩

/-- Different vertices of a graph are not more than the graph has. -/
theorem length_le_vertexCount {vertices : List Nat} (known : ∀ v ∈ vertices, v < g.vertexCount)
    (single : vertices.Nodup) : vertices.length ≤ g.vertexCount := by
  have part : vertices ⊆ List.range g.vertexCount :=
    fun v member => List.mem_range.mpr (known v member)
  have shorter := (List.subperm_of_subset single part).length_le
  rwa [List.length_range] at shorter

end Graph

end RoadHierarchy
