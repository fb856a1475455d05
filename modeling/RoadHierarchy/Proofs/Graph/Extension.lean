import RoadHierarchy.Proofs.Graph.Marks

/-! # A later graph extends an earlier one

Nothing is ever taken out of a graph or moved in it. A later graph extends an earlier one when edges
have only been appended, as shortcuts, and flagged; when no depth has become smaller; and when
nothing has happened to the vertices that had been contracted already, nor to the edges at them.
-/

namespace RoadHierarchy

/-- The vertex as it was, except that it may have been ranked, raised and contracted. Once it has
been contracted, it is as it was. -/
structure Vertex.Ages (old new : Vertex) : Prop where
  id : new.id = old.id
  lat : new.lat = old.lat
  lon : new.lon = old.lon
  depth : old.depth ≤ new.depth
  settled : old.processed = true → new = old

namespace Vertex.Ages

variable {old new last : Vertex}

theorem refl (v : Vertex) : v.Ages v := ⟨rfl, rfl, rfl, le_rfl, fun _ => rfl⟩

theorem trans (first : old.Ages new) (second : new.Ages last) : old.Ages last where
  id := second.id.trans first.id
  lat := second.lat.trans first.lat
  lon := second.lon.trans first.lon
  depth := first.depth.trans second.depth
  settled processed := by
    obtain rfl := first.settled processed
    exact second.settled processed

theorem unprocessed (ages : old.Ages new) (left : new.processed = false) :
    old.processed = false := by
  cases flag : old.processed with
  | false => rfl
  | true => rw [ages.settled flag, flag] at left; cases left

end Vertex.Ages

namespace Graph

/-- The later graph is the earlier one with shortcuts appended, edges flagged as removed, and
vertices ranked, raised and contracted. All of this concerns only vertices that had not been
contracted, and edges between such vertices. -/
structure Extends (g h : Graph) : Prop extends g.Grows h where
  vertices : ∀ (i : Nat) (old : Vertex), g.vertices[i]? = some old →
    ∃ new, h.vertices[i]? = some new ∧ old.Ages new
  /-- Every new edge is a shortcut between different vertices, under its position. -/
  appended : ∀ (i : Nat) (e : Edge), h.edges[i]? = some e → g.edgeCount ≤ i →
    e.isShortcut = true ∧ e.id = i ∧ e.source ≠ e.target
  confined : g.Confined (· ∈ g.unprocessed) h

variable {g m h : Graph} {v : Nat}

namespace Extends

/-- A graph with the same edges extends another one when its vertices have aged. -/
theorem of_edges_eq (edges : h.edges = g.edges) (vertexCount : h.vertexCount = g.vertexCount)
    (vertices : ∀ (i : Nat) (old : Vertex), g.vertices[i]? = some old →
      ∃ new, h.vertices[i]? = some new ∧ old.Ages new) : g.Extends h where
  toGrows := .of_edges_eq vertexCount edges
  vertices := vertices
  appended i e found past := by
    have known : i < g.edgeCount := by
      rw [edges] at found
      exact (Array.getElem?_eq_some_iff.mp found).1
    omega
  confined := .of_edges_eq edges

theorem refl (g : Graph) : g.Extends g :=
  of_edges_eq rfl rfl fun _ old found => ⟨old, found, .refl old⟩

/-- No vertex becomes unprocessed again. -/
theorem mem_unprocessed (extend : g.Extends h) (left : v ∈ h.unprocessed) : v ∈ g.unprocessed := by
  simp only [unprocessed, List.mem_map, List.mem_filter, Bool.not_eq_true'] at left ⊢
  obtain ⟨new, ⟨member, open_⟩, rfl⟩ := left
  obtain ⟨i, found⟩ := Array.mem_iff_getElem?.mp (Array.mem_toList_iff.mp member)
  have known : i < g.vertices.size := by
    have inside := (Array.getElem?_eq_some_iff.mp found).1
    rwa [← vertexCount, extend.vertexCount] at inside
  have before : g.vertices[i]? = some g.vertices[i] := Array.getElem?_eq_getElem known
  obtain ⟨other, there, aged⟩ := extend.vertices i _ before
  obtain rfl := Option.some.inj (found.symm.trans there)
  exact ⟨_, ⟨Array.mem_toList_iff.mpr (Array.getElem_mem known), aged.unprocessed open_⟩,
    aged.id.symm⟩

theorem trans (first : g.Extends m) (second : m.Extends h) : g.Extends h where
  toGrows := first.toGrows.trans second.toGrows
  vertices i old found := by
    obtain ⟨middle, there, young⟩ := first.vertices i old found
    obtain ⟨new, last, aged⟩ := second.vertices i middle there
    exact ⟨new, last, young.trans aged⟩
  appended i e found past := by
    cases between : m.edges[i]? with
    | none => exact second.appended i e found (Array.getElem?_eq_none_iff.mp between)
    | some old =>
      have aged := second.toGrows.ages between found
      obtain ⟨short, named, apart⟩ := first.appended i old between past
      rw [aged.isShortcut, aged.source, aged.target, aged.1]
      exact ⟨short, named, apart⟩
  confined := first.confined.trans (second.confined.mono fun _ => first.mem_unprocessed)

/-- A change of one vertex extends the graph when it lets the vertex age. -/
theorem withVertex {change : Vertex → Vertex}
    (ages : ∀ vertex, g.vertices[v]? = some vertex → vertex.Ages (change vertex)) :
    g.Extends (g.withVertex v change) := by
  refine of_edges_eq rfl Array.size_modify fun i old found => ?_
  rw [withVertex_vertices, found, Option.map_some]
  refine ⟨_, rfl, ?_⟩
  split
  · next here => exact ages old (here ▸ found)
  · exact .refl old

/-- A vertex that is still unprocessed may be ranked, raised and contracted. -/
theorem of_unprocessed {change : Vertex → Vertex} (known : v < g.vertexCount)
    (open_ : g.isProcessed v = false)
    (kept : ∀ vertex, (change vertex).id = vertex.id ∧ (change vertex).lat = vertex.lat ∧
      (change vertex).lon = vertex.lon ∧ vertex.depth ≤ (change vertex).depth) :
    g.Extends (g.withVertex v change) := by
  refine withVertex fun vertex found => ?_
  obtain ⟨other, there, flag⟩ := (isProcessed_eq_false_iff known).mp open_
  obtain rfl := Option.some.inj (found.symm.trans there)
  obtain ⟨id, lat, lon, depth⟩ := kept vertex
  exact ⟨id, lat, lon, depth, fun processed => by rw [flag] at processed; cases processed⟩

theorem of_setPriority {priority : Float} (valid : g.WellFormed) (open_ : v ∈ g.unprocessed)
    (success : g.setPriority v priority = .ok h) : g.Extends h := by
  obtain ⟨known, flag⟩ := valid.mem_unprocessed.mp open_
  obtain ⟨-, rfl⟩ := updateVertex_eq_ok.mp success
  rw [position_of_lt known]
  exact of_unprocessed known flag fun _ => ⟨rfl, rfl, rfl, le_rfl⟩

theorem of_raiseDepth {depth : Nat} (valid : g.WellFormed) (open_ : v ∈ g.unprocessed)
    (success : g.raiseDepth v depth = .ok h) : g.Extends h := by
  obtain ⟨known, flag⟩ := valid.mem_unprocessed.mp open_
  obtain ⟨-, rfl⟩ := updateVertex_eq_ok.mp success
  rw [position_of_lt known]
  exact of_unprocessed known flag fun _ => ⟨rfl, rfl, rfl, Nat.le_max_left ..⟩

theorem of_markProcessed {round : Nat} (success : g.markProcessed v round = .ok h) :
    g.Extends h := by
  obtain ⟨⟨known, flag⟩, rfl⟩ := markProcessed_eq_ok.mp success
  exact of_unprocessed known flag fun _ => ⟨rfl, rfl, rfl, le_rfl⟩

end Extends

end Graph

end RoadHierarchy
