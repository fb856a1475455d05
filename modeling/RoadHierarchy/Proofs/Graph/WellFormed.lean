import RoadHierarchy.Graph.Adjacency
import RoadHierarchy.Graph.Extract
import RoadHierarchy.Proofs.Success

/-! # Well-formed graphs

The tables of a graph agree with one another: ids are positions, ends are vertices, shortcuts stand
for older edges, and the edges noted at a vertex are those that end there. Every operation keeps
this, whatever its arguments, so it holds of every graph that operations can build.
-/

namespace RoadHierarchy

namespace Edge

/-- The edge has an end at `v`. -/
def touches (e : Edge) (v : Nat) : Bool := e.source == v || e.target == v

theorem touches_iff {e : Edge} {v : Nat} : e.touches v = true ↔ e.source = v ∨ e.target = v := by
  simp [touches]

end Edge

namespace Graph

/-- The tables of the graph agree. -/
structure WellFormed (g : Graph) : Prop where
  vertex_id : ∀ (i : Nat) (v : Vertex), g.vertices[i]? = some v → v.id = i
  edge_id : ∀ (i : Nat) (e : Edge), g.edges[i]? = some e → e.id = i
  ends : ∀ e ∈ g.edges, e.source < g.vertexCount ∧ e.target < g.vertexCount
  count_pos : ∀ e ∈ g.edges, 0 < e.count
  pair_lt : ∀ e ∈ g.edges, ∀ pair, e.pair = some pair → pair.1 < e.id ∧ pair.2 < e.id
  /-- A vertex has a round when it has been contracted. -/
  round_iff : ∀ v ∈ g.vertices, v.processed = true ↔ v.round.isSome = true
  touching_size : g.touching.size = g.vertexCount
  /-- A vertex notes the edges that end there, each once and in ascending order. -/
  touching : ∀ (v : Nat) (ids : Array Nat), g.touching[v]? = some ids →
    ids.toList = (g.edges.toList.filter (·.touches v)).map (·.id)

/-- The graph with one more edge. -/
def withEdge (g : Graph) (e : Edge) : Graph :=
  let atSource := touch g.touching e.id e.source
  { g with
    edges := g.edges.push e,
    touching := if e.source = e.target then atSource else touch atSource e.id e.target }

/-- The graph with one edge flagged as removed. -/
def withoutEdge (g : Graph) (e : Nat) : Graph :=
  { g with edges := g.edges.modify e ({ · with removed := true }) }

/-- The graph with one vertex changed. -/
def withVertex (g : Graph) (v : Nat) (change : Vertex → Vertex) : Graph :=
  { g with vertices := g.vertices.modify v change }

variable {g next : Graph}

theorem edge?_eq_some {i : Nat} {e : Edge} (known : i < g.edgeCount) :
    g.edge? i = some e ↔ g.edges[i]? = some e := by
  rw [edge?, position_of_lt known]

theorem vertex?_of_lt {v : Nat} (known : v < g.vertexCount) : g.vertex? v = g.vertices[v]? := by
  rw [vertex?, position_of_lt known]

theorem edge_eq_ok {i : Nat} {e : Edge} : g.edge i = .ok e ↔ g.edge? i = some e := elim_eq_ok

theorem vertex_eq_ok {i : Nat} {v : Vertex} : g.vertex i = .ok v ↔ g.vertex? i = some v :=
  elim_eq_ok

theorem exists_vertex {v : Nat} (known : v < g.vertexCount) :
    ∃ vertex, g.vertex v = .ok vertex := by
  refine ⟨g.vertices[v], vertex_eq_ok.mpr ?_⟩
  rw [vertex?_of_lt known]
  exact Array.getElem?_eq_getElem known

theorem mem_edges_iff {e : Edge} : e ∈ g.edges ↔ ∃ i : Nat, g.edges[i]? = some e :=
  Array.mem_iff_getElem?

theorem isProcessed_eq_false_iff {v : Nat} (known : v < g.vertexCount) :
    g.isProcessed v = false ↔ ∃ vertex, g.vertices[v]? = some vertex ∧ vertex.processed = false := by
  have found : g.vertices[v]? = some g.vertices[v] := Array.getElem?_eq_getElem known
  rw [isProcessed, vertex?_of_lt known, found]
  simp

theorem requireVertex_eq_ok {v : Nat} {done : Unit} :
    g.requireVertex v = .ok done ↔ v < g.vertexCount := by
  unfold requireVertex
  split <;> simp_all

theorem requireEdge_eq_ok {e : Nat} {done : Unit} :
    g.requireEdge e = .ok done ↔ e < g.edgeCount := by
  unfold requireEdge
  split <;> simp_all

theorem requireEnds_eq_ok {source target count : Nat} {done : Unit} :
    g.requireEnds source target count = .ok done ↔
      source < g.vertexCount ∧ target < g.vertexCount ∧ 0 < count := by
  unfold requireEnds
  dsimp only
  cases found : [source, target].find? (g.vertexCount ≤ ·) with
  | some v =>
    have unknown : g.vertexCount ≤ v := by simpa using List.find?_some found
    have member := List.mem_of_find?_eq_some found
    simp only [List.mem_cons, List.not_mem_nil, or_false] at member
    simp only [reduceCtorEq, false_iff]
    omega
  | none =>
    simp only [List.find?_eq_none, List.mem_cons, List.not_mem_nil, or_false, decide_eq_true_eq,
      forall_eq_or_imp, forall_eq] at found
    dsimp only
    split
    · simp only [reduceCtorEq, false_iff]
      omega
    · simp only [true_iff]
      omega

theorem pushEdge_eq_ok {source target weight count id : Nat} {pair : Option (Nat × Nat)}
    {bidirectional : Bool} :
    g.pushEdge source target weight count pair bidirectional = .ok (id, next) ↔
      (source < g.vertexCount ∧ target < g.vertexCount ∧ 0 < count) ∧ id = g.edgeCount ∧
        next = g.withEdge
          ⟨g.edgeCount, source, target, weight, count, bidirectional, pair, false⟩ := by
  unfold pushEdge
  simp only [bind_eq_ok, requireEnds_eq_ok, pure_eq_ok, Prod.mk.injEq]
  constructor
  · rintro ⟨_, known, rfl, rfl⟩
    exact ⟨known, rfl, rfl⟩
  · rintro ⟨known, rfl, rfl⟩
    exact ⟨(), known, rfl, rfl⟩

theorem addShortcut_eq_ok {source target weight count id : Nat} {pair : Nat × Nat}
    {bidirectional : Bool} :
    g.addShortcut source target weight count pair bidirectional = .ok (id, next) ↔
      (pair.1 < g.edgeCount ∧ pair.2 < g.edgeCount) ∧
        g.pushEdge source target weight count (some pair) bidirectional = .ok (id, next) := by
  unfold addShortcut
  simp only [bind_eq_ok, requireEdge_eq_ok]
  constructor
  · rintro ⟨_, first, _, second, pushed⟩
    exact ⟨⟨first, second⟩, pushed⟩
  · rintro ⟨⟨first, second⟩, pushed⟩
    exact ⟨(), first, (), second, pushed⟩

theorem markRemoved_eq_ok {e : Nat} : g.markRemoved e = .ok next ↔
    (∃ edge, g.edges[e]? = some edge ∧ edge.removed = false) ∧ next = g.withoutEdge e := by
  unfold markRemoved
  simp only [bind_eq_ok, requireEdge_eq_ok]
  constructor
  · rintro ⟨_, known, success⟩
    have found : g.edges[e]? = some g.edges[e] := Array.getElem?_eq_getElem known
    rw [edge?, position_of_lt known, found] at success
    cases flag : g.edges[e].removed with
    | true => simp [flag, map_eq_ok, throw_ne_ok] at success
    | false =>
      simp [flag, pure_eq_ok] at success
      exact ⟨⟨_, found, flag⟩, success.symm⟩
  · rintro ⟨⟨edge, found, live⟩, rfl⟩
    have known : e < g.edgeCount := (Array.getElem?_eq_some_iff.mp found).1
    refine ⟨(), known, ?_⟩
    simp [edge?, position_of_lt known, found, live, pure_eq_ok, withoutEdge]

theorem markProcessed_eq_ok {v round : Nat} : g.markProcessed v round = .ok next ↔
    (v < g.vertexCount ∧ g.isProcessed v = false) ∧
      next = g.withVertex v ({ · with processed := true, round := some round }) := by
  unfold markProcessed
  simp only [bind_eq_ok, requireVertex_eq_ok]
  constructor
  · rintro ⟨_, known, success⟩
    cases flag : g.isProcessed v with
    | true => simp [flag, map_eq_ok, throw_ne_ok] at success
    | false =>
      simp [flag, pure_eq_ok] at success
      exact ⟨⟨known, rfl⟩, success.symm⟩
  · rintro ⟨⟨known, flag⟩, rfl⟩
    refine ⟨(), known, ?_⟩
    simp [flag, pure_eq_ok, withVertex]

theorem updateVertex_eq_ok {v : Nat} {change : Vertex → Vertex} :
    g.updateVertex v change = .ok next ↔
      (∃ vertex, g.vertex? v = some vertex) ∧
        next = g.withVertex (position g.vertexCount v) change := by
  unfold updateVertex
  simp only [bind_eq_ok, vertex_eq_ok, pure_eq_ok]
  constructor
  · rintro ⟨vertex, found, rfl⟩
    exact ⟨⟨vertex, found⟩, rfl⟩
  · rintro ⟨⟨vertex, found⟩, rfl⟩
    exact ⟨vertex, found, rfl⟩

theorem withEdge_touching (e : Edge) (v : Nat) : (g.withEdge e).touching[v]? =
    g.touching[v]?.map fun ids => if e.touches v then ids.push e.id else ids := by
  have ends := Edge.touches_iff (e := e) (v := v)
  simp only [withEdge, touch]
  split
  · next loop =>
    rw [Array.getElem?_modify]
    by_cases here : e.source = v
    · simp [here, ends.mpr (.inl here)]
    · have away : e.touches v = false := by
        rw [← Bool.not_eq_true, ends, ← loop]
        simpa using here
      simp [here, away]
  · next apart =>
    rw [Array.getElem?_modify, Array.getElem?_modify]
    by_cases atSource : e.source = v
    · have elsewhere : e.target ≠ v := fun atTarget => apart (atSource.trans atTarget.symm)
      simp [atSource, elsewhere, ends.mpr (.inl atSource)]
    · by_cases atTarget : e.target = v
      · simp [atSource, atTarget, ends.mpr (.inr atTarget)]
      · have away : e.touches v = false := by
          rw [← Bool.not_eq_true, ends]
          exact not_or.mpr ⟨atSource, atTarget⟩
        simp [atSource, atTarget, away]

theorem withoutEdge_edges (i j : Nat) : (g.withoutEdge i).edges[j]? =
    g.edges[j]?.map fun e => if i = j then { e with removed := true } else e := by
  rw [withoutEdge, Array.getElem?_modify]
  split <;> simp

theorem withVertex_vertices (v w : Nat) (change : Vertex → Vertex) :
    (g.withVertex v change).vertices[w]? =
      g.vertices[w]?.map fun vertex => if v = w then change vertex else vertex := by
  rw [withVertex, Array.getElem?_modify]
  split <;> simp

/-- Names that are positions count the entries of a table. -/
theorem map_eq_range {α : Type} {table : Array α} {name : α → Nat}
    (named : ∀ (i : Nat) (entry : α), table[i]? = some entry → name entry = i) :
    table.toList.map name = List.range table.size := by
  apply List.ext_getElem?
  intro i
  rw [List.getElem?_map, Array.getElem?_toList]
  cases found : table[i]? with
  | none =>
    have past : table.size ≤ i := Array.getElem?_eq_none_iff.mp found
    rw [List.getElem?_eq_none (by rw [List.length_range]; exact past)]
    rfl
  | some entry =>
    have known : i < table.size := (Array.getElem?_eq_some_iff.mp found).1
    rw [List.getElem?_range known, Option.map_some, named i entry found]

private theorem filter_modify {keep : Edge → Bool} {change : Edge → Edge}
    (kept : ∀ e, keep (change e) = keep e) (named : ∀ e, (change e).id = e.id) (i : Nat)
    (edges : List Edge) :
    ((edges.modify i change).filter keep).map (·.id) = (edges.filter keep).map (·.id) := by
  induction edges generalizing i with
  | nil => simp
  | cons e rest ih =>
    cases i with
    | zero =>
      rw [List.modify_zero_cons, List.filter_cons, List.filter_cons, kept]
      split <;> simp [named]
    | succ i =>
      rw [List.modify_succ_cons, List.filter_cons, List.filter_cons]
      split <;> simp [ih]

namespace WellFormed

theorem empty : WellFormed .empty where
  vertex_id i v found := by simp [Graph.empty] at found
  edge_id i e found := by simp [Graph.empty] at found
  ends e member := by simp [Graph.empty] at member
  count_pos e member := by simp [Graph.empty] at member
  pair_lt e member := by simp [Graph.empty] at member
  round_iff v member := by simp [Graph.empty] at member
  touching_size := rfl
  touching v ids found := by simp [Graph.empty] at found

theorem edge_lt (valid : g.WellFormed) {e : Edge} (member : e ∈ g.edges) :
    e.id < g.edgeCount := by
  obtain ⟨i, found⟩ := mem_edges_iff.mp member
  rw [valid.edge_id i e found]
  exact (Array.getElem?_eq_some_iff.mp found).1

/-- The ids of the vertices count them. -/
theorem vertex_ids (valid : g.WellFormed) :
    g.vertices.toList.map (·.id) = List.range g.vertexCount :=
  map_eq_range valid.vertex_id

/-- The ids of the edges count them. -/
theorem edge_ids (valid : g.WellFormed) : g.edges.toList.map (·.id) = List.range g.edgeCount :=
  map_eq_range valid.edge_id

/-- An edge is found under its id. -/
theorem find_edge (valid : g.WellFormed) {e : Edge} (member : e ∈ g.edges) :
    g.edges[e.id]? = some e := by
  obtain ⟨i, found⟩ := mem_edges_iff.mp member
  rw [valid.edge_id i e found]
  exact found

theorem eq_of_id (valid : g.WellFormed) {e other : Edge} (member : e ∈ g.edges)
    (there : other ∈ g.edges) (same : e.id = other.id) : e = other := by
  have found := valid.find_edge member
  rw [same, valid.find_edge there] at found
  exact (Option.some.inj found).symm

theorem addVertex (valid : g.WellFormed) (lat lon : Float) :
    (g.addVertex lat lon).2.WellFormed where
  vertex_id i v found := by
    simp only [Graph.addVertex, Array.getElem?_push] at found
    split at found
    · next last =>
      obtain rfl := Option.some.inj found
      exact last.symm
    · exact valid.vertex_id i v found
  edge_id := valid.edge_id
  ends e member := by
    have known := valid.ends e member
    simp only [Graph.addVertex, vertexCount, Array.size_push] at known ⊢
    omega
  count_pos := valid.count_pos
  pair_lt := valid.pair_lt
  round_iff v member := by
    rcases Array.mem_push.mp member with old | rfl
    · exact valid.round_iff v old
    · simp [Vertex.fresh]
  touching_size := by
    simp only [Graph.addVertex, vertexCount, Array.size_push]
    exact congrArg (· + 1) valid.touching_size
  touching v ids found := by
    simp only [Graph.addVertex, Array.getElem?_push] at found
    split at found
    · next last =>
      obtain rfl := Option.some.inj found
      have fresh : g.edges.toList.filter (·.touches v) = [] := by
        refine List.filter_eq_nil_iff.mpr fun e member => ?_
        have known := valid.ends e (Array.mem_toList_iff.mp member)
        rw [Edge.touches_iff]
        rw [last, valid.touching_size]
        omega
      rw [show (g.addVertex lat lon).2.edges = g.edges from rfl, fresh]
      rfl
    · exact valid.touching v ids found

theorem withEdge (valid : g.WellFormed) {e : Edge} (named : e.id = g.edgeCount)
    (source : e.source < g.vertexCount) (target : e.target < g.vertexCount) (count : 0 < e.count)
    (pair : ∀ pair, e.pair = some pair → pair.1 < e.id ∧ pair.2 < e.id) :
    (g.withEdge e).WellFormed where
  vertex_id := valid.vertex_id
  edge_id i other found := by
    simp only [Graph.withEdge, Array.getElem?_push] at found
    split at found
    · next last =>
      obtain rfl := Option.some.inj found
      exact named.trans last.symm
    · exact valid.edge_id i other found
  ends other member := by
    rcases Array.mem_push.mp member with old | rfl
    · exact valid.ends other old
    · exact ⟨source, target⟩
  count_pos other member := by
    rcases Array.mem_push.mp member with old | rfl
    · exact valid.count_pos other old
    · exact count
  pair_lt other member := by
    rcases Array.mem_push.mp member with old | rfl
    · exact valid.pair_lt other old
    · exact pair
  round_iff := valid.round_iff
  touching_size := by
    have size : (g.withEdge e).touching.size = g.touching.size := by
      simp only [Graph.withEdge, touch]
      split <;> simp
    exact size.trans valid.touching_size
  touching v ids found := by
    rw [withEdge_touching] at found
    obtain ⟨old, before, rfl⟩ := Option.map_eq_some_iff.mp found
    have noted := valid.touching v old before
    have added : (g.withEdge e).edges.toList = g.edges.toList ++ [e] := Array.toList_push
    rw [added, List.filter_append, List.map_append, ← noted]
    by_cases here : e.touches v <;> simp [here]

theorem withoutEdge (valid : g.WellFormed) (i : Nat) : (g.withoutEdge i).WellFormed := by
  have origin : ∀ (j : Nat) (e : Edge), (g.withoutEdge i).edges[j]? = some e →
      ∃ old, g.edges[j]? = some old ∧ e = { old with removed := e.removed } := by
    intro j e found
    rw [withoutEdge_edges] at found
    obtain ⟨old, before, rfl⟩ := Option.map_eq_some_iff.mp found
    refine ⟨old, before, ?_⟩
    split <;> rfl
  have aged : ∀ e ∈ (g.withoutEdge i).edges,
      ∃ old ∈ g.edges, e = { old with removed := e.removed } := by
    intro e member
    obtain ⟨j, found⟩ := mem_edges_iff.mp member
    obtain ⟨old, before, same⟩ := origin j e found
    exact ⟨old, mem_edges_iff.mpr ⟨j, before⟩, same⟩
  refine ⟨valid.vertex_id, ?_, ?_, ?_, ?_, valid.round_iff, valid.touching_size, ?_⟩
  · intro j e found
    obtain ⟨old, before, same⟩ := origin j e found
    rw [same]
    exact valid.edge_id j old before
  · intro e member
    obtain ⟨old, before, same⟩ := aged e member
    rw [same]
    exact valid.ends old before
  · intro e member
    obtain ⟨old, before, same⟩ := aged e member
    rw [same]
    exact valid.count_pos old before
  · intro e member pair
    obtain ⟨old, before, same⟩ := aged e member
    rw [same]
    exact valid.pair_lt old before pair
  · intro v ids found
    rw [valid.touching v ids found, Graph.withoutEdge, Array.toList_modify]
    refine (filter_modify ?_ ?_ i g.edges.toList).symm
    all_goals exact fun _ => rfl

theorem withVertex (valid : g.WellFormed) (v : Nat) {change : Vertex → Vertex}
    (named : ∀ vertex, (change vertex).id = vertex.id)
    (rounds : ∀ vertex, (vertex.processed = true ↔ vertex.round.isSome = true) →
      ((change vertex).processed = true ↔ (change vertex).round.isSome = true)) :
    (g.withVertex v change).WellFormed := by
  have size : (g.withVertex v change).vertexCount = g.vertexCount := Array.size_modify
  refine ⟨?_, valid.edge_id, ?_, valid.count_pos, valid.pair_lt, ?_, ?_, valid.touching⟩
  · intro w vertex found
    rw [withVertex_vertices] at found
    obtain ⟨old, before, rfl⟩ := Option.map_eq_some_iff.mp found
    split
    · exact (named old).trans (valid.vertex_id w old before)
    · exact valid.vertex_id w old before
  · rw [size]
    exact valid.ends
  · intro vertex member
    obtain ⟨w, found⟩ := Array.mem_iff_getElem?.mp member
    rw [withVertex_vertices] at found
    obtain ⟨old, before, rfl⟩ := Option.map_eq_some_iff.mp found
    have kept := valid.round_iff old (Array.mem_iff_getElem?.mpr ⟨w, before⟩)
    split
    · exact rounds old kept
    · exact kept
  · rw [size]
    exact valid.touching_size

end WellFormed

end Graph

end RoadHierarchy
