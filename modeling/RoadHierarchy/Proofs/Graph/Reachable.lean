import RoadHierarchy.Proofs.Graph.WellFormed

/-! # Reachable graphs

The graphs that operations can build from the empty one. An extracted network is turned into a
graph by such operations, and every graph they build is well formed. In the graph of an extracted
network nothing has been contracted yet, and every edge is an input edge.
-/

namespace RoadHierarchy

/-- An operation that changes a graph. -/
inductive Operation where
  | addVertex (lat lon : Float)
  | addEdge (source target weight : Nat) (bidirectional : Bool)
  | addShortcut (source target weight count : Nat) (pair : Nat × Nat) (bidirectional : Bool)
  | markRemoved (edge : Nat)
  | markProcessed (vertex round : Nat)
  | setPriority (vertex : Nat) (priority : Float)
  | raiseDepth (vertex depth : Nat)

/-- The graph after an operation, unless it fails. -/
def Operation.perform (g : Graph) : Operation → Except Failure Graph
  | addVertex lat lon => .ok (g.addVertex lat lon).2
  | addEdge source target weight bidirectional =>
      (·.2) <$> g.addEdge source target weight bidirectional
  | addShortcut source target weight count pair bidirectional =>
      (·.2) <$> g.addShortcut source target weight count pair bidirectional
  | markRemoved edge => g.markRemoved edge
  | markProcessed vertex round => g.markProcessed vertex round
  | setPriority vertex priority => g.setPriority vertex priority
  | raiseDepth vertex depth => g.raiseDepth vertex depth

namespace Graph

/-- A graph that operations build from the empty one. -/
inductive Reachable : Graph → Prop
  | empty : Reachable .empty
  | perform {g next : Graph} (operation : Operation) :
      Reachable g → operation.perform g = .ok next → Reachable next

variable {g next : Graph}

namespace WellFormed

theorem markRemoved (valid : g.WellFormed) {e : Nat} (success : g.markRemoved e = .ok next) :
    next.WellFormed := by
  obtain ⟨-, rfl⟩ := markRemoved_eq_ok.mp success
  exact valid.withoutEdge e

theorem pushEdge (valid : g.WellFormed) {source target weight count id : Nat}
    {pair : Option (Nat × Nat)} {bidirectional : Bool}
    (older : ∀ ids, pair = some ids → ids.1 < g.edgeCount ∧ ids.2 < g.edgeCount)
    (success : g.pushEdge source target weight count pair bidirectional = .ok (id, next)) :
    next.WellFormed := by
  obtain ⟨⟨fromSource, toTarget, positive⟩, -, rfl⟩ := pushEdge_eq_ok.mp success
  exact valid.withEdge rfl fromSource toTarget positive older

theorem addShortcut (valid : g.WellFormed) {source target weight count id : Nat}
    {pair : Nat × Nat} {bidirectional : Bool}
    (success : g.addShortcut source target weight count pair bidirectional = .ok (id, next)) :
    next.WellFormed := by
  obtain ⟨older, pushed⟩ := addShortcut_eq_ok.mp success
  refine valid.pushEdge ?_ pushed
  rintro ids ⟨⟩
  exact older

theorem markProcessed (valid : g.WellFormed) {v round : Nat}
    (success : g.markProcessed v round = .ok next) : next.WellFormed := by
  obtain ⟨-, rfl⟩ := markProcessed_eq_ok.mp success
  refine valid.withVertex v (fun _ => rfl) fun _ _ => ?_
  simp

theorem updateVertex (valid : g.WellFormed) {v : Nat} {change : Vertex → Vertex}
    (success : g.updateVertex v change = .ok next)
    (named : ∀ vertex, (change vertex).id = vertex.id)
    (flagged : ∀ vertex, (change vertex).processed = vertex.processed)
    (rounds : ∀ vertex, (change vertex).round = vertex.round) : next.WellFormed := by
  obtain ⟨-, rfl⟩ := updateVertex_eq_ok.mp success
  refine valid.withVertex _ named fun vertex kept => ?_
  rw [flagged, rounds]
  exact kept

/-- Operations keep a graph well formed, whatever their arguments. -/
theorem perform (valid : g.WellFormed) {operation : Operation}
    (success : operation.perform g = .ok next) : next.WellFormed := by
  cases operation with
  | addVertex lat lon =>
    obtain rfl := Except.ok.inj success
    exact valid.addVertex lat lon
  | addEdge source target weight bidirectional =>
    obtain ⟨⟨id, _⟩, added, rfl⟩ := map_eq_ok.mp success
    exact valid.pushEdge (fun _ none => by cases none) added
  | addShortcut source target weight count pair bidirectional =>
    obtain ⟨⟨id, _⟩, added, rfl⟩ := map_eq_ok.mp success
    exact valid.addShortcut added
  | markRemoved edge => exact valid.markRemoved success
  | markProcessed vertex round => exact valid.markProcessed success
  | setPriority vertex priority =>
    exact valid.updateVertex success (fun _ => rfl) (fun _ => rfl) (fun _ => rfl)
  | raiseDepth vertex depth =>
    exact valid.updateVertex success (fun _ => rfl) (fun _ => rfl) (fun _ => rfl)

end WellFormed

theorem Reachable.wellFormed (reachable : g.Reachable) : g.WellFormed := by
  induction reachable with
  | empty => exact .empty
  | perform _ _ success valid => exact valid.perform success

theorem reachable_ofJunctions (junctions : List Junction) : (ofJunctions junctions).Reachable := by
  unfold ofJunctions
  refine List.foldlRecOn junctions _ .empty fun g reachable junction _ => ?_
  exact .perform (.addVertex junction.lat junction.lon) reachable rfl

/-- An extracted network becomes a reachable graph. -/
theorem reachable_ofExtract {extract : Extract} (success : ofExtract extract = .ok g) :
    g.Reachable := by
  refine foldlM_keeps Reachable ?_ success (reachable_ofJunctions extract.junctions)
  intro road _ state next added reachable
  unfold addRoad at added
  split at added
  · cases added
  · exact .perform (.addEdge road.source road.target road.weight.toNat road.bidirectional)
      reachable added

/-- Nothing has been contracted yet, and every edge is an input edge. -/
structure Plain (g : Graph) : Prop where
  vertices : ∀ v ∈ g.vertices, v.processed = false
  edges : ∀ e ∈ g.edges, e.removed = false ∧ e.pair = none ∧ e.count = 1

theorem Plain.not_isShortcut (plain : g.Plain) {e : Edge} (member : e ∈ g.edges) :
    ¬ e.isShortcut = true := by
  rw [Edge.isShortcut, (plain.edges e member).2.1]
  exact Bool.false_ne_true

theorem Plain.addRoad (plain : g.Plain) {road : Road} (success : g.addRoad road = .ok next) :
    next.Plain := by
  unfold Graph.addRoad at success
  split at success
  · cases success
  · obtain ⟨⟨id, _⟩, pushed, rfl⟩ := map_eq_ok.mp success
    obtain ⟨-, -, rfl⟩ := pushEdge_eq_ok.mp pushed
    refine ⟨plain.vertices, fun e member => ?_⟩
    rcases Array.mem_push.mp member with old | rfl
    · exact plain.edges e old
    · exact ⟨rfl, rfl, rfl⟩

/-- Roads are edges, and leave the vertices as they are. -/
theorem addRoad_vertices {road : Road} (success : g.addRoad road = .ok next) :
    next.vertices = g.vertices := by
  unfold Graph.addRoad at success
  split at success
  · cases success
  · obtain ⟨⟨id, _⟩, pushed, rfl⟩ := map_eq_ok.mp success
    obtain ⟨-, -, rfl⟩ := pushEdge_eq_ok.mp pushed
    rfl

/-- In the graph of an extracted network no vertex has a depth. -/
theorem depth_ofExtract {extract : Extract} (success : ofExtract extract = .ok g) :
    ∀ v ∈ g.vertices, v.depth = 0 := by
  have junctions : ∀ v ∈ (ofJunctions extract.junctions).vertices, v.depth = 0 := by
    refine List.foldlRecOn (motive := fun g : Graph => ∀ v ∈ g.vertices, v.depth = 0)
      extract.junctions _ ?_ fun g flat junction _ v member => ?_
    · exact fun v member => (Array.not_mem_empty v member).elim
    · rcases Array.mem_push.mp member with old | rfl
      · exact flat v old
      · rfl
  refine foldlM_keeps (fun g : Graph => ∀ v ∈ g.vertices, v.depth = 0) ?_ success junctions
  intro road _ state next added flat
  rw [addRoad_vertices added]
  exact flat

theorem plain_ofJunctions (junctions : List Junction) : (ofJunctions junctions).Plain := by
  refine List.foldlRecOn junctions _ ⟨?_, ?_⟩ fun g plain junction _ => ⟨?_, plain.edges⟩
  · intro v member
    cases Array.not_mem_empty v member
  · intro e member
    cases Array.not_mem_empty e member
  · intro v member
    rcases Array.mem_push.mp member with old | rfl
    · exact plain.vertices v old
    · rfl

theorem plain_ofExtract {extract : Extract} (success : ofExtract extract = .ok g) : g.Plain := by
  refine foldlM_keeps Plain ?_ success (plain_ofJunctions extract.junctions)
  exact fun road _ state next added plain => plain.addRoad added

end Graph

end RoadHierarchy
