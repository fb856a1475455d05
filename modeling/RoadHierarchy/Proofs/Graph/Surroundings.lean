import RoadHierarchy.Proofs.Graph.Marks

/-! # What surrounds a vertex

Which vertices are joined to a vertex depends on the live edges at it alone, and the contraction
changes edges only between some of the vertices. At all others, the edges are the same ones and come
in the same order. Depths and priorities change only where a vertex is updated.
-/

namespace RoadHierarchy.Graph

/-- A live edge joins the two vertices, whichever way it can be driven. -/
def Joins (g : Graph) (u w : Nat) : Prop :=
  ∃ e ∈ g.edges, e.removed = false ∧
    (e.source = u ∧ e.target = w ∨ e.source = w ∧ e.target = u)

/-- The hierarchy depth of a vertex. -/
def depth (g : Graph) (v : Nat) : Nat := ((g.vertex? v).map (·.depth)).getD 0

/-- The priority noted for a vertex. -/
def priority? (g : Graph) (v : Nat) : Option Float := (g.vertex? v).map (·.priority)

/-- The later graph differs only in the priorities of vertices. -/
structure Reranked (g h : Graph) : Prop extends g.Tuned h where
  depth : ∀ v < g.vertexCount, h.depth v = g.depth v

variable {g m h : Graph} {e : Edge} {u v w : Nat} {kind : Nat → Prop}

namespace Joins

theorem symm (joins : g.Joins u w) : g.Joins w u := by
  obtain ⟨e, member, alive, ends⟩ := joins
  exact ⟨e, member, alive, ends.symm⟩

theorem of_live (step : g.live e u w) : g.Joins u w :=
  ⟨e, step.1, step.2.1, step.2.2.imp id fun back => ⟨back.2.2, back.2.1⟩⟩

theorem exists_live (joins : g.Joins u w) : ∃ e, g.live e u w ∨ g.live e w u := by
  obtain ⟨e, member, alive, onward | backward⟩ := joins
  · exact ⟨e, .inl ⟨member, alive, .inl onward⟩⟩
  · exact ⟨e, .inr ⟨member, alive, .inl backward⟩⟩

theorem lt (joins : g.Joins u w) (valid : g.WellFormed) :
    u < g.vertexCount ∧ w < g.vertexCount := by
  obtain ⟨e, step | step⟩ := joins.exists_live
  · exact valid.drives_lt step.1 step.2.2
  · exact (valid.drives_lt step.1 step.2.2).symm

theorem of_edges_eq (edges : h.edges = g.edges) : h.Joins u w ↔ g.Joins u w := by
  unfold Joins
  rw [edges]

end Joins

theorem WellFormed.mem_neighbors_iff (valid : g.WellFormed) (known : v < g.vertexCount) :
    w ∈ g.neighbors v ↔ w ≠ v ∧ g.Joins v w := by
  rw [valid.mem_neighbors known]
  refine and_congr_right fun apart => ⟨?_, ?_⟩
  · rintro ⟨e, member, alive, touches, rfl⟩
    refine ⟨e, member, alive, ?_⟩
    unfold Edge.other
    split
    · next here => exact .inl ⟨here, rfl⟩
    · next away => exact .inr ⟨rfl, (Edge.touches_iff.mp touches).resolve_left away⟩
  · rintro ⟨e, member, alive, ends⟩
    have drives : e.Drives v w ∨ e.Drives w v := ends.imp .inl .inl
    rcases drives with forth | back
    · exact ⟨e, member, alive, forth.touches_start, forth.other⟩
    · exact ⟨e, member, alive, back.touches_goal, back.other_end⟩

theorem pairwise_liveEdges (valid : g.WellFormed) (known : v < g.vertexCount) :
    (g.liveEdges v).Pairwise (fun a b => a.id < b.id) := by
  have sorted : (g.edges.toList.map (·.id)).Pairwise (· < ·) := by
    rw [valid.edge_ids]
    exact List.pairwise_lt_range
  rw [valid.liveEdges known]
  exact (List.pairwise_map.mp sorted).filter _

namespace Confined

variable (confined : g.Confined kind h) (grows : g.Grows h)
include confined grows

/-- Outside of the kind, vertices are joined as before. -/
theorem joins_iff (outside : ¬ kind u) : h.Joins u w ↔ g.Joins u w := by
  constructor
  · rintro ⟨e, member, alive, ends⟩
    obtain ⟨i, found⟩ := mem_edges_iff.mp member
    rcases confined i e found with before | ⟨source, target⟩
    · exact ⟨e, mem_edges_iff.mpr ⟨i, before⟩, alive, ends⟩
    · rcases ends with ⟨rfl, -⟩ | ⟨-, rfl⟩
      · exact (outside source).elim
      · exact (outside target).elim
  · intro joins
    obtain ⟨e, step | step⟩ := joins.exists_live
    · exact .of_live (confined.live_of_outside grows step (.inl outside))
    · exact (Joins.of_live (confined.live_of_outside grows step (.inr outside))).symm

/-- Outside of the kind, a vertex has the live edges that it had, in the same order. -/
theorem liveEdges_eq (valid : g.WellFormed) (after : h.WellFormed) (known : v < g.vertexCount)
    (outside : ¬ kind v) : h.liveEdges v = g.liveEdges v := by
  have there : v < h.vertexCount := grows.vertexCount.symm ▸ known
  have later := pairwise_liveEdges after there
  have earlier := pairwise_liveEdges valid known
  have same : (h.liveEdges v).Perm (g.liveEdges v) := by
    refine (List.perm_ext_iff_of_nodup (later.imp ?_) (earlier.imp ?_)).mpr fun e => ?_
    · rintro a _ lower rfl
      exact Nat.lt_irrefl _ lower
    · rintro a _ lower rfl
      exact Nat.lt_irrefl _ lower
    · rw [after.mem_liveEdges there, valid.mem_liveEdges known]
      constructor
      · rintro ⟨member, alive, touches⟩
        obtain ⟨i, found⟩ := mem_edges_iff.mp member
        rcases confined i e found with before | ⟨source, target⟩
        · exact ⟨mem_edges_iff.mpr ⟨i, before⟩, alive, touches⟩
        · rcases Edge.touches_iff.mp touches with rfl | rfl
          · exact (outside source).elim
          · exact (outside target).elim
      · rintro ⟨member, alive, touches⟩
        have step : g.live e e.source e.target := ⟨member, alive, .inl ⟨rfl, rfl⟩⟩
        have ends : ¬ kind e.source ∨ ¬ kind e.target := by
          rcases Edge.touches_iff.mp touches with rfl | rfl
          · exact .inl outside
          · exact .inr outside
        have kept := confined.live_of_outside grows step ends
        exact ⟨kept.1, kept.2.1, touches⟩
  exact same.eq_of_pairwise (fun a b _ _ lower higher => absurd lower (Nat.lt_asymm higher)) later
    earlier

end Confined

section Vertices

theorem depth_of_vertices_eq (same : h.vertices = g.vertices) (v : Nat) :
    h.depth v = g.depth v := by
  rw [depth, depth, vertex?, vertex?, vertexCount, vertexCount, same]

theorem priority?_of_vertices_eq (same : h.vertices = g.vertices) (v : Nat) :
    h.priority? v = g.priority? v := by
  rw [priority?, priority?, vertex?, vertex?, vertexCount, vertexCount, same]

variable {change : Vertex → Vertex}

theorem map_vertex?_withVertex {α : Type} (field : Vertex → α) (known : w < g.vertexCount) :
    ((g.withVertex v change).vertex? w).map field =
      (g.vertex? w).map fun vertex => if v = w then field (change vertex) else field vertex := by
  rw [withVertex_vertex? known, Option.map_map]
  refine Option.map_congr fun vertex _ => ?_
  rw [Function.comp_apply, apply_ite field]

theorem depth_withVertex (kept : ∀ vertex, (change vertex).depth = vertex.depth)
    (known : w < g.vertexCount) : (g.withVertex v change).depth w = g.depth w := by
  rw [depth, map_vertex?_withVertex _ known]
  simp only [kept, ite_self]
  rfl

theorem priority?_withVertex (kept : ∀ vertex, (change vertex).priority = vertex.priority)
    (known : w < g.vertexCount) : (g.withVertex v change).priority? w = g.priority? w := by
  rw [priority?, map_vertex?_withVertex _ known]
  simp only [kept, ite_self]
  rfl

theorem depth_of_raiseDepth {depth : Nat} (success : g.raiseDepth v depth = .ok h)
    (target : v < g.vertexCount) (known : w < g.vertexCount) :
    h.depth w = if w = v then max (g.depth w) depth else g.depth w := by
  obtain ⟨-, rfl⟩ := updateVertex_eq_ok.mp success
  rw [position_of_lt target, Graph.depth, map_vertex?_withVertex _ known, Graph.depth,
    vertex?_of_lt known, Array.getElem?_eq_getElem known]
  simp only [Option.map_some, Option.getD_some, eq_comm (a := v)]

theorem priority?_of_raiseDepth {depth : Nat} (success : g.raiseDepth v depth = .ok h)
    (known : w < g.vertexCount) : h.priority? w = g.priority? w := by
  obtain ⟨-, rfl⟩ := updateVertex_eq_ok.mp success
  exact priority?_withVertex (fun _ => rfl) known

theorem priority?_of_setPriority {priority : Float} (success : g.setPriority v priority = .ok h)
    (target : v < g.vertexCount) (known : w < g.vertexCount) :
    h.priority? w = if w = v then some priority else g.priority? w := by
  obtain ⟨-, rfl⟩ := updateVertex_eq_ok.mp success
  rw [position_of_lt target, priority?, map_vertex?_withVertex _ known, priority?,
    vertex?_of_lt known, Array.getElem?_eq_getElem known]
  simp only [Option.map_some, eq_comm (a := v)]
  split <;> rfl

/-- Marking a vertex changes no depth and no priority. -/
theorem kept_of_markProcessed {round : Nat} (success : g.markProcessed v round = .ok h)
    (known : w < g.vertexCount) : h.depth w = g.depth w ∧ h.priority? w = g.priority? w := by
  obtain ⟨-, rfl⟩ := markProcessed_eq_ok.mp success
  exact ⟨depth_withVertex (fun _ => rfl) known, priority?_withVertex (fun _ => rfl) known⟩

end Vertices

namespace Reranked

theorem refl (g : Graph) : g.Reranked g := ⟨.refl g, fun _ _ => rfl⟩

theorem trans (first : g.Reranked m) (second : m.Reranked h) : g.Reranked h := by
  refine ⟨first.toTuned.trans second.toTuned, fun v known => ?_⟩
  rw [second.depth v (first.vertexCount.symm ▸ known), first.depth v known]

theorem of_setPriority {priority : Float} (success : g.setPriority v priority = .ok h) :
    g.Reranked h := by
  refine ⟨tuned_of_setPriority success, fun w known => ?_⟩
  obtain ⟨-, rfl⟩ := updateVertex_eq_ok.mp success
  exact depth_withVertex (fun _ => rfl) known

end Reranked

end RoadHierarchy.Graph
