import RoadHierarchy.Proofs.Graph.Growth
import RoadHierarchy.Proofs.Graph.Reachable

/-! # What the contraction notes about vertices

The marks of a vertex are its processed flag and its round. Tuning a graph changes priorities and
depths and no marks; closing vertices marks them with the number of their round and leaves all other
vertices as they are.
-/

namespace RoadHierarchy.Graph

/-- The id, the processed flag and the round of every vertex. -/
def marks (g : Graph) : Array (Nat × Bool × Option Nat) :=
  g.vertices.map fun v => (v.id, v.processed, v.round)

/-- The later graph differs only in the priorities and depths of vertices. -/
structure Tuned (g h : Graph) : Prop where
  edges : h.edges = g.edges
  touching : h.touching = g.touching
  marks : h.marks = g.marks

/-- The later graph differs from the earlier one in that the listed vertices have been contracted,
each one once, in a round of this number. -/
structure Closes (number : Nat) (closed : List Nat) (g h : Graph) : Prop where
  vertexCount : h.vertexCount = g.vertexCount
  unprocessed : g.unprocessed.Perm (closed ++ h.unprocessed)
  round? : ∀ v < g.vertexCount, h.round? v = if v ∈ closed then some number else g.round? v

variable {g m h : Graph} {v : Nat}

theorem size_marks (g : Graph) : g.marks.size = g.vertexCount := Array.size_map

theorem isProcessed_eq_marks (g : Graph) (v : Nat) :
    g.isProcessed v = (g.marks[position g.marks.size v]?).any (·.2.1) := by
  rw [isProcessed, vertex?, marks, Array.getElem?_map, Option.any_map, Array.size_map]
  rfl

theorem round?_eq_marks (g : Graph) (v : Nat) :
    g.round? v = (g.marks[position g.marks.size v]?).bind (·.2.2) := by
  rw [round?, vertex?, marks, Array.getElem?_map, Option.bind_map, Array.size_map]
  rfl

theorem unprocessed_eq_marks (g : Graph) :
    g.unprocessed = (g.marks.toList.filter (!·.2.1)).map (·.1) := by
  rw [unprocessed, marks, Array.toList_map, List.filter_map, List.map_map]
  rfl

namespace Tuned

theorem refl (g : Graph) : g.Tuned g := ⟨rfl, rfl, rfl⟩

theorem trans (first : g.Tuned m) (second : m.Tuned h) : g.Tuned h :=
  ⟨second.edges.trans first.edges, second.touching.trans first.touching,
    second.marks.trans first.marks⟩

variable (tuned : g.Tuned h)
include tuned

theorem symm : h.Tuned g := ⟨tuned.edges.symm, tuned.touching.symm, tuned.marks.symm⟩

theorem vertexCount : h.vertexCount = g.vertexCount := by
  rw [← size_marks, tuned.marks, size_marks]

theorem isProcessed (v : Nat) : h.isProcessed v = g.isProcessed v := by
  rw [isProcessed_eq_marks, isProcessed_eq_marks, tuned.marks]

theorem round? (v : Nat) : h.round? v = g.round? v := by
  rw [round?_eq_marks, round?_eq_marks, tuned.marks]

theorem unprocessed : h.unprocessed = g.unprocessed := by
  rw [unprocessed_eq_marks, unprocessed_eq_marks, tuned.marks]

theorem live : h.live = g.live := by
  unfold Graph.live
  rw [tuned.edges]

theorem core : h.core = g.core := by
  unfold Graph.core
  rw [tuned.live]
  simp only [tuned.isProcessed]

theorem preserves (kind : Nat → Prop) : g.Preserves kind h :=
  .of_edges_eq tuned.vertexCount tuned.edges

private theorem vertex_of_marks {i : Nat} {vertex : Vertex} (found : h.vertices[i]? = some vertex) :
    ∃ old, g.vertices[i]? = some old ∧ old.id = vertex.id ∧ old.processed = vertex.processed ∧
      old.round = vertex.round := by
  have same := congrArg (·[i]?) tuned.marks
  simp only [Graph.marks, Array.getElem?_map, found, Option.map_some] at same
  obtain ⟨old, before, equal⟩ := Option.map_eq_some_iff.mp same.symm
  simp only [Prod.mk.injEq] at equal
  exact ⟨old, before, equal⟩

theorem wellFormed (valid : g.WellFormed) : h.WellFormed := by
  refine ⟨?_, ?_, ?_, ?_, ?_, ?_, ?_, ?_⟩
  · intro i vertex found
    obtain ⟨old, before, named, -⟩ := tuned.vertex_of_marks found
    exact named.symm.trans (valid.vertex_id i old before)
  · rw [tuned.edges]
    exact valid.edge_id
  · rw [tuned.edges, tuned.vertexCount]
    exact valid.ends
  · rw [tuned.edges]
    exact valid.count_pos
  · rw [tuned.edges]
    exact valid.pair_lt
  · intro vertex member
    obtain ⟨i, found⟩ := Array.mem_iff_getElem?.mp member
    obtain ⟨old, before, -, flag, round⟩ := tuned.vertex_of_marks found
    rw [← flag, ← round]
    exact valid.round_iff old (Array.mem_iff_getElem?.mpr ⟨i, before⟩)
  · rw [tuned.touching, tuned.vertexCount]
    exact valid.touching_size
  · rw [tuned.touching, tuned.edges]
    exact valid.touching

end Tuned

theorem tuned_of_updateVertex {change : Vertex → Vertex}
    (success : g.updateVertex v change = .ok h) (named : ∀ vertex, (change vertex).id = vertex.id)
    (flagged : ∀ vertex, (change vertex).processed = vertex.processed)
    (rounds : ∀ vertex, (change vertex).round = vertex.round) : g.Tuned h := by
  obtain ⟨-, rfl⟩ := updateVertex_eq_ok.mp success
  refine ⟨rfl, rfl, Array.ext_getElem? fun i => ?_⟩
  simp only [marks, Array.getElem?_map, withVertex_vertices, Option.map_map]
  refine Option.map_congr fun vertex _ => ?_
  rw [Function.comp_apply]
  split
  · rw [named, flagged, rounds]
  · rfl

theorem tuned_of_setPriority {priority : Float} (success : g.setPriority v priority = .ok h) :
    g.Tuned h :=
  tuned_of_updateVertex success (fun _ => rfl) (fun _ => rfl) (fun _ => rfl)

theorem tuned_of_raiseDepth {depth : Nat} (success : g.raiseDepth v depth = .ok h) : g.Tuned h :=
  tuned_of_updateVertex success (fun _ => rfl) (fun _ => rfl) (fun _ => rfl)

theorem WellFormed.unprocessed_sublist (valid : g.WellFormed) :
    g.unprocessed.Sublist (List.range g.vertexCount) :=
  valid.vertex_ids ▸ List.filter_sublist.map _

theorem WellFormed.unprocessed_nodup (valid : g.WellFormed) : g.unprocessed.Nodup :=
  valid.unprocessed_sublist.nodup List.nodup_range

/-- Where nothing has been contracted, all vertices are unprocessed. -/
theorem Plain.unprocessed_eq (plain : g.Plain) (valid : g.WellFormed) :
    g.unprocessed = List.range g.vertexCount := by
  have all : g.vertices.toList.filter (!·.processed) = g.vertices.toList :=
    List.filter_eq_self.mpr fun vertex member => by
      rw [plain.vertices vertex (Array.mem_toList_iff.mp member)]
      rfl
  rw [unprocessed, all, valid.vertex_ids]

theorem Plain.mem_unprocessed (plain : g.Plain) (valid : g.WellFormed) (known : v < g.vertexCount) :
    v ∈ g.unprocessed := by
  rw [plain.unprocessed_eq valid]
  exact List.mem_range.mpr known

theorem withVertex_vertex? {w : Nat} (known : w < g.vertexCount) (change : Vertex → Vertex) :
    (g.withVertex v change).vertex? w =
      (g.vertex? w).map fun vertex => if v = w then change vertex else vertex := by
  have size : (g.withVertex v change).vertexCount = g.vertexCount := Array.size_modify
  rw [vertex?_of_lt (size.symm ▸ known), withVertex_vertices, vertex?_of_lt known]

theorem closes_of_markProcessed (valid : g.WellFormed) {number : Nat}
    (success : g.markProcessed v number = .ok h) : Closes number [v] g h := by
  have after := valid.markProcessed success
  obtain ⟨⟨known, open_⟩, rfl⟩ := markProcessed_eq_ok.mp success
  generalize marked : g.withVertex v ({ · with processed := true, round := some number }) = h at after
  have size : h.vertexCount = g.vertexCount := marked ▸ Array.size_modify
  have here : h.isProcessed v = true ∧ h.round? v = some number := by
    have found : g.vertex? v = some g.vertices[v] := by
      rw [vertex?_of_lt known]
      exact Array.getElem?_eq_getElem known
    rw [isProcessed, Graph.round?, ← marked, withVertex_vertex? known, found, Option.map_some,
      if_pos rfl]
    exact ⟨rfl, rfl⟩
  have elsewhere : ∀ w, w < g.vertexCount → w ≠ v →
      h.isProcessed w = g.isProcessed w ∧ h.round? w = g.round? w := by
    intro w found apart
    rw [isProcessed, isProcessed, Graph.round?, Graph.round?, ← marked, withVertex_vertex? found]
    simp [Ne.symm apart]
  refine ⟨size, ?_, fun w found => ?_⟩
  · refine (List.perm_ext_iff_of_nodup valid.unprocessed_nodup ?_).mpr fun w => ?_
    · refine List.nodup_cons.mpr ⟨fun member => ?_, after.unprocessed_nodup⟩
      have flag := (after.mem_unprocessed.mp member).2
      rw [here.1] at flag
      cases flag
    · rw [List.singleton_append, List.mem_cons, valid.mem_unprocessed, after.mem_unprocessed, size]
      by_cases same : w = v
      · simp [same, known, open_]
      · constructor
        · rintro ⟨found, flag⟩
          exact .inr ⟨found, (elsewhere w found same).1.trans flag⟩
        · rintro (equal | ⟨found, flag⟩)
          · exact (same equal).elim
          · exact ⟨found, (elsewhere w found same).1.symm.trans flag⟩
  · by_cases same : w = v
    · rw [same, here.2, if_pos (List.mem_singleton.mpr rfl)]
    · rw [(elsewhere w found same).2, if_neg (mt List.mem_singleton.mp same)]

namespace Closes

variable {number : Nat} {closed more : List Nat}

theorem of_marks_eq (number : Nat) (marks : h.marks = g.marks) : Closes number [] g h := by
  refine ⟨by rw [← size_marks, marks, size_marks], ?_, fun v _ => ?_⟩
  · rw [unprocessed_eq_marks, unprocessed_eq_marks, marks]
    exact .refl _
  · rw [round?_eq_marks, round?_eq_marks, marks, if_neg List.not_mem_nil]

theorem trans (first : Closes number closed g m) (second : Closes number more m h) :
    Closes number (closed ++ more) g h := by
  refine ⟨second.vertexCount.trans first.vertexCount, ?_, fun v known => ?_⟩
  · rw [List.append_assoc]
    exact first.unprocessed.trans (second.unprocessed.append_left closed)
  · rw [second.round? v (first.vertexCount.symm ▸ known), first.round? v known]
    by_cases late : v ∈ more <;> simp [late]

/-- In which order the vertices are listed does not matter. -/
theorem perm (closes : Closes number closed g h) (same : closed.Perm more) :
    Closes number more g h := by
  refine ⟨closes.vertexCount, closes.unprocessed.trans (same.append_right _), fun v known => ?_⟩
  rw [closes.round? v known]
  simp only [same.mem_iff]

theorem mem_unprocessed (valid : g.WellFormed) (closes : Closes number closed g h) :
    v ∈ h.unprocessed ↔ v ∈ g.unprocessed ∧ v ∉ closed := by
  have distinct := closes.unprocessed.nodup_iff.mp valid.unprocessed_nodup
  have disjoint := List.disjoint_of_nodup_append distinct
  rw [closes.unprocessed.mem_iff, List.mem_append]
  constructor
  · exact fun member => ⟨.inr member, fun gone => disjoint gone member⟩
  · rintro ⟨gone | member, present⟩
    · exact (present gone).elim
    · exact member

/-- The listed vertices are processed afterwards, and all others that were before. -/
theorem isProcessed_iff (valid : g.WellFormed) (after : h.WellFormed)
    (closes : Closes number closed g h) (known : v < g.vertexCount) :
    h.isProcessed v = true ↔ v ∈ closed ∨ g.isProcessed v = true := by
  have same := closes.mem_unprocessed valid (v := v)
  rw [after.mem_unprocessed, valid.mem_unprocessed, closes.vertexCount] at same
  cases before : g.isProcessed v <;> cases later : h.isProcessed v <;> simp_all

end Closes

end RoadHierarchy.Graph
