import RoadHierarchy.Contraction.Round
import RoadHierarchy.Proofs.Contraction.Simulation

/-! # Adding a shortcut

One step of a round puts a shortcut over a vertex into the graph and flags the edges that it makes
obsolete. Whatever the two edges are that the shortcut stands for, the step makes no way shorter or
longer, and it changes nothing except between the ends of the shortcut.
-/

namespace RoadHierarchy

/-- The shortcut over `v` that is driven in over one edge and out over the other. -/
def Edge.over (id v : Nat) (edgeIn edgeOut : Edge) (bothWays : Bool) : Edge :=
  ⟨id, edgeIn.other v, edgeOut.other v, edgeIn.weight + edgeOut.weight,
    addCount edgeIn.count edgeOut.count, bothWays, some (edgeIn.id, edgeOut.id), false⟩

namespace Graph

/-- The graph with several edges flagged as removed. -/
def withoutEdges (g : Graph) (edges : List Edge) : Graph :=
  edges.foldl (fun g e => g.withoutEdge e.id) g

/-- The edges that a shortcut over `v` makes obsolete. -/
def obsolete (g : Graph) (v : Nat) (edgeIn edgeOut : Edge) (bothWays : Bool) : List Edge :=
  g.supersededEdges (edgeIn.other v) (edgeOut.other v) (edgeIn.weight + edgeOut.weight) bothWays

/-- The graph with a shortcut over `v` in place of the edges that it makes obsolete. -/
def bridge (g : Graph) (v : Nat) (edgeIn edgeOut : Edge) (bothWays : Bool) : Graph :=
  (g.withoutEdges (g.obsolete v edgeIn edgeOut bothWays)).withEdge
    (.over g.edgeCount v edgeIn edgeOut bothWays)

variable {g : Graph} {v u w : Nat} {edgeIn edgeOut : Edge} {bothWays : Bool}

theorem withoutEdges_vertices (edges : List Edge) : (g.withoutEdges edges).vertices = g.vertices := by
  induction edges generalizing g with
  | nil => rfl
  | cons e rest ih => exact ih

theorem withoutEdges_edges (edges : List Edge) (i : Nat) : (g.withoutEdges edges).edges[i]? =
    g.edges[i]?.map fun e => if i ∈ edges.map (·.id) then { e with removed := true } else e := by
  induction edges generalizing g with
  | nil => simp [withoutEdges]
  | cons first rest ih =>
    rw [withoutEdges, List.foldl_cons, ← withoutEdges, ih, withoutEdge_edges, Option.map_map]
    refine Option.map_congr fun e _ => ?_
    by_cases here : first.id = i
    · simp [here]
    · simp [here, Ne.symm here]

theorem withoutEdges_vertexCount (edges : List Edge) :
    (g.withoutEdges edges).vertexCount = g.vertexCount :=
  congrArg Array.size (withoutEdges_vertices edges)

theorem withoutEdges_edgeCount (edges : List Edge) :
    (g.withoutEdges edges).edgeCount = g.edgeCount := by
  induction edges generalizing g with
  | nil => rfl
  | cons e rest ih =>
    rw [withoutEdges, List.foldl_cons, ← withoutEdges, ih]
    exact Array.size_modify

theorem bridge_vertices : (g.bridge v edgeIn edgeOut bothWays).vertices = g.vertices :=
  withoutEdges_vertices _

/-- An edge is the new shortcut, or an earlier edge that is gone when it is obsolete. -/
theorem bridge_edges (i : Nat) : (g.bridge v edgeIn edgeOut bothWays).edges[i]? =
    if i = g.edgeCount then some (.over g.edgeCount v edgeIn edgeOut bothWays)
    else (g.withoutEdges (g.obsolete v edgeIn edgeOut bothWays)).edges[i]? := by
  have size := withoutEdges_edgeCount (g := g) (g.obsolete v edgeIn edgeOut bothWays)
  rw [edgeCount] at size
  rw [bridge, withEdge, Array.getElem?_push, size]

theorem Grows.bridge : g.Grows (g.bridge v edgeIn edgeOut bothWays) := by
  refine ⟨congrArg Array.size bridge_vertices, fun i old found => ?_⟩
  have known : i < g.edgeCount := (Array.getElem?_eq_some_iff.mp found).1
  rw [bridge_edges, if_neg (Nat.ne_of_lt known), withoutEdges_edges, found, Option.map_some]
  refine ⟨_, rfl, ?_⟩
  split
  · exact ⟨rfl, fun _ => rfl⟩
  · exact .refl old

theorem WellFormed.withoutEdges (valid : g.WellFormed) (edges : List Edge) :
    (g.withoutEdges edges).WellFormed :=
  List.foldlRecOn edges _ valid fun _ kept e _ => kept.withoutEdge e.id

theorem WellFormed.other_lt (valid : g.WellFormed) {e : Edge} (member : e ∈ g.edges) (known : Nat) :
    e.other known < g.vertexCount := by
  obtain ⟨source, target⟩ := valid.ends e member
  unfold Edge.other
  split
  · exact target
  · exact source

theorem WellFormed.bridge (valid : g.WellFormed) (first : edgeIn ∈ g.edges)
    (second : edgeOut ∈ g.edges) : (g.bridge v edgeIn edgeOut bothWays).WellFormed := by
  have count := withoutEdges_edgeCount (g := g) (g.obsolete v edgeIn edgeOut bothWays)
  have vertices := congrArg Array.size
    (withoutEdges_vertices (g := g) (g.obsolete v edgeIn edgeOut bothWays))
  refine (valid.withoutEdges _).withEdge count.symm ?_ ?_ ?_ ?_
  · rw [vertexCount, vertices]
    exact valid.other_lt first v
  · rw [vertexCount, vertices]
    exact valid.other_lt second v
  · have positive := valid.count_pos edgeIn first
    simp only [Edge.over, addCount, countCeiling]
    omega
  · rintro pair ⟨⟩
    exact ⟨valid.edge_lt first, valid.edge_lt second⟩

namespace Crossing

variable (crossing : g.Crossing v edgeIn edgeOut u w)
include crossing

theorem source_eq (id : Nat) : (Edge.over id v edgeIn edgeOut bothWays).source = u :=
  crossing.into.2.2.other_end

theorem target_eq (id : Nat) : (Edge.over id v edgeIn edgeOut bothWays).target = w :=
  crossing.out.2.2.other

theorem mem_vertices (valid : g.WellFormed) : u < g.vertexCount ∧ w < g.vertexCount :=
  ⟨(valid.drives_lt crossing.into.1 crossing.into.2.2).1,
    (valid.drives_lt crossing.out.1 crossing.out.2.2).2⟩

/-- What is obsolete is a heavier live edge that can only be driven as the shortcut can. -/
theorem of_mem_obsolete (valid : g.WellFormed) {e : Edge}
    (member : e ∈ g.obsolete v edgeIn edgeOut bothWays) :
    e ∈ g.edges ∧ e.removed = false ∧ edgeIn.weight + edgeOut.weight < e.weight ∧
      ∀ x y, e.Drives x y → x = u ∧ y = w ∨ bothWays = true ∧ x = w ∧ y = u := by
  have start := crossing.into.2.2.other_end
  have known := (crossing.mem_vertices valid).1
  rw [obsolete, start, crossing.out.2.2.other] at member
  simp only [supersededEdges, isSuperseded, List.mem_filter, List.mem_eraseDups, List.mem_append,
    Bool.and_eq_true, Bool.or_eq_true, Bool.not_eq_true', beq_iff_eq, decide_eq_true_eq] at member
  obtain ⟨⟨touching, opposite⟩, direction, heavier⟩ := member
  have ends : e ∈ g.edges ∧ e.removed = false ∧ (e.Drives u w ∨ e.Drives w u) := by
    rcases touching with leaves | enters
    · obtain ⟨member, alive, drives⟩ := (valid.mem_outgoing known).mp leaves
      rw [opposite] at drives
      exact ⟨member, alive, .inl drives⟩
    · obtain ⟨member, alive, drives⟩ := (valid.mem_ingoing known).mp enters
      rw [opposite] at drives
      exact ⟨member, alive, .inr drives⟩
  refine ⟨ends.1, ends.2.1, heavier, fun x y drives => ?_⟩
  rcases direction with both | ⟨oneWay, source⟩
  · have either : x = u ∧ y = w ∨ x = w ∧ y = u := by
      rcases ends.2.2 with forth | back
      · exact forth.ends_eq drives
      · exact (back.ends_eq drives).symm
    exact either.imp_right fun swapped => ⟨both, swapped⟩
  · obtain ⟨rfl, rfl⟩ := drives.of_oneWay oneWay
    rcases ends.2.2 with forth | back
    · exact .inl ⟨source, (forth.of_oneWay oneWay).2⟩
    · exact (crossing.apart (source.symm.trans (back.of_oneWay oneWay).1)).elim

/-- An edge is the new shortcut, an earlier edge as it was, or an obsolete one. -/
theorem edge_cases (valid : g.WellFormed) {i : Nat} {e : Edge}
    (found : (g.bridge v edgeIn edgeOut bothWays).edges[i]? = some e) :
    e = .over g.edgeCount v edgeIn edgeOut bothWays ∨ g.edges[i]? = some e ∨
      ∃ old ∈ g.obsolete v edgeIn edgeOut bothWays,
        g.edges[i]? = some old ∧ e = { old with removed := true } := by
  rw [bridge_edges] at found
  split at found
  · exact .inl (Option.some.inj found).symm
  · rw [withoutEdges_edges] at found
    obtain ⟨old, before, rfl⟩ := Option.map_eq_some_iff.mp found
    split
    · next gone =>
      obtain ⟨other, member, named⟩ := List.mem_map.mp gone
      obtain rfl := valid.eq_of_id (mem_edges_iff.mpr ⟨i, before⟩)
        (crossing.of_mem_obsolete valid member).1 ((valid.edge_id i old before).trans named.symm)
      exact .inr (.inr ⟨old, member, before, rfl⟩)
    · exact .inr (.inl before)

theorem drives_over {id x y : Nat} :
    (Edge.over id v edgeIn edgeOut bothWays).Drives x y ↔
      x = u ∧ y = w ∨ bothWays = true ∧ x = w ∧ y = u := by
  simp only [Edge.Drives, crossing.source_eq, crossing.target_eq, eq_comm (b := x),
    eq_comm (b := y)]
  rfl

/-- The shortcut is live in every direction in which it is needed. -/
theorem live_over {x y : Nat} (needed : x = u ∧ y = w ∨ bothWays = true ∧ x = w ∧ y = u) :
    (g.bridge v edgeIn edgeOut bothWays).live
      (.over g.edgeCount v edgeIn edgeOut bothWays) x y := by
  refine ⟨mem_edges_iff.mpr ⟨g.edgeCount, ?_⟩, rfl, crossing.drives_over.mpr needed⟩
  rw [bridge_edges, if_pos rfl]

theorem preserves (valid : g.WellFormed) {kind : Nat → Prop}
    (back : bothWays = true → g.Crossing v edgeOut edgeIn w u)
    (start : kind u) (via : kind v) (goal : kind w) :
    g.Preserves kind (g.bridge v edgeIn edgeOut bothWays) := by
  refine ⟨.bridge, ?_, ?_⟩
  · rintro e x y ⟨i, found, alive, drives⟩ startKind goalKind
    have stands : ∀ old : Edge, g.edges[i]? = some old → old.Drives x y →
        (g.live.within kind).Reaches x y old.weight := by
      intro old before drives
      exact .single ⟨⟨mem_edges_iff.mpr ⟨i, before⟩, alive old before, drives⟩, startKind, goalKind⟩
    rcases crossing.edge_cases valid found with rfl | before | ⟨old, -, before, rfl⟩
    · rcases crossing.drives_over.mp drives with ⟨rfl, rfl⟩ | ⟨both, rfl, rfl⟩
      · exact .head ⟨crossing.into, start, via⟩ (.single ⟨crossing.out, via, goal⟩)
      · refine (Network.Reaches.head ⟨(back both).into, goal, via⟩
          (.single ⟨(back both).out, via, start⟩)).mono ?_
        exact Nat.le_of_eq (Nat.add_comm _ _)
    · exact stands e before drives
    · exact stands old before drives
  · rintro e x y ⟨i, found, alive, drives⟩
    rcases crossing.edge_cases valid found with rfl | before | ⟨old, member, before, rfl⟩
    · exact ⟨_, crossing.live_over (crossing.drives_over.mp drives), le_rfl⟩
    · exact ⟨e, ⟨mem_edges_iff.mpr ⟨i, found⟩, alive e before, drives⟩, le_rfl⟩
    · obtain ⟨-, -, heavier, only⟩ := crossing.of_mem_obsolete valid member
      exact ⟨_, crossing.live_over (only x y drives), Nat.le_of_lt heavier⟩

theorem confined (valid : g.WellFormed) {kind : Nat → Prop} (start : kind u) (goal : kind w) :
    g.Confined kind (g.bridge v edgeIn edgeOut bothWays) := by
  intro i e found
  rcases crossing.edge_cases valid found with rfl | before | ⟨old, member, before, rfl⟩
  · rw [crossing.source_eq, crossing.target_eq]
    exact .inr ⟨start, goal⟩
  · exact .inl before
  · obtain ⟨-, -, -, only⟩ := crossing.of_mem_obsolete valid member
    rcases only old.source old.target (.inl ⟨rfl, rfl⟩) with ⟨source, target⟩ | ⟨-, source, target⟩
    · exact .inr ⟨source ▸ start, target ▸ goal⟩
    · exact .inr ⟨source ▸ goal, target ▸ start⟩

end Crossing

end Graph

namespace Hierarchy

variable {h next : Hierarchy} {v : Nat}

theorem retire_eq_ok {edge : Edge} (success : h.retire edge = .ok next) :
    next.graph = h.graph.withoutEdge edge.id := by
  obtain ⟨graph, removed, success⟩ := bind_eq_ok.mp success
  obtain rfl := pure_eq_ok.mp success
  exact (Graph.markRemoved_eq_ok.mp removed).2

theorem foldlM_retire_eq_ok {edges : List Edge} (success : edges.foldlM retire h = .ok next) :
    next.graph = h.graph.withoutEdges edges := by
  induction edges generalizing h with
  | nil =>
    obtain rfl := pure_eq_ok.mp success
    rfl
  | cons e rest ih =>
    obtain ⟨middle, first, later⟩ := foldlM_cons_eq_ok.mp success
    rw [ih later, retire_eq_ok first]
    rfl

theorem requireLive_eq_ok {edge : Edge} {done : Unit}
    (success : Graph.requireLive v edge = .ok done) : edge.removed = false := by
  unfold Graph.requireLive at success
  split at success
  · cases success
  · next alive => exact Bool.eq_false_of_not_eq_true alive

/-- A shortcut is added over two live edges that lead to no member of the round. -/
theorem addShortcut_eq_ok (valid : h.graph.WellFormed) {round : Round} {bypass : Bypass}
    (success : h.addShortcut round v bypass = .ok next) : ∃ edgeIn edgeOut : Edge,
      (h.graph.edges[bypass.edgeIn]? = some edgeIn ∧ edgeIn.removed = false ∧
        edgeIn.other v ∉ round.members) ∧
      (h.graph.edges[bypass.edgeOut]? = some edgeOut ∧ edgeOut.removed = false ∧
        edgeOut.other v ∉ round.members) ∧
      next.graph = h.graph.bridge v edgeIn edgeOut bypass.bothWays := by
  unfold addShortcut at success
  obtain ⟨edgeIn, inFound, success⟩ := bind_eq_ok.mp success
  obtain ⟨edgeOut, outFound, success⟩ := bind_eq_ok.mp success
  obtain ⟨_, inLive, success⟩ := bind_eq_ok.mp success
  obtain ⟨_, outLive, success⟩ := bind_eq_ok.mp success
  split at success
  · cases success
  · next outside =>
    simp only [Bool.or_eq_true, List.contains_iff_mem, not_or] at outside
    obtain ⟨weight, added, success⟩ := bind_eq_ok.mp success
    obtain ⟨lighter, retired, success⟩ := bind_eq_ok.mp success
    obtain ⟨⟨id, graph⟩, pushed, success⟩ := bind_eq_ok.mp success
    obtain rfl := pure_eq_ok.mp success
    obtain ⟨rfl, -⟩ := addWithin_eq_ok_iff.mp added
    have less := foldlM_retire_eq_ok retired
    obtain ⟨⟨inKnown, outKnown⟩, pushed⟩ := Graph.addShortcut_eq_ok.mp pushed
    obtain ⟨-, -, final⟩ := Graph.pushEdge_eq_ok.mp pushed
    rw [less, Graph.withoutEdges_edgeCount] at inKnown outKnown
    have first := (Graph.edge?_eq_some inKnown).mp (Graph.edge_eq_ok.mp inFound)
    have second := (Graph.edge?_eq_some outKnown).mp (Graph.edge_eq_ok.mp outFound)
    refine ⟨edgeIn, edgeOut, ⟨first, requireLive_eq_ok inLive, outside.1⟩,
      ⟨second, requireLive_eq_ok outLive, outside.2⟩, ?_⟩
    rw [final, less, Graph.withoutEdges_edgeCount, Graph.bridge, Edge.over,
      valid.edge_id _ _ first, valid.edge_id _ _ second]
    rfl

end Hierarchy

end RoadHierarchy
