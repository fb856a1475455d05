import RoadHierarchy.Contraction.Hierarchy
import RoadHierarchy.Proofs.Graph.Marks

/-! # What a contraction makes of priorities

Nothing. Priorities decide which vertices are contracted, but simulating a contraction and
committing it neither read them nor depend on how many simulations there were. Both are left out of
a hierarchy here, and every function that contracts is shown to go on alike without them, also where
it fails.
-/

namespace RoadHierarchy

/-- The vertex without its priority. -/
def Vertex.unranked (v : Vertex) : Vertex := { v with priority := 0 }

namespace Graph

/-- The graph without priorities. -/
def unranked (g : Graph) : Graph := { g with vertices := g.vertices.map Vertex.unranked }

theorem tuned_unranked (g : Graph) : g.Tuned g.unranked :=
  ⟨rfl, rfl, by simp [marks, unranked, Vertex.unranked, Function.comp_def]⟩

theorem vertexCount_unranked (g : Graph) : g.unranked.vertexCount = g.vertexCount := Array.size_map

theorem vertex?_unranked (g : Graph) (v : Nat) :
    g.unranked.vertex? v = (g.vertex? v).map Vertex.unranked := by
  rw [vertex?, vertex?, vertexCount_unranked, unranked, Array.getElem?_map]

theorem vertex_unranked (g : Graph) (v : Nat) :
    g.unranked.vertex v = Vertex.unranked <$> g.vertex v := by
  rw [vertex, vertex, vertex?_unranked]
  cases g.vertex? v <;> rfl

theorem isProcessed_unranked (g : Graph) (v : Nat) :
    g.unranked.isProcessed v = g.isProcessed v := (tuned_unranked g).isProcessed v

theorem liveEdges_unranked (g : Graph) (v : Nat) : g.unranked.liveEdges v = g.liveEdges v := by
  rw [liveEdges, liveEdges, vertexCount_unranked]
  rfl

theorem outgoing_unranked (g : Graph) (v : Nat) : g.unranked.outgoing v = g.outgoing v := by
  rw [outgoing, outgoing, liveEdges_unranked, vertexCount_unranked]

theorem ingoing_unranked (g : Graph) (v : Nat) : g.unranked.ingoing v = g.ingoing v := by
  rw [ingoing, ingoing, liveEdges_unranked, vertexCount_unranked]

theorem neighbors_unranked (g : Graph) (v : Nat) : g.unranked.neighbors v = g.neighbors v := by
  rw [neighbors, neighbors, liveEdges_unranked, vertexCount_unranked]

end Graph

namespace Witness.Query

/-- The same query to the graph without priorities. -/
def unranked (q : Query) : Query := { q with graph := q.graph.unranked }

variable (q : Query)

theorem skips_unranked (f : Frontier) (v : Nat) : q.unranked.skips f v = q.skips f v :=
  congrArg (q.avoids v || f.settled.contains v || ·) (Graph.isProcessed_unranked q.graph v)

theorem relax_unranked (stop : Stop) (f : Frontier) (edge : Edge) :
    q.unranked.relax stop f edge = q.relax stop f edge := by
  unfold relax
  simp only [skips_unranked]
  rfl

theorem relaxAll_unranked (stop : Stop) (edges : List Edge) (f : Frontier) :
    q.unranked.relaxAll stop edges f = q.relaxAll stop edges f := by
  induction edges generalizing f with
  | nil => rfl
  | cons edge rest ih => simp only [relaxAll, relax_unranked, ih]

theorem settle_unranked (steps : Nat) (f : Frontier) :
    q.unranked.settle steps f = q.settle steps f := by
  induction steps generalizing f with
  | zero => rfl
  | succ steps ih =>
    simp only [settle, relaxAll_unranked, ih]
    simp only [unranked, Graph.outgoing_unranked]

theorem hasPathFrom_unranked (source : Nat) :
    q.unranked.hasPathFrom source = q.hasPathFrom source := by
  rw [hasPathFrom, hasPathFrom, settle_unranked]
  simp only [unranked, Graph.vertexCount_unranked]

end Witness.Query

namespace Graph

theorem passages_unranked (g : Graph) (v : Nat) : g.unranked.passages v = g.passages v := by
  have leads : g.unranked.leadsOn v = g.leadsOn v := by
    funext edge
    rw [leadsOn, leadsOn, isProcessed_unranked]
  rw [passages, passages, leads, ingoing_unranked, outgoing_unranked]

/-- A simulated contraction does not depend on priorities. -/
theorem simulateAvoiding_unranked (g : Graph) (hopLimit v : Nat) (avoids : Nat → Bool) :
    g.unranked.simulateAvoiding hopLimit v avoids = g.simulateAvoiding hopLimit v avoids := by
  have needs : g.unranked.needsShortcut hopLimit v avoids = g.needsShortcut hopLimit v avoids := by
    funext passage
    unfold needsShortcut
    refine bind_congr_ok fun limit _ => ?_
    exact congrArg (· >>= _) (Witness.Query.hasPathFrom_unranked ⟨g, _, limit, _, _⟩ _)
  rw [simulateAvoiding, simulateAvoiding, needs, passages_unranked]

theorem supersededEdges_unranked (g : Graph) (source target weight : Nat) (bothWays : Bool) :
    g.unranked.supersededEdges source target weight bothWays =
      g.supersededEdges source target weight bothWays := by
  rw [supersededEdges, supersededEdges, outgoing_unranked, ingoing_unranked]

/-- A change of vertices can be made before or after priorities are left out, if each vertex can be
changed so. -/
theorem unranked_withVertex (g : Graph) (v : Nat) (change other : Vertex → Vertex)
    (alike : ∀ vertex, (change vertex).unranked = other vertex.unranked) :
    (g.withVertex v change).unranked = g.unranked.withVertex v other := by
  have vertices : (g.vertices.modify v change).map Vertex.unranked =
      (g.vertices.map Vertex.unranked).modify v other := by
    refine Array.ext_getElem? fun i => ?_
    simp only [Array.getElem?_map, Array.getElem?_modify]
    split <;> simp [alike, Function.comp_def]
  rw [withVertex, withVertex, unranked, vertices]
  rfl

theorem markRemoved_unranked (g : Graph) (e : Nat) :
    g.unranked.markRemoved e = unranked <$> g.markRemoved e := by
  rw [markRemoved, markRemoved, map_bind]
  refine bind_congr_ok fun _ _ => ?_
  change (if (g.edge? e).any (·.removed) = true then _ else _) = _
  split <;> rfl

theorem requireEnds_unranked (g : Graph) (source target count : Nat) :
    g.unranked.requireEnds source target count = g.requireEnds source target count := by
  rw [requireEnds, requireEnds, vertexCount_unranked]
  rfl

theorem addShortcut_unranked (g : Graph) (source target weight count : Nat) (pair : Nat × Nat)
    (bidirectional : Bool) :
    g.unranked.addShortcut source target weight count pair bidirectional =
      Prod.map id unranked <$> g.addShortcut source target weight count pair bidirectional := by
  simp only [addShortcut, pushEdge, map_bind, requireEnds_unranked]
  rfl

theorem updateVertex_unranked (g : Graph) (v : Nat) {change : Vertex → Vertex}
    (alike : ∀ vertex, (change vertex).unranked = change vertex.unranked) :
    g.unranked.updateVertex v change = unranked <$> g.updateVertex v change := by
  have changed := unranked_withVertex g (position g.vertexCount v) change change alike
  rw [updateVertex, updateVertex, vertex_unranked, vertexCount_unranked, map_bind, bind_map_left]
  refine bind_congr_ok fun _ _ => ?_
  exact congrArg Except.ok changed.symm

theorem markProcessed_unranked (g : Graph) (v number : Nat) :
    g.unranked.markProcessed v number = unranked <$> g.markProcessed v number := by
  have changed := unranked_withVertex g v ({ · with processed := true, round := some number })
    ({ · with processed := true, round := some number }) fun _ => rfl
  rw [markProcessed, markProcessed, requireVertex, vertexCount_unranked, isProcessed_unranked,
    map_bind]
  refine bind_congr_ok fun _ _ => ?_
  change (if g.isProcessed v = true then _ else _) = _
  split
  · rfl
  · exact congrArg Except.ok changed.symm

/-- Noting a priority changes nothing else. -/
theorem unranked_setPriority {g next : Graph} {v : Nat} {priority : Float}
    (success : g.setPriority v priority = .ok next) : next.unranked = g.unranked := by
  obtain ⟨-, rfl⟩ := updateVertex_eq_ok.mp success
  have same : (g.unranked.vertices.modify (position g.vertexCount v) id) = g.unranked.vertices := by
    refine Array.ext_getElem? fun i => ?_
    rw [Array.getElem?_modify, Option.map_id, id, ite_self]
  have changed := unranked_withVertex g (position g.vertexCount v) ({ · with priority }) id
    fun _ => rfl
  rw [changed, withVertex, same]

end Graph

namespace Hierarchy

open RoadHierarchy.Graph

/-- The hierarchy without priorities and without the number of simulations. -/
def unranked (h : Hierarchy) : Hierarchy :=
  ⟨h.graph.unranked, { h.statistics with simulations := 0 }⟩

theorem retire_unranked (h : Hierarchy) (edge : Edge) :
    h.unranked.retire edge = unranked <$> h.retire edge := by
  rw [retire, retire, map_bind]
  change h.graph.unranked.markRemoved edge.id >>= _ = _
  rw [markRemoved_unranked, bind_map_left]
  rfl

theorem addShortcut_unranked (round : Round) (v : Nat) (h : Hierarchy) (bypass : Bypass) :
    h.unranked.addShortcut round v bypass = unranked <$> h.addShortcut round v bypass := by
  simp only [addShortcut, map_bind]
  refine bind_congr_ok fun edgeIn _ => bind_congr_ok fun edgeOut _ => ?_
  refine bind_congr_ok fun _ _ => bind_congr_ok fun _ _ => ?_
  split
  · rfl
  · rw [map_bind]
    refine bind_congr_ok fun weight _ => ?_
    have obsolete := supersededEdges_unranked h.graph (edgeIn.other v) (edgeOut.other v) weight
      bypass.bothWays
    change List.foldlM retire h.unranked (h.graph.unranked.supersededEdges ..) >>= _ = _
    rw [obsolete, foldlM_commutes retire_unranked, bind_map_left, map_bind]
    refine bind_congr_ok fun lighter _ => ?_
    change lighter.graph.unranked.addShortcut .. >>= _ = _
    rw [Graph.addShortcut_unranked, bind_map_left, map_bind]
    rfl

theorem openNeighbors_unranked (h : Hierarchy) (v : Nat) :
    h.unranked.openNeighbors v = h.openNeighbors v := by
  have processed : h.unranked.graph.isProcessed = h.graph.isProcessed :=
    funext (isProcessed_unranked h.graph)
  have neighbors : h.unranked.graph.neighbors v = h.graph.neighbors v :=
    neighbors_unranked h.graph v
  rw [openNeighbors, openNeighbors, processed, neighbors]

theorem close_unranked (round : Round) (h : Hierarchy) (v : Nat) :
    h.unranked.close round v = Prod.map id unranked <$> h.close round v := by
  have raises (depth : Nat) : ∀ (g : Graph) (neighbor : Nat),
      g.unranked.raiseDepth neighbor depth = Graph.unranked <$> g.raiseDepth neighbor depth :=
    fun g neighbor => updateVertex_unranked g neighbor fun _ => rfl
  have found : h.unranked.graph.vertex v = Vertex.unranked <$> h.graph.vertex v :=
    vertex_unranked h.graph v
  simp only [close, map_bind, found, bind_map_left, openNeighbors_unranked]
  refine bind_congr_ok fun vertex _ => bind_congr_ok fun depth _ => ?_
  have raised : (h.openNeighbors v).foldlM (fun g neighbor => g.raiseDepth neighbor depth)
      h.unranked.graph = Graph.unranked <$>
        (h.openNeighbors v).foldlM (fun g neighbor => g.raiseDepth neighbor depth) h.graph :=
    @foldlM_commutes _ _ _ (fun g neighbor => g.raiseDepth neighbor depth) _ (raises depth) _
      h.graph
  simp only [raised, bind_map_left, markProcessed_unranked]
  rfl

theorem contract_unranked (round : Round) (h : Hierarchy) (result : Nat × Simulation) :
    h.unranked.contract round result = Prod.map id unranked <$> h.contract round result := by
  rw [contract, contract, foldlM_commutes (addShortcut_unranked round result.1), bind_map_left,
    map_bind]
  exact bind_congr_ok fun bridged _ => close_unranked round bridged result.1

theorem contractAll_unranked (round : Round) (results : List (Nat × Simulation)) (h : Hierarchy) :
    contractAll round results h.unranked =
      Prod.map id unranked <$> contractAll round results h := by
  induction results generalizing h with
  | nil => rfl
  | cons result rest ih =>
    simp only [contractAll, contract_unranked, bind_map_left, map_bind, Prod.map_snd, ih]
    rfl

/-- A round is committed alike without priorities. -/
theorem applyRound_unranked (h : Hierarchy) (number : Nat) (results : List (Nat × Simulation)) :
    h.unranked.applyRound number results =
      Prod.map id unranked <$> h.applyRound number results := by
  simp only [applyRound, contractAll_unranked, bind_map_left, map_bind]
  rfl

end Hierarchy

end RoadHierarchy
