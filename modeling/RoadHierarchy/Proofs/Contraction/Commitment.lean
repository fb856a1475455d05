import RoadHierarchy.Proofs.Contraction.Overflow
import RoadHierarchy.Proofs.Contraction.Round
import RoadHierarchy.Proofs.Graph.Surroundings

/-! # Committing a round fails only by overflow

The rules of the contraction that a round is checked against cannot be broken by a round of
different unprocessed vertices without a common edge, when its simulations are plans for the graph
at its start. The edges at a member stay live until the member is contracted, and an edge of a
passage never leads to another member.
-/

namespace RoadHierarchy

namespace Graph

/-- The two weights of every passage over the vertex can be added, unless there is such a cause. -/
def Weighs (g : Graph) (cause : Failure → Prop) (v : Nat) : Prop :=
  ∀ edgeIn edgeOut u w, g.Passage v edgeIn edgeOut u w →
    Returns cause (fun sum => sum = edgeIn.weight + edgeOut.weight)
      (addWord edgeIn.weight edgeOut.weight)

variable {g : Graph} {v : Nat}

theorem weighs_overflows (g : Graph) (v : Nat) : g.Weighs Overflows v :=
  fun _ _ _ _ _ => addWithin_returns 64 _ _

theorem exists_updateVertex (known : v < g.vertexCount) (change : Vertex → Vertex) :
    ∃ next, g.updateVertex v change = .ok next := by
  obtain ⟨vertex, found⟩ := exists_vertex known
  exact ⟨_, updateVertex_eq_ok.mpr ⟨⟨vertex, vertex_eq_ok.mp found⟩, rfl⟩⟩

theorem WellFormed.edge_eq_ok (valid : g.WellFormed) {e : Edge} (member : e ∈ g.edges) :
    g.edge e.id = .ok e := by
  rw [Graph.edge_eq_ok, edge?_eq_some (valid.edge_lt member)]
  exact valid.find_edge member

namespace Crossing

variable {u w : Nat} {edgeIn edgeOut : Edge} (valid : g.WellFormed)
  (crossing : g.Crossing v edgeIn edgeOut u w)
include valid crossing

/-- No edge is listed twice as obsolete. -/
theorem nodup_obsolete (bothWays : Bool) :
    ((g.obsolete v edgeIn edgeOut bothWays).map (·.id)).Nodup := by
  apply List.Nodup.map_on
  · intro e member other there same
    exact valid.eq_of_id (crossing.of_mem_obsolete valid member).1
      (crossing.of_mem_obsolete valid there).1 same
  · exact (nodup_eraseDups _).filter _

/-- A shortcut over a crossing can be appended, whatever edges have been removed. -/
theorem exists_addShortcut (removed : List Edge) (weight : Nat) (bothWays : Bool) :
    ∃ result, (g.withoutEdges removed).addShortcut u w weight (addCount edgeIn.count edgeOut.count)
      (edgeIn.id, edgeOut.id) bothWays = .ok result := by
  obtain ⟨startKnown, goalKnown⟩ := crossing.mem_vertices valid
  have positive := valid.count_pos edgeIn crossing.into.1
  have counts : 0 < addCount edgeIn.count edgeOut.count := by
    simp only [addCount, countCeiling]
    omega
  rw [← withoutEdges_vertexCount removed] at startKnown goalKnown
  refine ⟨(_, _), addShortcut_eq_ok.mpr ⟨?_, pushEdge_eq_ok.mpr ⟨?_, rfl, rfl⟩⟩⟩
  · rw [withoutEdges_edgeCount]
    exact ⟨valid.edge_lt crossing.into.1, valid.edge_lt crossing.out.1⟩
  · exact ⟨startKnown, goalKnown, counts⟩

end Crossing

/-- A passage over a member leads to no other member, for its edges would join two members. -/
theorem Passage.ends_outside {members : List Nat} {u w : Nat} {edgeIn edgeOut : Edge}
    (passage : g.Passage v edgeIn edgeOut u w) (independent : g.Independent members)
    (inRound : v ∈ members) : u ∉ members ∧ w ∉ members := by
  constructor
  · intro other
    exact passage.start_apart (independent.apart passage.into other inRound)
  · intro other
    exact passage.goal_apart (independent.apart passage.out inRound other).symm

end Graph

namespace Hierarchy

open RoadHierarchy.Graph

variable {g : Graph} {round : Round} {h : Hierarchy} {v : Nat} {cause : Failure → Prop}

/-- Different live edges can all be retired. -/
theorem exists_foldlM_retire {edges : List Edge}
    (live : ∀ e ∈ edges, h.graph.edges[e.id]? = some e ∧ e.removed = false)
    (single : (edges.map (·.id)).Nodup) : ∃ next, edges.foldlM retire h = .ok next := by
  induction edges generalizing h with
  | nil => exact ⟨h, rfl⟩
  | cons e rest ih =>
    obtain ⟨⟨found, alive⟩, later⟩ := List.forall_mem_cons.mp live
    obtain ⟨fresh, others⟩ := List.nodup_cons.mp single
    have removed := markRemoved_eq_ok.mpr ⟨⟨e, found, alive⟩, rfl⟩
    obtain ⟨next, retired⟩ : ∃ next, h.retire e = .ok next := ⟨_, bind_eq_ok.mpr ⟨_, removed, rfl⟩⟩
    have still : ∀ other ∈ rest, next.graph.edges[other.id]? = some other ∧
        other.removed = false := by
      intro other member
      obtain ⟨there, flag⟩ := later other member
      have apart : e.id ≠ other.id := fun same =>
        fresh (List.mem_map.mpr ⟨other, member, same.symm⟩)
      rw [retire_eq_ok retired, withoutEdge_edges, there, Option.map_some, if_neg apart]
      exact ⟨rfl, flag⟩
    obtain ⟨last, folded⟩ := ih still others
    exact ⟨last, foldlM_cons_eq_ok.mpr ⟨next, retired, folded⟩⟩

theorem exists_retire_obsolete (valid : h.graph.WellFormed) {edgeIn edgeOut : Edge} {u w : Nat}
    (crossing : h.graph.Crossing v edgeIn edgeOut u w) (bothWays : Bool) :
    ∃ lighter, (h.graph.obsolete v edgeIn edgeOut bothWays).foldlM retire h = .ok lighter := by
  apply exists_foldlM_retire
  · intro e gone
    obtain ⟨present, alive, -⟩ := crossing.of_mem_obsolete valid gone
    exact ⟨valid.find_edge present, alive⟩
  · exact crossing.nodup_obsolete valid bothWays

theorem requireLive_of_live {edge : Edge} (alive : edge.removed = false) :
    Graph.requireLive v edge = .ok () := by
  rw [Graph.requireLive, alive]
  rfl

/-- A shortcut over a crossing can be added when it leads to no member of the round and its weight
is known. -/
theorem addShortcut_of_crossing {bypass : Bypass} {edgeIn edgeOut : Edge} {u w : Nat}
    (valid : h.graph.WellFormed) (crossing : h.graph.Crossing v edgeIn edgeOut u w)
    (inId : edgeIn.id = bypass.edgeIn) (outId : edgeOut.id = bypass.edgeOut)
    (startOutside : u ∉ round.members) (goalOutside : w ∉ round.members)
    (weighs : Returns cause (fun sum => sum = edgeIn.weight + edgeOut.weight)
      (addWord edgeIn.weight edgeOut.weight)) :
    Returns cause (fun _ => True) (h.addShortcut round v bypass) := by
  have source : edgeIn.other v = u := crossing.into.2.2.other_end
  have target : edgeOut.other v = w := crossing.out.2.2.other
  have inFound : h.graph.edge bypass.edgeIn = .ok edgeIn := inId ▸ valid.edge_eq_ok crossing.into.1
  have outFound : h.graph.edge bypass.edgeOut = .ok edgeOut :=
    outId ▸ valid.edge_eq_ok crossing.out.1
  unfold addShortcut
  apply Returns.after inFound
  apply Returns.after outFound
  apply Returns.after (requireLive_of_live crossing.into.2.1)
  apply Returns.after (requireLive_of_live crossing.out.2.1)
  rw [source, target, if_neg (by simp [startOutside, goalOutside])]
  apply weighs.bind
  rintro weight - rfl
  obtain ⟨lighter, retired⟩ := exists_retire_obsolete valid crossing bypass.bothWays
  have less := foldlM_retire_eq_ok retired
  rw [Graph.obsolete, source, target] at retired
  apply Returns.after retired
  obtain ⟨result, pushed⟩ := crossing.exists_addShortcut valid
    (h.graph.obsolete v edgeIn edgeOut bypass.bothWays) (edgeIn.weight + edgeOut.weight)
    bypass.bothWays
  rw [← less, inId, outId] at pushed
  apply Returns.after pushed
  trivial

/-- A planned shortcut of a member can be added. -/
theorem addShortcut_returns {planned : List Bypass} {bypass : Bypass} (valid : g.WellFormed)
    (sofar : Steps round.number round.members g h.graph) (independent : g.Independent round.members)
    (inRound : v ∈ round.members) (plan : g.Plan v (· ∈ round.members) planned)
    (weighs : g.Weighs cause v) (member : bypass ∈ planned) :
    Returns cause (fun _ => True) (h.addShortcut round v bypass) := by
  obtain ⟨edgeIn, edgeOut, u, w, inId, outId, passage, -⟩ := plan.sound bypass member
  have crossing := sofar.crossing valid inRound passage.toCrossing
  obtain ⟨startOutside, goalOutside⟩ := passage.ends_outside independent inRound
  exact addShortcut_of_crossing (sofar.wellFormed valid) crossing inId outId startOutside goalOutside
    (weighs _ _ _ _ passage)

theorem lt_of_mem_openNeighbors (valid : h.graph.WellFormed) (known : v < h.graph.vertexCount)
    {w : Nat} (member : w ∈ h.openNeighbors v) : w < h.graph.vertexCount := by
  obtain ⟨-, e, present, -, -, rfl⟩ :=
    (valid.mem_neighbors known).mp (List.mem_filter.mp member).1
  exact valid.other_lt present v

/-- The unprocessed neighbours of a vertex can be raised. -/
theorem exists_raise (valid : h.graph.WellFormed) (known : v < h.graph.vertexCount) (depth : Nat) :
    ∃ raised, h.graph.Tuned raised ∧ (h.openNeighbors v).foldlM
      (fun g neighbor => g.raiseDepth neighbor depth) h.graph = .ok raised := by
  have raises : Returns (fun _ => False) h.graph.Tuned
      ((h.openNeighbors v).foldlM (fun g neighbor => g.raiseDepth neighbor depth) h.graph) := by
    apply Returns.foldlM
    · intro neighbor member state tuned
      have there : neighbor < state.vertexCount := by
        rw [tuned.vertexCount]
        exact lt_of_mem_openNeighbors valid known member
      obtain ⟨next, raised⟩ := exists_updateVertex there fun old =>
        { old with depth := max old.depth depth }
      exact .of_eq_ok raised (tuned.trans (tuned_of_raiseDepth raised))
    · exact .refl _
  obtain ⟨raised, success, tuned⟩ := raises.exists_ok fun _ => False.elim
  exact ⟨raised, tuned, success⟩

/-- An unprocessed vertex can be closed, unless its depth has no room to grow. -/
theorem close_returns (valid : h.graph.WellFormed) (unprocessed : v ∈ h.graph.unprocessed)
    (deepens : Returns cause (fun _ => True) (addDepth (h.graph.depth v) 1)) :
    Returns cause (fun outcome => ∀ w ∈ outcome.1, w < h.graph.vertexCount)
      (h.close round v) := by
  obtain ⟨known, open_⟩ := valid.mem_unprocessed.mp unprocessed
  obtain ⟨vertex, found⟩ := exists_vertex known
  have noted : h.graph.depth v = vertex.depth := by
    rw [Graph.depth, vertex_eq_ok.mp found]
    rfl
  rw [noted] at deepens
  unfold close
  apply Returns.after found
  apply deepens.bind
  intro depth _ _
  obtain ⟨raised, tuned, raises⟩ := exists_raise valid known depth
  apply Returns.after raises
  have here : v < raised.vertexCount ∧ raised.isProcessed v = false := by
    rw [tuned.vertexCount, tuned.isProcessed]
    exact ⟨known, open_⟩
  apply Returns.after (markProcessed_eq_ok.mpr ⟨here, rfl⟩)
  intro w member
  exact lt_of_mem_openNeighbors valid known member

section Members

variable (valid : g.WellFormed) (independent : g.Independent round.members)
  (sofar : Steps round.number round.members g h.graph)
include valid independent sofar

/-- An unprocessed member can be contracted by its plan. -/
theorem contract_returns {result : Nat × Simulation} (inRound : result.1 ∈ round.members)
    (plan : g.Plan result.1 (· ∈ round.members) result.2.bypasses)
    (unprocessed : result.1 ∈ h.graph.unprocessed) (weighs : g.Weighs cause result.1)
    (deepens : Returns cause (fun _ => True) (addDepth (h.graph.depth result.1) 1)) :
    Returns cause (fun outcome => ∀ w ∈ outcome.1, w < g.vertexCount)
      (h.contract round result) := by
  have open_ : ∀ {state : Hierarchy}, state.graph.vertices = h.graph.vertices →
      result.1 ∈ state.graph.unprocessed := by
    intro state same
    rwa [Graph.unprocessed, same]
  have bridges : Returns cause
      (fun bridged : Hierarchy => Steps round.number round.members g bridged.graph ∧
        bridged.graph.vertices = h.graph.vertices)
      (result.2.bypasses.foldlM (addShortcut round result.1) h) := by
    apply Returns.foldlM
    · rintro bypass member state ⟨steps, same⟩
      apply (addShortcut_returns valid steps independent inRound plan weighs member).mono
      intro next added _
      have step := (addShortcut_bridges valid steps inRound (open_ same) plan member added).1
      exact ⟨steps.tail step, (addShortcut_keeps (steps.wellFormed valid) added).2.trans same⟩
    · exact ⟨sofar, rfl⟩
  apply bridges.bind
  rintro bridged - ⟨steps, same⟩
  obtain ⟨closed, -, closes⟩ := steps.closes valid
  rw [← closes.vertexCount]
  apply close_returns (steps.wellFormed valid) (open_ same)
  rwa [depth_of_vertices_eq same]

/-- Different unprocessed members can be contracted one after the other by their plans. -/
theorem contractAll_returns {results : List (Nat × Simulation)}
    (planned : ∀ result ∈ results, result.1 ∈ round.members ∧
      g.Plan result.1 (· ∈ round.members) result.2.bypasses)
    (unprocessed : ∀ result ∈ results, result.1 ∈ h.graph.unprocessed)
    (single : (results.map (·.1)).Nodup) :
    Returns Overflows (fun outcome => ∀ w ∈ outcome.1, w < g.vertexCount)
      (contractAll round results h) := by
  induction results generalizing h with
  | nil => exact fun w member => (List.not_mem_nil member).elim
  | cons result rest ih =>
    obtain ⟨⟨inRound, plan⟩, plans⟩ := List.forall_mem_cons.mp planned
    obtain ⟨open_, others⟩ := List.forall_mem_cons.mp unprocessed
    obtain ⟨fresh, distinct⟩ := List.nodup_cons.mp single
    have before := sofar.wellFormed valid
    unfold contractAll
    apply (contract_returns valid independent sofar inRound plan open_ (weighs_overflows g _)
      ((addWithin_returns 32 _ 1).mono fun _ _ _ => trivial)).bind
    rintro ⟨above, next⟩ contracted inside
    have advances := contract_advances valid sofar inRound plan contracted
    have still : ∀ other ∈ rest, other.1 ∈ next.graph.unprocessed := by
      intro other member
      apply (advances.closes.mem_unprocessed before).mpr
      refine ⟨others other member, fun same => fresh ?_⟩
      rw [← List.mem_singleton.mp same]
      exact List.mem_map.mpr ⟨other, member, rfl⟩
    apply (ih (sofar.trans advances.steps) plans still distinct).bind
    rintro ⟨later, last⟩ - outside
    intro w member
    exact (List.mem_append.mp member).elim (inside w) (outside w)

end Members

/-- A round of different unprocessed vertices without a common edge can be committed when every
simulation is a plan. It touches different vertices of the graph. -/
theorem applyRound_returns {number : Nat} {results : List (Nat × Simulation)} {members : List Nat}
    (valid : h.graph.WellFormed) (independent : h.graph.Independent members)
    (listed : results.map (·.1) = members) (single : members.Nodup)
    (unprocessed : ∀ v ∈ members, v ∈ h.graph.unprocessed)
    (planned : ∀ result ∈ results, h.graph.Plan result.1 (· ∈ members) result.2.bypasses) :
    Returns Overflows
      (fun outcome => outcome.1.Nodup ∧ ∀ w ∈ outcome.1, w < h.graph.vertexCount)
      (h.applyRound number results) := by
  have ordered := Agenda.perm_ofList (fun a b : Nat × Simulation => decide (a.1 ≤ b.1)) results
  have sorted := ordered.map (·.1)
  rw [listed] at sorted
  unfold applyRound
  dsimp only
  generalize Agenda.ofList (fun a b : Nat × Simulation => decide (a.1 ≤ b.1)) results = agenda
    at ordered sorted ⊢
  have contracts : Returns Overflows (fun outcome => ∀ w ∈ outcome.1, w < h.graph.vertexCount)
      (contractAll ⟨number, agenda.map (·.1)⟩ agenda h) := by
    apply contractAll_returns (h := h) valid (independent.perm sorted.symm) .refl
    · intro result member
      have plan := planned result (ordered.mem_iff.mp member)
      simp only [← sorted.mem_iff] at plan
      exact ⟨List.mem_map.mpr ⟨result, member, rfl⟩, plan⟩
    · intro result member
      apply unprocessed
      exact sorted.mem_iff.mp (List.mem_map.mpr ⟨result, member, rfl⟩)
    · exact sorted.nodup_iff.mpr single
  apply contracts.bind
  rintro ⟨above, last⟩ - inside
  refine ⟨(Ascending.pairwise_ofList _).imp Nat.ne_of_lt, fun w member => ?_⟩
  exact inside w (List.mem_filter.mp (Ascending.mem_ofList.mp member)).1

end Hierarchy

end RoadHierarchy
