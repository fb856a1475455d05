import RoadHierarchy.Proofs.Contraction.Closing
import RoadHierarchy.Proofs.Contraction.Stages

/-! # No ranking is stale

A vertex is ranked anew after each round that touches it. Between such rounds the noted priority is
still the one that the vertex would be given, because all that a round changes lies between vertices
that it touches: edges, processed flags of neighbours, and depths.
-/

namespace RoadHierarchy

namespace Graph

/-- What there is to see from a vertex has not changed: its live edges in both directions, its
neighbours, which of these have been processed, and its depth. -/
structure SameAround (v : Nat) (g h : Graph) : Prop where
  ingoing : h.ingoing v = g.ingoing v
  outgoing : h.outgoing v = g.outgoing v
  neighbors : h.neighbors v = g.neighbors v
  processed : ∀ w ∈ g.neighbors v, h.isProcessed w = g.isProcessed w
  depth : h.depth v = g.depth v

variable {g m h : Graph} {number v w : Nat} {members closed met : List Nat}

namespace SameAround

theorem trans (first : g.SameAround v m) (second : m.SameAround v h) : g.SameAround v h where
  ingoing := second.ingoing.trans first.ingoing
  outgoing := second.outgoing.trans first.outgoing
  neighbors := second.neighbors.trans first.neighbors
  processed w member :=
    (second.processed w (first.neighbors.symm ▸ member)).trans (first.processed w member)
  depth := second.depth.trans first.depth

/-- Everything at a vertex is read off its live edges. -/
theorem of_liveEdges_eq (size : h.vertexCount = g.vertexCount)
    (live : h.liveEdges v = g.liveEdges v)
    (processed : ∀ w ∈ g.neighbors v, h.isProcessed w = g.isProcessed w)
    (depth : h.depth v = g.depth v) : g.SameAround v h where
  ingoing := by rw [Graph.ingoing, Graph.ingoing, live, size]
  outgoing := by rw [Graph.outgoing, Graph.outgoing, live, size]
  neighbors := by rw [Graph.neighbors, Graph.neighbors, live, size]
  processed := processed
  depth := depth

theorem of_reranked (reranked : g.Reranked h) (known : v < g.vertexCount) : g.SameAround v h := by
  refine of_liveEdges_eq reranked.vertexCount ?_ (fun w _ => reranked.isProcessed w)
    (reranked.depth v known)
  rw [liveEdges, liveEdges, reranked.vertexCount, reranked.edges, reranked.touching]

/-- Nothing changes for a vertex that is left by a round and was not around it. -/
theorem of_contracting (contracting : Contracting number members closed met g h)
    (contracts : Contracts number members g h) (valid : g.WellFormed)
    (independent : g.Independent members) (left : v ∈ h.unprocessed)
    (outside : ¬ g.Around members v) : g.SameAround v h := by
  have after := contracts.wellFormed valid
  have grows := contracts.steps.grows valid
  have stays := fun w => contracts.closes.mem_unprocessed (v := w) valid
  obtain ⟨open_, apart⟩ := (stays v).mp left
  have known := (valid.mem_unprocessed.mp open_).1
  have unjoined : ∀ w ∈ members, ¬ g.Joins w v := fun w member joins =>
    outside ⟨open_, apart, w, member, joins⟩
  refine of_liveEdges_eq grows.vertexCount ?_ (fun w neighbor => ?_) ?_
  · exact (contracts.steps.confined_around valid).liveEdges_eq grows valid after known outside
  · obtain ⟨-, joins⟩ := (valid.mem_neighbors_iff known).mp neighbor
    have other := (joins.lt valid).2
    have outlasts : w ∉ members := fun member => unjoined w member joins.symm
    have same := stays w
    rw [after.mem_unprocessed, valid.mem_unprocessed, grows.vertexCount] at same
    rw [Bool.eq_iff_iff, ← not_iff_not, Bool.not_eq_true, Bool.not_eq_true]
    simpa [other, outlasts] using same
  · rcases (contracting.isGreatest_depth valid independent known apart).1 with kept | raised
    · exact kept
    · obtain ⟨-, w, listed, joins, -⟩ := raised
      exact (unjoined w (contracting.mem_members w listed) joins).elim

end SameAround

end Graph

/-- A round of the priority strategy, once it has been committed. -/
structure Episode where
  /-- The vertices around the round, ascending. -/
  touched : List Nat
  /-- The graph after the round, before these vertices are ranked anew. -/
  graph : Graph

/-- The graph right after the last round that touched the vertex, or the first graph if none did. -/
def lastTouched (g : Graph) (v : Nat) (log : List Episode) : Graph :=
  log.foldl (fun since episode => if v ∈ episode.touched then episode.graph else since) g

theorem lastTouched_concat (g : Graph) (v : Nat) (log : List Episode) (episode : Episode) :
    lastTouched g v (log ++ [episode]) =
      if v ∈ episode.touched then episode.graph else lastTouched g v log := by
  rw [lastTouched, List.foldl_append]
  rfl

namespace Hierarchy

open RoadHierarchy.Graph

/-- The round of this number commits these members, which are the independent vertices, and gives
the vertices that it touches. -/
structure Commitment (s : Settings) (schedule : Schedule) (number : Nat) (h : Hierarchy)
    (members touched : List Nat) (committed : Hierarchy) : Prop where
  chosen : h.graph.independentSet s.kNeighborhood = members
  filled : members ≠ []
  applied : ∃ results, h.graph.simulateRound s (schedule (2 * number + 1)) members = .ok results ∧
    (h.countSimulations results.length).applyRound number results = .ok (touched, committed)

/-- The hierarchy is one from which the priority strategy selects its next round. The log holds the
rounds so far. -/
inductive Chronicle (s : Settings) (schedule : Schedule) (g : Graph) :
    List Episode → Hierarchy → Prop
  | opening {h : Hierarchy} : s.validate = .ok () →
      (start g).rank s (schedule 0) g.unprocessed = .ok h → Chronicle s schedule g [] h
  | round {h committed next : Hierarchy} {log : List Episode} {members touched : List Nat} :
      Chronicle s schedule g log h →
      Commitment s schedule log.length h members touched committed →
      committed.rank s (schedule (2 * log.length + 2)) touched = .ok next →
      Chronicle s schedule g (log ++ [⟨touched, committed.graph⟩]) next

/-- The priority noted for the vertex is the one that it was given in the earlier graph, from a
simulation there, and nothing has changed around the vertex since. -/
def Current (s : Settings) (v : Nat) (since h : Graph) : Prop :=
  ∃ simulation, since.simulate s.searchSpaceHopLimit v = .ok simulation ∧
    h.priority? v = some (s.priority simulation (since.depth v)) ∧ since.SameAround v h

variable {s : Settings} {schedule : Schedule} {g : Graph} {h committed next last : Hierarchy}
  {number : Nat} {members touched : List Nat} {log : List Episode}

theorem foldlM_prioritize_eq_ok {later : Graph} {results : List (Nat × Simulation)}
    (known : ∀ result ∈ results, result.1 < g.vertexCount) (single : (results.map (·.1)).Nodup)
    (success : results.foldlM (prioritize s) g = .ok later) :
    (∀ w < g.vertexCount, w ∉ results.map (·.1) → later.priority? w = g.priority? w) ∧
      ∀ result ∈ results,
        later.priority? result.1 = some (s.priority result.2 (g.depth result.1)) := by
  induction results generalizing g with
  | nil =>
    obtain rfl := pure_eq_ok.mp success
    exact ⟨fun _ _ _ => rfl, fun _ member => by cases member⟩
  | cons head rest ih =>
    obtain ⟨middle, first, onward⟩ := foldlM_cons_eq_ok.mp success
    obtain ⟨here, others⟩ := List.forall_mem_cons.mp known
    obtain ⟨fresh, distinct⟩ := List.nodup_cons.mp single
    have reranked := reranked_of_prioritize first
    have size := reranked.vertexCount
    obtain ⟨vertex, found, set⟩ := bind_eq_ok.mp first
    have depth : vertex.depth = g.depth head.1 := by
      rw [Graph.depth, vertex_eq_ok.mp found]
      rfl
    have noted := fun w => priority?_of_setPriority (w := w) set here
    obtain ⟨kept, given⟩ := ih (fun result member => size.symm ▸ others result member) distinct
      onward
    refine ⟨fun w inside outside => ?_, List.forall_mem_cons.mpr ⟨?_, fun result member => ?_⟩⟩
    · rw [List.map_cons, List.mem_cons, not_or] at outside
      rw [kept w (size.symm ▸ inside) outside.2, noted w inside, if_neg outside.1]
    · rw [kept head.1 (size.symm ▸ here) fresh, noted head.1 here, if_pos rfl, depth]
    · rw [given result member, reranked.depth result.1 (others result member)]

/-- Ranking notes, for each of the vertices and no other, the priority from a simulation. -/
theorem rank_eq_ok {turns vertices : List Nat} (known : ∀ v ∈ vertices, v < h.graph.vertexCount)
    (single : vertices.Nodup) (success : h.rank s turns vertices = .ok next) :
    (∀ w < h.graph.vertexCount, w ∉ vertices →
        next.graph.priority? w = h.graph.priority? w) ∧
      ∀ w ∈ vertices, Current s w h.graph next.graph := by
  have reranked := reranked_of_rank success
  obtain ⟨results, simulated, success⟩ := bind_eq_ok.mp success
  obtain ⟨graph, ranked, success⟩ := bind_eq_ok.mp success
  obtain rfl := pure_eq_ok.mp success
  obtain ⟨rfl, genuine⟩ := dispatch_eq_ok simulated
  obtain ⟨kept, given⟩ := foldlM_prioritize_eq_ok
    (fun result member => known _ (List.mem_map_of_mem member)) single ranked
  refine ⟨kept, fun w member => ?_⟩
  obtain ⟨result, listed, rfl⟩ := List.mem_map.mp member
  exact ⟨result.2, genuine result listed, given result listed,
    .of_reranked reranked (known _ member)⟩

namespace Commitment

variable (commitment : Commitment s schedule number h members touched committed)
  (positive : 0 < s.kNeighborhood) (valid : h.graph.WellFormed)
include commitment positive valid

/-- A round contracts independent members and touches exactly the vertices around it. -/
theorem touches : ∃ closed met, Contracting number members closed met h.graph committed.graph ∧
    Contracts number members h.graph committed.graph ∧ h.graph.Independent members ∧
      touched.Pairwise (· < ·) ∧ ∀ w, w ∈ touched ↔ h.graph.Around members w := by
  obtain ⟨rfl, -, results, dispatched, applied⟩ := commitment
  have known : ∀ v ∈ h.graph.independentSet s.kNeighborhood, v < h.graph.vertexCount :=
    fun _ => lt_of_mem_independentSet valid
  obtain ⟨listed, genuine⟩ := dispatch_eq_ok dispatched
  have planned := planned_of_simulateInRound valid known listed genuine
  obtain ⟨closed, met, contracting, -, ascending, around⟩ := applyRound_contracting
    (h := h.countSimulations results.length) valid listed planned applied
  have contracts := applyRound_contracts (h := h.countSimulations results.length) valid listed
    planned applied
  exact ⟨closed, met, contracting, contracts, independent_independentSet valid positive, ascending,
    around⟩

/-- The vertices touched are those that are left and joined to a member, when the round is over. -/
theorem mem_touched {w : Nat} : w ∈ touched ↔
    w ∈ committed.graph.unprocessed ∧ ∃ v ∈ members, committed.graph.Joins v w := by
  obtain ⟨-, -, -, contracts, -, -, around⟩ := commitment.touches positive valid
  rw [around, contracts.closes.mem_unprocessed valid, Around, ← and_assoc]
  refine and_congr_right fun _ => exists_congr fun v => and_congr_right fun member => ?_
  exact (contracts.steps.joins_member_iff valid member).symm

/-- A vertex that a round leaves and does not touch keeps its priority, and what is around it. -/
theorem sameAround {v : Nat} (left : v ∈ committed.graph.unprocessed) (apart : v ∉ touched) :
    v ∈ h.graph.unprocessed ∧ committed.graph.priority? v = h.graph.priority? v ∧
      h.graph.SameAround v committed.graph := by
  obtain ⟨_, _, contracting, contracts, independent, -, around⟩ := commitment.touches positive valid
  have before := ((contracts.closes.mem_unprocessed valid).mp left).1
  refine ⟨before, contracting.priority?_eq (valid.mem_unprocessed.mp before).1, ?_⟩
  exact .of_contracting contracting contracts valid independent left (mt (around v).mpr apart)

end Commitment

namespace Chronicle

/-- What a chronicle reaches is a stage with as many rounds. -/
theorem exists_stage (chronicle : Chronicle s schedule g log h) :
    ∃ sets, sets.length = log.length ∧ (Strategy.byPriority schedule).Stage s g sets h := by
  induction chronicle with
  | opening usable ranked => exact ⟨[], rfl, .opening usable ranked⟩
  | @round h committed next log members touched _ commitment ranked ih =>
    obtain ⟨sets, same, stage⟩ := ih
    obtain ⟨chosen, filled, results, dispatched, applied⟩ := commitment
    refine ⟨sets ++ [members], by rw [List.length_append, same, List.length_append]; rfl,
      stage.round ⟨chosen, filled, ?_⟩⟩
    rw [same]
    exact bind_eq_ok.mpr ⟨results, dispatched, bind_eq_ok.mpr ⟨_, applied, ranked⟩⟩

/-- Every stage of the priority strategy has a chronicle. -/
theorem of_stage {sets : List (List Nat)}
    (stage : (Strategy.byPriority schedule).Stage s g sets h) :
    ∃ log, log.length = sets.length ∧ Chronicle s schedule g log h := by
  induction stage with
  | opening usable ranked => exact ⟨[], rfl, .opening usable ranked⟩
  | @round h next sets members _ performs ih =>
    obtain ⟨log, same, chronicle⟩ := ih
    obtain ⟨chosen, filled, stepped⟩ := performs
    obtain ⟨results, dispatched, success⟩ := bind_eq_ok.mp stepped
    obtain ⟨⟨touched, committed⟩, applied, ranked⟩ := bind_eq_ok.mp success
    rw [← same] at dispatched applied ranked
    refine ⟨_, ?_, chronicle.round ⟨chosen, filled, results, dispatched, applied⟩ ranked⟩
    rw [List.length_append, same, List.length_append]
    rfl

/-- At every selection, all noted priorities are current. -/
theorem current (chronicle : Chronicle s schedule g log h) (valid : g.WellFormed) :
    ∀ v ∈ h.graph.unprocessed, Current s v (lastTouched g v log) h.graph := by
  induction chronicle with
  | @opening h usable ranked =>
    have known : ∀ v ∈ g.unprocessed, v < g.vertexCount := fun v member =>
      (valid.mem_unprocessed.mp member).1
    have noted := (rank_eq_ok (h := start g) known valid.unprocessed_nodup ranked).2
    intro v member
    rw [(reranked_of_rank ranked).unprocessed] at member
    exact noted v member
  | @round h committed next log members touched chronicle commitment ranked ih =>
    obtain ⟨sets, -, stage⟩ := chronicle.exists_stage
    have positive := (Settings.positive_of_validate stage.usable).2.1
    have before := stage.wellFormed valid
    obtain ⟨-, -, -, contracts, -, ascending, -⟩ := commitment.touches positive before
    have after := contracts.wellFormed before
    have known : ∀ v ∈ touched, v < committed.graph.vertexCount := fun v member =>
      (after.mem_unprocessed.mp ((commitment.mem_touched positive before).mp member).1).1
    obtain ⟨kept, noted⟩ := rank_eq_ok known (ascending.imp Nat.ne_of_lt) ranked
    have reranked := reranked_of_rank ranked
    intro v member
    rw [reranked.unprocessed] at member
    rw [lastTouched_concat]
    split
    · next anew => exact noted v anew
    · next apart =>
      have inside := (after.mem_unprocessed.mp member).1
      obtain ⟨open_, priority, same⟩ := commitment.sameAround positive before member apart
      obtain ⟨simulation, simulated, given, around⟩ := ih v open_
      refine ⟨simulation, simulated, ?_, (around.trans same).trans (.of_reranked reranked inside)⟩
      rw [kept v inside apart, priority, given]

end Chronicle

/-- At every selection of a run, the priority of every vertex that is left is the one that it was
given, from a fresh simulation, right after the last round that touched it, and nothing has changed
around it since. Each round touches exactly the vertices that are joined to a member of it and are
left, and every edge that it adds or removes joins two of them. -/
theorem current_of_buildUnder {progress : List Nat} (reachable : g.Reachable)
    (success : buildUnder schedule s g = .ok (progress, last)) :
    (∃ log final, Chronicle s schedule g log final ∧ final.graph.unprocessed = [] ∧
        last = final.conclude log.length) ∧
      ∀ log h, Chronicle s schedule g log h →
        (∀ v ∈ h.graph.unprocessed, Current s v (lastTouched g v log) h.graph) ∧
        ∀ members touched committed,
          Commitment s schedule log.length h members touched committed →
            touched.Pairwise (· < ·) ∧
            (∀ w, w ∈ touched ↔ w ∈ committed.graph.unprocessed ∧
              ∃ v ∈ members, committed.graph.Joins v w) ∧
            h.graph.Confined (· ∈ touched) committed.graph := by
  have valid := reachable.wellFormed
  refine ⟨?_, fun log h chronicle => ⟨chronicle.current valid, ?_⟩⟩
  · obtain ⟨sets, final, stage, complete, concluded⟩ := stage_of_buildUnder valid success
    obtain ⟨log, same, chronicle⟩ := Chronicle.of_stage stage
    exact ⟨log, final, chronicle, complete, same ▸ concluded⟩
  · intro members touched committed commitment
    obtain ⟨sets, -, stage⟩ := chronicle.exists_stage
    have positive := (Settings.positive_of_validate stage.usable).2.1
    have before := stage.wellFormed valid
    obtain ⟨-, -, -, contracts, -, ascending, around⟩ := commitment.touches positive before
    refine ⟨ascending, fun w => commitment.mem_touched positive before, ?_⟩
    exact (contracts.steps.confined_around before).mono fun w => (around w).mpr

/-- A square takes four rounds. Before the first of them, every priority comes from a simulation on
the square itself. -/
theorem current_of_buildUnder_square : ∃ g, Graph.ofExtract ⟨List.replicate 4 ⟨0, 0⟩,
      [⟨0, 1, 1, true⟩, ⟨1, 2, 1, true⟩, ⟨2, 3, 1, true⟩, ⟨3, 0, 1, true⟩]⟩ = .ok g ∧
    (∃ log final, Chronicle {} (fun _ => []) g log final ∧ final.graph.unprocessed = [] ∧
      log.length = 4) ∧
    ∃ h, Chronicle {} (fun _ => []) g [] h ∧ ∀ v ∈ [0, 1, 2, 3], Current {} v g h.graph := by
  have computed : (do
      let g ← Graph.ofExtract ⟨List.replicate 4 ⟨0, 0⟩,
        [⟨0, 1, 1, true⟩, ⟨1, 2, 1, true⟩, ⟨2, 3, 1, true⟩, ⟨3, 0, 1, true⟩]⟩
      Settings.validate {}
      let h ← (start g).rank {} [] g.unprocessed
      let built ← buildUnder (fun _ => []) {} g
      return (h.graph.unprocessed, built.2.statistics.rounds)).toOption = some ([0, 1, 2, 3], 4) := by
    decide +kernel
  obtain ⟨g, extracted, computed⟩ := bind_eq_ok.mp (toOption_eq_some.mp computed)
  obtain ⟨_, usable, computed⟩ := bind_eq_ok.mp computed
  obtain ⟨h, ranked, computed⟩ := bind_eq_ok.mp computed
  obtain ⟨built, success, computed⟩ := bind_eq_ok.mp computed
  obtain ⟨left, rounds⟩ := Prod.mk.inj (pure_eq_ok.mp computed)
  obtain ⟨⟨log, final, chronicle, complete, concluded⟩, selections⟩ :=
    current_of_buildUnder (reachable_ofExtract extracted) success
  rw [concluded] at rounds
  have opening : Chronicle {} (fun _ => []) g [] h := .opening usable ranked
  have current := (selections [] h opening).1
  rw [left] at current
  exact ⟨g, extracted, ⟨log, final, chronicle, complete, rounds⟩, h, opening, current⟩

end Hierarchy

end RoadHierarchy
