import RoadHierarchy.Proofs.Contraction.Commitment
import RoadHierarchy.Proofs.Contraction.Stages
import RoadHierarchy.Proofs.Contraction.Unranked

/-! # Replaying a run one vertex at a time

A run by priority in which every round contracts a single vertex can be replayed: the list of these
vertices, taken as a fixed order, leads to the same hierarchy. The replay simulates each vertex on
its own and notes other priorities. At every stage, the two hierarchies are the same without
priorities, and this is what carries the replay from each round to the next.
-/

namespace RoadHierarchy

namespace Hierarchy

open RoadHierarchy.Graph RoadHierarchy.Strategy

/-- Every round has contracted a single vertex, the one that the order lists for it. -/
def OneByOne (g : Graph) (order : List Nat) (h : Hierarchy) : Prop :=
  ∀ i v, order[i]? = some v ↔ v ∈ g.unprocessed ∧ h.graph.round? v = some i

/-- The hierarchies agree in everything but priorities and the number of simulations. -/
structure Matches (h other : Hierarchy) : Prop where
  edges : h.graph.edges = other.graph.edges
  vertexCount : h.graph.vertexCount = other.graph.vertexCount
  processed : ∀ v, h.graph.isProcessed v = other.graph.isProcessed v
  round : ∀ v, h.graph.round? v = other.graph.round? v
  depth : ∀ v, h.graph.depth v = other.graph.depth v
  rounds : h.statistics.rounds = other.statistics.rounds
  verticesContracted : h.statistics.verticesContracted = other.statistics.verticesContracted
  shortcutsAdded : h.statistics.shortcutsAdded = other.statistics.shortcutsAdded
  edgesRemoved : h.statistics.edgesRemoved = other.statistics.edgesRemoved
  maxDepth : h.statistics.maxDepth = other.statistics.maxDepth

variable {s : Settings} {g : Graph} {h other next : Hierarchy} {order : List Nat} {v number : Nat}

theorem unranked_of_rank {turns vertices : List Nat}
    (success : h.rank s turns vertices = .ok next) : next.unranked = h.unranked := by
  obtain ⟨results, -, success⟩ := bind_eq_ok.mp success
  obtain ⟨graph, noted, success⟩ := bind_eq_ok.mp success
  obtain rfl := pure_eq_ok.mp success
  have same : graph.unranked = h.graph.unranked := by
    refine foldlM_keeps (fun state : Graph => state.unranked = h.graph.unranked) ?_ noted rfl
    intro result _ state later prioritized kept
    obtain ⟨vertex, -, set⟩ := bind_eq_ok.mp prioritized
    exact (unranked_setPriority set).trans kept
  exact congrArg (Hierarchy.mk · _) same

/-- A round is committed alike to hierarchies that are the same without priorities. -/
theorem exists_applyRound_alike {results : List (Nat × Simulation)} {touched : List Nat}
    (same : other.unranked = h.unranked)
    (success : h.applyRound number results = .ok (touched, next)) : ∃ last,
      other.applyRound number results = .ok (touched, last) ∧ last.unranked = next.unranked := by
  have alike := other.applyRound_unranked number results
  rw [same, h.applyRound_unranked, success] at alike
  obtain ⟨⟨above, last⟩, applied, agree⟩ := map_eq_ok.mp alike.symm
  obtain ⟨rfl, unranked⟩ := Prod.mk.inj agree
  exact ⟨last, applied, unranked⟩

/-- A step of the fixed order succeeds when each of its parts does. -/
theorem contractNext_of_parts {simulation : Simulation} {graph : Graph} {touched : List Nat}
    (known : v < h.graph.vertexCount)
    (simulated : h.graph.simulate s.searchSpaceHopLimit v = .ok simulation)
    (set : h.graph.setPriority v number.toFloat = .ok graph)
    (applied : (countSimulations { h with graph } 1).applyRound number [(v, simulation)] =
      .ok (touched, next)) : h.contractNext s (v, number) = .ok next := by
  unfold contractNext
  dsimp only
  rw [if_neg (Nat.not_le_of_lt known)]
  exact bind_eq_ok.mpr ⟨simulation, simulated, bind_eq_ok.mpr ⟨graph, set,
    bind_eq_ok.mpr ⟨_, applied, rfl⟩⟩⟩

/-- A round of one vertex, found by priority, is repeated by the step of the fixed order. -/
theorem exists_contractNext_alike {schedule : Schedule} (same : other.unranked = h.unranked)
    (known : v < h.graph.vertexCount) (success : h.step s schedule number [v] = .ok next) :
    ∃ last, other.contractNext s (v, number) = .ok last ∧ last.unranked = next.unranked := by
  obtain ⟨results, dispatched, success⟩ := bind_eq_ok.mp success
  obtain ⟨⟨touched, committed⟩, applied, ranked⟩ := bind_eq_ok.mp success
  obtain ⟨listed, genuine⟩ := dispatch_eq_ok dispatched
  obtain ⟨⟨w, simulation⟩, rfl, here⟩ := List.map_eq_singleton_iff.mp listed
  obtain rfl : w = v := here
  -- The replay looks at the same edges and marks, and so finds the same shortcuts.
  have graphs : other.graph.unranked = h.graph.unranked := congrArg Hierarchy.graph same
  have simulated : other.graph.simulate s.searchSpaceHopLimit w = .ok simulation := by
    have given : h.graph.simulateInRound s.searchSpaceHopLimit w [w] = .ok simulation :=
      genuine _ (List.mem_singleton_self _)
    rw [simulateInRound_singleton] at given
    rw [simulate, ← simulateAvoiding_unranked, graphs, simulateAvoiding_unranked]
    exact given
  have there : w < other.graph.vertexCount := by
    rwa [← vertexCount_unranked, graphs, vertexCount_unranked]
  obtain ⟨noted, set⟩ :=
    exists_updateVertex there fun old => { old with priority := number.toFloat }
  have ready : (countSimulations { other with graph := noted } 1).unranked =
      (h.countSimulations 1).unranked :=
    Eq.trans (congrArg (Hierarchy.mk · _) (unranked_setPriority set)) same
  obtain ⟨last, replayed, agree⟩ := exists_applyRound_alike ready applied
  exact ⟨last, contractNext_of_parts there simulated set replayed,
    agree.trans (unranked_of_rank ranked).symm⟩

theorem conclude_unranked (h : Hierarchy) (rounds : Nat) :
    h.unranked.conclude rounds = (h.conclude rounds).unranked := by
  have depths : h.graph.unranked.vertices.toList.map (·.depth) =
      h.graph.vertices.toList.map (·.depth) := by
    rw [Graph.unranked, Array.toList_map, List.map_map]
    rfl
  exact congrArg (fun depths : List Nat => (⟨h.graph.unranked,
    { h.statistics with simulations := 0, rounds, maxDepth := depths.foldl max 0 }⟩ : Hierarchy))
    depths

theorem Matches.of_unranked (same : h.unranked = other.unranked) : h.Matches other := by
  simp only [unranked, Hierarchy.mk.injEq, Statistics.mk.injEq] at same
  obtain ⟨graphs, rounds, contracted, added, removed, -, highest⟩ := same
  have edges := congrArg Graph.edges graphs
  have depth (g : Graph) (v : Nat) : g.unranked.depth v = g.depth v := by
    rw [Graph.depth, vertex?_unranked, Option.map_map]
    rfl
  refine ⟨edges, ?_, fun v => ?_, fun v => ?_, fun v => ?_, rounds, contracted, added, removed,
    highest⟩
  · rw [← vertexCount_unranked, graphs, vertexCount_unranked]
  · rw [← isProcessed_unranked, graphs, isProcessed_unranked]
  · rw [← (tuned_unranked h.graph).round?, graphs, (tuned_unranked other.graph).round?]
  · rw [← depth, graphs, depth]

end Hierarchy

namespace Strategy

open RoadHierarchy.Hierarchy RoadHierarchy.Graph

variable {s : Settings} {g : Graph} {h : Hierarchy} {order : List Nat} {sets : List (List Nat)}
  {schedule : Schedule}

/-- Up to each stage, the fixed order goes along with a run whose rounds have one vertex each. -/
theorem Stage.exists_replay (stage : (byPriority schedule).Stage s g sets h) (valid : g.WellFormed)
    (single : order.map ([·]) = sets) : ∃ replayed,
      order.zipIdx.foldlM (contractNext s) (start g) = .ok replayed ∧
        replayed.unranked = h.unranked := by
  -- The stage grows at its end, so the order is taken apart there.
  induction stage generalizing order with
  | opening _ begins =>
    obtain rfl := List.map_eq_nil_iff.mp single
    exact ⟨start g, rfl, (unranked_of_rank begins).symm⟩
  | @round h next sets members stage performs ih =>
    obtain ⟨first, rest, rfl, before, here⟩ := List.map_eq_append_iff.mp single
    obtain ⟨v, rfl, rfl⟩ := List.map_eq_singleton_iff.mp here
    obtain ⟨replayed, followed, same⟩ := ih before
    obtain ⟨chosen, -, stepped⟩ := performs
    have known : v < h.graph.vertexCount :=
      lt_of_mem_independentSet (stage.wellFormed valid) (chosen ▸ List.mem_singleton_self v)
    rw [← before, List.length_map] at stepped
    obtain ⟨last, contracted, agree⟩ := exists_contractNext_alike same known stepped
    refine ⟨last, ?_, agree⟩
    rw [List.zipIdx_append, List.foldlM_append, bind_eq_ok, Nat.zero_add]
    exact ⟨replayed, followed, foldlM_cons_eq_ok.mpr ⟨last, contracted, rfl⟩⟩

/-- Different members of a list that all stand for the same entry are one member. -/
theorem exists_eq_singleton {members : List Nat} {entry : Option Nat} (inhabited : members ≠ [])
    (distinct : members.Nodup) (same : ∀ v ∈ members, entry = some v) :
    ∃ v, entry = some v ∧ members = [v] := by
  obtain ⟨v, others, rfl⟩ := List.exists_cons_of_ne_nil inhabited
  have first := same v (List.mem_cons_self ..)
  have alone : others = [] := by
    refine List.eq_nil_iff_forall_not_mem.mpr fun w member => ?_
    obtain rfl := Option.some.inj (first.symm.trans (same w (List.mem_cons_of_mem _ member)))
    exact (List.nodup_cons.mp distinct).1 member
  exact ⟨v, first, alone ▸ rfl⟩

/-- If every round has contracted a single vertex, the order is the list of the rounds. -/
theorem Stage.sets_eq (stage : (byPriority schedule).Stage s g sets h) (valid : g.WellFormed)
    (complete : h.graph.unprocessed = []) (single : OneByOne g order h) :
    order.map ([·]) = sets := by
  have run := stage.run valid
  have distinct : sets.flatten.Nodup := by
    have contracted := run.unprocessed
    rw [complete, List.append_nil] at contracted
    exact contracted.nodup_iff.mp valid.unprocessed_nodup
  refine List.ext_getElem? fun i => ?_
  rw [List.getElem?_map]
  cases found : sets[i]? with
  | some members =>
    have listed : members ∈ sets := List.mem_of_getElem? found
    have same : ∀ v ∈ members, order[i]? = some v := fun v member => by
      have given := run.round?_of_mem valid found member
      rw [Nat.zero_add] at given
      exact (single i v).mpr given
    obtain ⟨v, entry, rfl⟩ := exists_eq_singleton (stage.ne_nil members listed)
      ((List.nodup_flatten.mp distinct).1 members listed) same
    rw [entry]
    rfl
  | none =>
    -- An entry past the last round would be the only vertex of a round that there is not.
    cases entry : order[i]? with
    | none => rfl
    | some v =>
      obtain ⟨open_, given⟩ := (single i v).mp entry
      obtain ⟨j, members, there, member⟩ := run.exists_round complete open_
      obtain ⟨-, round⟩ := run.round?_of_mem valid there member
      rw [given, Nat.zero_add] at round
      obtain rfl := Option.some.inj round
      cases found.symm.trans there

end Strategy

namespace Hierarchy

open RoadHierarchy.Graph RoadHierarchy.Strategy

variable {s : Settings} {g : Graph} {h : Hierarchy} {order : List Nat}

/-- A run by priority, under whatever turns of its workers, whose rounds contract a single vertex
each is replayed by the fixed order that lists these vertices: the order is followed to its end, and
leads to the same edges, marks, depths and statistics. -/
theorem replay_of_buildUnder {schedule : Schedule} {progress : List Nat} (reachable : g.Reachable)
    (success : buildUnder schedule s g = .ok (progress, h)) (single : OneByOne g order h) :
    ∃ replayed, buildInOrder s order g = .ok replayed ∧ replayed.Matches h := by
  have valid := reachable.wellFormed
  obtain ⟨sets, last, stage, complete, rfl⟩ := stage_of_buildUnder valid success
  obtain rfl := stage.sets_eq valid complete single
  obtain ⟨replayed, followed, same⟩ := stage.exists_replay valid rfl
  have total : order.length = g.unprocessed.length := by
    have contracted := perm_of_stage valid stage
    rw [complete, List.append_nil] at contracted
    exact contracted.length_eq.symm
  refine ⟨replayed.conclude order.length, ?_, .of_unranked ?_⟩
  · exact buildInOrder_eq_ok.mpr ⟨stage.usable, total, replayed, followed, rfl⟩
  · rw [List.length_map, ← conclude_unranked, ← conclude_unranked, same]

/-- A ring of five corners is contracted one by one, not in the order of its ids, and one shortcut is
needed. -/
theorem replay_of_buildUnder_ring : ∃ g progress h, Graph.ofExtract ⟨List.replicate 5 ⟨0, 0⟩,
      [⟨0, 1, 1, true⟩, ⟨1, 2, 1, true⟩, ⟨2, 3, 1, true⟩, ⟨3, 4, 1, true⟩, ⟨4, 0, 1, true⟩]⟩ = .ok g ∧
    buildUnder (fun _ => []) {} g = .ok (progress, h) ∧ OneByOne g [0, 1, 2, 4, 3] h ∧
    ∃ replayed, buildInOrder {} [0, 1, 2, 4, 3] g = .ok replayed ∧ replayed.Matches h ∧
      replayed.statistics.shortcutsAdded = 1 := by
  have computed : (do
      let g ← Graph.ofExtract ⟨List.replicate 5 ⟨0, 0⟩,
        [⟨0, 1, 1, true⟩, ⟨1, 2, 1, true⟩, ⟨2, 3, 1, true⟩, ⟨3, 4, 1, true⟩, ⟨4, 0, 1, true⟩]⟩
      let built ← buildUnder (fun _ => []) {} g
      return (g.unprocessed, (List.range 5).map built.2.graph.round?,
        built.2.statistics.shortcutsAdded)).toOption =
      some ([0, 1, 2, 3, 4], [some 0, some 1, some 2, some 4, some 3], 1) := by
    decide +kernel
  obtain ⟨g, extracted, computed⟩ := bind_eq_ok.mp (toOption_eq_some.mp computed)
  obtain ⟨⟨progress, h⟩, success, computed⟩ := bind_eq_ok.mp computed
  have values := pure_eq_ok.mp computed
  simp only [Prod.mk.injEq] at values
  obtain ⟨left, rounds, added⟩ := values
  have single : OneByOne g [0, 1, 2, 4, 3] h := by
    simp only [List.range, List.range.loop, List.map_cons, List.map_nil, List.cons.injEq,
      and_true] at rounds
    obtain ⟨zero, one, two, three, four⟩ := rounds
    intro i v
    rw [left]
    constructor
    · intro entry
      rcases i with _ | _ | _ | _ | _ | i
      all_goals cases entry
      all_goals simp [zero, one, two, three, four]
    · rintro ⟨member, given⟩
      simp only [List.mem_cons, List.not_mem_nil, or_false] at member
      rcases member with rfl | rfl | rfl | rfl | rfl
      all_goals simp only [zero, one, two, three, four, Option.some.injEq] at given
      all_goals exact given ▸ rfl
  obtain ⟨replayed, followed, agree⟩ :=
    replay_of_buildUnder (Graph.reachable_ofExtract extracted) success single
  exact ⟨g, progress, h, extracted, success, single, replayed, followed, agree,
    agree.shortcutsAdded.trans added⟩

end Hierarchy

end RoadHierarchy
