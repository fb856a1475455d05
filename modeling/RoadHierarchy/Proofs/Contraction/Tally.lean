import Mathlib.Data.Set.Card
import RoadHierarchy.Proofs.Contraction.Depth
import RoadHierarchy.Proofs.Contraction.Ranking

/-! # The counters agree with the graph

Each counter of a hierarchy grows with one kind of change to its graph: vertices that are marked,
edges that are appended, edges that are flagged. So at the end of a run the statistics can be read
off the input and the output. Only the number of simulations depends on what lay around the rounds.
-/

namespace RoadHierarchy

namespace Graph

/-- The number of edges flagged as removed. -/
def removedCount (g : Graph) : Nat := g.edges.toList.countP (·.removed)

variable {g h : Graph}

theorem removedCount_withoutEdge {i : Nat} {e : Edge} (found : g.edges[i]? = some e)
    (alive : e.removed = false) : (g.withoutEdge i).removedCount = g.removedCount + 1 := by
  rw [← Array.getElem?_toList] at found
  rw [removedCount, removedCount, withoutEdge, Array.toList_modify]
  generalize g.edges.toList = edges at found
  induction edges generalizing i with
  | nil => cases found
  | cons head rest ih =>
    cases i with
    | zero =>
      obtain rfl := Option.some.inj found
      have spared : ¬ head.removed = true := by simp [alive]
      rw [List.modify_zero_cons, List.countP_cons_of_pos rfl, List.countP_cons_of_neg spared]
    | succ i =>
      rw [List.modify_succ_cons, List.countP_cons, List.countP_cons, ih found]
      omega

theorem removedCount_withEdge {e : Edge} (alive : e.removed = false) :
    (g.withEdge e).removedCount = g.removedCount := by
  have appended : (g.withEdge e).edges.toList = g.edges.toList ++ [e] := Array.toList_push
  rw [removedCount, appended, List.countP_append, List.countP_singleton, alive]
  rfl

theorem edgeCount_withEdge (e : Edge) : (g.withEdge e).edgeCount = g.edgeCount + 1 :=
  Array.size_push e

theorem removedCount_of_edges_eq (edges : h.edges = g.edges) : h.removedCount = g.removedCount := by
  rw [removedCount, removedCount, edges]

/-- In a run, the members of the rounds up to one are the vertices with a round before it. -/
theorem Run.countP_round? {number : Nat} {rounds : List (List Nat)} (run : Run number g rounds h)
    (valid : g.WellFormed) (complete : h.unprocessed = []) (i : Nat) :
    g.unprocessed.countP (fun v => (h.round? v).any (· < number + i)) =
      (rounds.take i).flatten.length := by
  have contracted := run.unprocessed
  rw [complete, List.append_nil, ← List.take_append_drop i rounds, List.flatten_append] at contracted
  rw [contracted.countP_eq, List.countP_append]
  have early : ∀ v ∈ (rounds.take i).flatten, (h.round? v).any (· < number + i) = true := by
    intro v member
    obtain ⟨members, listed, inside⟩ := List.mem_flatten.mp member
    obtain ⟨j, found⟩ := List.mem_iff_getElem?.mp listed
    rw [List.getElem?_take] at found
    split at found
    · next before =>
      rw [(run.round?_of_mem valid found inside).2]
      simpa using before
    · cases found
  have late : ∀ v ∈ (rounds.drop i).flatten, ¬ (h.round? v).any (· < number + i) = true := by
    intro v member
    obtain ⟨members, listed, inside⟩ := List.mem_flatten.mp member
    obtain ⟨j, found⟩ := List.mem_iff_getElem?.mp listed
    rw [List.getElem?_drop] at found
    rw [(run.round?_of_mem valid found inside).2]
    simp
  rw [List.countP_eq_length.mpr early, List.countP_eq_zero.mpr late, Nat.add_zero]

end Graph

namespace Hierarchy

open RoadHierarchy.Graph

/-- What has happened to the graph has been counted, with as many vertices contracted and as many
simulations. -/
structure Tallies (contracted simulated : Nat) (h next : Hierarchy) : Prop where
  contracted : next.statistics.verticesContracted = h.statistics.verticesContracted + contracted
  added : next.statistics.shortcutsAdded + h.graph.edgeCount =
    h.statistics.shortcutsAdded + next.graph.edgeCount
  removed : next.statistics.edgesRemoved + h.graph.removedCount =
    h.statistics.edgesRemoved + next.graph.removedCount
  simulated : next.statistics.simulations = h.statistics.simulations + simulated

variable {s : Settings} {round : Round} {h middle next last : Hierarchy} {v : Nat}

namespace Tallies

theorem refl (h : Hierarchy) : Tallies 0 0 h h := ⟨rfl, rfl, rfl, rfl⟩

theorem trans {a b c d : Nat} (first : Tallies a b h middle) (second : Tallies c d middle next) :
    Tallies (a + c) (b + d) h next := by
  obtain ⟨contracted, added, removed, simulated⟩ := first
  obtain ⟨contracted', added', removed', simulated'⟩ := second
  constructor <;> omega

/-- Where nothing happens to the edges, only vertices and simulations are counted. -/
theorem of_edges_eq {contracted simulated : Nat} {graph : Graph} {statistics : Statistics}
    (edges : graph.edges = h.graph.edges)
    (counted : statistics = { h.statistics with
      verticesContracted := h.statistics.verticesContracted + contracted
      simulations := h.statistics.simulations + simulated }) :
    Tallies contracted simulated h ⟨graph, statistics⟩ := by
  subst counted
  refine ⟨rfl, ?_, ?_, rfl⟩
  · rw [edgeCount, edgeCount, edges]
  · rw [removedCount_of_edges_eq edges]

end Tallies

theorem tallies_of_retire {edge : Edge} (success : h.retire edge = .ok next) :
    Tallies 0 0 h next := by
  obtain ⟨graph, removed, success⟩ := bind_eq_ok.mp success
  obtain rfl := pure_eq_ok.mp success
  obtain ⟨⟨e, found, alive⟩, rfl⟩ := markRemoved_eq_ok.mp removed
  have size : (h.graph.withoutEdge edge.id).edgeCount = h.graph.edgeCount := Array.size_modify
  refine ⟨rfl, by rw [size], ?_, rfl⟩
  rw [removedCount_withoutEdge found alive]
  dsimp only
  omega

theorem tallies_of_addShortcut {bypass : Bypass}
    (success : h.addShortcut round v bypass = .ok next) :
    Tallies 0 0 h next := by
  unfold addShortcut at success
  obtain ⟨edgeIn, -, success⟩ := bind_eq_ok.mp success
  obtain ⟨edgeOut, -, success⟩ := bind_eq_ok.mp success
  obtain ⟨_, -, success⟩ := bind_eq_ok.mp success
  obtain ⟨_, -, success⟩ := bind_eq_ok.mp success
  split at success
  · cases success
  · obtain ⟨weight, -, success⟩ := bind_eq_ok.mp success
    obtain ⟨lighter, retired, success⟩ := bind_eq_ok.mp success
    obtain ⟨⟨id, graph⟩, pushed, success⟩ := bind_eq_ok.mp success
    obtain rfl := pure_eq_ok.mp success
    have fewer : Tallies 0 0 h lighter :=
      foldlM_keeps (Tallies 0 0 h) (fun _ _ _ _ step sofar => sofar.trans (tallies_of_retire step))
        retired (.refl h)
    obtain ⟨-, pushed⟩ := Graph.addShortcut_eq_ok.mp pushed
    obtain ⟨-, -, rfl⟩ := pushEdge_eq_ok.mp pushed
    apply fewer.trans (c := 0) (d := 0)
    refine ⟨rfl, ?_, ?_, rfl⟩
    · rw [edgeCount_withEdge]
      dsimp only
      omega
    · rw [removedCount_withEdge rfl]

theorem tallies_of_close {above : List Nat} (success : h.close round v = .ok (above, next)) :
    Tallies 1 0 h next := by
  unfold close at success
  obtain ⟨vertex, -, success⟩ := bind_eq_ok.mp success
  obtain ⟨depth, -, success⟩ := bind_eq_ok.mp success
  obtain ⟨raised, lifted, success⟩ := bind_eq_ok.mp success
  obtain ⟨graph, marked, success⟩ := bind_eq_ok.mp success
  cases pure_eq_ok.mp success
  have tuned : h.graph.Tuned raised :=
    foldlM_keeps h.graph.Tuned (fun _ _ _ _ step sofar => sofar.trans (tuned_of_raiseDepth step))
      lifted (.refl _)
  obtain ⟨-, rfl⟩ := markProcessed_eq_ok.mp marked
  exact .of_edges_eq tuned.edges rfl

theorem tallies_of_contract {result : Nat × Simulation} {above : List Nat}
    (success : h.contract round result = .ok (above, next)) : Tallies 1 0 h next := by
  obtain ⟨bridged, added, closed⟩ := bind_eq_ok.mp success
  have shortcuts : Tallies 0 0 h bridged :=
    foldlM_keeps (Tallies 0 0 h) (fun _ _ _ _ step sofar => sofar.trans (tallies_of_addShortcut step))
      added (.refl h)
  exact shortcuts.trans (tallies_of_close closed)

theorem tallies_of_contractAll {results : List (Nat × Simulation)} {above : List Nat}
    (success : contractAll round results h = .ok (above, last)) :
    Tallies results.length 0 h last := by
  induction results generalizing h above with
  | nil =>
    cases success
    exact .refl _
  | cons result rest ih =>
    obtain ⟨⟨lower, middle⟩, first, success⟩ := bind_eq_ok.mp success
    obtain ⟨⟨higher, final⟩, later, success⟩ := bind_eq_ok.mp success
    cases pure_eq_ok.mp success
    rw [List.length_cons, Nat.add_comm]
    exact (tallies_of_contract first).trans (ih later)

theorem tallies_of_applyRound {number : Nat} {results : List (Nat × Simulation)}
    {touched : List Nat} (success : h.applyRound number results = .ok (touched, next)) :
    Tallies results.length 0 h next := by
  obtain ⟨⟨above, final⟩, contracted, success⟩ := bind_eq_ok.mp success
  cases pure_eq_ok.mp success
  have ordered := Agenda.perm_ofList (fun a b : Nat × Simulation => decide (a.1 ≤ b.1)) results
  rw [← ordered.length_eq]
  exact tallies_of_contractAll contracted

/-- Ranking simulates each of the vertices once. -/
theorem tallies_of_rank {turns vertices : List Nat} (success : h.rank s turns vertices = .ok next) :
    Tallies 0 vertices.length h next := by
  obtain ⟨results, simulated, success⟩ := bind_eq_ok.mp success
  obtain ⟨graph, ranked, success⟩ := bind_eq_ok.mp success
  obtain rfl := pure_eq_ok.mp success
  obtain ⟨rfl, -⟩ := dispatch_eq_ok simulated
  have reranked : h.graph.Reranked graph :=
    foldlM_keeps h.graph.Reranked
      (fun _ _ _ _ step sofar => sofar.trans (reranked_of_prioritize step)) ranked (.refl _)
  rw [List.length_map]
  exact .of_edges_eq reranked.edges rfl

theorem tallies_of_countSimulations (h : Hierarchy) (count : Nat) :
    Tallies 0 count h (h.countSimulations count) :=
  .of_edges_eq rfl rfl

theorem tallies_of_contractNext {number : Nat} (success : h.contractNext s (v, number) = .ok next) :
    Tallies 1 1 h next := by
  unfold contractNext at success
  dsimp only at success
  split at success
  · cases success
  · obtain ⟨simulation, -, success⟩ := bind_eq_ok.mp success
    obtain ⟨graph, set, success⟩ := bind_eq_ok.mp success
    obtain ⟨⟨touched, final⟩, applied, success⟩ := bind_eq_ok.mp success
    obtain rfl := pure_eq_ok.mp success
    have noted : Tallies 0 1 h ({ h with graph }.countSimulations 1) :=
      .of_edges_eq (tuned_of_setPriority set).edges rfl
    exact noted.trans (tallies_of_applyRound applied)

end Hierarchy

/-- A round as it was selected: the graph at that time, and the members. -/
structure Selection where
  graph : Graph
  members : List Nat

/-- The vertices around the round when it was selected. -/
def Selection.around (selection : Selection) : Set Nat :=
  {w | selection.graph.Around selection.members w}

namespace Strategy

open RoadHierarchy.Hierarchy RoadHierarchy.Graph

/-- The rounds that have led from the graph to the hierarchy, each as it was selected. -/
inductive Course (s : Settings) (g : Graph) (strategy : Strategy) :
    List Selection → Hierarchy → Prop
  | opening {h : Hierarchy} : s.validate = .ok () → strategy.Begins s g h →
      Course s g strategy [] h
  | round {h next : Hierarchy} {log : List Selection} {members : List Nat} :
      Course s g strategy log h → strategy.Performs s log.length members h next →
      Course s g strategy (log ++ [⟨h.graph, members⟩]) next

/-- The simulations that are needed before the first round: the priority strategy ranks all
vertices. -/
def preparation (g : Graph) : Strategy → Nat
  | byPriority _ => g.unprocessed.length
  | inOrder _ => 0

/-- The simulations that a round needs: the priority strategy also ranks the vertices around it. -/
noncomputable def effort (selection : Selection) : Strategy → Nat
  | byPriority _ => selection.members.length + selection.around.ncard
  | inOrder _ => selection.members.length

variable {s : Settings} {g : Graph} {h next : Hierarchy} {strategy : Strategy} {number : Nat}
  {members : List Nat} {sets : List (List Nat)} {log : List Selection} {schedule : Schedule}

theorem Begins.tallies (begins : strategy.Begins s g h) :
    Tallies 0 (strategy.preparation g) (start g) h := by
  cases strategy with
  | byPriority schedule => exact tallies_of_rank begins
  | inOrder order =>
    obtain ⟨-, rfl⟩ := begins
    exact .refl _

/-- A round contracts its members, and simulates them and what it ranks. -/
theorem Performs.tallies (performs : strategy.Performs s number members h next)
    (positive : 0 < s.kNeighborhood) (valid : h.graph.WellFormed) :
    Tallies members.length (strategy.effort ⟨h.graph, members⟩) h next := by
  cases strategy with
  | byPriority schedule =>
    obtain ⟨chosen, filled, stepped⟩ := performs
    obtain ⟨results, dispatched, success⟩ := bind_eq_ok.mp stepped
    obtain ⟨⟨touched, committed⟩, applied, ranked⟩ := bind_eq_ok.mp success
    have commitment : Commitment s schedule number h members touched committed :=
      ⟨chosen, filled, results, dispatched, applied⟩
    obtain ⟨-, -, -, -, -, ascending, around⟩ := commitment.touches positive valid
    have size : (Selection.around ⟨h.graph, members⟩).ncard = touched.length := by
      have same : Selection.around ⟨h.graph, members⟩ = (touched.toFinset : Set Nat) := by
        ext w
        rw [List.coe_toFinset]
        exact (around w).symm
      rw [same, Set.ncard_coe_finset, List.toFinset_card_of_nodup (ascending.imp Nat.ne_of_lt)]
    obtain ⟨rfl, -⟩ := dispatch_eq_ok dispatched
    rw [effort, size, List.length_map]
    have counted := tallies_of_countSimulations h results.length
    have contracted := counted.trans (tallies_of_applyRound applied)
    simpa using contracted.trans (tallies_of_rank ranked)
  | inOrder order =>
    obtain ⟨v, -, rfl, contracted⟩ := performs
    exact tallies_of_contractNext contracted

namespace Course

/-- What a course reaches is a stage with the same rounds. -/
theorem stage (course : strategy.Course s g log h) :
    strategy.Stage s g (log.map (·.members)) h := by
  induction course with
  | opening usable begins => exact .opening usable begins
  | round _ performs ih =>
    rw [List.map_append]
    refine ih.round ?_
    rwa [List.length_map]

/-- Every stage has a course. -/
theorem of_stage (stage : strategy.Stage s g sets h) :
    ∃ log, log.map Selection.members = sets ∧ strategy.Course s g log h := by
  induction stage with
  | opening usable begins => exact ⟨[], rfl, .opening usable begins⟩
  | @round h next sets members _ performs ih =>
    obtain ⟨log, rfl, course⟩ := ih
    rw [List.length_map] at performs
    exact ⟨log ++ [⟨h.graph, members⟩], by rw [List.map_append]; rfl, course.round performs⟩

/-- At every stage, all that has been done since the start is counted. -/
theorem tallies (course : strategy.Course s g log h) (valid : g.WellFormed) :
    Tallies (log.map (·.members.length)).sum
      (strategy.preparation g + (log.map strategy.effort).sum) (start g) h := by
  induction course with
  | opening _ begins => exact begins.tallies
  | @round h next log members course performs ih =>
    have positive := (Settings.positive_of_validate course.stage.usable).2.1
    have further := ih.trans (performs.tallies positive (course.stage.wellFormed valid))
    simpa [List.sum_append, Nat.add_assoc] using further

/-- The rounds of a course have contracted what is no longer left. -/
theorem sum_members (course : strategy.Course s g log h) (valid : g.WellFormed)
    (complete : h.graph.unprocessed = []) :
    (log.map (·.members.length)).sum = g.unprocessed.length := by
  have contracted := (course.stage.run valid).unprocessed.length_eq
  rw [complete, List.append_nil, List.length_flatten, List.map_map] at contracted
  exact contracted.symm

end Course

/-- Rounds that are not empty contract more and more vertices. -/
theorem Stage.pairwise_progress (stage : strategy.Stage s g sets h) :
    ((List.range sets.length).map fun i => (sets.take (i + 1)).flatten.length).Pairwise (· < ·) := by
  have grows : ∀ i j, i < j → j ≤ sets.length →
      (sets.take i).flatten.length < (sets.take j).flatten.length := by
    intro i j before inside
    induction j, before using Nat.le_induction with
    | base =>
      have filled := stage.ne_nil sets[i] (List.getElem_mem inside)
      rw [List.take_succ_eq_append_getElem inside, List.flatten_append, List.length_append,
        List.flatten_singleton]
      exact Nat.lt_add_of_pos_right (List.length_pos_iff.mpr filled)
    | succ j _ ih =>
      refine (ih (Nat.le_of_succ_le inside)).trans_le ?_
      exact ((List.take_sublist_take_left (Nat.le_succ j)).flatten).length_le
  rw [List.pairwise_map]
  refine List.pairwise_lt_range.imp_of_mem fun _ inside before => ?_
  exact grows _ _ (Nat.succ_lt_succ before) (List.mem_range.mp inside)

/-- When no vertex is left, all have been contracted. -/
theorem Stage.getLast?_progress (stage : strategy.Stage s g sets h) (valid : g.WellFormed)
    (complete : h.graph.unprocessed = []) (left : g.unprocessed ≠ []) :
    ((List.range sets.length).map fun i => (sets.take (i + 1)).flatten.length).getLast? =
      some g.unprocessed.length := by
  have contracted := (stage.run valid).unprocessed
  rw [complete, List.append_nil] at contracted
  cases count : sets.length with
  | zero =>
    rw [List.length_eq_zero_iff.mp count] at contracted
    exact (left contracted.eq_nil).elim
  | succ n =>
    rw [List.range_succ, List.map_append, List.map_singleton, List.getLast?_concat,
      List.take_of_length_le count.le, contracted.length_eq]

end Strategy

namespace Hierarchy

open RoadHierarchy.Graph RoadHierarchy.Strategy

/-- The counters are what can be read off the input and the output. -/
structure Accounts (g : Graph) (h : Hierarchy) : Prop where
  contracted : h.statistics.verticesContracted = g.unprocessed.length
  added : h.graph.edgeCount = g.edgeCount + h.statistics.shortcutsAdded
  removed : h.graph.removedCount = g.removedCount + h.statistics.edgesRemoved
  depth : IsGreatest {d | ∃ v < h.graph.vertexCount, h.graph.depth v = d} h.statistics.maxDepth ∨
    h.graph.vertexCount = 0 ∧ h.statistics.maxDepth = 0

variable {s : Settings} {g : Graph} {h last : Hierarchy} {strategy : Strategy}
  {log : List Selection} {order : List Nat}

/-- The largest depth that is noted is 0 if there is no vertex. -/
theorem maxDepth_cases (h : Hierarchy) (rounds : Nat) :
    IsGreatest {d | ∃ v < h.graph.vertexCount, h.graph.depth v = d}
        (h.conclude rounds).statistics.maxDepth ∨
      h.graph.vertexCount = 0 ∧ (h.conclude rounds).statistics.maxDepth = 0 := by
  obtain ⟨attained, bound⟩ := isGreatest_maxDepth h rounds
  rcases Nat.eq_zero_or_pos h.graph.vertexCount with none | some
  · refine .inr ⟨none, ?_⟩
    rcases attained with zero | ⟨v, known, -⟩
    · exact zero
    · omega
  · refine .inl ⟨?_, fun d member => bound (.inr member)⟩
    rcases attained with zero | found
    · have least : h.graph.depth 0 ≤ _ := bound (.inr ⟨0, some, rfl⟩)
      rw [zero] at least ⊢
      exact ⟨0, some, Nat.le_zero.mp least⟩
    · exact found

/-- When a course is over, its counters agree with the graph. -/
theorem accounts_of_course (course : strategy.Course s g log last) (valid : g.WellFormed)
    (complete : last.graph.unprocessed = []) : (last.conclude log.length).Accounts g ∧
      (last.conclude log.length).statistics.simulations =
        strategy.preparation g + (log.map strategy.effort).sum := by
  obtain ⟨contracted, added, removed, simulated⟩ := course.tallies valid
  rw [course.sum_members valid complete] at contracted
  refine ⟨⟨?_, ?_, ?_, maxDepth_cases last _⟩, ?_⟩
  · exact contracted.trans (Nat.zero_add _)
  · exact (added.trans (Nat.zero_add _)).symm.trans (Nat.add_comm _ _)
  · exact (removed.trans (Nat.zero_add _)).symm.trans (Nat.add_comm _ _)
  · exact simulated.trans (Nat.zero_add _)

/-- The statistics of a run can be read off its input and its output: as many vertices have been
contracted as were left, shortcuts added as there are more edges, edges removed as more are flagged,
and the largest depth is that of a vertex. A fixed order takes a round and a simulation for each
vertex. The priority strategy simulates each vertex twice, and in each round the vertices around it
once more. After each round it reports how many vertices have been contracted in the rounds so far;
the reports increase and end with all vertices. -/
theorem statistics_agree (reachable : g.Reachable) :
    (∀ order h, buildInOrder s order g = .ok h → h.Accounts g ∧
      h.statistics.rounds = g.unprocessed.length ∧
      h.statistics.simulations = g.unprocessed.length) ∧
    ∀ schedule progress h, buildUnder schedule s g = .ok (progress, h) → h.Accounts g ∧
      (∃ log last, (byPriority schedule).Course s g log last ∧ last.graph.unprocessed = [] ∧
        h = last.conclude log.length ∧ h.statistics.simulations =
          2 * g.unprocessed.length + (log.map (·.around.ncard)).sum) ∧
      (progress = (List.range h.statistics.rounds).map fun i =>
        g.unprocessed.countP fun v => (h.graph.round? v).any (· < i + 1)) ∧
      progress.Pairwise (· < ·) ∧
      (g.unprocessed ≠ [] → progress.getLast? = some g.unprocessed.length) := by
  have valid := reachable.wellFormed
  refine ⟨fun order h success => ?_, fun schedule progress h success => ?_⟩
  · obtain ⟨total, last, stage, complete, rfl⟩ := stage_of_order valid success
    obtain ⟨log, listed, course⟩ := Course.of_stage stage
    obtain ⟨accounts, simulated⟩ := accounts_of_course course valid complete
    have rounds := congrArg List.length listed
    rw [List.length_map, List.length_map] at rounds
    rw [rounds] at accounts simulated
    refine ⟨accounts, total, ?_⟩
    rw [simulated, preparation, Nat.zero_add]
    exact course.sum_members valid complete
  · obtain ⟨sets, last, stage, complete, rfl, rfl⟩ := progress_of_buildUnder valid success
    obtain ⟨log, rfl, course⟩ := Course.of_stage stage
    obtain ⟨accounts, simulated⟩ := accounts_of_course course valid complete
    have rounds : (log.map (·.members)).length = log.length := List.length_map _
    rw [← rounds] at accounts simulated
    refine ⟨accounts, ⟨log, last, course, complete, by rw [rounds], ?_⟩, ?_,
      stage.pairwise_progress, stage.getLast?_progress valid complete⟩
    · have once := course.sum_members valid complete
      simp only [effort, List.sum_map_add, preparation] at simulated
      rw [simulated, once]
      omega
    · refine List.map_congr_left fun i _ => ?_
      have counted := (stage.run valid).countP_round? valid complete (i + 1)
      rw [Nat.zero_add] at counted
      exact counted.symm

/-- A ring of four, one corner of which has been contracted before: the other three take three
rounds, of which the first two have one vertex around them. -/
theorem statistics_agree_ring : ∃ g progress h, (do
      let ring ← Graph.ofExtract ⟨List.replicate 4 ⟨0, 0⟩,
        [⟨0, 1, 1, true⟩, ⟨1, 2, 1, true⟩, ⟨2, 3, 1, true⟩, ⟨3, 0, 1, true⟩]⟩
      ring.markProcessed 3 7) = .ok g ∧
    buildUnder (fun _ => []) {} g = .ok (progress, h) ∧ h.Accounts g ∧
      (∃ log last, (byPriority fun _ => []).Course {} g log last ∧
        last.graph.unprocessed = [] ∧ (log.map (·.around.ncard)).sum = 2) ∧
      progress = [1, 2, 3] ∧ progress.Pairwise (· < ·) := by
  have computed : (do
      let ring ← Graph.ofExtract ⟨List.replicate 4 ⟨0, 0⟩,
        [⟨0, 1, 1, true⟩, ⟨1, 2, 1, true⟩, ⟨2, 3, 1, true⟩, ⟨3, 0, 1, true⟩]⟩
      let g ← ring.markProcessed 3 7
      let built ← buildUnder (fun _ => []) {} g
      return (g.unprocessed, built.1, built.2.statistics.simulations)).toOption =
      some ([0, 1, 2], [1, 2, 3], 8) := by
    decide +kernel
  obtain ⟨ring, extracted, computed⟩ := bind_eq_ok.mp (toOption_eq_some.mp computed)
  obtain ⟨g, marked, computed⟩ := bind_eq_ok.mp computed
  obtain ⟨⟨progress, h⟩, success, computed⟩ := bind_eq_ok.mp computed
  have values := pure_eq_ok.mp computed
  simp only [Prod.mk.injEq] at values
  obtain ⟨left, reports, simulations⟩ := values
  have reachable : g.Reachable :=
    .perform (.markProcessed 3 7) (Graph.reachable_ofExtract extracted) marked
  obtain ⟨accounts, ⟨log, last, course, complete, -, simulated⟩, -, increase, -⟩ :=
    (statistics_agree reachable).2 _ progress h success
  rw [simulations, left] at simulated
  refine ⟨g, progress, h, bind_eq_ok.mpr ⟨ring, extracted, marked⟩, success, accounts,
    ⟨log, last, course, complete, ?_⟩, reports, increase⟩
  simp only [List.length_cons, List.length_nil] at simulated
  omega

end Hierarchy

end RoadHierarchy
