import RoadHierarchy.Proofs.Contraction.Closing
import RoadHierarchy.Proofs.Contraction.Stages
import RoadHierarchy.Proofs.Graph.Extension

/-! # The history of a build

A build is followed from the input on, vertex by vertex. At each moment its graph extends the graphs
of all moments before. So edges are only appended and flagged, and once a vertex has been contracted
nothing happens to it or to the edges at it, neither in the rest of its round nor in any later one.
-/

namespace RoadHierarchy

/-- How far a build has come. -/
inductive Moment where
  /-- So many rounds are over. -/
  | between (rounds : Nat) (h : Hierarchy)
  /-- A round is under way. The first list holds what is still to be contracted, the second one the
  neighbours of what has been contracted. -/
  | amid (round : Round) (rest : List (Nat × Simulation)) (met : List Nat) (h : Hierarchy)

namespace Moment

/-- The graph at a moment. -/
def graph : Moment → Graph
  | between _ h => h.graph
  | amid _ _ _ h => h.graph

/-- A round begins with the simulations of its members. -/
def ofResults (number : Nat) (results : List (Nat × Simulation)) (h : Hierarchy) : Moment :=
  let ordered := Agenda.ofList (fun a b => a.1 ≤ b.1) results
  .amid ⟨number, ordered.map (·.1)⟩ ordered [] h

/-- The graph is well formed, and what is left of a round are plans for the graph at its start. -/
def Sound : Moment → Prop
  | between _ h => h.graph.WellFormed
  | amid round rest met h => ∃ g : Graph, g.WellFormed ∧
      Graph.Steps round.number round.members g h.graph ∧
      (∀ result ∈ rest, result.1 ∈ round.members ∧
        g.Plan result.1 (· ∈ round.members) result.2.bypasses) ∧
      ∀ w ∈ met, w ∉ round.members → w ∈ h.graph.unprocessed

end Moment

namespace Strategy

/-- From one moment to the next, a round is selected, one of its vertices is contracted, or the
vertices around it are ranked. In a given order, a round is a single vertex. -/
inductive Moves (s : Settings) : Strategy → Moment → Moment → Prop
  | select {schedule : Schedule} {number : Nat} {h : Hierarchy} {members : List Nat}
      {results : List (Nat × Simulation)} :
      h.graph.independentSet s.kNeighborhood = members → members ≠ [] →
      h.graph.simulateRound s (schedule (2 * number + 1)) members = .ok results →
      Moves s (byPriority schedule) (.between number h)
        (.ofResults number results (h.countSimulations results.length))
  | contract {schedule : Schedule} {round : Round} {result : Nat × Simulation}
      {rest : List (Nat × Simulation)} {met above : List Nat} {h next : Hierarchy} :
      h.contract round result = .ok (above, next) →
      Moves s (byPriority schedule) (.amid round (result :: rest) met h)
        (.amid round rest (met ++ above) next)
  | rank {schedule : Schedule} {round : Round} {met : List Nat} {h next : Hierarchy} :
      h.rank s (schedule (2 * round.number + 2))
        (Ascending.ofList (met.filter (!round.members.contains ·))) = .ok next →
      Moves s (byPriority schedule) (.amid round [] met h) (.between (round.number + 1) next)
  | single {order : List Nat} {number v : Nat} {h next : Hierarchy} :
      order[number]? = some v → h.contractNext s (v, number) = .ok next →
      Moves s (inOrder order) (.between number h) (.between (number + 1) next)

/-- The graphs that a build from `g` has gone through up to a moment, that of the moment last. -/
inductive History (s : Settings) (g : Graph) (strategy : Strategy) : List Graph → Moment → Prop
  | opening {h : Hierarchy} : s.validate = .ok () → strategy.Begins s g h →
      History s g strategy [g, h.graph] (.between 0 h)
  | move {log : List Graph} {moment next : Moment} : History s g strategy log moment →
      strategy.Moves s moment next → History s g strategy (log ++ [next.graph]) next

/-- The strategy builds this hierarchy from the graph. -/
def Builds (s : Settings) (g : Graph) (h : Hierarchy) : Strategy → Prop
  | byPriority schedule => ∃ progress, Hierarchy.buildUnder schedule s g = .ok (progress, h)
  | inOrder order => Hierarchy.buildInOrder s order g = .ok h

end Strategy

namespace Graph

variable {g h : Graph} {number v : Nat} {members : List Nat}

/-- A shortcut over a member extends the graph. -/
theorem Bridging.extends {edgeIn edgeOut : Edge} {bothWays : Bool} {u w : Nat}
    (bridging : Bridging members g v edgeIn edgeOut bothWays u w) (valid : g.WellFormed) :
    g.Extends (g.bridge v edgeIn edgeOut bothWays) where
  toGrows := .bridge
  vertices i old found := ⟨old, by rw [bridge_vertices]; exact found, .refl old⟩
  appended i e found past := by
    have crossing := bridging.toCrossing
    have size := withoutEdges_edgeCount (g := g) (g.obsolete v edgeIn edgeOut bothWays)
    rw [bridge_edges] at found
    split at found
    · next last =>
      obtain rfl := Option.some.inj found
      refine ⟨rfl, last.symm, ?_⟩
      rw [crossing.source_eq, crossing.target_eq]
      exact crossing.apart
    · have known := (Array.getElem?_eq_some_iff.mp found).1
      rw [← edgeCount, size] at known
      omega
  confined := by
    obtain ⟨start, goal⟩ := bridging.toPassage.mem_unprocessed valid
    exact bridging.toCrossing.confined valid start goal

/-- A step of a round that leaves the vertices alone extends the graph. -/
theorem Step.extends (step : Step number members g h) (valid : g.WellFormed)
    (vertices : h.vertices = g.vertices) : g.Extends h := by
  rcases step.edges_cases with edges | ⟨v, edgeIn, edgeOut, bothWays, u, w, bridging, rfl⟩
  · refine .of_edges_eq edges (congrArg Array.size vertices) fun i old found => ?_
    rw [vertices]
    exact ⟨old, found, .refl old⟩
  · exact bridging.extends valid

end Graph

namespace Hierarchy

open RoadHierarchy.Graph

variable {s : Settings} {g : Graph} {round : Round} {h next : Hierarchy} {v : Nat}

theorem foldlM_addShortcut_extends {bypasses : List Bypass} (valid : g.WellFormed)
    (sofar : Steps round.number round.members g h.graph) (inRound : v ∈ round.members)
    (unprocessed : v ∈ h.graph.unprocessed) (plan : g.Plan v (· ∈ round.members) bypasses)
    (success : bypasses.foldlM (addShortcut round v) h = .ok next) :
    h.graph.Extends next.graph := by
  have kept : Steps round.number round.members g next.graph ∧
      next.graph.vertices = h.graph.vertices ∧ h.graph.Extends next.graph := by
    refine foldlM_keeps (fun state : Hierarchy => Steps round.number round.members g state.graph ∧
      state.graph.vertices = h.graph.vertices ∧ h.graph.Extends state.graph) ?_ success
      ⟨sofar, rfl, .refl _⟩
    rintro bypass member before after added ⟨steps, vertices, extend⟩
    have between := steps.wellFormed valid
    have open_ : v ∈ before.graph.unprocessed := by
      rw [Graph.unprocessed, vertices]
      exact unprocessed
    obtain ⟨step, -⟩ := addShortcut_bridges valid steps inRound open_ plan member added
    have same := (addShortcut_keeps between added).2
    exact ⟨steps.tail step, same.trans vertices, extend.trans (step.extends between same)⟩
  exact kept.2.2

/-- Closing a vertex raises unprocessed vertices and marks one. -/
theorem close_extends {above : List Nat} (valid : h.graph.WellFormed)
    (success : h.close round v = .ok (above, next)) : h.graph.Extends next.graph := by
  unfold close at success
  obtain ⟨vertex, -, success⟩ := bind_eq_ok.mp success
  obtain ⟨depth, -, success⟩ := bind_eq_ok.mp success
  obtain ⟨raised, lifted, success⟩ := bind_eq_ok.mp success
  obtain ⟨graph, marked, success⟩ := bind_eq_ok.mp success
  cases pure_eq_ok.mp success
  have tuned : h.graph.Tuned raised :=
    foldlM_keeps h.graph.Tuned (fun _ _ _ _ step sofar => sofar.trans (tuned_of_raiseDepth step))
      lifted (.refl _)
  have known : v < h.graph.vertexCount := tuned.vertexCount ▸ (markProcessed_eq_ok.mp marked).1.1
  have kept : h.graph.Tuned raised ∧ h.graph.Extends raised := by
    refine foldlM_keeps (fun state => h.graph.Tuned state ∧ h.graph.Extends state) ?_ lifted
      ⟨.refl _, .refl _⟩
    rintro neighbor member before after step ⟨same, extend⟩
    have open_ : neighbor ∈ before.unprocessed := by
      rw [same.unprocessed]
      exact ((mem_openNeighbors valid known).mp member).1
    exact ⟨same.trans (tuned_of_raiseDepth step),
      extend.trans (.of_raiseDepth (same.wellFormed valid) open_ step)⟩
  exact kept.2.trans (.of_markProcessed marked)

/-- Contracting a member by its plan extends the graph. The neighbours that are put above it are
unprocessed afterwards, unless they are members as well. -/
theorem contract_extends {result : Nat × Simulation} {above : List Nat} (valid : g.WellFormed)
    (sofar : Steps round.number round.members g h.graph) (inRound : result.1 ∈ round.members)
    (plan : g.Plan result.1 (· ∈ round.members) result.2.bypasses)
    (success : h.contract round result = .ok (above, next)) :
    h.graph.Extends next.graph ∧
      ∀ w ∈ above, w ∉ round.members → w ∈ next.graph.unprocessed := by
  have before := sofar.wellFormed valid
  obtain ⟨unprocessed, -⟩ := closes_of_contract before success
  obtain ⟨bridged, added, closed⟩ := bind_eq_ok.mp success
  obtain ⟨between, -⟩ := foldlM_addShortcut_keeps before added
  have closing := closing_of_close between closed
  refine ⟨?_, fun w member stays => ?_⟩
  · exact (foldlM_addShortcut_extends valid sofar inRound unprocessed plan added).trans
      (close_extends between closed)
  · have open_ := ((closing.mem_above w).mp member).1
    exact (closing.steps inRound).mem_unprocessed between open_ stays

/-- Ranking unprocessed vertices extends the graph. -/
theorem rank_extends {turns vertices : List Nat} (valid : h.graph.WellFormed)
    (unprocessed : ∀ w ∈ vertices, w ∈ h.graph.unprocessed)
    (success : h.rank s turns vertices = .ok next) : h.graph.Extends next.graph := by
  obtain ⟨results, simulated, success⟩ := bind_eq_ok.mp success
  obtain ⟨graph, ranked, success⟩ := bind_eq_ok.mp success
  obtain rfl := pure_eq_ok.mp success
  obtain ⟨rfl, -⟩ := dispatch_eq_ok simulated
  have kept : h.graph.Tuned graph ∧ h.graph.Extends graph := by
    refine foldlM_keeps (fun state => h.graph.Tuned state ∧ h.graph.Extends state) ?_ ranked
      ⟨.refl _, .refl _⟩
    rintro result member before after step ⟨same, extend⟩
    have open_ : result.1 ∈ before.unprocessed := by
      rw [same.unprocessed]
      exact unprocessed _ (List.mem_map_of_mem member)
    obtain ⟨vertex, -, set⟩ := bind_eq_ok.mp step
    exact ⟨same.trans (tuned_of_setPriority set),
      extend.trans (.of_setPriority (same.wellFormed valid) open_ set)⟩
  exact kept.2

/-- In a given order, the next vertex is contracted only if it is unprocessed. -/
theorem contractNext_extends {number : Nat} (valid : h.graph.WellFormed)
    (success : h.contractNext s (v, number) = .ok next) :
    next.graph.WellFormed ∧ h.graph.Extends next.graph := by
  obtain ⟨known, simulation, simulated, start, touched, set, applied⟩ := contractNext_eq_ok success
  have tuned := tuned_of_setPriority set
  have before := tuned.wellFormed valid
  have plan := tuned.plan (plan_of_simulate valid known simulated)
  obtain ⟨⟨above, final⟩, contracted, applied⟩ := bind_eq_ok.mp applied
  cases pure_eq_ok.mp applied
  obtain ⟨⟨above, middle⟩, contracted, later⟩ := bind_eq_ok.mp contracted
  cases later
  obtain ⟨unprocessed, -⟩ := closes_of_contract before contracted
  have open_ : v ∈ h.graph.unprocessed := tuned.unprocessed ▸ unprocessed
  have advances := contract_advances before .refl (List.mem_singleton.mpr rfl) plan contracted
  have extend := (contract_extends before .refl (List.mem_singleton.mpr rfl) plan contracted).1
  exact ⟨advances.steps.wellFormed before, (Extends.of_setPriority valid open_ set).trans extend⟩

end Hierarchy

namespace Strategy

open RoadHierarchy.Graph RoadHierarchy.Hierarchy

variable {s : Settings} {g : Graph} {strategy : Strategy} {moment next : Moment} {h : Hierarchy}
  {log : List Graph} {sets : List (List Nat)}

/-- Whatever a build does next extends its graph. -/
theorem Moves.extends (moves : strategy.Moves s moment next) (sound : moment.Sound) :
    next.Sound ∧ moment.graph.Extends next.graph := by
  cases moves with
  | @select schedule number h members results chosen filled dispatched =>
    have valid : h.graph.WellFormed := sound
    have known : ∀ v ∈ members, v < h.graph.vertexCount :=
      fun _ member => lt_of_mem_independentSet valid (chosen ▸ member)
    obtain ⟨listed, genuine⟩ := dispatch_eq_ok dispatched
    have planned := planned_of_simulateInRound valid known listed genuine
    have ordered := Agenda.perm_ofList (fun a b : Nat × Simulation => decide (a.1 ≤ b.1)) results
    have sorted := ordered.map (·.1)
    rw [listed] at sorted
    refine ⟨⟨h.graph, valid, .refl, fun result member => ⟨List.mem_map_of_mem member, ?_⟩, ?_⟩,
      .refl _⟩
    · simp only [sorted.mem_iff]
      exact planned result (ordered.mem_iff.mp member)
    · simp
  | @contract schedule round result rest met above h next contracted =>
    obtain ⟨g, valid, sofar, planned, left⟩ := sound
    obtain ⟨⟨inRound, plan⟩, others⟩ := List.forall_mem_cons.mp planned
    have advances := contract_advances valid sofar inRound plan contracted
    obtain ⟨extend, raised⟩ := contract_extends valid sofar inRound plan contracted
    refine ⟨⟨g, valid, sofar.trans advances.steps, others, fun w member stays => ?_⟩, extend⟩
    rcases List.mem_append.mp member with early | late
    · exact advances.steps.mem_unprocessed (sofar.wellFormed valid) (left w early stays) stays
    · exact raised w late stays
  | @rank schedule round met h next ranked =>
    obtain ⟨g, valid, sofar, -, left⟩ := sound
    have before := sofar.wellFormed valid
    have unprocessed : ∀ w ∈ Ascending.ofList (met.filter (!round.members.contains ·)),
        w ∈ h.graph.unprocessed := by
      intro w member
      rw [Ascending.mem_ofList, List.mem_filter] at member
      exact left w member.1 (by simpa using member.2)
    exact ⟨(reranked_of_rank ranked).wellFormed before, rank_extends before unprocessed ranked⟩
  | single _ contracted => exact contractNext_extends sound contracted

namespace History

/-- What has been moved through is part of the history. -/
theorem moves (history : strategy.History s g log moment)
    (moves : Relation.ReflTransGen (strategy.Moves s) moment next) :
    ∃ log, strategy.History s g log next := by
  induction moves with
  | refl => exact ⟨log, history⟩
  | tail _ last ih =>
    obtain ⟨log, history⟩ := ih
    exact ⟨_, history.move last⟩

/-- The graph of every moment extends those of all earlier moments. -/
theorem extends_all (history : strategy.History s g log moment) (valid : g.WellFormed) :
    moment.Sound ∧ log.head? = some g ∧ log.getLast? = some moment.graph ∧
      (∀ earlier ∈ log, earlier.Extends moment.graph) ∧ log.Pairwise Extends := by
  induction history with
  | @opening h _ begins =>
    have extend : g.Extends h.graph := by
      cases strategy with
      | byPriority schedule =>
        exact rank_extends (h := start g) valid (fun w member => member) begins
      | inOrder order =>
        obtain ⟨-, rfl⟩ := begins
        exact .refl g
    refine ⟨begins.reranked.wellFormed valid, rfl, rfl, ?_, ?_⟩
    · simp only [List.mem_cons, List.not_mem_nil, or_false, forall_eq_or_imp, forall_eq]
      exact ⟨extend, .refl _⟩
    · simpa using extend
  | @move log moment next _ last ih =>
    obtain ⟨sound, first, -, all, pairs⟩ := ih
    obtain ⟨later, extend⟩ := last.extends sound
    have onward : ∀ earlier ∈ log, earlier.Extends next.graph :=
      fun earlier member => (all earlier member).trans extend
    refine ⟨later, ?_, List.getLast?_concat, ?_, ?_⟩
    · rw [List.head?_append, first]
      rfl
    · intro earlier member
      rcases List.mem_append.mp member with early | late
      · exact onward earlier early
      · rw [List.mem_singleton.mp late]
        exact .refl _
    · refine List.pairwise_append.mpr ⟨pairs, List.pairwise_singleton .., ?_⟩
      intro earlier member other here
      rw [List.mem_singleton.mp here]
      exact onward earlier member

end History

/-- The vertices of a round are contracted one after the other. -/
theorem moves_of_contractAll {schedule : Schedule} {round : Round}
    {results : List (Nat × Simulation)} {met above : List Nat} {h last : Hierarchy}
    (success : contractAll round results h = .ok (above, last)) :
    Relation.ReflTransGen ((byPriority schedule).Moves s) (.amid round results met h)
      (.amid round [] (met ++ above) last) := by
  induction results generalizing met above h with
  | nil =>
    cases success
    rw [List.append_nil]
  | cons result rest ih =>
    obtain ⟨⟨here, middle⟩, first, success⟩ := bind_eq_ok.mp success
    obtain ⟨⟨later, final⟩, onward, success⟩ := bind_eq_ok.mp success
    cases pure_eq_ok.mp success
    rw [← List.append_assoc]
    exact (ih onward).head (.contract first)

/-- A round of a build is made of moves. -/
theorem Performs.moves {number : Nat} {members : List Nat} {h next : Hierarchy}
    (performs : strategy.Performs s number members h next) :
    Relation.ReflTransGen (strategy.Moves s) (.between number h) (.between (number + 1) next) := by
  cases strategy with
  | byPriority schedule =>
    obtain ⟨chosen, filled, stepped⟩ := performs
    obtain ⟨results, dispatched, success⟩ := bind_eq_ok.mp stepped
    obtain ⟨⟨touched, committed⟩, applied, ranked⟩ := bind_eq_ok.mp success
    obtain ⟨⟨above, final⟩, contracted, applied⟩ := bind_eq_ok.mp applied
    cases pure_eq_ok.mp applied
    exact .head (.select chosen filled dispatched)
      ((moves_of_contractAll contracted).tail (.rank ranked))
  | inOrder order =>
    obtain ⟨v, found, -, contracted⟩ := performs
    exact .single (.single found contracted)

/-- Every stage has a history. -/
theorem Stage.exists_history (stage : strategy.Stage s g sets h) :
    ∃ log, strategy.History s g log (.between sets.length h) := by
  induction stage with
  | opening usable begins => exact ⟨_, .opening usable begins⟩
  | round _ performs ih =>
    obtain ⟨log, history⟩ := ih
    rw [List.length_append]
    exact history.moves performs.moves

/-- A build goes through stages until no vertex is left. -/
theorem Builds.stage (built : strategy.Builds s g h) (valid : g.WellFormed) :
    ∃ sets last, strategy.Stage s g sets last ∧ last.graph.unprocessed = [] ∧
      h = last.conclude sets.length := by
  cases strategy with
  | byPriority schedule =>
    obtain ⟨progress, success⟩ := built
    exact stage_of_buildUnder valid success
  | inOrder order => exact stage_of_buildInOrder valid built

/-- Contraction only appends and flags. The built graph extends the input, and a build has a history
from the input to its end. In every history, finished or not, each graph extends all graphs before
it: once a vertex has been contracted, nothing happens to it or to an edge at it any more. -/
theorem extends_of_builds (reachable : g.Reachable) (built : strategy.Builds s g h) :
    g.Extends h.graph ∧
      (∃ log rounds last, strategy.History s g log (.between rounds last) ∧
        last.graph.unprocessed = [] ∧ h = last.conclude rounds) ∧
      ∀ log moment, strategy.History s g log moment →
        log.head? = some g ∧ log.getLast? = some moment.graph ∧ log.Pairwise Extends := by
  have valid := reachable.wellFormed
  obtain ⟨sets, last, stage, complete, rfl⟩ := built.stage valid
  obtain ⟨log, history⟩ := stage.exists_history
  obtain ⟨-, first, -, all, -⟩ := history.extends_all valid
  refine ⟨all g (List.mem_of_head? first), ⟨log, _, last, history, complete, rfl⟩, ?_⟩
  intro log moment history
  obtain ⟨-, first, final, -, pairs⟩ := history.extends_all valid
  exact ⟨first, final, pairs⟩

/-- A ring of four, one corner of which has been contracted before: the others are contracted in a
given order. -/
theorem extends_of_builds_ring : ∃ g h, (do
      let ring ← Graph.ofExtract ⟨List.replicate 4 ⟨0, 0⟩,
        [⟨0, 1, 1, true⟩, ⟨1, 2, 1, true⟩, ⟨2, 3, 1, true⟩, ⟨3, 0, 1, true⟩]⟩
      ring.markProcessed 3 7) = .ok g ∧
    (inOrder [1, 0, 2]).Builds {} g h ∧ g.Extends h.graph ∧
      ∀ log moment, (inOrder [1, 0, 2]).History {} g log moment →
        log.head? = some g ∧ log.getLast? = some moment.graph ∧ log.Pairwise Extends := by
  have computed : (do
      let ring ← Graph.ofExtract ⟨List.replicate 4 ⟨0, 0⟩,
        [⟨0, 1, 1, true⟩, ⟨1, 2, 1, true⟩, ⟨2, 3, 1, true⟩, ⟨3, 0, 1, true⟩]⟩
      let g ← ring.markProcessed 3 7
      let _ ← buildInOrder {} [1, 0, 2] g
      return true).toOption = some true := by
    decide +kernel
  obtain ⟨ring, extracted, computed⟩ := bind_eq_ok.mp (toOption_eq_some.mp computed)
  obtain ⟨g, marked, computed⟩ := bind_eq_ok.mp computed
  obtain ⟨h, built, -⟩ := bind_eq_ok.mp computed
  have reachable : g.Reachable :=
    .perform (.markProcessed 3 7) (Graph.reachable_ofExtract extracted) marked
  have whole : (inOrder [1, 0, 2]).Builds {} g h := built
  obtain ⟨extend, -, histories⟩ := extends_of_builds reachable whole
  exact ⟨g, h, bind_eq_ok.mpr ⟨ring, extracted, marked⟩, whole, extend, histories⟩

end Strategy

end RoadHierarchy
