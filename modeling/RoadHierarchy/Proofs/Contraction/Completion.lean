import RoadHierarchy.Proofs.Contraction.Commitment
import RoadHierarchy.Proofs.Contraction.Parallel
import RoadHierarchy.Proofs.Contraction.Stages

/-! # Every build completes

As long as no sum overflows, the priority strategy never stops early: ranking and simulating deliver
for every vertex, a round selects at least one vertex and can be committed, and each round leaves
fewer vertices. In the end every vertex that was left in the input has been contracted in one round,
and no round is without one.
-/

namespace RoadHierarchy

namespace Hierarchy

open RoadHierarchy.Graph

variable {s : Settings} {h : Hierarchy}

/-- A vertex of the graph can be given the priority of its simulation. -/
theorem exists_prioritize {g : Graph} {result : Nat × Simulation}
    (known : result.1 < g.vertexCount) : ∃ next, prioritize s g result = .ok next := by
  obtain ⟨vertex, found⟩ := exists_vertex known
  obtain ⟨next, set⟩ := exists_updateVertex known fun old =>
    { old with priority := s.priority result.2 vertex.depth }
  exact ⟨next, bind_eq_ok.mpr ⟨vertex, found, set⟩⟩

section Rounds

variable (usable : s.validate = .ok ()) (clears : s.CursorClears h.graph.vertexCount)
include usable clears

/-- Different vertices of the graph can be ranked. -/
theorem rank_returns {vertices : List Nat} (known : ∀ v ∈ vertices, v < h.graph.vertexCount)
    (single : vertices.Nodup) (turns : List Nat) :
    Returns Overflows (fun _ => True) (h.rank s turns vertices) := by
  obtain ⟨staffed, -, positive⟩ := Settings.positive_of_validate usable
  have room := clears.mono (length_le_vertexCount known single)
  apply (simulateAll_returns known positive staffed room turns single).bind
  intro results _ listed
  have ranks : Returns Overflows h.graph.Tuned (results.foldlM (prioritize s) h.graph) := by
    apply Returns.foldlM
    · intro result member state tuned
      have there : result.1 < state.vertexCount := by
        rw [tuned.vertexCount]
        exact known _ (listed ▸ List.mem_map.mpr ⟨result, member, rfl⟩)
      obtain ⟨next, set⟩ := exists_prioritize there
      exact .of_eq_ok set (tuned.trans (reranked_of_prioritize set).toTuned)
    · exact .refl _
  apply ranks.bind
  intro graph _ _
  trivial

/-- A round contracts the vertices that have been selected for it. -/
theorem step_returns (valid : h.graph.WellFormed) (schedule : Schedule) (number : Nat) :
    Returns Overflows (fun _ => True)
      (h.step s schedule number (h.graph.independentSet s.kNeighborhood)) := by
  obtain ⟨staffed, wide, positive⟩ := Settings.positive_of_validate usable
  have unprocessed : ∀ v ∈ h.graph.independentSet s.kNeighborhood, v ∈ h.graph.unprocessed :=
    fun v member => (mem_independentSet.mp member).1
  have single := nodup_independentSet valid s.kNeighborhood
  have independent := independent_independentSet valid wide
  generalize h.graph.independentSet s.kNeighborhood = members at *
  have known : ∀ v ∈ members, v < h.graph.vertexCount :=
    fun v member => (valid.mem_unprocessed.mp (unprocessed v member)).1
  have room := clears.mono (length_le_vertexCount known single)
  apply (simulateRound_returns known positive staffed room _ single).bind
  rintro results - ⟨listed, genuine⟩
  have planned := planned_of_simulateInRound valid known listed genuine
  apply (applyRound_returns (h := h.countSimulations results.length) valid independent listed single
    unprocessed planned).bind
  rintro ⟨touched, committed⟩ applied ⟨distinct, inside⟩
  have contracts := applyRound_contracts (h := h.countSimulations results.length) valid listed
    planned applied
  have size : committed.graph.vertexCount = h.graph.vertexCount := contracts.closes.vertexCount
  apply rank_returns usable (size.symm ▸ clears) (size.symm ▸ inside) distinct

/-- Rounds are performed until no vertex is left. -/
theorem rounds_returns (valid : h.graph.WellFormed) (schedule : Schedule) (number : Nat) :
    Returns Overflows (fun _ => True)
      (h.rounds s schedule number h.graph.unprocessed.length) := by
  induction left : h.graph.unprocessed.length using Nat.strongRecOn generalizing h number with
  | ind remaining ih =>
    unfold rounds
    split
    · trivial
    · next more =>
      have some : h.graph.independentSet s.kNeighborhood ≠ [] := by
        apply independentSet_ne_nil valid
        rintro none
        rw [none] at left
        exact more left.symm
      split
      · next none => exact (some none).elim
      · next first others chosen =>
        have stepping := step_returns usable clears valid schedule number
        rw [chosen] at stepping
        apply stepping.bind
        intro next stepped _
        have performs : (Strategy.byPriority schedule).Performs s number (first :: others) h next :=
          ⟨chosen, List.cons_ne_nil _ _, stepped⟩
        have positive := (Settings.positive_of_validate usable).2.1
        have run := performs.run positive valid
        have size := (run.preserves valid).grows.vertexCount
        have shrunk := performs.unprocessed_length positive valid
        rw [List.length_cons] at shrunk
        have fewer : next.graph.unprocessed.length = remaining - (first :: others).length := by
          rw [List.length_cons]
          omega
        have later := ih _ (by omega) (size.symm ▸ clears) (run.wellFormed valid) (number + 1) fewer
        apply later.bind
        rintro ⟨progress, last⟩ - -
        trivial

end Rounds

variable {g : Graph}

theorem buildUnder_returns (valid : g.WellFormed) (usable : s.validate = .ok ())
    (clears : s.CursorClears g.vertexCount) (schedule : Schedule) :
    Returns Overflows (fun _ => True) (buildUnder schedule s g) := by
  unfold buildUnder
  apply Returns.after usable
  have known : ∀ v ∈ g.unprocessed, v < (start g).graph.vertexCount :=
    fun v member => (valid.mem_unprocessed.mp member).1
  apply (rank_returns (h := start g) usable clears known valid.unprocessed_nodup (schedule 0)).bind
  intro ranked success _
  have tuned : g.Tuned ranked.graph := (reranked_of_rank success).toTuned
  have running := rounds_returns usable (tuned.vertexCount.symm ▸ clears) (tuned.wellFormed valid)
    schedule 0
  rw [tuned.unprocessed] at running
  apply running.bind
  rintro ⟨progress, last⟩ - -
  trivial

/-- The priority strategy completes under every schedule, unless a sum overflows. It takes at most
as many rounds as there are vertices to contract. In the end every vertex is processed, each vertex
that was unprocessed has its round, and there is a vertex for each round. -/
theorem buildUnder_completes (reachable : g.Reachable) (usable : s.validate = .ok ())
    (fits : s.CursorFits g.vertexCount) (schedule : Schedule)
    (room : buildUnder schedule s g ≠ .error .overflow) :
    ∃ progress h, buildUnder schedule s g = .ok (progress, h) ∧
      h.statistics.rounds ≤ g.unprocessed.length ∧
      (h.graph.vertexCount = g.vertexCount ∧
        ∀ v < g.vertexCount, h.graph.isProcessed v = true) ∧
      (∀ v ∈ g.unprocessed, ∃ round < h.statistics.rounds, h.graph.round? v = some round) ∧
      ∀ round < h.statistics.rounds, ∃ v ∈ g.unprocessed, h.graph.round? v = some round := by
  have valid := reachable.wellFormed
  obtain ⟨staffed, -, positive⟩ := Settings.positive_of_validate usable
  have returns := buildUnder_returns valid usable (fits.clears positive staffed) schedule
  obtain ⟨⟨progress, h⟩, success, -⟩ := returns.exists_ok fun failure overflows => overflows ▸ room
  obtain ⟨sets, last, stage, complete, rfl⟩ := stage_of_buildUnder valid success
  have run := stage.run valid
  have size : last.graph.vertexCount = g.vertexCount := (run.preserves valid).grows.vertexCount
  refine ⟨progress, _, success, ?_, ⟨size, ?_⟩, ?_, ?_⟩
  · have total := run.unprocessed.length_eq
    rw [complete, List.append_nil, List.length_flatten] at total
    have members : ∀ count ∈ sets.map List.length, 1 ≤ count := by
      intro count listed
      obtain ⟨members, present, rfl⟩ := List.mem_map.mp listed
      exact List.length_pos_iff.mpr (stage.ne_nil members present)
    calc
      sets.length = (sets.map List.length).length := by rw [List.length_map]
      _ ≤ (sets.map List.length).sum := List.length_le_sum_of_one_le _ members
      _ = g.unprocessed.length := total.symm
  · intro v known
    by_contra open_
    rw [Bool.not_eq_true] at open_
    have left := (run.wellFormed valid).mem_unprocessed.mpr ⟨size.symm ▸ known, open_⟩
    rw [complete] at left
    cases left
  · intro v member
    obtain ⟨i, members, found, inside⟩ := run.exists_round complete member
    have given := (run.round?_of_mem valid found inside).2
    rw [Nat.zero_add] at given
    exact ⟨i, (List.getElem?_eq_some_iff.mp found).1, given⟩
  · intro round fewer
    have found : sets[round]? = some sets[round] := List.getElem?_eq_getElem fewer
    obtain ⟨v, inside⟩ := List.exists_mem_of_ne_nil _ (stage.ne_nil _ (List.getElem_mem fewer))
    obtain ⟨member, given⟩ := run.round?_of_mem valid found inside
    rw [Nat.zero_add] at given
    exact ⟨v, member, given⟩

/-- Four workers, who take turns in a certain order, build a hierarchy of a square in which every
junction has its round. -/
theorem buildUnder_completes_square : ∃ g, Graph.ofExtract ⟨List.replicate 4 ⟨0, 0⟩,
      [⟨0, 1, 1, true⟩, ⟨1, 2, 1, true⟩, ⟨2, 3, 1, true⟩, ⟨3, 0, 1, true⟩]⟩ = .ok g ∧
    ∃ progress h, buildUnder (fun _ => [1, 0, 2]) {} g = .ok (progress, h) ∧
      h.statistics.rounds ≤ 4 ∧ (∀ v < 4, h.graph.isProcessed v = true) ∧
      ∃ round < h.statistics.rounds, h.graph.round? 3 = some round := by
  have computed : (do
      let g ← Graph.ofExtract ⟨List.replicate 4 ⟨0, 0⟩,
        [⟨0, 1, 1, true⟩, ⟨1, 2, 1, true⟩, ⟨2, 3, 1, true⟩, ⟨3, 0, 1, true⟩]⟩
      Settings.validate {}
      let _ ← buildUnder (fun _ => [1, 0, 2]) {} g
      return (g.vertexCount, g.unprocessed)).toOption = some (4, [0, 1, 2, 3]) := by
    decide +kernel
  obtain ⟨g, extracted, computed⟩ := bind_eq_ok.mp (toOption_eq_some.mp computed)
  obtain ⟨_, usable, computed⟩ := bind_eq_ok.mp computed
  obtain ⟨built, success, computed⟩ := bind_eq_ok.mp computed
  obtain ⟨size, left⟩ := Prod.mk.inj (pure_eq_ok.mp computed)
  have fits : Settings.CursorFits {} g.vertexCount := by
    rw [size]
    decide
  have room : buildUnder (fun _ => [1, 0, 2]) {} g ≠ .error .overflow := by
    rw [success]
    rintro ⟨⟩
  obtain ⟨progress, h, done, few, ⟨-, processed⟩, numbered, -⟩ :=
    buildUnder_completes (Graph.reachable_ofExtract extracted) usable fits (fun _ => [1, 0, 2]) room
  rw [left] at few numbered
  rw [size] at processed
  exact ⟨g, extracted, progress, h, done, few, processed, numbered 3 (by decide)⟩

end Hierarchy

end RoadHierarchy
