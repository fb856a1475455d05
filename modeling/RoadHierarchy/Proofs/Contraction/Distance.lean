import RoadHierarchy.Proofs.Contraction.Stages

/-! # Contraction keeps distances

A round keeps every distance within the core of the graph: between vertices that are still
unprocessed afterwards, a shortest way that leads over unprocessed vertices only is as long as
before, although the members of the round are no longer there to be driven over. A whole run keeps
every distance over live edges, between contracted vertices as well.
-/

namespace RoadHierarchy

namespace Hierarchy

variable {h next : Hierarchy} {hopLimit number : Nat} {members touched : List Nat}
  {results : List (Nat × Simulation)} {s : Settings} {g : Graph}

/-- A round keeps the core distance of every two vertices that are unprocessed after it. It closes
its members, and what was processed before stays so. -/
theorem core_distance_applyRound (valid : h.graph.WellFormed)
    (unprocessed : ∀ v ∈ members, v ∈ h.graph.unprocessed)
    (independent : h.graph.Independent members)
    (simulated : Worker.simulateBatch (fun v => h.graph.simulateInRound hopLimit v members) members =
      .ok results)
    (success : h.applyRound number results = .ok (touched, next)) :
    h.graph.Closes number members next.graph ∧
      (∀ v < h.graph.vertexCount,
        next.graph.isProcessed v = true ↔ v ∈ members ∨ h.graph.isProcessed v = true) ∧
      ∀ u ∈ next.graph.unprocessed, ∀ w ∈ next.graph.unprocessed,
        next.graph.core.distance u w = h.graph.core.distance u w := by
  obtain ⟨listed, each⟩ := Worker.simulateBatch_eq_ok simulated
  have known := fun v member => (valid.mem_unprocessed.mp (unprocessed v member)).1
  have contracts := contracts_of_simulateInRound valid known listed each success
  refine ⟨contracts.closes, fun v => contracts.closes.isProcessed_iff valid
    (contracts.wellFormed valid), fun u start w goal => ?_⟩
  have same : ∀ limit, next.graph.core.Reaches u w limit ↔ h.graph.core.Reaches u w limit :=
    fun _ => contracts.core_reaches_iff valid independent start goal
  exact Network.distance_eq (fun limit => (same limit).mpr) fun limit => (same limit).mp

/-- In a square of two-way roads two opposite corners are contracted together. Neither is a witness
for the other, and the remaining corners are as far apart as before. -/
theorem core_distance_applyRound_square : ∃ g results touched next,
    Graph.ofExtract ⟨List.replicate 4 ⟨0, 0⟩,
      [⟨0, 1, 1, true⟩, ⟨1, 2, 1, true⟩, ⟨2, 3, 1, true⟩, ⟨3, 0, 1, true⟩]⟩ = .ok g ∧
    Worker.simulateBatch (fun v => g.simulateInRound 5 v [0, 2]) [0, 2] = .ok results ∧
    applyRound ⟨g, .zero⟩ 0 results = .ok (touched, next) ∧
    g.Closes 0 [0, 2] next.graph ∧ next.graph.isProcessed 2 = true ∧
    next.graph.isProcessed 3 = false ∧
    next.graph.core.distance 1 3 = g.core.distance 1 3 := by
  have computed : (do
      let g ← Graph.ofExtract ⟨List.replicate 4 ⟨0, 0⟩,
        [⟨0, 1, 1, true⟩, ⟨1, 2, 1, true⟩, ⟨2, 3, 1, true⟩, ⟨3, 0, 1, true⟩]⟩
      let results ← Worker.simulateBatch (fun v => g.simulateInRound 5 v [0, 2]) [0, 2]
      let applied ← applyRound ⟨g, .zero⟩ 0 results
      return decide ((∀ v ∈ ([0, 2] : List Nat), v ∈ g.unprocessed) ∧ g.Independent [0, 2] ∧
        g.vertexCount = 4 ∧ g.isProcessed 3 = false ∧ 1 ∈ applied.2.graph.unprocessed ∧
        3 ∈ applied.2.graph.unprocessed)).toOption =
          some true := by
    decide +kernel
  obtain ⟨g, built, computed⟩ := bind_eq_ok.mp (toOption_eq_some.mp computed)
  obtain ⟨results, simulated, computed⟩ := bind_eq_ok.mp computed
  obtain ⟨⟨touched, next⟩, applied, computed⟩ := bind_eq_ok.mp computed
  obtain ⟨unprocessed, independent, count, other, start, goal⟩ :=
    of_decide_eq_true (pure_eq_ok.mp computed)
  obtain ⟨closes, flags, distances⟩ :=
    core_distance_applyRound (h := ⟨g, .zero⟩) (Graph.reachable_ofExtract built).wellFormed
      unprocessed independent simulated applied
  refine ⟨g, results, touched, next, built, simulated, applied, closes, ?_, ?_,
    distances 1 start 3 goal⟩
  · exact (flags 2 (by rw [count]; decide)).mpr (.inl (by decide))
  · rw [← Bool.not_eq_true, flags 3 (by rw [count]; decide), other]
    decide

/-- Building a hierarchy changes no distance. Adding shortcuts makes none shorter, even if the edges
that are removed again stay; and what is left when they are gone makes none longer. -/
theorem distance_of_builtFrom (reachable : g.Reachable) (built : BuiltFrom s g h) (u w : Nat) :
    (g.everLive h.graph).distance u w = g.live.distance u w ∧
      h.graph.live.distance u w = g.live.distance u w := by
  obtain ⟨rounds, run, -⟩ := built.run reachable.wellFormed
  have preserves := run.preserves reachable.wellFormed
  exact ⟨preserves.distance_everLive, preserves.distance_live⟩

/-- The square again, now with a shortcut made by hand, a removed edge, and a corner that has been
contracted before: the other corners are contracted one by one. -/
theorem distance_of_builtFrom_square : ∃ g h, (do
      let plain ← Graph.ofExtract ⟨List.replicate 4 ⟨0, 0⟩,
        [⟨0, 1, 1, true⟩, ⟨1, 2, 1, true⟩, ⟨2, 3, 1, true⟩, ⟨3, 0, 1, true⟩]⟩
      let more ← plain.addShortcut 0 2 5 2 (0, 1) false
      let less ← more.2.markRemoved 1
      less.markProcessed 3 7) = .ok g ∧
    BuiltFrom {} g h ∧
    (g.everLive h.graph).distance 0 2 = g.live.distance 0 2 ∧
      h.graph.live.distance 0 2 = g.live.distance 0 2 := by
  have computed : (do
      let plain ← Graph.ofExtract ⟨List.replicate 4 ⟨0, 0⟩,
        [⟨0, 1, 1, true⟩, ⟨1, 2, 1, true⟩, ⟨2, 3, 1, true⟩, ⟨3, 0, 1, true⟩]⟩
      let more ← plain.addShortcut 0 2 5 2 (0, 1) false
      let less ← more.2.markRemoved 1
      let g ← less.markProcessed 3 7
      let _ ← buildInOrder {} [0, 2, 1] g
      return true).toOption = some true := by
    decide +kernel
  obtain ⟨plain, extracted, computed⟩ := bind_eq_ok.mp (toOption_eq_some.mp computed)
  obtain ⟨⟨id, more⟩, added, computed⟩ := bind_eq_ok.mp computed
  obtain ⟨less, removed, computed⟩ := bind_eq_ok.mp computed
  obtain ⟨g, marked, computed⟩ := bind_eq_ok.mp computed
  obtain ⟨h, built, -⟩ := bind_eq_ok.mp computed
  have start := Graph.reachable_ofExtract extracted
  have longer : more.Reachable :=
    .perform (.addShortcut 0 2 5 2 (0, 1) false) start (map_eq_ok.mpr ⟨_, added, rfl⟩)
  have shorter : less.Reachable := .perform (.markRemoved 1) longer removed
  have reachable : g.Reachable := .perform (.markProcessed 3 7) shorter marked
  have whole : BuiltFrom {} g h := .inr ⟨[0, 2, 1], built⟩
  refine ⟨g, h, ?_, whole, distance_of_builtFrom reachable whole 0 2⟩
  exact bind_eq_ok.mpr ⟨plain, extracted, bind_eq_ok.mpr ⟨_, added, bind_eq_ok.mpr
    ⟨less, removed, marked⟩⟩⟩

end Hierarchy

end RoadHierarchy
