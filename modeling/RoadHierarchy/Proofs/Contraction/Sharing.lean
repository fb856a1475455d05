import RoadHierarchy.Proofs.Contraction.Parallel
import RoadHierarchy.Proofs.Contraction.Ranking

/-! # Who does the work does not matter

How many workers there are, how much they take at a time and in which order they ask only decides
who simulates which vertex. All builds of a graph come to the same outcome, a hierarchy or a
failure, as long as no cursor comes round to vertices that it has passed. If one does, already the
first ranking fails.
-/

namespace RoadHierarchy

/-- The same contraction with another number of workers and batches of another size. -/
def Settings.sharedOut (s : Settings) (threads size : Nat) : Settings :=
  { s with numThreads := threads, batchSize := size }

namespace Hierarchy

open RoadHierarchy.Graph

variable {s : Settings} {threads size count : Nat} {g : Graph} {h : Hierarchy}

/-- Rounds are performed until no vertex remains. -/
theorem rounds_eq (s : Settings) (schedule : Schedule) (number remaining : Nat) (h : Hierarchy) :
    h.rounds s schedule number remaining =
      if remaining = 0 then .ok ([], h.conclude number)
      else match h.graph.independentSet s.kNeighborhood with
        | [] => .error (.stalled remaining)
        | first :: others => do
            let left := remaining - (first :: others).length
            let next ← h.step s schedule number (first :: others)
            let (later, last) ← rounds s schedule (number + 1) left next
            return (left :: later, last) := by
  rw [rounds]
  split
  · rfl
  · split <;> next chosen => rw [chosen]

section Shared

variable (usable : s.validate = .ok ()) (usableToo : (s.sharedOut threads size).validate = .ok ())
  (clears : s.CursorClears count) (clearsToo : (s.sharedOut threads size).CursorClears count)
include usable usableToo clears clearsToo

theorem rank_sharedOut {vertices : List Nat} (known : ∀ v ∈ vertices, v < h.graph.vertexCount)
    (single : vertices.Nodup) (few : vertices.length ≤ count) (turns others : List Nat) :
    h.rank s turns vertices = h.rank (s.sharedOut threads size) others vertices := by
  obtain ⟨staffed, -, positive⟩ := Settings.positive_of_validate usable
  obtain ⟨staffedToo, -, positiveToo⟩ := Settings.positive_of_validate usableToo
  unfold rank
  rw [simulateAll_eq known positive staffed (clears.mono few) turns single,
    simulateAll_eq known positiveToo staffedToo (clearsToo.mono few) others single]
  rfl

theorem step_sharedOut {members : List Nat} (valid : h.graph.WellFormed)
    (few : h.graph.unprocessed.length ≤ count)
    (chosen : h.graph.independentSet s.kNeighborhood = members) (filled : members ≠ [])
    (schedule others : Schedule) (number : Nat) :
    h.step s schedule number members =
      h.step (s.sharedOut threads size) others number members := by
  obtain ⟨staffed, wide, positive⟩ := Settings.positive_of_validate usable
  obtain ⟨staffedToo, -, positiveToo⟩ := Settings.positive_of_validate usableToo
  have unprocessed : ∀ v ∈ members, v ∈ h.graph.unprocessed :=
    fun v member => (mem_independentSet.mp (chosen ▸ member)).1
  have known : ∀ v ∈ members, v < h.graph.vertexCount :=
    fun v member => (valid.mem_unprocessed.mp (unprocessed v member)).1
  have single : members.Nodup := chosen ▸ nodup_independentSet valid s.kNeighborhood
  have fewer : members.length ≤ count :=
    ((List.subperm_of_subset single unprocessed).length_le).trans few
  have alike : h.graph.simulateRound s (schedule (2 * number + 1)) members =
      h.graph.simulateRound (s.sharedOut threads size) (others (2 * number + 1)) members := by
    rw [simulateRound_eq known positive staffed (clears.mono fewer) _ single,
      simulateRound_eq known positiveToo staffedToo (clearsToo.mono fewer) _ single]
    rfl
  unfold step
  rw [← alike]
  apply bind_congr_ok
  intro results dispatched
  apply bind_congr_ok
  rintro ⟨touched, committed⟩ applied
  -- The vertices that are ranked anew are left, so they are not more than were left before.
  have commitment : Commitment s schedule number h members touched committed :=
    ⟨chosen, filled, results, dispatched, applied⟩
  obtain ⟨-, -, -, contracts, -, ascending, -⟩ := commitment.touches wide valid
  have left : ∀ v ∈ touched, v ∈ committed.graph.unprocessed :=
    fun v member => ((commitment.mem_touched wide valid).mp member).1
  have distinct : touched.Nodup := ascending.imp Nat.ne_of_lt
  have remaining : touched.length ≤ count := by
    have before : ∀ v ∈ touched, v ∈ h.graph.unprocessed :=
      fun v member => ((contracts.closes.mem_unprocessed valid).mp (left v member)).1
    exact ((List.subperm_of_subset distinct before).length_le).trans few
  have after := contracts.wellFormed valid
  exact rank_sharedOut usable usableToo clears clearsToo
    (fun v member => (after.mem_unprocessed.mp (left v member)).1) distinct remaining _ _

theorem rounds_sharedOut (valid : h.graph.WellFormed) (few : h.graph.unprocessed.length ≤ count)
    (schedule others : Schedule) (number : Nat) :
    h.rounds s schedule number h.graph.unprocessed.length =
      h.rounds (s.sharedOut threads size) others number h.graph.unprocessed.length := by
  induction left : h.graph.unprocessed.length using Nat.strongRecOn generalizing h number with
  | ind remaining ih =>
    have choice : h.graph.independentSet (s.sharedOut threads size).kNeighborhood =
        h.graph.independentSet s.kNeighborhood := rfl
    rw [rounds_eq s, rounds_eq (s.sharedOut threads size), choice]
    split
    · rfl
    · cases chosen : h.graph.independentSet s.kNeighborhood with
      | nil => rfl
      | cons first rest =>
        have alike := step_sharedOut usable usableToo clears clearsToo valid few chosen
          (List.cons_ne_nil _ _) schedule others number
        dsimp only
        rw [← alike]
        apply bind_congr_ok
        intro next stepped
        have performs : (Strategy.byPriority schedule).Performs s number (first :: rest) h next :=
          ⟨chosen, List.cons_ne_nil _ _, stepped⟩
        have positive := (Settings.positive_of_validate usable).2.1
        have run := performs.run positive valid
        have shrunk := performs.unprocessed_length positive valid
        rw [List.length_cons] at shrunk
        have fewer : next.graph.unprocessed.length = remaining - (first :: rest).length := by
          rw [List.length_cons]
          omega
        rw [ih _ (by omega) (run.wellFormed valid) (by omega) (number + 1) fewer]

theorem buildUnder_sharedOut (valid : g.WellFormed) (few : g.unprocessed.length ≤ count)
    (schedule others : Schedule) :
    buildUnder schedule s g = buildUnder others (s.sharedOut threads size) g := by
  have known : ∀ v ∈ g.unprocessed, v < (start g).graph.vertexCount :=
    fun v member => (valid.mem_unprocessed.mp member).1
  have ranking := rank_sharedOut (h := start g) usable usableToo clears clearsToo known
    valid.unprocessed_nodup few (schedule 0) (others 0)
  unfold buildUnder
  rw [usable, usableToo]
  apply bind_congr_ok
  intro _ _
  dsimp only
  rw [← ranking]
  apply bind_congr_ok
  intro ranked first
  have tuned : g.Tuned ranked.graph := (reranked_of_rank first).toTuned
  have running := rounds_sharedOut usable usableToo clears clearsToo (tuned.wellFormed valid)
    (tuned.unprocessed.symm ▸ few) schedule others 0
  rw [tuned.unprocessed] at running
  rw [running]

end Shared

/-- If the cursor of the first ranking comes round, some vertex is simulated twice. -/
theorem buildUnder_wrapped (valid : g.WellFormed) (usable : s.validate = .ok ())
    (again : ¬ s.CursorClears g.unprocessed.length) (schedule : Schedule) :
    Returns (fun failure => failure = .overflow ∨ ∃ v, failure = .invariant (.simulatedTwice v))
      (fun _ => False) (buildUnder schedule s g) := by
  obtain ⟨staffed, -, positive⟩ := Settings.positive_of_validate usable
  have known : ∀ v ∈ g.unprocessed, v < g.vertexCount :=
    fun v member => (valid.mem_unprocessed.mp member).1
  have refuses : Returns
      (fun failure => failure = .overflow ∨ ∃ v, failure = .invariant (.simulatedTwice v))
      (fun _ => False) (g.simulateAll s (schedule 0) g.unprocessed) := by
    refine (dispatch_wrapped known positive staffed (schedule 0) again).imp ?_ (fun _ _ => id)
    rintro failure - ((fails | overflow) | twice)
    · exact .inl (overflow_of_failsAmong (fun v => g.simulateAvoiding_returns _ v _) fails)
    · exact .inl overflow
    · exact .inr twice
  have ranking : Returns
      (fun failure => failure = .overflow ∨ ∃ v, failure = .invariant (.simulatedTwice v))
      (fun _ => False) ((start g).rank s (schedule 0) g.unprocessed) := by
    apply refuses.bind
    intro _ _ none
    exact none.elim
  unfold buildUnder
  apply Returns.after usable
  apply ranking.bind
  intro _ _ none
  exact none.elim

/-- Builds of a graph with settings that differ only in the number of workers and the size of
batches come to the same outcome under all schedules, if neither cursor comes round to vertices that
it has passed. With settings whose cursor does so, the graph cannot be built under any schedule. -/
theorem buildUnder_eq_sharedOut (reachable : g.Reachable) (usable : s.validate = .ok ())
    (usableToo : (s.sharedOut threads size).validate = .ok ()) :
    (s.CursorClears g.unprocessed.length →
        (s.sharedOut threads size).CursorClears g.unprocessed.length →
        ∀ schedule others,
          buildUnder schedule s g = buildUnder others (s.sharedOut threads size) g) ∧
      (¬ s.CursorClears g.unprocessed.length → ∀ schedule,
        buildUnder schedule s g = .error .overflow ∨
          ∃ v, buildUnder schedule s g = .error (.invariant (.simulatedTwice v))) := by
  have valid := reachable.wellFormed
  constructor
  · intro clears clearsToo
    exact buildUnder_sharedOut usable usableToo clears clearsToo valid (Nat.le_refl _)
  · intro again schedule
    have refuses := buildUnder_wrapped valid usable again schedule
    cases outcome : buildUnder schedule s g with
    | ok built =>
      rw [outcome] at refuses
      exact refuses.elim
    | error failure =>
      rw [outcome] at refuses
      rcases refuses with rfl | ⟨v, rfl⟩
      · exact .inl rfl
      · exact .inr ⟨v, rfl⟩

/-- Four workers with batches of 32, and three who take one vertex at a time and ask in another
order, build the same from a square. -/
theorem buildUnder_eq_sharedOut_square : ∃ g, Graph.ofExtract ⟨List.replicate 4 ⟨0, 0⟩,
      [⟨0, 1, 1, true⟩, ⟨1, 2, 1, true⟩, ⟨2, 3, 1, true⟩, ⟨3, 0, 1, true⟩]⟩ = .ok g ∧
    Settings.validate {} = .ok () ∧ (Settings.sharedOut {} 3 1).validate = .ok () ∧
    buildUnder (fun _ => []) {} g =
      buildUnder (fun _ => [2, 0, 1]) (Settings.sharedOut {} 3 1) g := by
  have computed : (do
      let g ← Graph.ofExtract ⟨List.replicate 4 ⟨0, 0⟩,
        [⟨0, 1, 1, true⟩, ⟨1, 2, 1, true⟩, ⟨2, 3, 1, true⟩, ⟨3, 0, 1, true⟩]⟩
      Settings.validate {}
      (Settings.sharedOut {} 3 1).validate
      return g.unprocessed.length).toOption = some 4 := by
    decide +kernel
  obtain ⟨g, extracted, computed⟩ := bind_eq_ok.mp (toOption_eq_some.mp computed)
  obtain ⟨_, usable, computed⟩ := bind_eq_ok.mp computed
  obtain ⟨_, usableToo, computed⟩ := bind_eq_ok.mp computed
  have four : g.unprocessed.length = 4 := pure_eq_ok.mp computed
  have clears : Settings.CursorClears {} g.unprocessed.length := by
    rw [four]
    decide
  have clearsToo : (Settings.sharedOut {} 3 1).CursorClears g.unprocessed.length := by
    rw [four]
    decide
  have same := (buildUnder_eq_sharedOut (Graph.reachable_ofExtract extracted) usable
    usableToo).1 clears clearsToo (fun _ => []) (fun _ => [2, 0, 1])
  exact ⟨g, extracted, usable, usableToo, same⟩

/-- Two workers contract a single vertex in batches of 32, but not in batches of `2 ^ 63`: the
cursor is back at the start before both have stopped. -/
theorem buildUnder_ne_sharedOut : ∃ g, Graph.ofExtract ⟨[⟨0, 0⟩], []⟩ = .ok g ∧
    ∃ s : Settings, s = { numThreads := 2 } ∧ s.validate = .ok () ∧
      (s.sharedOut 2 0x8000000000000000).validate = .ok () ∧
      (∃ built, buildUnder (fun _ => []) s g = .ok built) ∧
      ∀ schedule, buildUnder schedule (s.sharedOut 2 0x8000000000000000) g ≠
        buildUnder (fun _ => []) s g := by
  have computed : (do
      let g ← Graph.ofExtract ⟨[⟨0, 0⟩], []⟩
      Settings.validate { numThreads := 2 }
      (Settings.sharedOut { numThreads := 2 } 2 0x8000000000000000).validate
      let _ ← buildUnder (fun _ => []) { numThreads := 2 } g
      return g.unprocessed.length).toOption = some 1 := by
    decide +kernel
  obtain ⟨g, extracted, computed⟩ := bind_eq_ok.mp (toOption_eq_some.mp computed)
  obtain ⟨_, usable, computed⟩ := bind_eq_ok.mp computed
  obtain ⟨_, usableToo, computed⟩ := bind_eq_ok.mp computed
  obtain ⟨built, success, computed⟩ := bind_eq_ok.mp computed
  have one : g.unprocessed.length = 1 := pure_eq_ok.mp computed
  have again : ¬ (Settings.sharedOut { numThreads := 2 } 2 0x8000000000000000).CursorClears
      g.unprocessed.length := by
    rw [one]
    decide
  refine ⟨g, extracted, _, rfl, usable, usableToo, ⟨built, success⟩, fun schedule same => ?_⟩
  have refuses := buildUnder_wrapped (Graph.reachable_ofExtract extracted).wellFormed usableToo
    again schedule
  rw [same, success] at refuses
  exact refuses

end Hierarchy

end RoadHierarchy
